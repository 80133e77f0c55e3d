import EspClock.Lib.Memory
import Mathlib.Data.Nat.Bitwise

/-!
# The partition of the file system

`spiffs_mount` puts SPIFFS between the end of the image and the four sectors of system parameters at the end of the
flash, and `myspiffs_format` erases it. Both go by the size of the flash that the image header has a code for, with
`FLASH_AUTOSIZE`, and each computes the range for itself.
-/

namespace EspClock.Flash

open Mem

/-! ### The size of the flash -/

/-- The field `size` of `SPIFlashInfo`. -/
inductive SizeCode where
  | size4Mbit
  | size2Mbit
  | size8Mbit
  | size16Mbit
  | size32Mbit
  | size64Mbit
  | size128Mbit
  | unknown (code : Fin 9)
  deriving DecidableEq

/-- The bytes of the chip that a code is for. -/
def SizeCode.chip : SizeCode → Option Nat
  | size4Mbit => some (512 * 1024)
  | size2Mbit => some (256 * 1024)
  | size8Mbit => some (1024 * 1024)
  | size16Mbit => some (2 * 1024 * 1024)
  | size32Mbit => some (4 * 1024 * 1024)
  | size64Mbit => some (8 * 1024 * 1024)
  | size128Mbit => some (16 * 1024 * 1024)
  | unknown _ => none

/-- `flash_get_size_byte`. The cases of 32 and 64 Mbit have no `break` and run into the one of 128 Mbit. -/
def flashGetSizeByte : SizeCode → Nat
  | .size2Mbit => 256 * 1024
  | .size4Mbit => 512 * 1024
  | .size8Mbit => 1 * 1024 * 1024
  | .size16Mbit => 2 * 1024 * 1024
  | .size32Mbit => 16 * 1024 * 1024
  | .size64Mbit => 16 * 1024 * 1024
  | .size128Mbit => 16 * 1024 * 1024
  | .unknown _ => 512 * 1024

/-- `SPI_FLASH_SEC_SIZE` -/
def sectorSize : Nat := 4096

def flashGetSecNum (code : SizeCode) : Nat := flashGetSizeByte code / sectorSize % 2 ^ 16

/-- `SYS_PARAM_SEC_START` -/
def sysParamSecStart (code : SizeCode) : Nat := flashGetSecNum code - 4

/-- `INTERNAL_FLASH_SIZE` -/
def internalFlashSize (code : SizeCode) : Nat := sysParamSecStart code * sectorSize

/-- `INTERNAL_FLASH_START_ADDRESS` -/
def startAddress : Nat := 0x40200000

/-! ### Sectors -/

structure Sector where
  id : Nat
  start : Nat
  «end» : Nat

def flashhFindSector (address : Nat) : Sector :=
  let id := sub32 address startAddress / sectorSize
  { id := id
    start := wrap32 (id * sectorSize + startAddress)
    «end» := sub32 (wrap32 ((id + 1) * sectorSize + startAddress)) 1 }

/-- `platform_flash_get_first_free_block_address`, for the address in `_flash_used_end`. -/
def firstFreeBlockAddress (usedEnd : Nat) : Nat :=
  if 0 < usedEnd then wrap32 ((flashhFindSector (sub32 usedEnd 1)).end + 1) else (flashhFindSector startAddress).start

/-- The first address of the partition, aligned to four sectors. -/
def physAddress (usedEnd : Nat) : Nat := wrap32 (firstFreeBlockAddress usedEnd + 0x3000) &&& 0xFFFFC000

/-! ### Mounting and formatting -/

structure SpiffsConfig where
  physAddr : Nat
  physSize : Nat
  physEraseBlock : Nat
  logBlockSize : Nat
  logPageSize : Nat
  deriving DecidableEq

/-- The configuration that `spiffs_mount` mounts. -/
def spiffsMount (code : SizeCode) (usedEnd : Nat) : SpiffsConfig where
  physAddr := physAddress usedEnd
  physSize := sub32 (internalFlashSize code) (sub32 (physAddress usedEnd) startAddress)
  physEraseBlock := sectorSize
  logBlockSize := sectorSize
  logPageSize := 256

/-- The loop of `myspiffs_format` over some sectors: those it erases, until one cannot be erased, and whether all
of them could. -/
def eraseSectors (erases : Nat → Bool) : List Nat → List Nat × Bool
  | [] => ([], true)
  | sector :: rest =>
    if erases sector then
      let (erased, ok) := eraseSectors erases rest
      (sector :: erased, ok)
    else ([], false)

/-- `myspiffs_format`: the sectors it erases, and what it mounts then. -/
def myspiffsFormat (code : SizeCode) (usedEnd : Nat) (erases : Nat → Bool) : List Nat × Option SpiffsConfig :=
  let first := (flashhFindSector (physAddress usedEnd)).id
  let last := (flashhFindSector (sub32 (wrap32 (internalFlashSize code + startAddress)) 4)).id
  let erased := eraseSectors erases (List.range' first (last + 1 - first))
  (erased.1, if erased.2 then some (spiffsMount code usedEnd) else none)

/-! ### The partition -/

/-- An image ends in front of the sectors of system parameters of a chip. -/
def Fits (chip usedEnd : Nat) : Prop := startAddress ≤ usedEnd ∧ usedEnd + 4 * sectorSize ≤ startAddress + chip

/-- The partition lies between the image and the system parameters. -/
structure Kept (chip usedEnd : Nat) (cfg : SpiffsConfig) : Prop where
  behind : usedEnd ≤ cfg.physAddr
  aligned : cfg.physAddr % 0x4000 = 0
  whole : cfg.physSize % sectorSize = 0
  before : cfg.physAddr + cfg.physSize + 4 * sectorSize ≤ startAddress + chip

/-- The sectors of a partition. -/
def SpiffsConfig.sectors (cfg : SpiffsConfig) : List Nat :=
  List.range' ((cfg.physAddr - startAddress) / sectorSize) (cfg.physSize / sectorSize)

/-- Formatting erases the sectors of the partition and mounts it, unless a sector cannot be erased. -/
structure FormatsAll (code : SizeCode) (usedEnd : Nat) (erases : Nat → Bool) : Prop where
  mounted : ∀ cfg ∈ (myspiffsFormat code usedEnd erases).2,
    cfg = spiffsMount code usedEnd ∧ (myspiffsFormat code usedEnd erases).1 = cfg.sectors
  mounts : (∀ sector ∈ (spiffsMount code usedEnd).sectors, erases sector = true) →
    (myspiffsFormat code usedEnd erases).2 = some (spiffsMount code usedEnd)

/-! ### Rounding -/

theorem and_mask {n : Nat} (hn : n < 2 ^ 32) : n &&& 0xFFFFC000 = n / 2 ^ 14 * 2 ^ 14 := by
  have hmask : (0xFFFFC000 : Nat) = (2 ^ 18 - 1) * 2 ^ 14 := by decide
  apply Nat.eq_of_testBit_eq
  intro i
  rw [hmask, Nat.testBit_and, Nat.testBit_mul_two_pow, Nat.testBit_mul_two_pow, Nat.testBit_div_two_pow,
    Nat.testBit_two_pow_sub_one]
  by_cases hlow : 14 ≤ i
  · rw [decide_eq_true hlow, Bool.true_and, Bool.true_and, Nat.sub_add_cancel hlow]
    by_cases hhigh : i < 32
    · rw [decide_eq_true (by omega), Bool.and_true]
    · have hbit : n.testBit i = false := Nat.testBit_lt_two_pow (hn.trans_le (Nat.pow_le_pow_right Nat.two_pos (by omega)))
      rw [hbit, Bool.false_and]
  · rw [decide_eq_false hlow, Bool.false_and, Bool.false_and, Bool.and_false]

variable {code : SizeCode} {chip usedEnd : Nat}

theorem chip_spec (hchip : code.chip = some chip) : 4 * sectorSize ≤ chip ∧ chip ≤ 2 ^ 24 ∧ chip % 0x4000 = 0 := by
  cases code <;> cases hchip <;> decide

/-- The first address that is free, in multiples of a sector from the start of the flash. -/
theorem firstFreeBlockAddress_eq (hchip : code.chip = some chip) (hfits : Fits chip usedEnd) :
    firstFreeBlockAddress usedEnd = startAddress + (usedEnd - startAddress + 4095) / 4096 * 4096 := by
  obtain ⟨hstart, hend⟩ := hfits
  obtain ⟨-, hle, -⟩ := chip_spec hchip
  have hbase : startAddress = 0x40200000 := rfl
  have hsector : sectorSize = 4096 := rfl
  rw [hsector] at hend
  rw [hbase] at hstart hend ⊢
  rw [firstFreeBlockAddress, if_pos (by omega), flashhFindSector]
  dsimp only
  rw [hbase, hsector]
  unfold sub32 wrap32
  omega

theorem physAddress_spec (hchip : code.chip = some chip) (hfits : Fits chip usedEnd) :
    usedEnd ≤ physAddress usedEnd ∧ physAddress usedEnd % 0x4000 = 0 ∧
      physAddress usedEnd + 4 * sectorSize ≤ startAddress + chip := by
  have hfree := firstFreeBlockAddress_eq hchip hfits
  obtain ⟨hstart, hend⟩ := hfits
  obtain ⟨-, hle, hmod⟩ := chip_spec hchip
  have hbase : startAddress = 0x40200000 := rfl
  have hsector : sectorSize = 4096 := rfl
  rw [hbase] at hstart hend hfree ⊢
  rw [hsector] at hend ⊢
  rw [physAddress, and_mask (wrap32_lt _), hfree, wrap32_of_lt (by omega)]
  omega

/-- The size of the flash is at least that of the chip, and more for two codes. -/
theorem internalFlashSize_spec (hchip : code.chip = some chip) :
    internalFlashSize code < 2 ^ 25 ∧ internalFlashSize code % sectorSize = 0 ∧ 0 < internalFlashSize code ∧
      chip ≤ internalFlashSize code + 4 * sectorSize ∧
      (internalFlashSize code + 4 * sectorSize = chip ↔ code ≠ .size32Mbit ∧ code ≠ .size64Mbit) := by
  cases code <;> cases hchip <;> decide

/-- The partition reaches up to the size of the flash. -/
theorem spiffsMount_spec (hchip : code.chip = some chip) (hfits : Fits chip usedEnd) :
    (spiffsMount code usedEnd).physAddr = physAddress usedEnd ∧
      physAddress usedEnd + (spiffsMount code usedEnd).physSize = startAddress + internalFlashSize code := by
  obtain ⟨hbehind, -, hbefore⟩ := physAddress_spec hchip hfits
  obtain ⟨hsize, -, -, hchipsize, -⟩ := internalFlashSize_spec hchip
  obtain ⟨hstart, -⟩ := hfits
  obtain ⟨-, hle, -⟩ := chip_spec hchip
  have hbase : startAddress = 0x40200000 := rfl
  have hoffset : sub32 (physAddress usedEnd) startAddress = physAddress usedEnd - startAddress :=
    sub32_of_le (hstart.trans hbehind) (by omega)
  refine ⟨rfl, ?_⟩
  show physAddress usedEnd + sub32 (internalFlashSize code) (sub32 (physAddress usedEnd) startAddress) = _
  rw [hoffset, sub32_of_le (by omega) (by omega)]
  omega

/-! ### Formatting -/

theorem eraseSectors_of_ok {erases : Nat → Bool} {sectors : List Nat} (h : (eraseSectors erases sectors).2 = true) :
    (eraseSectors erases sectors).1 = sectors := by
  induction sectors with
  | nil => rfl
  | cons sector rest ih =>
    rw [eraseSectors] at h ⊢
    split_ifs at h ⊢ with herase
    exact congrArg (List.cons sector) (ih h)

theorem eraseSectors_ok {erases : Nat → Bool} {sectors : List Nat} (h : ∀ sector ∈ sectors, erases sector = true) :
    (eraseSectors erases sectors).2 = true := by
  induction sectors with
  | nil => rfl
  | cons sector rest ih =>
    obtain ⟨hsector, hrest⟩ := List.forall_mem_cons.mp h
    rw [eraseSectors, if_pos hsector]
    exact ih hrest

/-- The loop goes over the sectors of the partition. -/
theorem myspiffsFormat_eq (hchip : code.chip = some chip) (hfits : Fits chip usedEnd) (erases : Nat → Bool) :
    myspiffsFormat code usedEnd erases =
      ((eraseSectors erases (spiffsMount code usedEnd).sectors).1,
        if (eraseSectors erases (spiffsMount code usedEnd).sectors).2 then some (spiffsMount code usedEnd) else none) := by
  obtain ⟨hbehind, haligned, hbefore⟩ := physAddress_spec hchip hfits
  obtain ⟨hsize, hwhole, hpos, hchipsize, -⟩ := internalFlashSize_spec hchip
  obtain ⟨haddr, hreach⟩ := spiffsMount_spec hchip hfits
  obtain ⟨hstart, -⟩ := hfits
  obtain ⟨-, hle, -⟩ := chip_spec hchip
  have hbase : startAddress = 0x40200000 := rfl
  have hsector : sectorSize = 4096 := rfl
  have hfirst : (flashhFindSector (physAddress usedEnd)).id = (physAddress usedEnd - startAddress) / sectorSize := by
    rw [flashhFindSector, sub32_of_le (hstart.trans hbehind) (by omega)]
  have hinner : sub32 (wrap32 (internalFlashSize code + startAddress)) 4 = internalFlashSize code + startAddress - 4 := by
    rw [wrap32_of_lt (by omega)]
    exact sub32_of_le (by omega) (by omega)
  have hlast : (flashhFindSector (sub32 (wrap32 (internalFlashSize code + startAddress)) 4)).id =
      (internalFlashSize code - 4) / sectorSize := by
    have hsectors : 4 ≤ internalFlashSize code := by
      rw [hsector] at hwhole
      omega
    have hoffset : internalFlashSize code + startAddress - 4 - startAddress = internalFlashSize code - 4 := by omega
    rw [hinner, flashhFindSector, sub32_of_le (by omega) (by omega), hoffset]
  have hcount : (internalFlashSize code - 4) / sectorSize + 1 - (physAddress usedEnd - startAddress) / sectorSize =
      (spiffsMount code usedEnd).physSize / sectorSize := by
    rw [hsector] at hwhole ⊢
    omega
  have hsectors : (spiffsMount code usedEnd).sectors =
      List.range' ((physAddress usedEnd - startAddress) / sectorSize) ((spiffsMount code usedEnd).physSize / sectorSize) := by
    rw [SpiffsConfig.sectors, haddr]
  rw [myspiffsFormat, hfirst, hlast, hcount, hsectors]

theorem format_parts {out : List Nat × Option SpiffsConfig} {erased : List Nat × Bool} {cfg : SpiffsConfig}
    (h : out = (erased.1, if erased.2 then some cfg else none)) :
    out.1 = erased.1 ∧ out.2 = if erased.2 then some cfg else none := by
  subst h
  exact ⟨rfl, rfl⟩

theorem formatsAll (hchip : code.chip = some chip) (hfits : Fits chip usedEnd) (erases : Nat → Bool) :
    FormatsAll code usedEnd erases := by
  obtain ⟨herased, hmounted⟩ := format_parts (myspiffsFormat_eq hchip hfits erases)
  constructor
  · intro cfg hcfg
    rw [hmounted] at hcfg
    obtain ⟨hok, hmount⟩ := Option.ite_none_right_eq_some.mp hcfg
    obtain rfl := Option.some.inj hmount
    exact ⟨rfl, herased.trans (eraseSectors_of_ok hok)⟩
  · intro hall
    exact hmounted.trans (if_pos (eraseSectors_ok hall))

/-- The partition lies where it should, and formatting erases all of it and nothing else, exactly when the code is not
one of the two whose cases run on. -/
theorem partition_iff (code : SizeCode) (chip : Nat) (hchip : code.chip = some chip) (usedEnd : Nat)
    (hfits : Fits chip usedEnd) :
    (Kept chip usedEnd (spiffsMount code usedEnd) ∧ ∀ erases, FormatsAll code usedEnd erases) ↔
      code ≠ .size32Mbit ∧ code ≠ .size64Mbit := by
  obtain ⟨hbehind, haligned, hbefore⟩ := physAddress_spec hchip hfits
  obtain ⟨hsize, hwhole, hpos, hchipsize, hexact⟩ := internalFlashSize_spec hchip
  obtain ⟨haddr, hreach⟩ := spiffsMount_spec hchip hfits
  have hbase : startAddress = 0x40200000 := rfl
  have hsector : sectorSize = 4096 := rfl
  rw [← hexact]
  constructor
  · rintro ⟨hkept, -⟩
    have hend := hkept.before
    rw [haddr] at hend
    omega
  · intro hchipsize
    refine ⟨⟨haddr ▸ hbehind, haddr ▸ haligned, ?_, ?_⟩, formatsAll hchip hfits⟩
    · rw [hsector] at hwhole ⊢
      omega
    · rw [haddr]
      omega

/-- A flash of 16 MBit with an image of 450000 bytes. -/
theorem partition_iff_16Mbit :
    (Kept (2 * 1024 * 1024) (startAddress + 450000) (spiffsMount .size16Mbit (startAddress + 450000)) ∧
      ∀ erases, FormatsAll .size16Mbit (startAddress + 450000) erases) ↔
        SizeCode.size16Mbit ≠ .size32Mbit ∧ SizeCode.size16Mbit ≠ .size64Mbit :=
  partition_iff .size16Mbit (2 * 1024 * 1024) rfl (startAddress + 450000) ⟨by decide, by decide⟩

/-- On a flash of 32 MBit the partition goes far behind its end. -/
theorem partition_beyond_chip :
    ¬ ∀ (code : SizeCode) (chip : Nat), code.chip = some chip → ∀ usedEnd, Fits chip usedEnd →
      Kept chip usedEnd (spiffsMount code usedEnd) ∧ ∀ erases, FormatsAll code usedEnd erases := by
  intro hall
  have hkept := (hall .size32Mbit (4 * 1024 * 1024) rfl (startAddress + 450000) ⟨by decide, by decide⟩).1
  exact absurd hkept.before (by decide)

end EspClock.Flash
