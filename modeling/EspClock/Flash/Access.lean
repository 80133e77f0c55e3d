import EspClock.Flash.Partition
import EspClock.Lib.Nor

/-!
# Access to the flash

The flash is programmed and read in words of four bytes. `platform_flash_write` and `platform_flash_read` take any
range of bytes: one operation for the words inside it, and one word at each end that is read and, by a write, put
back with the bytes of the range in it. Programming the other bytes of such a word with what they are leaves them as
they are, so an access to words is one to bytes.
-/

namespace EspClock.Flash

open Mem Nor

/-! ### Operations -/

/-- What may fail: `spi_flash_read`, `spi_flash_write`, and `c_malloc` for the copy that a write makes. -/
inductive Operation where
  | read (src size : Nat)
  | write (dst : Nat) (data : List UInt8)
  | malloc (size : Nat)
  deriving DecidableEq

/-- How each operation ends, by its number. -/
structure Chip where
  ok : Nat → Bool
  /-- The bytes in the destination of a read that has failed. -/
  unread : Nat → Nat → UInt8
  /-- The flash after a write that has failed. -/
  torn : Nat → Flash → Flash

/-- The flash, and the operations so far with how they have ended. -/
structure Access where
  flash : Flash
  log : List (Operation × Bool)

def WholeWords (addr size : Nat) : Prop := addr % 4 = 0 ∧ size % 4 = 0

instance (addr size : Nat) : Decidable (WholeWords addr size) := inferInstanceAs (Decidable (_ ∧ _))

namespace Access

variable (chip : Chip) (s : Access)

def done (op : Operation) (ok : Bool) : Access := { s with log := s.log ++ [(op, ok)] }

/-- `spi_flash_read`, with the bytes in its destination. What it does to anything but whole words is not known. -/
def flashRead (src size : Nat) : Access × Bool × List UInt8 :=
  let n := s.log.length
  (s.done (.read src size) (chip.ok n), chip.ok n,
    if chip.ok n = true ∧ WholeWords src size then slice s.flash src size
    else (List.range size).map (chip.unread n))

/-- `spi_flash_write`, which can only clear bits. -/
def flashWrite (dst : Nat) (data : List UInt8) : Access × Bool :=
  let n := s.log.length
  let flash :=
    if chip.ok n = true ∧ WholeWords dst data.length then write s.flash dst data else chip.torn n s.flash
  ({ s.done (.write dst data) (chip.ok n) with flash := flash }, chip.ok n)

def cMalloc (size : Nat) : Access × Bool := (s.done (.malloc size) (chip.ok s.log.length), chip.ok s.log.length)

/-! ### The functions of `platform.c` -/

/-- `platform_s_flash_write`, with the data at the address `pfrom` in memory. -/
def platformSFlashWrite (pfrom : Nat) (data : List UInt8) (toaddr : Nat) : Access × Nat :=
  let toaddr := sub32 toaddr startAddress
  let apbuf := if pfrom % 4 = 0 then (s, true) else s.cMalloc chip data.length
  if apbuf.2 then
    let r := apbuf.1.flashWrite chip toaddr data
    (r.1, if r.2 then data.length else 0)
  else (apbuf.1, 0)

/-- `platform_s_flash_read`, with the bytes that it leaves in its destination. -/
def platformSFlashRead (fromaddr size : Nat) : Access × Nat × List UInt8 :=
  let fromaddr := sub32 fromaddr startAddress
  let r := s.flashRead chip fromaddr size
  (r.1, if r.2.1 then size else 0, r.2.2)

/-! ### Writing any range -/

/-- The loop that puts data into a word, from the byte at `i` to the one before `bound`: the word, and the data that
are left. -/
def fillWord (bound : Nat) : Nat → List UInt8 → List UInt8 → List UInt8 × List UInt8
  | _, tmpdata, [] => (tmpdata, [])
  | i, tmpdata, b :: data =>
    if i < bound then fillWord bound (i + 1) (tmpdata.set i b) data else (tmpdata, b :: data)

/-- The part of `platform_flash_write` behind "The start address is now a multiple of blksize": the blocks, and the
final part of a block. The word for the latter is at the address `tmpdata` in memory. -/
def writeAligned (tmpdata pfrom : Nat) (data : List UInt8) (toaddr : Nat) : Access :=
  let rest := data.length % 4
  let temp := data.length / 4 * 4
  let s := if temp = 0 then s else (s.platformSFlashWrite chip pfrom (data.take temp) toaddr).1
  let toaddr := if temp = 0 then toaddr else wrap32 (toaddr + temp)
  if rest = 0 then s
  else
    let r := s.platformSFlashRead chip toaddr 4
    let word := fillWord rest 0 r.2.2 (data.drop temp)
    (r.1.platformSFlashWrite chip tmpdata word.1 toaddr).1

def platformFlashWrite (tmpdata pfrom : Nat) (data : List UInt8) (toaddr : Nat) : Access × Nat :=
  let ssize := data.length
  if toaddr % 4 = 0 then (s.writeAligned chip tmpdata pfrom data toaddr, ssize)
  else
    let rest := toaddr % 4
    let temp := toaddr / 4 * 4
    let r := s.platformSFlashRead chip temp 4
    let word := fillWord 4 rest r.2.2 data
    let s := (r.1.platformSFlashWrite chip tmpdata word.1 temp).1
    if word.2 = [] then (s, ssize)
    else (s.writeAligned chip tmpdata (pfrom + (ssize - word.2.length)) word.2 (wrap32 (temp + 4)), ssize)

/-! ### Reading any range -/

/-- The loop that takes bytes out of a word, from the one at `i` to the one before `bound`: the bytes, and the
number of those that are left to read. -/
def takeWord (bound : Nat) (tmpdata : List UInt8) : Nat → Nat → List UInt8 × Nat
  | _, 0 => ([], 0)
  | i, size + 1 =>
    if i < bound then
      let r := takeWord bound tmpdata (i + 1) size
      (tmpdata.getD i 0 :: r.1, r.2)
    else ([], size + 1)

/-- The same part of `platform_flash_read`, with the bytes that it leaves behind `pto`. -/
def readAligned (fromaddr size : Nat) : Access × List UInt8 :=
  let rest := size % 4
  let temp := size / 4 * 4
  let blocks :=
    if temp = 0 then (s, [])
    else
      let r := s.platformSFlashRead chip fromaddr temp
      (r.1, r.2.2)
  let fromaddr := if temp = 0 then fromaddr else wrap32 (fromaddr + temp)
  if rest = 0 then blocks
  else
    let r := blocks.1.platformSFlashRead chip fromaddr 4
    (r.1, blocks.2 ++ (takeWord rest r.2.2 0 (size - temp)).1)

/-- `platform_flash_read`, with the bytes that it leaves behind `to`. -/
def platformFlashRead (fromaddr size : Nat) : Access × Nat × List UInt8 :=
  let ssize := size
  if fromaddr % 4 = 0 then
    let blocks := s.readAligned chip fromaddr size
    (blocks.1, ssize, blocks.2)
  else
    let rest := fromaddr % 4
    let temp := fromaddr / 4 * 4
    let r := s.platformSFlashRead chip temp 4
    let word := takeWord 4 r.2.2 rest size
    if word.2 = 0 then (r.1, ssize, word.1)
    else
      let blocks := r.1.readAligned chip (wrap32 (temp + 4)) word.2
      (blocks.1, ssize, word.1 ++ blocks.2)

end Access

/-! ### Words -/

variable {f : Flash} {addr bound i : Nat} {data tmpdata : List UInt8}

namespace Access

theorem fillWord_eq (bound i : Nat) (tmpdata data : List UInt8) :
    fillWord bound i tmpdata data = (store tmpdata i (data.take (bound - i)), data.drop (bound - i)) := by
  induction data generalizing i tmpdata with
  | nil => rw [fillWord, List.take_nil, List.drop_nil, store_nil]
  | cons b data ih =>
    rw [fillWord]
    split_ifs with hi
    · rw [ih, show bound - i = bound - (i + 1) + 1 by omega, List.take_succ_cons, List.drop_succ_cons, store]
    · rw [show bound - i = 0 by omega, List.take_zero, List.drop_zero, store_nil]

/-- A word with data in it is programmed as the data are. -/
theorem write_fillWord (hi : i ≤ bound) (hbound : bound ≤ 4) :
    write f addr (fillWord bound i (slice f addr 4) data).1 = write f (addr + i) (data.take (bound - i)) ∧
      (fillWord bound i (slice f addr 4) data).1.length = 4 := by
  rw [fillWord_eq]
  dsimp only
  set d := data.take (bound - i) with hd
  have hlength : d.length ≤ bound - i := List.length_take_le _ _
  obtain ⟨n, hn⟩ : ∃ n, 4 = i + d.length + n := ⟨4 - (i + d.length), by omega⟩
  have hword : slice f addr 4 = slice f addr (i + d.length) ++ slice f (addr + (i + d.length)) n := by
    rw [← slice_add, ← hn]
  have htake : (slice f addr 4).take i = slice f addr i := by
    have hsplit := take_drop_slice f addr (show 0 + i ≤ 4 by omega)
    rwa [List.drop_zero, Nat.add_zero] at hsplit
  have hdrop : (slice f addr 4).drop (i + d.length) = slice f (addr + i + d.length) n := by
    rw [hword, List.drop_left' (length_slice _ _ _), Nat.add_assoc]
  have hroom : i + d.length ≤ (slice f addr 4).length := by
    rw [length_slice]
    omega
  rw [store_eq _ _ _ hroom, htake, hdrop]
  exact ⟨write_between f addr i n d, by simp; omega⟩

theorem takeWord_eq (hlength : bound ≤ tmpdata.length) (i size : Nat) :
    takeWord bound tmpdata i size = ((tmpdata.drop i).take (min size (bound - i)), size - (bound - i)) := by
  induction size generalizing i with
  | zero => rw [takeWord, Nat.zero_min, List.take_zero, Nat.zero_sub]
  | succ size ih =>
    rw [takeWord]
    split_ifs with hi
    · have hmem : i < tmpdata.length := hi.trans_le hlength
      rw [ih, List.drop_eq_getElem_cons hmem, show min (size + 1) (bound - i) = min size (bound - (i + 1)) + 1 by omega,
        List.take_succ_cons, show size + 1 - (bound - i) = size - (bound - (i + 1)) by omega,
        List.getD_eq_getElem _ _ hmem]
    · rw [show bound - i = 0 by omega, Nat.min_zero, List.take_zero, Nat.sub_zero]

theorem takeWord_slice (hbound : bound ≤ 4) (hi : i ≤ bound) (size : Nat) :
    takeWord bound (slice f addr 4) i size = (slice f (addr + i) (min size (bound - i)), size - (bound - i)) := by
  rw [takeWord_eq (by rw [length_slice]; exact hbound), take_drop_slice f addr (by omega)]

end Access

/-! ### Operations that succeed -/

def Operation.Whole : Operation → Prop
  | read src size => WholeWords src size
  | write dst data => WholeWords dst data.length
  | malloc _ => True

/-- One access follows another, with operations on whole words. -/
def Access.Wholly (s s' : Access) : Prop := ∃ ops, s'.log = s.log ++ ops ∧ ∀ op ∈ ops, op.1.Whole

/-- An address in the flash, with a number of bytes behind it. -/
structure InFlash (addr size : Nat) : Prop where
  start_le : startAddress ≤ addr
  le : addr + size ≤ 2 ^ 32

namespace Access

variable {chip : Chip} {s s' s'' : Access} {size pfrom : Nat}

theorem Wholly.refl (s : Access) : s.Wholly s := ⟨[], (List.append_nil _).symm, List.forall_mem_nil _⟩

theorem Wholly.trans (h : s.Wholly s') (h' : s'.Wholly s'') : s.Wholly s'' := by
  obtain ⟨ops, hlog, hops⟩ := h
  obtain ⟨ops', hlog', hops'⟩ := h'
  exact ⟨ops ++ ops', by rw [hlog', hlog, List.append_assoc], List.forall_mem_append.mpr ⟨hops, hops'⟩⟩

theorem wholly_done (op : Operation) (h : op.Whole) (ok : Bool) : s.Wholly (s.done op ok) :=
  ⟨[(op, ok)], rfl, List.forall_mem_singleton.mpr h⟩

/-- A write from an address that is no multiple of four needs a copy of the data. -/
theorem platformSFlashWrite_fst (pfrom addr : Nat) (data : List UInt8) :
    (s.platformSFlashWrite chip pfrom data addr).1 =
      if pfrom % 4 = 0 then (s.flashWrite chip (sub32 addr startAddress) data).1
      else if chip.ok s.log.length = true then
        ((s.cMalloc chip data.length).1.flashWrite chip (sub32 addr startAddress) data).1
      else (s.cMalloc chip data.length).1 := by
  unfold platformSFlashWrite
  dsimp only
  by_cases hpfrom : pfrom % 4 = 0
  · rw [if_pos hpfrom, if_pos hpfrom]
    rfl
  · rw [if_neg hpfrom, if_neg hpfrom]
    by_cases hbuf : chip.ok s.log.length = true
    · rw [if_pos hbuf]
      exact congrArg Prod.fst (if_pos hbuf)
    · rw [if_neg hbuf]
      exact congrArg Prod.fst (if_neg hbuf)

/-- The offset of an address in the flash. -/
theorem offset_spec (h : startAddress ≤ addr) (h' : addr < 2 ^ 32) :
    sub32 addr startAddress = addr - startAddress ∧ (addr - startAddress) % 4 = addr % 4 := by
  refine ⟨sub32_of_le h h', ?_⟩
  unfold startAddress at *
  omega

/-- The address behind a number of bytes, which may be none. -/
theorem behind_eq {temp : Nat} (h : addr + temp < 2 ^ 32) :
    (if temp = 0 then addr else wrap32 (addr + temp)) = addr + temp := by
  split_ifs with hzero
  · rw [hzero, Nat.add_zero]
  · exact wrap32_of_lt h

/-- The word that an address is in starts in the flash too. -/
theorem start_le_word (h : startAddress ≤ addr) : startAddress ≤ addr / 4 * 4 := by
  unfold startAddress at *
  omega

/-- The word behind that. -/
theorem wrap32_next_word (h : addr + (4 - addr % 4) < 2 ^ 32) :
    wrap32 (addr / 4 * 4 + 4) = addr + (4 - addr % 4) := by
  have hdiv : addr / 4 * 4 + 4 = addr + (4 - addr % 4) := by omega
  rw [hdiv, wrap32_of_lt h]

/-- What a successful read of whole words returns. -/
theorem platformSFlashRead_spec (hok : ∀ n, chip.ok n = true) (hstart : startAddress ≤ addr) (haddr : addr < 2 ^ 32)
    (hwhole : WholeWords addr size) :
    let r := s.platformSFlashRead chip addr size
    r.1.flash = s.flash ∧ s.Wholly r.1 ∧ r.2.2 = slice s.flash (addr - startAddress) size := by
  obtain ⟨hoffset, hmod⟩ := offset_spec hstart haddr
  have hwhole' : WholeWords (addr - startAddress) size := ⟨hmod.trans hwhole.1, hwhole.2⟩
  unfold platformSFlashRead flashRead
  dsimp only
  rw [hoffset, if_pos ⟨hok _, hwhole'⟩]
  exact ⟨rfl, wholly_done (.read _ _) hwhole' _, rfl⟩

theorem flashWrite_spec (hok : ∀ n, chip.ok n = true) (hwhole : WholeWords addr data.length) :
    (s.flashWrite chip addr data).1.flash = write s.flash addr data ∧ s.Wholly (s.flashWrite chip addr data).1 := by
  unfold flashWrite
  dsimp only
  rw [if_pos ⟨hok _, hwhole⟩]
  exact ⟨rfl, [(.write addr data, _)], rfl, List.forall_mem_singleton.mpr hwhole⟩

/-- What a successful write of whole words leaves, from whatever address in memory. -/
theorem platformSFlashWrite_spec (hok : ∀ n, chip.ok n = true) (hstart : startAddress ≤ addr) (haddr : addr < 2 ^ 32)
    (hwhole : WholeWords addr data.length) :
    let r := s.platformSFlashWrite chip pfrom data addr
    r.1.flash = write s.flash (addr - startAddress) data ∧ s.Wholly r.1 := by
  obtain ⟨hoffset, hmod⟩ := offset_spec hstart haddr
  have hwhole' : WholeWords (addr - startAddress) data.length := ⟨hmod.trans hwhole.1, hwhole.2⟩
  intro r
  have hr : r.1 = _ := platformSFlashWrite_fst pfrom addr data
  rw [hr, hoffset]
  split_ifs with hpfrom hbuf
  · exact flashWrite_spec hok hwhole'
  · obtain ⟨hflash, hlog⟩ := @flashWrite_spec _ _ chip (s.cMalloc chip data.length).1 hok hwhole'
    exact ⟨hflash, (wholly_done (.malloc data.length) trivial _).trans hlog⟩
  · exact absurd (hok _) hbuf

/-! ### Writing any range -/

/-- The word at one end of a range: it is read, the data are put in, and it is programmed. -/
theorem writeWord_spec (hok : ∀ n, chip.ok n = true) (hstart : startAddress ≤ addr) (haddr : addr < 2 ^ 32)
    (hmod : addr % 4 = 0) (hi : i ≤ bound) (hbound : bound ≤ 4) :
    let r := s.platformSFlashRead chip addr 4
    let w := (r.1.platformSFlashWrite chip pfrom (fillWord bound i r.2.2 data).1 addr).1
    w.flash = write s.flash (addr - startAddress + i) (data.take (bound - i)) ∧ s.Wholly w := by
  intro r w
  obtain ⟨hflash, hlog, hread⟩ := @platformSFlashRead_spec addr chip s 4 hok hstart haddr ⟨hmod, rfl⟩
  obtain ⟨hword, hlength⟩ := @write_fillWord s.flash (addr - startAddress) bound i data hi hbound
  rw [← hread] at hword hlength
  obtain ⟨hflash', hlog'⟩ := @platformSFlashWrite_spec addr _ chip r.1 pfrom hok hstart haddr ⟨hmod, by rw [hlength]⟩
  exact ⟨by rw [hflash', hflash, hword], hlog.trans hlog'⟩

/-- The blocks of a range that starts at a multiple of four. -/
theorem writeBlocks_spec (hok : ∀ n, chip.ok n = true) (h : InFlash addr data.length) (hmod : addr % 4 = 0)
    (pfrom : Nat) :
    let temp := data.length / 4 * 4
    let b := if temp = 0 then s else (s.platformSFlashWrite chip pfrom (data.take temp) addr).1
    b.flash = write s.flash (addr - startAddress) (data.take temp) ∧ s.Wholly b := by
  obtain ⟨hstart, hle⟩ := h
  intro temp
  by_cases htemp : temp = 0
  · rw [if_pos htemp, htemp, List.take_zero, write_nil]
    exact ⟨rfl, .refl s⟩
  · have hlength : (data.take temp).length = temp := by rw [List.length_take]; omega
    rw [if_neg htemp]
    exact platformSFlashWrite_spec hok hstart (by omega) ⟨hmod, by rw [hlength]; exact Nat.mul_mod_left _ 4⟩

theorem writeAligned_spec (hok : ∀ n, chip.ok n = true) (h : InFlash addr data.length) (hmod : addr % 4 = 0)
    (tmpdata pfrom : Nat) :
    let w := s.writeAligned chip tmpdata pfrom data addr
    w.flash = write s.flash (addr - startAddress) data ∧ s.Wholly w := by
  obtain ⟨hflash, hlog⟩ := @writeBlocks_spec addr data chip s hok h hmod pfrom
  obtain ⟨hstart, hle⟩ := h
  unfold writeAligned
  dsimp only at hflash hlog ⊢
  set temp := data.length / 4 * 4 with htemp
  set b := if temp = 0 then s else (s.platformSFlashWrite chip pfrom (data.take temp) addr).1
  have hlength : (data.take temp).length = temp := by rw [List.length_take]; omega
  by_cases hrest : data.length % 4 = 0
  · rw [if_pos hrest]
    rw [List.take_of_length_le (by omega)] at hflash
    exact ⟨hflash, hlog⟩
  · have haddr := @behind_eq addr temp (by omega)
    obtain ⟨hword, hlog'⟩ := @writeWord_spec (addr + temp) (data.length % 4) 0 (data.drop temp) chip b tmpdata hok
      (by omega) (by omega) (by omega) (Nat.zero_le _) (by omega)
    have hend : (data.drop temp).take (data.length % 4 - 0) = data.drop temp :=
      List.take_of_length_le (by rw [List.length_drop]; omega)
    rw [if_neg hrest, haddr]
    refine ⟨?_, hlog.trans hlog'⟩
    rw [hword, hflash, hend]
    conv_rhs => rw [← List.take_append_drop temp data, write_append, hlength]
    rw [show addr + temp - startAddress + 0 = addr - startAddress + temp by omega]

/-- A write changes the bytes of its range, and those alone. -/
theorem platformFlashWrite_spec (hok : ∀ n, chip.ok n = true) (h : InFlash addr data.length) (tmpdata pfrom : Nat) :
    let r := s.platformFlashWrite chip tmpdata pfrom data addr
    r.1.flash = write s.flash (addr - startAddress) data ∧ r.2 = data.length ∧ s.Wholly r.1 := by
  unfold platformFlashWrite
  by_cases hmod : addr % 4 = 0
  · obtain ⟨hflash, hlog⟩ := @writeAligned_spec addr data chip s hok h hmod tmpdata pfrom
    dsimp only
    rw [if_pos hmod]
    exact ⟨hflash, rfl, hlog⟩
  · obtain ⟨hstart, hle⟩ := h
    have hstart' := start_le_word hstart
    -- The first word is filled from the offset of the range in it.
    obtain ⟨hflash, hlog⟩ := @writeWord_spec (addr / 4 * 4) 4 (addr % 4) data chip s tmpdata hok hstart' (by omega)
      (Nat.mul_mod_left _ 4) (by omega) le_rfl
    have hleft : ∀ word, (fillWord 4 (addr % 4) word data).2 = data.drop (4 - addr % 4) := fun word =>
      congrArg Prod.snd (fillWord_eq 4 (addr % 4) word data)
    dsimp only at hflash hlog ⊢
    rw [if_neg hmod, hleft]
    rw [show addr / 4 * 4 - startAddress + addr % 4 = addr - startAddress by omega] at hflash
    set b := ((s.platformSFlashRead chip (addr / 4 * 4) 4).1.platformSFlashWrite chip tmpdata
      (fillWord 4 (addr % 4) (s.platformSFlashRead chip (addr / 4 * 4) 4).2.2 data).1 (addr / 4 * 4)).1
    split_ifs with hnil
    · rw [List.take_of_length_le (List.drop_eq_nil_iff.mp hnil)] at hflash
      exact ⟨hflash, rfl, hlog⟩
    · have hlong : 4 - addr % 4 < data.length := Nat.not_le.mp (fun hle => hnil (List.drop_eq_nil_iff.mpr hle))
      have hnext := @wrap32_next_word addr (by omega)
      have hin : InFlash (addr + (4 - addr % 4)) (data.drop (4 - addr % 4)).length :=
        ⟨by omega, by rw [List.length_drop]; omega⟩
      obtain ⟨hrest, hlog'⟩ := @writeAligned_spec _ _ chip b hok hin (by omega) tmpdata
        (pfrom + (data.length - (data.drop (4 - addr % 4)).length))
      dsimp only
      rw [hnext]
      refine ⟨?_, rfl, hlog.trans hlog'⟩
      have hlength : (data.take (4 - addr % 4)).length = 4 - addr % 4 := by rw [List.length_take]; omega
      rw [hrest, hflash]
      conv_rhs => rw [← List.take_append_drop (4 - addr % 4) data, write_append, hlength]
      rw [show addr + (4 - addr % 4) - startAddress = addr - startAddress + (4 - addr % 4) by omega]

/-! ### Reading any range -/

theorem readAligned_spec (hok : ∀ n, chip.ok n = true) (h : InFlash addr size) (hmod : addr % 4 = 0) :
    let r := s.readAligned chip addr size
    r.1.flash = s.flash ∧ s.Wholly r.1 ∧ r.2 = slice s.flash (addr - startAddress) size := by
  obtain ⟨hstart, hle⟩ := h
  unfold readAligned
  set temp := size / 4 * 4 with htemp
  set b : Access × List UInt8 := if temp = 0 then (s, []) else
    ((s.platformSFlashRead chip addr temp).1, (s.platformSFlashRead chip addr temp).2.2) with hb
  -- The blocks.
  have hblocks : b.1.flash = s.flash ∧ s.Wholly b.1 ∧ b.2 = slice s.flash (addr - startAddress) temp := by
    rw [hb]
    split_ifs with hzero
    · rw [hzero]
      exact ⟨rfl, .refl s, rfl⟩
    · exact platformSFlashRead_spec hok hstart (by omega) ⟨hmod, Nat.mul_mod_left _ 4⟩
  obtain ⟨hflash, hlog, hread⟩ := hblocks
  by_cases hrest : size % 4 = 0
  · have hsize : size = temp := by omega
    dsimp only
    rw [if_pos hrest]
    exact ⟨hflash, hlog, by rw [hread, ← hsize]⟩
  · have haddr := @behind_eq addr temp (by omega)
    obtain ⟨hflash', hlog', hword⟩ := @platformSFlashRead_spec (addr + temp) chip b.1 4 hok (by omega) (by omega)
      ⟨by omega, rfl⟩
    dsimp only at hflash' hlog' hword ⊢
    rw [if_neg hrest, haddr]
    refine ⟨hflash'.trans hflash, hlog.trans hlog', ?_⟩
    dsimp only
    rw [hword, hflash, takeWord_slice (by omega) (Nat.zero_le _), hread]
    dsimp only
    rw [show min (size - temp) (size % 4 - 0) = size - temp by omega,
      show addr + temp - startAddress + 0 = addr - startAddress + temp by omega, ← slice_add,
      show temp + (size - temp) = size by omega]

/-- A read returns the bytes of its range. -/
theorem platformFlashRead_spec (hok : ∀ n, chip.ok n = true) (h : InFlash addr size) :
    let r := s.platformFlashRead chip addr size
    r.1.flash = s.flash ∧ r.2.1 = size ∧ s.Wholly r.1 ∧ r.2.2 = slice s.flash (addr - startAddress) size := by
  unfold platformFlashRead
  by_cases hmod : addr % 4 = 0
  · obtain ⟨hflash, hlog, hread⟩ := @readAligned_spec addr chip s size hok h hmod
    dsimp only
    rw [if_pos hmod]
    exact ⟨hflash, rfl, hlog, hread⟩
  · obtain ⟨hstart, hle⟩ := h
    have hstart' := start_le_word hstart
    obtain ⟨hflash, hlog, hword⟩ := @platformSFlashRead_spec (addr / 4 * 4) chip s 4 hok hstart' (by omega)
      ⟨Nat.mul_mod_left _ 4, rfl⟩
    dsimp only at hflash hlog hword ⊢
    rw [if_neg hmod, hword, takeWord_slice le_rfl (by omega)]
    dsimp only
    rw [show addr / 4 * 4 - startAddress + addr % 4 = addr - startAddress by omega]
    split_ifs with hzero
    · rw [show min size (4 - addr % 4) = size by omega]
      exact ⟨hflash, rfl, hlog, rfl⟩
    · have hnext := @wrap32_next_word addr (by omega)
      have hin : InFlash (addr + (4 - addr % 4)) (size - (4 - addr % 4)) := ⟨by omega, by omega⟩
      obtain ⟨hflash', hlog', hread⟩ := @readAligned_spec _ chip (s.platformSFlashRead chip (addr / 4 * 4) 4).1 _ hok
        hin (by omega)
      rw [hnext]
      refine ⟨hflash'.trans hflash, rfl, hlog.trans hlog', ?_⟩
      rw [hread, hflash, show min size (4 - addr % 4) = 4 - addr % 4 by omega,
        show addr + (4 - addr % 4) - startAddress = addr - startAddress + (4 - addr % 4) by omega, ← slice_add,
        show 4 - addr % 4 + (size - (4 - addr % 4)) = size by omega]

/-- For every range in the flash and addresses in memory, with operations that succeed: a write leaves the
conjunction of the old and the new byte in every byte of its range and all others as they are, a read returns the
bytes of its range, both return the size, and every operation is on whole words. -/
theorem platformFlash_bytes (chip : Chip) (hok : ∀ n, chip.ok n = true) (s : Access) (addr : Nat) :
    (∀ tmpdata pfrom data, InFlash addr data.length →
      (s.platformFlashWrite chip tmpdata pfrom data addr).1.flash = write s.flash (addr - startAddress) data ∧
        (s.platformFlashWrite chip tmpdata pfrom data addr).2 = data.length ∧
        s.Wholly (s.platformFlashWrite chip tmpdata pfrom data addr).1) ∧
      ∀ size, InFlash addr size →
        (s.platformFlashRead chip addr size).1.flash = s.flash ∧
          (s.platformFlashRead chip addr size).2.1 = size ∧
          s.Wholly (s.platformFlashRead chip addr size).1 ∧
          (s.platformFlashRead chip addr size).2.2 = slice s.flash (addr - startAddress) size :=
  ⟨fun tmpdata pfrom _ h => platformFlashWrite_spec hok h tmpdata pfrom, fun _ h => platformFlashRead_spec hok h⟩

/-- A chip whose operations succeed. -/
def soundChip : Chip := ⟨fun _ => true, fun _ _ => 0, fun _ f => f⟩

/-- Six bytes from the second one of a word on. -/
theorem platformFlash_bytes_six :
    (Access.platformFlashWrite soundChip ⟨fun _ => 0xFF, []⟩ 0 2 [1, 2, 3, 4, 5, 6] (startAddress + 1)).1.flash =
        write (fun _ => 0xFF) 1 [1, 2, 3, 4, 5, 6] ∧
      (Access.platformFlashRead soundChip ⟨fun a => UInt8.ofNat a, []⟩ (startAddress + 1) 6).2.2 =
        [1, 2, 3, 4, 5, 6] :=
  have h : InFlash (startAddress + 1) 6 := ⟨by decide, by decide⟩
  ⟨((platformFlash_bytes soundChip (fun _ => rfl) ⟨fun _ => 0xFF, []⟩ _).1 0 2 _ h).1,
    ((platformFlash_bytes soundChip (fun _ => rfl) ⟨fun a => UInt8.ofNat a, []⟩ _).2 6 h).2.2.2⟩

end Access

end EspClock.Flash
