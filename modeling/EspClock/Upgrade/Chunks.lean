import EspClock.Lib.Nor

/-!
# The new image in the flash

`upgrade_lib.c`: the image of an upgrade comes in pieces of any length and is written in words of four bytes, a sector being
erased when the first piece ends in it. Bytes that make no whole word wait for the next piece. Here is what a piece does to the
flash: it stays within the sectors of the image, and what has come so far is there, but for the bytes that wait.
-/

namespace EspClock.Upgrade

open Nor

/-! ### The functions -/

/-- `SPI_FLASH_SEC_SIZE` -/
@[irreducible] def secSize : Nat := 4096

/-- `struct upgrade_param`; of `save` the bytes that `extra` counts. -/
structure UpgradeParam where
  fwBinAddr : Nat
  fwBinSec : Nat
  fwBinSecNum : Nat
  fwBinSecEarse : Nat
  save : List UInt8

/-- How `spi_flash_write` ends: well, or with an error behind some bytes. -/
inductive WriteResult where
  | ok
  | failed (written : Nat)
  deriving DecidableEq

/-- `spi_flash_erase_sector` -/
def eraseSector (sec : Nat) (f : Flash) : Flash := erase f (sec * secSize) ((sec + 1) * secSize)

/-- `spi_flash_write` -/
def flashWrite (f : Flash) (addr : Nat) (buffer : List UInt8) : WriteResult → Bool × Flash
  | .ok => (true, write f addr buffer)
  | .failed written => (false, write f addr (buffer.take written))

/-- The erasure in front of a write of `len` bytes: the sector in which they end, unless it was the last one erased. -/
def eraseFor (upgrade : UpgradeParam) (f : Flash) (len : Nat) : UpgradeParam × Flash :=
  if secSize < len then (upgrade, f)
  else if upgrade.fwBinSecEarse ≠ (upgrade.fwBinAddr + len) / secSize then
    let sec := (upgrade.fwBinAddr + len) / secSize % 256
    ({ upgrade with fwBinSecEarse := sec }, eraseSector sec f)
  else (upgrade, f)

/-- The words of a piece: they are refused when they reach the end of the sectors for the image. -/
def writeWords (upgrade : UpgradeParam) (f : Flash) (words : List UInt8) (result : WriteResult) : Bool × UpgradeParam × Flash :=
  if (upgrade.fwBinSec + upgrade.fwBinSecNum) * secSize ≤ upgrade.fwBinAddr + words.length then (false, upgrade, f)
  else
    let ready := eraseFor upgrade f words.length
    let wrote := flashWrite ready.2 ready.1.fwBinAddr words result
    if wrote.1 then (true, { ready.1 with fwBinAddr := ready.1.fwBinAddr + words.length }, wrote.2)
    else (false, ready.1, wrote.2)

/-- `system_upgrade_internal`; the length is a `uint16`. -/
def systemUpgradeInternal (upgrade : UpgradeParam) (f : Flash) (data : List UInt8) (result : WriteResult) :
    Bool × UpgradeParam × Flash :=
  if data = [] then (true, upgrade, f)
  else
    let buffer := upgrade.save ++ data
    let total := buffer.length % 2 ^ 16
    let extra := total % 4
    let len := total - extra
    writeWords { upgrade with save := (buffer.drop len).take extra } f (buffer.take len) result

/-! ### The sectors of the image -/

/-- The memory outside some sectors is the same. -/
def SameOutside (sec num : Nat) (f g : Flash) : Prop := ∀ a, a < sec * secSize ∨ (sec + num) * secSize ≤ a → f a = g a

theorem SameOutside.refl (sec num : Nat) (f : Flash) : SameOutside sec num f f := fun _ _ => rfl

theorem SameOutside.trans {sec num : Nat} {f g h : Flash} (hfg : SameOutside sec num f g) (hgh : SameOutside sec num g h) :
    SameOutside sec num f h := fun a ha => (hfg a ha).trans (hgh a ha)

/-- An upgrade of some sectors, whose numbers fit a byte. -/
structure UpgradeParam.Of (sec num : Nat) (u : UpgradeParam) : Prop where
  sec_eq : u.fwBinSec = sec
  num_eq : u.fwBinSecNum = num
  addr_ge : sec * secSize ≤ u.fwBinAddr
  small : sec + num ≤ 256

variable {sec num : Nat} {u : UpgradeParam} {f : Flash}

theorem eraseFor_same (h : u.Of sec num) {len : Nat} (hlen : u.fwBinAddr + len < (sec + num) * secSize) :
    (eraseFor u f len).1.Of sec num ∧ (eraseFor u f len).1.fwBinAddr = u.fwBinAddr ∧
      (eraseFor u f len).1.save = u.save ∧ SameOutside sec num f (eraseFor u f len).2 := by
  have hbounds : sec ≤ (u.fwBinAddr + len) / secSize ∧ (u.fwBinAddr + len) / secSize < sec + num := by
    have hge := h.addr_ge
    simp only [secSize] at hge hlen ⊢
    omega
  have hsmall := h.small
  have hfits : (u.fwBinAddr + len) / secSize % 256 = (u.fwBinAddr + len) / secSize := Nat.mod_eq_of_lt (by omega)
  rw [eraseFor]
  split
  · exact ⟨h, rfl, rfl, SameOutside.refl sec num f⟩
  · split
    · refine ⟨⟨h.sec_eq, h.num_eq, h.addr_ge, h.small⟩, rfl, rfl, ?_⟩
      intro a ha
      rw [hfits]
      refine (if_neg ?_).symm
      simp only [secSize] at ha hbounds ⊢
      omega
    · exact ⟨h, rfl, rfl, SameOutside.refl sec num f⟩

theorem flashWrite_same {addr : Nat} {buffer : List UInt8} (hlo : sec * secSize ≤ addr)
    (hhi : addr + buffer.length ≤ (sec + num) * secSize) (result : WriteResult) :
    SameOutside sec num f (flashWrite f addr buffer result).2 := by
  intro a ha
  cases result with
  | ok =>
    refine (write_of_outside f buffer ?_).symm
    omega
  | failed written =>
    refine (write_of_outside f _ ?_).symm
    rw [List.length_take]
    omega

theorem writeWords_same (h : u.Of sec num) (f : Flash) (words : List UInt8) (result : WriteResult) :
    (writeWords u f words result).2.1.Of sec num ∧ SameOutside sec num f (writeWords u f words result).2.2 := by
  rw [writeWords, h.sec_eq, h.num_eq]
  split
  · exact ⟨h, SameOutside.refl sec num f⟩
  · rename_i hfits
    obtain ⟨hof, haddr, -, herase⟩ := eraseFor_same (f := f) h (Nat.lt_of_not_le hfits)
    have hwrite := flashWrite_same (f := (eraseFor u f words.length).2) hof.addr_ge
      (show (eraseFor u f words.length).1.fwBinAddr + words.length ≤ (sec + num) * secSize by rw [haddr]; omega) result
    cases result with
    | ok => exact ⟨⟨hof.sec_eq, hof.num_eq, Nat.le_add_right_of_le hof.addr_ge, hof.small⟩, herase.trans hwrite⟩
    | failed written => exact ⟨hof, herase.trans hwrite⟩

/-- No piece of any length, however the writes end, reaches beyond the sectors of the image. -/
theorem systemUpgradeInternal_same (h : u.Of sec num) (f : Flash) (data : List UInt8) (result : WriteResult) :
    (systemUpgradeInternal u f data result).2.1.Of sec num ∧
      SameOutside sec num f (systemUpgradeInternal u f data result).2.2 := by
  rw [systemUpgradeInternal]
  split
  · exact ⟨h, SameOutside.refl sec num f⟩
  · dsimp only
    apply writeWords_same
    exact ⟨h.sec_eq, h.num_eq, h.addr_ge, h.small⟩

/-! ### The image -/

/-- The words of the image so far are in the flash and the bytes behind them wait; from there on the flash is erased up to the
end of the sector, unless there is no byte yet. -/
structure UpgradeParam.Holds (sec : Nat) (u : UpgradeParam) (f : Flash) (body : List UInt8) : Prop where
  save_eq : u.save = body.drop (4 * (body.length / 4))
  addr_eq : u.fwBinAddr = sec * secSize + 4 * (body.length / 4)
  written : slice f (sec * secSize) (4 * (body.length / 4)) = body.take (4 * (body.length / 4))
  erased : body = [] ∧ u.fwBinSecEarse ≠ sec ∨ u.fwBinSecEarse = u.fwBinAddr / secSize ∧
    Erased f u.fwBinAddr ((u.fwBinAddr / secSize + 1) * secSize)

theorem UpgradeParam.Holds.length_save {body : List UInt8} (h : u.Holds sec f body) : u.save.length = body.length % 4 := by
  rw [h.save_eq, List.length_drop]
  omega

/-- In front of a write of fewer bytes than a sector has, the flash is erased where they go and to the end of the sector. -/
theorem UpgradeParam.Holds.eraseFor {body : List UInt8} (h : u.Holds sec f body) {len : Nat} (hlen : len < secSize)
    (hsmall : (u.fwBinAddr + len) / secSize < 256) :
    (Upgrade.eraseFor u f len).1.fwBinSecEarse = (u.fwBinAddr + len) / secSize ∧
      (Upgrade.eraseFor u f len).1.fwBinAddr = u.fwBinAddr ∧ (Upgrade.eraseFor u f len).1.save = u.save ∧
      Erased (Upgrade.eraseFor u f len).2 u.fwBinAddr (((u.fwBinAddr + len) / secSize + 1) * secSize) ∧
      AgreeOn f (Upgrade.eraseFor u f len).2 (sec * secSize) u.fwBinAddr := by
  have hfits : (u.fwBinAddr + len) / secSize % 256 = (u.fwBinAddr + len) / secSize := Nat.mod_eq_of_lt hsmall
  have haddr := h.addr_eq
  rw [Upgrade.eraseFor, if_neg (by omega)]
  by_cases hsame : u.fwBinSecEarse ≠ (u.fwBinAddr + len) / secSize
  · rw [if_pos hsame, hfits]
    refine ⟨rfl, rfl, rfl, ?_, ?_⟩
    · intro a hlo hhi
      show erase f _ _ a = 0xFF
      by_cases hsector : (u.fwBinAddr + len) / secSize * secSize ≤ a
      · exact if_pos ⟨hsector, hhi⟩
      · have hbefore : erase f ((u.fwBinAddr + len) / secSize * secSize) (((u.fwBinAddr + len) / secSize + 1) * secSize) a = f a :=
          if_neg fun hin => hsector hin.1
        rw [hbefore]
        rcases h.erased with ⟨hnone, hfresh⟩ | ⟨hlast, herased⟩
        · rw [hnone, List.length_nil] at haddr
          simp only [secSize] at haddr hlo hsector hlen
          omega
        · have hnext : (u.fwBinAddr + len) / secSize ≤ u.fwBinAddr / secSize + 1 := by
            simp only [secSize] at hlen ⊢
            omega
          exact herased a hlo (Nat.lt_of_lt_of_le (Nat.lt_of_not_le hsector) (Nat.mul_le_mul_right secSize hnext))
    · intro a hlo hhi
      refine (if_neg ?_).symm
      rintro ⟨hsector, -⟩
      rcases h.erased with ⟨hnone, hfresh⟩ | ⟨hlast, herased⟩
      · rw [hnone, List.length_nil] at haddr
        omega
      · rw [hlast] at hsame
        simp only [secSize] at hlo hhi hsector hlen hsame
        omega
  · rw [if_neg hsame]
    rw [not_not] at hsame
    refine ⟨hsame, rfl, rfl, ?_, fun _ _ _ => rfl⟩
    rcases h.erased with ⟨hnone, hfresh⟩ | ⟨hlast, herased⟩
    · rw [hnone, List.length_nil] at haddr
      simp only [secSize] at haddr hsame hlen hfresh
      omega
    · rwa [← hsame, hlast]

/-- A write of whole words into the erased part. -/
theorem UpgradeParam.Holds.writeWords {body data words : List UInt8} {v : UpgradeParam} (h : u.Holds sec f body)
    (hv : v = { u with save := (body ++ data).drop (4 * ((body ++ data).length / 4)) }) (hof : u.Of sec num)
    (hwords : u.save ++ data = words ++ v.save) (hlength : words.length + 4 * (body.length / 4) = 4 * ((body ++ data).length / 4))
    (hshort : words.length < secSize) (hfits : u.fwBinAddr + words.length < (sec + num) * secSize) :
    (Upgrade.writeWords v f words .ok).1 = true ∧
      (Upgrade.writeWords v f words .ok).2.1.Holds sec (Upgrade.writeWords v f words .ok).2.2 (body ++ data) := by
  have haddr : v.fwBinAddr = u.fwBinAddr := by rw [hv]
  have hsec : v.fwBinSec = sec := by rw [hv]; exact hof.sec_eq
  have hnum : v.fwBinSecNum = num := by rw [hv]; exact hof.num_eq
  have hsmall : (u.fwBinAddr + words.length) / secSize < 256 := by
    have hbound := hof.small
    simp only [secSize] at hfits ⊢
    omega
  have hready : (Upgrade.eraseFor v f words.length).2 = (Upgrade.eraseFor u f words.length).2 ∧
      (Upgrade.eraseFor v f words.length).1 = { (Upgrade.eraseFor u f words.length).1 with save := v.save } := by
    rw [hv, Upgrade.eraseFor, Upgrade.eraseFor]
    split
    · exact ⟨rfl, rfl⟩
    · split
      · exact ⟨rfl, rfl⟩
      · exact ⟨rfl, rfl⟩
  obtain ⟨hlast, hstart, -, herased, hagree⟩ := h.eraseFor hshort hsmall
  rw [Upgrade.writeWords, hsec, hnum, haddr, if_neg (Nat.not_le.mpr hfits)]
  dsimp only
  rw [hready.1, hready.2]
  dsimp only
  rw [hstart]
  refine ⟨rfl, ?_⟩
  show UpgradeParam.Holds sec { Upgrade.eraseFor u f words.length |>.1 with
    fwBinAddr := u.fwBinAddr + words.length, save := v.save } (write _ u.fwBinAddr words) (body ++ data)
  generalize (Upgrade.eraseFor u f words.length).2 = g at herased hagree ⊢
  generalize (Upgrade.eraseFor u f words.length).1 = w at hlast ⊢
  have hbody : body.take (4 * (body.length / 4)) ++ words = (body ++ data).take (4 * ((body ++ data).length / 4)) := by
    have hall : body ++ data = (body.take (4 * (body.length / 4)) ++ words) ++ v.save := by
      rw [List.append_assoc, ← hwords, h.save_eq, ← List.append_assoc, List.take_append_drop]
    rw [hall, List.take_left']
    rw [← hall, List.length_append, List.length_take]
    omega
  have hsector : u.fwBinAddr + words.length ≤ ((u.fwBinAddr + words.length) / secSize + 1) * secSize := by
    simp only [secSize]
    omega
  refine ⟨by rw [hv], ?_, ?_, Or.inr ⟨hlast, ?_⟩⟩
  · show u.fwBinAddr + words.length = _
    rw [← hlength, h.addr_eq]
    omega
  · have haddress := h.addr_eq
    rw [← hbody, ← hlength, Nat.add_comm words.length, slice_add]
    congr 1
    · have hbefore : AgreeOn f (write g u.fwBinAddr words) (sec * secSize) (sec * secSize + 4 * (body.length / 4)) := by
        intro a hlo hhi
        rw [write_of_outside g words (Or.inl (by omega))]
        exact hagree a hlo (by omega)
      rw [← slice_congr hbefore, h.written]
    · rw [← haddress]
      exact slice_write (herased.mono (Nat.le_refl _) hsector)
  · intro a hlo hhi
    rw [write_of_outside g words (Or.inr hlo)]
    exact herased a (Nat.le_of_add_right_le hlo) hhi

/-- A piece of the image that a sector has room for. -/
theorem UpgradeParam.Holds.systemUpgrade {body data : List UInt8} (h : u.Holds sec f body) (hof : u.Of sec num)
    (hshort : data.length + 4 ≤ secSize) (hfits : (body ++ data).length < num * secSize) :
    (systemUpgradeInternal u f data .ok).1 = true ∧
      (systemUpgradeInternal u f data .ok).2.1.Holds sec (systemUpgradeInternal u f data .ok).2.2 (body ++ data) := by
  rw [systemUpgradeInternal]
  by_cases hnone : data = []
  · rw [if_pos hnone, hnone, List.append_nil]
    exact ⟨rfl, h⟩
  · rw [if_neg hnone]
    have hsave := h.length_save
    have hbuffer : (u.save ++ data).length = body.length % 4 + data.length := by rw [List.length_append, hsave]
    have hwhole : (u.save ++ data).length % 2 ^ 16 = (u.save ++ data).length := by
      apply Nat.mod_eq_of_lt
      simp only [secSize] at hshort
      omega
    have htotal : (body ++ data).length = body.length + data.length := List.length_append
    dsimp only
    rw [hwhole]
    generalize hlen : (u.save ++ data).length - (u.save ++ data).length % 4 = len
    have hrest : ((u.save ++ data).drop len).take ((u.save ++ data).length % 4) =
        (body ++ data).drop (4 * ((body ++ data).length / 4)) := by
      have hall : body ++ data = body.take (4 * (body.length / 4)) ++ (u.save ++ data) := by
        rw [h.save_eq, ← List.append_assoc, List.take_append_drop]
      rw [List.take_of_length_le (by rw [List.length_drop]; omega), htotal]
      conv_rhs => rw [hall]
      have hsplit : 4 * ((body.length + data.length) / 4) = (body.take (4 * (body.length / 4))).length + len := by
        rw [List.length_take]
        omega
      rw [hsplit, List.drop_length_add_append]
    have htake : ((u.save ++ data).take len).length = len := by
      rw [List.length_take]
      omega
    rw [hrest]
    apply h.writeWords rfl hof
    · show u.save ++ data = (u.save ++ data).take len ++ (body ++ data).drop (4 * ((body ++ data).length / 4))
      rw [← hrest, List.take_of_length_le (l := (u.save ++ data).drop len) (by rw [List.length_drop]; omega),
        List.take_append_drop]
    · rw [htake, htotal]
      omega
    · rw [htake]
      omega
    · rw [htake, h.addr_eq, Nat.add_mul]
      omega

end EspClock.Upgrade
