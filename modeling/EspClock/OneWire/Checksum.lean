import EspClock.OneWire.Bits
import EspClock.Lib.Crc
import Mathlib.Tactic.NormNum.Prime

/-!
# The checksums of 1-wire

`onewire_crc8` and `onewire_crc16` of `onewire.c`, the table that another build of the driver would use for the first, and the
comparison with a checksum that was received.
-/

namespace EspClock.OneWire

/-! ### The functions -/

/-- The body of the inner loop of `onewire_crc8`: a bit of `inbyte` is mixed in. -/
def crc8Bit (state : UInt8 × UInt8) : UInt8 × UInt8 :=
  let mix := (state.1 ^^^ state.2) &&& 0x01
  let crc := state.1 >>> 1
  (if mix ≠ 0 then crc ^^^ 0x8C else crc, state.2 >>> 1)

/-- `onewire_crc8` -/
def crc8 (addr : List UInt8) : UInt8 := addr.foldl (fun crc inbyte => (crc8Bit^[8] (crc, inbyte)).1) 0

/-- `dscrc_table` -/
def dscrcTable : List UInt8 := [
  0, 94, 188, 226, 97, 63, 221, 131, 194, 156, 126, 32, 163, 253, 31, 65,
  157, 195, 33, 127, 252, 162, 64, 30, 95, 1, 227, 189, 62, 96, 130, 220,
  35, 125, 159, 193, 66, 28, 254, 160, 225, 191, 93, 3, 128, 222, 60, 98,
  190, 224, 2, 92, 223, 129, 99, 61, 124, 34, 192, 158, 29, 67, 161, 255,
  70, 24, 250, 164, 39, 121, 155, 197, 132, 218, 56, 102, 229, 187, 89, 7,
  219, 133, 103, 57, 186, 228, 6, 88, 25, 71, 165, 251, 120, 38, 196, 154,
  101, 59, 217, 135, 4, 90, 184, 230, 167, 249, 27, 69, 198, 152, 122, 36,
  248, 166, 68, 26, 153, 199, 37, 123, 58, 100, 134, 216, 91, 5, 231, 185,
  140, 210, 48, 110, 237, 179, 81, 15, 78, 16, 242, 172, 47, 113, 147, 205,
  17, 79, 173, 243, 112, 46, 204, 146, 211, 141, 111, 49, 178, 236, 14, 80,
  175, 241, 19, 77, 206, 144, 114, 44, 109, 51, 209, 143, 12, 82, 176, 238,
  50, 108, 142, 208, 83, 13, 239, 177, 240, 174, 76, 18, 145, 207, 45, 115,
  202, 148, 118, 40, 171, 245, 23, 73, 8, 86, 180, 234, 105, 55, 213, 139,
  87, 9, 235, 181, 54, 104, 138, 212, 149, 203, 41, 119, 244, 170, 72, 22,
  233, 183, 85, 11, 136, 214, 52, 106, 43, 117, 151, 201, 74, 20, 246, 168,
  116, 42, 200, 150, 21, 75, 169, 247, 182, 232, 10, 84, 215, 137, 107, 53]

/-- `onewire_crc8` of a build with `ONEWIRE_CRC8_TABLE` -/
def crc8Table (addr : List UInt8) : UInt8 := addr.foldl (fun crc byte => dscrcTable.getD (crc ^^^ byte).toNat 0) 0

def oddparity : List UInt16 := [0, 1, 1, 0, 1, 0, 0, 1, 1, 0, 0, 1, 0, 1, 1, 0]

/-- The body of the loop of `onewire_crc16`. -/
def crc16Byte (crc : UInt16) (byte : UInt8) : UInt16 :=
  let cdata := (byte.toUInt16 ^^^ crc) &&& 0xff
  let crc := crc >>> 8
  let crc := if oddparity.getD (cdata &&& 0x0F).toNat 0 ^^^ oddparity.getD (cdata >>> 4).toNat 0 ≠ 0 then crc ^^^ 0xC001 else crc
  let cdata := cdata <<< 6
  let crc := crc ^^^ cdata
  let cdata := cdata <<< 1
  crc ^^^ cdata

/-- `onewire_crc16` -/
def crc16 (input : List UInt8) (crc : UInt16) : UInt16 := input.foldl crc16Byte crc

/-- `onewire_check_crc16`; `inverted_crc` are the two bytes `low` and `high`. -/
def checkCrc16 (input : List UInt8) (low high : UInt8) (crc : UInt16) : Bool :=
  let crc := ~~~crc16 input crc
  crc &&& 0xFF == low.toUInt16 && crc >>> 8 == high.toUInt16

/-! ### The registers -/

/-- The polynomial of the first checksum. -/
def poly8 : BitVec 8 := 0x8C#8

/-- The polynomial of the second checksum. -/
def poly16 : BitVec 16 := 0xA001#16

theorem crc8Bit_eq (state : UInt8 × UInt8) :
    (crc8Bit state).1.toBitVec = Crc.step poly8 state.1.toBitVec (state.2.toNat.testBit 0) := by
  have hmix : ((state.1 ^^^ state.2) &&& 0x01 ≠ 0) ↔ xor (state.1.toBitVec.getLsbD 0) (state.2.toNat.testBit 0) = true := by
    have hmask := and_maskAt_ne_zero (state.1 ^^^ state.2) (m := 0) (by decide)
    rw [UInt8.toNat_xor, Nat.testBit_xor] at hmask
    have hbit : state.1.toNat.testBit 0 = state.1.toBitVec.getLsbD 0 := by
      rw [← UInt8.toNat_toBitVec, BitVec.testBit_toNat]
    rw [← hbit, ← hmask]
    exact bne_iff_ne.symm
  have hshift : (state.1 >>> 1).toBitVec = state.1.toBitVec >>> 1 := by
    rw [UInt8.toBitVec_shiftRight]
    rfl
  rw [crc8Bit, Crc.step]
  by_cases h : (state.1 ^^^ state.2) &&& 0x01 ≠ 0
  · rw [if_pos h, if_pos (hmix.mp h)]
    show (state.1 >>> 1 ^^^ 0x8C).toBitVec = _
    rw [UInt8.toBitVec_xor, hshift]
    rfl
  · rw [if_neg h, if_neg (fun hx => h (hmix.mpr hx))]
    exact hshift

theorem crc8Bit_snd (state : UInt8 × UInt8) (k : Nat) :
    (crc8Bit state).2.toNat.testBit k = state.2.toNat.testBit (k + 1) := by
  show (state.2 >>> 1).toNat.testBit k = _
  have hshift : (state.2 >>> 1).toNat = state.2.toNat >>> 1 := rfl
  rw [hshift, Nat.testBit_shiftRight, Nat.add_comm]

/-- Rounds of the inner loop feed the bits of the byte. -/
theorem iterate_crc8Bit (n : Nat) (state : UInt8 × UInt8) :
    (crc8Bit^[n] state).1.toBitVec = Crc.feed poly8 state.1.toBitVec ((List.range n).map state.2.toNat.testBit) := by
  induction n generalizing state with
  | zero => rfl
  | succ n ih =>
    rw [Function.iterate_succ_apply, ih, List.range_succ_eq_map, List.map_cons, List.map_map, Crc.feed_cons, crc8Bit_eq]
    congr 1
    exact List.map_congr_left fun k _ => crc8Bit_snd state k

theorem foldl_crc8 (addr : List UInt8) (crc : UInt8) :
    (addr.foldl (fun crc inbyte => (crc8Bit^[8] (crc, inbyte)).1) crc).toBitVec =
      Crc.feed poly8 crc.toBitVec (addr.flatMap lsbFirst) := by
  induction addr generalizing crc with
  | nil => rfl
  | cons byte addr ih =>
    rw [List.foldl_cons, ih, List.flatMap_cons, Crc.feed_append, iterate_crc8Bit]
    rfl

/-- The checksum is what the bits of the bytes leave in the register. -/
theorem crc8_eq_feed (addr : List UInt8) : (crc8 addr).toBitVec = Crc.feed poly8 0#8 (addr.flatMap lsbFirst) := foldl_crc8 addr 0

theorem msb_poly8 : poly8.msb = true := by decide

theorem word_lsbFirst (v : UInt8) : Crc.word 8 (lsbFirst v) = v.toBitVec := by
  apply BitVec.eq_of_getLsbD_eq
  intro i hi
  rw [Crc.getLsbD_word hi, lsbFirst, List.getD_eq_getElem?_getD, List.getElem?_map, List.getElem?_range hi, Option.map_some,
    Option.getD_some, ← UInt8.toNat_toBitVec, BitVec.testBit_toNat]

/-- A message with one more byte leaves nothing exactly if this byte is the checksum of the others. -/
theorem crc8_concat_eq_zero_iff (addr : List UInt8) (crc : UInt8) : crc8 (addr ++ [crc]) = 0 ↔ crc8 addr = crc := by
  have hzero : (0#8 : BitVec 8) = (0 : UInt8).toBitVec := rfl
  rw [← UInt8.toBitVec_inj, crc8_eq_feed, List.flatMap_append, Crc.feed_append, ← crc8_eq_feed, ← hzero]
  have hone : [crc].flatMap lsbFirst = lsbFirst crc := List.flatMap_singleton lsbFirst crc
  rw [hone, Crc.feed_eq_zero_iff msb_poly8 _ (by rw [length_lsbFirst]), word_lsbFirst, UInt8.toBitVec_inj]
  exact eq_comm

/-! ### The table -/

/-- The eight rounds for a byte, from the byte and the register together. -/
theorem feed_lsbFirst (crc byte : UInt8) :
    Crc.feed poly8 crc.toBitVec (lsbFirst byte) = Crc.feed poly8 (crc ^^^ byte).toBitVec (List.replicate 8 false) := by
  rw [Crc.feed_eq_feed_replicate _ (Nat.le_of_eq (length_lsbFirst byte)), word_lsbFirst, length_lsbFirst, UInt8.toBitVec_xor]

theorem dscrcTable_eq : dscrcTable =
    (List.range 256).map fun n => UInt8.ofBitVec (Crc.feed poly8 (BitVec.ofNat 8 n) (List.replicate 8 false)) := by
  decide +kernel

theorem getD_dscrcTable (k : UInt8) : (dscrcTable.getD k.toNat 0).toBitVec = Crc.feed poly8 k.toBitVec (List.replicate 8 false) := by
  rw [dscrcTable_eq, List.getD_eq_getElem?_getD, List.getElem?_map, List.getElem?_range k.toNat_lt, Option.map_some,
    Option.getD_some, ← UInt8.toNat_toBitVec, BitVec.ofNat_toNat, BitVec.setWidth_eq]

/-- The two builds of the driver compute the same checksum. -/
theorem crc8Table_eq_crc8 (addr : List UInt8) : crc8Table addr = crc8 addr := by
  have hfold : ∀ crc : UInt8, addr.foldl (fun crc byte => dscrcTable.getD (crc ^^^ byte).toNat 0) crc =
      addr.foldl (fun crc inbyte => (crc8Bit^[8] (crc, inbyte)).1) crc := by
    induction addr with
    | nil => exact fun _ => rfl
    | cons byte addr ih =>
      intro crc
      have hbyte : dscrcTable.getD (crc ^^^ byte).toNat 0 = (crc8Bit^[8] (crc, byte)).1 := by
        rw [← UInt8.toBitVec_inj, getD_dscrcTable, ← feed_lsbFirst, iterate_crc8Bit]
        rfl
      rw [List.foldl_cons, List.foldl_cons, hbyte]
      exact ih _
  exact hfold 0

/-! ### Errors that are found -/

/-- The bits in which two messages differ. -/
def errors (a b : List UInt8) : List Bool := Crc.errors (a.flatMap lsbFirst) (b.flatMap lsbFirst)

theorem length_flatMap_lsbFirst (a : List UInt8) : (a.flatMap lsbFirst).length = 8 * a.length := by
  induction a with
  | nil => rfl
  | cons v a ih =>
    rw [List.flatMap_cons, List.length_append, ih, length_lsbFirst, List.length_cons]
    omega

theorem flatMap_lsbFirst_injective {a b : List UInt8} (hlength : a.length = b.length)
    (h : a.flatMap lsbFirst = b.flatMap lsbFirst) : a = b := by
  induction a generalizing b with
  | nil => exact (List.length_eq_zero_iff.mp hlength.symm).symm
  | cons v a ih =>
    cases b with
    | nil => cases hlength
    | cons u b =>
      rw [List.flatMap_cons, List.flatMap_cons] at h
      obtain ⟨hbyte, hrest⟩ := List.append_inj h (by rw [length_lsbFirst, length_lsbFirst])
      rw [ih (Nat.succ.inj hlength) hrest, ← byteOf_lsbFirst v, hbyte, byteOf_lsbFirst]

/-- Messages that differ do so in some bit. -/
theorem true_mem_errors {a b : List UInt8} (hlength : a.length = b.length) (hne : a ≠ b) : true ∈ errors a b := by
  have hbits : ∀ x y : List Bool, x.length = y.length → true ∉ Crc.errors x y → x = y := by
    intro x
    induction x with
    | nil => exact fun y hy _ => (List.length_eq_zero_iff.mp hy.symm).symm
    | cons i x ih =>
      intro y hy hnot
      cases y with
      | nil => cases hy
      | cons j y =>
        have hfirst : ¬ true = xor i j := fun h => hnot (List.mem_cons.mpr (Or.inl h))
        have hrest : true ∉ Crc.errors x y := fun h => hnot (List.mem_cons_of_mem _ h)
        have hij : i = j := by
          cases i <;> cases j
          · rfl
          · exact absurd rfl hfirst
          · exact absurd rfl hfirst
          · rfl
        rw [hij, ih y (Nat.succ.inj hy) hrest]
  by_contra hnot
  refine hne (flatMap_lsbFirst_injective hlength (hbits _ _ ?_ hnot))
  rw [length_flatMap_lsbFirst, length_flatMap_lsbFirst, hlength]

theorem parity_poly8 : Crc.parity poly8 = true := by decide

/-- The register of the first checksum comes around after 127 shifts. -/
theorem period_poly8 : ∀ d, 0 < d → d < 127 → Crc.feed poly8 poly8 (List.replicate d false) ≠ poly8 := by
  intro d hpos hlt hback
  -- the period divides 127, which is a prime
  have hperiod : Function.minimalPeriod (fun c => Crc.step poly8 c false) poly8 ∣ 127 :=
    Function.IsPeriodicPt.minimalPeriod_dvd (Crc.isPeriodicPt_of_feed (n := 127) (by decide +kernel))
  rcases (Nat.dvd_prime (by norm_num)).mp hperiod with hone | hall
  · exact absurd (Function.minimalPeriod_eq_one_iff_isFixedPt.mp hone) (by decide)
  · have hdvd := Function.IsPeriodicPt.minimalPeriod_dvd (Crc.isPeriodicPt_of_feed hback)
    rw [hall] at hdvd
    exact absurd (Nat.le_of_dvd hpos hdvd) (by omega)

theorem crc8_ne_zero_of_feed {a b : List UInt8} (hlength : a.length = b.length) (ha : crc8 a = 0)
    (h : Crc.feed poly8 0#8 (errors a b) ≠ 0#8) : crc8 b ≠ 0 := by
  intro hb
  apply h
  refine (Crc.feed_eq_iff ?_ 0#8).mp ?_
  · rw [length_flatMap_lsbFirst, length_flatMap_lsbFirst, hlength]
  · rw [← crc8_eq_feed, ← crc8_eq_feed, ha, hb]

/-- A message that passes the check does so no more once at most eight bits in a row are changed, or, in a message of at
most fifteen bytes, at most three bits anywhere. -/
theorem crc8_ne_zero_of_errors {a b : List UInt8} (hlength : a.length = b.length) (ha : crc8 a = 0) (hne : a ≠ b)
    (h : (∃ i, ∀ j, (errors a b)[j]? = some true → i ≤ j ∧ j < i + 8) ∨
      a.length ≤ 15 ∧ (errors a b).count true ≤ 3) : crc8 b ≠ 0 := by
  have hmem := true_mem_errors hlength hne
  apply crc8_ne_zero_of_feed hlength ha
  rcases h with ⟨i, hwindow⟩ | ⟨hshort, hcount⟩
  · exact Crc.feed_window msb_poly8 hmem hwindow
  · refine Crc.feed_three msb_poly8 parity_poly8 period_poly8 ?_ (fun h => List.count_eq_zero.mp h hmem) hcount
    have hbits : (errors a b).length = 8 * a.length := by
      rw [errors, Crc.errors, List.length_zipWith, length_flatMap_lsbFirst, length_flatMap_lsbFirst, ← hlength, Nat.min_self]
    omega

theorem crc8_ne_zero_of_errors_code : crc8 [0x28, 0xFF, 0x64, 0x1E, 0x0F, 0x2C, 0x36, 248] ≠ 0 :=
  crc8_ne_zero_of_errors (a := [0x28, 0xFF, 0x64, 0x1E, 0x0F, 0x2C, 0x16, 248]) rfl (by decide +kernel) (by decide)
    (Or.inr ⟨by decide, by decide +kernel⟩)

/-! ### The second checksum -/

theorem msb_poly16 : poly16.msb = true := by decide

theorem toBitVec_toUInt16 (v : UInt8) : v.toUInt16.toBitVec = Crc.word 16 (lsbFirst v) := by
  apply BitVec.eq_of_getLsbD_eq
  intro i hi
  rw [Crc.getLsbD_word hi, ← BitVec.testBit_toNat]
  show v.toNat.testBit i = _
  by_cases h : i < 8
  · rw [List.getD_eq_getElem?_getD, getElem?_lsbFirst v h, Option.getD_some]
  · rw [List.getD_eq_default _ _ (by rw [length_lsbFirst]; omega), Nat.testBit_eq_false_of_lt]
    exact Nat.lt_of_lt_of_le v.toNat_lt (Nat.pow_le_pow_right (by decide) (by omega))

/-- What the loop of `onewire_crc16` makes of the low byte of the register. -/
def lowByte (cdata : UInt16) : UInt16 :=
  (if oddparity.getD (cdata &&& 0x0F).toNat 0 ^^^ oddparity.getD (cdata >>> 4).toNat 0 ≠ 0 then (0xC001 : UInt16) else 0) ^^^
    (cdata <<< 6) ^^^ (cdata <<< 6 <<< 1)

theorem crc16Byte_eq (crc : UInt16) (byte : UInt8) :
    crc16Byte crc byte = (crc >>> 8) ^^^ lowByte ((byte.toUInt16 ^^^ crc) &&& 0xff) := by
  rw [crc16Byte, lowByte]
  split
  · simp only [UInt16.xor_assoc]
  · simp only [UInt16.xor_assoc, UInt16.zero_xor]

theorem feed_lowByte (x : UInt16) (h : x.toNat < 256) :
    Crc.feed poly16 x.toBitVec (List.replicate 8 false) = (lowByte x).toBitVec := by
  have hall : ∀ n ∈ List.range 256, Crc.feed poly16 (UInt16.ofNat n).toBitVec (List.replicate 8 false) =
      (lowByte (UInt16.ofNat n)).toBitVec := by decide +kernel
  have hx := hall x.toNat (List.mem_range.mpr h)
  rwa [UInt16.ofNat_toNat] at hx

theorem toBitVec_shiftRight_eight (x : UInt16) : (x >>> 8).toBitVec = x.toBitVec >>> 8 := by
  rw [UInt16.toBitVec_shiftRight]
  rfl

/-- Eight shifts of the register, computed from the parity of its low byte. -/
theorem feed_eq_lowByte (x : UInt16) :
    Crc.feed poly16 x.toBitVec (List.replicate 8 false) = (x >>> 8).toBitVec ^^^ (lowByte (x &&& 0xff)).toBitVec := by
  have hmask : ∀ i, (0xff#16).getLsbD i = decide (i < 8) := by
    intro i
    by_cases hi : i < 16
    · have hall : ∀ i < 16, (0xff#16).getLsbD i = decide (i < 8) := by decide
      exact hall i hi
    · rw [BitVec.getLsbD_of_ge _ _ (by omega), decide_eq_false (by omega)]
  have hsplit : x.toBitVec = (x.toBitVec &&& ~~~0xff#16) ^^^ (x.toBitVec &&& 0xff#16) := by
    apply BitVec.eq_of_getLsbD_eq
    intro i hi
    rw [BitVec.getLsbD_xor, BitVec.getLsbD_and, BitVec.getLsbD_and, BitVec.getLsbD_not, decide_eq_true hi, Bool.true_and]
    cases x.toBitVec.getLsbD i <;> cases (0xff#16).getLsbD i <;> rfl
  have hhigh : Crc.feed poly16 (x.toBitVec &&& ~~~0xff#16) (List.replicate 8 false) = x.toBitVec >>> 8 := by
    rw [Crc.feed_replicate_of_low]
    · apply BitVec.eq_of_getLsbD_eq
      intro i hi
      rw [BitVec.getLsbD_ushiftRight, BitVec.getLsbD_ushiftRight, BitVec.getLsbD_and, BitVec.getLsbD_not, hmask,
        decide_eq_false (show ¬ 8 + i < 8 by omega), Bool.not_false, Bool.and_true]
      by_cases htop : 8 + i < 16
      · rw [decide_eq_true htop, Bool.and_true]
      · rw [BitVec.getLsbD_of_ge _ _ (by omega), Bool.false_and]
    · intro i hi
      rw [BitVec.getLsbD_and, BitVec.getLsbD_not, hmask, decide_eq_true hi, Bool.not_true, Bool.and_false, Bool.and_false]
  have hlow : (x &&& 0xff).toNat < 256 := by
    rw [UInt16.toNat_and]
    exact Nat.lt_of_le_of_lt Nat.and_le_right (by decide)
  have hboth := Crc.feed_xor poly16 (x := List.replicate 8 false) (y := List.replicate 8 false) rfl (x.toBitVec &&& ~~~0xff#16)
    (x.toBitVec &&& 0xff#16)
  have herrors : Crc.errors (List.replicate 8 false) (List.replicate 8 false) = List.replicate 8 false := rfl
  have hand : (x &&& 0xff).toBitVec = x.toBitVec &&& 0xff#16 := UInt16.toBitVec_and x 0xff
  rw [herrors, ← hsplit, hhigh, ← hand, feed_lowByte _ hlow, ← toBitVec_shiftRight_eight] at hboth
  exact hboth

/-- The second checksum is a cyclic redundancy check as well. -/
theorem crc16_eq_feed (input : List UInt8) (crc : UInt16) :
    (crc16 input crc).toBitVec = Crc.feed poly16 crc.toBitVec (input.flatMap lsbFirst) := by
  induction input generalizing crc with
  | nil => rfl
  | cons byte input ih =>
    have hbyte : (crc16Byte crc byte).toBitVec = Crc.feed poly16 crc.toBitVec (lsbFirst byte) := by
      have hlength := length_lsbFirst byte
      have hhigh : (crc ^^^ byte.toUInt16) >>> 8 = crc >>> 8 := by
        have hzero : byte.toUInt16 >>> 8 = 0 := by
          rw [← UInt16.toNat_inj]
          exact (Nat.shiftRight_eq_div_pow byte.toNat 8).trans (Nat.div_eq_of_lt byte.toNat_lt)
        rw [← UInt16.toBitVec_inj, toBitVec_shiftRight_eight, UInt16.toBitVec_xor, BitVec.ushiftRight_xor_distrib,
          ← toBitVec_shiftRight_eight, ← toBitVec_shiftRight_eight, hzero]
        exact BitVec.xor_zero
      rw [Crc.feed_eq_feed_replicate _ (by rw [hlength]; decide), hlength, ← toBitVec_toUInt16, ← UInt16.toBitVec_xor,
        feed_eq_lowByte, hhigh, ← UInt16.toBitVec_xor, crc16Byte_eq, UInt16.xor_comm byte.toUInt16 crc]
    rw [List.flatMap_cons, Crc.feed_append, ← hbyte]
    exact ih _

theorem word_two_bytes (low high : UInt8) :
    Crc.word 16 ([low, high].flatMap lsbFirst) = low.toUInt16.toBitVec ||| (high.toUInt16 <<< 8).toBitVec := by
  have hbits : [low, high].flatMap lsbFirst = lsbFirst low ++ lsbFirst high := by
    rw [List.flatMap_cons, List.flatMap_singleton]
  apply BitVec.eq_of_getLsbD_eq
  intro i hi
  have hshift : (high.toUInt16 <<< 8).toBitVec = high.toUInt16.toBitVec <<< 8 := by
    rw [UInt16.toBitVec_shiftLeft]
    rfl
  rw [Crc.getLsbD_word hi, hbits, BitVec.getLsbD_or, hshift, BitVec.getLsbD_shiftLeft, toBitVec_toUInt16, toBitVec_toUInt16,
    Crc.getLsbD_word hi, decide_eq_true hi, Bool.true_and]
  have hlength := length_lsbFirst low
  by_cases hlow : i < 8
  · rw [List.getD_append _ _ _ _ (by omega), decide_eq_true hlow, Bool.not_true, Bool.false_and, Bool.or_false]
  · rw [List.getD_append_right _ _ _ _ (by omega), decide_eq_false hlow, Bool.not_false, Bool.true_and, hlength,
      Crc.getLsbD_word (by omega), List.getD_eq_default (lsbFirst low) _ (by omega), Bool.false_or]

/-- The two bytes of a register. -/
theorem bytes_eq_iff (x : UInt16) (low high : UInt8) :
    (x &&& 0xFF = low.toUInt16 ∧ x >>> 8 = high.toUInt16) ↔ low.toUInt16 ||| high.toUInt16 <<< 8 = x := by
  have hlow := low.toNat_lt
  have hhigh := high.toNat_lt
  have hx := x.toNat_lt
  have hmask : x.toNat &&& 255 = x.toNat % 256 := Nat.and_two_pow_sub_one_eq_mod x.toNat 8
  have hor : low.toNat ||| 256 * high.toNat = low.toNat + 256 * high.toNat := by
    rw [Nat.or_comm, ← Nat.two_pow_add_eq_or_of_lt (i := 8) hlow, Nat.add_comm]
  have hfield : (x &&& 0xFF).toNat = x.toNat % 256 := by
    rw [UInt16.toNat_and]
    exact hmask
  have hshift : (x >>> 8).toNat = x.toNat / 256 := Nat.shiftRight_eq_div_pow x.toNat 8
  have hboth : (low.toUInt16 ||| high.toUInt16 <<< 8).toNat = low.toNat + 256 * high.toNat := by
    have hup : (high.toUInt16 <<< 8).toNat = 256 * high.toNat := by
      rw [UInt16.toNat_shiftLeft]
      show (high.toNat <<< 8) % 65536 = _
      rw [Nat.shiftLeft_eq]
      omega
    rw [UInt16.toNat_or, hup]
    exact hor
  rw [← UInt16.toNat_inj, ← UInt16.toNat_inj, ← UInt16.toNat_inj, hfield, hshift, hboth]
  show x.toNat % 256 = low.toNat ∧ x.toNat / 256 = high.toNat ↔ _
  omega

/-- The comparison accepts exactly the messages that leave this residue together with the two bytes. -/
theorem checkCrc16_eq (input : List UInt8) (low high : UInt8) (crc : UInt16) :
    checkCrc16 input low high crc = (crc16 (input ++ [low, high]) crc == 0xB001) := by
  have hresidue : Crc.feed poly16 0xFFFF#16 (List.replicate 16 false) = (0xB001 : UInt16).toBitVec := by decide +kernel
  have hlength : ([low, high].flatMap lsbFirst).length = 16 := by rw [length_flatMap_lsbFirst]; rfl
  have hleft : checkCrc16 input low high crc = true ↔ low.toUInt16 ||| high.toUInt16 <<< 8 = ~~~crc16 input crc := by
    rw [← bytes_eq_iff, checkCrc16, Bool.and_eq_true, beq_iff_eq, beq_iff_eq]
  have hright : crc16 (input ++ [low, high]) crc = 0xB001 ↔ low.toUInt16 ||| high.toUInt16 <<< 8 = ~~~crc16 input crc := by
    generalize hr : crc16 input crc = r
    have hword := word_two_bytes low high
    rw [← UInt16.toBitVec_or] at hword
    have hfeed : (crc16 (input ++ [low, high]) crc).toBitVec =
        Crc.feed poly16 (r.toBitVec ^^^ (low.toUInt16 ||| high.toUInt16 <<< 8).toBitVec) (List.replicate 16 false) := by
      rw [crc16_eq_feed, List.flatMap_append, Crc.feed_append, ← crc16_eq_feed input, hr,
        Crc.feed_eq_feed_replicate _ (Nat.le_of_eq hlength), hlength, hword]
    rw [← UInt16.toBitVec_inj, hfeed, ← hresidue]
    have hcancel : r.toBitVec ^^^ (~~~r).toBitVec = 0xFFFF#16 := by
      rw [UInt16.toBitVec_not]
      apply BitVec.eq_of_getLsbD_eq
      intro i hi
      have hones : (0xFFFF#16).getLsbD i = true := by
        have hall : ∀ i < 16, (0xFFFF#16).getLsbD i = true := by decide
        exact hall i hi
      rw [BitVec.getLsbD_xor, BitVec.getLsbD_not, decide_eq_true hi, hones]
      cases r.toBitVec.getLsbD i <;> rfl
    constructor
    · intro heq
      have hzero : Crc.feed poly16 ((r.toBitVec ^^^ (low.toUInt16 ||| high.toUInt16 <<< 8).toBitVec) ^^^ 0xFFFF#16)
          (Crc.errors (List.replicate 16 false) (List.replicate 16 false)) = 0#16 := by
        rw [Crc.feed_xor poly16 rfl, heq, BitVec.xor_self]
      have hnone := Crc.eq_zero_of_feed_replicate (n := 16) msb_poly16 hzero
      rw [← hcancel, BitVec.xor_eq_zero_iff] at hnone
      have hboth := congrArg (fun z => r.toBitVec ^^^ z) hnone
      simp only [← BitVec.xor_assoc, BitVec.xor_self, BitVec.zero_xor] at hboth
      exact UInt16.toBitVec_inj.mp hboth
    · intro heq
      rw [heq, hcancel]
  rw [Bool.eq_iff_iff, hleft, beq_iff_eq, hright]

theorem parity_poly16 : Crc.parity poly16 = true := by decide

/-- A message whose two bytes are right is not accepted once at most sixteen bits in a row of the message and its bytes are
changed, or any odd number of them. -/
theorem checkCrc16_eq_false_of_errors {a b : List UInt8} {low high low' high' : UInt8} {crc : UInt16}
    (hlength : a.length = b.length) (ha : checkCrc16 a low high crc = true) (hne : a ++ [low, high] ≠ b ++ [low', high'])
    (h : (∃ i, ∀ j, (errors (a ++ [low, high]) (b ++ [low', high']))[j]? = some true → i ≤ j ∧ j < i + 16) ∨
      (errors (a ++ [low, high]) (b ++ [low', high'])).count true % 2 = 1) : checkCrc16 b low' high' crc = false := by
  have hlength' : (a ++ [low, high]).length = (b ++ [low', high']).length := by
    rw [List.length_append, List.length_append, hlength]
    rfl
  by_contra hb
  rw [Bool.not_eq_false, checkCrc16_eq, beq_iff_eq] at hb
  rw [checkCrc16_eq, beq_iff_eq] at ha
  have hzero : Crc.feed poly16 0#16 (errors (a ++ [low, high]) (b ++ [low', high'])) = 0#16 := by
    refine (Crc.feed_eq_iff ?_ crc.toBitVec).mp ?_
    · rw [length_flatMap_lsbFirst, length_flatMap_lsbFirst, hlength']
    · rw [← crc16_eq_feed, ← crc16_eq_feed, ha, hb]
  rcases h with ⟨i, hwindow⟩ | hodd
  · exact Crc.feed_window msb_poly16 (true_mem_errors hlength' hne) hwindow hzero
  · exact Crc.feed_odd parity_poly16 hodd hzero

theorem checkCrc16_eq_false_of_errors_digit :
    checkCrc16 [0x31, 0x32, 0x33, 0x34, 0x35, 0x36, 0x37, 0x38, 0x38] 0xC2 0x44 0 = false :=
  checkCrc16_eq_false_of_errors (by rfl)
    (show checkCrc16 [0x31, 0x32, 0x33, 0x34, 0x35, 0x36, 0x37, 0x38, 0x39] 0xC2 0x44 0 = true by decide +kernel) (by decide)
    (Or.inr (by decide +kernel))

end EspClock.OneWire
