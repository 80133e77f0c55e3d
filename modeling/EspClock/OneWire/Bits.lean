import EspClock.Lib.Bits
import EspClock.OneWire.Slots
import Mathlib.Data.Nat.Bitwise

/-!
# Bytes and bits

The loops of the driver go through the bits of a byte with a mask; the slaves take and send them one by one.
-/

namespace EspClock.OneWire

open Mem

/-- The mask of a bit. -/
def maskAt (m : Nat) : UInt8 := UInt8.ofNat (2 ^ m)

theorem toNat_maskAt {m : Nat} (hm : m < 8) : (maskAt m).toNat = 2 ^ m :=
  UInt8.toNat_ofNat_of_lt' (Nat.pow_lt_pow_right (by decide) hm)

theorem testBit_maskAt {m j : Nat} (hm : m < 8) : (maskAt m).toNat.testBit j = decide (m = j) := by
  rw [toNat_maskAt hm, Nat.testBit_two_pow]

theorem testBit_not (x : UInt8) {j : Nat} (hj : j < 8) : (~~~x).toNat.testBit j = !x.toNat.testBit j := by
  rw [← UInt8.toNat_toBitVec, ← UInt8.toNat_toBitVec, BitVec.testBit_toNat, BitVec.testBit_toNat, UInt8.toBitVec_not,
    BitVec.getLsbD_not, decide_eq_true hj, Bool.true_and]

theorem testBit_or_maskAt (x : UInt8) {m j : Nat} (hm : m < 8) :
    (x ||| maskAt m).toNat.testBit j = if m = j then true else x.toNat.testBit j := by
  rw [UInt8.toNat_or, Nat.testBit_or, testBit_maskAt hm]
  by_cases h : m = j
  · rw [if_pos h, decide_eq_true h, Bool.or_true]
  · rw [if_neg h, decide_eq_false h, Bool.or_false]

theorem testBit_and_not_maskAt (x : UInt8) {m j : Nat} (hm : m < 8) (hj : j < 8) :
    (x &&& ~~~maskAt m).toNat.testBit j = if m = j then false else x.toNat.testBit j := by
  rw [UInt8.toNat_and, Nat.testBit_and, testBit_not _ hj, testBit_maskAt hm]
  by_cases h : m = j
  · rw [if_pos h, decide_eq_true h, Bool.not_true, Bool.and_false]
  · rw [if_neg h, decide_eq_false h, Bool.not_false, Bool.and_true]

/-- The test of a bit with its mask. -/
theorem and_maskAt_ne_zero (x : UInt8) {m : Nat} (hm : m < 8) : (x &&& maskAt m != 0) = x.toNat.testBit m := by
  have hmasked : (x &&& maskAt m).toNat = (x.toNat.testBit m).toNat * 2 ^ m := by
    rw [UInt8.toNat_and, toNat_maskAt hm, Nat.and_two_pow]
  rw [Bool.eq_iff_iff, bne_iff_ne, ← UInt8.toNat_inj.ne, hmasked]
  cases x.toNat.testBit m
  · simp
  · simp

/-! ### The bits of a byte -/

/-- The bits of a byte, the least significant one first. -/
def lsbFirst (v : UInt8) : List Bool := (List.range 8).map v.toNat.testBit

theorem length_lsbFirst (v : UInt8) : (lsbFirst v).length = 8 := by rw [lsbFirst, List.length_map, List.length_range]

theorem testBit_foldr (bits : List Bool) (i : Nat) :
    (bits.foldr (fun (bit : Bool) n => bit.toNat + 2 * n) 0).testBit i = bits.getD i false := by
  induction bits generalizing i with
  | nil => exact Nat.zero_testBit i
  | cons b bits ih =>
    rw [List.foldr_cons]
    cases i with
    | zero => cases b <;> simp [Nat.testBit_zero, Nat.add_mod]
    | succ i =>
      have hhalf : (b.toNat + 2 * bits.foldr (fun (bit : Bool) n => bit.toNat + 2 * n) 0) / 2 =
          bits.foldr (fun (bit : Bool) n => bit.toNat + 2 * n) 0 := by
        have hb := Bool.toNat_lt b
        omega
      rw [Nat.testBit_succ, hhalf, ih, List.getD_cons_succ]

theorem testBit_byteOf (bits : List Bool) {i : Nat} (hi : i < 8) : (byteOf bits).toNat.testBit i = bits.getD i false := by
  rw [byteOf, UInt8.toNat_ofNat', Nat.testBit_mod_two_pow, decide_eq_true hi, Bool.true_and, testBit_foldr]

theorem getElem?_lsbFirst (v : UInt8) {i : Nat} (hi : i < 8) : (lsbFirst v)[i]? = some (v.toNat.testBit i) := by
  rw [lsbFirst, List.getElem?_map, List.getElem?_range hi]
  rfl

theorem byteOf_lsbFirst (v : UInt8) : byteOf (lsbFirst v) = v := by
  apply Bits.eq_of_testBit
  intro i hi
  rw [testBit_byteOf _ hi, List.getD_eq_getElem?_getD, getElem?_lsbFirst v hi, Option.getD_some]

theorem lsbFirst_byteOf {bits : List Bool} (h : bits.length = 8) : lsbFirst (byteOf bits) = bits := by
  apply List.ext_getElem?
  intro i
  by_cases hi : i < 8
  · have hlt : i < bits.length := by omega
    rw [getElem?_lsbFirst _ hi, testBit_byteOf _ hi, List.getD_eq_getElem?_getD, List.getElem?_eq_getElem hlt, Option.getD_some]
  · rw [List.getElem?_eq_none (by rw [length_lsbFirst]; omega), List.getElem?_eq_none (by omega)]

/-! ### The bits of a code -/

namespace Rom

@[simp] theorem length_bits (rom : Rom) : rom.bits.length = 64 := by rw [bits, List.length_map, List.length_range]

theorem getElem?_bits (rom : Rom) {i : Nat} (hi : i < 64) : rom.bits[i]? = some (rom.bit i) := by
  rw [bits, List.getElem?_map, List.getElem?_range hi]
  rfl

/-- The bits of a code are those of its bytes. -/
theorem bits_eq (rom : Rom) : rom.bits = rom.cells.flatMap lsbFirst := by
  obtain ⟨cells, hsize⟩ := rom
  match cells, hsize with
  | [c0, c1, c2, c3, c4, c5, c6, c7], _ => rfl

/-- The code with the given bits. -/
def ofBits (bits : List Bool) : Rom :=
  ⟨(List.range 8).map fun k => byteOf ((bits.drop (8 * k)).take 8), by rw [List.length_map, List.length_range]⟩

theorem ofBits_bits (rom : Rom) : ofBits rom.bits = rom := by
  obtain ⟨cells, hsize⟩ := rom
  match cells, hsize with
  | [c0, c1, c2, c3, c4, c5, c6, c7], _ =>
    have hbytes : (ofBits (bits ⟨[c0, c1, c2, c3, c4, c5, c6, c7], rfl⟩)).cells =
        [byteOf (lsbFirst c0), byteOf (lsbFirst c1), byteOf (lsbFirst c2), byteOf (lsbFirst c3), byteOf (lsbFirst c4),
          byteOf (lsbFirst c5), byteOf (lsbFirst c6), byteOf (lsbFirst c7)] := rfl
    simp only [byteOf_lsbFirst] at hbytes
    cases hofBits : ofBits (bits ⟨[c0, c1, c2, c3, c4, c5, c6, c7], rfl⟩)
    rw [hofBits] at hbytes
    cases hbytes
    rfl

theorem bits_injective {a b : Rom} (h : a.bits = b.bits) : a = b := by
  rw [← ofBits_bits a, h, ofBits_bits]

/-- The first byte is the family. -/
theorem take_bits (rom : Rom) : rom.bits.take 8 = lsbFirst (rom.get 0) := by
  obtain ⟨cells, hsize⟩ := rom
  match cells, hsize with
  | [c0, c1, c2, c3, c4, c5, c6, c7], _ => rfl

end Rom

/-! ### The code that a search fills in -/

/-- The progress at the bit `i`. -/
structure At (i : Nat) (p : Progress) : Prop where
  idBitNumber_eq : p.idBitNumber = i + 1
  romByteNumber_eq : p.romByteNumber = i / 8
  romByteMask_eq : p.romByteMask = maskAt (i % 8)

theorem At.next {i : Nat} {p : Progress} (h : At i p) : At (i + 1) p.next := by
  have hmask : ∀ m < 8, (maskAt m <<< 1 = 0 ↔ m = 7) ∧ (m ≠ 7 → maskAt m <<< 1 = maskAt (m + 1)) := by decide +kernel
  obtain ⟨hzero, hshift⟩ := hmask (i % 8) (Nat.mod_lt i (by decide))
  rw [Progress.next, h.romByteMask_eq]
  by_cases h7 : i % 8 = 7
  · rw [if_pos (hzero.mpr h7)]
    exact ⟨by rw [← h.idBitNumber_eq], by dsimp only; rw [h.romByteNumber_eq]; omega,
      by rw [show (i + 1) % 8 = 0 by omega]; rfl⟩
  · rw [if_neg fun hz => h7 (hzero.mp hz)]
    exact ⟨by rw [← h.idBitNumber_eq], by dsimp only; rw [h.romByteNumber_eq]; omega,
      by dsimp only; rw [hshift h7]; congr 1; omega⟩

@[simp] theorem lastZero_next (p : Progress) : p.next.lastZero = p.lastZero := by
  rw [Progress.next]
  split <;> rfl

theorem bit_eq_of_at {i : Nat} {p : Progress} (h : At i p) (s : SearchState) :
    (s.romNo.get p.romByteNumber &&& p.romByteMask != 0) = s.romNo.bit i := by
  rw [h.romByteNumber_eq, h.romByteMask_eq, and_maskAt_ne_zero _ (Nat.mod_lt i (by decide)), Rom.bit]

theorem bit_storeBit {i j : Nat} {p : Progress} (h : At i p) (hi : i < 64) (s : SearchState) (direction : Bool) :
    (storeBit s p direction).romNo.bit j = if i = j then direction else s.romNo.bit j := by
  have hm : i % 8 < 8 := Nat.mod_lt i (by decide)
  have hj : j % 8 < 8 := Nat.mod_lt j (by decide)
  rw [storeBit]
  dsimp only
  rw [h.romByteNumber_eq, h.romByteMask_eq, Rom.bit, Rom.bit]
  by_cases hbyte : i / 8 = j / 8
  · have hsame : i % 8 = j % 8 ↔ i = j := ⟨fun hmod => by omega, fun heq => by omega⟩
    rw [← hbyte, Block.get_set _ _ (by omega)]
    cases direction
    · rw [if_neg Bool.false_ne_true, testBit_and_not_maskAt _ hm hj, ite_congr (propext hsame) (fun _ => rfl) fun _ => rfl]
    · rw [if_pos rfl, testBit_or_maskAt _ hm, ite_congr (propext hsame) (fun _ => rfl) fun _ => rfl]
  · rw [Block.get_set_ne _ _ hbyte, if_neg (show ¬ i = j by omega)]

/-- A stored direction is the bit behind the path so far, and leaves the others alone. -/
theorem bits_storeBit {p : Progress} {path old : List Bool} {b : Bool} (h : At path.length p) (s : SearchState)
    (hbits : s.romNo.bits = path ++ b :: old) (direction : Bool) :
    (storeBit s p direction).romNo.bits = (path ++ [direction]) ++ old := by
  have hlength : path.length + (old.length + 1) = 64 := by
    rw [← List.length_cons (a := b), ← List.length_append, ← hbits, Rom.length_bits]
  have hset : (path ++ [direction]) ++ old = s.romNo.bits.set path.length direction := by
    rw [hbits, List.set_append_right (h := Nat.le_refl _), Nat.sub_self, List.append_assoc]
    rfl
  rw [hset]
  apply List.ext_getElem?
  intro j
  by_cases hj : j < 64
  · rw [Rom.getElem?_bits _ hj, bit_storeBit h (by omega), List.getElem?_set]
    split
    · rw [if_pos (by rw [Rom.length_bits]; omega)]
    · rw [Rom.getElem?_bits _ hj]
  · rw [List.getElem?_eq_none (by rw [Rom.length_bits]; omega),
      List.getElem?_eq_none (by rw [List.length_set, Rom.length_bits]; omega)]

end EspClock.OneWire
