import Mathlib.Data.List.Basic

/-!
# Bytes as streams of bits

The bits of a byte, the most significant one first, and the bytes of a stream of bits.
-/

namespace Bits

def ofByte (b : UInt8) : List Bool := (List.range 8).map fun k => b.toNat.testBit (7 - k)

def toByte (bits : List Bool) : UInt8 := UInt8.ofNat (bits.foldl (fun n bit => 2 * n + bit.toNat) 0)

/-- The bytes of a stream of bits; bits that make no whole byte are left over. -/
def pack : List Bool → List UInt8
  | b7 :: b6 :: b5 :: b4 :: b3 :: b2 :: b1 :: b0 :: rest => toByte [b7, b6, b5, b4, b3, b2, b1, b0] :: pack rest
  | _ => []

@[simp] theorem length_ofByte (b : UInt8) : (ofByte b).length = 8 := by simp [ofByte]

theorem length_flatMap_ofByte (bytes : List UInt8) : (bytes.flatMap ofByte).length = 8 * bytes.length := by
  simp [List.length_flatMap, Nat.mul_comm]

theorem toByte_ofByte (b : UInt8) : toByte (ofByte b) = b := by
  have hbytes : ∀ n : Fin 256, toByte (ofByte (UInt8.ofNat n)) = UInt8.ofNat n := by decide +kernel
  have hbyte := hbytes ⟨b.toNat, b.toNat_lt⟩
  simpa using hbyte

theorem pack_ofByte_append (b : UInt8) (bits : List Bool) : pack (ofByte b ++ bits) = b :: pack bits :=
  congrArg (fun c => c :: pack bits) (toByte_ofByte b)

theorem pack_flatMap_ofByte (bytes : List UInt8) : pack (bytes.flatMap ofByte) = bytes := by
  induction bytes with
  | nil => simp [pack]
  | cons b bytes ih => rw [List.flatMap_cons, pack_ofByte_append, ih]

/-- Bytes with the same bits are the same. -/
theorem eq_of_testBit {u v : UInt8} (h : ∀ i < 8, u.toNat.testBit i = v.toNat.testBit i) : u = v := by
  rw [← UInt8.toBitVec_inj]
  apply BitVec.eq_of_getLsbD_eq
  intro i hi
  have hbit := h i hi
  rwa [← UInt8.toNat_toBitVec, ← UInt8.toNat_toBitVec, BitVec.testBit_toNat, BitVec.testBit_toNat] at hbit

end Bits
