import Mathlib.Data.List.Basic
import Mathlib.Tactic.Linarith

/-!
# Numbers of a fixed width in bytes

A number as `w` bytes, the lowest one first, and the number that bytes stand for. A signed number is stored as its residue.
-/

namespace Octets

def little : Nat → Nat → List UInt8
  | 0, _ => []
  | w + 1, n => UInt8.ofNat n :: little w (n / 256)

def value : List UInt8 → Nat
  | [] => 0
  | b :: bs => b.toNat + 256 * value bs

def residue (w : Nat) (x : Int) : Nat := (x % (256 ^ w : Nat)).toNat

def signed (w n : Nat) : Int := if 2 * n < 256 ^ w then n else n - (256 ^ w : Nat)

@[simp] theorem length_little (w n : Nat) : (little w n).length = w := by
  induction w generalizing n with
  | zero => rfl
  | succ w ih => rw [little, List.length_cons, ih]

theorem value_little {w n : Nat} (hn : n < 256 ^ w) : value (little w n) = n := by
  induction w generalizing n with
  | zero => exact (Nat.lt_one_iff.mp hn).symm
  | succ w ih =>
    have hrest := ih (n := n / 256) (Nat.div_lt_of_lt_mul (by rwa [← Nat.pow_succ']))
    rw [little, value, hrest, UInt8.toNat_ofNat']
    omega

theorem residue_lt (w : Nat) (x : Int) : residue w x < 256 ^ w := by
  have hpos : (0 : Int) < (256 ^ w : Nat) := by exact_mod_cast Nat.pow_pos (by decide)
  have hlt := Int.emod_lt_of_pos x hpos
  have hle := Int.emod_nonneg x (Int.ne_of_gt hpos)
  rw [residue]
  omega

/-- A number that the width can hold comes back. -/
theorem signed_residue {w : Nat} {x : Int} (hlow : -(256 ^ w : Nat) ≤ 2 * x) (hhigh : 2 * x < (256 ^ w : Nat)) :
    signed w (residue w x) = x := by
  rw [signed, residue]
  rcases Int.lt_or_le x 0 with hneg | hpos
  · have hmod : x % (256 ^ w : Nat) = x + (256 ^ w : Nat) := by
      rw [← Int.add_emod_right, Int.emod_eq_of_lt (by omega) (by omega)]
    rw [hmod]
    split <;> omega
  · rw [Int.emod_eq_of_lt hpos (by omega)]
    split <;> omega

end Octets
