import Mathlib.Data.List.Basic
import Mathlib.Tactic.Linarith
import Mathlib.Tactic.Ring

/-!
# Decimal numerals as byte strings

Printing a natural number with ASCII digits, the value a digit string stands for, and that the
second undoes the first.
-/

namespace Decimal

/-- The bytes of an ASCII string. -/
def ascii (s : String) : List UInt8 := s.toList.map fun c => UInt8.ofNat c.toNat

def IsDigit (c : UInt8) : Prop := 48 ≤ c.toNat ∧ c.toNat ≤ 57

instance : DecidablePred IsDigit := fun c => inferInstanceAs (Decidable (48 ≤ c.toNat ∧ c.toNat ≤ 57))

def digitValue (c : UInt8) : Nat := c.toNat - 48

/-- The value of a digit string read after the digits of `acc`. -/
def valueFrom (acc : Nat) : List UInt8 → Nat
  | [] => acc
  | c :: cs => valueFrom (acc * 10 + digitValue c) cs

def value (digits : List UInt8) : Nat := valueFrom 0 digits

theorem valueFrom_append (acc : Nat) (xs ys : List UInt8) :
    valueFrom acc (xs ++ ys) = valueFrom (valueFrom acc xs) ys := by
  induction xs generalizing acc with
  | nil => rfl
  | cons c cs ih => exact ih _

theorem le_valueFrom (acc : Nat) (digits : List UInt8) : acc ≤ valueFrom acc digits := by
  induction digits generalizing acc with
  | nil => exact le_rfl
  | cons c cs ih => exact le_trans (by omega) (ih _)

theorem valueFrom_eq (acc : Nat) (digits : List UInt8) : valueFrom acc digits = acc * 10 ^ digits.length + value digits := by
  induction digits generalizing acc with
  | nil =>
    rw [List.length_nil, pow_zero, mul_one]
    rfl
  | cons c cs ih =>
    have hvalue : value (c :: cs) = (0 * 10 + digitValue c) * 10 ^ cs.length + value cs := ih _
    refine (ih _).trans ?_
    rw [hvalue, List.length_cons, pow_succ]
    ring

theorem value_cons (c : UInt8) (cs : List UInt8) : value (c :: cs) = digitValue c * 10 ^ cs.length + value cs := by
  refine (valueFrom_eq _ cs).trans ?_
  rw [Nat.zero_mul, Nat.zero_add]

theorem value_append (xs ys : List UInt8) : value (xs ++ ys) = value xs * 10 ^ ys.length + value ys := by
  rw [value, valueFrom_append, valueFrom_eq, ← value]

theorem value_eq_zero_iff {digits : List UInt8} (hdigits : ∀ c ∈ digits, IsDigit c) :
    value digits = 0 ↔ ∀ c ∈ digits, c = 48 := by
  induction digits with
  | nil => exact iff_of_true rfl fun _ hc => absurd hc List.not_mem_nil
  | cons c cs ih =>
    obtain ⟨hc, hcs⟩ := List.forall_mem_cons.mp hdigits
    have hzero : digitValue c = 0 ↔ c = 48 := by
      rw [digitValue, ← UInt8.toNat_inj]
      show c.toNat - 48 = 0 ↔ c.toNat = 48
      have hlow := hc.1
      omega
    have hpower : 0 < 10 ^ cs.length := Nat.pow_pos (by decide)
    rw [List.forall_mem_cons, ← ih hcs, ← hzero, value_cons, Nat.add_eq_zero_iff, Nat.mul_eq_zero, or_iff_left hpower.ne']

/-- A byte that is no digit is not found among digits. -/
theorem findIdx?_of_digits {digits : List UInt8} (hdigits : ∀ c ∈ digits, IsDigit c) {x : UInt8}
    (hx : ¬ IsDigit x) : digits.findIdx? (· = x) = none := by
  rw [List.findIdx?_eq_none_iff]
  intro c hc
  have hne : c ≠ x := fun h => hx (h ▸ hdigits c hc)
  simpa using hne

/-- The first byte behind digits that is no digit itself. -/
theorem findIdx?_behind_digits {digits : List UInt8} (hdigits : ∀ c ∈ digits, IsDigit c) {x : UInt8}
    (hx : ¬ IsDigit x) (rest : List UInt8) : (digits ++ x :: rest).findIdx? (· = x) = some digits.length := by
  rw [List.findIdx?_append, findIdx?_of_digits hdigits hx, Option.none_or, List.findIdx?_cons]
  simp

/-- The digit of a number below ten. -/
def digit (d : Nat) : UInt8 := UInt8.ofNat (48 + d)

theorem digit_toNat {d : Nat} (hd : d < 10) : (digit d).toNat = 48 + d := by
  simp only [digit, UInt8.toNat_ofNat']
  omega

theorem isDigit_digit {d : Nat} (hd : d < 10) : IsDigit (digit d) := by
  rw [IsDigit, digit_toNat hd]
  omega

theorem valueFrom_digit (acc : Nat) {d : Nat} (hd : d < 10) :
    valueFrom acc [digit d] = acc * 10 + d := by
  change acc * 10 + ((digit d).toNat - 48) = acc * 10 + d
  rw [digit_toNat hd, Nat.add_sub_cancel_left]

def printWith : Nat → Nat → List UInt8
  | 0, n => [digit (n % 10)]
  | fuel + 1, n => if n < 10 then [digit n] else printWith fuel (n / 10) ++ [digit (n % 10)]

/-- The numeral `%d` prints for a natural number. -/
def print (n : Nat) : List UInt8 := printWith n n

private theorem printWith_spec (fuel n : Nat) (h : n ≤ fuel) :
    value (printWith fuel n) = n ∧ ∀ c ∈ printWith fuel n, IsDigit c := by
  induction fuel generalizing n with
  | zero =>
    obtain rfl : n = 0 := by omega
    refine ⟨rfl, fun c hc => ?_⟩
    rw [List.mem_singleton.mp hc]
    exact isDigit_digit (by decide)
  | succ fuel ih =>
    by_cases hn : n < 10
    · rw [printWith, if_pos hn]
      refine ⟨?_, fun c hc => ?_⟩
      · rw [value, valueFrom_digit 0 hn]
        omega
      · rw [List.mem_singleton.mp hc]
        exact isDigit_digit hn
    · have hmod : n % 10 < 10 := Nat.mod_lt n (by norm_num)
      obtain ⟨hvalue, hdigits⟩ := ih (n / 10) (by omega)
      rw [printWith, if_neg hn]
      refine ⟨?_, fun c hc => ?_⟩
      · rw [value, valueFrom_append, ← value, hvalue, valueFrom_digit _ hmod]
        omega
      · rcases List.mem_append.mp hc with hc | hc
        · exact hdigits c hc
        · rw [List.mem_singleton.mp hc]
          exact isDigit_digit hmod

@[simp] theorem value_print (n : Nat) : value (print n) = n := (printWith_spec n n le_rfl).1

theorem isDigit_of_mem_print {n : Nat} {c : UInt8} (hc : c ∈ print n) : IsDigit c :=
  (printWith_spec n n le_rfl).2 c hc

theorem print_ne_nil (n : Nat) : print n ≠ [] := by
  unfold print
  cases n with
  | zero => exact List.cons_ne_nil _ _
  | succ n =>
    rw [printWith]
    split
    · exact List.cons_ne_nil _ _
    · exact List.append_ne_nil_of_right_ne_nil _ (List.cons_ne_nil _ _)

theorem length_print_le_two {n : Nat} (hn : n < 100) : (print n).length ≤ 2 := by
  rcases n with _ | n
  · exact Nat.le_succ 1
  · rw [print, printWith]
    split
    · exact Nat.le_succ 1
    · rw [List.length_append, List.length_singleton]
      have hq : (n + 1) / 10 < 10 := by omega
      have hone : (printWith n ((n + 1) / 10)).length = 1 := by
        cases n with
        | zero => rfl
        | succ n => rw [printWith, if_pos hq]; rfl
      omega

end Decimal
