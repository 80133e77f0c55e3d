import EspClock.Lib.Decimal
import Mathlib.Data.List.TakeWhile
import Mathlib.Data.Rat.Defs

/-!
# Numbers from strings

`tonumber` of Lua as `lobject.c` and `c_stdlib.c` have it: a numeral for `c_strtod`, with a second try as a hexadecimal
one, white space around it and nothing else. Of the digits of a mantissa the first 18 count, with those in front of the
point. A number is the value before it is rounded to a double.
-/

namespace EspClock.Script

open Decimal

def isSpace (c : UInt8) : Bool := decide (9 ≤ c ∧ c ≤ 13 ∨ c = 32)

/-- Whether a number is negative, and what is behind its sign. -/
def readSign : List UInt8 → Bool × List UInt8
  | [] => (false, [])
  | c :: s => if c = 45 then (true, s) else if c = 43 then (false, s) else (false, c :: s)

def applySign (negative : Bool) (x : ℚ) : ℚ := if negative then -x else x

/-- `maxExponent` of `c_strtod`. -/
def maxExponent : Nat := 511

/-- The fraction times a power of ten, the exponent of which is cut at `maxExponent`. -/
def scale (fraction : Nat) : Int → ℚ
  | .ofNat exp => fraction * 10 ^ min exp maxExponent
  | .negSucc exp => fraction / 10 ^ min (exp + 1) maxExponent

/-- The digits behind a decimal point, and what is behind them. -/
def readFraction : List UInt8 → List UInt8 × List UInt8
  | [] => ([], [])
  | c :: s => if c = 46 then (s.takeWhile (decide <| IsDigit ·), s.dropWhile (decide <| IsDigit ·)) else ([], c :: s)

/-- The exponent, and what is behind it. An `E` without digits is not part of the number. -/
def readExponent : List UInt8 → Int × List UInt8
  | [] => (0, [])
  | c :: s =>
    if c = 69 ∨ c = 101 then
      let (negative, t) := readSign s
      let digits := t.takeWhile (decide <| IsDigit ·)
      if digits = [] then (0, c :: s)
      else (if negative then -(value digits : Int) else value digits, t.dropWhile (decide <| IsDigit ·))
    else (0, c :: s)

/-- `c_strtod`: the number at the head of a string, if there is one, and what is behind it. -/
def strtod (s : List UInt8) : Option (ℚ × List UInt8) :=
  let (negative, t) := readSign (s.dropWhile isSpace)
  let whole := t.takeWhile (decide <| IsDigit ·)
  let (fraction, t) := readFraction (t.dropWhile (decide <| IsDigit ·))
  let digits := whole ++ fraction
  if digits = [] then none
  else
    let (exp, t) := readExponent t
    let fracExp : Int := whole.length - (min digits.length 18 : Nat)
    some (applySign negative (scale (value (digits.take 18)) (fracExp + exp)), t)

def hexDigit? (c : UInt8) : Option Nat :=
  if 48 ≤ c ∧ c ≤ 57 then some (c.toNat - 48)
  else if 65 ≤ c ∧ c ≤ 70 then some (c.toNat - 55)
  else if 97 ≤ c ∧ c ≤ 102 then some (c.toNat - 87)
  else none

/-- The hexadecimal digits behind a `0x`, which may be left out. -/
def skipHexPrefix : List UInt8 → List UInt8
  | 48 :: c :: s => if c = 120 ∨ c = 88 then s else 48 :: c :: s
  | s => s

/-- `strtoul` with base 16: too large a number is the largest one, and a negative one wraps around. -/
def strtoul16 (s : List UInt8) : Nat × List UInt8 :=
  let (negative, t) := readSign (s.dropWhile isSpace)
  let t := skipHexPrefix t
  let digits := t.takeWhile (hexDigit? · |>.isSome)
  if digits = [] then (0, s)
  else
    let n := (digits.filterMap hexDigit?).foldl (fun n d => 16 * n + d) 0
    let rest := t.dropWhile (hexDigit? · |>.isSome)
    if 2 ^ 32 ≤ n then (2 ^ 32 - 1, rest) else if negative then ((2 ^ 32 - n) % 2 ^ 32, rest) else (n, rest)

/-- `luaO_str2d` on a string that ends at its first zero byte. -/
def str2d (s : List UInt8) : Option ℚ :=
  let s := s.takeWhile (· ≠ 0)
  match strtod s with
  | none => none
  | some (x, rest) =>
    let (x, rest) : ℚ × List UInt8 :=
      if rest.head? = some 120 ∨ rest.head? = some 88 then ((strtoul16 s).1, (strtoul16 s).2) else (x, rest)
    if rest.dropWhile isSpace = [] then some x else none

/-- `tonumber` on a string. -/
def tonumber (s : List UInt8) : Option ℚ := str2d s

/-! ### Decimal numerals -/

theorem not_isSpace_of_isDigit {c : UInt8} (h : IsDigit c) : isSpace c = false := by
  have hlow := h.1
  refine decide_eq_false ?_
  rintro (⟨-, hle⟩ | rfl)
  · have hhigh : c.toNat ≤ 13 := UInt8.le_iff_toNat_le.mp hle
    omega
  · exact absurd hlow (by decide)

theorem readSign_of_isDigit {c : UInt8} (h : IsDigit c) (s : List UInt8) : readSign (c :: s) = (false, c :: s) := by
  have hminus : c ≠ 45 := by rintro rfl; exact absurd h (by decide)
  have hplus : c ≠ 43 := by rintro rfl; exact absurd h (by decide)
  rw [readSign, if_neg hminus, if_neg hplus]

/-- What `c_strtod` makes of a string of digits. -/
def readValue (digits : List UInt8) : Nat := value (digits.take 18) * 10 ^ min (digits.length - 18) maxExponent

theorem takeWhile_digits {digits rest : List UInt8} (hdigits : ∀ c ∈ digits, IsDigit c) (hrest : ∀ c ∈ rest.head?, ¬ IsDigit c) :
    (digits ++ rest).takeWhile (decide <| IsDigit ·) = digits ∧ (digits ++ rest).dropWhile (decide <| IsDigit ·) = rest := by
  have hall : ∀ c ∈ digits, decide (IsDigit c) = true := fun c hc => decide_eq_true (hdigits c hc)
  rw [List.takeWhile_append_of_pos hall, List.dropWhile_append_of_pos hall]
  cases rest with
  | nil => exact ⟨List.append_nil digits, rfl⟩
  | cons c rest =>
    have hc : ¬ decide (IsDigit c) = true := fun h => hrest c rfl (of_decide_eq_true h)
    rw [List.takeWhile_cons_of_neg (by exact hc), List.dropWhile_cons_of_neg (by exact hc), List.append_nil]
    exact ⟨rfl, rfl⟩

/-- A byte that may follow a decimal numeral without being part of it. -/
theorem ends_of_isSpace {c : UInt8} (h : isSpace c = true) :
    ¬ IsDigit c ∧ c ≠ 46 ∧ c ≠ 69 ∧ c ≠ 101 ∧ c ≠ 120 ∧ c ≠ 88 := by
  refine ⟨fun hdigit => ?_, ?_, ?_, ?_, ?_, ?_⟩
  · rw [not_isSpace_of_isDigit hdigit] at h
    exact Bool.false_ne_true h
  all_goals
    rintro rfl
    exact absurd h (by decide)

theorem strtod_digits {digits rest : List UInt8} (hdigits : ∀ c ∈ digits, IsDigit c) (hne : digits ≠ [])
    (hrest : ∀ c ∈ rest, isSpace c = true) : strtod (digits ++ rest) = some ((readValue digits : ℚ), rest) := by
  have hhead : (digits ++ rest).dropWhile isSpace = digits ++ rest ∧ readSign (digits ++ rest) = (false, digits ++ rest) := by
    cases digits with
    | nil => exact absurd rfl hne
    | cons c s =>
      have hc := hdigits c List.mem_cons_self
      exact ⟨List.dropWhile_cons_of_neg (by rw [not_isSpace_of_isDigit hc]; decide), readSign_of_isDigit hc _⟩
  have hfirst : ∀ c ∈ rest.head?, isSpace c = true := fun c hc => hrest c (List.mem_of_mem_head? hc)
  obtain ⟨htake, hdrop⟩ := takeWhile_digits hdigits fun c hc => (ends_of_isSpace (hfirst c hc)).1
  have htail : readFraction rest = ([], rest) ∧ readExponent rest = (0, rest) := by
    cases rest with
    | nil => exact ⟨rfl, rfl⟩
    | cons c s =>
      obtain ⟨-, hpoint, hupper, hlower, -⟩ := ends_of_isSpace (hfirst c rfl)
      exact ⟨if_neg hpoint, if_neg (not_or.mpr ⟨hupper, hlower⟩)⟩
  have hexp : ((digits.length : Int) - (min digits.length 18 : Nat) + 0) = ((digits.length - 18 : Nat) : Int) := by omega
  rw [strtod, hhead.1, hhead.2]
  dsimp only
  rw [htake, hdrop, htail.1]
  dsimp only
  rw [List.append_nil, if_neg hne, htail.2]
  dsimp only
  rw [hexp, applySign, if_neg Bool.false_ne_true]
  simp [scale, readValue]

/-- A string of decimal digits, with white space behind them, is read as its first 18 digits with zeros for the others. -/
theorem tonumber_digits {digits rest : List UInt8} (hdigits : ∀ c ∈ digits, IsDigit c) (hne : digits ≠ [])
    (hrest : ∀ c ∈ rest, isSpace c = true) : tonumber (digits ++ rest) = some (readValue digits : ℚ) := by
  have hzero : (digits ++ rest).takeWhile (· ≠ 0) = digits ++ rest := by
    refine List.takeWhile_eq_self_iff.mpr fun c hc => decide_eq_true ?_
    rintro rfl
    obtain hc | hc := List.mem_append.mp hc
    · exact absurd (hdigits 0 hc) (by decide)
    · exact absurd (hrest 0 hc) (by decide)
  have hhex : ¬ (rest.head? = some 120 ∨ rest.head? = some 88) := by
    rintro (hx | hx)
    · exact absurd (hrest 120 (List.mem_of_mem_head? hx)) (by decide)
    · exact absurd (hrest 88 (List.mem_of_mem_head? hx)) (by decide)
  rw [tonumber, str2d]
  dsimp only
  rw [hzero, strtod_digits hdigits hne hrest]
  dsimp only
  rw [if_neg hhex, if_pos (List.dropWhile_eq_nil_iff.mpr hrest)]

theorem tonumber_all_digits {digits : List UInt8} (hdigits : ∀ c ∈ digits, IsDigit c) (hne : digits ≠ []) :
    tonumber digits = some (readValue digits : ℚ) := by
  have hread : tonumber (digits ++ []) = _ := tonumber_digits hdigits hne fun c hc => absurd hc List.not_mem_nil
  rwa [List.append_nil] at hread

/-! ### Digits that count -/

theorem value_eq_take (digits : List UInt8) :
    value digits = value (digits.take 18) * 10 ^ (digits.length - 18) + value (digits.drop 18) := by
  conv_lhs => rw [← List.take_append_drop 18 digits, value_append, List.length_drop]

theorem readValue_le (digits : List UInt8) : readValue digits ≤ value digits := by
  rw [value_eq_take, readValue]
  exact (Nat.mul_le_mul_left _ (Nat.pow_le_pow_right (by decide) (min_le_left _ _))).trans (Nat.le_add_right _ _)

/-- A numeral is read right if and only if all digits behind the 18th are zeros, and there are not more of them than the
exponent may count. -/
theorem readValue_eq_iff {digits : List UInt8} (hdigits : ∀ c ∈ digits, IsDigit c) :
    readValue digits = value digits ↔
      (∀ c ∈ digits.drop 18, c = 48) ∧ (digits.length ≤ 18 + maxExponent ∨ value digits = 0) := by
  rw [← value_eq_zero_iff fun c hc => hdigits c (List.mem_of_mem_drop hc)]
  have hvalue := value_eq_take digits
  have hle : value (digits.take 18) * 10 ^ min (digits.length - 18) maxExponent ≤
      value (digits.take 18) * 10 ^ (digits.length - 18) :=
    Nat.mul_le_mul_left _ (Nat.pow_le_pow_right (by decide) (min_le_left _ _))
  rw [readValue]
  constructor
  · intro heq
    have hrest : value (digits.drop 18) = 0 := by omega
    refine ⟨hrest, ?_⟩
    by_cases hzero : value (digits.take 18) = 0
    · rw [hvalue, hzero, hrest, Nat.zero_mul]
      exact Or.inr rfl
    · have hpower : 10 ^ min (digits.length - 18) maxExponent = 10 ^ (digits.length - 18) :=
        Nat.eq_of_mul_eq_mul_left (Nat.pos_of_ne_zero hzero) (by omega)
      have hmin := Nat.pow_right_injective (show 2 ≤ 10 by decide) hpower
      exact Or.inl (by omega)
  · rintro ⟨hrest, hfew | hzero⟩
    · rw [hvalue, hrest, min_eq_left (by omega), Nat.add_zero]
    · have hpower : 0 < 10 ^ (digits.length - 18) := Nat.pow_pos (by decide)
      have hhead : value (digits.take 18) = 0 := by
        rw [hzero] at hvalue
        exact (Nat.mul_eq_zero.mp (Nat.add_eq_zero_iff.mp hvalue.symm).1).resolve_right hpower.ne'
      rw [hhead, hzero, Nat.zero_mul]

theorem readValue_short {digits : List UInt8} (hshort : digits.length ≤ 18) : readValue digits = value digits := by
  rw [readValue, List.take_of_length_le hshort, Nat.sub_eq_zero_of_le hshort, Nat.zero_min, pow_zero, mul_one]

end EspClock.Script
