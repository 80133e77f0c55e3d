import EspClock.Lua.Lexer

/-!
# Calls of the module `file` as Lua statements

The statements that are nothing but a call of a function of the module `file` with strings, as the parser of `lparser.c`
reads them.
-/

namespace EspClock.Lua

open Decimal

/-- A certain token, as `checknext` takes it. -/
def checknext (token : Token) (s : List UInt8) : Option (List UInt8) :=
  match next s with
  | some (t, rest) => if t = token then some rest else none
  | none => none

/-- A list of strings up to the closing parenthesis. -/
def explist : Nat → List UInt8 → Option (List (List UInt8) × List UInt8)
  | 0, _ => none
  | fuel + 1, s =>
    match next s with
    | some (.string a, s) =>
      match next s with
      | some (.symbol c, s) =>
        if c = ascii "," then (explist fuel s).map fun (args, rest) => (a :: args, rest)
        else if c = ascii ")" then some ([a], s)
        else none
      | _ => none
    | _ => none

def funcargs (s : List UInt8) : Option (List (List UInt8) × List UInt8) :=
  match checknext (.symbol (ascii ")")) s with
  | some rest => some ([], rest)
  | none => explist (s.length + 1) s

/-- A statement may have a semicolon behind it. -/
def atEnd (s : List UInt8) : Bool :=
  next s = some (.eos, []) ∨ ((checknext (.symbol (ascii ";")) s).bind next) = some (.eos, [])

/-- A chunk of one line that does nothing but call a function of the module `file` with strings: the function and the
strings. A string with a zero is left out, since the functions in C read it up to there only. -/
def fileCall? (s : List UInt8) : Option (List UInt8 × List (List UInt8)) :=
  if s.any isNewline then none
  else
    (checknext (.name (ascii "file")) s).bind fun s =>
      (checknext (.symbol (ascii ".")) s).bind fun s =>
        match next s with
        | some (.name f, s) =>
          (checknext (.symbol (ascii "(")) s).bind fun s =>
            (funcargs s).bind fun (args, s) =>
              if atEnd s ∧ ∀ a ∈ args, 0 ∉ a then some (f, args) else none
        | _ => none

/-! ### Arguments -/

section Arguments

variable {s s' rest a : List UInt8} {args : List (List UInt8)} {fuel : Nat}

theorem next_quote (s : List UInt8) : next (34 :: s) = (readString 34 (s.length + 1) s).map fun (text, rest) =>
    (.string text, rest) := rfl

theorem funcargs_of_string (h : next s = some (.string a, s')) : funcargs s = explist (s.length + 1) s := by
  have hother : Token.string a ≠ .symbol (ascii ")") := by simp
  rw [funcargs, checknext, h]
  dsimp only
  rw [if_neg hother]

theorem explist_last (h : next s = some (.string a, s')) (hclose : next s' = some (.symbol (ascii ")"), rest)) :
    explist (fuel + 1) s = some ([a], rest) := by
  rw [explist, h]
  dsimp only
  rw [hclose]
  rfl

theorem explist_cons {s'' : List UInt8} (h : next s = some (.string a, s')) (hcomma : next s' = some (.symbol (ascii ","), s'')) :
    explist (fuel + 1) s = (explist fuel s'').map fun (args, rest) => (a :: args, rest) := by
  rw [explist, h]
  dsimp only
  rw [hcomma]
  rfl

/-- The first of the arguments is the string at the head. -/
theorem explist_head (h : explist fuel s = some (args, rest)) :
    ∃ a s' more, next s = some (.string a, s') ∧ args = a :: more := by
  cases fuel with
  | zero => exact absurd h (by simp [explist])
  | succ fuel =>
    rw [explist] at h
    split at h
    · next a s' hnext =>
      split at h
      · split_ifs at h
        · obtain ⟨⟨more, _⟩, -, heq⟩ := Option.map_eq_some_iff.mp h
          exact ⟨a, s', more, hnext, (Prod.mk.inj heq).1.symm⟩
        · exact ⟨a, s', [], hnext, (Prod.mk.inj (Option.some.inj h)).1.symm⟩
      · exact absurd h (by simp)
    · exact absurd h (by simp)

theorem funcargs_head (hstring : next s = some (.string a, s')) (h : funcargs s = some (args, rest)) :
    ∃ more, args = a :: more := by
  rw [funcargs_of_string hstring] at h
  obtain ⟨a', s'', more, hnext, rfl⟩ := explist_head h
  rw [hstring] at hnext
  obtain ⟨hsame, -⟩ := Prod.mk.inj (Option.some.inj hnext)
  exact ⟨more, by rw [Token.string.inj hsame]⟩

theorem funcargs_of_none (h : next s = none) : funcargs s = none := by
  rw [funcargs, checknext, h]
  dsimp only
  rw [explist, h]

end Arguments

/-- A call is read up to its arguments, whatever they are. -/
theorem fileCall?_eq {f : List UInt8} (hf : f ∈ ["open", "close", "remove", "flush", "writeline"].map ascii) (s : List UInt8) :
    fileCall? (ascii "file." ++ (f ++ 40 :: s)) =
      if s.any isNewline then none
      else (funcargs s).bind fun (args, s) => if atEnd s ∧ ∀ a ∈ args, 0 ∉ a then some (f, args) else none := by
  simp only [List.map_cons, List.map_nil, List.mem_cons, List.not_mem_nil, or_false] at hf
  obtain rfl | rfl | rfl | rfl | rfl := hf
  · rfl
  · rfl
  · rfl
  · rfl
  · rfl

/-- A call that is read has the name that stands there, and its arguments have no zeros. -/
theorem fileCall?_inv {f g : List UInt8} {args : List (List UInt8)}
    (hf : f ∈ ["open", "close", "remove", "flush", "writeline"].map ascii) {s : List UInt8}
    (h : fileCall? (ascii "file." ++ (f ++ 40 :: s)) = some (g, args)) :
    g = f ∧ (∃ rest, funcargs s = some (args, rest)) ∧ (∀ a ∈ args, 0 ∉ a) ∧ s.any isNewline = false := by
  rw [fileCall?_eq hf] at h
  split_ifs at h with hnewline
  obtain ⟨⟨args', rest⟩, hargs, hcall⟩ := Option.bind_eq_some_iff.mp h
  dsimp only at hcall
  split_ifs at hcall with hplain
  obtain ⟨rfl, rfl⟩ := Prod.mk.inj (Option.some.inj hcall)
  exact ⟨rfl, ⟨rest, hargs⟩, hplain.2, Bool.eq_false_iff.mpr hnewline⟩

theorem fileCall?_of_funcargs {f : List UInt8} {args : List (List UInt8)}
    (hf : f ∈ ["open", "close", "remove", "flush", "writeline"].map ascii) {s : List UInt8} (rest : List UInt8)
    (hnewline : s.any isNewline = false) (hargs : funcargs s = some (args, rest)) (hend : atEnd rest = true)
    (hzero : ∀ a ∈ args, 0 ∉ a) : fileCall? (ascii "file." ++ (f ++ 40 :: s)) = some (f, args) := by
  rw [fileCall?_eq hf, if_neg (Bool.eq_false_iff.mp hnewline), hargs, Option.bind_some]
  dsimp only
  rw [if_pos ⟨hend, hzero⟩]

end EspClock.Lua
