import EspClock.Lib.Decimal
import EspClock.Lib.Pattern

/-!
# The Lua reader

The lexer of `llex.c` on the bytes of a chunk. A long string ends at the first place of its closing bracket, whatever it
was meant to hold; a quoted string ends at the first delimiter that is not behind a backslash. Numerals are not read.
-/

namespace EspClock.Lua

open Decimal Pattern

inductive Token where
  | name (s : List UInt8)
  | string (s : List UInt8)
  | symbol (s : List UInt8)
  | eos
  deriving DecidableEq

/-! ### Characters -/

def isNewline (c : UInt8) : Bool := c = 10 ∨ c = 13

def isSpace (c : UInt8) : Bool := c = 32 ∨ 9 ≤ c ∧ c ≤ 13

def isAlpha (c : UInt8) : Bool := 65 ≤ c ∧ c ≤ 90 ∨ 97 ≤ c ∧ c ≤ 122

/-- What goes on an identifier. -/
def isNameChar (c : UInt8) : Bool := isAlpha c ∨ IsDigit c ∨ c = 95

/-- `inclinenumber`: a newline takes the other newline character behind it along. -/
def inclinenumber (old : UInt8) : List UInt8 → List UInt8
  | [] => []
  | c :: s => if isNewline c ∧ c ≠ old then s else c :: s

/-- A newline at the head is skipped. -/
def skipNewline : List UInt8 → List UInt8
  | [] => []
  | c :: s => if isNewline c then inclinenumber c s else c :: s

/-! ### Long strings -/

/-- `skip_sep` at a bracket: the level or the sign of its absence, the bytes that are saved, and the bytes behind them. -/
def skipSep (bracket : UInt8) (s : List UInt8) : Int × List UInt8 × List UInt8 :=
  let equals := s.takeWhile (· = 61)
  let rest := s.dropWhile (· = 61)
  (if rest.head? = some bracket then (equals.length : Int) else -equals.length - 1, bracket :: equals, rest)

/-- The loop of `read_long_string`. -/
def longLoop (sep : Int) : Nat → List UInt8 → List UInt8 → Option (List UInt8 × List UInt8)
  | 0, _, _ => none
  | _ + 1, _, [] => none
  | fuel + 1, buffer, c :: s =>
    if c = 91 then
      match skipSep c s with
      | (count, saved, rest) =>
        if count = sep then
          -- `LUA_COMPAT_LSTR` is 1: a bracket of level 0 within one of level 0 is an error
          if sep = 0 then none else longLoop sep fuel (buffer ++ saved ++ rest.take 1) rest.tail
        else longLoop sep fuel (buffer ++ saved) rest
    else if c = 93 then
      match skipSep c s with
      | (count, saved, rest) =>
        if count = sep then some (buffer ++ saved ++ rest.take 1, rest.tail)
        else longLoop sep fuel (buffer ++ saved) rest
    else if isNewline c then longLoop sep fuel (buffer ++ [10]) (inclinenumber c s)
    else longLoop sep fuel (buffer ++ [c]) s

/-- `read_long_string` at the second bracket, with the bytes that `skip_sep` has saved: the text between the brackets,
and the bytes behind them. -/
def readLongString (sep : Int) (buffer : List UInt8) : List UInt8 → Option (List UInt8 × List UInt8)
  | [] => none
  | c :: s =>
    (longLoop sep ((skipNewline s).length + 1) (buffer ++ [c]) (skipNewline s)).map fun (buffer, rest) =>
      let border := 2 + sep.toNat
      ((buffer.drop border).take (buffer.length - 2 * border), rest)

/-! ### Quoted strings -/

/-- The letters that stand for a control character. -/
def escapeLetter (c : UInt8) : Option UInt8 :=
  [(97, 7), (98, 8), (102, 12), (110, 10), (114, 13), (116, 9), (118, 11)].lookup c

/-- The byte that an escape stands for, and the bytes behind the escape. -/
def escape : List UInt8 → Option (UInt8 × List UInt8)
  | [] => none
  | c :: s =>
    match escapeLetter c with
    | some code => some (code, s)
    | none =>
      if isNewline c then some (10, inclinenumber c s)
      else if IsDigit c then
        let digits := ((c :: s).take 3).takeWhile fun c => decide (IsDigit c)
        if 255 < value digits then none else some (UInt8.ofNat (value digits), (c :: s).drop digits.length)
      else some (c, s)

/-- The loop of `read_string` behind the first delimiter: the text up to the second one, and the bytes behind it. -/
def readString (del : UInt8) : Nat → List UInt8 → Option (List UInt8 × List UInt8)
  | 0, _ => none
  | _ + 1, [] => none
  | fuel + 1, c :: s =>
    if c = del then some ([], s)
    else if isNewline c then none
    else if c = 92 then
      match escape s with
      | none => none
      | some (c, s) => (readString del fuel s).map fun (text, rest) => (c :: text, rest)
    else (readString del fuel s).map fun (text, rest) => (c :: text, rest)

/-! ### Tokens -/

/-- A symbol of one character, or of two with an equals sign. -/
def comparison (c : UInt8) (s : List UInt8) : Option (Token × List UInt8) :=
  match s with
  | 61 :: s => some (.symbol [c, 61], s)
  | s => some (.symbol [c], s)

def llex : Nat → List UInt8 → Option (Token × List UInt8)
  | 0, _ => none
  | _ + 1, [] => some (.eos, [])
  | fuel + 1, c :: s =>
    if isNewline c then llex fuel (inclinenumber c s)
    else if c = 45 then
      match s with
      | 45 :: 91 :: s =>
        match skipSep 91 s with
        | (sep, saved, rest) =>
          if 0 ≤ sep then (readLongString sep saved rest).bind fun (_, rest) => llex fuel rest
          else llex fuel (rest.dropWhile fun c => !isNewline c)
      | 45 :: s => llex fuel (s.dropWhile fun c => !isNewline c)
      | s => some (.symbol [c], s)
    else if c = 91 then
      match skipSep c s with
      | (sep, saved, rest) =>
        if 0 ≤ sep then (readLongString sep saved rest).map fun (text, rest) => (.string text, rest)
        else if sep = -1 then some (.symbol [c], rest)
        else none
    else if c = 61 ∨ c = 60 ∨ c = 62 ∨ c = 126 then comparison c s
    else if c = 34 ∨ c = 39 then (readString c (s.length + 1) s).map fun (text, rest) => (.string text, rest)
    else if c = 46 then
      match s with
      | 46 :: 46 :: s => some (.symbol [46, 46, 46], s)
      | 46 :: s => some (.symbol [46, 46], s)
      | d :: s => if IsDigit d then none else some (.symbol [c], d :: s)
      | [] => some (.symbol [c], [])
    else if isSpace c then llex fuel s
    else if IsDigit c then none
    else if isAlpha c ∨ c = 95 then some (.name ((c :: s).takeWhile isNameChar), (c :: s).dropWhile isNameChar)
    else some (.symbol [c], s)

def next (s : List UInt8) : Option (Token × List UInt8) := llex (s.length + 1) s

/-! ### Where a long string ends -/

/-- The closing bracket of a level. -/
def closer (level : Nat) : List UInt8 := 93 :: (List.replicate level 61 ++ [93])

theorem length_closer (level : Nat) : (closer level).length = level + 2 := by
  rw [closer, List.length_cons, List.length_append, List.length_replicate, List.length_singleton]

/-- `skip_sep` takes a stretch of equals signs, and gives its length if a second bracket is behind it. -/
theorem skipSep_spec (bracket : UInt8) (s : List UInt8) :
    ∃ count equals rest,
      skipSep bracket s = (count, bracket :: equals, rest) ∧
      s = equals ++ rest ∧ (∀ c ∈ equals, c = 61) ∧
      ∀ level : Nat, count = level ↔ equals.length = level ∧ rest.head? = some bracket := by
  refine ⟨_, _, _, rfl, List.takeWhile_append_dropWhile.symm, ?_, fun level => ?_⟩
  · intro c hc
    have hequal : decide (c = 61) = true := List.mem_takeWhile_imp (p := fun x : UInt8 => decide (x = 61)) hc
    exact of_decide_eq_true hequal
  · split_ifs with hhead
    · exact ⟨fun h => ⟨Int.ofNat_inj.mp h, hhead⟩, fun h => congrArg Nat.cast h.1⟩
    · exact ⟨fun h => by omega, fun h => absurd h.2 hhead⟩

/-- Enough equals signs between two brackets are a closing bracket. -/
theorem closer_begins {level : Nat} {equals rest : List UInt8} (hequals : ∀ c ∈ equals, c = 61) (hlength : equals.length = level)
    (hhead : rest.head? = some 93) : closer level <+: 93 :: (equals ++ rest) := by
  obtain ⟨t, rfl⟩ := List.head?_eq_some_iff.mp hhead
  obtain rfl : equals = List.replicate level 61 := List.eq_replicate_iff.mpr ⟨hlength, hequals⟩
  exact ⟨t, by rw [closer, List.cons_append, List.append_assoc, List.singleton_append]⟩

/-- A stretch in which the closing bracket does not begin goes to the buffer. -/
theorem map_findPlain_append {p a rest : List UInt8} (buffer : List UInt8) (k : Nat)
    (h : findPlain p (a ++ rest) = (findPlain p rest).map (· + a.length)) :
    ((findPlain p (a ++ rest)).map fun i => (buffer ++ (a ++ rest).take (i + k), (a ++ rest).drop (i + k))) =
      (findPlain p rest).map fun i => (buffer ++ a ++ rest.take (i + k), rest.drop (i + k)) := by
  have hplace : ∀ i, i + a.length + k = a.length + (i + k) := fun i => by omega
  rw [h, Option.map_map]
  refine congrArg (fun f => (findPlain p rest).map f) (funext fun i => ?_)
  rw [Function.comp_apply, hplace, List.take_length_add_append, List.drop_length_add_append, List.append_assoc]

theorem skipSep_replicate {bracket : UInt8} (hbracket : bracket ≠ 61) (level : Nat) (s : List UInt8) :
    skipSep bracket (List.replicate level 61 ++ bracket :: s) =
      ((level : Int), bracket :: List.replicate level 61, bracket :: s) := by
  have hstop : ¬ decide (bracket = 61) = true := fun h => hbracket (of_decide_eq_true h)
  have htake : (List.replicate level (61 : UInt8) ++ bracket :: s).takeWhile (· = 61) = List.replicate level 61 := by
    rw [List.takeWhile_append_of_pos (by simp), List.takeWhile_cons, if_neg hstop, List.append_nil]
  have hdrop : (List.replicate level (61 : UInt8) ++ bracket :: s).dropWhile (· = 61) = bracket :: s := by
    rw [List.dropWhile_append_of_pos (by simp), List.dropWhile_cons, if_neg hstop]
  rw [skipSep, htake, hdrop, List.length_replicate, List.head?_cons, if_pos rfl]

/-- The loop ends at a closing bracket. -/
theorem longLoop_ends (level fuel : Nat) (buffer s : List UInt8) :
    longLoop level (fuel + 1) buffer (closer level ++ s) = some (buffer ++ closer level, s) := by
  have hcloser : closer level ++ s = 93 :: (List.replicate level 61 ++ 93 :: s) := by
    rw [closer, List.cons_append, List.append_assoc, List.singleton_append]
  rw [hcloser, longLoop, if_neg (by decide), if_pos rfl, skipSep_replicate (by decide)]
  dsimp only
  rw [if_pos rfl, List.append_assoc buffer]
  rfl

/-- Elsewhere the loop puts a stretch into the buffer in which no closing bracket begins. -/
theorem longLoop_goes_on {level : Nat} (hlevel : level ≠ 0) (fuel : Nat) (buffer : List UInt8) {c : UInt8} {s : List UInt8}
    (hc : isNewline c = false) (h : ¬ closer level <+: c :: s) :
    ∃ a rest, a ≠ [] ∧ a ++ rest = c :: s ∧
      findPlain (closer level) (a ++ rest) = (findPlain (closer level) rest).map (· + a.length) ∧
      longLoop level (fuel + 1) buffer (c :: s) = longLoop level fuel (buffer ++ a) rest := by
  rw [longLoop]
  by_cases hopen : c = 91
  · subst hopen
    obtain ⟨count, equals, rest, hskip, rfl, hequals, hcount⟩ := skipSep_spec 91 s
    have hnotin : (93 : UInt8) ∉ 91 :: equals :=
      fun h => (List.mem_cons.mp h).elim (by decide) fun h => absurd (hequals _ h) (by decide)
    rw [if_pos rfl, hskip]
    dsimp only
    by_cases hlevels : count = level
    · obtain ⟨rest, rfl⟩ := List.head?_eq_some_iff.mp ((hcount level).mp hlevels).2
      have hnotin' : (93 : UInt8) ∉ 91 :: equals ++ [91] :=
        fun h => (List.mem_append.mp h).elim hnotin fun h => absurd (List.mem_singleton.mp h) (by decide)
      rw [if_pos hlevels, if_neg (Int.natCast_ne_zero.mpr hlevel), List.append_assoc buffer]
      exact ⟨91 :: equals ++ [91], rest, by simp, by simp, findPlain_append_of_not_mem hnotin' rest, rfl⟩
    · rw [if_neg hlevels]
      exact ⟨91 :: equals, rest, List.cons_ne_nil _ _, rfl, findPlain_append_of_not_mem hnotin rest, rfl⟩
  · rw [if_neg hopen]
    by_cases hclose : c = 93
    · subst hclose
      obtain ⟨count, equals, rest, hskip, rfl, hequals, hcount⟩ := skipSep_spec 93 s
      have hlevels : ¬ count = level := fun heq =>
        h (closer_begins hequals ((hcount level).mp heq).1 ((hcount level).mp heq).2)
      have hnotin : (93 : UInt8) ∉ equals := fun h => absurd (hequals _ h) (by decide)
      rw [if_pos rfl, hskip]
      dsimp only
      rw [if_neg hlevels]
      refine ⟨93 :: equals, rest, List.cons_ne_nil _ _, rfl, ?_, rfl⟩
      rw [List.cons_append, findPlain_cons_of_not_prefix h, closer, findPlain_append_of_not_mem hnotin, Option.map_map]
      rfl
    · have hnotin : (93 : UInt8) ∉ [c] := fun h => hclose (List.mem_singleton.mp h).symm
      rw [if_neg hclose, if_neg (by rw [hc]; decide)]
      exact ⟨[c], s, List.cons_ne_nil _ _, rfl, findPlain_append_of_not_mem hnotin s, rfl⟩

/-- By induction on the bytes to come: the loop goes on up to the first closing bracket. -/
theorem longLoop_eq {level : Nat} (hlevel : level ≠ 0) (fuel : Nat) (buffer s : List UInt8)
    (hline : ∀ c ∈ s, isNewline c = false) (hfuel : s.length < fuel) :
    longLoop level fuel buffer s = (findPlain (closer level) s).map fun i =>
      (buffer ++ s.take (i + (level + 2)), s.drop (i + (level + 2))) := by
  induction fuel generalizing buffer s with
  | zero => exact absurd hfuel (Nat.not_lt_zero _)
  | succ fuel ih =>
    by_cases hends : closer level <+: s
    · have hfind : findPlain (closer level) s = some 0 :=
        findPlain_eq_some_iff.mpr ⟨hends, fun _ h => absurd h (Nat.not_lt_zero _)⟩
      obtain ⟨rest, rfl⟩ := hends
      have hlength : 0 + (level + 2) = (closer level).length := by rw [length_closer, Nat.zero_add]
      rw [longLoop_ends, hfind, Option.map_some, hlength, List.take_left, List.drop_left]
    · cases s with
      | nil => rfl
      | cons c s =>
        obtain ⟨a, rest, hne, hsplit, hfind, hloop⟩ :=
          longLoop_goes_on hlevel fuel buffer (hline c List.mem_cons_self) hends
        have hpos : 0 < a.length := List.length_pos_iff.mpr hne
        have hlength := congrArg List.length hsplit
        rw [List.length_append] at hlength
        rw [hloop, ih (buffer ++ a) rest (fun x hx => hline x (hsplit ▸ List.mem_append_right a hx)) (by omega), ← hsplit,
          map_findPlain_append buffer _ hfind]

/-- A long string holds what is in front of the first closing bracket. -/
theorem next_long {level : Nat} (hlevel : level ≠ 0) (s : List UInt8) (hline : ∀ c ∈ s, isNewline c = false) :
    next (91 :: (List.replicate level 61 ++ 91 :: s)) = (findPlain (closer level) s).map fun i =>
      (.string (s.take i), s.drop (i + (level + 2))) := by
  have hopen : (91 :: List.replicate level (61 : UInt8) ++ [91]).length = 2 + level := by
    rw [List.length_append, List.length_cons, List.length_replicate, List.length_singleton]
    omega
  have hread : readLongString level (91 :: List.replicate level 61) (91 :: s) = (findPlain (closer level) s).map fun i =>
      (s.take i, s.drop (i + (level + 2))) := by
    have hstart : skipNewline s = s := by
      cases s with
      | nil => rfl
      | cons d s =>
        rw [skipNewline, if_neg (by rw [hline d List.mem_cons_self]; decide)]
    rw [readLongString]
    dsimp only
    rw [hstart, longLoop_eq hlevel _ _ s hline (Nat.lt_succ_self _), Option.map_map]
    cases hfind : findPlain (closer level) s with
    | none => rfl
    | some i =>
      have hfits := (findPlain_eq_some_iff.mp hfind).1.length_le
      rw [length_closer, List.length_drop] at hfits
      have htext : (91 :: List.replicate level (61 : UInt8) ++ [91] ++ s.take (i + (level + 2))).length - 2 * (2 + level) = i := by
        rw [List.length_append, hopen, List.length_take]
        omega
      rw [Option.map_some, Option.map_some, Function.comp_apply]
      dsimp only
      rw [Int.toNat_natCast, htext, List.drop_left' hopen, List.take_take, Nat.min_eq_left (Nat.le_add_right _ _)]
  show (match skipSep 91 (List.replicate level 61 ++ 91 :: s) with
    | (sep, saved, rest) =>
      if 0 ≤ sep then (readLongString sep saved rest).map fun (p : List UInt8 × List UInt8) => (Token.string p.1, p.2)
      else if sep = -1 then some (.symbol [91], rest)
      else none) = _
  rw [skipSep_replicate (by decide)]
  dsimp only
  rw [if_pos (Int.natCast_nonneg level), hread, Option.map_map]
  rfl

/-- A text can be put between long brackets: no closing bracket begins in it, not even one that ends behind it. -/
def Embeddable (level : Nat) (text : List UInt8) : Prop :=
  ¬ closer level <:+: text ∧ ¬ 93 :: List.replicate level 61 <:+ text

theorem closer_eq (level : Nat) : closer level = 93 :: List.replicate level 61 ++ [93] := rfl

/-- A closing bracket that begins in a text in front of another one. -/
theorem closer_prefix_append {level : Nat} {d t : List UInt8} (hne : d ≠ []) (h : closer level <+: d ++ (closer level ++ t)) :
    closer level <+: d ∨ d = 93 :: List.replicate level 61 := by
  obtain ⟨r, hr⟩ := h
  obtain ⟨front, heq, -⟩ | ⟨back, heq, hback⟩ := List.append_eq_append_iff.mp hr
  · exact Or.inl ⟨front, heq.symm⟩
  · cases back with
    | nil =>
      rw [List.append_nil] at heq
      exact Or.inl (heq ▸ List.prefix_rfl)
    | cons c back =>
      obtain ⟨x, d, rfl⟩ := List.exists_cons_of_ne_nil hne
      obtain ⟨rfl, hlevel⟩ := List.cons.inj heq
      obtain rfl : 93 = c := (List.cons.inj hback).1
      right
      obtain ⟨extra, hd, hlast⟩ | ⟨extra, hreplicate, hlast⟩ := List.append_eq_append_iff.mp hlevel
      · cases extra with
        | nil => rw [hd, List.append_nil]
        | cons e extra =>
          have hlength := congrArg List.length hlast
          simp at hlength
      · cases extra with
        | nil => rw [hreplicate, List.append_nil]
        | cons e extra =>
          obtain rfl : 93 = e := (List.cons.inj hlast).1
          have hmem : (93 : UInt8) ∈ List.replicate level 61 := by
            rw [hreplicate]
            simp
          exact absurd (List.eq_of_mem_replicate hmem) (by decide)

/-- The first closing bracket behind a text is the one that was put there exactly if the text can be embedded. -/
theorem findPlain_closer (level : Nat) (text t : List UInt8) :
    ∃ i ≤ text.length, findPlain (closer level) (text ++ (closer level ++ t)) = some i ∧
      (i = text.length ↔ Embeddable level text) := by
  obtain ⟨i, hle, hfind⟩ := exists_findPlain_le (closer level) text t
  obtain ⟨hhere, hfirst⟩ := findPlain_eq_some_iff.mp hfind
  refine ⟨i, hle, hfind, ?_, ?_⟩
  · rintro rfl
    constructor
    · rintro ⟨front, back, rfl⟩
      refine hfirst front.length ?_ ?_
      · rw [List.length_append, List.length_append, length_closer]
        omega
      · rw [List.append_assoc, List.append_assoc, List.drop_left]
        exact List.prefix_append _ _
    · rintro ⟨front, rfl⟩
      refine hfirst front.length ?_ ?_
      · rw [List.length_append, List.length_cons]
        omega
      · rw [List.append_assoc, List.drop_left, closer_eq, List.append_assoc]
        exact (List.prefix_append_right_inj _).mpr ⟨_, rfl⟩
  · rintro ⟨hinside, hsuffix⟩
    refine hle.antisymm (not_lt.mp fun hlt => ?_)
    rw [List.drop_append_of_le_length hle] at hhere
    have hne : text.drop i ≠ [] := fun h => absurd (List.drop_eq_nil_iff.mp h) (not_le.mpr hlt)
    obtain hbegins | heq := closer_prefix_append hne hhere
    · exact hinside (hbegins.isInfix.trans (List.drop_suffix i text).isInfix)
    · exact hsuffix (heq ▸ List.drop_suffix i text)

/-! ### Where a quoted string ends -/

/-- A string without escapes. -/
theorem readString_plain {text : List UInt8} (hplain : ∀ c ∈ text, c ≠ 34 ∧ c ≠ 92 ∧ isNewline c = false) (rest : List UInt8)
    {fuel : Nat} (hfuel : text.length < fuel) : readString 34 fuel (text ++ 34 :: rest) = some (text, rest) := by
  induction text generalizing fuel with
  | nil =>
    obtain ⟨fuel, rfl⟩ := Nat.exists_eq_succ_of_ne_zero (Nat.ne_of_gt hfuel)
    rfl
  | cons c text ih =>
    obtain ⟨⟨hquote, hslash, hnewline⟩, hrest⟩ := List.forall_mem_cons.mp hplain
    rw [List.length_cons] at hfuel
    obtain ⟨fuel, rfl⟩ : ∃ n, fuel = n + 1 := ⟨fuel - 1, by omega⟩
    rw [List.cons_append, readString, if_neg hquote, if_neg (by rw [hnewline]; decide), if_neg hslash,
      ih hrest (by omega)]
    rfl

theorem inclinenumber_spec (old : UInt8) (s : List UInt8) :
    ∃ raw, s = raw ++ inclinenumber old s ∧ ∀ c ∈ raw, isNewline c = true := by
  cases s with
  | nil => exact ⟨[], rfl, fun _ hc => absurd hc List.not_mem_nil⟩
  | cons c s =>
    rw [inclinenumber]
    split_ifs with hnewline
    · refine ⟨[c], rfl, fun x hx => ?_⟩
      rw [List.mem_singleton.mp hx]
      exact hnewline.1
    · exact ⟨[], rfl, fun _ hc => absurd hc List.not_mem_nil⟩

/-- An escape stands for one byte, and for a quotation mark if it has one. -/
theorem escape_spec {s rest : List UInt8} {c : UInt8} (h : escape s = some (c, rest)) :
    ∃ raw, raw ≠ [] ∧ s = raw ++ rest ∧ raw.count 34 ≤ [c].count 34 := by
  cases s with
  | nil => exact absurd h (by simp [escape])
  | cons d s =>
    have hnone : ∀ raw : List UInt8, 34 ∉ raw → raw.count 34 ≤ [c].count 34 := fun raw hraw =>
      (List.count_eq_zero.mpr hraw).le.trans (Nat.zero_le _)
    rw [escape] at h
    cases hletter : escapeLetter d with
    | some code =>
      have hd : 34 ≠ d := by
        rintro rfl
        have hquote : escapeLetter 34 = none := by decide
        exact absurd (hquote.symm.trans hletter) (Option.some_ne_none _).symm
      rw [hletter] at h
      obtain ⟨-, rfl⟩ := Prod.mk.inj (Option.some.inj h)
      exact ⟨[d], List.cons_ne_nil _ _, rfl, hnone [d] fun hmem => hd (List.mem_singleton.mp hmem)⟩
    | none =>
      rw [hletter] at h
      dsimp only at h
      by_cases hnewline : isNewline d = true
      · rw [if_pos hnewline] at h
        obtain ⟨-, rfl⟩ := Prod.mk.inj (Option.some.inj h)
        obtain ⟨raw, hsplit, hraw⟩ := inclinenumber_spec d s
        refine ⟨d :: raw, List.cons_ne_nil _ _, congrArg (d :: ·) hsplit, hnone _ fun hmem => ?_⟩
        exact absurd ((List.mem_cons.mp hmem).elim (fun heq => heq ▸ hnewline) (hraw 34)) (by decide)
      · rw [if_neg hnewline] at h
        by_cases hdigit : IsDigit d
        · rw [if_pos hdigit] at h
          have hdigits : ((d :: s).take 3).takeWhile (fun c => decide (IsDigit c)) <+: d :: s :=
            (List.takeWhile_prefix _).trans (List.take_prefix _ _)
          split_ifs at h
          obtain ⟨-, rfl⟩ := Prod.mk.inj (Option.some.inj h)
          refine ⟨_, ?_, (List.prefix_append_drop hdigits), hnone _ fun hmem => ?_⟩
          · rw [List.take_succ_cons, List.takeWhile_cons, if_pos (decide_eq_true hdigit)]
            exact List.cons_ne_nil _ _
          · exact absurd (List.mem_takeWhile_imp (p := fun c => decide (IsDigit c)) hmem) (by decide)
        · rw [if_neg hdigit] at h
          obtain ⟨rfl, rfl⟩ := Prod.mk.inj (Option.some.inj h)
          exact ⟨[d], List.cons_ne_nil _ _, rfl, le_rfl⟩

/-- What is read of a string is no longer than what it is read from, and has no fewer quotation marks; if it is not
shorter, nothing was escaped. -/
theorem readString_spec {fuel : Nat} {s text rest : List UInt8} (h : readString 34 fuel s = some (text, rest)) :
    ∃ raw, s = raw ++ 34 :: rest ∧ text.length ≤ raw.length ∧ raw.count 34 ≤ text.count 34 ∧
      (text.length = raw.length → text = raw ∧ ∀ c ∈ text, c ≠ 34 ∧ c ≠ 92 ∧ isNewline c = false) := by
  induction fuel generalizing s text with
  | zero => exact absurd h (by simp [readString])
  | succ fuel ih =>
    cases s with
    | nil => exact absurd h (by simp [readString])
    | cons c s =>
      rw [readString] at h
      split_ifs at h with hquote hnewline hslash
      · obtain ⟨rfl, rfl⟩ := Prod.mk.inj (Option.some.inj h)
        exact ⟨[], congrArg (· :: s) hquote, le_rfl, le_rfl, fun _ => ⟨rfl, fun _ hc => absurd hc List.not_mem_nil⟩⟩
      · cases hescape : escape s with
        | none =>
          rw [hescape] at h
          exact absurd h (by simp)
        | some p =>
          obtain ⟨d, s'⟩ := p
          obtain ⟨raw, hne, rfl, hcount⟩ := escape_spec hescape
          rw [hescape] at h
          obtain ⟨⟨text', rest'⟩, hread, heq⟩ := Option.map_eq_some_iff.mp h
          obtain ⟨rfl, rfl⟩ := Prod.mk.inj heq
          obtain ⟨raw', rfl, hlength, hquotes, -⟩ := ih hread
          have hpos : 0 < raw.length := List.length_pos_iff.mpr hne
          refine ⟨c :: (raw ++ raw'), by rw [List.cons_append, List.append_assoc], ?_, ?_, ?_⟩
          · rw [List.length_cons, List.length_cons, List.length_append]
            omega
          · rw [List.count_cons_of_ne hquote, List.count_append, ← List.singleton_append, List.count_append]
            exact Nat.add_le_add hcount hquotes
          · intro hsame
            rw [List.length_cons, List.length_cons, List.length_append] at hsame
            omega
      · obtain ⟨⟨text', rest'⟩, hread, heq⟩ := Option.map_eq_some_iff.mp h
        obtain ⟨rfl, rfl⟩ := Prod.mk.inj heq
        obtain ⟨raw, rfl, hlength, hquotes, hplain⟩ := ih hread
        refine ⟨c :: raw, rfl, Nat.succ_le_succ hlength, ?_, ?_⟩
        · rw [List.count_cons_of_ne hquote, List.count_cons_of_ne hquote]
          exact hquotes
        · intro hsame
          obtain ⟨rfl, hall⟩ := hplain (Nat.succ.inj hsame)
          exact ⟨rfl, List.forall_mem_cons.mpr ⟨⟨hquote, hslash, Bool.eq_false_iff.mpr hnewline⟩, hall⟩⟩

end EspClock.Lua
