import Mathlib.Data.List.Infix
import Mathlib.Data.List.TakeWhile

/-!
# Patterns in strings

A pattern is a list of items, each of which takes as many elements of a class as it may, in an order of its own: an item
that repeats greedily tries the longest stretch first, a lazy one the shortest. The first choice behind which the other
items match is taken. Next to it there is the plain search for a string.
-/

namespace Pattern

variable {α : Type}

/-- An item on a class of elements: just one, any number, at least one, or any number with the fewest first. -/
inductive Item (α : Type) where
  | one (cls : α → Bool)
  | star (cls : α → Bool)
  | plus (cls : α → Bool)
  | lazy (cls : α → Bool)

namespace Item

def cls : Item α → α → Bool
  | one cls | star cls | plus cls | lazy cls => cls

/-- How many elements at the head of a string are in the class. -/
def span (i : Item α) (s : List α) : Nat := (s.takeWhile i.cls).length

/-- How many elements an item takes, in the order in which it tries. -/
def counts (s : List α) : Item α → List Nat
  | one cls => if (one cls).span s = 0 then [] else [1]
  | star cls => (List.range ((star cls).span s + 1)).reverse
  | plus cls => ((List.range ((plus cls).span s)).map (· + 1)).reverse
  | lazy cls => List.range ((lazy cls).span s + 1)

/-- A part of a string that an item may take. -/
def Fits (i : Item α) (part : List α) : Prop :=
  (∀ c ∈ part, i.cls c = true) ∧
    match i with
    | one _ => part.length = 1
    | plus _ => part ≠ []
    | star _ | lazy _ => True

end Item

/-- What each item takes of the head of a string, and what is behind them. A pattern may be bound to the end. -/
def matchHere (atEnd : Bool) : List (Item α) → List α → Option (List (List α) × List α)
  | [], s => if atEnd = true ∧ s ≠ [] then none else some ([], s)
  | item :: items, s => (item.counts s).findSome? fun n =>
      (matchHere atEnd items (s.drop n)).map fun (taken, rest) => (s.take n :: taken, rest)

/-- The first match from a place on: where it starts and ends, and what the items take. -/
def findFrom (atEnd : Bool) (items : List (Item α)) (i : Nat) (s : List α) : Option (Nat × Nat × List (List α)) :=
  match matchHere atEnd items s with
  | some (taken, _) => some (i, i + taken.flatten.length, taken)
  | none =>
    match s with
    | [] => none
    | _ :: s => findFrom atEnd items (i + 1) s

variable [DecidableEq α]

/-- The first place of a string in another. -/
def findPlain (p : List α) : List α → Option Nat
  | [] => if p = [] then some 0 else none
  | c :: s => if p <+: c :: s then some 0 else (findPlain p s).map (· + 1)

/-! ### Items -/

section Items

omit [DecidableEq α]

variable {item : Item α} {s : List α} {n : Nat}

theorem take_span (item : Item α) (s : List α) : s.take (item.span s) = s.takeWhile item.cls :=
  (List.prefix_iff_eq_take.mp (List.takeWhile_prefix item.cls)).symm

theorem cls_of_mem_take (h : n ≤ item.span s) : ∀ c ∈ s.take n, item.cls c = true := by
  intro c hc
  have hmem := (List.take_prefix_take_left (l := s) h).subset hc
  rw [take_span] at hmem
  exact List.mem_takeWhile_imp hmem

theorem length_take_of_le_span (h : n ≤ item.span s) : (s.take n).length = n :=
  List.length_take_of_le (h.trans (List.takeWhile_prefix item.cls).length_le)

theorem fits_of_mem_counts (h : n ∈ item.counts s) : item.Fits (s.take n) := by
  cases item with
  | one cls =>
    rw [Item.counts] at h
    split_ifs at h with hspan
    · exact absurd h List.not_mem_nil
    · obtain rfl := List.mem_singleton.mp h
      have hle := Nat.pos_of_ne_zero hspan
      exact ⟨cls_of_mem_take hle, length_take_of_le_span hle⟩
  | star cls => exact ⟨cls_of_mem_take (Nat.lt_succ_iff.mp (List.mem_range.mp (List.mem_reverse.mp h))), trivial⟩
  | plus cls =>
    obtain ⟨m, hm, rfl⟩ := List.mem_map.mp (List.mem_reverse.mp h)
    have hle : m + 1 ≤ (Item.plus cls).span s := List.mem_range.mp hm
    refine ⟨cls_of_mem_take hle, List.length_pos_iff.mp ?_⟩
    rw [length_take_of_le_span hle]
    exact Nat.succ_pos m
  | lazy cls => exact ⟨cls_of_mem_take (Nat.lt_succ_iff.mp (List.mem_range.mp h)), trivial⟩

/-- A stretch of the class with something else behind it. -/
theorem span_append {a t : List α} (ha : ∀ c ∈ a, item.cls c = true) (ht : ∀ c ∈ t.head?, item.cls c = false) :
    item.span (a ++ t) = a.length := by
  rw [Item.span, List.takeWhile_append_of_pos ha]
  cases t with
  | nil => rw [List.takeWhile_nil, List.append_nil]
  | cons c t => rw [List.takeWhile_cons_of_neg (by rw [ht c rfl]; exact Bool.false_ne_true), List.append_nil]

theorem le_span_append {a : List α} (ha : ∀ c ∈ a, item.cls c = true) (t : List α) : a.length ≤ item.span (a ++ t) := by
  rw [Item.span, List.takeWhile_append_of_pos ha, List.length_append]
  exact Nat.le_add_right _ _

end Items

/-! ### Matches -/

section Matches

omit [DecidableEq α]

variable {atEnd : Bool} {item : Item α} {items : List (Item α)} {s : List α} {taken : List (List α)} {rest : List α}

/-- A match takes the string apart, and each item takes a part that fits it. -/
theorem matchHere_sound (h : matchHere atEnd items s = some (taken, rest)) :
    taken.flatten ++ rest = s ∧ List.Forall₂ Item.Fits items taken ∧
      (atEnd = true → rest = []) := by
  induction items generalizing s taken rest with
  | nil =>
    rw [matchHere] at h
    split_ifs at h with hend
    obtain ⟨rfl, rfl⟩ := Prod.mk.inj (Option.some.inj h)
    exact ⟨rfl, .nil, fun hatEnd => not_not.mp fun hne => hend ⟨hatEnd, hne⟩⟩
  | cons item items ih =>
    obtain ⟨n, hn, hmap⟩ := List.exists_of_findSome?_eq_some h
    obtain ⟨⟨taken', rest'⟩, hmatch, heq⟩ := Option.map_eq_some_iff.mp hmap
    obtain ⟨rfl, rfl⟩ := Prod.mk.inj heq
    obtain ⟨hflatten, hclasses, hend⟩ := ih hmatch
    refine ⟨?_, .cons (fits_of_mem_counts hn) hclasses, hend⟩
    rw [List.flatten_cons, List.append_assoc, hflatten, List.take_append_drop]

/-- The first choice behind which the other items match is taken. -/
theorem matchHere_of_first {a t : List α} {before after : List Nat} (hcounts : item.counts (a ++ t) = before ++ a.length :: after)
    (hbefore : ∀ m ∈ before, matchHere atEnd items ((a ++ t).drop m) = none)
    (hmatch : matchHere atEnd items t = some (taken, rest)) :
    matchHere atEnd (item :: items) (a ++ t) = some (a :: taken, rest) := by
  have hnone : before.findSome? (fun n => (matchHere atEnd items ((a ++ t).drop n)).map fun (taken, rest) =>
      ((a ++ t).take n :: taken, rest)) = none :=
    List.findSome?_eq_none_iff.mpr fun m hm => Option.map_eq_none_iff.mpr (hbefore m hm)
  rw [matchHere, hcounts, List.findSome?_append, hnone, Option.none_or, List.findSome?_cons, List.drop_left, List.take_left, hmatch]
  rfl

theorem matchHere_one {cls : α → Bool} {c : α} (hc : cls c = true) :
    matchHere atEnd (.one cls :: items) (c :: s) = (matchHere atEnd items s).map fun (taken, rest) => ([c] :: taken, rest) := by
  have hspan : (Item.one cls).span (c :: s) ≠ 0 := by
    rw [Item.span, List.takeWhile_cons_of_pos (by exact hc)]
    exact Nat.succ_ne_zero _
  rw [matchHere, Item.counts, if_neg hspan, List.findSome?_singleton]
  rfl

theorem matchHere_one_of_not {cls : α → Bool} (hs : ∀ c ∈ s.head?, cls c = false) :
    matchHere atEnd (.one cls :: items) s = none := by
  have hspan : (Item.one cls).span s = 0 := span_append (a := []) (fun _ hc => absurd hc List.not_mem_nil) hs
  rw [matchHere, Item.counts, if_pos hspan, List.findSome?_nil]

/-- An item that repeats greedily takes the whole stretch of its class, if the other items match behind it. -/
theorem matchHere_star {cls : α → Bool} {a t : List α} (ha : ∀ c ∈ a, cls c = true) (ht : ∀ c ∈ t.head?, cls c = false)
    (hmatch : matchHere atEnd items t = some (taken, rest)) :
    matchHere atEnd (.star cls :: items) (a ++ t) = some (a :: taken, rest) := by
  have hcounts : (Item.star cls).counts (a ++ t) = [] ++ a.length :: (List.range a.length).reverse := by
    rw [Item.counts, span_append ha ht, List.range_succ, List.reverse_append]
    rfl
  exact matchHere_of_first hcounts (fun _ hm => absurd hm List.not_mem_nil) hmatch

theorem matchHere_plus {cls : α → Bool} {a t : List α} (hne : a ≠ []) (ha : ∀ c ∈ a, cls c = true)
    (ht : ∀ c ∈ t.head?, cls c = false) (hmatch : matchHere atEnd items t = some (taken, rest)) :
    matchHere atEnd (.plus cls :: items) (a ++ t) = some (a :: taken, rest) := by
  obtain ⟨n, hn⟩ := Nat.exists_eq_succ_of_ne_zero (List.length_pos_iff.mpr hne).ne'
  have hcounts : (Item.plus cls).counts (a ++ t) = [] ++ a.length :: ((List.range n).map (· + 1)).reverse := by
    rw [Item.counts, span_append ha ht, hn, List.range_succ, List.map_append, List.reverse_append]
    rfl
  exact matchHere_of_first hcounts (fun _ hm => absurd hm List.not_mem_nil) hmatch

/-- A lazy item takes the first stretch behind which the other items match. -/
theorem matchHere_lazy {cls : α → Bool} {a t : List α} (ha : ∀ c ∈ a, cls c = true)
    (hbefore : ∀ m < a.length, matchHere atEnd items ((a ++ t).drop m) = none)
    (hmatch : matchHere atEnd items t = some (taken, rest)) :
    matchHere atEnd (.lazy cls :: items) (a ++ t) = some (a :: taken, rest) := by
  have hcounts : (Item.lazy cls).counts (a ++ t) = List.range a.length ++ a.length ::
      (List.range ((Item.lazy cls).span (a ++ t) - a.length)).map (a.length + 1 + ·) := by
    have hle : a.length ≤ (Item.lazy cls).span (a ++ t) := le_span_append ha t
    rw [Item.counts, show (Item.lazy cls).span (a ++ t) + 1 = a.length + 1 + ((Item.lazy cls).span (a ++ t) - a.length) by omega,
      List.range_add, List.range_succ, List.append_assoc, List.singleton_append]
  exact matchHere_of_first hcounts (fun m hm => hbefore m (List.mem_range.mp hm)) hmatch

theorem matchHere_lazy_of_not {cls : α → Bool} (hs : ∀ c ∈ s.head?, cls c = false) :
    matchHere atEnd (.lazy cls :: items) s = (matchHere atEnd items s).map fun (taken, rest) => ([] :: taken, rest) := by
  have hspan : (Item.lazy cls).span s = 0 := span_append (a := []) (fun _ hc => absurd hc List.not_mem_nil) hs
  rw [matchHere, Item.counts, hspan]
  exact List.findSome?_singleton

/-- Items that take one element each match strings of one length only. -/
theorem length_of_matchHere_ones {classes : List (α → Bool)} (h : (matchHere true (classes.map Item.one) s).isSome) :
    s.length = classes.length := by
  induction classes generalizing s with
  | nil =>
    rw [List.map_nil, matchHere] at h
    split_ifs at h with hend
    · exact absurd h Bool.false_ne_true
    · exact List.length_eq_zero_iff.mpr (not_not.mp fun hne => hend ⟨rfl, hne⟩)
  | cons cls classes ih =>
    rw [List.map_cons] at h
    cases s with
    | nil =>
      rw [matchHere_one_of_not fun _ hc => absurd hc (Option.not_mem_none _)] at h
      exact absurd h Bool.false_ne_true
    | cons c s =>
      cases hc : cls c with
      | false =>
        rw [matchHere_one_of_not fun _ hc' => Option.mem_some.mp hc' ▸ hc] at h
        exact absurd h Bool.false_ne_true
      | true =>
        rw [matchHere_one hc, Option.isSome_map] at h
        exact congrArg (· + 1) (ih h)

/-! ### Searches -/

/-- A match at the front is what a search finds there. -/
theorem findFrom_sound_here {i start stop : Nat} {result : List (List α) × List α} (hmatch : matchHere atEnd items s = some result)
    (h : some (i, i + result.1.flatten.length, result.1) = some (start, stop, taken)) :
    ∃ skipped rest, s = skipped ++ (taken.flatten ++ rest) ∧ start = i + skipped.length ∧
      stop = start + taken.flatten.length ∧ matchHere atEnd items (taken.flatten ++ rest) = some (taken, rest) := by
  obtain ⟨rfl, hrest⟩ := Prod.mk.inj (Option.some.inj h)
  obtain ⟨rfl, rfl⟩ := Prod.mk.inj hrest
  have hflatten := (matchHere_sound hmatch).1
  exact ⟨[], result.2, hflatten.symm, rfl, rfl, hflatten.symm ▸ hmatch⟩

/-- A search leaves out elements up to the match. -/
theorem findFrom_sound {i start stop : Nat} (h : findFrom atEnd items i s = some (start, stop, taken)) :
    ∃ skipped rest, s = skipped ++ (taken.flatten ++ rest) ∧ start = i + skipped.length ∧
      stop = start + taken.flatten.length ∧ matchHere atEnd items (taken.flatten ++ rest) = some (taken, rest) := by
  induction s generalizing i with
  | nil =>
    rw [findFrom] at h
    cases hmatch : matchHere atEnd items [] with
    | none =>
      rw [hmatch] at h
      exact absurd h (Option.some_ne_none _).symm
    | some result =>
      rw [hmatch] at h
      exact findFrom_sound_here hmatch h
  | cons c s ih =>
    rw [findFrom] at h
    cases hmatch : matchHere atEnd items (c :: s) with
    | none =>
      rw [hmatch] at h
      obtain ⟨skipped, rest, hs, hstart, hstop, hhere⟩ := ih h
      refine ⟨c :: skipped, rest, congrArg (c :: ·) hs, ?_, hstop, hhere⟩
      rw [hstart, List.length_cons, Nat.add_assoc, Nat.add_comm 1]
    | some result =>
      rw [hmatch] at h
      exact findFrom_sound_here hmatch h

/-- The first place at which the pattern matches. -/
theorem findFrom_of_first {i : Nat} {skipped t : List α}
    (hbefore : ∀ m < skipped.length, matchHere atEnd items ((skipped ++ t).drop m) = none)
    (hmatch : matchHere atEnd items t = some (taken, rest)) :
    findFrom atEnd items i (skipped ++ t) = some (i + skipped.length, i + skipped.length + taken.flatten.length, taken) := by
  induction skipped generalizing i with
  | nil =>
    rw [List.nil_append, findFrom.eq_def, hmatch]
    rfl
  | cons c skipped ih =>
    have hhere := hbefore 0 (Nat.succ_pos _)
    rw [List.drop_zero] at hhere
    rw [List.cons_append] at hhere ⊢
    rw [findFrom, hhere]
    dsimp only
    rw [ih fun m hm => hbefore (m + 1) (Nat.succ_lt_succ hm), List.length_cons, Nat.add_assoc i 1, Nat.add_comm 1]

end Matches

/-- An item that takes one certain element. -/
theorem eq_of_fits_one {x : α} {part : List α} (h : (Item.one (· == x)).Fits part) : part = [x] := by
  obtain ⟨c, rfl⟩ := List.length_eq_one_iff.mp h.2
  rw [eq_of_beq (h.1 c List.mem_cons_self)]

theorem findPlain_eq_some_iff {p s : List α} {i : Nat} :
    findPlain p s = some i ↔ p <+: s.drop i ∧ ∀ j < i, ¬ p <+: s.drop j := by
  induction s generalizing i with
  | nil =>
    rw [findPlain, List.drop_nil, List.prefix_nil]
    split_ifs with hp
    · refine ⟨fun h => ⟨hp, fun j hj => absurd (Option.some.inj h ▸ hj) (Nat.not_lt_zero j)⟩, fun h => ?_⟩
      obtain rfl | hpos := Nat.eq_zero_or_pos i
      · rfl
      · exact absurd (hp ▸ List.nil_prefix) (h.2 0 hpos)
    · exact iff_of_false not_false fun h => hp h.1
  | cons c s ih =>
    rw [findPlain]
    split_ifs with hp
    · refine ⟨fun h => ?_, fun h => ?_⟩
      · obtain rfl := Option.some.inj h
        exact ⟨hp, fun j hj => absurd hj (Nat.not_lt_zero j)⟩
      · obtain rfl | hpos := Nat.eq_zero_or_pos i
        · rfl
        · exact absurd hp (h.2 0 hpos)
    · cases i with
      | zero => exact iff_of_false (by simp) fun h => hp h.1
      | succ i =>
        rw [Option.map_eq_some_iff]
        refine Iff.trans ⟨fun ⟨k, hk, heq⟩ => Nat.succ.inj heq ▸ hk, fun h => ⟨i, h, rfl⟩⟩ (ih.trans ?_)
        refine and_congr_right fun _ => ⟨fun h j hj => ?_, fun h j hj => h (j + 1) (Nat.succ_lt_succ hj)⟩
        cases j with
        | zero => exact hp
        | succ j => exact h j (Nat.lt_of_succ_lt_succ hj)

theorem findPlain_eq_none_iff {p s : List α} : findPlain p s = none ↔ ¬ p <:+: s := by
  induction s with
  | nil =>
    rw [findPlain, List.infix_nil]
    split_ifs with hp
    · exact iff_of_false not_false (not_not.mpr hp)
    · exact iff_of_true rfl hp
  | cons c s ih =>
    rw [findPlain, List.infix_cons_iff, not_or]
    split_ifs with hp
    · exact iff_of_false not_false fun h => h.1 hp
    · rw [Option.map_eq_none_iff, ih]
      exact (and_iff_right hp).symm

theorem findPlain_cons_of_not_prefix {p s : List α} {c : α} (h : ¬ p <+: c :: s) :
    findPlain p (c :: s) = (findPlain p s).map (· + 1) := by
  rw [findPlain, if_neg h]

/-- Elements that are not the first one of a string are in front of its first place. -/
theorem findPlain_append_of_not_mem {x : α} {p a : List α} (h : x ∉ a) (s : List α) :
    findPlain (x :: p) (a ++ s) = (findPlain (x :: p) s).map (· + a.length) := by
  induction a with
  | nil => exact Option.map_id'.symm
  | cons c a ih =>
    have hhead : ¬ x :: p <+: c :: (a ++ s) := fun hp => List.ne_of_not_mem_cons h (List.cons_prefix_cons.mp hp).1
    rw [List.cons_append, findPlain_cons_of_not_prefix hhead, ih (List.not_mem_of_not_mem_cons h), Option.map_map]
    rfl

/-- A string is found at the latest where it is put. -/
theorem exists_findPlain_le (p a t : List α) : ∃ i ≤ a.length, findPlain p (a ++ (p ++ t)) = some i := by
  have hplaced : p <+: (a ++ (p ++ t)).drop a.length := by
    rw [List.drop_left]
    exact List.prefix_append p t
  cases hfind : findPlain p (a ++ (p ++ t)) with
  | none => exact absurd (hplaced.isInfix.trans (List.drop_suffix _ _).isInfix) (findPlain_eq_none_iff.mp hfind)
  | some i => exact ⟨i, not_lt.mp fun hlt => (findPlain_eq_some_iff.mp hfind).2 _ hlt hplaced, rfl⟩

end Pattern
