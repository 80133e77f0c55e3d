import Mathlib.Data.List.Nodup
import Mathlib.Data.List.Perm.Basic

/-!
# Walking a set of words bit by bit

The words of a finite set form a binary tree. A walk goes from its root to a leaf: where all the words left go on with
one bit it takes that bit, and at a branching it takes a direction. A search that keeps the word it found last and the
position of the last branching where that word took the zero finds the word that comes next: it repeats the last word
up to this position, takes the one there and zeros from there on.
-/

namespace Branching

/-- The order of the leaves: the first bit in which two words differ decides. -/
def Before : List Bool → List Bool → Prop
  | b :: v, c :: w => (b = false ∧ c = true) ∨ (b = c ∧ Before v w)
  | _, _ => False

@[simp] theorem before_cons {b c : Bool} {v w : List Bool} :
    Before (b :: v) (c :: w) ↔ (b = false ∧ c = true) ∨ (b = c ∧ Before v w) := Iff.rfl

@[simp] theorem not_before_nil (v : List Bool) : ¬ Before v [] := by
  cases v <;> exact id

theorem Before.irrefl (w : List Bool) : ¬ Before w w := by
  induction w with
  | nil => exact id
  | cons b w ih =>
    rintro (⟨rfl, htrue⟩ | ⟨-, hlt⟩)
    · cases htrue
    · exact ih hlt

theorem Before.trans {u v w : List Bool} (huv : Before u v) (hvw : Before v w) : Before u w := by
  induction w generalizing u v with
  | nil => exact absurd hvw (not_before_nil v)
  | cons d w ih =>
    cases v with
    | nil => exact absurd hvw id
    | cons c v =>
      cases u with
      | nil => exact absurd huv id
      | cons b u =>
        rcases huv with ⟨rfl, rfl⟩ | ⟨rfl, huv⟩
        · rcases hvw with ⟨hfalse, -⟩ | ⟨rfl, -⟩
          · cases hfalse
          · exact Or.inl ⟨rfl, rfl⟩
        · rcases hvw with ⟨rfl, rfl⟩ | ⟨rfl, hvw⟩
          · exact Or.inl ⟨rfl, rfl⟩
          · exact Or.inr ⟨rfl, ih huv hvw⟩

/-- Two words of one length are ordered or equal. -/
theorem eq_of_not_before {v w : List Bool} (hlength : v.length = w.length) (hvw : ¬ Before v w) (hwv : ¬ Before w v) :
    v = w := by
  induction v generalizing w with
  | nil => exact (List.length_eq_zero_iff.mp hlength.symm).symm
  | cons b v ih =>
    cases w with
    | nil => cases hlength
    | cons c w =>
      rw [before_cons] at hvw hwv
      have hbit : b = c := by
        cases b <;> cases c
        · rfl
        · exact absurd (Or.inl ⟨rfl, rfl⟩) hvw
        · exact absurd (Or.inl ⟨rfl, rfl⟩) hwv
        · rfl
      subst hbit
      rw [ih (Nat.succ.inj hlength) (fun h => hvw (Or.inr ⟨rfl, h⟩)) fun h => hwv (Or.inr ⟨rfl, h⟩)]

theorem Before.asymm {v w : List Bool} (h : Before v w) : ¬ Before w v := fun h' => Before.irrefl v (h.trans h')

/-- What lies between two words with the same beginning has this beginning too. -/
theorem take_eq_of_between {m : Nat} {u v w : List Bool} (huv : Before u v) (hvw : Before v w) (h : u.take m = w.take m) :
    v.take m = u.take m := by
  induction m generalizing u v w with
  | zero => rw [List.take_zero, List.take_zero]
  | succ m ih =>
    cases w with
    | nil => exact absurd hvw (not_before_nil v)
    | cons d w =>
      cases v with
      | nil => exact absurd hvw id
      | cons c v =>
        cases u with
        | nil => exact absurd huv id
        | cons b u =>
          rw [List.take_succ_cons, List.take_succ_cons, List.cons.injEq] at h
          obtain ⟨rfl, h⟩ := h
          rcases huv with ⟨rfl, rfl⟩ | ⟨rfl, huv⟩
          · rcases hvw with ⟨htrue, -⟩ | ⟨htrue, -⟩ <;> cases htrue
          · rcases hvw with ⟨rfl, htrue⟩ | ⟨-, hvw⟩
            · cases htrue
            · rw [List.take_succ_cons, List.take_succ_cons, ih huv hvw h]

/-- What is left of the words that begin with a bit. -/
def after (b : Bool) (ws : List (List Bool)) : List (List Bool) :=
  ws.filterMap fun w => if w.head? = some b then some w.tail else none

@[simp] theorem mem_after {b : Bool} {ws : List (List Bool)} {w : List Bool} : w ∈ after b ws ↔ b :: w ∈ ws := by
  rw [after, List.mem_filterMap]
  constructor
  · rintro ⟨v, hv, heq⟩
    cases v with
    | nil => simp at heq
    | cons c v =>
      simp only [List.head?_cons, Option.some.injEq, List.tail_cons] at heq
      split at heq
      · rename_i hc
        cases heq
        exact hc ▸ hv
      · cases heq
  · intro hw
    exact ⟨b :: w, hw, by simp⟩

/-- What is left of the words behind a path. -/
def descend (path : List Bool) (ws : List (List Bool)) : List (List Bool) := path.foldl (fun ws b => after b ws) ws

theorem descend_snoc (path : List Bool) (b : Bool) (ws : List (List Bool)) :
    descend (path ++ [b]) ws = after b (descend path ws) := by
  rw [descend, List.foldl_append]
  rfl

theorem mem_descend {path : List Bool} {ws : List (List Bool)} {w : List Bool} :
    w ∈ descend path ws ↔ path ++ w ∈ ws := by
  induction path generalizing ws with
  | nil => exact Iff.rfl
  | cons b path ih => exact ih.trans mem_after

/-- Both bits go on from here. -/
def Splits (ws : List (List Bool)) : Prop := after false ws ≠ [] ∧ after true ws ≠ []

instance (ws : List (List Bool)) : Decidable (Splits ws) := inferInstanceAs (Decidable (_ ∧ _))

/-- The bit a walk takes at position `i`: the only one there is, and at a branching the old word's before position
`last`, the one at `last` and zero after it. -/
def direction (last i : Nat) (old : Bool) (ws : List (List Bool)) : Bool :=
  if Splits ws then if i < last then old else i == last
  else after true ws != []

/-- The word a walk ends at, with the last position at which it took the zero of a branching (0 if there is none).
Positions count from `i`. -/
def walk (last : Nat) : Nat → Nat → List Bool → List (List Bool) → List Bool × Nat
  | 0, _, _, _ => ([], 0)
  | n + 1, i, old, ws =>
    let b := direction last i (old.headD false) ws
    let rest := walk last n (i + 1) old.tail (after b ws)
    (b :: rest.1, if rest.2 = 0 ∧ Splits ws ∧ b = false then i else rest.2)

/-- The last position at which a word takes the zero of a branching, 0 if there is none. -/
def lastZero : Nat → List (List Bool) → List Bool → Nat
  | _, _, [] => 0
  | i, ws, b :: w =>
    let rest := lastZero (i + 1) (after b ws) w
    if rest = 0 ∧ Splits ws ∧ b = false then i else rest

section Walk

variable {ws : List (List Bool)} {last n i : Nat} {old : List Bool}

/-- Words of one length. -/
def Uniform (n : Nat) (ws : List (List Bool)) : Prop := ∀ w ∈ ws, w.length = n

theorem Uniform.after (h : Uniform (n + 1) ws) (b : Bool) : Uniform n (after b ws) := by
  intro w hw
  have hlength := h (b :: w) (mem_after.mp hw)
  rw [List.length_cons] at hlength
  omega

theorem exists_after_ne_nil (h : Uniform (n + 1) ws) (hne : ws ≠ []) : after false ws ≠ [] ∨ after true ws ≠ [] := by
  obtain ⟨w, hw⟩ := List.exists_mem_of_ne_nil ws hne
  have hlength := h w hw
  cases w with
  | nil => cases hlength
  | cons b w =>
    have hmem : w ∈ Branching.after b ws := mem_after.mpr hw
    cases b
    · exact Or.inl (List.ne_nil_of_mem hmem)
    · exact Or.inr (List.ne_nil_of_mem hmem)

/-- Before position `last` a walk takes the old word's bit where it can. -/
theorem direction_of_lt {b : Bool} (hi : i < last) (hne : after b ws ≠ []) : direction last i b ws = b := by
  rw [direction, if_pos hi]
  split
  · rfl
  · rename_i hsplits
    cases b
    · have hones : after true ws = [] := by
        by_contra hones
        exact hsplits ⟨hne, hones⟩
      rw [hones]
      rfl
    · exact bne_iff_ne.mpr hne

/-- A walk only goes where words are left. -/
theorem after_direction_ne_nil (h : Uniform (n + 1) ws) (hne : ws ≠ []) (b : Bool) :
    after (direction last i b ws) ws ≠ [] := by
  unfold direction
  split
  · rename_i hsplits
    cases hdir : (if i < last then b else i == last)
    · exact hsplits.1
    · exact hsplits.2
  · rename_i hsplits
    by_cases hones : after true ws = []
    · have hzeros := (exists_after_ne_nil h hne).resolve_right (fun hne => hne hones)
      rwa [hones, bne_self_eq_false]
    · have htrue : (after true ws != []) = true := bne_iff_ne.mpr hones
      rwa [htrue]

theorem walk_succ (last n i : Nat) (old : List Bool) (ws : List (List Bool)) :
    walk last (n + 1) i old ws =
      let b := direction last i (old.headD false) ws
      let rest := walk last n (i + 1) old.tail (after b ws)
      (b :: rest.1, if rest.2 = 0 ∧ Splits ws ∧ b = false then i else rest.2) := rfl

/-- A walk ends at one of the words. -/
theorem walk_mem (h : Uniform n ws) (hne : ws ≠ []) : (walk last n i old ws).1 ∈ ws := by
  induction n generalizing i old ws with
  | zero =>
    obtain ⟨w, hw⟩ := List.exists_mem_of_ne_nil ws hne
    have hw' := List.length_eq_zero_iff.mp (h w hw)
    subst hw'
    exact hw
  | succ n ih =>
    rw [walk_succ]
    exact mem_after.mp (ih (h.after _) (after_direction_ne_nil h hne _))

/-- The position a walk records is the last one at which its word took a zero. -/
theorem walk_snd (last n i : Nat) (old : List Bool) (ws : List (List Bool)) :
    (walk last n i old ws).2 = lastZero i ws (walk last n i old ws).1 := by
  induction n generalizing i old ws with
  | zero => rfl
  | succ n ih =>
    rw [walk_succ]
    dsimp only [lastZero]
    rw [← ih]

theorem lastZero_eq_zero_or (i : Nat) (ws : List (List Bool)) (w : List Bool) :
    lastZero i ws w = 0 ∨ i ≤ lastZero i ws w := by
  induction w generalizing i ws with
  | nil => exact Or.inl rfl
  | cons b w ih =>
    dsimp only [lastZero]
    split
    · exact Or.inr (Nat.le_refl _)
    · rcases ih (i + 1) (after b ws) with hzero | hle
      · exact Or.inl hzero
      · exact Or.inr (by omega)

theorem le_lastZero (hne : lastZero i ws old ≠ 0) : i ≤ lastZero i ws old :=
  (lastZero_eq_zero_or i ws old).resolve_left hne

theorem walk_length (last n i : Nat) (old : List Bool) (ws : List (List Bool)) : (walk last n i old ws).1.length = n := by
  induction n generalizing i old ws with
  | zero => rfl
  | succ n ih => rw [walk_succ, List.length_cons, ih]

/-- A word takes no zero of a branching exactly when none of the words comes after it. -/
theorem lastZero_eq_zero_iff (hi : i ≠ 0) (h : Uniform old.length ws) (hmem : old ∈ ws) :
    lastZero i ws old = 0 ↔ ∀ w ∈ ws, ¬ Before old w := by
  induction old generalizing i ws with
  | nil => exact iff_of_true rfl fun w _ => id
  | cons b old ih =>
    have hold : old ∈ after b ws := mem_after.mpr hmem
    have ih := ih (Nat.succ_ne_zero i) (h.after b) hold
    have hstep : lastZero i ws (b :: old) = 0 ↔ lastZero (i + 1) (after b ws) old = 0 ∧ ¬ (Splits ws ∧ b = false) := by
      dsimp only [lastZero]
      split <;> rename_i hcond
      · exact iff_of_false hi fun hboth => hboth.2 hcond.2
      · exact ⟨fun hzero => ⟨hzero, fun hboth => hcond ⟨hzero, hboth⟩⟩, fun hboth => hboth.1⟩
    rw [hstep, ih]
    constructor
    · rintro ⟨hall, hnot⟩ w hw hlt
      cases w with
      | nil => exact not_before_nil _ hlt
      | cons c w =>
        have hw' : w ∈ after c ws := mem_after.mpr hw
        rcases hlt with ⟨rfl, rfl⟩ | ⟨rfl, hlt⟩
        · exact hnot ⟨⟨List.ne_nil_of_mem hold, List.ne_nil_of_mem hw'⟩, rfl⟩
        · exact hall w hw' hlt
    · intro hall
      refine ⟨fun w hw hlt => hall (b :: w) (mem_after.mp hw) (Or.inr ⟨rfl, hlt⟩), ?_⟩
      rintro ⟨hsplits, rfl⟩
      obtain ⟨w, hw⟩ := List.exists_mem_of_ne_nil _ hsplits.2
      exact hall (true :: w) (mem_after.mp hw) (Or.inl ⟨rfl, rfl⟩)

/-- With no branching ahead to go the other way at, a walk ends at the first word. -/
theorem walk_least (hi : last < i) (h : Uniform n ws) : ∀ w ∈ ws, ¬ Before w (walk last n i old ws).1 := by
  induction n generalizing i old ws with
  | zero => exact fun w _ => not_before_nil w
  | succ n ih =>
    intro w hw
    rw [walk_succ]
    dsimp only
    cases w with
    | nil => exact id
    | cons c w =>
      have hw' : w ∈ after c ws := mem_after.mpr hw
      rintro (⟨rfl, hone⟩ | ⟨hbit, hlt⟩)
      · -- the zero is left, so a walk that takes the one here has seen no branching, and the zero's words are missing
        have hne : (i == last) = false := by
          rw [beq_eq_false_iff_ne]
          omega
        rw [direction, if_neg (show ¬ i < last by omega), hne] at hone
        split at hone
        · cases hone
        · rename_i hsplits
          exact hsplits ⟨List.ne_nil_of_mem hw', bne_iff_ne.mp hone⟩
      · rw [← hbit] at hlt
        exact ih (by omega) (h.after _) w hw' hlt

/-- A walk that repeats a word up to its last zero, and takes the one there, ends at the word that comes next. -/
theorem walk_next (h : Uniform old.length ws) (hmem : old ∈ ws) (hne : lastZero i ws old ≠ 0) :
    Before old (walk (lastZero i ws old) old.length i old ws).1 ∧
      ∀ w ∈ ws, Before old w → ¬ Before w (walk (lastZero i ws old) old.length i old ws).1 := by
  induction old generalizing i ws with
  | nil => exact absurd rfl hne
  | cons b old ih =>
    have hold : old ∈ after b ws := mem_after.mpr hmem
    rw [List.length_cons, walk_succ]
    dsimp only [List.headD_cons, List.tail_cons]
    by_cases hrest : lastZero (i + 1) (after b ws) old = 0
    · -- the branching is here: the old word is the last below the zero, and the walk takes the first below the one
      have hlast : lastZero i ws (b :: old) = if Splits ws ∧ b = false then i else 0 := by
        dsimp only [lastZero]
        rw [hrest]
        simp only [true_and]
      rw [hlast] at hne ⊢
      obtain ⟨hsplits, rfl⟩ : Splits ws ∧ b = false := by
        by_contra hnot
        exact hne (if_neg hnot)
      rw [if_pos ⟨hsplits, rfl⟩]
      have hdir : direction i i false ws = true := by
        rw [direction, if_pos hsplits, if_neg (Nat.lt_irrefl i), beq_self_eq_true]
      rw [hdir]
      refine ⟨Or.inl ⟨rfl, rfl⟩, fun w hw hlt => ?_⟩
      cases w with
      | nil => exact id
      | cons c w =>
        have hw' : w ∈ after c ws := mem_after.mpr hw
        cases c
        · obtain ⟨-, hone⟩ | ⟨-, hlt⟩ := hlt
          · cases hone
          · exact absurd hlt ((lastZero_eq_zero_iff (Nat.succ_ne_zero i) (h.after false) hold).mp hrest w hw')
        · rintro (⟨hzero, -⟩ | ⟨-, hbefore⟩)
          · cases hzero
          · exact walk_least (Nat.lt_succ_self i) (h.after true) w hw' hbefore
    · -- the branching is further on: the walk repeats this bit
      have hle : i + 1 ≤ lastZero (i + 1) (after b ws) old := le_lastZero hrest
      have hlast : lastZero i ws (b :: old) = lastZero (i + 1) (after b ws) old := by
        dsimp only [lastZero]
        exact if_neg fun hcond => hrest hcond.1
      have hdir : direction (lastZero i ws (b :: old)) i b ws = b := by
        rw [hlast]
        exact direction_of_lt hle (List.ne_nil_of_mem hold)
      rw [hdir, hlast]
      obtain ⟨hlt, hleast⟩ := ih (h.after b) hold hrest
      refine ⟨Or.inr ⟨rfl, hlt⟩, fun w hw hbelow => ?_⟩
      cases w with
      | nil => exact id
      | cons c w =>
        have hw' : w ∈ after c ws := mem_after.mpr hw
        rintro (⟨rfl, rfl⟩ | ⟨rfl, hbefore⟩)
        · rcases hbelow with ⟨hone, -⟩ | ⟨hone, -⟩ <;> cases hone
        · rcases hbelow with ⟨rfl, hone⟩ | ⟨-, hbelow⟩
          · cases hone
          · exact hleast w hw' hbelow hbefore

/-- A walk repeats the first bits of the old word as long as some word begins with them. -/
theorem walk_take {m : Nat} (hm : i + m ≤ last) (hlength : m ≤ old.length) (h : Uniform n ws)
    (hfound : ∃ w ∈ ws, w.take m = old.take m) : (walk last n i old ws).1.take m = old.take m := by
  induction m generalizing n i old ws with
  | zero => rw [List.take_zero, List.take_zero]
  | succ m ih =>
    obtain ⟨w, hw, htake⟩ := hfound
    cases old with
    | nil => cases hlength
    | cons b old =>
      cases w with
      | nil => cases htake
      | cons c w =>
        rw [List.take_succ_cons, List.take_succ_cons, List.cons.injEq] at htake
        obtain ⟨rfl, htake⟩ := htake
        have hn := h _ hw
        rw [List.length_cons] at hn
        subst hn
        have hw' : w ∈ after c ws := mem_after.mpr hw
        rw [walk_succ]
        dsimp only [List.headD_cons, List.tail_cons]
        have hdir : direction last i c ws = c := direction_of_lt (by omega) (List.ne_nil_of_mem hw')
        rw [hdir, List.take_succ_cons, List.take_succ_cons, ih (show i + 1 + m ≤ last by omega) (Nat.le_of_succ_le_succ hlength) (h.after c) ⟨w, hw', htake⟩]

/-- Words none of which differs from another in the last bit only. -/
def LastDecided (ws : List (List Bool)) : Prop := ∀ v ∈ ws, ∀ w ∈ ws, v.dropLast = w.dropLast → v = w

theorem LastDecided.after (hlast : LastDecided ws) (h : Uniform (n + 2) ws) (b : Bool) : LastDecided (after b ws) := by
  intro v hv w hw heq
  have hne : ∀ u ∈ Branching.after b ws, u ≠ [] := by
    intro u hu hnil
    have hlength := h.after b u hu
    rw [hnil] at hlength
    cases hlength
  have hboth := hlast _ (mem_after.mp hv) _ (mem_after.mp hw) (by
    rw [List.dropLast_cons_of_ne_nil (hne v hv), List.dropLast_cons_of_ne_nil (hne w hw), heq])
  exact (List.cons.inj hboth).2

/-- Where the last bit is decided by the others, a walk along zeros that would take the one at the last position ends
at the first word all the same. -/
theorem walk_zeros (hlast : LastDecided ws) (h : Uniform n ws) :
    ∀ w ∈ ws, ¬ Before w (walk (i + n - 1) n i (List.replicate n false) ws).1 := by
  induction n generalizing i ws with
  | zero => exact fun w _ => not_before_nil w
  | succ n ih =>
    intro w hw
    rw [walk_succ]
    dsimp only [List.replicate_succ, List.headD_cons, List.tail_cons]
    cases w with
    | nil => exact id
    | cons c w =>
      have hw' : w ∈ after c ws := mem_after.mpr hw
      rintro (⟨rfl, hone⟩ | ⟨hbit, hlt⟩)
      · cases n with
        | zero =>
          -- at the last position both bits would make two words that differ nowhere else
          have hones : after true ws ≠ [] := by
            intro hnil
            rw [direction, if_neg fun hsplits => hsplits.2 hnil, hnil] at hone
            cases hone
          obtain ⟨v, hv⟩ := List.exists_mem_of_ne_nil _ hones
          have hvnil := List.length_eq_zero_iff.mp (h.after true v hv)
          have hwnil := List.length_eq_zero_iff.mp (h.after false w hw')
          subst hvnil hwnil
          have heq := hlast _ (mem_after.mp hv) _ hw rfl
          cases heq
        | succ n =>
          rw [direction_of_lt (by omega) (List.ne_nil_of_mem hw')] at hone
          cases hone
      · rw [← hbit, show i + (n + 1) - 1 = i + 1 + n - 1 by omega] at hlt
        cases n with
        | zero => exact not_before_nil w hlt
        | succ n => exact ih (hlast.after h c) (h.after c) w hw' hlt

/-- A walk along a beginning that some word has, and zeros after it, ends at the first word with that beginning. -/
theorem walk_target {p : List Bool} {k : Nat} (hk : k ≠ 0) (hn : n = p.length + k) (hlast : LastDecided ws)
    (h : Uniform n ws) :
    ∀ w ∈ ws, w.take p.length = p → ¬ Before w (walk (i + n - 1) n i (p ++ List.replicate k false) ws).1 := by
  induction p generalizing n i ws with
  | nil =>
    rw [List.length_nil, Nat.zero_add] at hn
    subst hn
    exact fun w hw _ => walk_zeros hlast h w hw
  | cons b p ih =>
    intro w hw htake
    cases w with
    | nil => exact id
    | cons c w =>
      rw [List.length_cons, List.take_succ_cons, List.cons.injEq] at htake
      obtain ⟨rfl, htake⟩ := htake
      have hw' : w ∈ after c ws := mem_after.mpr hw
      obtain ⟨n, rfl⟩ : ∃ n', n = n' + 1 := ⟨p.length + k, by rw [hn, List.length_cons]; omega⟩
      rw [List.length_cons] at hn
      rw [walk_succ]
      dsimp only [List.cons_append, List.headD_cons, List.tail_cons]
      have hdir : direction (i + (n + 1) - 1) i c ws = c := direction_of_lt (by omega) (List.ne_nil_of_mem hw')
      rw [hdir, show i + (n + 1) - 1 = i + 1 + n - 1 by omega]
      rintro (⟨rfl, hone⟩ | ⟨-, hlt⟩)
      · cases hone
      · obtain ⟨n, rfl⟩ : ∃ n', n = n' + 1 := ⟨n - 1, by omega⟩
        exact ih (by omega) (hlast.after h c) (h.after c) w hw' htake hlt

end Walk

section InOrder

variable {ws : List (List Bool)} {n k : Nat} {v w : List Bool}

/-- The words of a set, the leaves of its tree from the zeros to the ones. -/
def inOrder : Nat → List (List Bool) → List (List Bool)
  | 0, ws => if ws = [] then [] else [[]]
  | n + 1, ws =>
    if ws = [] then []
    else (inOrder n (after false ws)).map (List.cons false) ++ (inOrder n (after true ws)).map (List.cons true)

theorem inOrder_nil (n : Nat) : inOrder n [] = [] := by
  cases n <;> exact if_pos rfl

theorem inOrder_succ (n : Nat) (ws : List (List Bool)) : inOrder (n + 1) ws =
    (inOrder n (after false ws)).map (List.cons false) ++ (inOrder n (after true ws)).map (List.cons true) := by
  rw [inOrder]
  split
  · rename_i hnil
    subst hnil
    have hafter : ∀ b, after b [] = [] := fun _ => rfl
    rw [hafter, hafter, inOrder_nil]
    rfl
  · rfl

theorem mem_inOrder (h : Uniform n ws) : w ∈ inOrder n ws ↔ w ∈ ws := by
  induction n generalizing ws w with
  | zero =>
    rw [inOrder]
    split
    · rename_i hnil
      rw [hnil]
    · rename_i hne
      obtain ⟨v, hv⟩ := List.exists_mem_of_ne_nil ws hne
      have hvnil := List.length_eq_zero_iff.mp (h v hv)
      subst hvnil
      rw [List.mem_singleton]
      constructor
      · rintro rfl
        exact hv
      · exact fun hw => List.length_eq_zero_iff.mp (h w hw)
  | succ n ih =>
    rw [inOrder_succ, List.mem_append, List.mem_map, List.mem_map]
    constructor
    · rintro (⟨v, hv, rfl⟩ | ⟨v, hv, rfl⟩)
      · exact mem_after.mp ((ih (h.after false)).mp hv)
      · exact mem_after.mp ((ih (h.after true)).mp hv)
    · intro hw
      cases w with
      | nil => cases h [] hw
      | cons b w =>
        have hmem := (ih (h.after b)).mpr (mem_after.mpr hw)
        cases b
        · exact Or.inl ⟨w, hmem, rfl⟩
        · exact Or.inr ⟨w, hmem, rfl⟩

theorem pairwise_inOrder (n : Nat) (ws : List (List Bool)) : (inOrder n ws).Pairwise Before := by
  induction n generalizing ws with
  | zero =>
    rw [inOrder]
    split
    · exact List.Pairwise.nil
    · exact List.pairwise_singleton _ _
  | succ n ih =>
    rw [inOrder_succ, List.pairwise_append]
    refine ⟨List.pairwise_map.mpr ((ih _).imp fun hlt => Or.inr ⟨rfl, hlt⟩),
      List.pairwise_map.mpr ((ih _).imp fun hlt => Or.inr ⟨rfl, hlt⟩), fun v hv w hw => ?_⟩
    obtain ⟨v, -, rfl⟩ := List.mem_map.mp hv
    obtain ⟨w, -, rfl⟩ := List.mem_map.mp hw
    exact Or.inl ⟨rfl, rfl⟩

theorem nodup_inOrder (n : Nat) (ws : List (List Bool)) : (inOrder n ws).Nodup := by
  refine List.Pairwise.imp ?_ (pairwise_inOrder n ws)
  rintro v _ hlt rfl
  exact Before.irrefl v hlt

/-- The words in order are the words of a set that lists none twice. -/
theorem inOrder_perm (h : Uniform n ws) (hnodup : ws.Nodup) : (inOrder n ws).Perm ws :=
  (List.perm_ext_iff_of_nodup (nodup_inOrder n ws) hnodup).mpr fun _ => mem_inOrder h

variable {l : List (List Bool)}

theorem getElem?_zero_of_least (hl : l.Pairwise Before) (hw : w ∈ l) (hleast : ∀ u ∈ l, ¬ Before u w) :
    l[0]? = some w := by
  cases l with
  | nil => cases hw
  | cons x l =>
    rcases List.mem_cons.mp hw with rfl | hw
    · rfl
    · exact absurd ((List.pairwise_cons.mp hl).1 w hw) (hleast x List.mem_cons_self)

theorem getElem?_succ_of_next (hl : l.Pairwise Before) (hv : l[k]? = some v) (hw : w ∈ l) (hlt : Before v w)
    (hnext : ∀ u ∈ l, Before v u → ¬ Before u w) : l[k + 1]? = some w := by
  induction k generalizing l with
  | zero =>
    cases l with
    | nil => cases hv
    | cons x l =>
      cases hv
      obtain ⟨hx, hl⟩ := List.pairwise_cons.mp hl
      rcases List.mem_cons.mp hw with rfl | hw
      · exact absurd hlt (Before.irrefl w)
      · exact getElem?_zero_of_least hl hw fun u hu => hnext u (List.mem_cons_of_mem _ hu) (hx u hu)
  | succ k ih =>
    cases l with
    | nil => cases hv
    | cons x l =>
      obtain ⟨hx, hl⟩ := List.pairwise_cons.mp hl
      have hvmem : v ∈ l := List.mem_of_getElem? hv
      have hw : w ∈ l := by
        rcases List.mem_cons.mp hw with rfl | hw
        · exact absurd (hlt.trans (hx v hvmem)) (Before.irrefl v)
        · exact hw
      exact ih hl hv hw fun u hu => hnext u (List.mem_cons_of_mem _ hu)

/-- In an ordered list the elements with a property that holds between any two of them stand together. -/
theorem exists_block {α : Type} {r : α → α → Prop} {p : α → Bool} {l : List α} (hl : l.Pairwise r)
    (hbetween : ∀ a b c, r a b → r b c → p a = true → p c = true → p b = true) :
    ∃ front back, l = front ++ l.filter p ++ back ∧ ∀ a ∈ front, p a = false := by
  induction l with
  | nil => exact ⟨[], [], rfl, fun _ ha => absurd ha List.not_mem_nil⟩
  | cons a l ih =>
    obtain ⟨ha, hl⟩ := List.pairwise_cons.mp hl
    obtain ⟨front, back, heq, hfront⟩ := ih hl
    cases hp : p a
    · refine ⟨a :: front, back, ?_, List.forall_mem_cons.mpr ⟨hp, hfront⟩⟩
      rw [List.filter_cons_of_neg (by rw [hp]; exact Bool.false_ne_true), List.cons_append, List.cons_append, ← heq]
    · -- what stands before the next element with the property lies between two of them
      rw [List.filter_cons_of_pos hp]
      cases hfilter : l.filter p with
      | nil =>
        exact ⟨[], l, rfl, fun _ ha => absurd ha List.not_mem_nil⟩
      | cons c rest =>
        rw [hfilter] at heq
        have hc : p c = true := (List.mem_filter.mp (hfilter ▸ List.mem_cons_self)).2
        cases front with
        | nil =>
          exact ⟨[], back, congrArg (List.cons a) heq, fun _ ha => absurd ha List.not_mem_nil⟩
        | cons b front =>
          have hb : r a b := ha b (heq ▸ List.mem_cons_self)
          have hbc : r b c := by
            rw [heq] at hl
            exact (List.pairwise_cons.mp hl).1 c (List.mem_append_left _ (List.mem_append_right _ List.mem_cons_self))
          have hpb := hbetween a b c hb hbc hp hc
          rw [hfront b List.mem_cons_self] at hpb
          cases hpb

theorem length_eq_of_last (hl : l.Pairwise Before) (hv : l[k]? = some v) (hlast : ∀ u ∈ l, ¬ Before v u) :
    l.length = k + 1 := by
  obtain ⟨hk, rfl⟩ := List.getElem?_eq_some_iff.mp hv
  by_contra hne
  have hlt : k + 1 < l.length := by omega
  exact hlast _ (List.getElem_mem hlt) (List.pairwise_iff_getElem.mp hl k (k + 1) hk hlt (Nat.lt_succ_self k))

end InOrder

end Branching
