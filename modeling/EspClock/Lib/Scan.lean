import Mathlib.Data.List.Chain
import Mathlib.Logic.Relation

/-!
# Searches along a chain of records

Records that lie one behind another, where only a record itself tells where the next one begins. A search goes
from record to record until it finds one with a property or comes to the end; a chain may lead back to where the
search has been, so it has fuel. What a search comes to along a known part of the chain is decided by the list
of its records. A search that only ever goes upwards ends, with no more fuel than there are addresses.
-/

namespace Chain

variable {ρ : Type}

inductive Search (ρ : Type) where
  | found (r : ρ)
  | ended (i : Nat)
  | lost

/-- The record at an address with the address of the next one, or nothing at the end. -/
abbrev Step (ρ : Type) := Nat → Option (ρ × Nat)

variable (step : Step ρ) (p : ρ → Bool)

def search : Nat → Nat → Search ρ
  | 0, _ => .lost
  | fuel + 1, i =>
    match step i with
    | none => .ended i
    | some (r, next) => if p r then .found r else search fuel next

/-- The records that a search looks at. -/
def visited : Nat → Nat → List ρ
  | 0, _ => []
  | fuel + 1, i =>
    match step i with
    | none => []
    | some (r, next) => if p r then [r] else r :: visited fuel next

/-- The addresses that a search looks at. -/
def offsets : Nat → Nat → List Nat
  | 0, _ => []
  | fuel + 1, i =>
    match step i with
    | none => [i]
    | some (r, next) => if p r then [i] else i :: offsets fuel next

/-- A search goes on from one address to another. -/
def LeadsTo (i j : Nat) : Prop := ∃ r, step i = some (r, j) ∧ ¬ p r = true

/-- From an address on, a search goes upwards only. -/
def Ascends (i : Nat) : Prop := ∀ j k, Relation.ReflTransGen (LeadsTo step p) i j → LeadsTo step p j k → j < k

/-- A chain leads from one address to another over a list of records. -/
inductive Path : Nat → List ρ → Nat → Prop
  | nil (i : Nat) : Path i [] i
  | cons {i j k : Nat} {r : ρ} {rs : List ρ} (hstep : step i = some (r, j)) (hrest : Path j rs k) : Path i (r :: rs) k

variable {step p} {i j k : Nat} {r : ρ} {rs rs' : List ρ}

theorem Path.append (h : Path step i rs j) (h' : Path step j rs' k) : Path step i (rs ++ rs') k := by
  induction h with
  | nil i => exact h'
  | cons hstep _ ih => exact .cons hstep (ih h')

theorem search_end (h : step i = none) (fuel : Nat) : search step p (fuel + 1) i = .ended i := by
  rw [search, h]

theorem search_found {fuel : Nat} (h : search step p fuel i = .found r) : p r = true := by
  induction fuel generalizing i with
  | zero => exact nomatch h
  | succ fuel ih =>
    rw [search] at h
    cases hstep : step i with
    | none =>
      rw [hstep] at h
      exact nomatch h
    | some next =>
      rw [hstep] at h
      dsimp only at h
      split_ifs at h with hnext
      · exact Search.found.inj h ▸ hnext
      · exact ih h

theorem visited_end (h : step i = none) (fuel : Nat) : visited step p fuel i = [] := by
  cases fuel with
  | zero => rfl
  | succ fuel => rw [visited, h]

/-- A search finds the first record of a path that has the property, or goes on behind the path. -/
theorem Path.search_eq (h : Path step i rs k) (fuel : Nat) :
    search step p (rs.length + fuel) i = (rs.find? p).elim (search step p fuel k) .found := by
  induction h with
  | nil i => rw [List.length_nil, Nat.zero_add, List.find?_nil, Option.elim_none]
  | @cons i j k r rs hstep _ ih =>
    rw [List.length_cons, show rs.length + 1 + fuel = rs.length + fuel + 1 by omega, search, hstep]
    dsimp only
    split_ifs with hr
    · rw [List.find?_cons_of_pos hr, Option.elim_some]
    · rw [ih, List.find?_cons_of_neg hr]

/-- It looks at the records up to the first one with the property, or at all of them and those behind. -/
theorem Path.visited_eq_of_none (h : Path step i rs k) (hnone : rs.find? p = none) (fuel : Nat) :
    visited step p (rs.length + fuel) i = rs ++ visited step p fuel k := by
  induction h with
  | nil i => rw [List.length_nil, Nat.zero_add, List.nil_append]
  | @cons i j k r rs hstep _ ih =>
    have hr : ¬ p r = true := by
      intro hr
      rw [List.find?_cons_of_pos hr] at hnone
      exact nomatch hnone
    rw [List.find?_cons_of_neg hr] at hnone
    rw [List.length_cons, show rs.length + 1 + fuel = rs.length + fuel + 1 by omega, visited, hstep]
    dsimp only
    rw [if_neg hr, ih hnone, List.cons_append]

theorem Path.visited_subset (h : Path step i rs k) (hsome : (rs.find? p).isSome) (fuel : Nat) :
    ∀ r ∈ visited step p (rs.length + fuel) i, r ∈ rs := by
  induction h with
  | nil i => exact absurd hsome (by rw [List.find?_nil]; exact Bool.false_ne_true)
  | @cons i j k r rs hstep _ ih =>
    rw [List.length_cons, show rs.length + 1 + fuel = rs.length + fuel + 1 by omega, visited, hstep]
    dsimp only
    split_ifs with hr
    · intro r' hr'
      exact List.mem_singleton.mp hr' ▸ List.mem_cons_self
    · rw [List.find?_cons_of_neg hr] at hsome
      intro r' hr'
      rcases List.mem_cons.mp hr' with rfl | hr'
      · exact List.mem_cons_self
      · exact List.mem_cons_of_mem _ (ih hsome r' hr')

/-! ### Searches that go upwards -/

theorem ended_ne_lost (i : Nat) : (Search.ended i : Search ρ) ≠ .lost := by
  intro h
  cases h

theorem found_ne_lost (r : ρ) : Search.found r ≠ .lost := by
  intro h
  cases h

theorem search_leadsTo (h : LeadsTo step p i j) (fuel : Nat) : search step p (fuel + 1) i = search step p fuel j := by
  obtain ⟨r, hstep, hr⟩ := h
  rw [search, hstep]
  exact if_neg hr

theorem offsets_leadsTo (h : LeadsTo step p i j) (fuel : Nat) : offsets step p (fuel + 1) i = i :: offsets step p fuel j := by
  obtain ⟨r, hstep, hr⟩ := h
  rw [offsets, hstep]
  exact if_neg hr

/-- A search goes on, or it ends where it is. -/
theorem leadsTo_or_ends (step : Step ρ) (p : ρ → Bool) (i : Nat) :
    (∃ j, LeadsTo step p i j) ∨ ∀ fuel, search step p (fuel + 1) i ≠ .lost ∧ offsets step p (fuel + 1) i = [i] := by
  cases hstep : step i with
  | none =>
    refine .inr fun fuel => ?_
    rw [search, offsets, hstep]
    exact ⟨ended_ne_lost i, rfl⟩
  | some next =>
    obtain ⟨r, j⟩ := next
    by_cases hr : p r = true
    · refine .inr fun fuel => ?_
      rw [search, offsets, hstep]
      dsimp only
      rw [if_pos hr, if_pos hr]
      exact ⟨found_ne_lost r, rfl⟩
    · exact .inl ⟨j, r, hstep, hr⟩

theorem offsets_head? (fuel : Nat) : (offsets step p (fuel + 1) i).head? = some i := by
  rcases leadsTo_or_ends step p i with ⟨j, hmoves⟩ | hends
  · rw [offsets_leadsTo hmoves, List.head?_cons]
  · rw [(hends fuel).2, List.head?_cons]

/-- A search that starts on a path to the end of the chain stays on it. -/
theorem Path.of_reaches (h : Path step i rs k) (hend : step k = none)
    (hreach : Relation.ReflTransGen (LeadsTo step p) i j) : ∃ rs', Path step j rs' k ∧ ∀ r ∈ rs', r ∈ rs := by
  induction hreach using Relation.ReflTransGen.head_induction_on generalizing rs with
  | refl => exact ⟨rs, h, fun _ hr => hr⟩
  | head hmoves _ ih =>
    obtain ⟨r, hstep, -⟩ := hmoves
    cases h with
    | nil =>
      rw [hend] at hstep
      cases hstep
    | cons hstep' hrest =>
      obtain ⟨rfl, rfl⟩ := Prod.mk.inj (Option.some.inj (hstep'.symm.trans hstep))
      obtain ⟨rs', hpath, hsub⟩ := ih hrest
      exact ⟨rs', hpath, fun r hr => List.mem_cons_of_mem _ (hsub r hr)⟩

/-- A search that comes back to where it is never ends. -/
theorem search_self (h : LeadsTo step p i i) (fuel : Nat) : search step p fuel i = .lost := by
  induction fuel with
  | zero => rfl
  | succ fuel ih => rw [search_leadsTo h, ih]

namespace Ascends

theorem next (h : Ascends step p i) (hmoves : LeadsTo step p i j) : Ascends step p j :=
  fun a b hreach => h a b (.head hmoves hreach)

theorem isChain (h : Ascends step p i) (fuel : Nat) : (offsets step p fuel i).IsChain (· < ·) := by
  induction fuel generalizing i with
  | zero => exact .nil
  | succ fuel ih =>
    rcases leadsTo_or_ends step p i with ⟨j, hmoves⟩ | hends
    · rw [offsets_leadsTo hmoves, List.isChain_cons]
      refine ⟨fun a ha => ?_, ih (h.next hmoves)⟩
      cases fuel with
      | zero => cases ha
      | succ fuel =>
        rw [offsets_head?] at ha
        exact Option.some.inj ha ▸ h i j .refl hmoves
    · rw [(hends fuel).2]
      exact .singleton i

/-- With more fuel than there are addresses left, the search ends. -/
theorem search_ne_lost {bound : Nat} (h : Ascends step p i) (hbound : ∀ j, bound ≤ j → step j = none) {fuel : Nat}
    (hfuel : bound < i + fuel) (hpos : 0 < fuel) : search step p fuel i ≠ .lost := by
  induction fuel generalizing i with
  | zero => exact absurd hpos (Nat.lt_irrefl 0)
  | succ fuel ih =>
    rcases leadsTo_or_ends step p i with ⟨j, hmoves⟩ | hends
    · have hlt := h i j .refl hmoves
      have hi : i < bound := by
        obtain ⟨r, hstep, -⟩ := hmoves
        by_contra hle
        rw [hbound i (Nat.not_lt.mp hle)] at hstep
        cases hstep
      rw [search_leadsTo hmoves]
      exact ih (h.next hmoves) (by omega) (by omega)
    · exact (hends fuel).1

end Ascends

theorem ascends_of_isChain (h : ∀ fuel, (offsets step p fuel i).IsChain (· < ·)) : Ascends step p i := by
  intro j k hreach hmoves
  induction hreach using Relation.ReflTransGen.head_induction_on with
  | refl =>
    have hchain := h 2
    rw [offsets_leadsTo hmoves, List.isChain_cons] at hchain
    exact hchain.1 k (offsets_head? 0)
  | head hstep _ ih =>
    apply ih
    intro fuel
    have hchain := h (fuel + 1)
    rw [offsets_leadsTo hstep, List.isChain_cons] at hchain
    exact hchain.2

theorem ascends_iff : Ascends step p i ↔ ∀ fuel, (offsets step p fuel i).IsChain (· < ·) :=
  ⟨Ascends.isChain, ascends_of_isChain⟩

end Chain
