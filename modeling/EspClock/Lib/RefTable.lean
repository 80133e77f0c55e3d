import Mathlib.Data.Fin.Tuple.Basic
import Mathlib.Data.Fintype.Basic
import Mathlib.Data.Finset.Card

/-!
# Tables of references

A registry stores a value in a slot and gives out the slot's number. Slots that were given back form a list, and the one
given back last is used first. A table of fixed size keeps such numbers, or nothing, in its entries.
-/

structure RefTable (α : Type) where
  cells : Nat → Option α
  size : Nat
  free : List Nat

namespace RefTable

variable {α : Type}

def empty : RefTable α := ⟨fun _ => none, 0, []⟩

def ref (t : RefTable α) (x : α) : RefTable α × Nat :=
  match t.free with
  | [] => ({ t with cells := Function.update t.cells (t.size + 1) (some x), size := t.size + 1 }, t.size + 1)
  | r :: free => ({ t with cells := Function.update t.cells r (some x), free := free }, r)

def unref (t : RefTable α) (r : Nat) : RefTable α :=
  { t with cells := Function.update t.cells r none, free := r :: t.free }

/-- Give an old slot back, if there is one, and store a value. -/
def replace (t : RefTable α) (old : Option Nat) (x : α) : RefTable α × Nat :=
  match old with
  | none => t.ref x
  | some r => (t.unref r).ref x

/-- Free slots are listed once, hold nothing, and no slot beyond the size was ever given out. -/
structure Valid (t : RefTable α) : Prop where
  nodup : t.free.Nodup
  free_cells : ∀ r ∈ t.free, t.cells r = none
  free_le : ∀ r ∈ t.free, r ≤ t.size
  beyond : ∀ r, t.size < r → t.cells r = none

theorem valid_empty : (empty : RefTable α).Valid where
  nodup := List.nodup_nil
  free_cells _ _ := rfl
  free_le _ hr := absurd hr List.not_mem_nil
  beyond _ _ := rfl

theorem cells_ref (t : RefTable α) (x : α) :
    (t.ref x).1.cells = Function.update t.cells (t.ref x).2 (some x) := by
  rw [ref]
  split <;> rfl

namespace Valid

variable {t : RefTable α}

theorem ref_fresh (h : t.Valid) (x : α) : t.cells (t.ref x).2 = none := by
  rw [ref]
  split
  next => exact h.beyond _ (Nat.lt_succ_self _)
  next r free hfree => exact h.free_cells r (hfree ▸ List.mem_cons_self)

theorem ref (h : t.Valid) (x : α) : (t.ref x).1.Valid := by
  rw [RefTable.ref]
  split
  next hfree =>
    refine ⟨h.nodup, fun r hr => ?_, fun r hr => ?_, fun r hr => ?_⟩
    · exact absurd (hfree ▸ hr) List.not_mem_nil
    · exact absurd (hfree ▸ hr) List.not_mem_nil
    · have hlt : t.size + 1 < r := hr
      exact (Function.update_of_ne hlt.ne' ..).trans (h.beyond r (by omega))
  next r free hfree =>
    have hnodup : (r :: free).Nodup := hfree ▸ h.nodup
    have hmem : ∀ q ∈ free, q ∈ t.free := fun q hq => hfree ▸ List.mem_cons_of_mem r hq
    refine ⟨hnodup.of_cons, fun q hq => ?_, fun q hq => h.free_le q (hmem q hq), fun q hq => ?_⟩
    · have hne : q ≠ r := fun heq => (List.nodup_cons.mp hnodup).1 (heq ▸ hq)
      exact (Function.update_of_ne hne ..).trans (h.free_cells q (hmem q hq))
    · have hle : r ≤ t.size := h.free_le r (hfree ▸ List.mem_cons_self)
      have hne : q ≠ r := (lt_of_le_of_lt hle hq).ne'
      exact (Function.update_of_ne hne ..).trans (h.beyond q hq)

theorem unref (h : t.Valid) {r : Nat} (hused : t.cells r ≠ none) : (t.unref r).Valid := by
  have hle : r ≤ t.size := not_lt.mp fun hlt => hused (h.beyond r hlt)
  refine ⟨List.nodup_cons.mpr ⟨fun hr => hused (h.free_cells r hr), h.nodup⟩, ?_, ?_, fun q hq => ?_⟩
  · intro q hq
    obtain rfl | hq := List.mem_cons.mp hq
    · exact Function.update_self ..
    · exact (Function.update_apply ..).trans (by rw [h.free_cells q hq, ite_self])
  · exact List.forall_mem_cons.mpr ⟨hle, h.free_le⟩
  · exact (Function.update_apply ..).trans (by rw [h.beyond q hq, ite_self])

end Valid

/-- A value that is stored again at once gets the slot that it had. -/
theorem replace_same {t : RefTable α} {x : α} {r : Nat} (hx : t.cells r = some x) : t.replace (some r) x = (t, r) := by
  have hcells : Function.update (Function.update t.cells r none) r (some x) = t.cells := by
    rw [Function.update_idem, ← hx, Function.update_eq_self]
  rw [replace, ref, unref]
  simp only [hcells]

/-! ### Owners

Each value that is stored belongs to an owner, which keeps the number of its slot. -/

/-- The owners' slots hold their own values. -/
structure Holds (t : RefTable α) (slot : α → Option Nat) : Prop where
  valid : t.Valid
  cells : ∀ x r, slot x = some r → t.cells r = some x

theorem holds_empty : (empty : RefTable α).Holds fun _ => none :=
  ⟨valid_empty, fun _ _ h => nomatch h⟩

namespace Holds

variable {t : RefTable α} {slot : α → Option Nat}

theorem inj (h : t.Holds slot) {x y : α} {r : Nat} (hx : slot x = some r) (hy : slot y = some r) : x = y :=
  Option.some.inj ((h.cells x r hx).symm.trans (h.cells y r hy))

theorem mono (h : t.Holds slot) {slot' : α → Option Nat} (hslot : ∀ x r, slot' x = some r → slot x = some r) :
    t.Holds slot' :=
  ⟨h.valid, fun x r hx => h.cells x r (hslot x r hx)⟩

variable [DecidableEq α]

theorem ref (h : t.Holds slot) (x : α) :
    (t.ref x).1.Holds (Function.update slot x (some (t.ref x).2)) := by
  refine ⟨h.valid.ref x, fun y r hy => ?_⟩
  rw [cells_ref]
  obtain rfl | hne := eq_or_ne y x
  · rw [Function.update_self] at hy
    rw [← Option.some.inj hy, Function.update_self]
  · rw [Function.update_of_ne hne] at hy
    have hcell : t.cells r = some y := h.cells y r hy
    have hfresh : r ≠ (t.ref x).2 := by
      rintro rfl
      exact nomatch (h.valid.ref_fresh x).symm.trans hcell
    rwa [Function.update_of_ne hfresh]

theorem unref (h : t.Holds slot) {x : α} {r : Nat} (hx : slot x = some r) :
    (t.unref r).Holds (Function.update slot x none) := by
  have hused : t.cells r ≠ none := by
    rw [h.cells x r hx]
    exact Option.some_ne_none x
  refine ⟨h.valid.unref hused, fun y q hy => ?_⟩
  obtain rfl | hne := eq_or_ne y x
  · rw [Function.update_self] at hy
    exact nomatch hy
  · rw [Function.update_of_ne hne] at hy
    have hother : q ≠ r := by
      rintro rfl
      exact hne (h.inj hy hx)
    exact (Function.update_of_ne hother ..).trans (h.cells y q hy)

theorem replace (h : t.Holds slot) (x : α) :
    (t.replace (slot x) x).1.Holds (Function.update slot x (some (t.replace (slot x) x).2)) := by
  cases hx : slot x with
  | none => exact h.ref x
  | some r =>
    have href := (h.unref hx).ref x
    rwa [Function.update_idem] at href

end Holds

end RefTable

/-! ### Tables of fixed size -/

namespace Slots

variable {β : Type} {n : Nat}

def occupied (f : Fin n → Option β) : Nat := (Finset.univ.filter fun i => (f i).isSome).card

/-- No two entries are the same. -/
def Distinct (f : Fin n → Option β) : Prop := ∀ i j x, f i = some x → f j = some x → i = j

theorem occupied_update_some {f : Fin n → Option β} {i : Fin n} (hi : f i = none) (x : β) :
    occupied (Function.update f i (some x)) = occupied f + 1 := by
  have hinsert : (Finset.univ.filter fun j => (Function.update f i (some x) j).isSome) =
      insert i (Finset.univ.filter fun j => (f j).isSome) := by
    ext j
    obtain rfl | hne := eq_or_ne j i
    · simp
    · simp [hne]
  rw [occupied, hinsert, Finset.card_insert_of_notMem (by simp [hi]), occupied]

theorem occupied_update_none {f : Fin n → Option β} {i : Fin n} {x : β} (hi : f i = some x) :
    occupied (Function.update f i none) + 1 = occupied f := by
  rw [← occupied_update_some (Function.update_self i none f) x, Function.update_idem, ← hi, Function.update_eq_self]

theorem Distinct.update_some {f : Fin n → Option β} (h : Distinct f) (i : Fin n) {x : β} (hx : ∀ j, f j ≠ some x) :
    Distinct (Function.update f i (some x)) := by
  intro j k y hj hk
  rw [Function.update_apply] at hj hk
  split_ifs at hj hk with hji hki
  · exact hji.trans hki.symm
  · exact absurd (hk.trans hj.symm) (hx k)
  · exact absurd (hj.trans hk.symm) (hx j)
  · exact h j k y hj hk

theorem Distinct.update_none {f : Fin n → Option β} (h : Distinct f) (i : Fin n) :
    Distinct (Function.update f i none) := by
  intro j k y hj hk
  rw [Function.update_apply] at hj hk
  split_ifs at hj hk
  exact h j k y hj hk

end Slots
