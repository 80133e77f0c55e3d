import Mathlib.Data.List.Nodup

/-!
# Stores at scattered indices

A sequence of stores to the cells of an array, each at an index of its own. A cell that no store goes to keeps its
value, and when no index comes twice, a cell holds what its one store has put there.
-/

namespace Mem

variable {α : Type}

/-- One store after another. -/
def scatter (cells : List α) : List (Nat × α) → List α
  | [] => cells
  | p :: ps => scatter (cells.set p.1 p.2) ps

@[simp] theorem scatter_nil (cells : List α) : scatter cells [] = cells := rfl

@[simp] theorem scatter_cons (cells : List α) (p : Nat × α) (ps : List (Nat × α)) :
    scatter cells (p :: ps) = scatter (cells.set p.1 p.2) ps := rfl

theorem scatter_append (cells : List α) (ps qs : List (Nat × α)) :
    scatter cells (ps ++ qs) = scatter (scatter cells ps) qs := by
  induction ps generalizing cells with
  | nil => rfl
  | cons p ps ih => exact ih _

@[simp] theorem length_scatter (cells : List α) (ps : List (Nat × α)) :
    (scatter cells ps).length = cells.length := by
  induction ps generalizing cells with
  | nil => rfl
  | cons p ps ih => rw [scatter_cons, ih, List.length_set]

variable {cells : List α} {ps : List (Nat × α)} {i : Nat} {x : α}

/-- A cell that no store goes to. -/
theorem getElem?_scatter_of_ne (h : ∀ p ∈ ps, p.1 ≠ i) : (scatter cells ps)[i]? = cells[i]? := by
  induction ps generalizing cells with
  | nil => rfl
  | cons p ps ih =>
    obtain ⟨hp, hps⟩ := List.forall_mem_cons.mp h
    rw [scatter_cons, ih hps, List.getElem?_set_ne hp]

/-- A cell that one store goes to. -/
theorem getElem?_scatter_of_mem (hnodup : (ps.map Prod.fst).Nodup) (hmem : (i, x) ∈ ps) (hi : i < cells.length) :
    (scatter cells ps)[i]? = some x := by
  induction ps generalizing cells with
  | nil => exact absurd hmem List.not_mem_nil
  | cons p ps ih =>
    rw [List.map_cons, List.nodup_cons] at hnodup
    obtain ⟨hfresh, hnodup⟩ := hnodup
    rw [scatter_cons]
    rcases List.mem_cons.mp hmem with rfl | hmem
    · have hother : ∀ q ∈ ps, q.1 ≠ i := fun q hq heq => hfresh (List.mem_map.mpr ⟨q, hq, heq⟩)
      rw [getElem?_scatter_of_ne hother, List.getElem?_set_self hi]
    · exact ih hnodup hmem (by rwa [List.length_set])

end Mem
