import Mathlib.Data.List.Basic
import Mathlib.Data.List.Induction

/-!
# A stream cut at every end

A test says of a non-empty sequence whether it is complete. A stream is cut as soon as what stands behind the last cut is
complete, so the pieces depend on the stream only: a receiver that keeps what is behind the last cut may be given the
stream in any parts.
-/

/-- The complete pieces of a stream and what is behind the last cut. -/
structure Cut (α : Type) where
  pieces : List (List α)
  pending : List α

namespace Cut

variable {α : Type} (ends : List α → Bool)

def start : Cut α := ⟨[], []⟩

def next (t : Cut α) (x : α) : Cut α :=
  if ends (t.pending ++ [x]) then ⟨t.pieces ++ [t.pending ++ [x]], []⟩ else ⟨t.pieces, t.pending ++ [x]⟩

def of (xs : List α) : Cut α := xs.foldl (next ends) start

/-- A sequence no proper beginning of which is complete. -/
def Open (xs : List α) : Prop := ∀ p, p <+: xs → p ≠ [] → ends p = false

variable {ends}

theorem next_of_ends {t : Cut α} {x : α} (h : ends (t.pending ++ [x]) = true) :
    t.next ends x = ⟨t.pieces ++ [t.pending ++ [x]], []⟩ := if_pos h

theorem next_of_not_ends {t : Cut α} {x : α} (h : ends (t.pending ++ [x]) = false) :
    t.next ends x = ⟨t.pieces, t.pending ++ [x]⟩ := if_neg (Bool.eq_false_iff.mp h)

theorem of_concat (xs : List α) (x : α) : of ends (xs ++ [x]) = (of ends xs).next ends x := by
  rw [of, List.foldl_append]
  rfl

theorem open_nil : Open ends ([] : List α) := fun _ hp hne => absurd (List.prefix_nil.mp hp) hne

theorem Open.concat {xs : List α} {x : α} (h : Open ends xs) (hx : ends (xs ++ [x]) = false) : Open ends (xs ++ [x]) := by
  intro p hp hne
  obtain rfl | hp := List.prefix_concat_iff.mp hp
  · exact hx
  · exact h p hp hne

/-- What is cut off and what is behind the last cut are the stream. -/
theorem flatten_of (xs : List α) : (of ends xs).pieces.flatten ++ (of ends xs).pending = xs := by
  induction xs using List.reverseRecOn with
  | nil => rfl
  | append_singleton xs x ih =>
    rw [of_concat, next]
    split
    · rw [List.flatten_append, List.flatten_singleton, List.append_nil, ← List.append_assoc, ih]
    · rw [← List.append_assoc, ih]

theorem open_pending (xs : List α) : Open ends (of ends xs).pending := by
  induction xs using List.reverseRecOn with
  | nil => exact open_nil
  | append_singleton xs x ih =>
    rw [of_concat]
    cases hends : ends ((of ends xs).pending ++ [x]) with
    | true =>
      rw [next_of_ends hends]
      exact open_nil
    | false =>
      rw [next_of_not_ends hends]
      exact ih.concat hends

/-- A piece is complete, and nothing in front of its last element is. -/
theorem ends_of_mem_pieces (xs : List α) :
    ∀ f ∈ (of ends xs).pieces, ∃ p x, f = p ++ [x] ∧ ends f = true ∧ Open ends p := by
  induction xs using List.reverseRecOn with
  | nil => exact fun _ hf => absurd hf List.not_mem_nil
  | append_singleton xs x ih =>
    rw [of_concat]
    cases hends : ends ((of ends xs).pending ++ [x]) with
    | true =>
      rw [next_of_ends hends]
      intro f hf
      obtain hf | hf := List.mem_append.mp hf
      · exact ih f hf
      · obtain rfl := List.mem_singleton.mp hf
        exact ⟨_, x, rfl, hends, open_pending xs⟩
    | false =>
      rw [next_of_not_ends hends]
      exact ih

/-- Pieces stay. -/
theorem pieces_prefix_foldl (t : Cut α) (xs : List α) : t.pieces <+: (xs.foldl (next ends) t).pieces := by
  induction xs using List.reverseRecOn with
  | nil => exact List.prefix_rfl
  | append_singleton xs x ih =>
    rw [List.foldl_append, List.foldl_cons, List.foldl_nil]
    refine ih.trans ?_
    rw [next]
    split
    · exact List.prefix_append _ _
    · exact List.prefix_rfl

/-- At some point of the stream a piece is the last one. -/
theorem exists_prefix_of_mem_pieces {t : Cut α} {xs : List α} {f : List α} (hf : f ∈ (xs.foldl (next ends) t).pieces)
    (hnew : f ∉ t.pieces) : ∃ ys front, ys <+: xs ∧ (ys.foldl (next ends) t).pieces = front ++ [f] := by
  induction xs using List.reverseRecOn with
  | nil => exact absurd hf hnew
  | append_singleton xs x ih =>
    have hbefore : f ∈ (xs.foldl (next ends) t).pieces →
        ∃ ys front, ys <+: xs ++ [x] ∧ (ys.foldl (next ends) t).pieces = front ++ [f] := fun hmem => by
      obtain ⟨ys, front, hys, hpieces⟩ := ih hmem
      exact ⟨ys, front, hys.trans (List.prefix_append _ _), hpieces⟩
    rw [List.foldl_append, List.foldl_cons, List.foldl_nil] at hf
    cases hends : ends ((xs.foldl (next ends) t).pending ++ [x]) with
    | true =>
      rw [next_of_ends hends] at hf
      obtain hf | hf := List.mem_append.mp hf
      · exact hbefore hf
      · refine ⟨xs ++ [x], (xs.foldl (next ends) t).pieces, List.prefix_rfl, ?_⟩
        rw [List.foldl_append, List.foldl_cons, List.foldl_nil, next_of_ends hends, List.mem_singleton.mp hf]
    | false =>
      rw [next_of_not_ends hends] at hf
      exact hbefore hf

end Cut
