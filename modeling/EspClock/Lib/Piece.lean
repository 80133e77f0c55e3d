import Mathlib.Data.List.Basic

/-!
# The first piece of a list

A piece reaches to the first element that ends it, that element included, to a greatest length, or to the end of the list,
whichever comes first.
-/

namespace List

variable {α : Type} (ends : α → Bool)

/-- The first piece of a list and what is behind it; a piece has room for one element more than `room`. -/
def splitPiece : Nat → List α → List α × List α
  | _, [] => ([], [])
  | 0, x :: xs => ([x], xs)
  | room + 1, x :: xs => if ends x then ([x], xs) else (x :: (splitPiece room xs).1, (splitPiece room xs).2)

theorem splitPiece_append (room : Nat) (xs : List α) : (splitPiece ends room xs).1 ++ (splitPiece ends room xs).2 = xs := by
  induction xs generalizing room with
  | nil => cases room <;> rfl
  | cons x xs ih =>
    cases room with
    | zero => rfl
    | succ room =>
      rw [splitPiece]
      split_ifs
      · rfl
      · exact congrArg (x :: ·) (ih room)

theorem splitPiece_ne_nil (room : Nat) {xs : List α} (hne : xs ≠ []) : (splitPiece ends room xs).1 ≠ [] := by
  obtain ⟨x, xs, rfl⟩ := List.exists_cons_of_ne_nil hne
  cases room with
  | zero => exact List.cons_ne_nil x []
  | succ room =>
    rw [splitPiece]
    split_ifs
    · exact List.cons_ne_nil x []
    · exact List.cons_ne_nil x _

theorem length_splitPiece_lt (room : Nat) {xs : List α} (hne : xs ≠ []) : (splitPiece ends room xs).2.length < xs.length := by
  have hlength := congrArg List.length (splitPiece_append ends room xs)
  have hpos := List.length_pos_iff.mpr (splitPiece_ne_nil ends room hne)
  rw [List.length_append] at hlength
  omega

/-- Nothing in front of the last element of a piece ends it. -/
theorem not_ends_of_mem_dropLast (room : Nat) (xs : List α) :
    ∀ x ∈ (splitPiece ends room xs).1.dropLast, ends x = false := by
  induction xs generalizing room with
  | nil => cases room <;> exact fun _ hx => absurd hx List.not_mem_nil
  | cons x xs ih =>
    cases room with
    | zero => exact fun _ hx => absurd hx List.not_mem_nil
    | succ room =>
      rw [splitPiece]
      split_ifs with hends
      · exact fun _ hx => absurd hx List.not_mem_nil
      · by_cases hnil : (splitPiece ends room xs).1 = []
        · rw [hnil]
          exact fun _ hx => absurd hx List.not_mem_nil
        · rw [List.dropLast_cons_of_ne_nil hnil]
          exact List.forall_mem_cons.mpr ⟨Bool.eq_false_iff.mpr hends, ih room⟩

/-- A piece ends with an element that ends it, or is full, or nothing is behind it. -/
theorem splitPiece_end (room : Nat) (xs : List α) :
    (∃ x ∈ (splitPiece ends room xs).1.getLast?, ends x = true) ∨ (splitPiece ends room xs).1.length = room + 1 ∨
      (splitPiece ends room xs).2 = [] := by
  induction xs generalizing room with
  | nil => cases room <;> exact Or.inr (Or.inr rfl)
  | cons x xs ih =>
    cases room with
    | zero => exact Or.inr (Or.inl rfl)
    | succ room =>
      rw [splitPiece]
      split_ifs with hends
      · exact Or.inl ⟨x, rfl, hends⟩
      · obtain ⟨y, hy, hends⟩ | hfull | hlast := ih room
        · refine Or.inl ⟨y, ?_, hends⟩
          have hnil : (splitPiece ends room xs).1 ≠ [] := List.ne_nil_of_mem (List.mem_of_getLast? hy)
          show (x :: (splitPiece ends room xs).1).getLast? = some y
          rw [List.getLast?_cons, hy]
          rfl
        · exact Or.inr (Or.inl (congrArg (· + 1) hfull))
        · exact Or.inr (Or.inr hlast)

end List
