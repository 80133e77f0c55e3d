import Mathlib.Data.List.Basic

/-!
# Computations that read an array

A computation that is given an array gives a result and the indices it has read, in order. Two facts
about such a computation are kept apart: its result, which depends on the cells, and the bounds of its
indices.
-/

namespace Mem

/-- A computation that reads cells of an array: its result and the indices that it reads. -/
def Reads (β α : Type) : Type := List β → α × List Nat

namespace Reads

variable {β α γ : Type}

instance : Monad (Reads β) where
  pure a := fun _ => (a, [])
  bind m f := fun cells => (((f (m cells).1) cells).1, (m cells).2 ++ ((f (m cells).1) cells).2)

/-- The cell at an index. -/
def cell [Inhabited β] (i : Nat) : Reads β β := fun cells => (cells.getD i default, [i])

/-- The cells from an index on. -/
def slice (i n : Nat) : Reads β (List β) := fun cells => ((cells.drop i).take n, (List.range n).map (i + ·))

def value (m : Reads β α) (cells : List β) : α := (m cells).1

def indices (m : Reads β α) (cells : List β) : List Nat := (m cells).2

variable (cells : List β)

@[simp] theorem value_pure (a : α) : (pure a : Reads β α).value cells = a := rfl

@[simp] theorem value_bind (m : Reads β α) (f : α → Reads β γ) :
    (m >>= f).value cells = (f (m.value cells)).value cells := rfl

@[simp] theorem value_cell [Inhabited β] (i : Nat) : (cell i).value cells = cells.getD i default := rfl

@[simp] theorem value_slice (i n : Nat) : (slice i n).value cells = (cells.drop i).take n := rfl

@[simp] theorem value_ite (p : Prop) [Decidable p] (m m' : Reads β α) :
    (if p then m else m').value cells = if p then m.value cells else m'.value cells := by
  split_ifs <;> rfl

/-! ### Bounds -/

/-- Every index that is read lies below a bound. -/
def Below (n : Nat) (m : Reads β α) (cells : List β) : Prop := ∀ i ∈ m.indices cells, i < n

variable {cells} {n : Nat}

theorem below_pure (a : α) : Below n (pure a) cells := fun _ hi => absurd hi List.not_mem_nil

theorem below_bind {m : Reads β α} {f : α → Reads β γ} (hm : m.Below n cells)
    (hf : (f (m.value cells)).Below n cells) : (m >>= f).Below n cells := by
  intro i hi
  rcases List.mem_append.mp hi with hi | hi
  · exact hm i hi
  · exact hf i hi

theorem below_cell [Inhabited β] {i : Nat} (hi : i < n) : (cell i).Below n cells := by
  intro j hj
  rw [List.mem_singleton.mp hj]
  exact hi

theorem below_slice {i k : Nat} (h : i + k ≤ n) : (slice i k).Below n cells := by
  intro j hj
  obtain ⟨l, hl, rfl⟩ := List.mem_map.mp hj
  have hlt := List.mem_range.mp hl
  omega

theorem below_ite {p : Prop} [Decidable p] {m m' : Reads β α} (hm : p → m.Below n cells)
    (hm' : ¬ p → m'.Below n cells) : (if p then m else m').Below n cells := by
  split_ifs with h
  · exact hm h
  · exact hm' h

/-- A guard that gives up reads nothing. -/
theorem below_guard {p : Prop} [Decidable p] {a : α} {m : Reads β α} (hm : ¬ p → m.Below n cells) :
    (if p then pure a else m).Below n cells := below_ite (fun _ => below_pure a) hm

theorem below_unless {p : Prop} [Decidable p] {a : α} {m : Reads β α} (hm : p → m.Below n cells) :
    (if p then m else pure a).Below n cells := below_ite hm fun _ => below_pure a

end Reads

end Mem
