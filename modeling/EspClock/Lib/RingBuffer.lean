import Mathlib.Algebra.Group.Fin.Basic
import Mathlib.Logic.Function.Basic

/-!
# Ring buffers

A ring of `n + 1` cells with a position to write at and a position to read at, empty when both are the same. It holds
`n` elements: one more pushes the oldest one out.
-/

/-- The queue a ring implements: an element that does not fit pushes the oldest one out. -/
def pushLossy {α : Type} (n : Nat) (queue : List α) (x : α) : List α :=
  if queue.length < n then queue ++ [x] else (queue ++ [x]).tail

theorem pushLossy_full {α : Type} {n : Nat} {queue : List α} (hn : 0 < n) (hfull : queue.length = n) (x : α) :
    pushLossy n queue x = queue.tail ++ [x] := by
  rw [pushLossy, if_neg hfull.ge.not_gt]
  exact List.tail_append_of_ne_nil (List.ne_nil_of_length_pos (hfull ▸ hn))

theorem pushLossy_ne_nil {α : Type} {n : Nat} (hn : 0 < n) (queue : List α) (x : α) : pushLossy n queue x ≠ [] := by
  rw [pushLossy]
  split_ifs with hroom
  · exact List.append_ne_nil_of_right_ne_nil queue (List.cons_ne_nil x [])
  · have hne : queue ≠ [] := List.ne_nil_of_length_pos (hn.trans_le (not_lt.mp hroom))
    rw [List.tail_append_of_ne_nil hne]
    exact List.append_ne_nil_of_right_ne_nil _ (List.cons_ne_nil x [])

structure RingBuffer (α : Type) (n : Nat) where
  cells : Fin (n + 1) → α
  write : Fin (n + 1)
  read : Fin (n + 1)

namespace RingBuffer

variable {α : Type} {n : Nat}

/-- The next position, which is the first one behind the last. -/
def advance (p : Fin (n + 1)) : Fin (n + 1) := if p = Fin.last n then 0 else p + 1

def push (r : RingBuffer α n) (x : α) : RingBuffer α n :=
  let write := advance r.write
  { cells := Function.update r.cells r.write x
    write := write
    read := if write = r.read then advance r.read else r.read }

def pop (r : RingBuffer α n) : α × RingBuffer α n := (r.cells r.read, { r with read := advance r.read })

/-- The elements from the position to read at to the one to write at. -/
def contents (r : RingBuffer α n) : List α :=
  (List.range (r.write - r.read).val).map fun i => r.cells (r.read + Fin.ofNat (n + 1) i)

@[simp] theorem advance_eq (p : Fin (n + 1)) : advance p = p + 1 := by
  unfold advance
  split_ifs with hlast
  · rw [hlast, Fin.last_add_one]
  · rfl

@[simp] theorem length_contents (r : RingBuffer α n) : r.contents.length = (r.write - r.read).val := by
  rw [contents, List.length_map, List.length_range]

theorem length_contents_le (r : RingBuffer α n) : r.contents.length ≤ n := by
  rw [length_contents]
  exact Fin.is_le _

theorem contents_eq_nil (r : RingBuffer α n) : r.contents = [] ↔ r.write = r.read := by
  rw [← List.length_eq_zero_iff, length_contents, Fin.val_eq_zero_iff, sub_eq_zero]

/-! ### Pushing -/

theorem val_add_one_of_lt {d : Fin (n + 1)} (hd : d.val < n) : (d + 1).val = d.val + 1 :=
  Fin.val_add_one_of_lt (Fin.lt_def.mpr hd)

theorem ofNat_val (d : Fin (n + 1)) : Fin.ofNat (n + 1) d.val = d := Fin.ofNat_val_eq_self d

/-- The cell that is written is not one of those in front of it. -/
theorem update_of_lt (r : RingBuffer α n) (x : α) {i : Nat} (hi : i < (r.write - r.read).val) :
    Function.update r.cells r.write x (r.read + Fin.ofNat (n + 1) i) = r.cells (r.read + Fin.ofNat (n + 1) i) := by
  apply Function.update_of_ne
  intro heq
  have hoffset : Fin.ofNat (n + 1) i = r.write - r.read := eq_sub_of_add_eq' heq
  have hval : (Fin.ofNat (n + 1) i).val = i := Nat.mod_eq_of_lt (hi.trans (r.write - r.read).isLt)
  rw [← hoffset, hval] at hi
  exact lt_irrefl i hi

/-- The element that is written comes behind those in front of it. -/
theorem map_update (r : RingBuffer α n) (x : α) :
    ((List.range ((r.write - r.read).val + 1)).map fun i =>
      Function.update r.cells r.write x (r.read + Fin.ofNat (n + 1) i)) = r.contents ++ [x] := by
  rw [List.range_succ, List.map_append, List.map_singleton, ofNat_val, add_sub_cancel, Function.update_self, contents]
  congr 1
  apply List.map_congr_left
  intro i hi
  exact update_of_lt r x (List.mem_range.mp hi)

/-- The positions meet behind a full ring only. -/
theorem write_add_one_eq_read_iff (r : RingBuffer α n) : r.write + 1 = r.read ↔ (r.write - r.read).val = n := by
  constructor
  · intro heq
    have hlast : r.write - r.read = Fin.last n := by
      apply add_right_cancel (b := 1)
      rw [Fin.last_add_one, ← heq, sub_add_cancel_left, neg_add_cancel]
    rw [hlast, Fin.val_last]
  · intro hval
    have hlast : r.write - r.read = Fin.last n := Fin.ext hval
    rw [← sub_eq_zero, add_sub_right_comm, hlast, Fin.last_add_one]

theorem ofNat_succ (i : Nat) : Fin.ofNat (n + 1) (i + 1) = 1 + Fin.ofNat (n + 1) i := by
  apply Fin.ext
  rw [Nat.add_comm i 1]
  show (1 + i) % (n + 1) = (1 % (n + 1) + i % (n + 1)) % (n + 1)
  exact Nat.add_mod 1 i (n + 1)

/-- The elements from the position behind the one to read at. -/
theorem map_succ (cells : Fin (n + 1) → α) (read : Fin (n + 1)) (count : Nat) :
    ((List.range (count + 1)).map fun i => cells (read + Fin.ofNat (n + 1) i)) =
      cells read :: (List.range count).map fun i => cells (read + 1 + Fin.ofNat (n + 1) i) := by
  rw [List.range_succ_eq_map, List.map_cons, List.map_map]
  congr 1
  · exact congrArg cells (add_zero read)
  · apply List.map_congr_left
    intro i _
    show cells (read + Fin.ofNat (n + 1) (i + 1)) = _
    rw [ofNat_succ, add_assoc]

theorem contents_push (r : RingBuffer α n) (x : α) : (r.push x).contents = pushLossy n r.contents x := by
  rw [pushLossy, ← map_update, length_contents]
  have hwrite : (r.push x).write = r.write + 1 := advance_eq _
  have hcells : (r.push x).cells = Function.update r.cells r.write x := rfl
  split_ifs with hroom
  · have hread : (r.push x).read = r.read := by
      apply if_neg
      rw [advance_eq, write_add_one_eq_read_iff]
      exact hroom.ne
    rw [contents, hwrite, hread, hcells, add_sub_right_comm, val_add_one_of_lt hroom]
  · have hread : (r.push x).read = r.read + 1 := by
      rw [← advance_eq r.read]
      apply if_pos
      rw [advance_eq, write_add_one_eq_read_iff]
      exact le_antisymm (Fin.is_le _) (not_lt.mp hroom)
    rw [contents, hwrite, hread, hcells, add_sub_add_right_eq_sub, map_succ, List.tail_cons]

/-! ### Reading -/

theorem contents_pop (r : RingBuffer α n) (h : r.contents ≠ []) : r.contents = r.pop.1 :: r.pop.2.contents := by
  have hpos : (r.write - r.read).val ≠ 0 := by
    rw [← length_contents]
    exact fun hzero => h (List.eq_nil_of_length_eq_zero hzero)
  obtain ⟨count, hcount⟩ := Nat.exists_eq_succ_of_ne_zero hpos
  have hread : r.pop.2.read = r.read + 1 := advance_eq _
  have hrest : (r.write - (r.read + 1)).val = count := by
    have hne : r.write - r.read ≠ 0 := fun hzero => hpos (congrArg Fin.val hzero)
    rw [← sub_sub, Fin.coe_sub_one, if_neg hne, hcount]
    rfl
  show _ = r.cells r.read :: (List.range (r.write - r.pop.2.read).val).map fun i => r.cells (r.pop.2.read + _)
  rw [contents, hcount, map_succ, hread, hrest]

end RingBuffer
