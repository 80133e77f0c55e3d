import Mathlib.Data.List.Basic
import Mathlib.Tactic.Linarith

/-!
# Unsigned words and blocks of memory cells

What a program does to memory when all it has is an array and an index: 32-bit subtraction that
wraps, a run of consecutive stores, a forward copy inside one array, the string that starts at a
pointer and ends before the first zero. Cells are kept in a list, so a block that was filled up to
some length reads as the list of what was put in.
-/

namespace Mem

/-! ### Unsigned 32-bit words -/

/-- Reduction of a result to an unsigned 32-bit word. -/
def wrap32 (n : Nat) : Nat := n % 2 ^ 32

/-- Subtraction of unsigned 32-bit words. -/
def sub32 (a b : Nat) : Nat := wrap32 (a + (2 ^ 32 - wrap32 b))

/-- The unsigned 32-bit word a signed integer converts to. -/
def word32 (z : Int) : Nat := (z % 2 ^ 32).toNat

theorem wrap32_of_lt {n : Nat} (h : n < 2 ^ 32) : wrap32 n = n := Nat.mod_eq_of_lt h

theorem wrap32_lt (n : Nat) : wrap32 n < 2 ^ 32 := Nat.mod_lt n (by norm_num)

theorem sub32_of_le {a b : Nat} (hle : b ≤ a) (ha : a < 2 ^ 32) : sub32 a b = a - b := by
  unfold sub32 wrap32
  omega

/-! ### Consecutive stores -/

variable {α : Type}

/-- Stores of the elements of a list in consecutive cells, the first one at index `i`. -/
def store (cells : List α) (i : Nat) : List α → List α
  | [] => cells
  | x :: xs => store (cells.set i x) (i + 1) xs

@[simp] theorem store_nil (cells : List α) (i : Nat) : store cells i [] = cells := rfl

@[simp] theorem length_store (cells : List α) (i : Nat) (xs : List α) :
    (store cells i xs).length = cells.length := by
  induction xs generalizing cells i with
  | nil => rfl
  | cons x xs ih => rw [store, ih, List.length_set]

/-- Stores that stay inside the block replace exactly their own cells. -/
theorem store_eq (cells : List α) (i : Nat) (xs : List α) (room : i + xs.length ≤ cells.length) :
    store cells i xs = cells.take i ++ xs ++ cells.drop (i + xs.length) := by
  induction xs generalizing cells i with
  | nil => simp
  | cons x xs ih =>
    rw [List.length_cons] at room
    have hi : i < cells.length := by omega
    rw [store, ih _ _ (by rw [List.length_set]; omega),
      List.set_eq_take_append_cons_drop, if_pos hi]
    have hlen : (cells.take i).length = i := by rw [List.length_take]; omega
    have htake : (cells.take i ++ x :: cells.drop (i + 1)).take (i + 1) = cells.take i ++ [x] := by
      rw [List.take_append, hlen, List.take_of_length_le (by omega)]
      simp
    have hdrop : (cells.take i ++ x :: cells.drop (i + 1)).drop (i + 1 + xs.length) =
        cells.drop (i + (xs.length + 1)) := by
      rw [List.drop_append, hlen, List.drop_of_length_le (by omega),
        show i + 1 + xs.length - i = xs.length + 1 by omega, List.drop_succ_cons, List.drop_drop,
        List.nil_append]
      congr 1
      omega
    rw [htake, hdrop, List.length_cons]
    simp only [List.append_assoc, List.singleton_append]

theorem take_store_self (cells : List α) (i : Nat) (xs : List α)
    (room : i + xs.length ≤ cells.length) :
    (store cells i xs).take (i + xs.length) = cells.take i ++ xs := by
  have hi : i ≤ cells.length := by omega
  rw [store_eq cells i xs room]
  exact List.take_left' (by simp [hi])

/-! ### Copying inside one block -/

/-- The loop `for (i = 0; i != length; ++i) dest[i] = source[i]` with both pointers in one block. -/
def move [Inhabited α] (cells : List α) (dest source : Nat) : Nat → List α
  | 0 => cells
  | n + 1 =>
    let moved := move cells dest source n
    moved.set (dest + n) (moved.getD (source + n) default)

@[simp] theorem length_move [Inhabited α] (cells : List α) (dest source n : Nat) :
    (move cells dest source n).length = cells.length := by
  induction n with
  | zero => rfl
  | succ n ih => rw [move, List.length_set, ih]

/-- A forward copy to a lower address reads every cell before it is overwritten. -/
theorem move_eq [Inhabited α] (cells : List α) (dest source n : Nat) (hle : dest ≤ source)
    (room : source + n ≤ cells.length) :
    move cells dest source n =
      cells.take dest ++ (cells.drop source).take n ++ cells.drop (dest + n) := by
  induction n with
  | zero => simp [move]
  | succ n ih =>
    have hcell : source + n < cells.length := by omega
    have hlen : (cells.take dest ++ (cells.drop source).take n).length = dest + n := by
      simp only [List.length_append, List.length_take, List.length_drop]
      omega
    have hread : (move cells dest source n).getD (source + n) default = cells.get ⟨source + n, hcell⟩ := by
      rw [ih (by omega), List.getD_eq_getElem?_getD, List.getElem?_append_right (by omega), hlen,
        List.getElem?_drop, show dest + n + (source + n - (dest + n)) = source + n by omega,
        List.getElem?_eq_getElem hcell]
      rfl
    rw [move, hread, ih (by omega), List.set_append_right (h := by omega), hlen, Nat.sub_self]
    have hhead : cells.drop (dest + n) = cells.get ⟨dest + n, by omega⟩ :: cells.drop (dest + (n + 1)) :=
      List.drop_eq_getElem_cons (by omega)
    have htake : (cells.drop source).take (n + 1) =
        (cells.drop source).take n ++ [cells.get ⟨source + n, hcell⟩] := by
      rw [List.take_add_one, List.getElem?_drop, List.getElem?_eq_getElem hcell]
      rfl
    rw [hhead, List.set_cons_zero, htake]
    simp only [List.append_assoc, List.singleton_append]

/-- A cell is closed up by the ones behind it, and the cell that was the last of them is filled. -/
theorem set_move_close [Inhabited α] (front back rest : List α) (x z : α) :
    (move (front ++ x :: (back ++ rest)) front.length (front.length + 1) back.length).set (front.length + back.length) z =
      front ++ back ++ z :: rest := by
  have hbehind : (front ++ x :: (back ++ rest)).drop (front.length + 1) = back ++ rest := by
    rw [← List.drop_drop, List.drop_left, List.drop_succ_cons, List.drop_zero]
  have hlast : ∃ y, (x :: (back ++ rest)).drop back.length = y :: rest := by
    have hne : x :: back ≠ [] := List.cons_ne_nil x back
    have hlength : (x :: back).dropLast.length = back.length := by rw [List.length_dropLast, List.length_cons, Nat.add_sub_cancel]
    have hparts := congrArg (· ++ rest) (List.dropLast_append_getLast hne)
    refine ⟨(x :: back).getLast hne, ?_⟩
    rw [← List.cons_append, ← hparts, List.append_assoc, ← hlength, List.drop_left]
    rfl
  obtain ⟨y, hy⟩ := hlast
  rw [move_eq _ _ _ _ (Nat.le_succ _) (by simp only [List.length_append, List.length_cons]; omega), List.take_left, hbehind,
    List.take_left, ← List.drop_drop, List.drop_left, hy, ← List.length_append, List.set_append_right (h := le_rfl),
    Nat.sub_self, List.set_cons_zero]

theorem take_move_zero [Inhabited α] (cells : List α) (source n : Nat)
    (room : source + n ≤ cells.length) :
    (move cells 0 source n).take n = (cells.drop source).take n := by
  rw [move_eq cells 0 source n (Nat.zero_le _) room, List.take_zero, List.nil_append]
  exact List.take_left' (by rw [List.length_take, List.length_drop]; omega)

/-! ### Strings -/

/-- The bytes from a pointer up to the first zero byte. -/
def cstring (cells : List UInt8) (p : Nat) : List UInt8 := (cells.drop p).takeWhile (· ≠ 0)

theorem cstring_zero_of_append {text rest : List UInt8} (h : 0 ∉ text) :
    cstring (text ++ 0 :: rest) 0 = text := by
  rw [cstring, List.drop_zero, List.takeWhile_append_of_pos]
  · simp
  · intro a ha
    have : a ≠ 0 := fun h0 => h (h0 ▸ ha)
    simpa using this

/-- The string that starts inside of cells that a zero byte follows. -/
theorem cstring_of_terminated {text rest : List UInt8} {p : Nat} (hp : p ≤ text.length) :
    cstring (text ++ 0 :: rest) p = (text.drop p).takeWhile (· ≠ 0) := by
  rw [cstring, List.drop_append_of_le_length hp]
  generalize text.drop p = l
  induction l with
  | nil => rfl
  | cons c cs ih =>
    by_cases hc : c = 0
    · subst hc
      rfl
    · rw [List.cons_append, List.takeWhile_cons_of_pos (by simpa using hc),
        List.takeWhile_cons_of_pos (by simpa using hc), ih]

/-- A string ends at the first zero byte. -/
theorem length_cstring_le {cells : List UInt8} {i : Nat} (h : cells[i]? = some 0) : (cstring cells 0).length ≤ i := by
  rw [cstring, List.drop_zero]
  induction cells generalizing i with
  | nil => exact absurd h (by simp)
  | cons c cells ih =>
    cases i with
    | zero =>
      obtain rfl := Option.some.inj h
      exact (congrArg List.length (List.takeWhile_cons_of_neg (by decide))).le
    | succ i =>
      by_cases hc : c = 0
      · rw [List.takeWhile_cons_of_neg (by simpa using hc)]
        exact Nat.zero_le _
      · rw [List.takeWhile_cons_of_pos (by simpa using hc)]
        exact Nat.succ_le_succ (ih h)

/-! ### Arrays of a fixed size -/

/-- An array of `n` cells. -/
structure Block (α : Type) (n : Nat) where
  cells : List α
  size_eq : cells.length = n

namespace Block

variable {n : Nat}

def get [Inhabited α] (b : Block α n) (i : Nat) : α := b.cells.getD i default

def set (b : Block α n) (i : Nat) (x : α) : Block α n :=
  ⟨b.cells.set i x, by rw [List.length_set, b.size_eq]⟩

def store (b : Block α n) (i : Nat) (xs : List α) : Block α n :=
  ⟨Mem.store b.cells i xs, by rw [length_store, b.size_eq]⟩

def move [Inhabited α] (b : Block α n) (dest source len : Nat) : Block α n :=
  ⟨Mem.move b.cells dest source len, by rw [length_move, b.size_eq]⟩

/-- An array all of whose cells hold the same value. -/
def fill (n : Nat) (x : α) : Block α n := ⟨List.replicate n x, List.length_replicate⟩

/-- The cells below an index. -/
def upTo (b : Block α n) (len : Nat) : List α := b.cells.take len

theorem get_set [Inhabited α] (b : Block α n) {i : Nat} (x : α) (h : i < n) : (b.set i x).get i = x := by
  rw [get, set, List.getD_eq_getElem?_getD, List.getElem?_set_self (by rw [b.size_eq]; exact h)]
  rfl

theorem get_set_ne [Inhabited α] (b : Block α n) {i j : Nat} (x : α) (h : i ≠ j) : (b.set i x).get j = b.get j := by
  rw [get, set, List.getD_eq_getElem?_getD, List.getElem?_set_ne h, ← List.getD_eq_getElem?_getD]
  rfl

theorem upTo_set (b : Block α n) {i len : Nat} (x : α) (h : len ≤ i) : (b.set i x).upTo len = b.upTo len :=
  List.take_set_of_le h

theorem upTo_store (b : Block α n) (i : Nat) (xs : List α) (room : i + xs.length ≤ n) :
    (b.store i xs).upTo (i + xs.length) = b.upTo i ++ xs :=
  take_store_self b.cells i xs (by rw [b.size_eq]; exact room)

theorem upTo_move [Inhabited α] (b : Block α n) (source len : Nat) (room : source + len ≤ n) :
    (b.move 0 source len).upTo len = (b.upTo (source + len)).drop source := by
  rw [upTo, upTo, move, take_move_zero b.cells source len (by rw [b.size_eq]; exact room),
    List.take_drop]

end Block

end Mem
