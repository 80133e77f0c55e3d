import Mathlib.Data.List.Basic
import Mathlib.Tactic.Linarith

/-!
# NOR flash

A flash memory as its bytes by address. Erasing sets the bytes of a range to `0xFF`; a write can only clear
bits, so what it leaves is the conjunction of the old and the new byte. Bytes that are written to erased memory
read back as they were written, and memory that no write touches stays as it is.
-/

namespace Nor

abbrev Flash := Nat → UInt8

def write (f : Flash) (addr : Nat) (data : List UInt8) : Flash := fun a =>
  if addr ≤ a ∧ a < addr + data.length then f a &&& data.getD (a - addr) 0 else f a

def erase (f : Flash) (lo hi : Nat) : Flash := fun a => if lo ≤ a ∧ a < hi then 0xFF else f a

/-- The bytes that a read returns. -/
def slice (f : Flash) : Nat → Nat → List UInt8
  | _, 0 => []
  | addr, n + 1 => f addr :: slice f (addr + 1) n

def Erased (f : Flash) (lo hi : Nat) : Prop := ∀ a, lo ≤ a → a < hi → f a = 0xFF

/-- Two memories with the same bytes in a range. -/
def AgreeOn (f g : Flash) (lo hi : Nat) : Prop := ∀ a, lo ≤ a → a < hi → f a = g a

variable {f g : Flash} {addr lo hi lo' hi' : Nat} {data : List UInt8}

theorem Erased.mono (h : Erased f lo hi) (hlo : lo ≤ lo') (hhi : hi' ≤ hi) : Erased f lo' hi' :=
  fun a ha ha' => h a (hlo.trans ha) (ha'.trans_le hhi)

theorem AgreeOn.mono (h : AgreeOn f g lo hi) (hlo : lo ≤ lo') (hhi : hi' ≤ hi) : AgreeOn f g lo' hi' :=
  fun a ha ha' => h a (hlo.trans ha) (ha'.trans_le hhi)

theorem AgreeOn.erased (h : AgreeOn f g lo hi) (hf : Erased f lo hi) : Erased g lo hi :=
  fun a ha ha' => (h a ha ha').symm.trans (hf a ha ha')

/-! ### Reads -/

@[simp] theorem slice_zero (f : Flash) (addr : Nat) : slice f addr 0 = [] := rfl

@[simp] theorem slice_succ (f : Flash) (addr n : Nat) :
    slice f addr (n + 1) = f addr :: slice f (addr + 1) n := rfl

@[simp] theorem length_slice (f : Flash) (addr n : Nat) : (slice f addr n).length = n := by
  induction n generalizing addr with
  | zero => rfl
  | succ n ih => rw [slice_succ, List.length_cons, ih]

theorem slice_congr {n : Nat} (h : AgreeOn f g addr (addr + n)) : slice f addr n = slice g addr n := by
  induction n generalizing addr with
  | zero => rfl
  | succ n ih =>
    have hhead : f addr = g addr := h addr le_rfl (by omega)
    have hrest : AgreeOn f g (addr + 1) (addr + 1 + n) := h.mono (by omega) (by omega)
    rw [slice_succ, slice_succ, hhead, ih hrest]

theorem slice_add (f : Flash) (addr m n : Nat) :
    slice f addr (m + n) = slice f addr m ++ slice f (addr + m) n := by
  induction m generalizing addr with
  | zero => simp
  | succ m ih =>
    rw [show m + 1 + n = m + n + 1 by omega, slice_succ, slice_succ, ih, List.cons_append,
      show addr + 1 + m = addr + (m + 1) by omega]

/-- Part of what was read. -/
theorem take_drop_slice (f : Flash) (addr : Nat) {n k m : Nat} (h : k + m ≤ n) :
    ((slice f addr n).drop k).take m = slice f (addr + k) m := by
  obtain ⟨rest, rfl⟩ : ∃ rest, n = k + (m + rest) := ⟨n - (k + m), by omega⟩
  rw [slice_add, slice_add, List.drop_left' (length_slice _ _ _), List.take_left' (length_slice _ _ _)]

theorem slice_of_erased {n : Nat} (h : Erased f addr (addr + n)) : slice f addr n = List.replicate n 0xFF := by
  induction n generalizing addr with
  | zero => rfl
  | succ n ih =>
    rw [slice_succ, h addr le_rfl (by omega), ih (h.mono (by omega) (by omega)), List.replicate_succ]

/-! ### Writes -/

theorem write_of_outside (f : Flash) (data : List UInt8) {a : Nat} (h : a < addr ∨ addr + data.length ≤ a) :
    write f addr data a = f a := by
  refine if_neg ?_
  omega

theorem write_of_inside (f : Flash) {a : Nat} (h : addr ≤ a) (h' : a < addr + data.length) :
    write f addr data a = f a &&& data.getD (a - addr) 0 := if_pos ⟨h, h'⟩

/-- What a write leaves alone. -/
theorem agreeOn_write (f : Flash) (data : List UInt8) (h : hi ≤ addr ∨ addr + data.length ≤ lo) :
    AgreeOn f (write f addr data) lo hi := by
  intro a ha ha'
  rw [write_of_outside f data (by omega)]

theorem write_erased (h : f addr = 0xFF) (hdata : data ≠ []) : write f addr data addr = data.head hdata := by
  have hlength := List.length_pos_iff.mpr hdata
  rw [write_of_inside f le_rfl (Nat.lt_add_of_pos_right hlength), h, Nat.sub_self]
  cases data with
  | nil => exact absurd rfl hdata
  | cons b bs =>
    show 0xFF &&& b = b
    apply UInt8.toBitVec_inj.mp
    rw [UInt8.toBitVec_and]
    exact BitVec.allOnes_and

@[simp] theorem write_nil (f : Flash) (addr : Nat) : write f addr [] = f := by
  funext a
  refine write_of_outside f [] ?_
  rw [List.length_nil]
  omega

/-- A write one byte after the other. -/
theorem write_cons (f : Flash) (addr : Nat) (b : UInt8) (bs : List UInt8) :
    write f addr (b :: bs) = write (write f addr [b]) (addr + 1) bs := by
  funext a
  by_cases hhead : a = addr
  · subst hhead
    rw [write_of_outside (write f a [b]) bs (.inl (Nat.lt_succ_self a)),
      write_of_inside f le_rfl (by rw [List.length_cons]; omega),
      write_of_inside f le_rfl (by rw [List.length_singleton]; omega), Nat.sub_self]
    rfl
  · have hsingle : write f addr [b] a = f a :=
      write_of_outside f [b] (by rw [List.length_singleton]; omega)
    by_cases hinside : addr + 1 ≤ a ∧ a < addr + 1 + bs.length
    · have hsub : a - addr = a - (addr + 1) + 1 := by omega
      rw [write_of_inside f (by omega) (by rw [List.length_cons]; omega),
        write_of_inside _ hinside.1 hinside.2, hsingle, hsub, List.getD_cons_succ]
    · rw [write_of_outside f (b :: bs) (by rw [List.length_cons]; omega),
        write_of_outside _ bs (by omega), hsingle]

theorem write_append (f : Flash) (addr : Nat) (xs ys : List UInt8) :
    write f addr (xs ++ ys) = write (write f addr xs) (addr + xs.length) ys := by
  induction xs generalizing f addr with
  | nil => rw [List.nil_append, write_nil, List.length_nil, Nat.add_zero]
  | cons b bs ih =>
    rw [List.cons_append, write_cons, ih, write_cons f addr b bs, List.length_cons,
      show addr + 1 + bs.length = addr + (bs.length + 1) by omega]

/-- What is written back as it was read clears no bit. -/
theorem write_slice_self (f : Flash) (addr n : Nat) : write f addr (slice f addr n) = f := by
  induction n generalizing addr with
  | zero => rw [slice_zero, write_nil]
  | succ n ih =>
    have hhead : write f addr [f addr] = f := by
      funext a
      by_cases ha : a = addr
      · subst ha
        rw [write_of_inside f le_rfl (by rw [List.length_singleton]; omega), Nat.sub_self]
        exact UInt8.and_self
      · exact write_of_outside f _ (by rw [List.length_singleton]; omega)
    rw [slice_succ, write_cons, hhead, ih]

/-- Bytes in the middle of what was read are the only ones that a write changes. -/
theorem write_between (f : Flash) (addr m n : Nat) (data : List UInt8) :
    write f addr (slice f addr m ++ data ++ slice f (addr + m + data.length) n) = write f (addr + m) data := by
  have hbehind : slice f (addr + m + data.length) n = slice (write f (addr + m) data) (addr + m + data.length) n :=
    slice_congr (agreeOn_write f data (.inr le_rfl))
  rw [List.append_assoc, write_append, write_slice_self, length_slice, write_append, hbehind, write_slice_self]

/-- Bytes written to erased memory read back as written. -/
theorem slice_write (h : Erased f addr (addr + data.length)) :
    slice (write f addr data) addr data.length = data := by
  induction data generalizing f addr with
  | nil => rfl
  | cons b bs ih =>
    rw [List.length_cons] at h
    have hhead : write f addr [b] addr = b := write_erased (h addr le_rfl (by omega)) (List.cons_ne_nil b [])
    have hrest : Erased (write f addr [b]) (addr + 1) (addr + 1 + bs.length) :=
      (agreeOn_write f [b] (.inr (by rw [List.length_singleton]))).erased (h.mono (by omega) (by omega))
    rw [write_cons, List.length_cons, slice_succ, ih hrest,
      write_of_outside (write f addr [b]) bs (.inl (Nat.lt_succ_self addr)), hhead]

end Nor
