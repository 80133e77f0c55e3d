import EspClock.Pwm.Schedule
import Mathlib.Algebra.BigOperators.Group.List.Basic
import Mathlib.Algebra.Order.Field.Basic
import Mathlib.Data.List.Infix

/-!
# The steps of a schedule

What the steps of `pwm_start` make of the entries: the sort puts them in the order of their times, the combination leaves
one entry for each time with the bits of all the entries that had it, and the differences of the times add up to the
period. The schedule is the list of differences behind an entry for the start of the period, which is the first entry
if that one takes no time.
-/

namespace EspClock.Pwm

/-! ### Timer ticks -/

/-- Five ticks of the timer are a microsecond. -/
theorem usToRtcTimerTicks_toNat {t : UInt32} (ht : t.toNat ≤ 1000000) : (usToRtcTimerTicks t).toNat = 5 * t.toNat := by
  rw [usToRtcTimerTicks]
  split_ifs with hzero hlarge
  · rw [hzero]
    rfl
  · have hshift : (t >>> 2).toNat = t.toNat / 4 := by
      rw [UInt32.toNat_shiftRight]
      exact Nat.shiftRight_eq_div_pow t.toNat 2
    have hmask : (t &&& 3).toNat = t.toNat % 4 := by
      rw [UInt32.toNat_and]
      exact Nat.and_two_pow_sub_one_eq_mod t.toNat 2
    rw [UInt32.toNat_add, UInt32.toNat_mul, UInt32.toNat_mul, hshift, hmask]
    show (t.toNat / 4 * 20 % 2 ^ 32 + t.toNat % 4 * 5 % 2 ^ 32) % 2 ^ 32 = 5 * t.toNat
    omega
  · have hle : t.toNat ≤ 858 := UInt32.le_iff_toNat_le.mp (UInt32.not_lt.mp hlarge)
    rw [UInt32.toNat_div, UInt32.toNat_mul]
    show t.toNat * 5000000 % 2 ^ 32 / 1000000 = 5 * t.toNat
    omega

/-! ### The sort -/

theorem insertEntry_perm (sorted : List SingleParam) (e : SingleParam) : (insertEntry sorted e).Perm (e :: sorted) := by
  rw [insertEntry]
  refine List.perm_middle.trans ?_
  rw [List.rdropWhile_append_rtakeWhile]

theorem insertEntry_sorted {sorted : List SingleParam} (h : sorted.Pairwise (·.hTime ≤ ·.hTime)) (e : SingleParam) :
    (insertEntry sorted e).Pairwise (·.hTime ≤ ·.hTime) := by
  have hparts := List.rdropWhile_append_rtakeWhile (l := sorted) (p := fun (x : SingleParam) => decide (e.hTime < x.hTime))
  rw [← hparts, List.pairwise_append] at h
  obtain ⟨hfront, hback, hacross⟩ := h
  have hlarge : ∀ x ∈ sorted.rtakeWhile (e.hTime < ·.hTime), e.hTime < x.hTime := fun x hx =>
    of_decide_eq_true (List.mem_rtakeWhile_imp (p := fun (x : SingleParam) => decide (e.hTime < x.hTime)) hx)
  have hsmall : ∀ x ∈ sorted.rdropWhile (e.hTime < ·.hTime), x.hTime ≤ e.hTime := by
    intro x hx
    have hne := List.ne_nil_of_mem hx
    have hlast := UInt32.not_lt.mp fun hlt =>
      List.rdropWhile_last_not (fun x => decide (e.hTime < x.hTime)) sorted hne (decide_eq_true hlt)
    rw [← List.dropLast_append_getLast hne] at hfront hx
    obtain hx | hx := List.mem_append.mp hx
    · exact UInt32.le_trans ((List.pairwise_append.mp hfront).2.2 x hx _ (List.mem_singleton_self _)) hlast
    · exact List.mem_singleton.mp hx ▸ hlast
  refine List.pairwise_append.mpr ⟨hfront, List.pairwise_cons.mpr ⟨fun x hx => UInt32.le_of_lt (hlarge x hx), hback⟩, ?_⟩
  intro x hx y hy
  obtain rfl | hy := List.mem_cons.mp hy
  · exact hsmall x hx
  · exact hacross x hx y hy

theorem pwmInsertSort_perm (entries : List SingleParam) : (pwmInsertSort entries).Perm entries := by
  have hfold : ∀ sorted, (entries.foldl insertEntry sorted).Perm (sorted ++ entries) := by
    induction entries with
    | nil =>
      intro sorted
      rw [List.append_nil]
      rfl
    | cons e entries ih =>
      intro sorted
      refine (ih (insertEntry sorted e)).trans ?_
      refine ((insertEntry_perm sorted e).append_right entries).trans ?_
      exact List.perm_middle.symm
  exact hfold []

theorem pwmInsertSort_sorted (entries : List SingleParam) :
    (pwmInsertSort entries).Pairwise (·.hTime ≤ ·.hTime) := by
  have hfold : ∀ sorted, sorted.Pairwise (·.hTime ≤ ·.hTime) →
      (entries.foldl insertEntry sorted).Pairwise (·.hTime ≤ ·.hTime) := by
    induction entries with
    | nil => exact fun _ h => h
    | cons e entries ih => exact fun sorted h => ih _ (insertEntry_sorted h e)
  exact hfold [] List.Pairwise.nil

/-! ### Combination -/

/-- Whether a register value has the bit of a pin. -/
def drives (register : UInt16) (pin : Nat) : Bool := register.toBitVec.getLsbD (pinNum pin)

@[simp] theorem drives_zero (pin : Nat) : drives 0 pin = false := BitVec.getLsbD_zero

@[simp] theorem drives_or (x y : UInt16) (pin : Nat) : drives (x ||| y) pin = (drives x pin || drives y pin) :=
  BitVec.getLsbD_or

/-- The register value `mask` of an entry at a time has the bit of a pin. -/
def DrivenAt (mask : SingleParam → UInt16) (entries : List SingleParam) (time : UInt32) (pin : Nat) : Prop :=
  ∃ e ∈ entries, e.hTime = time ∧ drives (mask e) pin = true

theorem drivenAt_cons (mask : SingleParam → UInt16) (e : SingleParam) (entries : List SingleParam) (time : UInt32) (pin : Nat) :
    DrivenAt mask (e :: entries) time pin ↔ e.hTime = time ∧ drives (mask e) pin = true ∨ DrivenAt mask entries time pin := by
  rw [DrivenAt, List.exists_mem_cons_iff]
  rfl

/-- An entry with the bits of two. -/
def SingleParam.merge (e next : SingleParam) : SingleParam :=
  { e with gpioSet := e.gpioSet ||| next.gpioSet, gpioClear := e.gpioClear ||| next.gpioClear }

theorem combine_cons (e : SingleParam) (rest : List SingleParam) :
    combine (e :: rest) = match combine rest with
      | [] => [e]
      | next :: others => if next.hTime = e.hTime then e.merge next :: others else e :: next :: others := rfl

/-- The combination keeps the bits of every time. -/
theorem combine_drivenAt {mask : SingleParam → UInt16} (hmask : ∀ e next, mask (e.merge next) = mask e ||| mask next)
    (entries : List SingleParam) (time : UInt32) (pin : Nat) :
    DrivenAt mask (combine entries) time pin ↔ DrivenAt mask entries time pin := by
  induction entries with
  | nil => rfl
  | cons e rest ih =>
    rw [combine_cons, drivenAt_cons, ← ih]
    cases combine rest with
    | nil => exact drivenAt_cons mask e [] time pin
    | cons next others =>
      dsimp only
      split_ifs with heq
      · rw [drivenAt_cons, drivenAt_cons, hmask, drives_or, Bool.or_eq_true, heq, ← or_assoc, ← and_or_left]
        rfl
      · exact drivenAt_cons mask e _ time pin

/-- The times of the combination are those of the entries. -/
theorem combine_times (entries : List SingleParam) (time : UInt32) :
    time ∈ (combine entries).map SingleParam.hTime ↔ time ∈ entries.map SingleParam.hTime := by
  induction entries with
  | nil => rfl
  | cons e rest ih =>
    rw [combine_cons, List.map_cons, List.mem_cons, ← ih]
    cases combine rest with
    | nil => exact List.mem_cons
    | cons next others =>
      dsimp only
      split_ifs with heq
      · rw [List.map_cons, List.map_cons, List.mem_cons, List.mem_cons, heq, ← or_assoc, or_self]
        rfl
      · exact List.mem_cons

/-- Sorted entries leave every time once. -/
theorem combine_sorted {entries : List SingleParam} (h : entries.Pairwise (·.hTime ≤ ·.hTime)) :
    (combine entries).Pairwise (·.hTime < ·.hTime) := by
  induction entries with
  | nil => exact List.Pairwise.nil
  | cons e rest ih =>
    obtain ⟨hle, hrest⟩ := List.pairwise_cons.mp h
    have hsorted := ih hrest
    have hbound : ∀ x ∈ combine rest, e.hTime ≤ x.hTime := by
      intro x hx
      obtain ⟨y, hy, heq⟩ := List.mem_map.mp ((combine_times rest x.hTime).mp (List.mem_map_of_mem hx))
      exact heq ▸ hle y hy
    rw [combine_cons]
    cases hcombine : combine rest with
    | nil => exact List.pairwise_singleton _ e
    | cons next others =>
      rw [hcombine] at hsorted hbound
      obtain ⟨hnext, hothers⟩ := List.pairwise_cons.mp hsorted
      dsimp only
      split_ifs with heq
      · exact List.pairwise_cons.mpr ⟨fun x hx => heq ▸ hnext x hx, hothers⟩
      · have hlt : e.hTime < next.hTime := UInt32.lt_of_le_of_ne (hbound next List.mem_cons_self) (Ne.symm heq)
        refine List.pairwise_cons.mpr ⟨fun x hx => ?_, hsorted⟩
        obtain rfl | hx := List.mem_cons.mp hx
        · exact hlt
        · exact UInt32.lt_trans hlt (hnext x hx)

/-! ### Differences -/

/-- The entries behind one, each with the time since the entry before. -/
def relative (before : SingleParam) (rest : List SingleParam) : List SingleParam :=
  List.zipWith (fun before e => { e with hTime := e.hTime - before.hTime }) (before :: rest) rest

theorem relative_cons (before e : SingleParam) (rest : List SingleParam) :
    relative before (e :: rest) = { e with hTime := e.hTime - before.hTime } :: relative e rest := rfl

theorem deltas_cons (e : SingleParam) (rest : List SingleParam) : deltas (e :: rest) = e :: relative e rest := rfl

@[simp] theorem length_relative (before : SingleParam) (rest : List SingleParam) :
    (relative before rest).length = rest.length := by
  rw [relative, List.length_zipWith, List.length_cons]
  exact min_eq_right (Nat.le_succ _)

theorem toNat_sub_of_lt {x y : UInt32} (h : x < y) : (y - x).toNat = y.toNat - x.toNat ∧ x.toNat < y.toNat := by
  have hlt := UInt32.lt_iff_toNat_lt.mp h
  exact ⟨UInt32.toNat_sub_of_le y x (UInt32.le_of_lt h), hlt⟩

/-- Differences of increasing times are positive and add up to the last time. -/
theorem relative_times {before : SingleParam} {rest : List SingleParam}
    (h : (before :: rest).Pairwise (·.hTime < ·.hTime)) :
    (∀ e ∈ relative before rest, 0 < e.hTime.toNat) ∧
      before.hTime.toNat + ((relative before rest).map (·.hTime.toNat)).sum =
        ((before :: rest).getLast (List.cons_ne_nil _ _)).hTime.toNat := by
  induction rest generalizing before with
  | nil => exact ⟨fun _ he => absurd he List.not_mem_nil, rfl⟩
  | cons e rest ih =>
    obtain ⟨hbefore, hrest⟩ := List.pairwise_cons.mp h
    obtain ⟨hpositive, hsum⟩ := ih hrest
    obtain ⟨hdifference, hlt⟩ := toNat_sub_of_lt (hbefore e List.mem_cons_self)
    rw [relative_cons]
    refine ⟨List.forall_mem_cons.mpr ⟨?_, hpositive⟩, ?_⟩
    · show 0 < (e.hTime - before.hTime).toNat
      omega
    · rw [List.map_cons, List.sum_cons, List.getLast_cons_cons, ← hsum]
      dsimp only
      omega

end EspClock.Pwm
