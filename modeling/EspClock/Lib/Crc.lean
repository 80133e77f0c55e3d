import Mathlib.Data.List.Basic
import Mathlib.Data.List.Count
import Mathlib.Data.List.GetD
import Mathlib.Dynamics.PeriodicPts.Defs

/-!
# Cyclic redundancy checks

A register that takes the bits of a message, least significant bit first, and is shifted to the right with every bit. It is
linear in its contents and the bits, so what two messages leave differs by what their difference leaves. A polynomial with its
top bit set makes the shift injective, and then every error that spans no more bits than the register has is found; the period
of the register bounds how far apart two errors may be that it finds for sure; and a polynomial with an odd number of bits
finds every odd number of errors.
-/

namespace Crc

variable {w : Nat} {p : BitVec w}

/-- One bit into the register. -/
def step (p c : BitVec w) (bit : Bool) : BitVec w := if xor (c.getLsbD 0) bit then (c >>> 1) ^^^ p else c >>> 1

def feed (p : BitVec w) (c : BitVec w) (bits : List Bool) : BitVec w := bits.foldl (step p) c

@[simp] theorem feed_nil (p c : BitVec w) : feed p c [] = c := rfl

@[simp] theorem feed_cons (p c : BitVec w) (b : Bool) (bits : List Bool) : feed p c (b :: bits) = feed p (step p c b) bits := rfl

theorem feed_append (p c : BitVec w) (a b : List Bool) : feed p c (a ++ b) = feed p (feed p c a) b := List.foldl_append

/-! ### Linearity -/

theorem step_xor (p a b : BitVec w) (x y : Bool) : step p (a ^^^ b) (xor x y) = step p a x ^^^ step p b y := by
  have hcancel : ∀ u v : BitVec w, (u ^^^ p) ^^^ (v ^^^ p) = u ^^^ v := by
    intro u v
    rw [BitVec.xor_assoc, ← BitVec.xor_assoc p v p, BitVec.xor_comm p v, BitVec.xor_assoc v p p, BitVec.xor_self,
      BitVec.xor_zero]
  have hmix : xor ((a ^^^ b).getLsbD 0) (xor x y) = xor (xor (a.getLsbD 0) x) (xor (b.getLsbD 0) y) := by
    rw [BitVec.getLsbD_xor]
    cases a.getLsbD 0 <;> cases b.getLsbD 0 <;> cases x <;> cases y <;> rfl
  rw [step, step, step, hmix, BitVec.ushiftRight_xor_distrib]
  cases xor (a.getLsbD 0) x <;> cases xor (b.getLsbD 0) y
  · rfl
  · exact BitVec.xor_assoc _ _ _
  · show (a >>> 1 ^^^ b >>> 1) ^^^ p = (a >>> 1 ^^^ p) ^^^ b >>> 1
    rw [BitVec.xor_assoc, BitVec.xor_comm (b >>> 1) p, BitVec.xor_assoc]
  · exact (hcancel _ _).symm

/-- The positions in which two messages differ. -/
def errors (a b : List Bool) : List Bool := List.zipWith xor a b

theorem feed_xor (p : BitVec w) {x y : List Bool} (h : x.length = y.length) (a b : BitVec w) :
    feed p (a ^^^ b) (errors x y) = feed p a x ^^^ feed p b y := by
  induction x generalizing y a b with
  | nil =>
    rw [List.length_eq_zero_iff.mp h.symm]
    rfl
  | cons i x ih =>
    cases y with
    | nil => cases h
    | cons j y =>
      rw [feed_cons, feed_cons, ← ih (Nat.succ.inj h), ← step_xor]
      rfl

/-- Two messages leave the same register exactly if their difference leaves none. -/
theorem feed_eq_iff {x y : List Bool} (h : x.length = y.length) (c : BitVec w) :
    feed p c x = feed p c y ↔ feed p 0#w (errors x y) = 0#w := by
  rw [← BitVec.xor_self (x := c), feed_xor p h, BitVec.xor_self]
  exact BitVec.xor_eq_zero_iff.symm

theorem feed_replicate (p c : BitVec w) (n : Nat) : feed p c (List.replicate n false) = (fun c => step p c false)^[n] c := by
  induction n generalizing c with
  | zero => rfl
  | succ n ih => rw [List.replicate_succ, feed_cons, ih, Function.iterate_succ_apply]

/-- A register that comes back does so again and again. -/
theorem isPeriodicPt_of_feed {c : BitVec w} {n : Nat} (h : feed p c (List.replicate n false) = c) :
    Function.IsPeriodicPt (fun c => step p c false) n c := by
  rwa [feed_replicate] at h

/-! ### The shift is injective -/

theorem step_zero_false (p : BitVec w) : step p 0#w false = 0#w := by
  rw [step, BitVec.getLsbD_zero, Bool.xor_false, if_neg Bool.false_ne_true, BitVec.zero_ushiftRight]

theorem feed_zero_replicate (p : BitVec w) (n : Nat) : feed p 0#w (List.replicate n false) = 0#w := by
  induction n with
  | zero => rfl
  | succ n ih => rw [List.replicate_succ, feed_cons, step_zero_false, ih]

theorem eq_zero_of_step (hp : p.msb = true) {c : BitVec w} (h : step p c false = 0#w) : c = 0#w := by
  have hw : 0 < w := by
    by_contra hzero
    obtain rfl : w = 0 := by omega
    rw [BitVec.of_length_zero (x := p)] at hp
    cases hp
  rw [step, Bool.xor_false] at h
  cases hlow : c.getLsbD 0
  · rw [hlow, if_neg Bool.false_ne_true] at h
    apply BitVec.eq_of_getLsbD_eq
    intro i hi
    rw [BitVec.getLsbD_zero]
    cases i with
    | zero => exact hlow
    | succ i =>
      have hbit := congrArg (fun x => x.getLsbD i) h
      rwa [BitVec.getLsbD_ushiftRight, BitVec.getLsbD_zero, Nat.add_comm] at hbit
  · rw [hlow, if_pos rfl] at h
    have hbit := congrArg (fun x => x.getLsbD (w - 1)) h
    have htop : c.getLsbD (1 + (w - 1)) = false := BitVec.getLsbD_of_ge c _ (by omega)
    rw [BitVec.getLsbD_xor, BitVec.getLsbD_ushiftRight, BitVec.getLsbD_zero, htop, Bool.false_xor,
      ← BitVec.msb_eq_getLsbD_last] at hbit
    rw [hp] at hbit
    cases hbit

theorem eq_zero_of_feed_replicate (hp : p.msb = true) {c : BitVec w} {n : Nat} (h : feed p c (List.replicate n false) = 0#w) :
    c = 0#w := by
  induction n generalizing c with
  | zero => exact h
  | succ n ih =>
    rw [List.replicate_succ, feed_cons] at h
    exact eq_zero_of_step hp (ih h)

/-! ### Bits that are still in the register -/

/-- The register with the given bits, the first one lowest. -/
def word (w : Nat) : List Bool → BitVec w
  | [] => 0#w
  | b :: bits => (if b then 1#w else 0#w) ^^^ (word w bits <<< 1)

theorem getLsbD_word {i : Nat} (hi : i < w) (bits : List Bool) : (word w bits).getLsbD i = bits.getD i false := by
  induction bits generalizing i with
  | nil =>
    rw [word, BitVec.getLsbD_zero]
    rfl
  | cons b bits ih =>
    have hone : (if b then 1#w else 0#w).getLsbD i = (b && decide (i = 0)) := by
      cases b
      · exact BitVec.getLsbD_zero
      · rw [if_pos rfl, BitVec.getLsbD_one, decide_eq_true (show 0 < w by omega)]
    rw [word, BitVec.getLsbD_xor, hone, BitVec.getLsbD_shiftLeft]
    cases i with
    | zero =>
      simp only [decide_true, Bool.and_true, Nat.lt_add_one, Bool.not_true, Bool.and_false, Bool.false_and, Bool.xor_false,
        List.getD_cons_zero]
    | succ i =>
      simp only [Nat.succ_ne_zero, decide_false, Bool.and_false, Bool.false_xor, decide_eq_true hi,
        show ¬ i + 1 < 1 by omega, Bool.not_false, Bool.true_and, Nat.add_sub_cancel]
      exact ih (by omega)

theorem word_ushiftRight (b : Bool) {bits : List Bool} (h : bits.length < w) : word w (b :: bits) >>> 1 = word w bits := by
  apply BitVec.eq_of_getLsbD_eq
  intro i hi
  rw [BitVec.getLsbD_ushiftRight, getLsbD_word hi, Nat.add_comm]
  by_cases hnext : i + 1 < w
  · rw [getLsbD_word hnext]
    rfl
  · rw [BitVec.getLsbD_of_ge _ _ (by omega), List.getD_eq_default _ _ (by omega)]

/-- Bits that are fed in could as well have been in the register from the start. -/
theorem feed_eq_feed_replicate (c : BitVec w) {bits : List Bool} (h : bits.length ≤ w) :
    feed p c bits = feed p (c ^^^ word w bits) (List.replicate bits.length false) := by
  induction bits generalizing c with
  | nil =>
    rw [word, BitVec.xor_zero]
    rfl
  | cons b bits ih =>
    rw [List.length_cons] at h
    have hlow : (word w (b :: bits)).getLsbD 0 = b := getLsbD_word (by omega) _
    have hown : step p (word w (b :: bits)) b = word w bits := by
      rw [step, hlow, Bool.xor_self, if_neg Bool.false_ne_true, word_ushiftRight b (by omega)]
    have hfirst : step p (c ^^^ word w (b :: bits)) false = step p c b ^^^ word w bits := by
      rw [← hown, ← step_xor, Bool.xor_self]
    rw [feed_cons, ih _ (by omega), List.length_cons, List.replicate_succ, feed_cons, hfirst]

/-- The bits of the register itself, and no others, bring it to zero. -/
theorem feed_eq_zero_iff (hp : p.msb = true) (c : BitVec w) {bits : List Bool} (h : bits.length ≤ w) :
    feed p c bits = 0#w ↔ word w bits = c := by
  rw [feed_eq_feed_replicate c h]
  constructor
  · intro hzero
    have heq := eq_zero_of_feed_replicate hp hzero
    exact (BitVec.xor_eq_zero_iff.mp heq).symm
  · rintro rfl
    rw [BitVec.xor_self, feed_zero_replicate]

/-- A register whose low bits are clear is only shifted. -/
theorem feed_replicate_of_low {c : BitVec w} {n : Nat} (h : ∀ i < n, c.getLsbD i = false) :
    feed p c (List.replicate n false) = c >>> n := by
  induction n generalizing c with
  | zero => exact (BitVec.ushiftRight_zero c).symm
  | succ n ih =>
    have hstep : step p c false = c >>> 1 := by
      rw [step, h 0 (Nat.succ_pos n), Bool.xor_self, if_neg Bool.false_ne_true]
    have hlow : ∀ i < n, (c >>> 1).getLsbD i = false := by
      intro i hi
      rw [BitVec.getLsbD_ushiftRight, Nat.add_comm]
      exact h (i + 1) (by omega)
    rw [List.replicate_succ, feed_cons, hstep, ih hlow, Nat.add_comm, BitVec.shiftRight_add]

/-! ### Errors that are found -/

theorem word_ne_zero {bits : List Bool} (h : bits.length ≤ w) (hmem : true ∈ bits) : word w bits ≠ 0#w := by
  obtain ⟨i, hi, hbit⟩ := List.mem_iff_getElem.mp hmem
  intro hzero
  have hget := congrArg (fun x => x.getLsbD i) hzero
  rw [getLsbD_word (by omega), List.getD_eq_getElem _ _ hi, hbit, BitVec.getLsbD_zero] at hget
  cases hget

/-- Errors that span no more bits than the register has. -/
theorem feed_burst (hp : p.msb = true) (before behind : Nat) {burst : List Bool} (h : burst.length ≤ w) (hmem : true ∈ burst) :
    feed p 0#w (List.replicate before false ++ burst ++ List.replicate behind false) ≠ 0#w := by
  rw [feed_append, feed_append, feed_zero_replicate]
  intro hzero
  have hburst := eq_zero_of_feed_replicate hp hzero
  exact word_ne_zero h hmem ((feed_eq_zero_iff hp _ h).mp hburst)

/-- The same with the errors given by their positions. -/
theorem feed_window (hp : p.msb = true) {i : Nat} {bits : List Bool} (hmem : true ∈ bits)
    (hwindow : ∀ j, bits[j]? = some true → i ≤ j ∧ j < i + w) : feed p 0#w bits ≠ 0#w := by
  have hbefore : bits.take i = List.replicate (bits.take i).length false := by
    apply List.eq_replicate_of_mem
    intro b hb
    cases b
    · rfl
    · obtain ⟨j, hj, hbit⟩ := List.mem_iff_getElem.mp hb
      rw [List.length_take] at hj
      rw [List.getElem_take] at hbit
      have hin := (hwindow j (List.getElem?_eq_some_iff.mpr ⟨by omega, hbit⟩)).1
      omega
  have hbehind : (bits.drop i).drop w = List.replicate ((bits.drop i).drop w).length false := by
    apply List.eq_replicate_of_mem
    intro b hb
    cases b
    · rfl
    · obtain ⟨j, hbit⟩ := List.mem_iff_getElem?.mp hb
      rw [List.getElem?_drop, List.getElem?_drop] at hbit
      have hin := hwindow _ hbit
      omega
  have hsplit : bits = bits.take i ++ (bits.drop i).take w ++ (bits.drop i).drop w := by
    rw [List.append_assoc, List.take_append_drop, List.take_append_drop]
  have hburst : true ∈ (bits.drop i).take w := by
    rw [hsplit, List.mem_append, List.mem_append, hbefore, hbehind] at hmem
    rcases hmem with (hmem | hmem) | hmem
    · exact absurd (List.eq_of_mem_replicate hmem) (by decide)
    · exact hmem
    · exact absurd (List.eq_of_mem_replicate hmem) (by decide)
  rw [hsplit, hbefore, hbehind]
  exact feed_burst hp _ _ (by rw [List.length_take]; exact Nat.min_le_left _ _) hburst

/-- Two errors whose distance is no multiple of the period of the register. -/
theorem feed_two (hp : p.msb = true) (before behind : Nat) {distance : Nat}
    (hperiod : feed p p (List.replicate (distance + 1) false) ≠ p) :
    feed p 0#w (List.replicate before false ++ true :: List.replicate distance false ++ true :: List.replicate behind false) ≠
      0#w := by
  have hone : step p 0#w true = p := by
    rw [step, BitVec.getLsbD_zero, Bool.false_xor, if_pos rfl, BitVec.zero_ushiftRight, BitVec.zero_xor]
  rw [List.append_assoc, feed_append, feed_zero_replicate, List.cons_append, feed_cons, hone, feed_append, feed_cons]
  intro hzero
  have hlast := eq_zero_of_feed_replicate hp hzero
  have hsplit : step p (feed p p (List.replicate distance false)) true =
      step p (feed p p (List.replicate distance false)) false ^^^ step p 0#w true := by
    rw [← step_xor, BitVec.xor_zero, Bool.false_xor]
  rw [hsplit, hone, BitVec.xor_eq_zero_iff] at hlast
  apply hperiod
  rw [List.replicate_succ', feed_append, feed_cons, feed_nil]
  exact hlast

/-- The sum of all bits. -/
def parity (c : BitVec w) : Bool := ((List.range w).map c.getLsbD).foldr xor false

theorem foldr_xor_map_xor (f g : Nat → Bool) (l : List Nat) :
    (l.map fun i => xor (f i) (g i)).foldr xor false = xor ((l.map f).foldr xor false) ((l.map g).foldr xor false) := by
  induction l with
  | nil => rfl
  | cons i l ih =>
    rw [List.map_cons, List.map_cons, List.map_cons, List.foldr_cons, List.foldr_cons, List.foldr_cons, ih]
    cases f i <;> cases g i <;> cases (l.map f).foldr xor false <;> cases (l.map g).foldr xor false <;> rfl

theorem parity_xor (a b : BitVec w) : parity (a ^^^ b) = xor (parity a) (parity b) := by
  rw [parity, parity, parity, ← foldr_xor_map_xor]
  congr 2
  funext i
  exact BitVec.getLsbD_xor

theorem foldr_xor_range_succ (f : Nat → Bool) (n : Nat) :
    ((List.range n).map fun i => f (i + 1)).foldr xor false = xor (f 0) (xor (((List.range n).map f).foldr xor false) (f n)) := by
  have hfront : ((List.range (n + 1)).map f).foldr xor false =
      xor (f 0) (((List.range n).map fun i => f (i + 1)).foldr xor false) := by
    rw [List.range_succ_eq_map, List.map_cons, List.foldr_cons, List.map_map]
    rfl
  have hback : ∀ (l : List Nat) (b : Bool), (l.map f).foldr xor b = xor ((l.map f).foldr xor false) b := by
    intro l b
    induction l with
    | nil => exact (Bool.false_xor b).symm
    | cons i l ih => rw [List.map_cons, List.foldr_cons, List.foldr_cons, ih, Bool.xor_assoc]
  have hlast : ((List.range (n + 1)).map f).foldr xor false = xor (((List.range n).map f).foldr xor false) (f n) := by
    rw [List.range_succ, List.map_append, List.foldr_append, hback]
    congr 1
    exact Bool.xor_false (f n)
  rw [← hlast, hfront, ← Bool.xor_assoc, Bool.xor_self, Bool.false_xor]

theorem parity_ushiftRight (c : BitVec w) : parity (c >>> 1) = xor (c.getLsbD 0) (parity c) := by
  have hshift : (c >>> 1).getLsbD = fun i => c.getLsbD (i + 1) := by
    funext i
    rw [BitVec.getLsbD_ushiftRight, Nat.add_comm]
  rw [parity, hshift, foldr_xor_range_succ, BitVec.getLsbD_of_ge c w (Nat.le_refl w), Bool.xor_false]
  rfl

/-- With an odd polynomial the register has the parity of the bits so far. -/
theorem parity_step (hodd : parity p = true) (c : BitVec w) (b : Bool) : parity (step p c b) = xor (parity c) b := by
  rw [step]
  cases hlow : c.getLsbD 0 <;> cases b
  · rw [if_neg (by decide), parity_ushiftRight, hlow, Bool.false_xor, Bool.xor_false]
  · rw [if_pos (by decide), parity_xor, parity_ushiftRight, hlow, hodd, Bool.false_xor]
  · rw [if_pos (by decide), parity_xor, parity_ushiftRight, hlow, hodd, Bool.true_xor, Bool.xor_true, Bool.not_not,
      Bool.xor_false]
  · rw [if_neg (by decide), parity_ushiftRight, hlow, Bool.true_xor, Bool.xor_true]

theorem parity_feed (hodd : parity p = true) (c : BitVec w) (bits : List Bool) :
    parity (feed p c bits) = xor (parity c) (bits.count true % 2 == 1) := by
  induction bits generalizing c with
  | nil => exact (Bool.xor_false _).symm
  | cons b bits ih =>
    rw [feed_cons, ih, parity_step hodd, List.count_cons, Bool.xor_assoc]
    congr 1
    rcases Nat.mod_two_eq_zero_or_one (bits.count true) with heven | hoddcount
    · cases b
      · rw [if_neg (by decide), Nat.add_zero, Bool.false_xor]
      · rw [if_pos (by decide), Nat.add_mod, heven]
        rfl
    · cases b
      · rw [if_neg (by decide), Nat.add_zero, Bool.false_xor]
      · rw [if_pos (by decide), Nat.add_mod, hoddcount]
        rfl

/-- An odd number of errors. -/
theorem feed_odd (hodd : parity p = true) {bits : List Bool} (h : bits.count true % 2 = 1) : feed p 0#w bits ≠ 0#w := by
  intro hzero
  have hparity := parity_feed hodd 0#w bits
  have hnone : parity (0#w) = false := by
    have hself := parity_xor (0#w) (0#w)
    rwa [BitVec.xor_self, Bool.xor_self] at hself
  rw [hzero, h, hnone] at hparity
  cases hparity

theorem eq_replicate_of_count_eq_zero {bits : List Bool} (h : bits.count true = 0) :
    bits = List.replicate bits.length false := by
  apply List.eq_replicate_of_mem
  intro b hb
  cases b
  · rfl
  · exact absurd hb (List.count_eq_zero.mp h)

theorem exists_first_of_count {bits : List Bool} {n : Nat} (h : bits.count true = n + 1) :
    ∃ before rest, bits = List.replicate before false ++ true :: rest ∧ rest.count true = n := by
  induction bits with
  | nil => cases h
  | cons b bits ih =>
    cases b
    · rw [List.count_cons, if_neg (by decide), Nat.add_zero] at h
      obtain ⟨before, rest, rfl, hrest⟩ := ih h
      exact ⟨before + 1, rest, rfl, hrest⟩
    · rw [List.count_cons, if_pos (by decide)] at h
      exact ⟨0, bits, rfl, Nat.succ.inj h⟩

/-- Up to three errors within the period of a register whose polynomial is odd. -/
theorem feed_three (hp : p.msb = true) (hodd : parity p = true) {period : Nat}
    (hperiod : ∀ d, 0 < d → d < period → feed p p (List.replicate d false) ≠ p) {bits : List Bool}
    (hlength : bits.length ≤ period) (hne : bits.count true ≠ 0) (hle : bits.count true ≤ 3) : feed p 0#w bits ≠ 0#w := by
  by_cases htwo : bits.count true = 2
  · obtain ⟨before, rest, rfl, hrest⟩ := exists_first_of_count htwo
    obtain ⟨distance, last, rfl, hlast⟩ := exists_first_of_count hrest
    rw [List.length_append, List.length_replicate, List.length_cons, List.length_append, List.length_replicate,
      List.length_cons] at hlength
    have hfound := feed_two hp before last.length (hperiod (distance + 1) (Nat.succ_pos _) (by omega))
    rwa [← eq_replicate_of_count_eq_zero hlast, List.append_assoc] at hfound
  · exact feed_odd hodd (by omega)

end Crc
