import EspClock.OneWire.Driver
import Mathlib.Data.List.Basic

/-!
# Slots

What the waveforms of the driver mean to the slaves. A written bit is taken by every slave when none of them sends, a read
bit is zero when one of them sends a zero, and a reset brings all of them to the point where they wait for a command, as long
as the line comes up within the 248 microseconds that the driver waits for it.
-/

namespace EspClock.OneWire

open Mem

variable {σ : Type} {w : Wire σ} {slaves : List (Slave σ)}

/-! ### The line between two slots -/

/-- The line can fall for the next slot, or has just fallen for it. -/
def Wire.Ready (w : Wire σ) : Prop :=
  (w.drive = .low ∧ w.low = 0 ∧ w.high = 0) ∨ (w.drive ≠ .low ∧ w.level = true)

/-- The slaves as the next slot finds them. -/
def Wire.content (w : Wire σ) : List (Slave σ) := if w.drive = .low then w.slaves else w.settled

/-- A line that has just fallen. -/
def begun (slaves : List (Slave σ)) : Wire σ := ⟨.low, 0, 0, slaves⟩

theorem driveLow_eq (h : w.Ready) : w.driveLow = begun w.content := by
  rcases h with ⟨hdrive, hlow, hhigh⟩ | ⟨hdrive, hlevel⟩
  · rw [Wire.driveLow, if_pos hdrive, Wire.content, if_pos hdrive, begun, ← hdrive, ← hlow]
    have hzero : w.low = w.high := by omega
    rw [hzero, ← hzero]
    cases w
    subst hlow hhigh
    rfl
  · rw [Wire.driveLow, if_neg hdrive, if_pos hlevel, Wire.content, if_neg hdrive, begun]

theorem ready_begun (slaves : List (Slave σ)) : (begun slaves).Ready := Or.inl ⟨rfl, rfl, rfl⟩

@[simp] theorem content_begun (slaves : List (Slave σ)) : (begun slaves).content = slaves := if_pos rfl

/-! ### How long the line stays low -/

theorem foldl_max_le {f : Slave σ → Nat} {bound t : Nat} (ht : t ≤ bound) (hf : ∀ s ∈ slaves, f s ≤ bound) :
    slaves.foldl (fun t s => max t (f s)) t ≤ bound := by
  induction slaves generalizing t with
  | nil => exact ht
  | cons s slaves ih =>
    obtain ⟨hs, hslaves⟩ := List.forall_mem_cons.mp hf
    exact ih (Nat.max_le.mpr ⟨ht, hs⟩) hslaves

theorem holdTime_le (slaves : List (Slave σ)) : Wire.holdTime slaves ≤ 60 := by
  refine foldl_max_le (Nat.zero_le 60) fun s _ => ?_
  split
  · exact s.timing.hold_bounds.2
  · exact Nat.zero_le 60

/-- Nobody sends a zero. -/
def Silent (slaves : List (Slave σ)) : Prop := ∀ s ∈ slaves, s.sendsZero = false

theorem holdTime_eq_zero (h : Silent slaves) : Wire.holdTime slaves = 0 := by
  refine Nat.le_zero.mp (foldl_max_le (Nat.le_refl 0) fun s hs => ?_)
  rw [h s hs]
  exact Nat.le_refl 0

/-! ### Pulses -/

theorem pulse_of_short (s : Slave σ) {t : Nat} (hpos : 0 < t) (ht : t ≤ 120) :
    s.pulse t = s.slot (t ≤ s.timing.sample) := by
  have hreset := s.timing.resetLow_bounds
  rw [Slave.pulse, if_neg (by omega), if_neg (by omega)]

theorem pulse_of_long (s : Slave σ) {t : Nat} (ht : 480 ≤ t) : s.pulse t = s.enter (.command []) := by
  have hreset := s.timing.resetLow_bounds
  rw [Slave.pulse, if_neg (by omega), if_pos (by omega)]

theorem enter_slot (s : Slave σ) (level : Bool) (phase : Phase σ) : (s.slot level).enter phase = s.enter phase := by
  rw [Slave.slot]
  split <;> rfl

theorem enter_pulse (s : Slave σ) (t : Nat) (phase : Phase σ) : (s.pulse t).enter phase = s.enter phase := by
  rw [Slave.pulse]
  split
  · rfl
  · split
    · rfl
    · exact enter_slot s _ phase

theorem map_enter_settled (w : Wire σ) (phase : Slave σ → Phase σ)
    (hphase : ∀ s t, phase (Slave.pulse s t) = phase s) :
    w.settled.map (fun s => s.enter (phase s)) = w.slaves.map fun s => s.enter (phase s) := by
  rw [Wire.settled, List.map_map]
  refine List.map_congr_left fun s _ => ?_
  rw [Function.comp_apply, hphase, enter_pulse]

/-! ### Writing and reading a bit -/

/-- What a write slot leaves: the line up again, the bit with the slaves. -/
structure Wrote (w' : Wire σ) (slaves : List (Slave σ)) : Prop where
  ready : w'.Ready
  content_eq : w'.content = slaves

theorem writeBit_eq (h : w.Ready) (v : Bool) :
    writeBit v w = ⟨.high, if v then 10 else 65, if v then 55 else 5, w.content⟩ := by
  rw [writeBit, driveLow_eq h]
  cases v <;> rfl

/-- A bit that is written while no slave sends is taken by all of them. -/
theorem writeBit_wrote (h : w.Ready) (hsilent : Silent w.content) (v : Bool) :
    Wrote (writeBit v w) (w.content.map (·.slot v)) := by
  rw [writeBit_eq h]
  refine ⟨Or.inr ⟨Drive.noConfusion, rfl⟩, ?_⟩
  have hcontent : Wire.content ⟨.high, if v then 10 else 65, if v then 55 else 5, w.content⟩ =
      w.content.map fun s => s.pulse (max (if v then 10 else 65) (Wire.holdTime w.content)) := rfl
  rw [hcontent, holdTime_eq_zero hsilent, Nat.max_zero]
  refine List.map_congr_left fun s _ => ?_
  have hsample := s.timing.sample_bounds
  cases v
  · rw [pulse_of_short s (by decide) (by decide)]
    exact congrArg s.slot (decide_eq_false (by simp only [Bool.false_eq_true, if_false]; omega))
  · rw [pulse_of_short s (by decide) (by decide)]
    exact congrArg s.slot (decide_eq_true (by simp only [if_true]; omega))

theorem holds_slot (s : Slave σ) {low high : Nat} (hlow : low ≤ 120) :
    s.holds low high = (s.sendsZero && decide (low + high < s.timing.hold)) := by
  have hreset := s.timing.resetLow_bounds
  rw [Slave.holds, if_neg (by omega)]

/-- The level that a read slot finds: low if some slave sends a zero. -/
theorem readBit_fst (h : w.Ready) : (readBit w).1 = !w.content.any Slave.sendsZero := by
  have hlevel : (readBit w).1 = !w.content.any fun s => s.holds 3 10 := by
    rw [readBit, driveLow_eq h]
    rfl
  rw [hlevel]
  congr 2
  funext s
  have hhold := s.timing.hold_bounds
  rw [holds_slot s (by decide), decide_eq_true (by omega), Bool.and_true]

/-- After a read slot the line is up again. The slaves that take the level in it see the line low for some time. -/
theorem readBit_wrote (h : w.Ready) :
    ∃ t, 0 < t ∧ t ≤ 60 ∧ Wrote (readBit w).2 (w.content.map fun s => s.slot (t ≤ s.timing.sample)) := by
  have heq : (readBit w).2 = ⟨.released, 3, 63, w.content⟩ := by
    rw [readBit, driveLow_eq h]
    rfl
  have hhold := holdTime_le w.content
  refine ⟨max 3 (Wire.holdTime w.content), by omega, by omega, ?_⟩
  rw [heq]
  refine ⟨Or.inr ⟨Drive.noConfusion, ?_⟩, ?_⟩
  · have hlevel : Wire.level ⟨.released, 3, 63, w.content⟩ = !w.content.any fun s => s.holds 3 63 := rfl
    rw [hlevel, Bool.not_eq_true', List.any_eq_false]
    intro s _
    have hbound := s.timing.hold_bounds
    rw [holds_slot s (by decide), decide_eq_false (by omega), Bool.and_false]
    exact Bool.false_ne_true
  · have hcontent : Wire.content ⟨.released, 3, 63, w.content⟩ =
        w.content.map fun s => s.pulse (max 3 (Wire.holdTime w.content)) := rfl
    rw [hcontent]
    exact List.map_congr_left fun s _ => pulse_of_short s (by omega) (by omega)

/-! ### The reset -/

/-- The line is about to come up: the master has pulled it down to this moment, or there is no more presence pulse. -/
def Wire.Calm (w : Wire σ) : Prop := (w.drive = .low ∧ w.high = 0) ∨ 52 ≤ w.high

theorem waitHigh_eq {retries : Nat} (hdrive : w.drive = .released)
    (hup : ∃ k, 1 ≤ k ∧ k ≤ retries ∧ Wire.level { w with high := w.high + 2 * k } = true) :
    ∃ high, waitHigh retries w = (true, { w with high := high }) ∧ Wire.level { w with high := high } = true := by
  induction retries generalizing w with
  | zero =>
    obtain ⟨k, hpos, hle, -⟩ := hup
    omega
  | succ retries ih =>
    have hdelay : w.delay 2 = { w with high := w.high + 2 } := by
      rw [Wire.delay, if_neg (by rw [hdrive]; decide)]
    rw [waitHigh, hdelay]
    by_cases hlevel : Wire.level { w with high := w.high + 2 } = true
    · exact ⟨w.high + 2, if_pos hlevel, hlevel⟩
    · rw [if_neg hlevel]
      obtain ⟨k, hpos, hle, hk⟩ := hup
      have hne : k ≠ 1 := by
        rintro rfl
        exact hlevel hk
      have hnext : Wire.level { w with high := w.high + 2 + 2 * (k - 1) } = true := by
        rw [show w.high + 2 + 2 * (k - 1) = w.high + 2 * k by omega]
        exact hk
      exact ih (w := { w with high := w.high + 2 }) hdrive ⟨k - 1, by omega, by omega, hnext⟩

theorem holds_eq_false_of_late (s : Slave σ) {low high : Nat} (h : 300 ≤ high) : s.holds low high = false := by
  have hwait := s.timing.presenceWait_bounds
  have hpresence := s.timing.presence_bounds
  have hhold := s.timing.hold_bounds
  rw [Slave.holds]
  split
  · rw [decide_eq_false (show ¬ high < s.timing.presenceWait + s.timing.presence by omega), Bool.and_false]
  · rw [decide_eq_false (by omega), Bool.and_false]

/-- Before the presence pulses begin the line is up once the slots are over. -/
theorem holds_eq_false_of_early (s : Slave σ) {low high : Nat} (hhigh : high < 15) (hsum : 60 ≤ low + high) :
    s.holds low high = false := by
  have hwait := s.timing.presenceWait_bounds
  have hhold := s.timing.hold_bounds
  rw [Slave.holds]
  split
  · rw [decide_eq_false (show ¬ s.timing.presenceWait ≤ high by omega), Bool.false_and]
  · rw [decide_eq_false (by omega), Bool.and_false]

theorem level_released {low high : Nat} (h : ∀ s ∈ slaves, s.holds low high = false) :
    Wire.level ⟨.released, low, high, slaves⟩ = true := by
  have hany : (slaves.any fun s => s.holds low high) = false := by
    rw [List.any_eq_false]
    intro s hs
    rw [h s hs]
    exact Bool.false_ne_true
  exact congrArg Bool.not hany

/-- The wait of the driver is long enough for a line that is about to come up. -/
theorem exists_level_of_calm (h : w.Calm) :
    ∃ k, 1 ≤ k ∧ k ≤ 124 ∧ Wire.level { w.release with high := w.release.high + 2 * k } = true := by
  rcases h with ⟨-, hhigh⟩ | hhigh
  · have hhigh : w.release.high = 0 := hhigh
    by_cases hlow : 58 ≤ w.low
    · refine ⟨1, by decide, by decide, level_released fun s _ => ?_⟩
      exact holds_eq_false_of_early s (by omega) (by rw [hhigh]; show 60 ≤ w.low + (0 + 2 * 1); omega)
    · refine ⟨30, by decide, by decide, level_released fun s _ => ?_⟩
      have hbound := s.timing.hold_bounds
      have hslot : w.release.low ≤ 120 := by
        show w.low ≤ 120
        omega
      rw [holds_slot s hslot, decide_eq_false (by omega), Bool.and_false]
  · have hhigh : 52 ≤ w.release.high := hhigh
    exact ⟨124, by decide, by decide, level_released fun s _ => holds_eq_false_of_late s (by omega)⟩

/-- A reset of a line that is about to come up finds out whether there are slaves, and all of them wait for a command. -/
theorem reset_eq (h : w.Calm) :
    (reset w).1 = !w.slaves.isEmpty ∧ Wrote (reset w).2 (w.slaves.map (·.enter (.command []))) := by
  obtain ⟨high, hwait, hlevel⟩ := waitHigh_eq (w := w.release) rfl (exists_level_of_calm h)
  have hready : Wire.Ready { w.release with high := high } := Or.inr ⟨Drive.noConfusion, hlevel⟩
  have hreset : reset w = (!Wire.level ⟨.released, 480, 70, Wire.settled { w.release with high := high }⟩,
      ⟨.released, 480, 480, Wire.settled { w.release with high := high }⟩) := by
    rw [reset, hwait]
    dsimp only
    rw [if_pos rfl, driveLow_eq hready]
    rfl
  rw [hreset]
  have hphase : (Wire.settled { w.release with high := high }).map (fun s => s.enter (.command [])) =
      w.slaves.map fun s => s.enter (.command []) := map_enter_settled _ (fun _ => .command []) fun _ _ => rfl
  have hempty : (Wire.settled { w.release with high := high }).isEmpty = w.slaves.isEmpty := List.isEmpty_map
  refine ⟨?_, Or.inr ⟨Drive.noConfusion, level_released fun s _ => holds_eq_false_of_late s (by decide)⟩, ?_⟩
  · generalize Wire.settled { w.release with high := high } = slaves at hempty ⊢
    have hlevel : Wire.level ⟨.released, 480, 70, slaves⟩ = slaves.isEmpty := by
      cases slaves with
      | nil => rfl
      | cons s slaves =>
        have hholds : s.holds 480 70 = true := by
          have hwait := s.timing.presenceWait_bounds
          have hpresence := s.timing.presence_bounds
          rw [Slave.holds, if_pos s.timing.resetLow_bounds.2, decide_eq_true (by omega), decide_eq_true (by omega)]
          rfl
        have hany : ((s :: slaves).any fun s => s.holds 480 70) = true := by rw [List.any_cons, hholds, Bool.true_or]
        exact congrArg Bool.not hany
    rw [hlevel, hempty]
  · rw [← hphase]
    show List.map _ _ = _
    refine List.map_congr_left fun s _ => pulse_of_long s ?_
    exact Nat.le_max_left 480 _

end EspClock.OneWire
