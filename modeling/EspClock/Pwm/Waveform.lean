import EspClock.Pwm.Steps
import EspClock.Pwm.Buffering
import Mathlib.Data.List.ModifyLast
import Mathlib.Data.List.Nodup

/-!
# The waveform of a period

Played from the start of a period, the schedule that `pwm_start` builds keeps the pin of each channel high for the part
of the period that its duty asks for, and low for the rest.
-/

namespace EspClock.Pwm

/-! ### Settings -/

/-- The microseconds of a period that a channel is high. -/
def Settings.part (p : Settings) (c : Channel) : Nat := p.period.toNat * c.duty.toNat / 1023

/-- The time at which a channel goes off, and the one of the end of the period. -/
def Settings.time (p : Settings) (c : Channel) : UInt32 :=
  usToRtcTimerTicks (p.period * c.duty.toUInt32 / pwmDepth.toUInt32)

def Settings.endTime (p : Settings) : UInt32 := usToRtcTimerTicks p.period

/-- The products and the sum of `US_TO_RTC_TIMER_TICKS` before they are reduced to 32 bits. -/
def tickProducts (t : Nat) : List Nat :=
  if t = 0 then []
  else if 0x35A < t then [t / 4 * 20, t % 4 * 5, t / 4 * 20 + t % 4 * 5]
  else [t * 5000000]

/-- All the products of step 1. -/
def Settings.products (p : Settings) : List Nat :=
  p.channels.flatMap (fun c => p.period.toNat * c.duty.toNat :: tickProducts (p.part c)) ++ tickProducts p.period.toNat

theorem tickProducts_lt {t : Nat} (ht : t ≤ 1000000) : ∀ x ∈ tickProducts t, x < 2 ^ 32 := by
  rw [tickProducts]
  split_ifs with hzero hlarge
  · exact fun _ hx => absurd hx List.not_mem_nil
  · simp only [List.forall_mem_cons, List.not_mem_nil, IsEmpty.forall_iff, implies_true, and_true]
    omega
  · simp only [List.forall_mem_cons, List.not_mem_nil, IsEmpty.forall_iff, implies_true, and_true]
    omega

/-- What `pwm_set_freq` makes the period. -/
theorem period_bounds {freq : UInt16} (hlow : 1 ≤ freq.toNat) (hhigh : freq.toNat ≤ 1000) :
    1000 ≤ (pwm1s / freq.toUInt32).toNat ∧ (pwm1s / freq.toUInt32).toNat ≤ 1000000 := by
  rw [UInt32.toNat_div, UInt16.toNat_toUInt32]
  show 1000 ≤ 1000000 / freq.toNat ∧ 1000000 / freq.toNat ≤ 1000000
  exact ⟨(Nat.le_div_iff_mul_le hlow).mpr (by omega), Nat.div_le_self _ _⟩

section Period

variable {p : Settings} {c : Channel}

theorem part_le (hduty : c.duty.toNat ≤ 1023) : p.part c ≤ p.period.toNat :=
  Nat.div_le_of_le_mul (by rw [Nat.mul_comm 1023]; exact Nat.mul_le_mul_left _ hduty)

/-- Only the full duty takes all of the period. -/
theorem part_eq_period_iff (hlow : 1 ≤ p.period.toNat) (hduty : c.duty.toNat ≤ 1023) :
    p.part c = p.period.toNat ↔ c.duty.toNat = 1023 := by
  constructor
  · intro hpart
    by_contra hne
    have hle : p.period.toNat * c.duty.toNat ≤ p.period.toNat * 1022 := Nat.mul_le_mul_left _ (by omega)
    rw [Settings.part] at hpart
    omega
  · intro hfull
    rw [Settings.part, hfull]
    exact Nat.mul_div_cancel _ (by decide)

theorem product_lt (hhigh : p.period.toNat ≤ 1000000) (hduty : c.duty.toNat ≤ 1023) :
    p.period.toNat * c.duty.toNat < 2 ^ 32 :=
  (Nat.mul_le_mul hhigh hduty).trans_lt (by decide)

theorem time_toNat (hhigh : p.period.toNat ≤ 1000000) (hduty : c.duty.toNat ≤ 1023) :
    (p.time c).toNat = 5 * p.part c := by
  have hus : (p.period * c.duty.toUInt32 / pwmDepth.toUInt32).toNat = p.part c := by
    rw [UInt32.toNat_div, UInt32.toNat_mul, UInt16.toNat_toUInt32, Nat.mod_eq_of_lt (product_lt hhigh hduty)]
    rfl
  rw [Settings.time, usToRtcTimerTicks_toNat (hus ▸ (part_le hduty).trans hhigh), hus]

theorem endTime_toNat (hhigh : p.period.toNat ≤ 1000000) : p.endTime.toNat = 5 * p.period.toNat :=
  usToRtcTimerTicks_toNat hhigh

end Period

/-! ### Pins -/

theorem drives_pinBit {i j : Nat} (hi : 1 ≤ i ∧ i ≤ 12) (hj : 1 ≤ j ∧ j ≤ 12) :
    drives (pinBit i) j = true ↔ i = j := by
  have hall : ∀ i ∈ List.range 13, ∀ j ∈ List.range 13, 1 ≤ i → 1 ≤ j → drives (pinBit i) j = decide (i = j) := by
    decide +kernel
  rw [hall i (List.mem_range.mpr (by omega)) j (List.mem_range.mpr (by omega)) hi.1 hj.1, decide_eq_true_iff]

theorem drives_foldr (channels : List Channel) (pin : Nat) :
    drives (channels.foldr (fun c gpio => pinBit c.outIoNum ||| gpio) 0) pin = true ↔
      ∃ c ∈ channels, drives (pinBit c.outIoNum) pin = true := by
  induction channels with
  | nil => simp
  | cons c channels ih => rw [List.foldr_cons, drives_or, Bool.or_eq_true, ih, List.exists_mem_cons_iff]

variable {p : Settings} {c : Channel}

/-- The bit of a pin belongs to its channel only. -/
theorem Settings.WellFormed.drives_iff (hp : p.WellFormed) (hc : c ∈ p.channels) {c' : Channel} (hc' : c' ∈ p.channels) :
    drives (pinBit c'.outIoNum) c.outIoNum = true ↔ c' = c := by
  rw [drives_pinBit (hp.pins c' hc') (hp.pins c hc)]
  exact ⟨fun heq => List.inj_on_of_nodup_map hp.distinct hc' hc heq, fun heq => congrArg _ heq⟩

theorem Settings.WellFormed.drives_gpio (hp : p.WellFormed) (hc : c ∈ p.channels) : drives p.gpio c.outIoNum = true := by
  rw [hp.gpio, drives_foldr]
  exact ⟨c, hc, (hp.drives_iff hc hc).mpr rfl⟩

/-! ### The entries -/

/-- The entry of the end of the period. -/
def Settings.endEntry (p : Settings) : SingleParam := ⟨p.gpio, 0, p.endTime⟩

def Settings.entry (p : Settings) (c : Channel) : SingleParam := ⟨0, pinBit c.outIoNum, p.time c⟩

theorem entries_eq (p : Settings) : p.entries = p.channels.map p.entry ++ [p.endEntry] := rfl

theorem mem_entries {e : SingleParam} : e ∈ p.entries ↔ (∃ c ∈ p.channels, p.entry c = e) ∨ e = p.endEntry := by
  rw [entries_eq, List.mem_append, List.mem_map, List.mem_singleton]

/-- The entries in order, one for each time. -/
def Settings.combined (p : Settings) : List SingleParam := combine (pwmInsertSort p.entries)

theorem combined_sorted (p : Settings) : p.combined.Pairwise (·.hTime < ·.hTime) :=
  combine_sorted (pwmInsertSort_sorted p.entries)

theorem drivenAt_combined {mask : SingleParam → UInt16} (hmask : ∀ e next, mask (e.merge next) = mask e ||| mask next)
    (time : UInt32) (pin : Nat) : DrivenAt mask p.combined time pin ↔ DrivenAt mask p.entries time pin := by
  rw [Settings.combined, combine_drivenAt hmask, DrivenAt, DrivenAt]
  exact exists_congr fun e => and_congr_left' (pwmInsertSort_perm p.entries).mem_iff

theorem combined_times (time : UInt32) :
    time ∈ p.combined.map SingleParam.hTime ↔ (∃ c ∈ p.channels, p.time c = time) ∨ time = p.endTime := by
  rw [Settings.combined, combine_times, ((pwmInsertSort_perm p.entries).map _).mem_iff, entries_eq, List.map_append,
    List.mem_append, List.map_map, List.mem_map]
  exact or_congr_right List.mem_singleton

theorem drivenAt_clear (hp : p.WellFormed) (hc : c ∈ p.channels) (time : UInt32) :
    DrivenAt SingleParam.gpioClear p.combined time c.outIoNum ↔ time = p.time c := by
  rw [drivenAt_combined fun _ _ => rfl]
  constructor
  · rintro ⟨e, he, rfl, hdrives⟩
    obtain ⟨c', hc', rfl⟩ | rfl := mem_entries.mp he
    · rw [(hp.drives_iff hc hc').mp hdrives]
      rfl
    · exact absurd hdrives (by simp [Settings.endEntry])
  · rintro rfl
    exact ⟨p.entry c, mem_entries.mpr (Or.inl ⟨c, hc, rfl⟩), rfl, (hp.drives_iff hc hc).mpr rfl⟩

theorem drivenAt_set (time : UInt32) (pin : Nat) :
    DrivenAt SingleParam.gpioSet p.combined time pin ↔ time = p.endTime ∧ drives p.gpio pin = true := by
  rw [drivenAt_combined fun _ _ => rfl]
  constructor
  · rintro ⟨e, he, rfl, hdrives⟩
    obtain ⟨c', hc', rfl⟩ | rfl := mem_entries.mp he
    · exact absurd hdrives (by simp [Settings.entry])
    · exact ⟨rfl, hdrives⟩
  · rintro ⟨rfl, hdrives⟩
    exact ⟨p.endEntry, mem_entries.mpr (Or.inr rfl), rfl, hdrives⟩

theorem combined_injective {e e' : SingleParam} (he : e ∈ p.combined) (he' : e' ∈ p.combined) (heq : e.hTime = e'.hTime) :
    e = e' := by
  have hnodup : (p.combined.map SingleParam.hTime).Nodup :=
    (List.pairwise_map.mpr (combined_sorted p)).imp fun hlt => UInt32.ne_of_lt hlt
  exact List.inj_on_of_nodup_map hnodup he he' heq

/-- An entry has the bits of a register value of its time. -/
theorem drives_of_mem {mask : SingleParam → UInt16} {e : SingleParam} (he : e ∈ p.combined) (pin : Nat) :
    drives (mask e) pin = true ↔ DrivenAt mask p.combined e.hTime pin := by
  constructor
  · exact fun hdrives => ⟨e, he, rfl, hdrives⟩
  · rintro ⟨e', he', heq, hdrives⟩
    rwa [combined_injective he he' heq.symm]

theorem time_le_endTime (hp : p.WellFormed) (hhigh : p.period.toNat ≤ 1000000) (hc : c ∈ p.channels) :
    p.time c ≤ p.endTime := by
  have hduty := hp.duties c hc
  rw [UInt32.le_iff_toNat_le, time_toNat hhigh hduty, endTime_toNat hhigh]
  exact Nat.mul_le_mul_left 5 (part_le hduty)

/-! ### The schedule -/

/-- The steps behind the start of a period, at their times in the period: a step clears the outputs of the channels that
go off at its time, and only the last one, at the end of the period, sets outputs. -/
structure Timed (p : Settings) (start : SingleParam) (steps : List SingleParam) : Prop where
  zero : start.hTime = 0
  sorted : (start :: steps).Pairwise (·.hTime < ·.hTime)
  ne_nil : steps ≠ []
  last : (steps.getLast ne_nil).hTime = p.endTime
  clear : ∀ c ∈ p.channels, ∀ e ∈ start :: steps, drives e.gpioClear c.outIoNum = true ↔ e.hTime = p.time c
  goesOff : ∀ c ∈ p.channels, ∃ e ∈ start :: steps, e.hTime = p.time c
  set : ∀ e ∈ start :: steps, ∀ pin, drives e.gpioSet pin = true ↔ e.hTime = p.endTime ∧ drives p.gpio pin = true
  times : ∀ e ∈ steps, e.hTime = p.endTime ∨ ∃ c ∈ p.channels, p.time c = e.hTime

/-- What steps 5 and 6 make of the last step. -/
def patchLast (start last : SingleParam) : SingleParam :=
  { last with gpioSet := last.gpioSet &&& ~~~start.gpioClear, gpioClear := start.gpioClear }

theorem combined_last (hp : p.WellFormed) (hhigh : p.period.toNat ≤ 1000000) (hne : p.combined ≠ []) :
    (p.combined.getLast hne).hTime = p.endTime := by
  obtain ⟨e, he, hend⟩ := List.mem_map.mp ((combined_times p.endTime).mpr (Or.inr rfl))
  have hle : (p.combined.getLast hne).hTime ≤ p.endTime := by
    obtain ⟨c, hc, hcequal⟩ | hequal := (combined_times _).mp (List.mem_map_of_mem (List.getLast_mem hne))
    · exact hcequal ▸ time_le_endTime hp hhigh hc
    · exact UInt32.le_of_eq hequal
  have hge : p.endTime ≤ (p.combined.getLast hne).hTime := by
    have hsorted := combined_sorted p
    rw [← List.dropLast_append_getLast hne] at hsorted he
    obtain he | he := List.mem_append.mp he
    · exact hend ▸ UInt32.le_of_lt ((List.pairwise_append.mp hsorted).2.2 e he _ (List.mem_singleton_self _))
    · exact hend ▸ UInt32.le_of_eq (congrArg SingleParam.hTime (List.mem_singleton.mp he))
  exact UInt32.le_antisymm hle hge

theorem modifyLast_cons (f : SingleParam → SingleParam) (e : SingleParam) {rest : List SingleParam} (hne : rest ≠ []) :
    (e :: rest).modifyLast f = e :: rest.modifyLast f :=
  List.modifyLast_append_of_right_ne_nil f [e] rest hne

theorem modifyLast_modifyLast (f g : SingleParam → SingleParam) (entries : List SingleParam) :
    (entries.modifyLast f).modifyLast g = entries.modifyLast (g ∘ f) := by
  induction entries using List.reverseRecOn with
  | nil => rfl
  | append_singleton entries e _ => simp only [List.modifyLast_concat, Function.comp_apply]

/-- A first step that takes time stays. -/
theorem dropZero_modifyLast {f : SingleParam → SingleParam} (hf : ∀ e, (f e).hTime = e.hTime) {e : SingleParam}
    (he : e.hTime ≠ 0) (rest : List SingleParam) :
    dropZero ((e :: rest).modifyLast f) = (e :: rest).modifyLast f := by
  cases rest with
  | nil => exact if_neg (hf e ▸ he)
  | cons next rest =>
    rw [modifyLast_cons f e (List.cons_ne_nil next rest)]
    exact if_neg he

/-- A first step that takes no time is the start of the period. -/
theorem dropZero_cons {e : SingleParam} (he : e.hTime = 0) {rest : List SingleParam} (hne : rest ≠ []) :
    dropZero (lastClean (e :: rest)) = rest.modifyLast (patchLast e) := by
  have hrest : rest.modifyLast (fun e => { e with gpioClear := 0 }) ≠ [] := by
    rw [← List.dropLast_append_getLast hne, List.modifyLast_concat]
    exact List.concat_ne_nil _ _
  rw [lastClean, modifyLast_cons _ e hne, dropZero, if_pos he, modifyLast_cons _ e hrest, List.tail_cons,
    modifyLast_modifyLast]
  congr 1
  funext last
  simp [patchLast]

/-- The entries of a period in their order, at the times at which channels go off and at its end. -/
structure Timeline (p : Settings) (entries : List SingleParam) : Prop where
  sorted : entries.Pairwise (·.hTime < ·.hTime)
  ne_nil : entries ≠ []
  last : (entries.getLast ne_nil).hTime = p.endTime
  clear : ∀ c ∈ p.channels, ∀ e ∈ entries, drives e.gpioClear c.outIoNum = true ↔ e.hTime = p.time c
  goesOff : ∀ c ∈ p.channels, ∃ e ∈ entries, e.hTime = p.time c
  set : ∀ e ∈ entries, ∀ pin, drives e.gpioSet pin = true ↔ e.hTime = p.endTime ∧ drives p.gpio pin = true
  times : ∀ e ∈ entries, e.hTime = p.endTime ∨ ∃ c ∈ p.channels, p.time c = e.hTime

theorem combined_timeline (hp : p.WellFormed) (hhigh : p.period.toNat ≤ 1000000) : Timeline p p.combined where
  sorted := combined_sorted p
  ne_nil := by
    obtain ⟨e, he, -⟩ := List.mem_map.mp ((combined_times p.endTime).mpr (Or.inr rfl))
    exact List.ne_nil_of_mem he
  last := combined_last hp hhigh _
  clear c hc e he := (drives_of_mem he _).trans (drivenAt_clear hp hc _)
  goesOff c hc := List.mem_map.mp ((combined_times _).mpr (Or.inl ⟨c, hc, rfl⟩))
  set e he pin := (drives_of_mem he _).trans (drivenAt_set _ _)
  times e he := ((combined_times _).mp (List.mem_map_of_mem he)).symm

section Timeline

variable {e : SingleParam} {rest : List SingleParam} (h : Timeline p (e :: rest)) (hend : 0 < p.endTime)
include h hend

/-- An entry at time zero is the start of the period. -/
theorem Timeline.timed_of_zero (hzero : e.hTime = 0) : Timed p e rest := by
  have hrest : rest ≠ [] := by
    rintro rfl
    exact absurd (hzero.symm.trans h.last) (UInt32.ne_of_lt hend)
  refine ⟨hzero, h.sorted, hrest, ?_, h.clear, h.goesOff, h.set, fun x hx => h.times x (List.mem_cons_of_mem e hx)⟩
  have hlast := h.last
  rwa [List.getLast_cons hrest] at hlast

/-- If all entries take time, the period starts with a step that drives nothing. -/
theorem Timeline.timed (hzero : e.hTime ≠ 0) : Timed p ⟨0, 0, 0⟩ (e :: rest) := by
  have hpositive : ∀ x ∈ e :: rest, (0 : UInt32) < x.hTime := by
    have hfirst : (0 : UInt32) < e.hTime := UInt32.lt_of_le_of_ne UInt32.zero_le (Ne.symm hzero)
    intro x hx
    obtain rfl | hx := List.mem_cons.mp hx
    · exact hfirst
    · exact UInt32.lt_trans hfirst ((List.pairwise_cons.mp h.sorted).1 x hx)
  have hnone : ∀ c ∈ p.channels, (0 : UInt32) ≠ p.time c := fun c hc heq => by
    obtain ⟨x, hx, htime⟩ := h.goesOff c hc
    exact absurd (heq.trans htime.symm) (UInt32.ne_of_lt (hpositive x hx))
  refine ⟨rfl, List.pairwise_cons.mpr ⟨hpositive, h.sorted⟩, h.ne_nil, h.last, ?_, ?_, ?_, h.times⟩
  · intro c hc
    refine List.forall_mem_cons.mpr ⟨iff_of_false ?_ (hnone c hc), h.clear c hc⟩
    rw [drives_zero]
    exact Bool.false_ne_true
  · intro c hc
    obtain ⟨x, hx, htime⟩ := h.goesOff c hc
    exact ⟨x, List.mem_cons_of_mem _ hx, htime⟩
  · refine List.forall_mem_cons.mpr ⟨fun pin => iff_of_false ?_ fun h => UInt32.ne_of_lt hend h.1, h.set⟩
    rw [drives_zero]
    exact Bool.false_ne_true

end Timeline

theorem schedule_timed (hp : p.WellFormed) (hlow : 1 ≤ p.period.toNat) (hhigh : p.period.toNat ≤ 1000000) :
    ∃ start steps, Timed p start steps ∧ p.schedule = (relative start steps).modifyLast (patchLast start) := by
  have hend : 0 < p.endTime := by
    rw [UInt32.lt_iff_toNat_lt, endTime_toNat hhigh]
    show 0 < 5 * p.period.toNat
    omega
  have htimeline := combined_timeline hp hhigh
  have hschedule : p.schedule = dropZero (lastClean (deltas p.combined)) := rfl
  cases hcombined : p.combined with
  | nil => exact absurd hcombined htimeline.ne_nil
  | cons e rest =>
    rw [hcombined] at htimeline hschedule
    rw [deltas_cons] at hschedule
    by_cases hzero : e.hTime = 0
    · have htimed := htimeline.timed_of_zero hend hzero
      have hrelative : relative e rest ≠ [] := fun hnil => htimed.ne_nil (by
        rw [← List.length_eq_zero_iff, ← length_relative e rest, hnil]
        rfl)
      exact ⟨e, rest, htimed, hschedule.trans (dropZero_cons hzero hrelative)⟩
    · refine ⟨⟨0, 0, 0⟩, e :: rest, htimeline.timed hend hzero, ?_⟩
      have hrelative : relative ⟨0, 0, 0⟩ (e :: rest) = e :: relative e rest := by
        rw [relative_cons, UInt32.sub_zero]
      have hpatch : patchLast ⟨0, 0, 0⟩ = fun last => { last with gpioClear := 0 } := by
        funext last
        simp [patchLast]
      rw [hschedule, hrelative, hpatch]
      exact @dropZero_modifyLast (fun last => { last with gpioClear := 0 }) (fun _ => rfl) e hzero (relative e rest)

/-! ### Levels -/

/-- The output register after `gpio_output_set`. -/
def driveOutputs (register set clear : UInt16) : UInt16 := (register ||| set) &&& ~~~clear

/-- The output register at a time, after the actions up to then. The time is counted from the first action, and a load of
the timer passes its ticks. -/
def registerAt (register : UInt16) : List PwmAction → Nat → UInt16
  | [], _ => register
  | .gpioOutputSet set clear _ :: rest, t => registerAt (driveOutputs register set clear) rest t
  | .load ticks :: rest, t => if t < ticks.toNat then register else registerAt register rest (t - ticks.toNat)

/-- The register at a time when steps are played one behind the other. -/
def levelAfter (register : UInt16) : List SingleParam → Nat → UInt16
  | [], _ => register
  | e :: rest, t =>
    if t < e.hTime.toNat then register
    else levelAfter (driveOutputs register e.gpioSet e.gpioClear) rest (t - e.hTime.toNat)

theorem drives_driveOutputs (register set clear : UInt16) {pin : Nat} (hpin : 1 ≤ pin ∧ pin ≤ 12) :
    drives (driveOutputs register set clear) pin = ((drives register pin || drives set pin) && !drives clear pin) := by
  have hbit : pinNum pin < 16 := by
    have hall : ∀ i ∈ List.range 13, 1 ≤ i → pinNum i < 16 := by decide
    exact hall pin (List.mem_range.mpr (by omega)) hpin.1
  simp [drives, driveOutputs, hbit]

/-- A pin is high behind some steps if it was before and none of the steps up to then clears it. -/
theorem levelAfter_relative {pin : Nat} (hpin : 1 ≤ pin ∧ pin ≤ 12) {before : SingleParam} {rest : List SingleParam}
    (hsorted : (before :: rest).Pairwise (·.hTime < ·.hTime)) (register : UInt16) (t : Nat)
    (hset : ∀ e ∈ rest, e.hTime.toNat ≤ before.hTime.toNat + t → drives e.gpioSet pin = false) :
    drives (levelAfter register (relative before rest) t) pin = true ↔
      drives register pin = true ∧
        ∀ e ∈ rest, e.hTime.toNat ≤ before.hTime.toNat + t → drives e.gpioClear pin = false := by
  induction rest generalizing before register t with
  | nil => simp [relative, levelAfter]
  | cons e rest ih =>
    obtain ⟨hbefore, hrest⟩ := List.pairwise_cons.mp hsorted
    obtain ⟨hdifference, hlt⟩ := toNat_sub_of_lt (hbefore e List.mem_cons_self)
    rw [relative_cons, levelAfter]
    dsimp only
    rw [hdifference]
    split_ifs with hearly
    · have hlater : ∀ x ∈ e :: rest, ¬ x.hTime.toNat ≤ before.hTime.toNat + t := by
        intro x hx
        obtain rfl | hx := List.mem_cons.mp hx
        · omega
        · have hx := UInt32.lt_iff_toNat_lt.mp ((List.pairwise_cons.mp hrest).1 x hx)
          omega
      exact (and_iff_left fun x hx hle => absurd hle (hlater x hx)).symm
    · have htime : e.hTime.toNat + (t - (e.hTime.toNat - before.hTime.toNat)) = before.hTime.toNat + t := by omega
      obtain ⟨hfirst, hothers⟩ := List.forall_mem_cons.mp hset
      rw [ih hrest _ _ (htime ▸ hothers), htime, List.forall_mem_cons, drives_driveOutputs _ _ _ hpin, hfirst (by omega)]
      simp [show e.hTime.toNat ≤ before.hTime.toNat + t by omega, and_assoc]

/-- The times of the last step do not depend on what it does to the outputs. -/
theorem levelAfter_modifyLast {f : SingleParam → SingleParam} (hf : ∀ e, (f e).hTime = e.hTime) (register : UInt16)
    (entries : List SingleParam) {t : Nat} (ht : t < (entries.map (·.hTime.toNat)).sum) :
    levelAfter register (entries.modifyLast f) t = levelAfter register entries t := by
  induction entries generalizing register t with
  | nil => rfl
  | cons e rest ih =>
    rw [List.map_cons, List.sum_cons] at ht
    cases rest with
    | nil =>
      have hlt : t < e.hTime.toNat := ht
      exact (if_pos (hf e ▸ hlt)).trans (if_pos hlt).symm
    | cons next rest =>
      rw [modifyLast_cons f e (List.cons_ne_nil next rest), levelAfter, levelAfter]
      split_ifs with hlt
      · rfl
      · exact ih _ (by omega)

/-! ### The handler -/

/-- The handler is at the end of a period, and the next schedule is the one that `pwm_start` built. -/
structure PeriodEnds (s : Driver) : Prop where
  ended : s.single.length - 1 ≤ s.currentChannel
  built : s.singleToggle s.toggle = s.settings.schedule

theorem getD_of_drop {entries : List SingleParam} {i : Nat} {e : SingleParam} {rest : List SingleParam}
    (h : entries.drop i = e :: rest) : entries.getD i default = e ∧ entries.drop (i + 1) = rest := by
  constructor
  · have hhead : (entries.drop i)[0]? = some e := by rw [h]; rfl
    rw [List.getElem?_drop, Nat.add_zero] at hhead
    rw [List.getD_eq_getElem?_getD, hhead, Option.getD_some]
  · rw [← List.tail_drop, h, List.tail_cons]

/-- The actions of the interrupts behind a step of a period. -/
def played (gpio : UInt16) (e : SingleParam) : List SingleParam → List PwmAction
  | [] => []
  | next :: rest => e.output gpio :: .load next.hTime :: played gpio next rest

/-- In the middle of a period the handler plays one step behind the other. -/
theorem trace_tim1Intr {s : Driver} {e : SingleParam} {rest : List SingleParam}
    (hrest : s.single.drop s.currentChannel = e :: rest) :
    pwm.trace s (List.replicate rest.length .tim1Intr) = played s.settings.gpio e rest ∧
      pwm.final s (List.replicate rest.length .tim1Intr) = { s with currentChannel := s.currentChannel + rest.length } := by
  induction rest generalizing s e with
  | nil => exact ⟨rfl, rfl⟩
  | cons next rest ih =>
    have hmiddle : ¬ s.single.length - 1 ≤ s.currentChannel := by
      have hlength := congrArg List.length hrest
      rw [List.length_drop, List.length_cons, List.length_cons] at hlength
      omega
    obtain ⟨hcurrent, hdrop⟩ := getD_of_drop hrest
    have hstep : pwm.step s .tim1Intr = ({ s with currentChannel := s.currentChannel + 1 },
        [e.output s.settings.gpio, .load next.hTime]) := by
      rw [← hcurrent, ← (getD_of_drop hdrop).1]
      exact if_neg hmiddle
    obtain ⟨htrace, hfinal⟩ := @ih { s with currentChannel := s.currentChannel + 1 } next hdrop
    rw [List.length_cons, List.replicate_succ, Machine.trace_cons, Machine.final_cons, Machine.actions, Machine.next, hstep,
      htrace, hfinal, Nat.add_comm rest.length, Nat.add_assoc]
    exact ⟨rfl, rfl⟩

/-- From the start of a period the handler plays the schedule, or leaves the outputs as they are and the timer down. -/
theorem trace_period {s : Driver} (hs : PeriodEnds s) {last e : SingleParam} {rest : List SingleParam}
    (hlast : s.settings.schedule.getLast? = some last) (hschedule : s.settings.schedule = e :: rest) :
    pwm.trace s (List.replicate s.settings.schedule.length .tim1Intr) =
        last.output s.settings.gpio :: loadFirst s.settings.schedule ++ played s.settings.gpio e rest ∧
      PeriodEnds (pwm.final s (List.replicate s.settings.schedule.length .tim1Intr)) := by
  have hstep : pwm.step s .tim1Intr = ({ s with
        playing := s.toggle, currentChannel := 0, timerDown := s.timerDown || s.settings.schedule.length = 1 },
      last.output s.settings.gpio :: loadFirst s.settings.schedule) := by
    have hget : s.settings.schedule.getD (s.settings.schedule.length - 1) default = last := by
      rw [List.getD_eq_getElem?_getD, ← List.getLast?_eq_getElem?, hlast, Option.getD_some]
    rw [← hget, ← hs.built]
    exact if_pos hs.ended
  have hlength : s.settings.schedule.length = rest.length + 1 := by rw [hschedule, List.length_cons]
  obtain ⟨htrace, hfinal⟩ := @trace_tim1Intr { s with playing := s.toggle, currentChannel := 0, timerDown := _ } e rest
    (hs.built.trans hschedule)
  rw [hlength, List.replicate_succ, Machine.trace_cons, Machine.final_cons, Machine.actions, Machine.next, hstep, htrace,
    hfinal]
  refine ⟨rfl, ?_, hs.built⟩
  show (s.singleToggle s.toggle).length - 1 ≤ 0 + rest.length
  rw [hs.built, hlength]
  omega

theorem registerAt_played (gpio : UInt16) (e : SingleParam) {rest : List SingleParam} (register : UInt16) {t : Nat}
    (ht : t < (rest.map (·.hTime.toNat)).sum) :
    registerAt register (played gpio e rest) t = levelAfter (driveOutputs register e.gpioSet e.gpioClear) rest t := by
  induction rest generalizing e register t with
  | nil => exact absurd ht (Nat.not_lt_zero t)
  | cons next rest ih =>
    rw [List.map_cons, List.sum_cons] at ht
    rw [levelAfter]
    show (if t < next.hTime.toNat then driveOutputs register e.gpioSet e.gpioClear else registerAt _ _ _) = _
    split_ifs with hlt
    · rfl
    · exact ih next _ (by omega)

theorem registerAt_period {s : Driver} (hs : PeriodEnds s) {last : SingleParam}
    (hlast : s.settings.schedule.getLast? = some last) (register : UInt16) {t : Nat}
    (ht : t < (s.settings.schedule.map (·.hTime.toNat)).sum) :
    registerAt register (pwm.trace s (List.replicate s.settings.schedule.length .tim1Intr)) t =
      levelAfter (driveOutputs register last.gpioSet last.gpioClear) s.settings.schedule t := by
  cases hschedule : s.settings.schedule with
  | nil =>
    rw [hschedule] at hlast
    exact absurd hlast (by simp)
  | cons e rest =>
    rw [← hschedule, (trace_period hs hlast hschedule).1, hschedule, levelAfter]
    rw [hschedule, List.map_cons, List.sum_cons] at ht
    cases rest with
    | nil =>
      have hlt : t < e.hTime.toNat := ht
      rw [if_pos hlt]
      rfl
    | cons next rest =>
      show (if t < e.hTime.toNat then driveOutputs register last.gpioSet last.gpioClear else registerAt _ _ _) = _
      split_ifs with hlt
      · rfl
      · have hlater : t - e.hTime.toNat < ((next :: rest).map (·.hTime.toNat)).sum := by omega
        exact registerAt_played _ e _ hlater

/-- The ticks that an action takes. -/
def PwmAction.ticks : PwmAction → Nat
  | .gpioOutputSet _ _ _ => 0
  | .load ticks => ticks.toNat

theorem ticks_played (gpio : UInt16) (e : SingleParam) (rest : List SingleParam) :
    ((played gpio e rest).map PwmAction.ticks).sum = (rest.map (·.hTime.toNat)).sum := by
  induction rest generalizing e with
  | nil => rfl
  | cons next rest ih =>
    rw [List.map_cons, List.sum_cons, ← ih next]
    exact Nat.zero_add _

/-- Unless the timer stays down, the next period starts when the times of the schedule are over. -/
theorem ticks_period {s : Driver} (hs : PeriodEnds s) {last : SingleParam}
    (hlast : s.settings.schedule.getLast? = some last) (hsteps : s.settings.schedule.length ≠ 1) :
    ((pwm.trace s (List.replicate s.settings.schedule.length .tim1Intr)).map PwmAction.ticks).sum =
        (s.settings.schedule.map (·.hTime.toNat)).sum ∧
      PeriodEnds (pwm.final s (List.replicate s.settings.schedule.length .tim1Intr)) := by
  cases hschedule : s.settings.schedule with
  | nil =>
    rw [hschedule] at hlast
    exact absurd hlast (by simp)
  | cons e rest =>
    obtain ⟨htrace, hends⟩ := trace_period hs hlast hschedule
    rw [← hschedule, htrace, loadFirst, if_pos hsteps]
    refine ⟨?_, hends⟩
    rw [hschedule, List.map_cons (l := rest), List.sum_cons, ← ticks_played s.settings.gpio e rest]
    exact Nat.zero_add _

/-! ### The waveform -/

theorem map_hTime_modifyLast {f : SingleParam → SingleParam} (hf : ∀ e, (f e).hTime = e.hTime)
    (entries : List SingleParam) :
    (entries.modifyLast f).map (·.hTime.toNat) = entries.map (·.hTime.toNat) := by
  induction entries using List.reverseRecOn with
  | nil => rfl
  | append_singleton entries e _ => rw [List.modifyLast_concat, List.map_append, List.map_append, List.map_singleton,
      List.map_singleton, hf]

/-- The last difference is that of the last entry. -/
theorem relative_concat (before : SingleParam) (entries : List SingleParam) (e : SingleParam) :
    ∃ time, relative before (entries ++ [e]) = relative before entries ++ [{ e with hTime := time }] := by
  induction entries generalizing before with
  | nil => exact ⟨e.hTime - before.hTime, rfl⟩
  | cons first entries ih =>
    obtain ⟨time, htime⟩ := ih first
    exact ⟨time, by rw [List.cons_append, relative_cons, htime, relative_cons, List.cons_append]⟩

section Waveform

variable {start : SingleParam} {steps : List SingleParam}

theorem Timed.getLast_schedule (h : Timed p start steps)
    (hschedule : p.schedule = (relative start steps).modifyLast (patchLast start)) :
    ∃ last, p.schedule.getLast? = some last ∧ last.gpioSet = (steps.getLast h.ne_nil).gpioSet &&& ~~~start.gpioClear ∧
      last.gpioClear = start.gpioClear := by
  obtain ⟨time, htime⟩ := relative_concat start steps.dropLast (steps.getLast h.ne_nil)
  rw [List.dropLast_append_getLast] at htime
  rw [hschedule, htime, List.modifyLast_concat]
  exact ⟨_, List.getLast?_concat, rfl, rfl⟩

theorem Timed.times_schedule (h : Timed p start steps)
    (hschedule : p.schedule = (relative start steps).modifyLast (patchLast start)) :
    (∀ x ∈ p.schedule.map (·.hTime.toNat), 0 < x) ∧ (p.schedule.map (·.hTime.toNat)).sum = p.endTime.toNat := by
  obtain ⟨hpositive, hsum⟩ := relative_times h.sorted
  rw [hschedule, map_hTime_modifyLast (f := patchLast start) fun _ => rfl]
  refine ⟨List.forall_mem_map.mpr hpositive, ?_⟩
  rw [List.getLast_cons h.ne_nil, h.last, h.zero] at hsum
  rw [← hsum]
  exact (Nat.zero_add _).symm

/-- The outputs at the start of a period are high but for the channels that are low all of it. -/
theorem Timed.drives_start (h : Timed p start steps) (hp : p.WellFormed) (hc : c ∈ p.channels) (register : UInt16) :
    drives (driveOutputs register ((steps.getLast h.ne_nil).gpioSet &&& ~~~start.gpioClear) start.gpioClear) c.outIoNum = true ↔
      p.time c ≠ 0 := by
  have hpin := hp.pins c hc
  have hlast : drives (steps.getLast h.ne_nil).gpioSet c.outIoNum = true :=
    (h.set _ (List.mem_cons_of_mem _ (List.getLast_mem h.ne_nil)) _).mpr ⟨h.last, hp.drives_gpio hc⟩
  have hclear := h.clear c hc start List.mem_cons_self
  rw [h.zero] at hclear
  have hset : driveOutputs (steps.getLast h.ne_nil).gpioSet 0 start.gpioClear =
      (steps.getLast h.ne_nil).gpioSet &&& ~~~start.gpioClear := by rw [driveOutputs, UInt16.or_zero]
  rw [drives_driveOutputs _ _ _ hpin, ← hset, drives_driveOutputs _ _ _ hpin, hlast, ne_comm, ne_eq, ← hclear]
  cases drives start.gpioClear c.outIoNum with
  | false => simp
  | true => simp

theorem Timed.drives_level (h : Timed p start steps) (hp : p.WellFormed)
    (hschedule : p.schedule = (relative start steps).modifyLast (patchLast start)) (hc : c ∈ p.channels) {last : SingleParam}
    (hlast : p.schedule.getLast? = some last) (register : UInt16) {t : Nat} (ht : t < p.endTime.toNat) :
    drives (levelAfter (driveOutputs register last.gpioSet last.gpioClear) p.schedule t) c.outIoNum = true ↔
      t < (p.time c).toNat := by
  obtain ⟨last', hlast', hset, hclear⟩ := h.getLast_schedule hschedule
  obtain rfl := Option.some.inj (hlast.symm.trans hlast')
  have hsum := (h.times_schedule hschedule).2
  rw [hschedule, map_hTime_modifyLast (f := patchLast start) fun _ => rfl] at hsum
  have hquiet : ∀ e ∈ steps, e.hTime.toNat ≤ start.hTime.toNat + t → drives e.gpioSet c.outIoNum = false := by
    intro e he hle
    rw [h.zero] at hle
    refine Bool.eq_false_iff.mpr fun hdrives => ?_
    have hend := ((h.set e (List.mem_cons_of_mem _ he) _).mp hdrives).1
    rw [hend] at hle
    exact absurd (hle.trans_eq (Nat.zero_add t)) (not_le.mpr ht)
  rw [hset, hclear, hschedule, levelAfter_modifyLast (f := patchLast start) (fun _ => rfl) _ _ (hsum ▸ ht),
    levelAfter_relative (hp.pins c hc) h.sorted _ _ hquiet, h.drives_start hp hc, h.zero]
  constructor
  · rintro ⟨hne, hlow⟩
    by_contra hover
    obtain ⟨e, he, htime⟩ := h.goesOff c hc
    obtain rfl | hsteps := List.mem_cons.mp he
    · exact hne (htime.symm.trans h.zero)
    · have hle : e.hTime.toNat ≤ (0 : UInt32).toNat + t := htime ▸ (not_lt.mp hover).trans_eq (Nat.zero_add t).symm
      exact Bool.false_ne_true ((hlow e hsteps hle).symm.trans ((h.clear c hc e he).mpr htime))
  · intro hlt
    refine ⟨fun hzero => ?_, fun e he hle => Bool.eq_false_iff.mpr fun hdrives => ?_⟩
    · rw [hzero] at hlt
      exact Nat.not_lt_zero t hlt
    · rw [(h.clear c hc e (List.mem_cons_of_mem _ he)).mp hdrives] at hle
      exact absurd (hle.trans_eq (Nat.zero_add t)) (not_le.mpr hlt)

/-- When every channel goes off at the start or at the end, there is nothing to do in between. -/
theorem Timed.constant (h : Timed p start steps) (hconstant : ∀ c ∈ p.channels, p.time c = 0 ∨ p.time c = p.endTime) :
    steps.length = 1 := by
  obtain ⟨hpositive, hsorted⟩ := List.pairwise_cons.mp h.sorted
  have hend : ∀ e ∈ steps, e.hTime = p.endTime := by
    intro e he
    obtain hend | ⟨c, hc, htime⟩ := h.times e he
    · exact hend
    · obtain hzero | hfull := hconstant c hc
      · exact absurd (h.zero.trans (hzero.symm.trans htime)) (UInt32.ne_of_lt (hpositive e he))
      · exact htime.symm.trans hfull
  match steps, h.ne_nil, hsorted, hend with
  | [_], _, _, _ => rfl
  | e :: next :: _, _, hsorted, hend =>
    have hlt := (List.pairwise_cons.mp hsorted).1 next List.mem_cons_self
    rw [hend e List.mem_cons_self, hend next (List.mem_cons_of_mem _ List.mem_cons_self)] at hlt
    exact absurd hlt (UInt32.lt_irrefl _)

end Waveform

/-- The level of a channel at a time of the period that the handler is about to play. -/
def Driver.level (s : Driver) (register : UInt16) (c : Channel) (t : Nat) : Bool :=
  drives (registerAt register (pwm.trace s (List.replicate s.settings.schedule.length .tim1Intr)) t) c.outIoNum

theorem pwmStart_built (s : Driver) : s.pwmStart.1.singleToggle s.pwmStart.1.toggle = s.settings.schedule := by
  rw [Driver.pwmStart]
  dsimp only
  split_ifs <;> exact Function.update_self _ _ _

/-- The levels of one period: a channel is high for its part of the period from the start on and low for the rest, which
is all of it or nothing for a full duty and for one that is too small. -/
theorem level_iff {s : Driver} (hp : s.settings.WellFormed) (hlow : 1 ≤ s.settings.period.toNat)
    (hhigh : s.settings.period.toNat ≤ 1000000) (hs : PeriodEnds s) (register : UInt16) (hc : c ∈ s.settings.channels) {t : Nat}
    (ht : t < 5 * s.settings.period.toNat) : s.level register c t = decide (t < 5 * s.settings.part c) := by
  obtain ⟨start, steps, htimed, hschedule⟩ := schedule_timed hp hlow hhigh
  obtain ⟨last, hlast, -⟩ := htimed.getLast_schedule hschedule
  have hend := endTime_toNat hhigh
  have hsum := (htimed.times_schedule hschedule).2
  have hlevel := htimed.drives_level hp hschedule hc hlast register (hend ▸ ht)
  rw [time_toNat hhigh (hp.duties c hc)] at hlevel
  rw [Driver.level, registerAt_period hs hlast register (hsum ▸ hend ▸ ht), Bool.eq_iff_iff, hlevel, decide_eq_true_iff]

/-- One step is left when no channel changes in a period, and it sets their levels. -/
theorem schedule_constant (hp : p.WellFormed) (hlow : 1 ≤ p.period.toNat) (hhigh : p.period.toNat ≤ 1000000)
    (hconstant : ∀ c ∈ p.channels, p.part c = 0 ∨ c.duty.toNat = 1023) :
    ∃ e, p.schedule = [e] ∧ ∀ register, ∀ c ∈ p.channels,
      drives (driveOutputs register e.gpioSet e.gpioClear) c.outIoNum = decide (c.duty.toNat = 1023) := by
  obtain ⟨start, steps, htimed, hschedule⟩ := schedule_timed hp hlow hhigh
  obtain ⟨last, hlast, hset, hclear⟩ := htimed.getLast_schedule hschedule
  have hends : ∀ c ∈ p.channels, p.time c = 0 ∨ p.time c = p.endTime := by
    intro c hc
    have htime := time_toNat hhigh (hp.duties c hc)
    obtain hnone | hfull := hconstant c hc
    · exact Or.inl (UInt32.toNat_inj.mp (by rw [htime, hnone]; rfl))
    · have hpart := (part_eq_period_iff hlow (hp.duties c hc)).mpr hfull
      exact Or.inr (UInt32.toNat_inj.mp (by rw [htime, hpart, endTime_toNat hhigh]))
  have hlength : p.schedule.length = 1 := by
    rw [← List.length_map (f := fun e : SingleParam => e.hTime.toNat), hschedule,
      map_hTime_modifyLast (f := patchLast start) fun _ => rfl, List.length_map, length_relative, htimed.constant hends]
  obtain ⟨e, he⟩ := List.length_eq_one_iff.mp hlength
  obtain rfl : e = last := Option.some.inj (by rw [← hlast, he]; rfl)
  refine ⟨e, he, fun register c hc => ?_⟩
  rw [hset, hclear, Bool.eq_iff_iff, htimed.drives_start hp hc, decide_eq_true_iff]
  have htime := time_toNat hhigh (hp.duties c hc)
  have hpart := part_eq_period_iff hlow (hp.duties c hc)
  rw [ne_eq, ← UInt32.toNat_inj, htime]
  show ¬ 5 * p.part c = 0 ↔ c.duty.toNat = 1023
  have hconstant := hconstant c hc
  omega

/-- The schedule of at most six channels on different pins at a frequency of 1 to 1000 Hz, built without overflow and
played by the handler for a period. -/
theorem pwm_schedule (hp : p.WellFormed) {freq : UInt16} (hfreq : 1 ≤ freq.toNat ∧ freq.toNat ≤ 1000)
    (hperiod : p.period = pwm1s / freq.toUInt32) :
    (∀ x ∈ p.products, x < 2 ^ 32) ∧
      (∀ x ∈ p.schedule.map (·.hTime.toNat), 0 < x) ∧
      (p.schedule.map (·.hTime.toNat)).sum = 5 * p.period.toNat ∧
      (∀ s : Driver, s.settings = p → PeriodEnds s → ∀ register, ∀ c ∈ p.channels, ∀ t < 5 * p.period.toNat,
        s.level register c t = decide (t < 5 * p.part c) ∧
          (p.part c = 0 → s.level register c t = false) ∧ (c.duty.toNat = 1023 → s.level register c t = true)) ∧
      (∀ s : Driver, s.settings = p → PeriodEnds s → p.schedule.length ≠ 1 →
        ((pwm.trace s (List.replicate p.schedule.length .tim1Intr)).map PwmAction.ticks).sum = 5 * p.period.toNat ∧
          PeriodEnds (pwm.final s (List.replicate p.schedule.length .tim1Intr))) ∧
      ((∀ c ∈ p.channels, p.part c = 0 ∨ c.duty.toNat = 1023) → ∃ e, p.schedule = [e] ∧ ∀ register, ∀ c ∈ p.channels,
        drives (driveOutputs register e.gpioSet e.gpioClear) c.outIoNum = decide (c.duty.toNat = 1023)) := by
  obtain ⟨hthousand, hhigh⟩ := period_bounds hfreq.1 hfreq.2
  rw [← hperiod] at hthousand hhigh
  have hlow : 1 ≤ p.period.toNat := le_trans (by decide) hthousand
  obtain ⟨start, steps, htimed, hschedule⟩ := schedule_timed hp hlow hhigh
  obtain ⟨last, hlast, -⟩ := htimed.getLast_schedule hschedule
  obtain ⟨hpositive, hsum⟩ := htimed.times_schedule hschedule
  rw [endTime_toNat hhigh] at hsum
  refine ⟨?_, hpositive, hsum, ?_, ?_, schedule_constant hp hlow hhigh⟩
  · refine List.forall_mem_append.mpr ⟨fun x hx => ?_, tickProducts_lt hhigh⟩
    obtain ⟨c, hc, hx⟩ := List.mem_flatMap.mp hx
    obtain rfl | hx := List.mem_cons.mp hx
    · exact product_lt hhigh (hp.duties c hc)
    · exact tickProducts_lt ((part_le (hp.duties c hc)).trans hhigh) x hx
  · rintro s rfl hs register c hc t ht
    have hlevel := level_iff hp hlow hhigh hs register hc ht
    refine ⟨hlevel, fun hnone => ?_, fun hfull => ?_⟩
    · rw [hlevel, hnone]
      exact decide_eq_false (Nat.not_lt_zero t)
    · rw [hlevel, (part_eq_period_iff hlow (hp.duties c hc)).mpr hfull]
      exact decide_eq_true ht
  · rintro s rfl hs hsteps
    obtain ⟨hticks, hends⟩ := ticks_period hs hlast hsteps
    exact ⟨hticks.trans hsum, hends⟩

/-- A channel at half of a period of 1000 microseconds, in the second period after `pwm_start`. -/
theorem pwm_schedule_half : (pwm.final { Driver.boot with settings := ⟨[⟨1, 512⟩], pinBit 1, 1000⟩ } [.start, .tim1Intr]).level
    0 ⟨1, 512⟩ 2499 = true := by
  have hp : Settings.WellFormed ⟨[⟨1, 512⟩], pinBit 1, 1000⟩ := ⟨by decide, by decide, by decide, by decide, rfl⟩
  have hends : PeriodEnds (pwm.final { Driver.boot with settings := ⟨[⟨1, 512⟩], pinBit 1, 1000⟩ } [.start, .tim1Intr]) :=
    ⟨by decide +kernel, by decide +kernel⟩
  have hschedule := @pwm_schedule ⟨[⟨1, 512⟩], pinBit 1, 1000⟩ hp 1000 ⟨by decide, by decide⟩ rfl
  have hlevel := hschedule.2.2.2.1 _ rfl hends 0 ⟨1, 512⟩ (List.mem_singleton_self _) 2499 (by decide)
  exact hlevel.1.trans (by decide)

end EspClock.Pwm
