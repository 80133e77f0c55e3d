import EspClock.Dht.Readings

/-!
# The age of the cache

The clock that `read` looks at starts again every 2^31 microseconds. When it is behind the time of the last measurement,
that time is forgotten and the clock counts as the age of the data. So an answer from the cache is recent as long as no
old data are asked for within two seconds of a new start of the clock.

Times are true times in microseconds, which have no bound.
-/

namespace EspClock.Dht

open Mem Led

/-- A call of `read` and the time that passed since the call before it. -/
structure ReadCall where
  elapsed : Fin (2 ^ 31)
  wave : Wave

/-- A sensor, the time of its last call and the one of its last measurement. -/
structure Clocked where
  sensor : Sensor
  now : Nat
  measured : Option Nat

def Clocked.at (s : Clocked) (c : ReadCall) : Nat := s.now + c.elapsed

/-- A sequence of calls of `read`. -/
def clocked : Machine Clocked ReadCall Action where
  step s c :=
    let reading := s.sensor.read (s.at c) c.wave
    (⟨reading.sensor, s.at c, if s.sensor.cached (s.at c) then s.measured else some (s.at c)⟩, reading.actions)

/-- An answer from the cache is less than two seconds old. -/
def Fresh (s : Clocked) (c : ReadCall) : Prop :=
  s.sensor.cached (s.at c) = true → ∃ measured, s.measured = some measured ∧ s.at c < measured + 2000000

/-- The clock has not started again since the last measurement, or less than two seconds have passed since then, or the
clock shows at least two seconds; in the last case the clock has started again before the last call, or less than 2^31
microseconds have passed. -/
def Unmistakable (s : Clocked) (c : ReadCall) : Prop :=
  ∀ measured, s.measured = some measured →
    s.at c / 2 ^ 31 = measured / 2 ^ 31 ∨ s.at c < measured + 2000000 ∨
      2000000 ≤ s.at c % 2 ^ 31 ∧ (s.now / 2 ^ 31 = measured / 2 ^ 31 → s.at c < measured + 2 ^ 31)

/-- The sensor of a state in which all answers from the cache were fresh: the time of the last measurement is forgotten as
soon as the clock has started again. -/
structure Timed (s : Clocked) : Prop where
  first : s.measured = none → s.sensor.firstReading = true
  last : ∀ measured, s.measured = some measured → s.sensor.firstReading = false ∧ measured ≤ s.now ∧
    s.now < measured + 2000000 ∧
    s.sensor.lastReadTime = if s.now / 2 ^ 31 = measured / 2 ^ 31 then measured % 2 ^ 31 else 0

/-! ### One call -/

theorem masked_time (time : Nat) : time &&& 0x7FFFFFFF = time % 2 ^ 31 :=
  Nat.and_two_pow_sub_one_eq_mod time 31

theorem cached_eq (s : Sensor) (time : Nat) :
    s.cached time = (!s.firstReading && decide (sub32 (time % 2 ^ 31) (s.rolledOver (time % 2 ^ 31)).lastReadTime < 2000000)) := by
  rw [Sensor.cached, masked_time]

theorem lastReadTime_rolledOver (s : Sensor) (currentTime : Nat) :
    (s.rolledOver currentTime).lastReadTime = if currentTime < s.lastReadTime then 0 else s.lastReadTime := by
  rw [Sensor.rolledOver]
  split_ifs <;> simp

/-- What the test of `read` compares, for a time within the clock. -/
theorem cached_iff {s : Sensor} (time : Nat) (hfirst : s.firstReading = false) :
    s.cached time = true ↔
      if time % 2 ^ 31 < s.lastReadTime then time % 2 ^ 31 < 2000000 else time % 2 ^ 31 < s.lastReadTime + 2000000 := by
  rw [cached_eq, hfirst, lastReadTime_rolledOver, Bool.not_false, Bool.true_and, decide_eq_true_eq]
  split_ifs with hbehind
  · rw [sub32_of_le (Nat.zero_le _) (by omega), Nat.sub_zero]
  · rw [sub32_of_le (by omega) (by omega)]
    omega

theorem cached_of_first {s : Sensor} (hfirst : s.firstReading = true) (time : Nat) : s.cached time = false := by
  rw [cached_eq, hfirst, Bool.not_true, Bool.false_and]

theorem fresh_iff {s : Clocked} (h : Timed s) (c : ReadCall) : Fresh s c ↔ Unmistakable s c := by
  cases hmeasured : s.measured with
  | none =>
    have hcached := cached_of_first (h.first hmeasured) (s.at c)
    refine iff_of_true (fun hc => ?_) (fun measured hm => ?_)
    · exact absurd (hcached.symm.trans hc) Bool.false_ne_true
    · exact nomatch hmeasured.symm.trans hm
  | some measured =>
    obtain ⟨hfirst, hle, hrecent, hlast⟩ := h.last measured hmeasured
    have hlt := c.elapsed.isLt
    have hat : s.at c = s.now + c.elapsed := rfl
    have hcached := cached_iff (s.at c) hfirst
    rw [hlast] at hcached
    simp only [Fresh, Unmistakable, hmeasured, Option.some.injEq, forall_eq', exists_eq_left']
    rw [hcached]
    split_ifs <;> omega

theorem step_timed {s : Clocked} (h : Timed s) {c : ReadCall} (hok : Unmistakable s c) : Timed (clocked.next s c) := by
  have hfresh := (fresh_iff h c).mpr hok
  have hnext : clocked.next s c = ⟨(s.sensor.read (s.at c) c.wave).sensor, s.at c,
      if s.sensor.cached (s.at c) then s.measured else some (s.at c)⟩ := rfl
  rw [hnext]
  cases hcached : s.sensor.cached (s.at c) with
  | true =>
    obtain ⟨measured, hmeasured, hage⟩ := hfresh hcached
    obtain ⟨hfirst, hle, hrecent, hlast⟩ := h.last measured hmeasured
    have hlt := c.elapsed.isLt
    have hat : s.at c = s.now + c.elapsed := rfl
    rw [read_cached hcached, if_pos rfl, hmeasured]
    refine ⟨fun hnone => absurd hnone (Option.some_ne_none _), fun m hm => ?_⟩
    obtain rfl := Option.some.inj hm
    refine ⟨(rolledOver_fixed _ _).2.2.2.trans hfirst, by dsimp only; omega, hage, ?_⟩
    dsimp only
    rw [masked_time, lastReadTime_rolledOver, hlast]
    split_ifs <;> omega
  | false =>
    rw [if_neg Bool.false_ne_true]
    refine ⟨fun hnone => absurd hnone (Option.some_ne_none _), fun m hm => ?_⟩
    obtain rfl := Option.some.inj hm
    by_cases hvalid : Valid s.sensor.count c.wave
    · rw [read_valid hcached hvalid]
      exact ⟨rfl, le_rfl, by dsimp only; omega, (masked_time _).trans (if_pos rfl).symm⟩
    · rw [read_invalid hcached hvalid]
      exact ⟨rfl, le_rfl, by dsimp only; omega, (masked_time _).trans (if_pos rfl).symm⟩

/-! ### Sequences of calls -/

/-- A sensor as it was set up, which no call has read yet. -/
def unread (sensor : Sensor) (start : Nat) : Clocked := ⟨sensor, start, none⟩

theorem unread_timed {sensor : Sensor} (hfirst : sensor.firstReading = true) (start : Nat) : Timed (unread sensor start) :=
  ⟨fun _ => hfirst, fun _ hm => nomatch hm⟩

/-- All answers from the cache are less than two seconds old exactly if no call can mistake the age of the data. -/
theorem cache_age_iff (board : Board) (pin type count : LuaValue) (sensor : Sensor) (start : Nat) (calls : List ReadCall)
    (hsetup : dhtSetup board pin type count = .ok sensor) :
    clocked.Along Fresh (unread sensor start) calls ↔ clocked.Along Unmistakable (unread sensor start) calls :=
  Machine.along_iff_of_along (I := Timed) (fun _ _ h hok => step_timed h hok) (fun _ c h => fresh_iff h c)
    (unread_timed (dhtSetup_spec hsetup) start) calls

/-- Two calls, one millisecond apart. -/
theorem cache_age_iff_fresh :
    clocked.Along Fresh (unread fresh 0) [⟨1000, silent⟩, ⟨1000, silent⟩] ↔
      clocked.Along Unmistakable (unread fresh 0) [⟨1000, silent⟩, ⟨1000, silent⟩] :=
  cache_age_iff working (.number [52] 4) (.number [50, 50] 22) .other fresh 0 _ dhtSetup_working

/-- A measurement one millisecond after the clock has started, and a call half a millisecond after it starts again. -/
def halfAnHour : List ReadCall := [⟨1000, silent⟩, ⟨Fin.ofNat _ (2 ^ 31 - 500), silent⟩]

theorem old_data_after_restart : ¬clocked.Along Fresh (unread fresh 0) halfAnHour := by
  rintro ⟨-, hfresh, -⟩
  have hcached : (clocked.next (unread fresh 0) ⟨1000, silent⟩).sensor.cached (2 ^ 31 + 500) = true := by decide +kernel
  obtain ⟨measured, hmeasured, hage⟩ := hfresh hcached
  have hfirst : (clocked.next (unread fresh 0) ⟨1000, silent⟩).measured = some 1000 := by decide +kernel
  obtain rfl : 1000 = measured := Option.some.inj (hfirst.symm.trans hmeasured)
  exact absurd hage (by decide +kernel)

end EspClock.Dht
