import EspClock.Lib.Run
import Mathlib.Data.Rat.Cast.Order
import Mathlib.Algebra.BigOperators.Group.List.Basic
import Mathlib.Algebra.Order.Field.Basic
import Mathlib.Tactic.Linarith
import Mathlib.Tactic.NormNum

/-!
# The microseconds of the real time clock

A timer samples the counter of the clock, which wraps at 32 bits, and adds the counts since the last sample, scaled by a
calibration value in units of 1/4096 microseconds. The product is taken in two parts that cannot overflow, and together
they are the whole product rounded down once.
-/

namespace EspClock.Tmr

/-- `cur_count` and `rtc_us`. -/
structure Rtc where
  curCount : UInt64
  rtcUs : UInt64

def Rtc.initial : Rtc := ⟨0, 0⟩

/-- The callback on the answers of `system_get_rtc_time` and `system_rtc_clock_cali_proc`. -/
def rtcTimerUpdateCb (s : Rtc) (time c : UInt32) : Rtc :=
  let t := time.toUInt64
  let delta := if s.curCount ≤ t then t - s.curCount else 0x100000000 + t - s.curCount
  let itg := (c >>> 12).toUInt64
  let dec := (c &&& 0xFFF).toUInt64
  { curCount := t, rtcUs := s.rtcUs + (delta * itg + (delta * dec) >>> 12) }

def tmrTime (s : Rtc) : UInt32 := (s.rtcUs / 1000000).toUInt32 &&& 0x7FFFFFFF

/-! ### The counter -/

/-- The clock's own count, of which a sample shows 32 bits, and what the program keeps. -/
structure Clock where
  count : Nat
  rtc : Rtc

def Clock.initial : Clock := ⟨0, Rtc.initial⟩

/-- One update: how far the counter has gone since the last one, and the calibration value. -/
structure Update where
  advance : Nat
  cali : UInt32

/-- The counts of an update in whole microseconds. -/
def Update.gain (u : Update) : Nat := u.advance * u.cali.toNat / 4096

def clock : Machine Clock Update Unit :=
  ⟨fun s u => (⟨s.count + u.advance, rtcTimerUpdateCb s.rtc (UInt32.ofNat (s.count + u.advance)) u.cali⟩, [])⟩

/-- What the program keeps is the last sample. -/
def Clock.Sampled (s : Clock) : Prop := s.rtc.curCount.toNat = s.count % 2 ^ 32

/-! ### One update -/

/-- A product in two parts: the whole units of a factor, and the rest of it. -/
theorem mul_div_split (x c m : Nat) (hm : 0 < m) : x * (c / m) + x * (c % m) / m = x * c / m := by
  have hproduct : x * c = m * (x * (c / m)) + x * (c % m) := by
    rw [← Nat.mul_left_comm, ← Nat.mul_add, Nat.div_add_mod]
  rw [hproduct, Nat.mul_add_div hm]

/-- The difference of two samples is how far the counter has gone, whether it has wrapped or not. -/
theorem delta_toNat {last t : UInt64} {count advance : Nat} (hlast : last.toNat = count % 2 ^ 32)
    (ht : t.toNat = (count + advance) % 2 ^ 32) (hadvance : advance < 2 ^ 32) :
    (if last ≤ t then t - last else 0x100000000 + t - last).toNat = advance := by
  split_ifs with hle
  · rw [UInt64.toNat_sub_of_le _ _ hle]
    have := UInt64.le_iff_toNat_le.mp hle
    omega
  · have hlt := UInt64.lt_iff_toNat_lt.mp (UInt64.not_le.mp hle)
    have hsum : ((0x100000000 : UInt64) + t).toNat = 2 ^ 32 + t.toNat := by
      rw [UInt64.toNat_add]
      show (4294967296 + t.toNat) % 2 ^ 64 = _
      omega
    rw [UInt64.toNat_sub_of_le _ _ (UInt64.le_iff_toNat_le.mpr (by omega)), hsum]
    omega

/-- The two parts of the product do not overflow. -/
theorem scaled_toNat {delta : UInt64} (hdelta : delta.toNat < 2 ^ 32) (c : UInt32) :
    (delta * (c >>> 12).toUInt64 + (delta * (c &&& 0xFFF).toUInt64) >>> 12).toNat = delta.toNat * c.toNat / 4096 := by
  have hitg : (c >>> 12).toUInt64.toNat = c.toNat / 4096 := by
    rw [UInt32.toNat_toUInt64, UInt32.toNat_shiftRight]
    exact Nat.shiftRight_eq_div_pow c.toNat 12
  have hdec : (c &&& 0xFFF).toUInt64.toNat = c.toNat % 4096 := by
    rw [UInt32.toNat_toUInt64, UInt32.toNat_and]
    exact Nat.and_two_pow_sub_one_eq_mod c.toNat 12
  have hc := c.toNat_lt
  have hwhole : delta.toNat * (c.toNat / 4096) ≤ 2 ^ 32 * 2 ^ 20 := Nat.mul_le_mul hdelta.le (by omega)
  have hrest : delta.toNat * (c.toNat % 4096) ≤ 2 ^ 32 * 2 ^ 12 := Nat.mul_le_mul hdelta.le (by omega)
  have hshift : ((delta * (c &&& 0xFFF).toUInt64) >>> 12).toNat = delta.toNat * (c.toNat % 4096) / 4096 := by
    rw [UInt64.toNat_shiftRight, UInt64.toNat_mul, hdec, Nat.mod_eq_of_lt (by omega)]
    exact Nat.shiftRight_eq_div_pow _ 12
  rw [UInt64.toNat_add, UInt64.toNat_mul, hitg, hshift, Nat.mod_eq_of_lt (a := delta.toNat * _) (by omega),
    Nat.mod_eq_of_lt (by omega), mul_div_split _ _ _ (by omega)]

theorem update_spec {s : Clock} (hs : s.Sampled) {u : Update} (hu : u.advance < 2 ^ 32) :
    (clock.next s u).Sampled ∧
      (clock.next s u).rtc.rtcUs.toNat = (s.rtc.rtcUs.toNat + u.gain) % 2 ^ 64 := by
  have ht : (UInt32.ofNat (s.count + u.advance)).toUInt64.toNat = (s.count + u.advance) % 2 ^ 32 := by
    rw [UInt32.toNat_toUInt64]
    exact UInt32.toNat_ofNat'
  have hdelta := delta_toNat hs ht hu
  refine ⟨ht, ?_⟩
  show (s.rtc.rtcUs + _).toNat = _
  rw [UInt64.toNat_add, scaled_toNat (hdelta.trans_lt hu), hdelta]
  rfl

/-! ### Every run -/

/-- The microseconds of a run, before each update is rounded down. -/
def exactSum (us : List Update) : ℚ := (us.map fun u => (u.advance * u.cali.toNat : ℚ) / 4096).sum

/-- Rounding down loses less than a microsecond. -/
theorem gain_bounds (u : Update) :
    (u.gain : ℚ) ≤ u.advance * u.cali.toNat / 4096 ∧ (u.advance * u.cali.toNat / 4096 : ℚ) ≤ u.gain + 1 := by
  have hle : u.gain * 4096 ≤ u.advance * u.cali.toNat := Nat.div_mul_le_self _ _
  have hlt : u.advance * u.cali.toNat < (u.gain + 1) * 4096 := (Nat.div_lt_iff_lt_mul (by norm_num)).mp (Nat.lt_succ_self _)
  constructor
  · rw [le_div_iff₀ (by norm_num)]
    exact_mod_cast hle
  · rw [div_le_iff₀ (by norm_num)]
    exact_mod_cast hlt.le

theorem gains_bounds (us : List Update) :
    exactSum us - us.length ≤ (us.map Update.gain).sum ∧ ((us.map Update.gain).sum : ℚ) ≤ exactSum us := by
  induction us with
  | nil => exact ⟨by simp [exactSum], by simp [exactSum]⟩
  | cons u us ih =>
    obtain ⟨hbelow, habove⟩ := gain_bounds u
    have hsum : exactSum (u :: us) = u.advance * u.cali.toNat / 4096 + exactSum us := rfl
    rw [hsum, List.map_cons, List.sum_cons, List.length_cons]
    simp only [Nat.cast_add, Nat.cast_one]
    constructor
    · linarith [ih.1]
    · linarith [ih.2]

/-- From a state whose samples are right, every update adds its gain. -/
theorem run_spec {us : List Update} (hus : ∀ u ∈ us, u.advance < 2 ^ 32) {s : Clock} (hs : s.Sampled) :
    clock.Along (fun s u => (clock.next s u).rtc.rtcUs.toNat = (s.rtc.rtcUs.toNat + u.gain) % 2 ^ 64) s us ∧
      (clock.final s us).rtc.rtcUs.toNat = (s.rtc.rtcUs.toNat + (us.map Update.gain).sum) % 2 ^ 64 := by
  induction us generalizing s with
  | nil => exact ⟨trivial, (Nat.mod_eq_of_lt s.rtc.rtcUs.toNat_lt).symm⟩
  | cons u us ih =>
    obtain ⟨hu, hus⟩ := List.forall_mem_cons.mp hus
    obtain ⟨hnext, hadds⟩ := update_spec hs hu
    obtain ⟨halong, hfinal⟩ := ih hus hnext
    refine ⟨⟨hadds, halong⟩, ?_⟩
    rw [Machine.final_cons, hfinal, hadds, List.map_cons, List.sum_cons]
    omega

/-- While the microseconds fit, no update makes them fewer. -/
theorem run_mono {us : List Update} (hus : ∀ u ∈ us, u.advance < 2 ^ 32) {s : Clock} (hs : s.Sampled)
    (hfits : s.rtc.rtcUs.toNat + (us.map Update.gain).sum < 2 ^ 64) :
    clock.Along (fun s u => s.rtc.rtcUs ≤ (clock.next s u).rtc.rtcUs) s us := by
  induction us generalizing s with
  | nil => trivial
  | cons u us ih =>
    obtain ⟨hu, hus⟩ := List.forall_mem_cons.mp hus
    obtain ⟨hnext, hadds⟩ := update_spec hs hu
    rw [List.map_cons, List.sum_cons] at hfits
    rw [Nat.mod_eq_of_lt (by omega)] at hadds
    exact ⟨UInt64.le_iff_toNat_le.mpr (by omega), ih hus hnext (by omega)⟩

/-- The mask and the cut to 32 bits leave the seconds below 2^31. -/
theorem tmrTime_toNat (s : Rtc) : (tmrTime s).toNat = s.rtcUs.toNat / 1000000 % 2 ^ 31 := by
  have hmask : (tmrTime s).toNat = (s.rtcUs / 1000000).toUInt32.toNat % 2 ^ 31 := by
    rw [tmrTime, UInt32.toNat_and]
    exact Nat.and_two_pow_sub_one_eq_mod _ 31
  rw [hmask, UInt64.toNat_toUInt32, UInt64.toNat_div]
  show s.rtcUs.toNat / 1000000 % 2 ^ 32 % 2 ^ 31 = _
  omega

/-- In every run of updates of a counter that advances by less than 2^32 between them, with any calibration values: each
update adds the product rounded down; while the sum fits 64 bits the microseconds never get fewer and are at most one for
each update below the exact sum; and `tmr.time()` is the seconds modulo 2^31. -/
theorem rtc_accumulation (us : List Update) (hus : ∀ u ∈ us, u.advance < 2 ^ 32) :
    let s := clock.final Clock.initial us
    clock.Along (fun s u => (clock.next s u).rtc.rtcUs.toNat = (s.rtc.rtcUs.toNat + u.advance * u.cali.toNat / 4096) % 2 ^ 64)
        Clock.initial us ∧
      ((us.map Update.gain).sum < 2 ^ 64 →
        clock.Along (fun s u => s.rtc.rtcUs ≤ (clock.next s u).rtc.rtcUs) Clock.initial us ∧
          exactSum us - us.length ≤ s.rtc.rtcUs.toNat ∧ (s.rtc.rtcUs.toNat : ℚ) ≤ exactSum us) ∧
      (tmrTime s.rtc).toNat = s.rtc.rtcUs.toNat / 1000000 % 2 ^ 31 := by
  intro s
  have hinitial : Clock.initial.Sampled := rfl
  obtain ⟨hadds, hfinal⟩ := run_spec hus hinitial
  refine ⟨hadds, fun hfits => ⟨run_mono hus hinitial ?_, ?_⟩, tmrTime_toNat s.rtc⟩
  · exact (Nat.zero_add _).trans_lt hfits
  · have hsum : s.rtc.rtcUs.toNat = (us.map Update.gain).sum :=
      hfinal.trans ((Nat.mod_eq_of_lt ((Nat.zero_add _).trans_lt hfits)).trans (Nat.zero_add _))
    rw [hsum]
    exact gains_bounds us

/-- The counter wraps between two updates. -/
theorem rtc_accumulation_wrap :
    (tmrTime (clock.final Clock.initial [⟨4294967295, 25000⟩, ⟨4294967295, 25001⟩]).rtc).toNat = 52429 :=
  (rtc_accumulation [⟨4294967295, 25000⟩, ⟨4294967295, 25001⟩] (by decide)).2.2.trans (by decide)

end EspClock.Tmr
