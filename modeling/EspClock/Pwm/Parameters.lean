import EspClock.Pwm.Channels

/-!
# Frequencies and duties from Lua

`pwm.setup`, `pwm.setclock` and `pwm.setduty` check their signed arguments in the Lua glue, the platform layer passes
them on as unsigned words and cuts them to 16 bits, and the driver clamps what it gets. A frequency from 65536 on is cut
before it is clamped, and a negative duty passes the check of `pwm.setduty`.
-/

namespace EspClock.Pwm

open Mem

/-- `NUM_PWM` -/
def numPwm : Nat := 13

/-- What the platform layer and the driver keep. -/
structure Platform where
  table : Table
  freq : UInt16
  pwmsDuty : Block UInt16 numPwm

/-! ### The driver and the platform layer -/

/-- `pwm_exist` -/
def Table.exist (t : Table) (channel : UInt8) : Bool := (List.range pwmChannel).any fun i => t.holds i channel

/-- The clamp of `pwm_set_freq`. -/
def clampFreq (freq : UInt16) : UInt16 := if pwmFreqMax < freq then pwmFreqMax else if freq < 1 then 1 else freq

/-- `DUTY` -/
def toDuty (d : UInt32) : UInt16 := (d * 1023 / 1023).toUInt16

/-- `NORMAL_DUTY` -/
def normalDuty (d : UInt32) : UInt32 := d * 1023 / 1023

def platformPwmExists (id : UInt32) : Bool := decide (id < 13 ∧ 0 < id)

def Platform.getClock (s : Platform) (pin : UInt32) : UInt32 :=
  if 13 ≤ pin then 0 else if s.table.exist pin.toUInt8 then s.freq.toUInt32 else 0

def Platform.setClock (s : Platform) (pin clock : UInt32) : Platform × UInt32 :=
  if 13 ≤ pin then (s, 0)
  else if s.table.exist pin.toUInt8 then
    let s := { s with freq := clampFreq clock.toUInt16 }
    (s, s.freq.toUInt32)
  else (s, 0)

def Platform.getDuty (s : Platform) (pin : UInt32) : UInt32 :=
  if pin < 13 then if s.table.exist pin.toUInt8 then (s.pwmsDuty.get pin.toNat).toUInt32 else 0
  else 0

def Platform.setDuty (s : Platform) (pin duty : UInt32) : Platform × UInt32 :=
  if pin < 13 then
    if s.table.exist pin.toUInt8 then
      let t := s.table.setDuty (toDuty duty) pin.toUInt8
      let set := normalDuty (t.getDuty pin.toUInt8).toUInt32
      ({ s with table := t, pwmsDuty := s.pwmsDuty.set pin.toNat set.toUInt16 }, set.toUInt16.toUInt32)
    else (s, 0)
  else (s, 0)

def Platform.setup (s : Platform) (pin frequency duty : UInt32) : Platform × UInt32 :=
  if pin < 13 then
    let (t, added) := s.table.add pin.toUInt8
    if added then
      let s : Platform := { table := t.setDuty 0 pin.toUInt8
                            freq := clampFreq frequency.toUInt16
                            pwmsDuty := s.pwmsDuty.set pin.toNat duty.toUInt16 }
      (s, s.getClock pin)
    else ({ s with table := t }, 0)
  else (s, 0)

/-! ### The Lua module -/

/-- `MOD_CHECK_ID` -/
def checkId (id : UInt32) : Except String Unit :=
  if platformPwmExists id then .ok () else .error ("pwm " ++ toString id.toInt32.toInt ++ " does not exist")

def wrongArgRange : String := "wrong arg range"

/-- Each function on the integers that `luaL_checkinteger` gets: the state it leaves and what it returns, or its error. -/
def lpwmSetup (s : Platform) (id freq duty : Int32) : Except String (Platform × Int32) := do
  if id.toUInt32 = 0 then throw "no pwm for D0"
  checkId id.toUInt32
  if freq ≤ 0 then throw wrongArgRange
  if 1023 < duty.toUInt32 then throw wrongArgRange
  let (s, clock) := s.setup id.toUInt32 freq.toUInt32 duty.toUInt32
  if clock = 0 then throw "too many pwms."
  return (s, clock.toInt32)

def lpwmSetclock (s : Platform) (id clk : Int32) : Except String (Platform × Int32) := do
  checkId id.toUInt32
  if clk ≤ 0 then throw wrongArgRange
  let (s, clock) := s.setClock id.toUInt32 clk.toUInt32
  return (s, clock.toInt32)

def lpwmGetclock (s : Platform) (id : Int32) : Except String Int32 := do
  checkId id.toUInt32
  return (s.getClock id.toUInt32).toInt32

def lpwmSetduty (s : Platform) (id duty : Int32) : Except String (Platform × Int32) := do
  checkId id.toUInt32
  if 1023 < duty then throw wrongArgRange
  let (s, set) := s.setDuty id.toUInt32 duty.toUInt32
  return (s, set.toInt32)

def lpwmGetduty (s : Platform) (id : Int32) : Except String Int32 := do
  checkId id.toUInt32
  return (s.getDuty id.toUInt32).toInt32

/-! ### What the functions keep -/

/-- A function raises an error or leaves a state with a property. -/
def ErrorOr (result : Except String (Platform × Int32)) (P : Platform → Prop) : Prop :=
  match result with
  | .error _ => True
  | .ok (s, _) => P s

/-- `pwm.getclock` gives the frequency, cut at the largest one. -/
def KeepsFreq (id freq : Int32) (s : Platform) : Prop :=
  1 ≤ freq.toInt ∧ ∃ clock, lpwmGetclock s id = .ok clock ∧ clock.toInt = min freq.toInt 1000

/-- `pwm.getduty` gives the duty, which is one of those there are. -/
def KeepsDuty (id duty : Int32) (s : Platform) : Prop :=
  0 ≤ duty.toInt ∧ duty.toInt ≤ 1023 ∧ lpwmGetduty s id = .ok duty

/-- A frequency that is refused, or that 16 bits do not cut below the largest one. -/
def FreqFits (freq : Int32) : Prop := freq.toInt < 65536 ∨ 1000 ≤ freq.toInt % 65536

instance (freq : Int32) : Decidable (FreqFits freq) := inferInstanceAs (Decidable (_ ∨ _))

/-- The integer of a pin. -/
def pinId (pin : UInt8) : Int32 := Int32.ofNat pin.toNat

theorem pinId_spec {pin : UInt8} (hpin : 1 ≤ pin.toNat ∧ pin.toNat ≤ 12) :
    platformPwmExists (pinId pin).toUInt32 = true ∧ (pinId pin).toUInt32 ≠ 0 ∧ (pinId pin).toUInt32 < 13 ∧
      (pinId pin).toUInt32.toUInt8 = pin ∧ (pinId pin).toUInt32.toNat = pin.toNat := by
  have hall : ∀ n ∈ List.range 13, 1 ≤ n → platformPwmExists (Int32.ofNat n).toUInt32 = true ∧ (Int32.ofNat n).toUInt32 ≠ 0 ∧
      (Int32.ofNat n).toUInt32 < 13 ∧ (Int32.ofNat n).toUInt32.toUInt8 = UInt8.ofNat n ∧ (Int32.ofNat n).toUInt32.toNat = n := by
    decide
  have hspec := hall pin.toNat (List.mem_range.mpr (by omega)) hpin.1
  rwa [UInt8.ofNat_toNat] at hspec

/-! ### Integers and words -/

theorem toUInt32_toNat (x : Int32) : (x.toUInt32.toNat : Int) = x.toInt % 2 ^ 32 := by
  have hcond := BitVec.toInt_eq_toNat_cond x.toBitVec
  have hlt := x.toBitVec.isLt
  show (x.toBitVec.toNat : Int) = x.toBitVec.toInt % 2 ^ 32
  split at hcond <;> omega

theorem toInt32_toInt (x : UInt16) : x.toUInt32.toInt32.toInt = x.toNat := by
  have hcond := BitVec.toInt_eq_toNat_cond x.toUInt32.toBitVec
  have hlt := x.toNat_lt
  have hnat : x.toUInt32.toBitVec.toNat = x.toNat := UInt16.toNat_toUInt32 x
  show x.toUInt32.toBitVec.toInt = x.toNat
  rw [hnat] at hcond
  rw [hcond, if_pos (by omega)]

/-- A word that is a small integer. -/
theorem toInt32_eq_iff (x : UInt16) (y : Int32) : x.toUInt32.toInt32 = y ↔ (x.toNat : Int) = y.toInt := by
  rw [← Int32.toInt_inj, toInt32_toInt]

theorem clampFreq_toNat (freq : UInt16) : (clampFreq freq).toNat = if 1000 < freq.toNat then 1000 else max 1 freq.toNat := by
  show (if (1000 : UInt16) < freq then (1000 : UInt16) else if freq < 1 then 1 else freq).toNat = _
  rw [apply_ite UInt16.toNat, apply_ite UInt16.toNat]
  simp only [UInt16.lt_iff_toNat_lt]
  show (if 1000 < freq.toNat then 1000 else if freq.toNat < 1 then 1 else freq.toNat) = _
  split_ifs <;> omega

theorem clampFreq_ne_zero (freq : UInt16) : (clampFreq freq).toUInt32 ≠ 0 := by
  intro hzero
  have hvalue := congrArg UInt32.toNat hzero
  rw [UInt16.toNat_toUInt32, clampFreq_toNat] at hvalue
  split_ifs at hvalue
  · exact absurd hvalue (by decide)
  · exact absurd hvalue (Nat.pos_iff_ne_zero.mp (lt_of_lt_of_le Nat.zero_lt_one (le_max_left _ _)))

/-- The clamp undoes the cut to 16 bits for the frequencies that fit. -/
theorem clampFreq_eq_iff {freq : Int32} (hpos : 0 < freq.toInt) :
    ((clampFreq freq.toUInt32.toUInt16).toNat : Int) = min freq.toInt 1000 ↔ FreqFits freq := by
  have hword := toUInt32_toNat freq
  have hlt := Int32.toInt_lt freq
  have hcut : freq.toUInt32.toUInt16.toNat = freq.toUInt32.toNat % 2 ^ 16 := UInt32.toNat_toUInt16 _
  rw [clampFreq_toNat, hcut, FreqFits]
  split_ifs <;> omega

theorem toDuty_toNat {d : UInt32} (hd : d.toNat ≤ 1023) : (toDuty d).toNat = d.toNat ∧ normalDuty d = d := by
  have hproduct : (d * 1023 / 1023).toNat = d.toNat := by
    rw [UInt32.toNat_div, UInt32.toNat_mul]
    show d.toNat * 1023 % 2 ^ 32 / 1023 = d.toNat
    omega
  refine ⟨?_, UInt32.toNat_inj.mp hproduct⟩
  rw [toDuty, UInt32.toNat_toUInt16, hproduct]
  omega

theorem fits_of_nonpos {freq : Int32} (hpos : freq ≤ 0) : FreqFits freq := by
  have hle := Int32.le_iff_toInt_le.mp hpos
  rw [Int32.toInt_zero] at hle
  exact Or.inl (by omega)

/-! ### A pin in use -/

theorem exist_iff {t : Table} {p : Settings} (h : Represents t p) (hp : p.WellFormed) (pin : UInt8) :
    t.exist pin = true ↔ pin.toNat ∈ p.channels.map Channel.outIoNum := by
  rw [Table.exist, List.any_eq_true]
  constructor
  · rintro ⟨i, hi, hholds⟩
    by_cases hfront : i < p.channels.length
    · have hsplit : p.channels = p.channels.take i ++ p.channels[i] :: p.channels.drop (i + 1) := by
        rw [List.getElem_cons_drop, List.take_append_drop]
      have hindex := h.holds_eq hp pin hsplit
      rw [List.length_take_of_le hfront.le, hholds] at hindex
      exact of_decide_eq_true hindex.symm ▸ List.mem_map_of_mem (List.getElem_mem hfront)
    · have hfree := h.holds_free pin (not_lt.mp hfront) (List.mem_range.mp hi)
      exact absurd (hfree.symm.trans hholds) Bool.false_ne_true
  · intro hmember
    obtain ⟨pre, c, post, hchannels, hpin, -, -⟩ := hp.split hmember
    have hfew := hp.few
    rw [hchannels, List.length_append, List.length_cons] at hfew
    refine ⟨pre.length, List.mem_range.mpr (by omega), ?_⟩
    rw [h.holds_eq hp pin hchannels]
    exact decide_eq_true hpin

theorem setDuty_member (p : Settings) (duty : UInt16) (channel pin : Nat) :
    pin ∈ (p.setDuty duty channel).channels.map Channel.outIoNum ↔ pin ∈ p.channels.map Channel.outIoNum := by
  rw [← not_iff_not, ← dutyOf_eq_none, ← dutyOf_eq_none, dutyOf_setDuty]
  split_ifs with heq
  · exact Option.map_eq_none_iff
  · exact Iff.rfl

/-- The arrays hold channels, and the pin is one of them. -/
def InUse (t : Table) (pin : UInt8) : Prop :=
  ∃ p, Represents t p ∧ p.WellFormed ∧ pin.toNat ∈ p.channels.map Channel.outIoNum

section InUse

variable {t : Table} {s : Platform} {pin : UInt8}

theorem InUse.exist (h : InUse t pin) : t.exist pin = true := by
  obtain ⟨p, hrepresents, hp, hmember⟩ := h
  exact (exist_iff hrepresents hp pin).mpr hmember

theorem InUse.setDuty (h : InUse t pin) (duty : UInt16) (channel : UInt8) : InUse (t.setDuty duty channel) pin := by
  obtain ⟨p, hrepresents, hp, hmember⟩ := h
  exact ⟨p.setDuty duty channel.toNat, hrepresents.setDuty hp channel duty, hp.setDuty duty,
    (setDuty_member p duty channel.toNat pin.toNat).mpr hmember⟩

theorem InUse.getDuty_setDuty (h : InUse t pin) (duty : UInt16) : (t.setDuty duty pin).getDuty pin = min duty 1023 := by
  obtain ⟨p, hrepresents, hp, hmember⟩ := h
  have hsome : ∃ old, p.dutyOf pin.toNat = some old := Option.ne_none_iff_exists'.mp fun hnone => dutyOf_eq_none.mp hnone hmember
  obtain ⟨old, hold⟩ := hsome
  have hduty : (p.setDuty duty pin.toNat).dutyOf pin.toNat = _ := dutyOf_setDuty duty pin.toNat
  rw [if_pos rfl, hold] at hduty
  rw [(hrepresents.setDuty hp pin duty).getDuty (hp.setDuty duty)]
  exact congrArg (·.getD 0) hduty

theorem InUse.add (h : InUse t pin) : (t.add pin).2 = true ∧ InUse (t.add pin).1 pin := by
  obtain ⟨p, hrepresents, hp, hmember⟩ := h
  obtain ⟨hadd, hadded⟩ := hrepresents.add hp pin
  rw [Settings.add, if_pos hmember] at hadd
  exact ⟨hadded.mpr (Or.inl hmember), p, hadd, hp, hmember⟩

variable (hpin : 1 ≤ pin.toNat ∧ pin.toNat ≤ 12)
include hpin

theorem checkId_pin : checkId (pinId pin).toUInt32 = .ok () := if_pos (pinId_spec hpin).1

theorem lpwmGetclock_eq (h : InUse s.table pin) : lpwmGetclock s (pinId pin) = .ok s.freq.toUInt32.toInt32 := by
  obtain ⟨-, -, hlt, hcut, -⟩ := pinId_spec hpin
  rw [lpwmGetclock, checkId_pin hpin, Platform.getClock, if_neg (UInt32.not_le.mpr hlt), hcut, if_pos h.exist]
  rfl

theorem lpwmGetduty_eq (h : InUse s.table pin) :
    lpwmGetduty s (pinId pin) = .ok (s.pwmsDuty.get pin.toNat).toUInt32.toInt32 := by
  obtain ⟨-, -, hlt, hcut, hnat⟩ := pinId_spec hpin
  rw [lpwmGetduty, checkId_pin hpin, Platform.getDuty, if_pos hlt, hcut, if_pos h.exist, hnat]
  rfl

theorem keepsFreq_iff (h : InUse s.table pin) {freq : Int32} (hpos : 0 < freq.toInt)
    (hfreq : s.freq = clampFreq freq.toUInt32.toUInt16) : KeepsFreq (pinId pin) freq s ↔ FreqFits freq := by
  rw [← clampFreq_eq_iff hpos, ← hfreq, ← toInt32_toInt]
  constructor
  · rintro ⟨-, clock, hclock, hvalue⟩
    rw [lpwmGetclock_eq hpin h] at hclock
    exact Except.ok.inj hclock ▸ hvalue
  · intro hvalue
    exact ⟨hpos, _, lpwmGetclock_eq hpin h, hvalue⟩

theorem keepsDuty_iff (h : InUse s.table pin) {duty : Int32} :
    KeepsDuty (pinId pin) duty s ↔
      0 ≤ duty.toInt ∧ duty.toInt ≤ 1023 ∧ ((s.pwmsDuty.get pin.toNat).toNat : Int) = duty.toInt := by
  rw [KeepsDuty, lpwmGetduty_eq hpin h, ← toInt32_eq_iff]
  exact and_congr_right fun _ => and_congr_right fun _ => ⟨Except.ok.inj, congrArg _⟩

/-! ### The three functions for a pin in use -/

theorem lpwmSetclock_iff (h : InUse s.table pin) (freq : Int32) :
    ErrorOr (lpwmSetclock s (pinId pin) freq) (KeepsFreq (pinId pin) freq) ↔ FreqFits freq := by
  obtain ⟨-, -, hlt, hcut, -⟩ := pinId_spec hpin
  rw [lpwmSetclock, checkId_pin hpin]
  by_cases hpos : freq ≤ 0
  · rw [if_pos hpos]
    exact iff_of_true trivial (fits_of_nonpos hpos)
  · have hpos' : 0 < freq.toInt := Int32.lt_iff_toInt_lt.mp (Int32.not_le.mp hpos)
    rw [if_neg hpos, Platform.setClock, if_neg (UInt32.not_le.mpr hlt), hcut, if_pos h.exist]
    exact keepsFreq_iff (s := { s with freq := clampFreq freq.toUInt32.toUInt16 }) hpin h hpos' rfl

omit hpin in
/-- A duty in range comes back from the driver. -/
theorem InUse.normalDuty_eq (h : InUse t pin) {duty : UInt32} (hduty : duty.toNat ≤ 1023) :
    (normalDuty ((t.setDuty (toDuty duty) pin).getDuty pin).toUInt32).toUInt16.toNat = duty.toNat := by
  have hto := (toDuty_toNat hduty).1
  have hmin : min (toDuty duty) 1023 = toDuty duty := by
    refine if_pos (UInt16.le_iff_toNat_le.mpr ?_)
    rw [hto]
    exact hduty
  have hword : (toDuty duty).toUInt32.toNat = duty.toNat := (UInt16.toNat_toUInt32 _).trans hto
  rw [h.getDuty_setDuty, hmin, (toDuty_toNat (hword.trans_le hduty)).2, UInt32.toNat_toUInt16, hword]
  omega

theorem lpwmSetduty_iff (h : InUse s.table pin) (duty : Int32) :
    ErrorOr (lpwmSetduty s (pinId pin) duty) (KeepsDuty (pinId pin) duty) ↔ 0 ≤ duty.toInt := by
  obtain ⟨-, -, hlt, hcut, hnat⟩ := pinId_spec hpin
  have hword := toUInt32_toNat duty
  rw [lpwmSetduty, checkId_pin hpin]
  by_cases hlarge : 1023 < duty
  · have hpos : 0 ≤ duty.toInt := le_trans (by decide) (Int32.lt_iff_toInt_lt.mp hlarge).le
    rw [if_pos hlarge]
    exact iff_of_true trivial hpos
  · have hle : duty.toInt ≤ 1023 := Int32.le_iff_toInt_le.mp (Int32.not_lt.mp hlarge)
    rw [if_neg hlarge, Platform.setDuty, if_pos hlt, hcut, if_pos h.exist, hnat]
    refine (keepsDuty_iff hpin (h.setDuty (toDuty duty.toUInt32) pin)).trans ⟨fun hkeeps => hkeeps.1, fun hpos => ⟨hpos, hle, ?_⟩⟩
    rw [Block.get_set _ _ (show pin.toNat < numPwm by rw [numPwm]; omega), h.normalDuty_eq (by omega)]
    omega

theorem setup_eq (h : InUse s.table pin) (freq duty : UInt32) :
    s.setup (pinId pin).toUInt32 freq duty =
      ({ table := (s.table.add pin).1.setDuty 0 pin
         freq := clampFreq freq.toUInt16
         pwmsDuty := s.pwmsDuty.set pin.toNat duty.toUInt16 }, (clampFreq freq.toUInt16).toUInt32) := by
  obtain ⟨-, -, hlt, hcut, hnat⟩ := pinId_spec hpin
  obtain ⟨hadded, hadd⟩ := h.add
  rw [Platform.setup, if_pos hlt, hcut, hnat]
  dsimp only
  rw [if_pos hadded, Platform.getClock, if_neg (UInt32.not_le.mpr hlt), hcut]
  dsimp only
  rw [if_pos (hadd.setDuty 0 pin).exist]

theorem lpwmSetup_iff (h : InUse s.table pin) (freq duty : Int32) :
    ErrorOr (lpwmSetup s (pinId pin) freq duty) (fun s => KeepsFreq (pinId pin) freq s ∧ KeepsDuty (pinId pin) duty s) ↔
      FreqFits freq ∨ ¬ (0 ≤ duty.toInt ∧ duty.toInt ≤ 1023) := by
  have hword := toUInt32_toNat duty
  have hlower := duty.le_toInt
  have hupper := duty.toInt_lt
  have hsize : 1023 < duty.toUInt32 ↔ 1023 < duty.toUInt32.toNat := UInt32.lt_iff_toNat_lt
  rw [lpwmSetup, if_neg (pinId_spec hpin).2.1, checkId_pin hpin]
  by_cases hpos : freq ≤ 0
  · rw [if_pos hpos]
    exact iff_of_true trivial (Or.inl (fits_of_nonpos hpos))
  · rw [if_neg hpos]
    by_cases hlarge : 1023 < duty.toUInt32
    · have hout : ¬ (0 ≤ duty.toInt ∧ duty.toInt ≤ 1023) := by
        rw [hsize] at hlarge
        omega
      rw [if_pos hlarge]
      exact iff_of_true trivial (Or.inr hout)
    · have hin : (0 ≤ duty.toInt ∧ duty.toInt ≤ 1023) ∧ (duty.toUInt32.toNat : Int) = duty.toInt := by
        rw [hsize] at hlarge
        omega
      have hcell : (duty.toUInt32.toUInt16.toNat : Int) = duty.toInt := by
        rw [UInt32.toNat_toUInt16]
        omega
      rw [if_neg hlarge, setup_eq hpin h]
      dsimp only
      rw [if_neg (clampFreq_ne_zero _)]
      have hinUse := h.add.2.setDuty 0 pin
      refine (and_congr (keepsFreq_iff hpin hinUse (Int32.lt_iff_toInt_lt.mp (Int32.not_le.mp hpos)) rfl) (keepsDuty_iff hpin hinUse)).trans ?_
      rw [Block.get_set _ _ (show pin.toNat < numPwm by rw [numPwm]; omega), hcell]
      constructor
      · exact fun hkeeps => Or.inl hkeeps.1
      · intro hfits
        exact ⟨hfits.resolve_right (not_not.mpr hin.1), hin.1.1, hin.1.2, rfl⟩

end InUse

/-- For a pin in use in every run and all integers: `pwm.setup` keeps the parameters or raises an error if and only if the
frequency fits or the duty is refused, `pwm.setclock` if and only if the frequency fits, and `pwm.setduty` if and only if
the duty is not negative. -/
theorem pwm_parameters (es : List TableEvent) (hes : ∀ e ∈ es, 1 ≤ e.channel.toNat ∧ e.channel.toNat ≤ 12) (s : Platform)
    (hs : s.table = table.final Table.initial es) (pin : UInt8) (hpin : 1 ≤ pin.toNat ∧ pin.toNat ≤ 12)
    (hused : pin.toInt8 ∈ s.table.used) (freq duty : Int32) :
    let id := pinId pin
    (ErrorOr (lpwmSetup s id freq duty) (fun s => KeepsFreq id freq s ∧ KeepsDuty id duty s) ↔
        FreqFits freq ∨ ¬ (0 ≤ duty.toInt ∧ duty.toInt ≤ 1023)) ∧
      (ErrorOr (lpwmSetclock s id freq) (KeepsFreq id freq) ↔ FreqFits freq) ∧
      (ErrorOr (lpwmSetduty s id duty) (KeepsDuty id duty) ↔ 0 ≤ duty.toInt) := by
  obtain ⟨p, hrepresents, hp, -⟩ := run_follows hes
  rw [← hs] at hrepresents
  have hinUse : InUse s.table pin := ⟨p, hrepresents, hp, (mem_used hrepresents hp hpin).mp hused⟩
  exact ⟨lpwmSetup_iff hpin hinUse freq duty, lpwmSetclock_iff hpin hinUse freq, lpwmSetduty_iff hpin hinUse duty⟩

/-- A platform with pin 1 in use. -/
def pinOne : Platform := ⟨(Table.initial.add 1).1, 500, Block.fill numPwm 0⟩

/-- On pin 1 the largest frequency before the cut is refused or kept. -/
theorem pwm_parameters_pin_one :
    ErrorOr (lpwmSetclock pinOne (pinId 1) 65535) (KeepsFreq (pinId 1) 65535) :=
  ((pwm_parameters [.add 1] (by decide) pinOne rfl 1 (by decide) (by decide) 65535 0).2.1).mpr (Or.inl (by decide))

/-- `pwm.setclock` makes the frequency 65536 a 1, and `pwm.setduty` makes the duty -1 a 1023. -/
theorem parameters_turned :
    (lpwmSetclock pinOne (pinId 1) 65536).map (fun r => lpwmGetclock r.1 (pinId 1)) = .ok (.ok 1) ∧
      (lpwmSetduty pinOne (pinId 1) (-1)).map (fun r => lpwmGetduty r.1 (pinId 1)) = .ok (.ok 1023) ∧
      ¬ ErrorOr (lpwmSetclock pinOne (pinId 1) 65536) (KeepsFreq (pinId 1) 65536) ∧
      ¬ ErrorOr (lpwmSetduty pinOne (pinId 1) (-1)) (KeepsDuty (pinId 1) (-1)) := by
  obtain ⟨hrepresents, -⟩ := initial_follows.represents.add initial_follows.wellFormed 1
  have hinUse : InUse pinOne.table 1 := ⟨_, hrepresents, initial_follows.wellFormed.add (by decide), by decide⟩
  refine ⟨rfl, rfl, fun hkeeps => ?_, fun hkeeps => ?_⟩
  · exact absurd ((lpwmSetclock_iff (by decide) hinUse 65536).mp hkeeps) (by decide)
  · exact absurd ((lpwmSetduty_iff (by decide) hinUse (-1)).mp hkeeps) (by decide)

end EspClock.Pwm
