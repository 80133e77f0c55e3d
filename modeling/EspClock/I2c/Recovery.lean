import EspClock.I2c.Transfers
import Mathlib.Logic.Function.Iterate

/-!
# The pulses of the initialization

`i2c_master_init` gives 28 pulses of the clock with the data line free and a stop, so that a target which a reset of the master
has left in the middle of a transfer lets go of the bus. A target that sends does so behind at most nine pulses. One that
receives takes the pulses for bytes of ones, and with the 28th it may be about to acknowledge the third of them.
-/

namespace EspClock.I2c

variable {σ : Type} {t : Target σ}

namespace Target

/-- A pulse of the clock when no one else pulls the data line. -/
def pulse (t : Target σ) : Target σ := (t.clockRises !t.pulls).clockFalls

theorem iterate_pulse_idle (h : t.mode = .idle) (n : Nat) : pulse^[n] t = t := by
  obtain ⟨address, app, state, mode⟩ := t
  cases h
  exact Function.iterate_fixed rfl n

theorem pulls_iterate_idle (h : t.mode = .idle) (n : Nat) : (pulse^[n] t).pulls = false := by
  rw [iterate_pulse_idle h, pulls, h]

/-- A target that sends lets go behind the byte. -/
theorem mode_iterate_sending {bits : List Bool} (hbits : bits ≠ []) (h : t.mode = .sending bits) :
    (pulse^[bits.length + 1] t).mode = .idle := by
  induction bits generalizing t with
  | nil => exact absurd rfl hbits
  | cons b bits ih =>
    obtain ⟨address, app, state, mode⟩ := t
    cases h
    rw [Function.iterate_succ_apply]
    cases bits with
    | nil => rfl
    | cons c bits => exact ih (List.cons_ne_nil c bits) rfl

theorem pulls_iterate_sending {bits : List Bool} (hbits : bits ≠ []) (h : t.mode = .sending bits) {n : Nat}
    (hn : bits.length + 1 ≤ n) : (pulse^[n] t).pulls = false := by
  rw [show n = (n - (bits.length + 1)) + (bits.length + 1) by omega, Function.iterate_add_apply]
  exact pulls_iterate_idle (mode_iterate_sending hbits h) _

theorem pulls_iterate_load {n : Nat} (hn : 9 ≤ n) : (pulse^[n] t.load).pulls = false := by
  have hmode : t.load.mode = .sending (Bits.ofByte (t.app.next t.state).1) := rfl
  refine pulls_iterate_sending ?_ hmode ?_
  · intro h
    have hlength := congrArg List.length h
    rw [Bits.length_ofByte] at hlength
    cases hlength
  · rw [Bits.length_ofByte]
    exact hn

/-- A target that receives takes a one with every pulse. -/
theorem iterate_pulse_receiving {first : Bool} {bits : List Bool} (h : t.mode = .receiving first bits) {n : Nat}
    (hn : bits.length + n < 8) : pulse^[n] t = { t with mode := .receiving first (bits ++ List.replicate n true) } := by
  induction n generalizing t bits with
  | zero =>
    obtain ⟨address, app, state, mode⟩ := t
    cases h
    rw [List.replicate_zero, List.append_nil]
    rfl
  | succ n ih =>
    have hpulse : t.pulse = { t with mode := .receiving first (bits ++ [true]) } := by
      obtain ⟨address, app, state, mode⟩ := t
      cases h
      have hlength : bits.length ≠ 7 := by omega
      simp [pulse, clockRises, clockFalls, pulls, hlength]
    have hmode : ({ t with mode := .receiving first (bits ++ [true]) } : Target σ).mode = .receiving first (bits ++ [true]) := rfl
    rw [Function.iterate_succ_apply, hpulse, ih hmode (by simp; omega), List.append_assoc, List.replicate_succ]
    rfl

theorem iterate_pulse_last {first : Bool} {bits : List Bool} (h : t.mode = .receiving first bits) {n : Nat}
    (hn : bits.length + n = 8) (hpos : 0 < n) :
    pulse^[n] t = t.decide first (Bits.toByte (bits ++ List.replicate n true)) := by
  obtain ⟨n, rfl⟩ : ∃ m, n = m + 1 := ⟨n - 1, by omega⟩
  rw [Function.iterate_succ_apply', iterate_pulse_receiving h (by omega)]
  have hbits : bits ++ List.replicate (n + 1) true = (bits ++ List.replicate n true) ++ [true] := by
    rw [List.replicate_succ', List.append_assoc]
  simp [pulse, clockRises, clockFalls, pulls, hn, hbits, Party.decide_mode]

/-- A target that acknowledges takes a byte of ones and, if it likes it, acknowledges again. -/
theorem iterate_pulse_acking (h : t.mode = .acking false) : pulse^[9] t =
    match t.app.accept t.state 0xFF with
    | some state => { t with state := state }
    | none => { t with mode := .idle } := by
  have hpulse : t.pulse = { t with mode := .receiving false [] } := by
    obtain ⟨address, app, state, mode⟩ := t
    cases h
    rfl
  have hmode : ({ t with mode := .receiving false [] } : Target σ).mode = .receiving false [] := rfl
  have hones : Bits.toByte ([] ++ List.replicate 8 true) = 0xFF := by decide
  rw [Function.iterate_succ_apply, hpulse, iterate_pulse_last hmode rfl (by decide), hones, Party.decide_mode, decide,
    if_neg Bool.false_ne_true]
  obtain ⟨address, app, state, mode⟩ := t
  cases h
  rfl

/-- It does so behind nine pulses each time. -/
theorem pulls_iterate_acking (h : t.mode = .acking false) (n : Nat) : (pulse^[n] t).pulls = true ↔
    n % 9 = 0 ∧ (t.app.takes t.state (List.replicate (n / 9) 0xFF)).1 = n / 9 := by
  induction n using Nat.strong_induction_on generalizing t with
  | _ n ih =>
    rcases Nat.lt_or_ge n 9 with hlt | hge
    · rcases Nat.eq_zero_or_pos n with rfl | hpos
      · rw [Function.iterate_zero_apply, pulls, h]
        exact iff_of_true rfl ⟨rfl, rfl⟩
      · obtain ⟨m, rfl⟩ : ∃ m, n = m + 1 := ⟨n - 1, by omega⟩
        have hpulse : t.pulse = { t with mode := .receiving false [] } := by
          obtain ⟨address, app, state, mode⟩ := t
          cases h
          rfl
        have hmode : ({ t with mode := .receiving false [] } : Target σ).mode = .receiving false [] := rfl
        rw [Function.iterate_succ_apply, hpulse, iterate_pulse_receiving hmode (by rw [List.length_nil]; omega)]
        refine iff_of_false (by simp [pulls]) ?_
        rintro ⟨hmod, -⟩
        omega
    · obtain ⟨m, rfl⟩ : ∃ m, n = m + 9 := ⟨n - 9, by omega⟩
      rw [Function.iterate_add_apply, iterate_pulse_acking h, show (m + 9) / 9 = m / 9 + 1 by omega, List.replicate_succ,
        Application.takes]
      cases haccept : t.app.accept t.state 0xFF with
      | none =>
        dsimp only
        rw [pulls_iterate_idle rfl]
        refine iff_of_false Bool.false_ne_true ?_
        rintro ⟨-, hzero⟩
        omega
      | some state =>
        dsimp only
        rw [ih m (by omega) (t := { t with state := state }) h]
        dsimp only
        constructor
        · rintro ⟨hmod, htakes⟩
          exact ⟨by omega, by omega⟩
        · rintro ⟨hmod, htakes⟩
          exact ⟨by omega, by omega⟩

theorem toByte_and_one (bits : List Bool) : Bits.toByte (bits ++ [true]) &&& 1 = 1 := by
  rw [← UInt8.toNat_inj, UInt8.toNat_and]
  refine (Nat.and_one_is_mod _).trans ?_
  rw [Bits.toByte, List.foldl_append, UInt8.toNat_ofNat']
  show (2 * _ + 1) % 256 % 2 = 1
  omega

theorem pulls_iterate_last {bits : List Bool} {first : Bool} (h : t.mode = .receiving first bits) (hlength : bits.length < 8) :
    (pulse^[27] t).pulls = false := by
  have hones : bits ++ List.replicate (8 - bits.length) true = (bits ++ List.replicate (7 - bits.length) true) ++ [true] := by
    rw [show 8 - bits.length = (7 - bits.length) + 1 by omega, List.replicate_succ', List.append_assoc]
  have hlast := toByte_and_one (bits ++ List.replicate (7 - bits.length) true)
  rw [← hones] at hlast
  rw [show 27 = (19 + bits.length) + (8 - bits.length) by omega, Function.iterate_add_apply,
    iterate_pulse_last h (by omega) (by omega), decide]
  generalize Bits.toByte (bits ++ List.replicate (8 - bits.length) true) = byte at hlast
  cases first with
  | true =>
    by_cases haddress : byte >>> 1 = t.address
    · rw [if_pos rfl, if_pos haddress, hlast, show 19 + bits.length = (18 + bits.length) + 1 by omega, Function.iterate_succ_apply]
      exact pulls_iterate_load (t := { t with state := t.app.addressed t.state true, mode := .acking true }) (by omega)
    · rw [if_pos rfl, if_neg haddress]
      exact pulls_iterate_idle rfl _
  | false =>
    rw [if_neg Bool.false_ne_true]
    cases haccept : t.app.accept t.state byte with
    | none => exact pulls_iterate_idle rfl _
    | some state =>
      rw [← Bool.not_eq_true]
      dsimp only
      rw [pulls_iterate_acking rfl]
      rintro ⟨hmod, -⟩
      omega

end Target

/-- Where a target is while the clock is low. -/
def Mode.Low : Mode → Prop
  | .receiving _ bits => bits.length < 8
  | .sending bits => bits ≠ [] ∧ bits.length ≤ 8
  | _ => True

/-- With the last of 28 pulses the target pulls the data line in one case only. -/
theorem Target.pulls_iterate_iff (h : t.mode.Low) : (pulse^[27] t).pulls = true ↔
    t.mode = .acking false ∧ (t.app.takes t.state [0xFF, 0xFF, 0xFF]).1 = 3 := by
  cases hmode : t.mode with
  | idle =>
    rw [pulls_iterate_idle hmode]
    exact iff_of_false Bool.false_ne_true fun h => by cases h.1
  | receiving first bits =>
    rw [hmode] at h
    rw [pulls_iterate_last hmode h]
    exact iff_of_false Bool.false_ne_true fun h => by cases h.1
  | acking reading =>
    cases reading with
    | false =>
      rw [pulls_iterate_acking hmode]
      exact and_congr (iff_of_true rfl rfl) Iff.rfl
    | true =>
      have hpulse : t.pulse = t.load := by
        obtain ⟨address, app, state, mode⟩ := t
        cases hmode
        rfl
      rw [Function.iterate_succ_apply, hpulse, pulls_iterate_load (by decide)]
      exact iff_of_false Bool.false_ne_true fun h => by cases h.1
  | sending bits =>
    rw [hmode] at h
    rw [pulls_iterate_sending h.1 hmode (by have hlength := h.2; omega)]
    exact iff_of_false Bool.false_ne_true fun h => by cases h.1
  | awaiting acked =>
    have hpulse : t.pulse.mode = .idle := by
      obtain ⟨address, app, state, mode⟩ := t
      cases hmode
      rfl
    rw [Function.iterate_succ_apply, pulls_iterate_idle hpulse]
    exact iff_of_false Bool.false_ne_true fun h => by cases h.1

/-! ### The bus -/

variable {b : Bus σ} {before behind : List (Target σ)}

theorem any_pulls_lone (hidle : ∀ u ∈ before ++ behind, u.mode = .idle) (u : Target σ) :
    (before ++ u :: behind).any Target.pulls = u.pulls := by
  have hsilent : ∀ us : List (Target σ), (∀ u ∈ us, u.mode = .idle) → us.any Target.pulls = false := by
    intro us hus
    rw [List.any_eq_false]
    intro u hu
    rw [Target.pulls, hus u hu]
    decide
  rw [List.any_append, List.any_cons, hsilent before fun u hu => hidle u (List.mem_append_left _ hu),
    hsilent behind fun u hu => hidle u (List.mem_append_right _ hu), Bool.false_or, Bool.or_false]

theorem map_lone {f : Target σ → Target σ} (hf : ∀ u, u.mode = .idle → f u = u)
    (hidle : ∀ u ∈ before ++ behind, u.mode = .idle) (u : Target σ) :
    (before ++ u :: behind).map f = before ++ f u :: behind := by
  have hsame : ∀ us : List (Target σ), (∀ u ∈ us, u.mode = .idle) → us.map f = us :=
    fun us hus => (List.map_congr_left fun u hu => hf u (hus u hu)).trans (List.map_id' us)
  rw [List.map_append, List.map_cons, hsame before fun u hu => hidle u (List.mem_append_left _ hu),
    hsame behind fun u hu => hidle u (List.mem_append_right _ hu)]

theorem clockFalls_idle {u : Target σ} (h : u.mode = .idle) : u.clockFalls = u := by
  rw [Target.clockFalls, h]

theorem clockRises_idle {u : Target σ} (h : u.mode = .idle) (line : Bool) : u.clockRises line = u := by
  rw [Target.clockRises, h]

/-- The pulses leave the clock high. -/
theorem pulses_eq (hidle : ∀ u ∈ before ++ behind, u.mode = .idle) (n : Nat)
    (h : b.setDC true false = ⟨true, false, before ++ t :: behind⟩) :
    ∃ line, pulses (n + 1) b = ⟨true, true, before ++ (Target.pulse^[n] t).clockRises line :: behind⟩ := by
  have hrise : (b.setDC true false).setDC true true = ⟨true, true, before ++ t.clockRises (!t.pulls) :: behind⟩ := by
    rw [h, Bus.setDC_rise, any_pulls_lone hidle, Bool.true_and, map_lone (fun u hu => clockRises_idle hu _) hidle]
  induction n generalizing b t with
  | zero => exact ⟨!t.pulls, hrise⟩
  | succ n ih =>
    have hfall : ((b.setDC true false).setDC true true).setDC true false = ⟨true, false, before ++ t.pulse :: behind⟩ := by
      rw [hrise, Bus.setDC_fall, map_lone (fun u hu => clockFalls_idle hu) hidle]
      rfl
    rw [pulses, Function.iterate_succ_apply]
    refine ih hfall ?_
    rw [hfall, Bus.setDC_rise, any_pulls_lone hidle, Bool.true_and, map_lone (fun u hu => clockRises_idle hu _) hidle]

/-- The initialization frees the bus of a target that was left in the middle of a transfer, unless the target is about to
acknowledge a byte and takes three more bytes of ones. -/
theorem masterInit_frees_iff (hbus : (b.setDC true false).targets = before ++ t :: behind)
    (hidle : ∀ u ∈ before ++ behind, u.mode = .idle) (hlow : t.mode.Low) :
    (∀ u ∈ (masterInit b).targets, u.mode = .idle) ↔
      ¬ (t.mode = .acking false ∧ (t.app.takes t.state [0xFF, 0xFF, 0xFF]).1 = 3) := by
  have hfirst : b.setDC true false = ⟨true, false, before ++ t :: behind⟩ := by
    rw [← hbus]
    obtain ⟨sda, scl, targets⟩ := b
    cases scl
    · rw [Bus.setDC_low]
    · rw [Bus.setDC_fall]
  have htoggled : (((b.setDC true false).setDC false false).setDC true false).setDC true false =
      ⟨true, false, before ++ t :: behind⟩ := by
    rw [hfirst, Bus.setDC_low, Bus.setDC_low, Bus.setDC_low]
  obtain ⟨line, hpulses⟩ := pulses_eq hidle 27 htoggled
  have hpulls := any_pulls_lone hidle ((Target.pulse^[27] t).clockRises line)
  rw [pulls_clockRises] at hpulls
  rw [← Target.pulls_iterate_iff hlow]
  have hinit : masterInit b = masterStop ⟨true, true, before ++ (Target.pulse^[27] t).clockRises line :: behind⟩ := by
    rw [← hpulses]
    rfl
  rw [hinit]
  simp only [masterStop]
  cases hlast : (Target.pulse^[27] t).pulls
  · rw [hlast] at hpulls
    rw [Bus.setDC_started, hpulls, if_neg Bool.false_ne_true, Bus.setDC_same, Bus.setDC_stopped, any_pulls_started,
      if_neg Bool.false_ne_true, stopped_started]
    refine iff_of_true ?_ Bool.false_ne_true
    intro u hu
    obtain ⟨v, -, rfl⟩ := List.mem_map.mp hu
    rfl
  · rw [hlast] at hpulls
    rw [Bus.setDC_started, hpulls, if_pos rfl, Bus.setDC_same, Bus.setDC_stopped, hpulls, if_pos rfl]
    refine iff_of_false ?_ (fun h => h rfl)
    intro hall
    have hmode := hall _ (List.mem_append_right before List.mem_cons_self)
    have hpulled : ((Target.pulse^[27] t).clockRises line).pulls = true := by rw [pulls_clockRises, hlast]
    rw [Target.pulls, hmode] at hpulled
    cases hpulled

/-- A reset of the master in the middle of a byte. -/
theorem masterInit_frees_iff_reset :
    ((masterInit ⟨true, true, [⟨0x50, registers, (some 0, [1, 2]), .idle⟩,
      ⟨0x68, registers, (some 0, [0x12, 0x59, 0x23]), .receiving false [true, true, true]⟩]⟩).targets.all
        fun u => decide (u.mode = .idle)) = true := by
  rw [List.all_eq_true]
  have hfrees := (@masterInit_frees_iff _ ⟨0x68, registers, (some 0, [0x12, 0x59, 0x23]), .receiving false [true, true, true]⟩
    ⟨true, true, [⟨0x50, registers, (some 0, [1, 2]), .idle⟩,
      ⟨0x68, registers, (some 0, [0x12, 0x59, 0x23]), .receiving false [true, true, true]⟩]⟩
    [⟨0x50, registers, (some 0, [1, 2]), .idle⟩] [] rfl (by decide) (show 3 < 8 by decide)).mpr fun h => by cases h.1
  exact fun u hu => decide_eq_true (hfrees u hu)

end EspClock.I2c
