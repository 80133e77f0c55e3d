import EspClock.I2c.Master
import EspClock.Lib.Run
import Mathlib.Data.List.Lattice

/-!
# The bus byte by byte

Between two calls of the driver every target is idle, waits for a byte or has a byte to send. The calls move the parties of the
bus from one such state to the next: a byte that is transferred is the conjunction of what the master and the targets that
send have for it, the targets that wait for it take it, and it is acknowledged when any of them does or the master. This is
proved of the lines and their edges, for any number of targets that listen and send at the same time.
-/

namespace EspClock.I2c

variable {σ : Type}

/-! ### The parties -/

/-- What a target is about between two calls of the driver. -/
inductive Session where
  | idle
  | expecting (first : Bool)
  | sending (byte : UInt8)
  deriving DecidableEq

structure Party (σ : Type) where
  address : UInt8
  app : Application σ
  state : σ
  session : Session

namespace Party

/-- What the party has for a byte on the line. -/
def drives (p : Party σ) : UInt8 :=
  match p.session with
  | .sending byte => byte
  | _ => 0xFF

/-- The party acknowledges the byte on the line. -/
def acks (line : UInt8) (p : Party σ) : Bool :=
  match p.session with
  | .expecting true => line >>> 1 = p.address
  | .expecting false => (p.app.accept p.state line).isSome
  | _ => false

def load (p : Party σ) : Party σ :=
  let next := p.app.next p.state
  { p with state := next.2, session := .sending next.1 }

/-- The party behind a byte and its acknowledgement. -/
def after (line : UInt8) (acked : Bool) (p : Party σ) : Party σ :=
  match p.session with
  | .idle => p
  | .expecting true =>
    if line >>> 1 = p.address then
      let p := { p with state := p.app.addressed p.state (line &&& 1 == 1) }
      if line &&& 1 == 1 then p.load else { p with session := .expecting false }
    else { p with session := .idle }
  | .expecting false =>
    match p.app.accept p.state line with
    | some state => { p with state := state }
    | none => { p with session := .idle }
  | .sending _ => if acked then p.load else { p with session := .idle }

end Party

/-- The byte on the line when the master has the byte `w` for it. -/
def onLine (w : UInt8) (ps : List (Party σ)) : UInt8 := ps.foldl (fun line p => line &&& p.drives) w

/-- A byte is transferred, for which the master has the byte `w` and the acknowledgement `ack`. -/
def transfer (w : UInt8) (ack : Bool) (ps : List (Party σ)) : UInt8 × Bool × List (Party σ) :=
  let line := onLine w ps
  let acked := ack || ps.any (Party.acks line)
  (line, acked, ps.map (Party.after line acked))

/-! ### The lines -/

namespace Bus

theorem getDC_eq (s c : Bool) (targets : List (Target σ)) : getDC ⟨s, c, targets⟩ = (s && !targets.any Target.pulls) := rfl

theorem setDC_low (s d : Bool) (targets : List (Target σ)) : setDC d false ⟨s, false, targets⟩ = ⟨d, false, targets⟩ := by
  simp [setDC, clockDown, changeData, clockUp]

theorem setDC_fall (s d : Bool) (targets : List (Target σ)) :
    setDC d false ⟨s, true, targets⟩ = ⟨d, false, targets.map Target.clockFalls⟩ := by
  simp [setDC, clockDown, changeData, clockUp]

theorem setDC_rise (s d : Bool) (targets : List (Target σ)) :
    setDC d true ⟨s, false, targets⟩ = ⟨d, true, targets.map (Target.clockRises (d && !targets.any Target.pulls))⟩ := by
  simp [setDC, clockDown, changeData, clockUp, getDC]

theorem setDC_same (d : Bool) (targets : List (Target σ)) : setDC d true ⟨d, true, targets⟩ = ⟨d, true, targets⟩ := by
  cases d <;> cases h : targets.any Target.pulls <;> simp [setDC, clockDown, changeData, clockUp, getDC, h]

/-- The data line falls while the clock is high. -/
theorem setDC_started (targets : List (Target σ)) : setDC false true ⟨true, true, targets⟩ =
    ⟨false, true, if targets.any Target.pulls then targets else targets.map Target.started⟩ := by
  cases h : targets.any Target.pulls <;> simp [setDC, clockDown, changeData, clockUp, getDC, h]

/-- The data line rises while the clock is high. -/
theorem setDC_stopped (targets : List (Target σ)) : setDC true true ⟨false, true, targets⟩ =
    ⟨true, true, if targets.any Target.pulls then targets else targets.map Target.stopped⟩ := by
  cases h : targets.any Target.pulls <;> simp [setDC, clockDown, changeData, clockUp, getDC, h]

end Bus

/-! ### The bits of a byte -/

theorem testBit_ones {i : Nat} (hi : i < 8) : (0xFF : UInt8).toNat.testBit i = true := by
  have hall : ∀ i < 8, (0xFF : UInt8).toNat.testBit i = true := by decide
  exact hall i hi

theorem testBit_onLine (w : UInt8) (ps : List (Party σ)) (i : Nat) :
    (onLine w ps).toNat.testBit i = (w.toNat.testBit i && ps.all fun p => p.drives.toNat.testBit i) := by
  rw [onLine]
  induction ps generalizing w with
  | nil => simp
  | cons p ps ih => rw [List.foldl_cons, ih, UInt8.toNat_and, Nat.testBit_and, List.all_cons, Bool.and_assoc]

namespace Session

/-- Between two calls a target has no bits of a byte yet, or all of one still to send. -/
def mode : Session → Mode
  | .idle => .idle
  | .expecting first => .receiving first []
  | .sending byte => .sending (Bits.ofByte byte)

/-- Behind the given bits of a byte. -/
def modeBehind (heard : List Bool) : Session → Mode
  | .idle => .idle
  | .expecting first => .receiving first heard
  | .sending byte => .sending ((Bits.ofByte byte).drop heard.length)

end Session

namespace Party

def target (p : Party σ) : Target σ := ⟨p.address, p.app, p.state, p.session.mode⟩

/-- The target behind the given bits of a byte. -/
def behind (heard : List Bool) (p : Party σ) : Target σ := ⟨p.address, p.app, p.state, p.session.modeBehind heard⟩

/-- The target behind the byte on the line, before it is acknowledged. -/
def asked (line : UInt8) (p : Party σ) : Target σ :=
  match p.session with
  | .idle => p.target
  | .expecting first => p.target.decide first line
  | .sending _ => { p.target with mode := .awaiting false }

@[simp] theorem behind_nil (p : Party σ) : p.behind [] = p.target := by
  obtain ⟨address, app, state, session⟩ := p
  cases session <;> rfl

theorem ofByte_drop (byte : UInt8) {k : Nat} (hk : k < 8) :
    (Bits.ofByte byte).drop k = byte.toNat.testBit (7 - k) :: (Bits.ofByte byte).drop (k + 1) := by
  rw [List.drop_eq_getElem_cons (by rw [Bits.length_ofByte]; exact hk)]
  congr 1
  simp [Bits.ofByte]

/-- A target pulls the data line low in the bits that it has no one for. -/
theorem pulls_behind (p : Party σ) {heard : List Bool} (h : heard.length < 8) :
    (p.behind heard).pulls = !p.drives.toNat.testBit (7 - heard.length) := by
  obtain ⟨address, app, state, session⟩ := p
  cases session with
  | idle =>
    show false = !(0xFF : UInt8).toNat.testBit _
    rw [testBit_ones (by omega), Bool.not_true]
  | expecting first =>
    show false = !(0xFF : UInt8).toNat.testBit _
    rw [testBit_ones (by omega), Bool.not_true]
  | sending byte => simp [behind, Session.modeBehind, Target.pulls, drives, ofByte_drop byte h]

/-- A bit of a byte but the last one. -/
theorem clock_behind (p : Party σ) {heard : List Bool} (h : heard.length < 7) (line : Bool) :
    ((p.behind heard).clockRises line).clockFalls = p.behind (heard ++ [line]) := by
  obtain ⟨address, app, state, session⟩ := p
  cases session with
  | idle => rfl
  | expecting first =>
    have hlength : heard.length ≠ 7 := by omega
    simp [behind, Session.modeBehind, Target.clockRises, Target.clockFalls, hlength]
  | sending byte =>
    have hdrop := ofByte_drop byte (show heard.length < 8 by omega)
    rw [ofByte_drop byte (show heard.length + 1 < 8 by omega)] at hdrop
    simp only [behind, Session.modeBehind, Target.clockRises, Target.clockFalls, hdrop, List.length_append,
      List.length_singleton, ofByte_drop byte (show heard.length + 1 < 8 by omega)]

theorem decide_mode (t : Target σ) (mode : Mode) (first : Bool) (byte : UInt8) :
    Target.decide { t with mode := mode } first byte = t.decide first byte := by
  cases first with
  | true => simp [Target.decide]
  | false => cases h : t.app.accept t.state byte <;> simp [Target.decide, h]

/-- The last bit of a byte. -/
theorem clock_behind_last (p : Party σ) {heard : List Bool} {line : Bool} {byte : UInt8}
    (h : heard ++ [line] = Bits.ofByte byte) : ((p.behind heard).clockRises line).clockFalls = p.asked byte := by
  have hlength : heard.length = 7 := by
    have heq := congrArg List.length h
    rw [List.length_append, Bits.length_ofByte] at heq
    exact Nat.succ.inj heq
  obtain ⟨address, app, state, session⟩ := p
  cases session with
  | idle => rfl
  | expecting first =>
    simp only [behind, Session.modeBehind, Target.clockRises, Target.clockFalls, h, Bits.length_ofByte, Bits.toByte_ofByte, if_true]
    exact (decide_mode ⟨address, app, state, .idle⟩ _ first byte).trans (decide_mode ⟨address, app, state, .idle⟩ _ first byte).symm
  | sending sent =>
    have hlast : (Bits.ofByte sent).drop heard.length = [sent.toNat.testBit 0] := by
      rw [ofByte_drop sent (by omega), hlength, List.drop_eq_nil_of_le (by rw [Bits.length_ofByte])]
    simp [behind, Session.modeBehind, Target.clockRises, Target.clockFalls, hlast, asked, target]

theorem pulls_asked (p : Party σ) (line : UInt8) : (p.asked line).pulls = p.acks line := by
  obtain ⟨address, app, state, session⟩ := p
  cases session with
  | idle => rfl
  | sending byte => rfl
  | expecting first =>
    cases first with
    | true =>
      by_cases h : line >>> 1 = address
      · simp [asked, target, Target.decide, Target.pulls, acks, h]
      · simp [asked, target, Target.decide, Target.pulls, acks, h]
    | false => cases h : app.accept state line <;> simp [asked, target, Target.decide, Target.pulls, acks, h]

/-- The pulse of the acknowledgement. -/
theorem clock_asked (p : Party σ) (line : UInt8) (level : Bool) :
    ((p.asked line).clockRises level).clockFalls = (p.after line (!level)).target := by
  obtain ⟨address, app, state, session⟩ := p
  cases session with
  | idle => rfl
  | sending byte =>
    cases level
    · simp [asked, target, Target.clockRises, Target.clockFalls, after, Target.load, load, Session.mode]
    · simp [asked, target, Target.clockRises, Target.clockFalls, after, Session.mode]
  | expecting first =>
    cases first with
    | true =>
      by_cases h : line >>> 1 = address
      · by_cases hread : line &&& 1 = 1
        · simp [asked, target, Target.decide, Target.clockRises, Target.clockFalls, Target.load, after, h, hread, load, Session.mode]
        · simp [asked, target, Target.decide, Target.clockRises, Target.clockFalls, after, h, hread, Session.mode]
      · simp [asked, target, Target.decide, Target.clockRises, Target.clockFalls, after, h, Session.mode]
    | false =>
      cases h : app.accept state line <;>
        simp [asked, target, Target.decide, Target.clockRises, Target.clockFalls, after, h, Session.mode]

/-- The target behind `k` bits of the byte on the line. -/
def during (line : UInt8) (k : Nat) (p : Party σ) : Target σ :=
  if k < 8 then p.behind ((Bits.ofByte line).take k) else p.asked line

theorem during_zero (line : UInt8) (p : Party σ) : p.during line 0 = p.target := behind_nil p

theorem during_eight (line : UInt8) (p : Party σ) : p.during line 8 = p.asked line := rfl

theorem pulls_during (p : Party σ) (line : UInt8) {k : Nat} (hk : k < 8) :
    (p.during line k).pulls = !p.drives.toNat.testBit (7 - k) := by
  have hlength : ((Bits.ofByte line).take k).length = k := by
    rw [List.length_take, Bits.length_ofByte]
    omega
  rw [during, if_pos hk, pulls_behind p (by omega), hlength]

theorem clock_during (p : Party σ) (line : UInt8) {k : Nat} (hk : k < 8) :
    ((p.during line k).clockRises (line.toNat.testBit (7 - k))).clockFalls = p.during line (k + 1) := by
  have hlength : ((Bits.ofByte line).take k).length = k := by
    rw [List.length_take, Bits.length_ofByte]
    omega
  have htake : (Bits.ofByte line).take k ++ [line.toNat.testBit (7 - k)] = (Bits.ofByte line).take (k + 1) := by
    rw [List.take_add_one, List.getElem?_eq_getElem (by rw [Bits.length_ofByte]; exact hk)]
    simp [Bits.ofByte]
  rw [during, if_pos hk, during]
  by_cases hlast : k + 1 < 8
  · rw [if_pos hlast, clock_behind p (by omega), htake]
  · rw [if_neg hlast]
    apply clock_behind_last
    rw [htake, List.take_of_length_le (by rw [Bits.length_ofByte]; omega)]

end Party

/-! ### The bytes on the lines -/

theorem pulls_clockRises (t : Target σ) (line : Bool) : (t.clockRises line).pulls = t.pulls := by
  obtain ⟨address, app, state, mode⟩ := t
  cases mode <;> rfl

/-- The level of the data line in a bit of a byte. -/
theorem level_during (w : UInt8) (ps : List (Party σ)) {k : Nat} (hk : k < 8) :
    (w.toNat.testBit (7 - k) && !(ps.map (Party.during (onLine w ps) k)).any Target.pulls) =
      (onLine w ps).toNat.testBit (7 - k) := by
  have hpulls : Target.pulls ∘ Party.during (onLine w ps) k = fun (p : Party σ) => !p.drives.toNat.testBit (7 - k) := by
    funext p
    exact p.pulls_during _ hk
  rw [testBit_onLine, List.any_map, hpulls, ← List.not_all_eq_any_not, Bool.not_not]

theorem map_clock_during (w : UInt8) (ps : List (Party σ)) {k : Nat} (hk : k < 8) :
    ((ps.map (Party.during (onLine w ps) k)).map (Target.clockRises ((onLine w ps).toNat.testBit (7 - k)))).map Target.clockFalls =
      ps.map (Party.during (onLine w ps) (k + 1)) := by
  rw [List.map_map, List.map_map]
  exact List.map_congr_left fun p _ => p.clock_during _ hk

/-- The bit that the driver writes. -/
theorem shift_and_one (w : UInt8) {k : Nat} (hk : k < 8) : ((w >>> UInt8.ofNat k) &&& 1 == 1) = w.toNat.testBit k := by
  have hshift : (w >>> UInt8.ofNat k).toNat = w.toNat >>> k := by
    rw [UInt8.toNat_shiftRight, UInt8.toNat_ofNat', Nat.mod_eq_of_lt (a := k) (by omega), Nat.mod_eq_of_lt hk]
  have hone : ((w >>> UInt8.ofNat k) &&& 1 : UInt8).toNat = (w.toNat >>> k) % 2 := by
    rw [UInt8.toNat_and, hshift]
    exact Nat.and_one_is_mod _
  rw [Bool.eq_iff_iff, beq_iff_eq, ← UInt8.toNat_inj, hone, Nat.testBit_eq_decide_div_mod_eq, decide_eq_true_iff,
    Nat.shiftRight_eq_div_pow]
  rfl

/-- The loop of `i2c_master_writeByte`. -/
theorem writeBits_during (w : UInt8) (ps : List (Party σ)) {left : Nat} (h : left ≤ 8) (s : Bool) :
    ∃ d, writeBits w left ⟨s, false, ps.map (Party.during (onLine w ps) (8 - left))⟩ =
      ⟨d, false, ps.map (Party.asked (onLine w ps))⟩ := by
  induction left generalizing s with
  | zero => exact ⟨s, rfl⟩
  | succ left ih =>
    have hk : 8 - (left + 1) < 8 := by omega
    have hbit : ((w >>> UInt8.ofNat left) &&& 1 == 1) = w.toNat.testBit (7 - (8 - (left + 1))) := by
      rw [shift_and_one w (by omega), show 7 - (8 - (left + 1)) = left by omega]
    obtain ⟨d, hd⟩ := ih (by omega) (w.toNat.testBit (7 - (8 - (left + 1))))
    refine ⟨d, ?_⟩
    rw [writeBits]
    rw [hbit, Bus.setDC_low, Bus.setDC_rise, level_during w ps hk, Bus.setDC_fall, map_clock_during w ps hk,
      show 8 - (left + 1) + 1 = 8 - left by omega, hd]

theorem level_rising (ps : List (Party σ)) {k : Nat} (hk : k < 8) (c : Bool) :
    Bus.getDC ⟨true, c, (ps.map (Party.during (onLine 0xFF ps) k)).map
      (Target.clockRises ((onLine 0xFF ps).toNat.testBit (7 - k)))⟩ = (onLine 0xFF ps).toNat.testBit (7 - k) := by
  have hlevel := level_during 0xFF ps hk
  rw [testBit_ones (by omega)] at hlevel
  have hpulls : Target.pulls ∘ Target.clockRises (σ := σ) ((onLine 0xFF ps).toNat.testBit (7 - k)) = Target.pulls := by
    funext t
    exact pulls_clockRises t _
  rw [Bus.getDC_eq, List.any_map, hpulls, hlevel]

/-- The bit that the driver reads. -/
theorem testBit_bit (bit : Bool) {k i : Nat} (hk : k < 8) (hi : i < 8) :
    ((if bit then (1 : UInt8) else 0) <<< UInt8.ofNat k).toNat.testBit i = (decide (i = k) && bit) := by
  have hall : ∀ bit : Bool, ∀ k < 8, ∀ i < 8, ((if bit then (1 : UInt8) else 0) <<< UInt8.ofNat k).toNat.testBit i =
      (decide (i = k) && bit) := by decide
  exact hall bit k hk i hi

/-- The loop of `i2c_master_readByte`. -/
theorem readBits_during (ps : List (Party σ)) {left : Nat} (h : left ≤ 8) (r : UInt8) {b : Bus σ}
    (hb : b.setDC true false = ⟨true, false, ps.map (Party.during (onLine 0xFF ps) (8 - left))⟩) :
    (readBits left r b).2.setDC true false = ⟨true, false, ps.map (Party.asked (onLine 0xFF ps))⟩ ∧
      ∀ i < 8, (readBits left r b).1.toNat.testBit i =
        (r.toNat.testBit i || decide (i < left) && (onLine 0xFF ps).toNat.testBit i) := by
  induction left generalizing r b with
  | zero => exact ⟨hb, fun i _ => by simp [readBits]⟩
  | succ left ih =>
    have hk : 8 - (left + 1) < 8 := by omega
    have hlevel := level_during 0xFF ps hk
    rw [testBit_ones (by omega)] at hlevel
    have hrise : (b.setDC true false).setDC true true = ⟨true, true,
        (ps.map (Party.during (onLine 0xFF ps) (8 - (left + 1)))).map
          (Target.clockRises ((onLine 0xFF ps).toNat.testBit (7 - (8 - (left + 1)))))⟩ := by
      rw [hb, Bus.setDC_rise, hlevel]
    have hfall : ((b.setDC true false).setDC true true).setDC true false =
        ⟨true, false, ps.map (Party.during (onLine 0xFF ps) (8 - left))⟩ := by
      rw [hrise, Bus.setDC_fall, map_clock_during 0xFF ps hk, show 8 - (left + 1) + 1 = 8 - left by omega]
    rw [readBits]
    refine ⟨(ih (by omega) _ hfall).1, ?_⟩
    intro i hi
    rw [(ih (by omega) _ hfall).2 i hi, hrise, level_rising ps hk, show 7 - (8 - (left + 1)) = left by omega]
    rw [UInt8.toNat_or, Nat.testBit_or, testBit_bit _ (by omega) hi, Bool.or_assoc]
    by_cases heq : i = left
    · rw [heq]
      simp
    · have hlt : i < left + 1 ↔ i < left := by omega
      simp [heq, hlt]

end EspClock.I2c
