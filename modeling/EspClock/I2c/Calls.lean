import EspClock.I2c.Bytes

/-!
# The calls of the driver

What every call of the driver does to the lines and to the targets, and from it what any sequence of calls does: as long as no
target has a zero to send when a transfer begins or ends, the bus of lines and edges and the bus of bytes give the same answers.
-/

namespace EspClock.I2c

variable {σ : Type} {b : Bus σ} {ps : List (Party σ)}

/-! ### The bus between two calls -/

/-- The bus and its parties between two calls: the clock is low and the data line free, or a transfer has just begun, or there is
none. -/
structure Rest (b : Bus σ) (ps : List (Party σ)) : Prop where
  targets_eq : b.targets = ps.map Party.target
  lines : b.scl = false ∧ b.sda = true ∨ b.scl = true ∧ b.sda = false ∧ (∀ p ∈ ps, p.session = .expecting true) ∨
    b.scl = true ∧ b.sda = true ∧ ∀ p ∈ ps, p.session = .idle

theorem clockFalls_target {p : Party σ} (h : p.session = .expecting true ∨ p.session = .idle) : p.target.clockFalls = p.target := by
  obtain ⟨address, app, state, session⟩ := p
  rcases h with h | h
  · cases h
    rfl
  · cases h
    rfl

/-- Every call begins with a low clock. -/
theorem Rest.setDC_low (h : Rest b ps) (d : Bool) : b.setDC d false = ⟨d, false, ps.map Party.target⟩ := by
  obtain ⟨sda, scl, targets⟩ := b
  obtain ⟨htargets, hlines⟩ := h
  have hfalls : (∀ p ∈ ps, p.session = .expecting true ∨ p.session = .idle) →
      (ps.map Party.target).map Target.clockFalls = ps.map Party.target := by
    intro hsessions
    rw [List.map_map]
    exact List.map_congr_left fun p hp => clockFalls_target (hsessions p hp)
  dsimp only at htargets hlines
  rcases hlines with ⟨rfl, rfl⟩ | ⟨rfl, rfl, hall⟩ | ⟨rfl, rfl, hall⟩
  · rw [Bus.setDC_low, htargets]
  · rw [Bus.setDC_fall, htargets, hfalls fun p hp => Or.inl (hall p hp)]
  · rw [Bus.setDC_fall, htargets, hfalls fun p hp => Or.inr (hall p hp)]

/-! ### The acknowledgement -/

theorem any_pulls_map {f : Target σ → Target σ} (hf : ∀ t, (f t).pulls = t.pulls) (targets : List (Target σ)) :
    (targets.map f).any Target.pulls = targets.any Target.pulls := by
  have hpulls : Target.pulls ∘ f = Target.pulls := funext hf
  rw [List.any_map, hpulls]

theorem any_pulls_asked (line : UInt8) (ps : List (Party σ)) :
    (ps.map (Party.asked line)).any Target.pulls = ps.any (Party.acks line) := by
  have hpulls : Target.pulls ∘ Party.asked (σ := σ) line = Party.acks line := by
    funext p
    exact p.pulls_asked line
  rw [List.any_map, hpulls]

/-- The pulse behind a byte. -/
theorem acknowledged (line : UInt8) (ps : List (Party σ)) (level : Bool) :
    ((ps.map (Party.asked line)).map (Target.clockRises level)).map Target.clockFalls =
      (ps.map (Party.after line (!level))).map Party.target := by
  rw [List.map_map, List.map_map, List.map_map]
  exact List.map_congr_left fun p _ => p.clock_asked line level

theorem getAck_asked (line : UInt8) (ps : List (Party σ)) (s : Bool) :
    getAck ⟨s, false, ps.map (Party.asked line)⟩ = (!ps.any (Party.acks line),
      ⟨true, false, (ps.map (Party.after line (ps.any (Party.acks line)))).map Party.target⟩) := by
  simp only [getAck]
  rw [Bus.setDC_low, Bus.setDC_low, Bus.setDC_rise, Bus.getDC_eq, Bus.setDC_fall, any_pulls_map fun t => pulls_clockRises t _,
    any_pulls_asked, acknowledged, Bool.true_and, Bool.not_not]

theorem setAck_asked (line : UInt8) (ps : List (Party σ)) (s level : Bool) :
    setAck level ⟨s, false, ps.map (Party.asked line)⟩ =
      ⟨true, false, (ps.map (Party.after line (!level || ps.any (Party.acks line)))).map Party.target⟩ := by
  simp only [setAck]
  rw [Bus.setDC_low, Bus.setDC_low, Bus.setDC_rise, Bus.setDC_fall, Bus.setDC_low, any_pulls_asked, acknowledged, Bool.not_and,
    Bool.not_not]

/-! ### The calls -/

/-- `platform_i2c_send_byte` transfers the byte. -/
theorem sendByte_eq (h : Rest b ps) (w : UInt8) :
    sendByte w b = ((transfer w false ps).2.1, ⟨true, false, (transfer w false ps).2.2.map Party.target⟩) := by
  obtain ⟨d, hd⟩ := writeBits_during w ps (show 8 ≤ 8 from Nat.le_refl 8) b.sda
  have hbegin : ps.map (Party.during (onLine w ps) (8 - 8)) = ps.map Party.target :=
    List.map_congr_left fun p _ => p.during_zero _
  rw [hbegin] at hd
  simp only [sendByte, writeByte]
  rw [h.setDC_low, hd, getAck_asked, Bool.not_not]
  rfl

/-- `platform_i2c_recv_byte` transfers a byte for which the master leaves the line alone. -/
theorem recvByte_eq (h : Rest b ps) (ack : Bool) :
    recvByte ack b = ((transfer 0xFF ack ps).1, ⟨true, false, (transfer 0xFF ack ps).2.2.map Party.target⟩) := by
  have hbegin : ps.map (Party.during (onLine 0xFF ps) (8 - 8)) = ps.map Party.target :=
    List.map_congr_left fun p _ => p.during_zero _
  have hlow : (b.setDC b.sda false).setDC true false = ⟨true, false, ps.map (Party.during (onLine 0xFF ps) (8 - 8))⟩ := by
    rw [h.setDC_low, Bus.setDC_low, hbegin]
  obtain ⟨hend, hbits⟩ := readBits_during ps (Nat.le_refl 8) 0 hlow
  have hbyte : (readBits 8 0 (b.setDC b.sda false)).1 = onLine 0xFF ps := by
    apply Bits.eq_of_testBit
    intro i hi
    rw [hbits i hi, decide_eq_true hi, Bool.true_and]
    simp
  simp only [recvByte, readByte]
  rw [hend, setAck_asked, hbyte, Bool.not_not]
  rfl

theorem started_clockRises (t : Target σ) (line : Bool) : (t.clockRises line).started = t.started := by
  obtain ⟨address, app, state, mode⟩ := t
  cases mode <;> rfl

theorem stopped_clockRises (t : Target σ) (line : Bool) : (t.clockRises line).stopped = t.stopped := by
  obtain ⟨address, app, state, mode⟩ := t
  cases mode <;> rfl

/-- A party that leaves the data line alone when it is not clocked. -/
def Party.Quiet (p : Party σ) : Prop := p.drives.toNat.testBit 7 = true

instance (p : Party σ) : Decidable p.Quiet := inferInstanceAs (Decidable (_ = true))

theorem any_pulls_of_quiet (h : ∀ p ∈ ps, p.Quiet) : (ps.map Party.target).any Target.pulls = false := by
  rw [List.any_map, List.any_eq_false]
  intro p hp
  have hpulls := p.pulls_behind (show ([] : List Bool).length < 8 by decide)
  rw [Party.behind_nil] at hpulls
  show ¬ p.target.pulls = true
  rw [hpulls, List.length_nil, h p hp]
  decide

/-- All parties wait for an address. -/
def begun (ps : List (Party σ)) : List (Party σ) := ps.map fun p => { p with session := .expecting true }

def ended (ps : List (Party σ)) : List (Party σ) := ps.map fun p => { p with session := .idle }

theorem map_started (ps : List (Party σ)) : (ps.map Party.target).map Target.started = (begun ps).map Party.target := by
  rw [begun, List.map_map, List.map_map]
  rfl

theorem map_stopped (ps : List (Party σ)) : (ps.map Party.target).map Target.stopped = (ended ps).map Party.target := by
  rw [ended, List.map_map, List.map_map]
  rfl

theorem stopped_started (targets : List (Target σ)) :
    (targets.map Target.started).map Target.stopped = targets.map Target.stopped := List.map_map

theorem started_stopped (targets : List (Target σ)) :
    (targets.map Target.stopped).map Target.started = targets.map Target.started := List.map_map

theorem any_pulls_started (targets : List (Target σ)) : (targets.map Target.started).any Target.pulls = false := by
  rw [List.any_map, List.any_eq_false]
  exact fun t _ => Bool.false_ne_true

theorem any_pulls_stopped (targets : List (Target σ)) : (targets.map Target.stopped).any Target.pulls = false := by
  rw [List.any_map, List.any_eq_false]
  exact fun t _ => Bool.false_ne_true

theorem masterStart_eq (h : Rest b ps) (hquiet : ∀ p ∈ ps, p.Quiet) :
    masterStart b = ⟨false, true, (begun ps).map Party.target⟩ := by
  have hpulls := any_pulls_of_quiet hquiet
  obtain ⟨sda, scl, targets⟩ := b
  obtain ⟨htargets, hlines⟩ := h
  dsimp only at htargets hlines
  rw [htargets, ← map_started]
  simp only [masterStart]
  rcases hlines with ⟨rfl, rfl⟩ | ⟨rfl, rfl, hall⟩ | ⟨rfl, rfl, hall⟩
  · have hrises : ∀ level, (ps.map Party.target).map (Target.started ∘ Target.clockRises level) =
        (ps.map Party.target).map Target.started := fun level => List.map_congr_left fun t _ => started_clockRises t level
    rw [Bus.setDC_low, Bus.setDC_rise, Bus.setDC_started, any_pulls_map fun t => pulls_clockRises t _, hpulls,
      if_neg Bool.false_ne_true, List.map_map, hrises]
  · rw [Bus.setDC_stopped, hpulls, if_neg Bool.false_ne_true, Bus.setDC_same, Bus.setDC_started, any_pulls_stopped,
      if_neg Bool.false_ne_true, started_stopped]
  · rw [Bus.setDC_same, Bus.setDC_same, Bus.setDC_started, hpulls, if_neg Bool.false_ne_true]

theorem masterStop_eq (h : Rest b ps) (hquiet : ∀ p ∈ ps, p.Quiet) :
    masterStop b = ⟨true, true, (ended ps).map Party.target⟩ := by
  have hpulls := any_pulls_of_quiet hquiet
  obtain ⟨sda, scl, targets⟩ := b
  obtain ⟨htargets, hlines⟩ := h
  dsimp only at htargets hlines
  rw [htargets, ← map_stopped]
  simp only [masterStop]
  rcases hlines with ⟨rfl, rfl⟩ | ⟨rfl, rfl, hall⟩ | ⟨rfl, rfl, hall⟩
  · have hrises : ∀ level, (ps.map Party.target).map (Target.stopped ∘ Target.clockRises level) =
        (ps.map Party.target).map Target.stopped := fun level => List.map_congr_left fun t _ => stopped_clockRises t level
    rw [Bus.setDC_low, Bus.setDC_rise, Bus.setDC_stopped, any_pulls_map fun t => pulls_clockRises t _, hpulls,
      if_neg Bool.false_ne_true, List.map_map, hrises]
  · rw [Bus.setDC_same, Bus.setDC_same, Bus.setDC_stopped, hpulls, if_neg Bool.false_ne_true]
  · rw [Bus.setDC_started, hpulls, if_neg Bool.false_ne_true, Bus.setDC_same, Bus.setDC_stopped, any_pulls_started,
      if_neg Bool.false_ne_true, stopped_started]

/-! ### Sequences of calls -/

/-- The calls that the module makes of the platform. -/
inductive Call where
  | start
  | stop
  | address (address : UInt16) (receiver : Bool)
  | send (byte : UInt8)
  | recv (ack : Bool)
  deriving DecidableEq

inductive Answer where
  | acked (acked : Bool)
  | received (byte : UInt8)
  deriving DecidableEq

/-- The calls on the lines. -/
def driver (σ : Type) : Machine (Bus σ) Call Answer where
  step b
    | .start => (masterStart b, [])
    | .stop => (masterStop b, [])
    | .address address receiver =>
      let sent := sendAddress address receiver b
      (sent.2, [.acked sent.1])
    | .send byte =>
      let sent := sendByte byte b
      (sent.2, [.acked sent.1])
    | .recv ack =>
      let read := recvByte ack b
      (read.2, [.received read.1])

/-- The byte behind a start that addresses a target. -/
def addressByte (address : UInt16) (receiver : Bool) : UInt8 := (address <<< 1 ||| if receiver then 1 else 0).toUInt8

/-- The calls on the parties. -/
def bytewise (σ : Type) : Machine (List (Party σ)) Call Answer where
  step ps
    | .start => (begun ps, [])
    | .stop => (ended ps, [])
    | .address address receiver =>
      let sent := transfer (addressByte address receiver) false ps
      (sent.2.2, [.acked sent.2.1])
    | .send byte =>
      let sent := transfer byte false ps
      (sent.2.2, [.acked sent.2.1])
    | .recv ack =>
      let read := transfer 0xFF ack ps
      (read.2.2, [.received read.1])

/-- A transfer begins and ends when no party has a zero to send. -/
def Clear (ps : List (Party σ)) (c : Call) : Prop := c = .start ∨ c = .stop → ∀ p ∈ ps, p.Quiet

instance (ps : List (Party σ)) (c : Call) : Decidable (Clear ps c) := inferInstanceAs (Decidable (_ → _))

theorem Rest.of_low (ps : List (Party σ)) : Rest ⟨true, false, ps.map Party.target⟩ ps := ⟨rfl, Or.inl ⟨rfl, rfl⟩⟩

theorem session_begun {p : Party σ} (h : p ∈ begun ps) : p.session = .expecting true := by
  obtain ⟨q, -, rfl⟩ := List.mem_map.mp h
  rfl

theorem session_ended {p : Party σ} (h : p ∈ ended ps) : p.session = .idle := by
  obtain ⟨q, -, rfl⟩ := List.mem_map.mp h
  rfl

theorem Rest.step (h : Rest b ps) {c : Call} (hclear : Clear ps c) :
    Rest ((driver σ).next b c) ((bytewise σ).next ps c) ∧ (driver σ).actions b c = (bytewise σ).actions ps c := by
  cases c with
  | start =>
    have hstart := masterStart_eq h (hclear (Or.inl rfl))
    refine ⟨?_, rfl⟩
    show Rest (masterStart b) (begun ps)
    rw [hstart]
    exact ⟨rfl, Or.inr (Or.inl ⟨rfl, rfl, fun p hp => session_begun hp⟩)⟩
  | stop =>
    have hstop := masterStop_eq h (hclear (Or.inr rfl))
    refine ⟨?_, rfl⟩
    show Rest (masterStop b) (ended ps)
    rw [hstop]
    exact ⟨rfl, Or.inr (Or.inr ⟨rfl, rfl, fun p hp => session_ended hp⟩)⟩
  | address address receiver =>
    have hsent : sendAddress address receiver b = _ := sendByte_eq h (addressByte address receiver)
    simp only [Machine.next, Machine.actions, driver, bytewise]
    rw [hsent]
    exact ⟨Rest.of_low _, rfl⟩
  | send byte =>
    have hsent := sendByte_eq h byte
    simp only [Machine.next, Machine.actions, driver, bytewise]
    rw [hsent]
    exact ⟨Rest.of_low _, rfl⟩
  | recv ack =>
    have hread := recvByte_eq h ack
    simp only [Machine.next, Machine.actions, driver, bytewise]
    rw [hread]
    exact ⟨Rest.of_low _, rfl⟩

/-- The lines and their edges transfer the bytes: any sequence of calls has the same answers on the lines as on the parties and
leaves the targets where these are, as long as no target has a zero to send when a transfer begins or ends. -/
theorem driver_refines_bytewise (h : Rest b ps) (calls : List Call) (hclear : (bytewise σ).Along Clear ps calls) :
    (driver σ).trace b calls = (bytewise σ).trace ps calls ∧ Rest ((driver σ).final b calls) ((bytewise σ).final ps calls) :=
  Machine.refines_of_step (fun _ _ _ hrest hclear => hrest.step hclear) h hclear

/-! ### A clock on the bus -/

/-- A target with a few registers: the first byte of a transfer chooses one, and the register moves on with every byte that is
written or read. It takes no bytes behind its last register. -/
def registers : Application (Option Nat × List UInt8) where
  addressed s reading := (if reading then s.1 else none, s.2)
  accept s byte :=
    match s.1 with
    | none => if byte.toNat < s.2.length then some (some byte.toNat, s.2) else none
    | some n => if n < s.2.length then some (some (n + 1), s.2.set n byte) else none
  next s :=
    match s.1 with
    | none => (0, s)
    | some n => (s.2.getD n 0xFF, some (n + 1), s.2)

/-- Two such targets on a free bus. -/
def twoClocks : List (Party (Option Nat × List UInt8)) :=
  [⟨0x68, registers, (none, [0x12, 0x59, 0x23]), .idle⟩, ⟨0x50, registers, (none, [1, 2]), .idle⟩]

def freeBus : Bus (Option Nat × List UInt8) := ⟨true, true, twoClocks.map Party.target⟩

theorem rest_freeBus : Rest freeBus twoClocks := ⟨rfl, Or.inr (Or.inr ⟨rfl, rfl, by decide⟩)⟩

theorem driver_refines_bytewise_twoClocks :
    (driver _).trace freeBus [.start, .address 0x68 false, .send 1, .start, .address 0x68 true, .recv true, .recv false, .stop,
        .start, .address 0x33 true, .stop] =
      [.acked true, .acked true, .acked true, .received 0x59, .received 0x23, .acked false] :=
  (driver_refines_bytewise rest_freeBus [.start, .address 0x68 false, .send 1, .start, .address 0x68 true, .recv true,
    .recv false, .stop, .start, .address 0x33 true, .stop] (by decide +kernel)).1.trans (by decide +kernel)

end EspClock.I2c
