import EspClock.Lib.Memory

/-!
# The 1-wire bus

One line, pulled up by a resistor, that the master and any number of slaves can pull low. The master lets the line fall
for a time of its choice, and what a slave makes of such a pulse depends on how long the line stays low: a long pulse
resets the slave, and of a shorter one it takes the level at a moment of its own. A slave that sends a zero keeps the line
low for a while after the master has let go of it, and after a reset every slave answers with a presence pulse.

Of the commands on the ROM codes a slave knows the three that the driver gives: the search, the selection of a code and the
selection of all slaves. What a selected slave does is left open.
-/

namespace EspClock.OneWire

open Mem

/-- The family, the serial number and the CRC of a slave. -/
abbrev Rom := Block UInt8 8

namespace Rom

instance : DecidableEq Rom := fun a b =>
  decidable_of_iff (a.cells = b.cells) ⟨fun h => by cases a; cases b; cases h; rfl, fun h => congrArg _ h⟩

/-- The bits of a code in the order of the search, the least significant one of a byte first. -/
def bit (rom : Rom) (i : Nat) : Bool := (rom.get (i / 8)).toNat.testBit (i % 8)

def bits (rom : Rom) : List Bool := (List.range 64).map rom.bit

end Rom

/-- A byte from its bits, the least significant one first. -/
def byteOf (bits : List Bool) : UInt8 := UInt8.ofNat (bits.foldr (fun bit n => bit.toNat + 2 * n) 0)

/-- The times of a slave in microseconds: when it takes the level after the line has fallen, how long it keeps the line low
for a zero, how long it waits after a reset pulse and how long its presence pulse is, and which pulses reset it. -/
structure Timing where
  sample : Nat
  hold : Nat
  presenceWait : Nat
  presence : Nat
  resetLow : Nat
  sample_bounds : 15 ≤ sample ∧ sample ≤ 60
  hold_bounds : 15 ≤ hold ∧ hold ≤ 60
  presenceWait_bounds : 15 ≤ presenceWait ∧ presenceWait ≤ 60
  presence_bounds : 60 ≤ presence ∧ presence ≤ 240
  resetLow_bounds : 120 < resetLow ∧ resetLow ≤ 480

def Timing.typical : Timing := ⟨30, 30, 30, 120, 480, by decide, by decide, by decide, by decide, by decide⟩

/-- What a slave does once it is selected: a state, the bit it sends in the next slot (a zero by keeping the line low) and
what it makes of the level it takes in a slot. -/
structure Application (σ : Type) where
  start : σ
  sends : σ → Bool
  slot : σ → Bool → σ

/-- The three slots of a step of the search: the slave sends its bit and the complement, and takes the direction. -/
inductive Turn where
  | bit
  | complement
  | direction
  deriving DecidableEq

inductive Phase (σ : Type) where
  | idle
  | command (received : List Bool)
  | search (i : Nat) (turn : Turn)
  | matching (i : Nat)
  | selected (s : σ)

structure Slave (σ : Type) where
  rom : Rom
  timing : Timing
  app : Application σ
  phase : Phase σ

namespace Slave

variable {σ : Type}

def enter (s : Slave σ) (phase : Phase σ) : Slave σ := { s with phase := phase }

/-- The slave keeps the line low in the next slot. -/
def sendsZero (s : Slave σ) : Bool :=
  match s.phase with
  | .search i .bit => !s.rom.bit i
  | .search i .complement => s.rom.bit i
  | .selected state => !s.app.sends state
  | _ => false

/-- The command that eight bits make. -/
def order (s : Slave σ) (code : UInt8) : Phase σ :=
  if code = 0xF0 then .search 0 .bit
  else if code = 0x55 then .matching 0
  else if code = 0xCC then .selected s.app.start
  else .idle

/-- What a slave makes of the level it takes in a slot. -/
def slot (s : Slave σ) (level : Bool) : Slave σ :=
  match s.phase with
  | .idle => s
  | .command received =>
    let received := received ++ [level]
    s.enter (if received.length = 8 then s.order (byteOf received) else .command received)
  | .search i .bit => s.enter (.search i .complement)
  | .search i .complement => s.enter (.search i .direction)
  | .search i .direction =>
    s.enter (if level = s.rom.bit i ∧ i + 1 < 64 then .search (i + 1) .bit else .idle)
  | .matching i =>
    s.enter (if level = s.rom.bit i then if i + 1 < 64 then .matching (i + 1) else .selected s.app.start else .idle)
  | .selected state => s.enter (.selected (s.app.slot state level))

/-- A pulse of the line, low for `t` microseconds. A line that has not been low at all has not fallen. -/
def pulse (s : Slave σ) (t : Nat) : Slave σ :=
  if t = 0 then s
  else if s.timing.resetLow ≤ t then s.enter (.command [])
  else s.slot (t ≤ s.timing.sample)

/-- The slave keeps the line low `high` microseconds after the master, which had pulled it down for `low`, has let go. -/
def holds (s : Slave σ) (low high : Nat) : Bool :=
  if s.timing.resetLow ≤ low then
    s.timing.presenceWait ≤ high && high < s.timing.presenceWait + s.timing.presence
  else s.sendsZero && low + high < s.timing.hold

@[simp] theorem rom_enter (s : Slave σ) (phase : Phase σ) : (s.enter phase).rom = s.rom := rfl

@[simp] theorem timing_enter (s : Slave σ) (phase : Phase σ) : (s.enter phase).timing = s.timing := rfl

@[simp] theorem app_enter (s : Slave σ) (phase : Phase σ) : (s.enter phase).app = s.app := rfl

@[simp] theorem phase_enter (s : Slave σ) (phase : Phase σ) : (s.enter phase).phase = phase := rfl

@[simp] theorem enter_enter (s : Slave σ) (p q : Phase σ) : (s.enter p).enter q = s.enter q := rfl

@[simp] theorem rom_slot (s : Slave σ) (level : Bool) : (s.slot level).rom = s.rom := by
  rw [slot]
  split <;> rfl

@[simp] theorem rom_pulse (s : Slave σ) (t : Nat) : (s.pulse t).rom = s.rom := by
  rw [pulse]
  split
  · rfl
  · split
    · rfl
    · exact rom_slot s _

end Slave

/-- What the master's pin does to the line. -/
inductive Drive where
  | low
  | high
  | released
  deriving DecidableEq

/-- The line with its slaves: what the master does to it, and how long it has pulled the line low since it fell and how long
it has not since then. What the slaves make of this pulse becomes known when the line falls again. -/
structure Wire (σ : Type) where
  drive : Drive
  low : Nat
  high : Nat
  slaves : List (Slave σ)

namespace Wire

variable {σ : Type}

/-- `DIRECT_READ` -/
def level (w : Wire σ) : Bool :=
  match w.drive with
  | .low => false
  | .high => true
  | .released => !w.slaves.any fun s => s.holds w.low w.high

/-- How long a slave keeps the line low in this slot. -/
def holdTime (slaves : List (Slave σ)) : Nat :=
  slaves.foldl (fun t s => max t (if s.sendsZero then s.timing.hold else 0)) 0

/-- What the slaves have become by the pulse that is over. -/
def settled (w : Wire σ) : List (Slave σ) := w.slaves.map fun s => s.pulse (max w.low (holdTime w.slaves))

/-- `DIRECT_WRITE_LOW`, which also enables the output. The line falls unless it is low already. -/
def driveLow (w : Wire σ) : Wire σ :=
  if w.drive = .low then w
  else if w.level then { drive := .low, low := 0, high := 0, slaves := w.settled }
  else { w with drive := .low, low := w.low + w.high, high := 0 }

/-- `DIRECT_WRITE_HIGH`, which also enables the output. -/
def driveHigh (w : Wire σ) : Wire σ := { w with drive := .high }

/-- `DIRECT_MODE_INPUT` -/
def release (w : Wire σ) : Wire σ := { w with drive := .released }

/-- `delayMicroseconds` -/
def delay (n : Nat) (w : Wire σ) : Wire σ :=
  if w.drive = .low then { w with low := w.low + n } else { w with high := w.high + n }

end Wire

end EspClock.OneWire
