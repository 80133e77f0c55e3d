import Mathlib.Algebra.Group.Nat.Defs
import Mathlib.Data.List.DropRight

/-!
# The schedule of a PWM period

`pwm_start` turns the period and the duties of the channels into the steps of a period: all outputs go on at its end,
and each goes off after its part of it. Channels with the same part share a step, and each step but the first is timed
from the one before.
-/

namespace EspClock.Pwm

/-- `pwm_single_param` -/
structure SingleParam where
  gpioSet : UInt16
  gpioClear : UInt16
  hTime : UInt32
  deriving DecidableEq, Inhabited

/-- A channel in use: its pin and its duty. -/
structure Channel where
  outIoNum : Nat
  duty : UInt16
  deriving DecidableEq

/-- `PWM_CHANNEL` -/
def pwmChannel : Nat := 6

/-- `PWM_DEPTH` -/
def pwmDepth : UInt16 := 1023

/-- `PWM_FREQ_MAX` -/
def pwmFreqMax : UInt16 := 1000

/-- `PWM_1S` -/
def pwm1s : UInt32 := 1000000

/-- `pin_num` -/
def pinNum (pin : Nat) : Nat := [16, 5, 4, 0, 2, 14, 12, 13, 15, 3, 1, 9, 10].getD pin 0

/-- `1 << pin_num[pin]`, as far as it fits the output registers. -/
def pinBit (pin : Nat) : UInt16 := UInt16.ofNat (2 ^ pinNum pin)

/-- `US_TO_RTC_TIMER_TICKS`, with a clock of 5 MHz. -/
def usToRtcTimerTicks (t : UInt32) : UInt32 :=
  if t = 0 then 0
  else if 0x35A < t then (t >>> 2) * 20 + (t &&& 3) * 5
  else t * 5000000 / 1000000

/-- What the schedule is made from: the channels in use, their output register bits and the period. -/
structure Settings where
  channels : List Channel
  gpio : UInt16
  period : UInt32
  deriving DecidableEq

/-! ### The steps of `pwm_start` -/

/-- Step 1: an entry for each channel and one for the end of the period. -/
def Settings.entries (p : Settings) : List SingleParam :=
  p.channels.map (fun c =>
    { gpioSet := 0
      gpioClear := pinBit c.outIoNum
      hTime := usToRtcTimerTicks (p.period * c.duty.toUInt32 / pwmDepth.toUInt32) }) ++
    [{ gpioSet := p.gpio, gpioClear := 0, hTime := usToRtcTimerTicks p.period }]

/-- An entry moves in front of the later ones behind those already sorted. -/
def insertEntry (sorted : List SingleParam) (e : SingleParam) : List SingleParam :=
  sorted.rdropWhile (e.hTime < ·.hTime) ++ e :: sorted.rtakeWhile (e.hTime < ·.hTime)

/-- Step 2. -/
def pwmInsertSort (entries : List SingleParam) : List SingleParam := entries.foldl insertEntry []

/-- Step 3: entries with the same time become one, from the last to the first. -/
def combine : List SingleParam → List SingleParam
  | [] => []
  | e :: rest =>
    match combine rest with
    | [] => [e]
    | next :: rest =>
      if next.hTime = e.hTime then
        { e with gpioSet := e.gpioSet ||| next.gpioSet, gpioClear := e.gpioClear ||| next.gpioClear } :: rest
      else e :: next :: rest

/-- Step 4: each time but the first is counted from the entry before. -/
def deltas : List SingleParam → List SingleParam
  | [] => []
  | e :: rest => e :: List.zipWith (fun before e => { e with hTime := e.hTime - before.hTime }) (e :: rest) rest

/-- Step 5: the last entry clears nothing. -/
def lastClean (entries : List SingleParam) : List SingleParam := entries.modifyLast fun e => { e with gpioClear := 0 }

/-- Step 6: a first entry that takes no time is left out, and the last one does not set its outputs. -/
def dropZero : List SingleParam → List SingleParam
  | [] => []
  | e :: rest =>
    if e.hTime = 0 then
      ((e :: rest).modifyLast fun last =>
        { last with gpioSet := last.gpioSet &&& ~~~e.gpioClear, gpioClear := last.gpioClear ||| e.gpioClear }).tail
    else e :: rest

/-- The entries that `pwm_start` leaves. -/
def Settings.schedule (p : Settings) : List SingleParam :=
  dropZero (lastClean (deltas (combine (pwmInsertSort p.entries))))

/-! ### Settings -/

/-- `pwm_add` -/
def Settings.add (p : Settings) (channel : Nat) : Settings :=
  if channel ∈ p.channels.map Channel.outIoNum then p
  else if p.channels.length < pwmChannel then
    { p with channels := p.channels ++ [⟨channel, 0⟩], gpio := p.gpio ||| pinBit channel }
  else p

/-- `pwm_delete` -/
def Settings.delete (p : Settings) (channel : Nat) : Settings :=
  if channel ∈ p.channels.map Channel.outIoNum then
    { p with channels := p.channels.eraseP (·.outIoNum = channel), gpio := p.gpio &&& ~~~(pinBit channel) }
  else p

/-- `pwm_set_duty` -/
def Settings.setDuty (p : Settings) (duty : UInt16) (channel : Nat) : Settings :=
  let duty := if duty < 1 then 0 else if pwmDepth ≤ duty then pwmDepth else duty
  { p with channels := p.channels.map fun c => if c.outIoNum = channel then { c with duty := duty } else c }

/-- `pwm_set_freq` -/
def Settings.setFreq (p : Settings) (freq : UInt16) : Settings :=
  let freq := if pwmFreqMax < freq then pwmFreqMax else if freq < 1 then 1 else freq
  { p with period := pwm1s / freq.toUInt32 }

/-- Settings the driver can have: at most six channels on different pins, with the bits of their pins. -/
structure Settings.WellFormed (p : Settings) : Prop where
  few : p.channels.length ≤ pwmChannel
  pins : ∀ c ∈ p.channels, 1 ≤ c.outIoNum ∧ c.outIoNum ≤ 12
  distinct : (p.channels.map Channel.outIoNum).Nodup
  duties : ∀ c ∈ p.channels, c.duty.toNat ≤ 1023
  gpio : p.gpio = p.channels.foldr (fun c gpio => pinBit c.outIoNum ||| gpio) 0

end EspClock.Pwm
