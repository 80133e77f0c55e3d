import EspClock.Lib.Bits

/-!
# The I2C bus

Two lines with pull-ups. The master drives the clock and the data line, the targets pull the data line low to acknowledge a
byte and to send zeros. A target looks at the data line when the clock rises and changes what it does to the line when the
clock falls; a change of the data line while the clock is high begins or ends a transfer.

A target has a seven-bit address. What it makes of the bytes it is sent, and which bytes it sends, is left open.
-/

namespace EspClock.I2c

/-- What a target does with the bytes of a transfer: how it takes up its address (for reading or for writing), whether and
how it takes a byte, and the next byte it sends. -/
structure Application (σ : Type) where
  addressed : σ → Bool → σ
  accept : σ → UInt8 → Option σ
  next : σ → UInt8 × σ

/-- Where a target is in a transfer. A target that receives has taken the given bits of the present byte, which is the address
behind a start; one that sends has the given bits still to send, the present one first. -/
inductive Mode where
  | idle
  | receiving (first : Bool) (bits : List Bool)
  | acking (reading : Bool)
  | sending (bits : List Bool)
  | awaiting (acked : Bool)
  deriving DecidableEq

structure Target (σ : Type) where
  address : UInt8
  app : Application σ
  state : σ
  mode : Mode

namespace Target

variable {σ : Type}

/-- The target pulls the data line low. -/
def pulls (t : Target σ) : Bool :=
  match t.mode with
  | .acking _ => true
  | .sending (b :: _) => !b
  | _ => false

/-- The next byte is taken from the application to be sent. -/
def load (t : Target σ) : Target σ :=
  let next := t.app.next t.state
  { t with state := next.2, mode := .sending (Bits.ofByte next.1) }

/-- Eight bits are there: an address byte is acknowledged by the target it is for, another byte by one that takes it. -/
def decide (t : Target σ) (first : Bool) (byte : UInt8) : Target σ :=
  if first then
    if byte >>> 1 = t.address then
      { t with state := t.app.addressed t.state (byte &&& 1 == 1), mode := .acking (byte &&& 1 == 1) }
    else { t with mode := .idle }
  else
    match t.app.accept t.state byte with
    | some state => { t with state := state, mode := .acking false }
    | none => { t with mode := .idle }

def clockRises (line : Bool) (t : Target σ) : Target σ :=
  match t.mode with
  | .receiving first bits => { t with mode := .receiving first (bits ++ [line]) }
  | .awaiting _ => { t with mode := .awaiting (!line) }
  | _ => t

def clockFalls (t : Target σ) : Target σ :=
  match t.mode with
  | .idle => t
  | .receiving first bits => if bits.length = 8 then t.decide first (Bits.toByte bits) else t
  | .acking reading => if reading then t.load else { t with mode := .receiving false [] }
  | .sending (_ :: b :: bits) => { t with mode := .sending (b :: bits) }
  | .sending _ => { t with mode := .awaiting false }
  | .awaiting acked => if acked then t.load else { t with mode := .idle }

def started (t : Target σ) : Target σ := { t with mode := .receiving true [] }

def stopped (t : Target σ) : Target σ := { t with mode := .idle }

end Target

/-- What the master does to the lines, which is what it remembers in `m_nLastSDA` and `m_nLastSCL`, and the targets. -/
structure Bus (σ : Type) where
  sda : Bool
  scl : Bool
  targets : List (Target σ)

namespace Bus

variable {σ : Type}

/-- `i2c_master_getDC`: the data line is low when the master or a target pulls it low. -/
def getDC (b : Bus σ) : Bool := b.sda && !b.targets.any Target.pulls

/-- The clock falls before the data line changes and rises after it. -/
def clockDown (scl : Bool) (b : Bus σ) : Bus σ :=
  if b.scl && !scl then { b with scl := false, targets := b.targets.map Target.clockFalls } else b

def changeData (sda : Bool) (b : Bus σ) : Bus σ :=
  let changed := { b with sda := sda }
  if b.scl && b.getDC && !changed.getDC then { changed with targets := b.targets.map Target.started }
  else if b.scl && !b.getDC && changed.getDC then { changed with targets := b.targets.map Target.stopped }
  else changed

def clockUp (scl : Bool) (b : Bus σ) : Bus σ :=
  if !b.scl && scl then { b with scl := true, targets := b.targets.map (Target.clockRises b.getDC) } else b

/-- `i2c_master_setDC` -/
def setDC (sda scl : Bool) (b : Bus σ) : Bus σ := ((b.clockDown scl).changeData sda).clockUp scl

end Bus

end EspClock.I2c
