import EspClock.I2c.Bus

/-!
# The I2C master

`i2c_master.c`, which makes the waveform of a transfer with `i2c_master_setDC`, the functions of `platform.c` on top of it and
the loops of the module `i2c`. The waits between two changes of the lines are left out.
-/

namespace EspClock.I2c

variable {σ : Type}

/-! ### The driver -/

/-- `i2c_master_start` -/
def masterStart (b : Bus σ) : Bus σ :=
  let b := b.setDC true b.scl
  let b := b.setDC true true
  b.setDC false true

/-- `i2c_master_stop` -/
def masterStop (b : Bus σ) : Bus σ :=
  let b := b.setDC false b.scl
  let b := b.setDC false true
  b.setDC true true

/-- The pulses of the clock in `i2c_master_init`. -/
def pulses : Nat → Bus σ → Bus σ
  | 0, b => b
  | n + 1, b => pulses n ((b.setDC true false).setDC true true)

/-- `i2c_master_init` -/
def masterInit (b : Bus σ) : Bus σ :=
  let b := b.setDC true false
  let b := b.setDC false false
  let b := b.setDC true false
  masterStop (pulses 28 b)

/-- `i2c_master_setAck` -/
def setAck (level : Bool) (b : Bus σ) : Bus σ :=
  let b := b.setDC b.sda false
  let b := b.setDC level false
  let b := b.setDC level true
  let b := b.setDC level false
  b.setDC true false

/-- `i2c_master_getAck` -/
def getAck (b : Bus σ) : Bool × Bus σ :=
  let b := b.setDC b.sda false
  let b := b.setDC true false
  let b := b.setDC true true
  (b.getDC, b.setDC true false)

/-- The loop of `i2c_master_readByte`, with `left` more bits to read. -/
def readBits : Nat → UInt8 → Bus σ → UInt8 × Bus σ
  | 0, retVal, b => (retVal, b)
  | left + 1, retVal, b =>
    let b := b.setDC true false
    let b := b.setDC true true
    let k : UInt8 := if b.getDC then 1 else 0
    readBits left (retVal ||| k <<< UInt8.ofNat left) b

/-- `i2c_master_readByte` -/
def readByte (b : Bus σ) : UInt8 × Bus σ :=
  let b := b.setDC b.sda false
  let read := readBits 8 0 b
  (read.1, read.2.setDC true false)

/-- The loop of `i2c_master_writeByte`, with the bits below `left` to write. -/
def writeBits (wrdata : UInt8) : Nat → Bus σ → Bus σ
  | 0, b => b
  | left + 1, b =>
    let dat := (wrdata >>> UInt8.ofNat left) &&& 1 == 1
    let b := b.setDC dat false
    let b := b.setDC dat true
    writeBits wrdata left (b.setDC dat false)

/-- `i2c_master_writeByte` -/
def writeByte (wrdata : UInt8) (b : Bus σ) : Bus σ := writeBits wrdata 8 (b.setDC b.sda false)

/-! ### The platform -/

/-- `platform_i2c_send_byte` -/
def sendByte (data : UInt8) (b : Bus σ) : Bool × Bus σ :=
  let acked := getAck (writeByte data b)
  (!acked.1, acked.2)

/-- `platform_i2c_send_address`; the direction is true for a receiver. -/
def sendAddress (address : UInt16) (direction : Bool) (b : Bus σ) : Bool × Bus σ :=
  sendByte (address <<< 1 ||| if direction then 1 else 0).toUInt8 b

/-- `platform_i2c_recv_byte` -/
def recvByte (ack : Bool) (b : Bus σ) : UInt8 × Bus σ :=
  let r := readByte b
  (r.1, setAck (!ack) r.2)

/-! ### The module -/

/-- An argument of `i2c.write`. -/
inductive Datum where
  | number (n : Int)
  | table (ns : List Int)
  | string (bytes : List UInt8)
  deriving DecidableEq

/-- What `i2c.write` comes to: the count, or an error. -/
inductive Written where
  | wrote (n : Nat)
  | wrongArgRange
  | wrongArgType
  deriving DecidableEq

/-- The bytes of a string are sent until one is not acknowledged: how many have been, and whether all of them. -/
def sendString : List UInt8 → Bus σ → Nat × Bool × Bus σ
  | [], b => (0, true, b)
  | byte :: bytes, b =>
    let sent := sendByte byte b
    if sent.1 then
      let rest := sendString bytes sent.2
      (rest.1 + 1, rest.2)
    else (0, false, sent.2)

/-- The numbers of a table are checked and sent one by one; nothing is left of a table with a wrong number in it. -/
def sendTable : List Int → Bus σ → Option (Nat × Bool) × Bus σ
  | [], b => (some (0, true), b)
  | n :: ns, b =>
    if n < 0 ∨ 255 < n then (none, b)
    else
      let sent := sendByte (UInt8.ofNat n.toNat) b
      if sent.1 then
        let rest := sendTable ns sent.2
        (rest.1.map fun r => (r.1 + 1, r.2), rest.2)
      else (some (0, false), sent.2)

/-- The loop of `i2c_write` over its arguments, with `wrote` bytes acknowledged so far. -/
def writeArgs (wrote : Nat) : List Datum → Bus σ → Written × Bus σ
  | [], b => (.wrote wrote, b)
  | .number n :: args, b =>
    if n < 0 ∨ 255 < n then (.wrongArgRange, b)
    else
      let sent := sendByte (UInt8.ofNat n.toNat) b
      if sent.1 then writeArgs (wrote + 1) args sent.2 else (.wrote wrote, sent.2)
  | .table ns :: args, b =>
    match sendTable ns b with
    | (none, b) => (.wrongArgRange, b)
    | (some (i, all), b) => if all then writeArgs (wrote + i) args b else (.wrote (wrote + i), b)
  | .string bytes :: args, b =>
    let sent := sendString bytes b
    if sent.2.1 then writeArgs (wrote + sent.1) args sent.2.2 else (.wrote (wrote + sent.1), sent.2.2)

/-- `i2c_write` -/
def write (args : List Datum) (b : Bus σ) : Written × Bus σ := if args = [] then (.wrongArgType, b) else writeArgs 0 args b

/-- `i2c_read` -/
def read : Nat → Bus σ → List UInt8 × Bus σ
  | 0, b => ([], b)
  | size + 1, b =>
    let first := recvByte (0 < size) b
    let rest := read size first.2
    (first.1 :: rest.1, rest.2)

end EspClock.I2c
