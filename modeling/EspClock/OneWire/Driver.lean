import EspClock.OneWire.Wire

/-!
# The 1-wire driver

`onewire.c`: the reset pulse, the slots that write and read a bit, and the search for ROM codes. The functions work on the
line of one pin and on the search state that the driver keeps for it.
-/

namespace EspClock.OneWire

open Mem

variable {σ : Type}

/-! ### Slots -/

/-- The wait for a high line at the start of `onewire_reset`, with `retries` more looks at it. -/
def waitHigh : Nat → Wire σ → Bool × Wire σ
  | 0, w => (false, w)
  | retries + 1, w =>
    let w := w.delay 2
    if w.level then (true, w) else waitHigh retries w

/-- `onewire_reset` -/
def reset (w : Wire σ) : Bool × Wire σ :=
  let waited := waitHigh 124 w.release
  if waited.1 then
    let w := ((waited.2.driveLow.delay 480).release).delay 70
    (!w.level, w.delay 410)
  else (false, waited.2)

/-- `onewire_write_bit` -/
def writeBit (v : Bool) (w : Wire σ) : Wire σ :=
  if v then ((w.driveLow.delay 10).driveHigh).delay 55
  else ((w.driveLow.delay 65).driveHigh).delay 5

/-- `onewire_read_bit` -/
def readBit (w : Wire σ) : Bool × Wire σ :=
  let w := ((w.driveLow.delay 3).release).delay 10
  (w.level, w.delay 53)

/-- The masks of the loops `for (bitMask = 0x01; bitMask; bitMask <<= 1)`. -/
def bitMasks : List UInt8 := [0x01, 0x02, 0x04, 0x08, 0x10, 0x20, 0x40, 0x80]

def writeBits (v : UInt8) (w : Wire σ) : Wire σ :=
  bitMasks.foldl (fun w bitMask => writeBit (bitMask &&& v != 0) w) w

/-- `onewire_write` -/
def write (v : UInt8) (power : Bool) (w : Wire σ) : Wire σ :=
  let w := writeBits v w
  if power then w else w.release.driveLow

/-- `onewire_write_bytes` -/
def writeBytes (buf : List UInt8) (power : Bool) (w : Wire σ) : Wire σ :=
  let w := buf.foldl (fun w v => write v false w) w
  if power then w else w.release.driveLow

/-- `onewire_read` -/
def read (w : Wire σ) : UInt8 × Wire σ :=
  bitMasks.foldl (fun (r, w) bitMask => let bit := readBit w; (if bit.1 then r ||| bitMask else r, bit.2)) (0, w)

/-- `onewire_read_bytes` -/
def readBytes : Nat → Wire σ → List UInt8 × Wire σ
  | 0, w => ([], w)
  | count + 1, w =>
    let first := read w
    let rest := readBytes count first.2
    (first.1 :: rest.1, rest.2)

/-- `onewire_select` -/
def select (rom : Rom) (w : Wire σ) : Wire σ := rom.cells.foldl (fun w v => write v false w) (write 0x55 false w)

/-- `onewire_skip` -/
def skip (w : Wire σ) : Wire σ := write 0xCC false w

/-- `onewire_depower` -/
def depower (w : Wire σ) : Wire σ := w.release

/-! ### The search -/

/-- `ROM_NO`, `LastDiscrepancy`, `LastFamilyDiscrepancy` and `LastDeviceFlag` of a pin. -/
structure SearchState where
  romNo : Rom
  lastDiscrepancy : Nat
  lastFamilyDiscrepancy : Nat
  lastDeviceFlag : Bool

/-- `onewire_reset_search` -/
def resetSearch (_ : SearchState) : SearchState := ⟨Block.fill 8 0, 0, 0, false⟩

/-- `onewire_target_search` -/
def targetSearch (familyCode : UInt8) (_ : SearchState) : SearchState := ⟨(Block.fill 8 0).set 0 familyCode, 64, 0, false⟩

/-- The counters are set to those of a first search, the code stays. -/
def SearchState.restart (s : SearchState) : SearchState :=
  { s with lastDiscrepancy := 0, lastDeviceFlag := false, lastFamilyDiscrepancy := 0 }

/-- The local variables of `onewire_search`. -/
structure Progress where
  idBitNumber : Nat
  lastZero : Nat
  romByteNumber : Nat
  romByteMask : UInt8

/-- The direction at a bit whose two reads are `idBit` and `cmpIdBit`. -/
def searchDirection (s : SearchState) (p : Progress) (idBit cmpIdBit : Bool) : Bool :=
  if idBit ≠ cmpIdBit then idBit
  else if p.idBitNumber < s.lastDiscrepancy then s.romNo.get p.romByteNumber &&& p.romByteMask != 0
  else p.idBitNumber == s.lastDiscrepancy

/-- The zero that was picked at a discrepancy is recorded. -/
def recordZero (s : SearchState) (p : Progress) : SearchState × Progress :=
  (if p.idBitNumber < 9 then { s with lastFamilyDiscrepancy := p.idBitNumber } else s, { p with lastZero := p.idBitNumber })

/-- The bit of the code at the present byte and mask. -/
def storeBit (s : SearchState) (p : Progress) (direction : Bool) : SearchState :=
  let byte := s.romNo.get p.romByteNumber
  { s with romNo := s.romNo.set p.romByteNumber (if direction then byte ||| p.romByteMask else byte &&& ~~~p.romByteMask) }

/-- On to the next bit. -/
def Progress.next (p : Progress) : Progress :=
  let romByteMask := p.romByteMask <<< 1
  if romByteMask = 0 then { p with idBitNumber := p.idBitNumber + 1, romByteNumber := p.romByteNumber + 1, romByteMask := 1 }
  else { p with idBitNumber := p.idBitNumber + 1, romByteMask := romByteMask }

/-- The loop of the search, with `left` more rounds. -/
def searchLoop : Nat → SearchState → Progress → Wire σ → SearchState × Progress × Wire σ
  | 0, s, p, w => (s, p, w)
  | left + 1, s, p, w =>
    let idBit := readBit w
    let cmpIdBit := readBit idBit.2
    if idBit.1 ∧ cmpIdBit.1 then (s, p, cmpIdBit.2)
    else
      let direction := searchDirection s p idBit.1 cmpIdBit.1
      let recorded := if idBit.1 = cmpIdBit.1 ∧ direction = false then recordZero s p else (s, p)
      let s := storeBit recorded.1 recorded.2 direction
      let w := writeBit direction cmpIdBit.2
      let p := recorded.2.next
      if p.romByteNumber < 8 then searchLoop left s p w else (s, p, w)

/-- `onewire_search`: the result, `newAddr`, which a search without presence pulse leaves alone, and the new state. The loop
goes through 64 bits at most. -/
def search (s : SearchState) (w : Wire σ) : Bool × Option Rom × SearchState × Wire σ :=
  if s.lastDeviceFlag then (false, some s.romNo, s.restart, w)
  else
    let present := reset w
    if present.1 then
      let (s, p, w) := searchLoop 64 s ⟨1, 0, 0, 1⟩ (write 0xF0 false present.2)
      let found := !decide (p.idBitNumber < 65)
      let s := if found then { s with lastDiscrepancy := p.lastZero, lastDeviceFlag := s.lastDeviceFlag || p.lastZero == 0 } else s
      if !found || s.romNo.get 0 == 0 then (false, some s.romNo, s.restart, w)
      else (true, some s.romNo, s, w)
    else (false, none, s.restart, present.2)

end EspClock.OneWire
