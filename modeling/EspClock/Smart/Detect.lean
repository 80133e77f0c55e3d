import EspClock.Lib.Memory
import EspClock.Lib.Run

/-!
# The smart configuration decoder

`detect` sees the frames on the air. A sender tells the name and the password of a network by the lengths of its
frames: their sequence numbers, counted from a flag that starts a round, say which nibble a length stands for. `detect`
first looks for a pair of addresses that sends the flags, then collects the nibbles of that pair until `smart_check`
finds a name and a password in them.
-/

namespace EspClock.Smart

open Mem

/-! ### Lengths and sequence numbers -/

def seqMax : Int := 0x1000
def baseLength : Int := 82
def ssidFlag : Int := 1399
def pwdFlag : Int := 1459
def lFlag : Int := 28
def cFlag : Int := 593

/-- `FLAG_NUM` -/
def flagNum : Int := 4

/-- `FLAG_MATCH_NUM` -/
def flagMatchNum : Nat := 3

/-- The flags that `reset_map` sets: the one that starts a round, one that is skipped, and the two separators. -/
def flag : Nat → Int
  | 0 => ssidFlag
  | 1 => 0
  | 2 => 3
  | _ => 23

def int8 (x : Int) : Int := x.bmod (2 ^ 8)
def int16 (x : Int) : Int := x.bmod (2 ^ 16)
def uint16 (x : Int) : Nat := (x % 2 ^ 16).toNat

/-- The header of a frame and its length. -/
structure Frame where
  buf : Block UInt8 24
  len : UInt16

/-- A data frame that is no retry. The test of the fragment number looks at its lowest bit only. -/
def Frame.Accepted (f : Frame) : Prop :=
  f.buf.get 0 &&& 0xFC = 0x88 ∧ f.buf.get 1 &&& 0x4B = 0x41 ∧ f.buf.get 22 &&& 1 = 0

instance (f : Frame) : Decidable f.Accepted := inferInstanceAs (Decidable (_ ∧ _))

def Frame.seq (f : Frame) : Int := (f.buf.get 23).toNat * 16 + (f.buf.get 22).toNat / 16

/-- The source and the destination. -/
def Frame.addr (f : Frame) : List UInt8 := (f.buf.cells.drop 10).take 12

/-- The length without that of an empty frame. -/
def Frame.body (f : Frame) : Int := f.len.toNat - baseLength

/-! ### Pairs of addresses -/

/-- `smart_addr_map`, without what `reset_map` sets once and for all. -/
structure AddrMap where
  addr : List UInt8
  flagMatchNum : Nat
  curBaseSeq : Int
  baseSeqValid : Bool
  ssidLen : Int
  pwdLen : Int

def AddrMap.reset : AddrMap := ⟨List.replicate 12 0, 0, -1, false, 0, 0⟩

def AddrMap.seqDelta (a : AddrMap) (seq : Int) : Int :=
  if a.curBaseSeq ≤ seq then seq - a.curBaseSeq else seqMax - a.curBaseSeq + seq

def AddrMap.invalid (a : AddrMap) : AddrMap := { a with baseSeqValid := false }

def AddrMap.base (a : AddrMap) (seq : Int) : AddrMap := { a with curBaseSeq := seq, baseSeqValid := true }

/-- A frame of a pair that is looked for: its entry, and whether this was the last of the flags. -/
def AddrMap.look (a : AddrMap) (f : Frame) : AddrMap × Bool :=
  let seqDelta := a.seqDelta f.seq
  if a.baseSeqValid = false then (if f.body = flag 0 then a.base f.seq else a, false)
  else if seqDelta < 0 then (a.invalid, false)
  else if seqDelta = 0 then (if f.body ≠ flag 0 then a.invalid else a, false)
  else if flagNum ≤ seqDelta then
    let a := { a with flagMatchNum := 1 }
    (if f.body = flag 0 then a.base f.seq else a.invalid, false)
  else if (a.flagMatchNum : Int) = seqDelta ∧ (flag a.flagMatchNum = f.body ∨ flag a.flagMatchNum = 0) then
    let a := { a with flagMatchNum := a.flagMatchNum + 1 }
    if a.flagMatchNum = Smart.flagMatchNum then (a.invalid, true) else (a, false)
  else ({ a.invalid with flagMatchNum := 1 }, false)

/-- The loop over the entries, and the one that is matched now. -/
def search (f : Frame) : List AddrMap → List AddrMap × Option Nat
  | [] => ([], none)
  | a :: rest =>
    if a.flagMatchNum = 0 then
      ((if f.body = flag 0 then { a.base f.seq with addr := f.addr, flagMatchNum := 1 } else a) :: rest, none)
    else if a.addr = f.addr then
      let (a, matched) := a.look f
      (a :: rest, if matched then some 0 else none)
    else
      let (rest, matched) := search f rest
      (a :: rest, matched.map (· + 1))

/-! ### Buffers -/

/-- The nibbles of a name or a password of at most `n` bytes, which of them were received, and the bytes in
`sta_conf`. -/
structure Received (n : Nat) where
  nibble : Block UInt8 (2 * n)
  got : Block UInt8 (2 * n / 8)
  dst : Block UInt8 n

/-- An index that is used. -/
inductive Access where
  | nibble (i : Nat)
  | got (i : Nat)
  | dst (i : Nat)
  deriving DecidableEq

/-- An access to the buffers of the name or to those of the password. -/
inductive SmartAccess where
  | ssid (a : Access)
  | password (a : Access)
  deriving DecidableEq

namespace Received

variable {n : Nat}

def empty (n : Nat) : Received n := ⟨Block.fill _ 0, Block.fill _ 0, Block.fill _ 0⟩

def HasGot (r : Received n) (i : Nat) : Prop := (r.got.get (i / 8)).toNat.testBit (i % 8)

instance (r : Received n) (i : Nat) : Decidable (r.HasGot i) := inferInstanceAs (Decidable (_ = _))

/-- A nibble is kept unless there is one already. -/
def keep (r : Received n) (i : Nat) (c : UInt8) : Received n × List Access :=
  if r.HasGot i then (r, [.got (i / 8)])
  else
    ({ r with
      got := r.got.set (i / 8) (r.got.get (i / 8) ||| 1 <<< UInt8.ofNat (i % 8))
      nibble := r.nibble.set i c }, [.got (i / 8), .nibble i])

/-- Takes nibbles out. -/
def forget (r : Received n) (i : Nat) : Received n × List Access :=
  ({ r with
    got := r.got.set (i / 8) (r.got.get (i / 8) &&& ~~~(1 <<< UInt8.ofNat (i % 8)))
    nibble := r.nibble.set i 0 }, [.nibble i, .got (i / 8)])

/-- The loop that looks for a nibble that was not received, from nibble `i` on. -/
def complete (r : Received n) (i : Nat) : Nat → Bool × List Access
  | 0 => (true, [])
  | count + 1 =>
    if r.HasGot i then
      let (all, accesses) := r.complete (i + 1) count
      (all, .got (i / 8) :: accesses)
    else (false, [.got (i / 8)])

/-! ### `smart_check` -/

/-- The byte that two nibbles stand for. -/
def byte (r : Received n) (i : Nat) : UInt8 :=
  ((r.nibble.get (2 * i) &&& 0xF) <<< 4) + (r.nibble.get (2 * i + 1) &&& 0xF)

/-- The high nibble of the next frame checks nibble `i`. -/
def Chained (r : Received n) (i : Nat) : Prop :=
  (r.nibble.get i &&& 0xF).toNat ^^^ ((i + 1) &&& 0xF) = (r.nibble.get (i + 1)).toNat / 16

instance (r : Received n) (i : Nat) : Decidable (r.Chained i) := inferInstanceAs (Decidable (_ = _))

/-- The loop over the nibbles below the last one, from the last to the second: whether all of them fit. -/
def checkNibbles (r : Received n) : Nat → Bool × Received n × List Access
  | 0 => (true, r, [])
  | i + 1 =>
    let reads := [.nibble (i + 1), .nibble (i + 2), .nibble i]
    if ¬ r.Chained (i + 1) ∨ ¬ r.Chained i then
      let (r, first) := r.forget i
      let (r, second) := r.forget (i + 1)
      let (r, third) := r.forget (i + 2)
      (false, r, reads ++ first ++ second ++ third)
    else if (i + 1) % 2 = 0 then
      let r := { r with dst := r.dst.set ((i + 1) / 2) (r.byte ((i + 1) / 2)) }
      let (ok, r, accesses) := r.checkNibbles i
      (ok, r, reads ++ .dst ((i + 1) / 2) :: accesses)
    else
      let (ok, r, accesses) := r.checkNibbles i
      (ok, r, reads ++ accesses)

/-- The loop that takes out bytes that are not printable, from byte `i` on: whether there are none. -/
def checkBytes (r : Received n) (i : Nat) : Nat → Bool × Received n × List Access
  | 0 => (true, r, [])
  | count + 1 =>
    if r.dst.get i < 0x20 ∨ 0x7F ≤ r.dst.get i then
      let mask := 3 <<< UInt8.ofNat (2 * i % 8)
      let r := { r with
        dst := r.dst.set i 0
        nibble := (r.nibble.set (2 * i) 0).set (2 * i + 1) 0
        got := r.got.set (2 * i / 8) (r.got.get (2 * i / 8) &&& ~~~mask) }
      let (_, r, accesses) := r.checkBytes (i + 1) count
      (false, r, [.dst i, .nibble (2 * i), .nibble (2 * i + 1), .got (2 * i / 8)] ++ accesses)
    else
      let (ok, r, accesses) := r.checkBytes (i + 1) count
      (ok, r, .dst i :: accesses)

/-- The check of a single byte. In `(nibble[0]^0x1)&0xF == (nibble[1]>>4)` the comparison binds tighter. -/
def checkOne (r : Received n) : Bool × Received n × List Access :=
  let n0 := r.nibble.get 0
  let n1 := r.nibble.get 1
  let accesses : List Access := [.nibble 0, .nibble 1]
  if n0 ≤ 0xF ∧ (n0 ^^^ 1) &&& (if 0xF = n1.toNat / 16 then 1 else 0) ≠ 0 then
    (true, { r with dst := r.dst.set 0 (r.byte 0) }, accesses ++ [.dst 0])
  else
    (false, { r with
      nibble := (r.nibble.set 0 0).set 1 0
      got := r.got.set 0 (r.got.get 0 &&& ~~~3) }, accesses ++ [.got 0])

/-- `smart_check` on `len` nibbles. -/
def smartCheck (r : Received n) (len : Nat) : Bool × Received n × List Access :=
  if len = 0 then (false, r, [])
  else
    let cleared : List Access := (List.range (len / 2)).map .dst
    let r := { r with dst := r.dst.store 0 (List.replicate (len / 2) 0) }
    if len % 2 ≠ 0 then (false, r, cleared)
    else if len = 2 then
      let (ok, r, accesses) := r.checkOne
      (ok, r, cleared ++ accesses)
    else
      let (ok, r, accesses) := r.checkNibbles (len - 2)
      if ok then
        let r := { r with dst := r.dst.set 0 (r.byte 0) }
        let (ok, r, checks) := r.checkBytes 0 (len / 2)
        (ok, r, cleared ++ accesses ++ [.nibble 0, .nibble 1, .dst 0] ++ checks)
      else (false, r, cleared ++ accesses)

end Received

/-! ### The matched pair -/

/-- `(SEP_NUM + 1)*(1+NIBBLE_PER_BYTE*ssid_len)`, where the part of the name ends. -/
def AddrMap.ssidEnd (a : AddrMap) : Int := 3 * (1 + 2 * a.ssidLen)

/-- The last sequence number of a round. -/
def AddrMap.roundEnd (a : AddrMap) : Int := a.ssidEnd + 1 + 3 * (1 + 2 * a.pwdLen)

/-- The frame with the length of the name. A length that does not match the one known takes its place. -/
def AddrMap.learnSsidLen (a : AddrMap) (f : Frame) : AddrMap :=
  let ssidLen := int16 (f.body - lFlag)
  if a.ssidLen = 0 then if ssidLen ≤ 32 ∧ 0 < ssidLen then { a with ssidLen := ssidLen } else a
  else if ssidLen ≠ a.ssidLen then { a.invalid with ssidLen := int8 ssidLen }
  else a

/-- The frame with the length of the password. -/
def AddrMap.learnPwdLen (a : AddrMap) (f : Frame) : AddrMap :=
  let pwdLen := int16 (f.body - lFlag)
  if a.pwdLen = 0 then if pwdLen ≤ 64 ∧ 0 < pwdLen then { a with pwdLen := pwdLen } else a
  else if pwdLen ≠ a.pwdLen then { a.invalid with pwdLen := int8 pwdLen }
  else a

/-- A frame that should have a certain length. -/
def AddrMap.expect (a : AddrMap) (f : Frame) (length : Int) : AddrMap := if f.body ≠ length then a.invalid else a

/-- A frame of the name or the password, `offset` behind the first one: a nibble, one of two separators, or nothing.
Whether `detect` goes on. -/
def AddrMap.content {n : Nat} (a : AddrMap) (r : Received n) (f : Frame) (offset : Int) :
    Bool × AddrMap × Received n × List Access :=
  let it := uint16 (offset.tdiv 3)
  let m := uint16 (offset.tmod 3)
  if m = 0 then
    let c := int16 (f.body - cFlag)
    if 255 < c ∨ c < 0 then (false, a.invalid, r, [])
    else
      let (r, accesses) := r.keep it (UInt8.ofNat c.toNat)
      (true, a, r, accesses)
  else if m = 1 ∨ m = 2 then
    if f.body ≠ flag (m + 1) then (false, a.invalid, r, []) else (true, a, r, [])
  else (true, a, r, [])

/-- The buffers of the name and of the password. -/
structure Buffers where
  ssid : Received 32
  password : Received 64

def Buffers.empty : Buffers := ⟨Received.empty 32, Received.empty 64⟩

/-- The end of `detect`: when every nibble was received, `smart_check` decides whether all is done. -/
def AddrMap.finish (a : AddrMap) (b : Buffers) : Bool × Buffers × List SmartAccess :=
  let ssidNibbles := (2 * a.ssidLen).toNat
  let pwdNibbles := (2 * a.pwdLen).toNat
  let (ssidAll, ssidReads) := b.ssid.complete 0 ssidNibbles
  let (pwdAll, pwdReads) := b.password.complete 0 pwdNibbles
  let reads := ssidReads.map .ssid ++ pwdReads.map .password
  if 0 < a.ssidLen ∧ 0 < a.pwdLen ∧ ssidAll ∧ pwdAll then
    let (ssidOk, ssid, ssidAccesses) := b.ssid.smartCheck ssidNibbles
    if ssidOk then
      let (pwdOk, password, pwdAccesses) := b.password.smartCheck pwdNibbles
      (pwdOk, ⟨ssid, password⟩, reads ++ ssidAccesses.map .ssid ++ pwdAccesses.map .password)
    else (false, { b with ssid := ssid }, reads ++ ssidAccesses.map .ssid)
  else (false, b, reads)

/-- A frame in the part of the name or of the password. -/
def AddrMap.collect (a : AddrMap) (b : Buffers) (f : Frame) (seqDelta : Int) :
    Bool × AddrMap × Buffers × List SmartAccess :=
  let (goesOn, a, b, accesses) : Bool × AddrMap × Buffers × List SmartAccess :=
    if seqDelta ≤ a.ssidEnd then
      let (goesOn, a, ssid, accesses) := a.content b.ssid f (seqDelta - 1 - 2 - 1)
      (goesOn, a, { b with ssid := ssid }, accesses.map .ssid)
    else
      let (goesOn, a, password, accesses) := a.content b.password f (seqDelta - 1 - a.ssidEnd - 2 - 2)
      (goesOn, a, { b with password := password }, accesses.map .password)
  if goesOn then
    let (alldone, b, checks) := a.finish b
    (alldone, a, b, accesses ++ checks)
  else (false, a, b, accesses)

/-- A frame of the matched pair: whether all is done, its entry and the buffers. -/
def AddrMap.detect (a : AddrMap) (b : Buffers) (f : Frame) : Bool × AddrMap × Buffers × List SmartAccess :=
  let seqDelta := a.seqDelta f.seq
  if a.baseSeqValid = false then (false, if f.body = ssidFlag then a.base f.seq else a, b, [])
  else if seqDelta < 0 then (false, a.invalid, b, [])
  else if seqDelta = 0 then (false, if f.body ≠ ssidFlag then a.invalid else a, b, [])
  else if a.roundEnd < seqDelta then (false, if f.body = ssidFlag then a.base f.seq else a.invalid, b, [])
  else if seqDelta = 1 then (false, a.learnSsidLen f, b, [])
  else if seqDelta = 2 ∨ seqDelta = 3 then (false, a.expect f (flag seqDelta.toNat), b, [])
  else if seqDelta = a.ssidEnd + 1 then (false, a.expect f pwdFlag, b, [])
  else if seqDelta = a.ssidEnd + 1 + 1 then (false, a.learnPwdLen f, b, [])
  else a.collect b f seqDelta

/-! ### The machine -/

/-- The state of the decoder. Frames reach `detect` while it is `running`. -/
structure Decoder where
  am : List AddrMap
  matched : Option Nat
  buffers : Buffers
  timer : Bool
  running : Bool

/-- `ADDR_MAP_NUM` -/
def addrMapNum : Nat := 10

def resetMap : List AddrMap := List.replicate addrMapNum .reset

/-- Before `smart_begin` and after `smart_end`. -/
def Decoder.off : Decoder := ⟨resetMap, none, .empty, false, false⟩

/-- What happens: a frame is seen, the timer of the channel expires, or the configuration is begun, with or without
enough memory, or ended. -/
inductive SmartEvent where
  | frame (f : Frame)
  | nextChannel
  | begin (memory : Bool)
  | end

/-- `detect`. Once all is done it calls `smart_end`. -/
def Decoder.detect (s : Decoder) (f : Frame) : Decoder × List SmartAccess :=
  if ¬ f.Accepted then (s, [])
  else
    match s.matched with
    | none =>
      let (am, matched) := search f s.am
      ({ s with am := am, matched := matched, timer := s.timer && matched.isNone }, [])
    | some k =>
      let a := s.am.getD k .reset
      if a.addr ≠ f.addr then (s, [])
      else
        let (alldone, a, buffers, accesses) := a.detect s.buffers f
        (if alldone then .off else { s with am := s.am.set k a, buffers := buffers }, accesses)

def smart : Machine Decoder SmartEvent SmartAccess :=
  ⟨fun s e =>
    match e with
    | .frame f => if s.running then s.detect f else (s, [])
    | .nextChannel =>
      if s.running ∧ s.timer then ({ s with am := resetMap, buffers := .empty }, []) else (s, [])
    | .begin memory =>
      if memory then
        if s.running then ({ s with am := resetMap, timer := true }, [])
        else (⟨resetMap, none, .empty, true, true⟩, [])
      else (.off, [])
    | .end => (.off, [])⟩

end EspClock.Smart
