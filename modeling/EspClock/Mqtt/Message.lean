import EspClock.Lib.Memory
import EspClock.Lib.Reads

/-!
# MQTT messages

`mqtt_msg.c`: the functions that take a received message apart read the bytes of a buffer up to a length
they are given, the functions that build a message put its parts behind three bytes that are left free for
the fixed header and fill the header in last. A message that does not fit is given up and has length 0.

The length field is summed up in a signed integer. Where its bytes make the sum overflow, or shift by more
than the width, C leaves the result open; it is a parameter here.
-/

namespace EspClock.Mqtt

open Mem

/-- `mqtt_message_type` -/
inductive MessageType where
  | connect
  | connack
  | publish
  | puback
  | pubrec
  | pubrel
  | pubcomp
  | subscribe
  | suback
  | unsubscribe
  | unsuback
  | pingreq
  | pingresp
  | disconnect
  deriving DecidableEq

namespace MessageType

def number : MessageType → Nat
  | connect => 1
  | connack => 2
  | publish => 3
  | puback => 4
  | pubrec => 5
  | pubrel => 6
  | pubcomp => 7
  | subscribe => 8
  | suback => 9
  | unsubscribe => 10
  | unsuback => 11
  | pingreq => 12
  | pingresp => 13
  | disconnect => 14

def ofNumber : Nat → Option MessageType
  | 1 => some connect
  | 2 => some connack
  | 3 => some publish
  | 4 => some puback
  | 5 => some pubrec
  | 6 => some pubrel
  | 7 => some pubcomp
  | 8 => some subscribe
  | 9 => some suback
  | 10 => some unsubscribe
  | 11 => some unsuback
  | 12 => some pingreq
  | 13 => some pingresp
  | 14 => some disconnect
  | _ => none

theorem ofNumber_number (type : MessageType) : ofNumber type.number = some type := by
  cases type <;> rfl

end MessageType

/-! ### Taking a message apart -/

/-- How `totlen += b << n` ends on the signed integers of the machine, where C defines it. -/
structure Signed where
  addShifted : Int → Nat → Nat → Int
  addShifted_eq : ∀ (totlen : Int) (b n : Nat), 0 ≤ totlen → totlen + b * 2 ^ n < 2 ^ 31 →
    addShifted totlen b n = totlen + b * 2 ^ n

open Reads

def mqttGetType : Reads UInt8 (Option MessageType) := do
  let b ← cell 0
  pure (MessageType.ofNumber (b.toNat / 16))

def mqttGetQos : Reads UInt8 Nat := do
  let b ← cell 0
  pure (b.toNat / 2 % 4)

def mqttGetRetain : Reads UInt8 Nat := do
  let b ← cell 0
  pure (b.toNat % 2)

/-- The loop over the length field, which ends behind the first byte without a continuation bit: the index
behind the field and the sum, with `left` iterations at most. -/
def lengthField (signed : Signed) (length : Nat) : Nat → Nat → Int → Reads UInt8 (Nat × Int)
  | 0, i, totlen => pure (i, totlen)
  | left + 1, i, totlen =>
    if i < length then do
      let b ← cell i
      let totlen := signed.addShifted totlen (b.toNat % 128) (7 * (i - 1))
      if b.toNat < 128 then pure (i + 1, totlen) else lengthField signed length left (i + 1) totlen
    else pure (i, totlen)

def mqttGetTotalLength (signed : Signed) (length : Nat) : Reads UInt8 Int := do
  let (i, totlen) ← lengthField signed length length 1 0
  pure (signed.addShifted totlen i 0)

/-- Two bytes, the most significant one first. -/
def word16 (i : Nat) : Reads UInt8 Nat := do
  let high ← cell i
  let low ← cell (i + 1)
  pure (high.toNat * 256 + low.toNat)

/-- The index of the topic, if it is not `NULL`, and the length that is left in `*length`. -/
def mqttGetPublishTopic (signed : Signed) (length : Nat) : Reads UInt8 (Option Nat × Nat) := do
  let (i, _) ← lengthField signed length length 1 0
  if i + 2 ≥ length then pure (none, length)
  else
    let topiclen ← word16 i
    if i + 2 + topiclen > length then pure (none, length) else pure (some (i + 2), topiclen)

/-- The index of the payload, if it is not `NULL`, and the length that is left in `*length`. -/
def mqttGetPublishData (signed : Signed) (length : Nat) : Reads UInt8 (Option Nat × Nat) := do
  let (i, sum) ← lengthField signed length length 1 0
  let totlen := signed.addShifted sum i 0
  if i + 2 ≥ length then pure (none, length)
  else
    let topiclen ← word16 i
    if i + 2 + topiclen ≥ length then pure (none, 0)
    else
      let i := i + 2 + topiclen
      let qos ← mqttGetQos
      if qos > 0 ∧ i + 2 ≥ length then pure (none, length)
      else
        let i := if qos > 0 then i + 2 else i
        if totlen < i then pure (none, length)
        else if totlen ≤ length then pure (some i, (totlen - i).toNat) else pure (some i, length - i)

/-- The loop over the length field in `mqtt_get_id`. -/
def skipLengthField (length : Nat) : Nat → Nat → Reads UInt8 Nat
  | 0, i => pure i
  | left + 1, i =>
    if i < length then do
      let b ← cell i
      if b.toNat < 128 then pure (i + 1) else skipLengthField length left (i + 1)
    else pure i

def mqttGetId (length : Nat) : Reads UInt8 Nat :=
  if length < 1 then pure 0
  else do
    let type ← mqttGetType
    match type with
    | some .publish =>
      let i ← skipLengthField length length 1
      if i + 2 ≥ length then pure 0
      else
        let topiclen ← word16 i
        let i := i + 2
        if i + topiclen ≥ length then pure 0
        else
          let i := i + topiclen
          let qos ← mqttGetQos
          if qos > 0 then
            if i + 2 ≥ length then pure 0 else word16 i
          else pure 0
    | some .puback | some .pubrec | some .pubrel | some .pubcomp | some .suback | some .unsuback
    | some .subscribe =>
      if length ≥ 4 then
        let b ← cell 1
        if b.toNat < 128 then word16 2 else pure 0
      else pure 0
    | _ => pure 0

/-! ### Building a message -/

/-- `mqtt_connection_t`, with the buffer it points to and the indices of the bytes stored since
`init_message`. Before `mqtt_msg_init` the length of the buffer is 0. -/
structure Connection where
  data : Nat
  length : Nat
  messageId : Nat
  buffer : Block UInt8 1024
  bufferLength : Nat
  written : List Nat

/-- `mqtt_connect_info_t`; a string that is `NULL` is empty. -/
structure ConnectInfo where
  clientId : List UInt8
  username : List UInt8
  password : List UInt8
  willTopic : List UInt8
  willMessage : List UInt8
  keepalive : Nat
  willQos : Nat
  willRetain : Bool
  cleanSession : Bool

namespace Connection

/-- Stores in consecutive bytes of the buffer. -/
def store (c : Connection) (i : Nat) (bytes : List UInt8) : Connection :=
  { c with
    buffer := c.buffer.store i bytes
    written := c.written ++ (List.range bytes.length).map (i + ·) }

/-- Stores behind the message, whose length grows by them. -/
def push (c : Connection) (bytes : List UInt8) : Connection :=
  { c.store c.length bytes with length := c.length + bytes.length }

/-- The bytes of the message. -/
def message (c : Connection) : List UInt8 := (c.buffer.cells.drop c.data).take c.length

/-- The message is given up in the connection of an error. -/
def appendString (c : Connection) (string : List UInt8) : Except Connection Connection :=
  if c.length + string.length + 2 > c.bufferLength then .error c
  else .ok (c.push (UInt8.ofNat (string.length / 256) :: UInt8.ofNat string.length :: string))

/-- The identifier after `message_id`, which skips 0. -/
def nextId (messageId : Nat) : Nat := if (messageId + 1) % 65536 = 0 then 1 else (messageId + 1) % 65536

/-- A message identifier of 0 asks for a new one. -/
def assignId (c : Connection) (messageId : Nat) : Connection × Nat :=
  if messageId = 0 then ({ c with messageId := nextId c.messageId }, nextId c.messageId) else (c, messageId)

def appendMessageId (c : Connection) (messageId : Nat) : Except Connection (Connection × Nat) :=
  let (c, messageId) := c.assignId messageId
  if c.length + 2 > c.bufferLength then .error c
  else .ok (c.push [UInt8.ofNat (messageId / 256), UInt8.ofNat messageId], messageId)

def initMessage (c : Connection) : Connection := { c with length := 3, written := [] }

def failMessage (c : Connection) : Connection := { c with data := 0, length := 0 }

/-- The first byte of a fixed header. -/
def header (type : MessageType) (dup qos retain : Nat) : UInt8 :=
  UInt8.ofNat (type.number * 16 + dup % 2 * 8 + qos % 4 * 2 + retain % 2)

def finiMessage (c : Connection) (type : MessageType) (dup qos retain : Nat) : Connection :=
  let remaining := c.length - 3
  if remaining > 127 then
    { c.store 0 [header type dup qos retain, UInt8.ofNat (128 + remaining % 128), UInt8.ofNat (remaining / 128)] with
      length := remaining + 3, data := 0 }
  else
    { c.store 1 [header type dup qos retain, UInt8.ofNat remaining] with length := remaining + 2, data := 1 }

/-- The end of a builder: the message is given up where one of its parts failed. -/
def fini (type : MessageType) (dup qos retain : Nat) : Except Connection Connection → Connection
  | .ok c => c.finiMessage type dup qos retain
  | .error c => c.failMessage

/-- `mqtt_msg_init`, whose `memset` clears no more than the pointer to the message. -/
def init (c : Connection) (bufferLength : Nat) : Connection := { c with data := 0, bufferLength := bufferLength }

/-- `variable_header->flags |= flag` -/
def orFlag (c : Connection) (flag : Nat) : Connection := c.store 10 [c.buffer.get 10 ||| UInt8.ofNat flag]

/-- A string of the CONNECT message that may be left out, and its flag. -/
def appendOptional (c : Connection) (string : List UInt8) (flag : Nat) : Except Connection Connection :=
  if string = [] then .ok c
  else do
    let c ← c.appendString string
    pure (c.orFlag flag)

def appendWill (c : Connection) (info : ConnectInfo) : Except Connection Connection :=
  if info.willTopic = [] then .ok c
  else do
    let c ← c.appendString info.willTopic
    let c ← c.appendString info.willMessage
    let c := c.orFlag 4
    let c := if info.willRetain then c.orFlag 32 else c
    pure (c.orFlag (info.willQos % 4 * 8))

def mqttMsgConnect (c : Connection) (info : ConnectInfo) : Connection :=
  fini .connect 0 0 0 <| do
    let c := c.initMessage
    if c.length + 10 > c.bufferLength then .error c
    else
      let c := c.push [0, 4, 77, 81, 84, 84, 4, 0, UInt8.ofNat (info.keepalive / 256), UInt8.ofNat info.keepalive]
      let c := if info.cleanSession then c.orFlag 2 else c
      if info.clientId = [] then .error c
      else
        let c ← c.appendString info.clientId
        let c ← c.appendWill info
        let c ← c.appendOptional info.username 128
        c.appendOptional info.password 64

/-- The payload of a PUBLISH message. -/
def appendData (c : Connection) (data : List UInt8) : Except Connection Connection :=
  if c.length + data.length > c.bufferLength then .error c else .ok (c.push data)

/-- The message and what is left in `*message_id`. -/
def mqttMsgPublish (c : Connection) (topic data : List UInt8) (qos retain messageId : Nat) : Connection × Nat :=
  let c := c.initMessage
  if topic = [] then (c.failMessage, messageId)
  else
    match c.appendString topic with
    | .error c => (c.failMessage, messageId)
    | .ok c =>
      if qos > 0 then
        match c.appendMessageId 0 with
        | .error c => (c.failMessage, 0)
        | .ok (c, messageId) => (fini .publish 0 qos retain (c.appendData data), messageId)
      else (fini .publish 0 qos retain (c.appendData data), 0)

def mqttMsgSubscribe (c : Connection) (topic : List UInt8) (qos messageId : Nat) : Connection × Nat :=
  let c := c.initMessage
  if topic = [] then (c.failMessage, messageId)
  else
    match c.appendMessageId 0 with
    | .error c => (c.failMessage, 0)
    | .ok (c, messageId) =>
      (fini .subscribe 0 1 0 <| do
        let c ← c.appendString topic
        c.appendData [UInt8.ofNat qos], messageId)

/-- The type in the header is that of SUBSCRIBE. -/
def mqttMsgUnsubscribe (c : Connection) (topic : List UInt8) (messageId : Nat) : Connection × Nat :=
  let c := c.initMessage
  if topic = [] then (c.failMessage, messageId)
  else
    match c.appendMessageId 0 with
    | .error c => (c.failMessage, 0)
    | .ok (c, messageId) => (fini .subscribe 0 1 0 (c.appendString topic), messageId)

/-- The messages that consist of a message identifier. -/
def mqttMsgId (type : MessageType) (qos : Nat) (c : Connection) (messageId : Nat) : Connection :=
  fini type 0 qos 0 ((c.initMessage.appendMessageId messageId).map Prod.fst)

def mqttMsgPuback : Connection → Nat → Connection := mqttMsgId .puback 0

def mqttMsgPubrec : Connection → Nat → Connection := mqttMsgId .pubrec 0

def mqttMsgPubrel : Connection → Nat → Connection := mqttMsgId .pubrel 1

def mqttMsgPubcomp : Connection → Nat → Connection := mqttMsgId .pubcomp 0

def mqttMsgPingreq (c : Connection) : Connection := c.initMessage.finiMessage .pingreq 0 0 0

def mqttMsgPingresp (c : Connection) : Connection := c.initMessage.finiMessage .pingresp 0 0 0

def mqttMsgDisconnect (c : Connection) : Connection := c.initMessage.finiMessage .disconnect 0 0 0

end Connection

end EspClock.Mqtt
