import EspClock.Lib.Run
import EspClock.Mqtt.Message

/-!
# The MQTT client

`mqtt.c`: one userdata holds a connection, the state of the session, one record of what is pending and one
reference for each kind of callback. Everything happens in the handlers of espconn and of a timer that ticks
every second, and in the calls of the Lua program. A callback runs Lua code inside of its handler, so the
calls that this code makes happen before the handler goes on; what the program does in its callbacks is a
parameter, a list of calls for each callback it gets.

The TCP side is kept with the client: whether espconn knows the connection and how many packets it has been
handed that no sent event has covered yet.
-/

namespace EspClock.Mqtt

open Mem

inductive ConnState where
  | init
  | connectSend
  | connectSending
  | data
  deriving DecidableEq

/-- `lmqtt_userdata` with its `mqtt_state_t`. A reference is kept as whether it is there; the callback of a
publish is known by a number. -/
structure Client where
  espconn : Bool
  selfRef : Bool
  connectRef : Bool
  disconnectRef : Bool
  messageRef : Bool
  subackRef : Bool
  pubackRef : Option Nat
  inBuffer : Block UInt8 1024
  /-- Whether `outbound_message` points to the message of the connection. -/
  outbound : Bool
  connection : Connection
  pendingId : Nat
  pendingType : Option MessageType
  pendingQos : Nat
  info : ConnectInfo
  keepAliveTick : Nat
  sendTimeout : Nat
  connected : Bool
  timer : Bool
  state : ConnState
  /-- Whether espconn knows the connection. -/
  link : Bool
  /-- The packets that espconn was handed and that no sent event has covered. -/
  inFlight : Nat
  /-- The number of callbacks so far. -/
  called : Nat
  /-- Whether a handler never returned. -/
  stuck : Bool

/-- The client after `mqtt.Client`, which leaves `connected` as it finds it. -/
def Client.new (info : ConnectInfo) (connected : Bool) : Client where
  espconn := false
  selfRef := false
  connectRef := false
  disconnectRef := false
  messageRef := false
  subackRef := false
  pubackRef := none
  inBuffer := Block.fill 1024 0
  outbound := false
  connection := ⟨0, 0, 0, Block.fill 1024 0, 0, []⟩
  pendingId := 0
  pendingType := none
  pendingQos := 0
  info := info
  keepAliveTick := 0
  sendTimeout := 0
  connected := connected
  timer := false
  state := .init
  link := false
  inFlight := 0
  called := 0
  stuck := false

/-- The names `mqtt:on` knows. -/
inductive Method where
  | connect
  | offline
  | message
  deriving DecidableEq

/-- A call of the Lua program. -/
inductive Operation where
  | publish (topic payload : List UInt8) (qos retain : Nat) (callback : Option Nat)
  | subscribe (topic : List UInt8) (qos : Nat) (callback : Bool)
  | subscribeTable (topics : List (List UInt8 × Nat)) (callback : Bool)
  | on (method : Method)
  | close
  deriving DecidableEq

/-- What a pointer and a length stand for. -/
inductive Text where
  | bytes (content : List UInt8)
  | null (length : Nat)
  deriving DecidableEq

inductive Callback where
  | connect
  | offline
  | message (topic : Text) (payload : Option Text)
  | suback
  | puback (callback : Nat)
  deriving DecidableEq

/-- A publish whose packet is handed over. -/
structure Publication where
  qos : Nat
  id : Nat
  callback : Option Nat
  deriving DecidableEq

/-- What becomes visible of a handler or a call: the callbacks, the stores into `out_buffer` with the number
of packets in flight at that moment, the packets handed to espconn, the bytes copied into `in_buffer` and the
indices of it that are read. -/
inductive Action where
  | callback (callback : Callback)
  | wrote (indices : List Nat) (inFlight : Nat)
  | handed (publication : Option Publication) (bytes : List UInt8)
  | disconnect
  | error (message : String)
  | copied (offset count : Nat)
  | read (indices : List Nat)
  deriving DecidableEq

namespace Client

/-! ### Sending -/

/-- A builder leaves its message in the connection and `outbound_message` points to it. -/
def build (s : Client) (c : Connection) : Client × List Action :=
  ({ s with connection := c, outbound := true }, [.wrote c.written s.inFlight])

/-- `espconn_sent` of the outbound message, which does nothing without a connection or bytes. -/
def transmit (s : Client) (publication : Option Publication) : Client × List Action :=
  if s.espconn ∧ s.link ∧ 0 < s.connection.length then
    ({ s with inFlight := s.inFlight + 1 }, [.handed publication s.connection.message])
  else (s, [])

/-! ### Calls of the Lua program -/

/-- The characters of a string that `strlen` counts. -/
def cstr (string : List UInt8) : List UInt8 := string.takeWhile (· ≠ 0)

def publish (s : Client) (topic payload : List UInt8) (qos retain : Nat) (callback : Option Nat) :
    Client × List Action :=
  if !s.espconn then (s, [])
  else if s.sendTimeout ≠ 0 then (s, [.error "sending in process"])
  else
    let qos := qos % 256
    let built := s.connection.mqttMsgPublish (cstr topic) payload qos (retain % 256) s.pendingId
    let (s, written) := s.build built.1
    let s := { s with
      pendingId := built.2
      pendingType := some .publish
      pendingQos := qos
      sendTimeout := 5
      pubackRef := callback.or s.pubackRef }
    let (s, handed) := s.transmit (some ⟨qos, built.2, callback⟩)
    ({ s with outbound := false }, written ++ handed)

/-- The end of both forms of `subscribe`. -/
def subscribed (s : Client) (callback : Bool) : Client × List Action :=
  let s := { s with
    sendTimeout := 5
    pendingType := some .subscribe
    pendingQos := (s.connection.buffer.get s.connection.data).toNat / 2 % 4
    subackRef := s.subackRef || callback }
  s.transmit none

/-- A SUBSCRIBE message for one topic. -/
def buildSubscribe (s : Client) (topic : List UInt8) (qos : Nat) : Client × List Action :=
  let built := s.connection.mqttMsgSubscribe (cstr topic) (qos % 256) s.pendingId
  let (s, written) := s.build built.1
  ({ s with pendingId := built.2 }, written)

def subscribe (s : Client) (topic : List UInt8) (qos : Nat) (callback : Bool) : Client × List Action :=
  if s.sendTimeout ≠ 0 then (s, [.error "sending in process"])
  else if !s.connected then (s, [.error "not connected"])
  else
    let (s, written) := s.buildSubscribe topic qos
    let (s, handed) := s.subscribed callback
    (s, written ++ handed)

/-- The messages of the topics of a table, one after the other in `out_buffer`, and copies of them. -/
def buildTable (s : Client) : List (List UInt8 × Nat) → Client × List Action × List (List UInt8)
  | [] => (s, [], [])
  | (topic, qos) :: topics =>
    let (s, written) := s.buildSubscribe topic qos
    let message := s.connection.message
    let (s, written', messages) := s.buildTable topics
    (s, written ++ written', message :: messages)

/-- The copies are put back one behind the other; one that does not fit is left out. -/
def copyBack (c : Connection) (ptr : Nat) : List (List UInt8) → Connection × Nat
  | [] => (c, ptr)
  | message :: messages =>
    if ptr + message.length < 1024 then copyBack (c.store ptr message) (ptr + message.length) messages
    else copyBack c ptr messages

def subscribeTable (s : Client) (topics : List (List UInt8 × Nat)) (callback : Bool) : Client × List Action :=
  if s.sendTimeout ≠ 0 then (s, [.error "sending in process"])
  else if !s.connected then (s, [.error "not connected"])
  else
    let (s, written, messages) := s.buildTable topics
    let (c, ptr) := copyBack { s.connection with written := [] } 0 messages
    let written := written ++ [.wrote c.written s.inFlight]
    if ptr = 0 then ({ s with connection := c }, written ++ [.error "invalid data"])
    else
      let (s, handed) := { s with connection := { c with data := 0, length := ptr } }.subscribed callback
      (s, written ++ handed)

def on (s : Client) : Method → Client
  | .connect => { s with connectRef := true }
  | .offline => { s with disconnectRef := true }
  | .message => { s with messageRef := true }

def operate (s : Client) : Operation → Client × List Action
  | .publish topic payload qos retain callback => s.publish topic payload qos retain callback
  | .subscribe topic qos callback => s.subscribe topic qos callback
  | .subscribeTable topics callback => s.subscribeTable topics callback
  | .on method => (s.on method, [])
  | .close => (s, if s.espconn then [.disconnect] else [])

def operateAll (s : Client) : List Operation → Client × List Action
  | [] => (s, [])
  | o :: os =>
    let (s, actions) := s.operate o
    let (s, actions') := s.operateAll os
    (s, actions ++ actions')

/-- What the Lua program does in each of its callbacks. -/
abbrev Program := Nat → List Operation

/-- `lua_call` -/
def call (program : Program) (s : Client) (callback : Callback) : Client × List Action :=
  let (s', actions) := { s with called := s.called + 1 }.operateAll (program s.called)
  (s', .callback callback :: actions)

/-! ### The handlers -/

/-- The string of a pointer and a length, with what is read for it. -/
def pushText (s : Client) : Option Nat × Nat → Text × List Action
  | (some i, length) =>
    (.bytes ((Reads.slice i length).value s.inBuffer.cells),
      [.read ((Reads.slice i length : Reads UInt8 _).indices s.inBuffer.cells)])
  | (none, length) => (.null length, [])

/-- The result of reading `in_buffer`, with the indices read. -/
def reading {α : Type} (s : Client) (m : Reads UInt8 α) : α × List Action :=
  (m.value s.inBuffer.cells, [.read (m.indices s.inBuffer.cells)])

variable (program : Program) (signed : Signed)

/-- The arguments of the message callback, with what is read for them. -/
def messageArguments (s : Client) (topic data : Option Nat × Nat) : Callback × List Action :=
  let (topicText, pushTopic) := s.pushText topic
  if 0 < data.2 then
    let (dataText, pushData) := s.pushText data
    (.message topicText (some dataText), pushTopic ++ pushData)
  else (.message topicText none, pushTopic)

def deliverPublish (s : Client) (length : Nat) : Client × List Action :=
  let (topic, readTopic) := s.reading (mqttGetPublishTopic signed length)
  let (data, readData) := s.reading (mqttGetPublishData signed length)
  if s.messageRef ∧ s.selfRef then
    let (callback, pushed) := s.messageArguments topic data
    let (s, called) := s.call program callback
    (s, readTopic ++ readData ++ pushed ++ called)
  else (s, readTopic ++ readData)

/-- The callback of a publish, if there is one. -/
def callPuback (s : Client) : Client × List Action :=
  match s.pubackRef with
  | some callback => if s.selfRef then s.call program (.puback callback) else (s, [])
  | none => (s, [])

/-- The answer to a PUBLISH message. -/
def acknowledge (s : Client) (qos id : Nat) : Client × List Action :=
  if qos = 1 then s.build (s.connection.mqttMsgPuback id)
  else if qos = 2 then s.build (s.connection.mqttMsgPubrec id)
  else (s, [])

/-- The switch over the type of a message in state `MQTT_DATA`. -/
def handle (s : Client) (len qos id : Nat) : Option MessageType → Client × List Action
  | some .suback => if s.subackRef ∧ s.selfRef then s.call program .suback else (s, [])
  | some .publish =>
    let (s, written) := s.acknowledge qos id
    let (s, delivered) := s.deliverPublish program signed len
    (s, written ++ delivered)
  | some .puback | some .pubcomp =>
    if s.pendingType = some .publish ∧ s.pendingId = id then s.callPuback program else (s, [])
  | some .pubrec => s.build (s.connection.mqttMsgPubrel id)
  | some .pubrel => s.build (s.connection.mqttMsgPubcomp id)
  | some .pingreq => s.build s.connection.mqttMsgPingresp
  | _ => (s, [])

/-- The end of `mqtt_socket_received`. -/
def sendOutbound (s : Client) : Client × List Action :=
  if s.outbound then
    let (s, handed) := s.transmit none
    ({ s with outbound := false }, handed)
  else (s, [])

/-- The copy to `in_buffer` at the label `READPACKET`. -/
def load (s : Client) (pdata : List UInt8) : Client :=
  { s with inBuffer := s.inBuffer.store 0 pdata, outbound := false }

/-- The case `MQTT_CONNECT_SENDING`. -/
def accept (s : Client) : Client × List Action :=
  let (type, readType) := s.reading mqttGetType
  if type ≠ some .connack then
    let (s, handed) := { s with state := .init }.sendOutbound
    (s, readType ++ .disconnect :: handed)
  else
    let s := { s with state := .data }
    if s.connectRef ∧ s.selfRef then
      let (s, called) := s.call program .connect
      (s, readType ++ called)
    else (s, readType)

/-- The case `MQTT_DATA`, for the message at the start of `in_buffer`. -/
def packet (s : Client) (len : Nat) : Client × List Action :=
  let (_, readTotal) := s.reading (mqttGetTotalLength signed len)
  let (type, readType) := s.reading mqttGetType
  let (qos, readQos) := s.reading mqttGetQos
  let (id, readId) := s.reading (mqttGetId 1024)
  let (s, handled) := s.handle program signed len qos id type
  (s, readTotal ++ readType ++ readQos ++ readId ++ handled)

/-- `message_length`, which has 16 bits. -/
def messageLength (s : Client) (len : Nat) : Nat :=
  ((mqttGetTotalLength signed len).value s.inBuffer.cells % 65536).toNat

/-- Another message follows a PUBLISH message. -/
def Another (s : Client) (len : Nat) : Prop :=
  mqttGetType.value s.inBuffer.cells = some .publish ∧ s.messageLength signed len < len

instance (s : Client) (len : Nat) : Decidable (s.Another signed len) := inferInstanceAs (Decidable (_ ∧ _))

/-- The loop at `READPACKET`, from an offset into the data on; the loop that never ends is given up when
the fuel is used up. -/
def readPacket : Nat → Client → Nat → List UInt8 → Client × List Action
  | 0, s, _, _ => ({ s with stuck := true }, [])
  | fuel + 1, s, offset, pdata =>
    let len := pdata.length
    if len > 1024 ∧ len ≤ 0 then (s, [])
    else
      let loaded := s.load pdata
      match s.state with
      | .connectSending =>
        let (s, actions) := loaded.accept program
        (s, .copied offset len :: actions)
      | .data =>
        let (s, actions) := loaded.packet program signed len
        if loaded.Another signed len then
          let next := loaded.messageLength signed len
          let (s, actions') := readPacket fuel s (offset + next) (pdata.drop next)
          (s, .copied offset len :: actions ++ actions')
        else
          let (s, handed) := s.sendOutbound
          (s, .copied offset len :: actions ++ handed)
      | _ =>
        let (s, handed) := loaded.sendOutbound
        (s, .copied offset len :: handed)

/-- Every iteration but the last takes bytes away, unless the loop never ends. -/
def received (s : Client) (pdata : List UInt8) : Client × List Action :=
  readPacket program signed (pdata.length + 1) s 0 pdata

def socketSent (s : Client) (count : Nat) : Client × List Action :=
  let s := { s with inFlight := s.inFlight - count }
  if !s.connected then (s, [])
  else
    let s := { s with sendTimeout := 0 }
    if s.pendingType = some .publish ∧ s.pendingQos = 0 then s.callPuback program else (s, [])

def socketConnected (s : Client) : Client × List Action :=
  let s := { s with connected := true, link := true }
  let (s, written) := s.build ((s.connection.init 1024).mqttMsgConnect s.info)
  let (s, handed) := s.transmit none
  ({ s with outbound := false, state := .connectSending }, written ++ handed)

/-- The part of `mqtt_socket_timer` that pings the server. -/
def ping (s : Client) : Client × List Action :=
  if s.state = .data then
    let s := { s with keepAliveTick := wrap32 (s.keepAliveTick + 1) }
    if s.keepAliveTick > s.info.keepalive then
      let s := { s with pendingType := some .pingreq, sendTimeout := 5 }
      let (s, written) := s.build s.connection.mqttMsgPingreq
      let (s, handed) := s.transmit none
      ({ s with keepAliveTick := 0 }, written ++ handed)
    else (s, [])
  else (s, [])

def socketTimer (s : Client) : Client × List Action :=
  let (s, actions) := s.ping
  ({ s with sendTimeout := s.sendTimeout - 1 }, actions)

def socketDisconnected (s : Client) : Client × List Action :=
  let s := { s with link := false, inFlight := 0 }
  let (s, called) := if s.disconnectRef ∧ s.selfRef then s.call program .offline else (s, [])
  ({ s with connected := false, timer := false, espconn := false, selfRef := false }, called)

/-- How many of the two allocations of `mqtt:connect` succeed. -/
inductive Memory where
  | none
  | espconn
  | both
  deriving DecidableEq

def socketConnect (s : Client) (callback : Bool) : Memory → Client × List Action
  | .both =>
    ({ s with
      espconn := true
      link := false
      connected := false
      connectRef := s.connectRef || callback
      selfRef := true
      timer := true }, [])
  | _ => ({ s with espconn := false, link := false }, [.error "not enough memory"])

end Client

/-! ### Runs -/

inductive Event where
  | operation (o : Operation)
  | connect (callback : Bool) (memory : Client.Memory)
  | tcpConnected
  | received (pdata : List UInt8)
  | sent (count : Nat)
  | tick
  | disconnected
  deriving DecidableEq

/-- The handlers of espconn are called for a connection that is there, a sent event covers packets in
flight, and the timer ticks while it is armed. -/
def Client.react (program : Client.Program) (signed : Signed) (s : Client) : Event → Client × List Action
  | .operation o => s.operate o
  | .connect callback memory => s.socketConnect callback memory
  | .tcpConnected => if s.espconn then s.socketConnected else (s, [])
  | .received pdata => if s.espconn ∧ s.link then s.received program signed pdata else (s, [])
  | .sent count => if s.espconn ∧ 0 < count ∧ count ≤ s.inFlight then s.socketSent program count else (s, [])
  | .tick => if s.timer then s.socketTimer else (s, [])
  | .disconnected => if s.espconn then s.socketDisconnected program else (s, [])

/-- A client, the server and the program, for any order of events. -/
def client (program : Client.Program) (signed : Signed) : Machine Client Event Action where
  step s e := if s.stuck then (s, []) else s.react program signed e

end EspClock.Mqtt
