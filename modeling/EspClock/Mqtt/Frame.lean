import EspClock.Mqtt.Client

/-!
# What the parts of a handler leave alone

The calls of the Lua program, and with them the callbacks, build messages and change what is pending. They
leave alone in which state the session is, the connection and the timer, and the parts of a builder change neither
the length of its buffer nor the counter of identifiers. These facts are stated once here, for the calls and for the parts of the handlers.
-/

namespace EspClock.Mqtt

open Mem

/-! ### The parts of a message -/

namespace Connection

variable {c c' : Connection}

/-- A part of a message, whether it fails or not, leaves a view of the connection alone. -/
def Keeps (view : Connection → Nat) (c : Connection) : Except Connection Connection → Prop
  | .ok c' | .error c' => view c' = view c

/-- A view of the connection that is not about the message. -/
structure Apart (view : Connection → Nat) : Prop where
  store : ∀ c i bytes, view (store c i bytes) = view c
  resize : ∀ c data length, view { c with data := data, length := length } = view c

theorem apart_bufferLength : Apart bufferLength := ⟨fun _ _ _ => rfl, fun _ _ _ => rfl⟩

theorem apart_messageId : Apart messageId := ⟨fun _ _ _ => rfl, fun _ _ _ => rfl⟩

theorem Keeps.bind {view : Connection → Nat} {result : Except Connection Connection}
    {f : Connection → Except Connection Connection} (h : c.Keeps view result)
    (hf : ∀ c', view c' = view c → c.Keeps view (f c')) : c.Keeps view (result >>= f) := by
  cases result with
  | ok c' => exact hf c' h
  | error c' => exact h

section Apart

variable {view : Connection → Nat} (hview : Apart view)
include hview

theorem Apart.push (c : Connection) (bytes : List UInt8) : view (c.push bytes) = view c :=
  (hview.resize _ _ _).trans (hview.store c c.length bytes)

theorem Apart.finiMessage (c : Connection) (type : MessageType) (dup qos retain : Nat) :
    view (c.finiMessage type dup qos retain) = view c := by
  unfold Connection.finiMessage
  dsimp only
  split_ifs
  · exact (hview.resize _ _ _).trans (hview.store _ _ _)
  · exact (hview.resize _ _ _).trans (hview.store _ _ _)

theorem Apart.fini {result : Except Connection Connection} (h : c.Keeps view result) (type : MessageType)
    (dup qos retain : Nat) : view (Connection.fini type dup qos retain result) = view c := by
  cases result with
  | ok c' => exact (hview.finiMessage c' type dup qos retain).trans h
  | error c' => exact (hview.resize c' 0 0).trans h

theorem Apart.appendString (h : view c' = view c) (string : List UInt8) : c.Keeps view (c'.appendString string) := by
  unfold Connection.appendString
  split_ifs
  · exact h
  · exact (hview.push _ _).trans h

theorem Apart.appendData (h : view c' = view c) (data : List UInt8) : c.Keeps view (c'.appendData data) := by
  unfold Connection.appendData
  split_ifs
  · exact h
  · exact (hview.push _ _).trans h

theorem Apart.appendOptional (h : view c' = view c) (string : List UInt8) (flag : Nat) :
    c.Keeps view (c'.appendOptional string flag) := by
  unfold Connection.appendOptional
  split_ifs
  · exact h
  · exact (hview.appendString h string).bind fun _ h => (hview.store _ _ _).trans h

theorem Apart.appendWill (h : view c' = view c) (info : ConnectInfo) : c.Keeps view (c'.appendWill info) := by
  have horFlag : ∀ c' flag, view c' = view c → view (orFlag c' flag) = view c := fun _ _ h => (hview.store _ _ _).trans h
  unfold Connection.appendWill
  split_ifs
  · exact h
  · refine (hview.appendString h _).bind fun _ h => (hview.appendString h _).bind fun _ h => ?_
    exact horFlag _ _ (horFlag _ _ (horFlag _ _ h))
  · refine (hview.appendString h _).bind fun _ h => (hview.appendString h _).bind fun _ h => ?_
    exact horFlag _ _ (horFlag _ _ h)

theorem Apart.mqttMsgConnect (hinit : view c.initMessage = view c) (info : ConnectInfo) :
    view (c.mqttMsgConnect info) = view c := by
  have hrest : ∀ c', view c' = view c → c.Keeps view (do
      let c ← Connection.appendString c' info.clientId
      let c ← c.appendWill info
      let c ← c.appendOptional info.username 128
      c.appendOptional info.password 64) := by
    intro c' h
    refine (hview.appendString h _).bind fun _ h => (hview.appendWill h info).bind fun _ h => ?_
    exact (hview.appendOptional h _ _).bind fun _ h => hview.appendOptional h _ _
  have hpush := (hview.push c.initMessage [0, 4, 77, 81, 84, 84, 4, 0, UInt8.ofNat (info.keepalive / 256),
    UInt8.ofNat info.keepalive]).trans hinit
  unfold Connection.mqttMsgConnect
  apply hview.fini
  dsimp only
  split_ifs
  · exact hinit
  · exact (hview.store _ _ _).trans hpush
  · exact hpush
  · exact hrest _ ((hview.store _ _ _).trans hpush)
  · exact hrest _ hpush

end Apart

/-- A part of a message, whether it fails or not, leaves the length of the buffer alone. -/
def KeepsBuffer (c : Connection) : Except Connection Connection → Prop
  | .ok c' | .error c' => c'.bufferLength = c.bufferLength

theorem KeepsBuffer.bind {result : Except Connection Connection} {f : Connection → Except Connection Connection}
    (h : c.KeepsBuffer result) (hf : ∀ c', c'.bufferLength = c.bufferLength → c.KeepsBuffer (f c')) :
    c.KeepsBuffer (result >>= f) := Keeps.bind h hf

theorem finiMessage_bufferLength (c : Connection) (type : MessageType) (dup qos retain : Nat) :
    (c.finiMessage type dup qos retain).bufferLength = c.bufferLength := apart_bufferLength.finiMessage c type dup qos retain

theorem KeepsBuffer.fini {result : Except Connection Connection} (h : c.KeepsBuffer result) (type : MessageType)
    (dup qos retain : Nat) : (Connection.fini type dup qos retain result).bufferLength = c.bufferLength :=
  apart_bufferLength.fini h type dup qos retain

theorem appendString_keeps (h : c'.bufferLength = c.bufferLength) (string : List UInt8) :
    c.KeepsBuffer (c'.appendString string) := apart_bufferLength.appendString h string

theorem appendData_keeps (h : c'.bufferLength = c.bufferLength) (data : List UInt8) :
    c.KeepsBuffer (c'.appendData data) := apart_bufferLength.appendData h data

theorem appendMessageId_keeps (h : c'.bufferLength = c.bufferLength) (messageId : Nat) :
    c.KeepsBuffer ((c'.appendMessageId messageId).map Prod.fst) := by
  unfold appendMessageId assignId
  split_ifs with hzero <;> dsimp only <;> split_ifs <;> exact h

theorem mqttMsgConnect_bufferLength (c : Connection) (info : ConnectInfo) :
    (c.mqttMsgConnect info).bufferLength = c.bufferLength := apart_bufferLength.mqttMsgConnect rfl info

theorem mqttMsgPublish_bufferLength (c : Connection) (topic data : List UInt8) (qos retain messageId : Nat) :
    (c.mqttMsgPublish topic data qos retain messageId).1.bufferLength = c.bufferLength := by
  have htopic := @appendString_keeps c c.initMessage rfl topic
  unfold mqttMsgPublish
  dsimp only
  split_ifs with hempty hqos
  · rfl
  · cases hstring : c.initMessage.appendString topic with
    | error c' =>
      rw [hstring] at htopic
      exact htopic
    | ok c' =>
      rw [hstring] at htopic
      have hid := appendMessageId_keeps htopic 0
      dsimp only
      cases hassigned : c'.appendMessageId 0 with
      | error c'' =>
        rw [hassigned] at hid
        exact hid
      | ok assigned =>
        rw [hassigned] at hid
        exact (appendData_keeps hid data).fini _ _ _ _
  · cases hstring : c.initMessage.appendString topic with
    | error c' =>
      rw [hstring] at htopic
      exact htopic
    | ok c' =>
      rw [hstring] at htopic
      exact (appendData_keeps htopic data).fini _ _ _ _

theorem mqttMsgSubscribe_bufferLength (c : Connection) (topic : List UInt8) (qos messageId : Nat) :
    (c.mqttMsgSubscribe topic qos messageId).1.bufferLength = c.bufferLength := by
  have hid := @appendMessageId_keeps c c.initMessage rfl 0
  unfold mqttMsgSubscribe
  dsimp only
  split_ifs with hempty
  · rfl
  · cases hassigned : c.initMessage.appendMessageId 0 with
    | error c' =>
      rw [hassigned] at hid
      exact hid
    | ok assigned =>
      rw [hassigned] at hid
      apply KeepsBuffer.fini
      exact (appendString_keeps hid topic).bind fun _ h => appendData_keeps h _

theorem mqttMsgId_bufferLength (c : Connection) (type : MessageType) (qos messageId : Nat) :
    (c.mqttMsgId type qos messageId).bufferLength = c.bufferLength :=
  KeepsBuffer.fini (appendMessageId_keeps rfl messageId) type 0 qos 0

end Connection

namespace Client

/-! ### The session -/

/-- Two clients in the same session. -/
structure SameSession (s s' : Client) : Prop where
  espconn : s'.espconn = s.espconn
  selfRef : s'.selfRef = s.selfRef
  connected : s'.connected = s.connected
  timer : s'.timer = s.timer
  state : s'.state = s.state
  link : s'.link = s.link
  info : s'.info = s.info
  bufferLength : s'.connection.bufferLength = s.connection.bufferLength
  stuck : s'.stuck = s.stuck

variable {s s' s'' : Client}

theorem SameSession.refl (s : Client) : SameSession s s := ⟨rfl, rfl, rfl, rfl, rfl, rfl, rfl, rfl, rfl⟩

theorem SameSession.trans (h : SameSession s s') (h' : SameSession s' s'') : SameSession s s'' :=
  ⟨h'.espconn.trans h.espconn, h'.selfRef.trans h.selfRef, h'.connected.trans h.connected,
    h'.timer.trans h.timer, h'.state.trans h.state, h'.link.trans h.link, h'.info.trans h.info,
    h'.bufferLength.trans h.bufferLength, h'.stuck.trans h.stuck⟩

theorem build_same {c : Connection} (h : c.bufferLength = s.connection.bufferLength) :
    SameSession s (s.build c).1 := ⟨rfl, rfl, rfl, rfl, rfl, rfl, rfl, h, rfl⟩

theorem transmit_same (s : Client) (publication : Option Publication) :
    SameSession s (s.transmit publication).1 := by
  unfold transmit
  split_ifs
  · exact ⟨rfl, rfl, rfl, rfl, rfl, rfl, rfl, rfl, rfl⟩
  · exact SameSession.refl s

theorem sendOutbound_same (s : Client) : SameSession s s.sendOutbound.1 := by
  unfold sendOutbound
  split_ifs
  · exact (transmit_same s none).trans ⟨rfl, rfl, rfl, rfl, rfl, rfl, rfl, rfl, rfl⟩
  · exact SameSession.refl s

theorem socketTimer_same (s : Client) : SameSession s s.socketTimer.1 := by
  have hping : ∀ t : Client, SameSession s t →
      SameSession s { (t.transmit none).1 with
        keepAliveTick := 0, sendTimeout := (t.transmit none).1.sendTimeout - 1 } :=
    fun t ht => (ht.trans (transmit_same t none)).trans ⟨rfl, rfl, rfl, rfl, rfl, rfl, rfl, rfl, rfl⟩
  unfold socketTimer ping
  dsimp only
  split_ifs
  · exact hping _ ⟨rfl, rfl, rfl, rfl, rfl, rfl, rfl, Connection.finiMessage_bufferLength _ _ _ _ _, rfl⟩
  · exact ⟨rfl, rfl, rfl, rfl, rfl, rfl, rfl, rfl, rfl⟩
  · exact ⟨rfl, rfl, rfl, rfl, rfl, rfl, rfl, rfl, rfl⟩

theorem subscribed_same (s : Client) (callback : Bool) : SameSession s (s.subscribed callback).1 := by
  refine SameSession.trans ?_ (transmit_same _ _)
  exact ⟨rfl, rfl, rfl, rfl, rfl, rfl, rfl, rfl, rfl⟩

theorem buildSubscribe_same (s : Client) (topic : List UInt8) (qos : Nat) :
    SameSession s (s.buildSubscribe topic qos).1 :=
  (build_same (Connection.mqttMsgSubscribe_bufferLength _ _ _ _)).trans
    ⟨rfl, rfl, rfl, rfl, rfl, rfl, rfl, rfl, rfl⟩

theorem buildTable_same (s : Client) (topics : List (List UInt8 × Nat)) :
    SameSession s (s.buildTable topics).1 := by
  induction topics generalizing s with
  | nil => exact SameSession.refl s
  | cons topic topics ih => exact (buildSubscribe_same s topic.1 topic.2).trans (ih _)

theorem copyBack_bufferLength (c : Connection) (ptr : Nat) (messages : List (List UInt8)) :
    (copyBack c ptr messages).1.bufferLength = c.bufferLength := by
  induction messages generalizing c ptr with
  | nil => rfl
  | cons message messages ih =>
    rw [copyBack]
    split_ifs
    · exact ih _ _
    · exact ih _ _

theorem operate_same (s : Client) (o : Operation) : SameSession s (s.operate o).1 := by
  cases o with
  | publish topic payload qos retain callback =>
    rw [operate, publish]
    split_ifs
    · exact SameSession.refl s
    · exact SameSession.refl s
    · apply SameSession.trans (build_same (Connection.mqttMsgPublish_bufferLength _ _ _ _ _ _))
      refine SameSession.trans ?_ ((transmit_same _ _).trans ⟨rfl, rfl, rfl, rfl, rfl, rfl, rfl, rfl, rfl⟩)
      exact ⟨rfl, rfl, rfl, rfl, rfl, rfl, rfl, rfl, rfl⟩
  | subscribe topic qos callback =>
    rw [operate, subscribe]
    split_ifs
    · exact SameSession.refl s
    · exact SameSession.refl s
    · exact (buildSubscribe_same s topic qos).trans (subscribed_same _ callback)
  | subscribeTable topics callback =>
    have hcopied := copyBack_bufferLength { (s.buildTable topics).1.connection with written := [] } 0
      (s.buildTable topics).2.2
    rw [operate, subscribeTable]
    dsimp only
    split_ifs
    · exact SameSession.refl s
    · exact SameSession.refl s
    · exact (buildTable_same s topics).trans ⟨rfl, rfl, rfl, rfl, rfl, rfl, rfl, hcopied, rfl⟩
    · apply (buildTable_same s topics).trans
      refine SameSession.trans ?_ (subscribed_same _ callback)
      exact ⟨rfl, rfl, rfl, rfl, rfl, rfl, rfl, hcopied, rfl⟩
  | on method => cases method <;> exact ⟨rfl, rfl, rfl, rfl, rfl, rfl, rfl, rfl, rfl⟩
  | close => exact SameSession.refl s

theorem operateAll_same (s : Client) (os : List Operation) : SameSession s (s.operateAll os).1 := by
  induction os generalizing s with
  | nil => exact SameSession.refl s
  | cons o os ih => exact (operate_same s o).trans (ih _)

theorem call_same (program : Program) (s : Client) (callback : Callback) :
    SameSession s (s.call program callback).1 := by
  refine SameSession.trans ?_ (operateAll_same _ _)
  exact ⟨rfl, rfl, rfl, rfl, rfl, rfl, rfl, rfl, rfl⟩

theorem callPuback_same (program : Program) (s : Client) : SameSession s (s.callPuback program).1 := by
  unfold callPuback
  split
  · split_ifs
    · exact call_same program s _
    · exact SameSession.refl s
  · exact SameSession.refl s

theorem deliverPublish_same (program : Program) (signed : Signed) (s : Client) (length : Nat) :
    SameSession s (s.deliverPublish program signed length).1 := by
  unfold deliverPublish
  dsimp only
  split_ifs
  · exact call_same program s (s.messageArguments (s.reading (mqttGetPublishTopic signed length)).1
      (s.reading (mqttGetPublishData signed length)).1).1
  · exact SameSession.refl s

theorem acknowledge_same (s : Client) (qos id : Nat) : SameSession s (s.acknowledge qos id).1 := by
  unfold acknowledge
  split_ifs
  · exact build_same (Connection.mqttMsgId_bufferLength _ _ _ _)
  · exact build_same (Connection.mqttMsgId_bufferLength _ _ _ _)
  · exact SameSession.refl s

theorem acknowledge_refs (s : Client) (qos id : Nat) :
    (s.acknowledge qos id).1.messageRef = s.messageRef ∧ (s.acknowledge qos id).1.selfRef = s.selfRef := by
  unfold acknowledge
  split_ifs <;> exact ⟨rfl, rfl⟩

theorem handle_same (program : Program) (signed : Signed) (s : Client) (len qos id : Nat)
    (type : Option MessageType) : SameSession s (s.handle program signed len qos id type).1 := by
  have hid : ∀ type qos, SameSession s (s.build (s.connection.mqttMsgId type qos id)).1 :=
    fun type qos => build_same (Connection.mqttMsgId_bufferLength _ _ _ _)
  rcases type with _ | type
  · exact SameSession.refl s
  · cases type with
    | suback =>
      rw [handle]
      split_ifs
      · exact call_same program s _
      · exact SameSession.refl s
    | publish => exact (acknowledge_same s qos id).trans (deliverPublish_same program signed _ len)
    | puback | pubcomp =>
      rw [handle]
      split_ifs
      · exact callPuback_same program s
      · exact SameSession.refl s
    | pubrec | pubrel => exact hid _ _
    | pingreq => exact build_same (Connection.finiMessage_bufferLength _ _ _ _ _)
    | _ => exact SameSession.refl s

theorem packet_same (program : Program) (signed : Signed) (s : Client) (len : Nat) :
    SameSession s (s.packet program signed len).1 := handle_same program signed s len _ _ _

/-! ### What becomes visible of a call -/

variable {P : Action → Prop}

/-- A property of all that a call of the Lua program can leave behind. -/
structure OfCalls (P : Action → Prop) : Prop where
  wrote : ∀ indices n, P (.wrote indices n)
  handed : ∀ publication bytes, P (.handed publication bytes)
  disconnect : P .disconnect
  error : ∀ message, P (.error message)

theorem build_actions (h : OfCalls P) (c : Connection) : ∀ a ∈ (s.build c).2, P a :=
  List.forall_mem_singleton.mpr (h.wrote _ _)

theorem transmit_actions (h : OfCalls P) (publication : Option Publication) :
    ∀ a ∈ (s.transmit publication).2, P a := by
  unfold transmit
  split_ifs
  · exact List.forall_mem_singleton.mpr (h.handed _ _)
  · exact List.forall_mem_nil _

theorem sendOutbound_actions (h : OfCalls P) : ∀ a ∈ s.sendOutbound.2, P a := by
  unfold sendOutbound
  split_ifs
  · exact transmit_actions h _
  · exact List.forall_mem_nil _

theorem buildTable_actions (h : OfCalls P) (topics : List (List UInt8 × Nat)) :
    ∀ a ∈ (s.buildTable topics).2.1, P a := by
  induction topics generalizing s with
  | nil => exact List.forall_mem_nil _
  | cons topic topics ih =>
    rw [buildTable, List.forall_mem_append]
    exact ⟨build_actions h _, ih⟩

/-- A call of the Lua program builds messages and hands them over, or fails. -/
theorem operate_actions (h : OfCalls P) (o : Operation) : ∀ a ∈ (s.operate o).2, P a := by
  cases o with
  | publish topic payload qos retain callback =>
    rw [operate, publish]
    split_ifs
    · exact List.forall_mem_nil _
    · exact List.forall_mem_singleton.mpr (h.error _)
    · rw [List.forall_mem_append]
      exact ⟨build_actions h _, transmit_actions h _⟩
  | subscribe topic qos callback =>
    rw [operate, subscribe]
    split_ifs
    · exact List.forall_mem_singleton.mpr (h.error _)
    · exact List.forall_mem_singleton.mpr (h.error _)
    · rw [List.forall_mem_append]
      exact ⟨build_actions h _, transmit_actions h _⟩
  | subscribeTable topics callback =>
    rw [operate, subscribeTable]
    dsimp only
    split_ifs
    · exact List.forall_mem_singleton.mpr (h.error _)
    · exact List.forall_mem_singleton.mpr (h.error _)
    · simp only [List.forall_mem_append, List.forall_mem_singleton]
      exact ⟨⟨buildTable_actions h _, h.wrote _ _⟩, h.error _⟩
    · simp only [List.forall_mem_append, List.forall_mem_singleton]
      exact ⟨⟨buildTable_actions h _, h.wrote _ _⟩, transmit_actions h _⟩
  | on method => exact List.forall_mem_nil _
  | close =>
    rw [operate]
    split_ifs
    · exact List.forall_mem_singleton.mpr h.disconnect
    · exact List.forall_mem_nil _

theorem operateAll_actions (h : OfCalls P) (os : List Operation) : ∀ a ∈ (s.operateAll os).2, P a := by
  induction os generalizing s with
  | nil => exact List.forall_mem_nil _
  | cons o os ih =>
    rw [operateAll, List.forall_mem_append]
    exact ⟨operate_actions h o, ih⟩

/-- A callback is seen before what the program does in it. -/
theorem call_actions (h : OfCalls P) (program : Program) {callback : Callback} (hcallback : P (.callback callback)) :
    ∀ a ∈ (s.call program callback).2, P a := by
  rw [call, List.forall_mem_cons]
  exact ⟨hcallback, operateAll_actions h _⟩

theorem callPuback_actions (h : OfCalls P) (program : Program) (hcallback : ∀ n, P (.callback (.puback n))) :
    ∀ a ∈ (s.callPuback program).2, P a := by
  unfold callPuback
  split
  · split_ifs
    · exact call_actions h program (hcallback _)
    · exact List.forall_mem_nil _
  · exact List.forall_mem_nil _

/-! ### What becomes visible of a message -/

/-- A property of all that the handling of a message can leave behind. -/
structure OfMessages (P : Action → Prop) : Prop extends OfCalls P where
  read : ∀ indices, P (.read indices)
  message : ∀ topic payload, P (.callback (.message topic payload))
  suback : P (.callback .suback)
  puback : ∀ n, P (.callback (.puback n))

variable {program : Program} {signed : Signed}

theorem pushText_actions (h : OfMessages P) (text : Option Nat × Nat) : ∀ a ∈ (s.pushText text).2, P a := by
  rcases text with ⟨_ | i, k⟩
  · exact List.forall_mem_nil _
  · exact List.forall_mem_singleton.mpr (h.read _)

theorem acknowledge_actions (h : OfCalls P) (qos id : Nat) : ∀ a ∈ (s.acknowledge qos id).2, P a := by
  unfold acknowledge
  split_ifs
  · exact build_actions h _
  · exact build_actions h _
  · exact List.forall_mem_nil _

theorem deliverPublish_actions (h : OfMessages P) (length : Nat) :
    ∀ a ∈ (s.deliverPublish program signed length).2, P a := by
  have hread : ∀ {α : Type} (m : Reads UInt8 α), ∀ a ∈ (s.reading m).2, P a :=
    fun m => List.forall_mem_singleton.mpr (h.read _)
  unfold deliverPublish messageArguments
  dsimp only
  split_ifs
  · simp only [List.forall_mem_append]
    exact ⟨⟨⟨hread _, hread _⟩, pushText_actions h _, pushText_actions h _⟩,
      call_actions h.toOfCalls program (h.message _ _)⟩
  · simp only [List.forall_mem_append]
    exact ⟨⟨⟨hread _, hread _⟩, pushText_actions h _⟩, call_actions h.toOfCalls program (h.message _ _)⟩
  · rw [List.forall_mem_append]
    exact ⟨hread _, hread _⟩

/-- The handling of a message leaves behind what its callbacks, its answer and the delivery of a publish do. -/
theorem handle_actions_of (h : OfCalls P) (hsuback : P (.callback .suback)) (hpuback : ∀ n, P (.callback (.puback n)))
    {len : Nat} (hpublish : ∀ s : Client, ∀ a ∈ (s.deliverPublish program signed len).2, P a) (qos id : Nat)
    (type : Option MessageType) : ∀ a ∈ (s.handle program signed len qos id type).2, P a := by
  have hbuild : ∀ c, ∀ a ∈ (s.build c).2, P a := build_actions h
  rcases type with _ | type
  · exact List.forall_mem_nil _
  · cases type with
    | suback =>
      rw [handle]
      split_ifs
      · exact call_actions h program hsuback
      · exact List.forall_mem_nil _
    | publish =>
      rw [handle, List.forall_mem_append]
      exact ⟨acknowledge_actions h qos id, hpublish _⟩
    | puback | pubcomp =>
      rw [handle]
      split_ifs
      · exact callPuback_actions h program hpuback
      · exact List.forall_mem_nil _
    | pubrec | pubrel | pingreq => exact hbuild _
    | _ => exact List.forall_mem_nil _

theorem handle_actions (h : OfMessages P) (len qos id : Nat) (type : Option MessageType) :
    ∀ a ∈ (s.handle program signed len qos id type).2, P a :=
  handle_actions_of h.toOfCalls h.suback h.puback (fun _ => deliverPublish_actions h len) qos id type

theorem packet_actions (h : OfMessages P) (len : Nat) : ∀ a ∈ (s.packet program signed len).2, P a := by
  have hread : ∀ {α : Type} (m : Reads UInt8 α), ∀ a ∈ (s.reading m).2, P a :=
    fun m => List.forall_mem_singleton.mpr (h.read _)
  unfold packet
  simp only [List.forall_mem_append]
  exact ⟨⟨⟨⟨hread _, hread _⟩, hread _⟩, hread _⟩, handle_actions h len _ _ _⟩

/-! ### The loop over the messages -/

variable {fuel offset : Nat} {pdata : List UInt8}

theorem readPacket_sending (h : s.state = .connectSending) :
    s.readPacket program signed (fuel + 1) offset pdata =
      (((s.load pdata).accept program).1, .copied offset pdata.length :: ((s.load pdata).accept program).2) := by
  rw [readPacket]
  dsimp only
  rw [if_neg (by omega), h]

theorem readPacket_idle (h : s.state ≠ .connectSending) (h' : s.state ≠ .data) :
    s.readPacket program signed (fuel + 1) offset pdata = (s.load pdata, [.copied offset pdata.length]) := by
  have hsend : (s.load pdata).sendOutbound = (s.load pdata, []) := if_neg Bool.false_ne_true
  rw [readPacket]
  dsimp only
  rw [if_neg (by omega), hsend]
  cases hstate : s.state with
  | connectSending => exact absurd hstate h
  | data => exact absurd hstate h'
  | _ => rfl

/-- The last message of the data. -/
theorem readPacket_last (h : s.state = .data) (hlast : ¬ (s.load pdata).Another signed pdata.length) :
    s.readPacket program signed (fuel + 1) offset pdata =
      (((s.load pdata).packet program signed pdata.length).1.sendOutbound.1,
        .copied offset pdata.length :: ((s.load pdata).packet program signed pdata.length).2 ++
          ((s.load pdata).packet program signed pdata.length).1.sendOutbound.2) := by
  rw [readPacket]
  dsimp only
  rw [if_neg (by omega), h]
  dsimp only
  rw [if_neg hlast]

/-- A message that is followed by another one. -/
theorem readPacket_another (h : s.state = .data) (hanother : (s.load pdata).Another signed pdata.length) :
    s.readPacket program signed (fuel + 1) offset pdata =
      let handled := (s.load pdata).packet program signed pdata.length
      let next := (s.load pdata).messageLength signed pdata.length
      let rest := handled.1.readPacket program signed fuel (offset + next) (pdata.drop next)
      (rest.1, .copied offset pdata.length :: handled.2 ++ rest.2) := by
  rw [readPacket]
  dsimp only
  rw [if_neg (by omega), h]
  dsimp only
  rw [if_pos hanother]

theorem load_same (s : Client) (pdata : List UInt8) : SameSession s (s.load pdata) :=
  ⟨rfl, rfl, rfl, rfl, rfl, rfl, rfl, rfl, rfl⟩

/-- In state `MQTT_DATA` a receive callback leaves the session alone, but for a loop that never ends. -/
theorem readPacket_data (h : s.state = .data) (hP : OfMessages P) (hcopied : ∀ offset count, P (.copied offset count)) :
    SameSession { s with stuck := (s.readPacket program signed fuel offset pdata).1.stuck }
        (s.readPacket program signed fuel offset pdata).1 ∧
      ∀ a ∈ (s.readPacket program signed fuel offset pdata).2, P a := by
  induction fuel generalizing s offset pdata with
  | zero => exact ⟨⟨rfl, rfl, rfl, rfl, rfl, rfl, rfl, rfl, rfl⟩, List.forall_mem_nil _⟩
  | succ fuel ih =>
    have hsame := (load_same s pdata).trans (packet_same program signed (s.load pdata) pdata.length)
    have hhandled : ∀ a ∈ ((s.load pdata).packet program signed pdata.length).2, P a := packet_actions hP _
    by_cases hanother : (s.load pdata).Another signed pdata.length
    · rw [readPacket_another h hanother]
      obtain ⟨hrest, hactions⟩ := ih (s := ((s.load pdata).packet program signed pdata.length).1) (hsame.state.trans h)
      refine ⟨?_, ?_⟩
      · exact ⟨hrest.espconn.trans hsame.espconn, hrest.selfRef.trans hsame.selfRef,
          hrest.connected.trans hsame.connected, hrest.timer.trans hsame.timer, hrest.state.trans hsame.state,
          hrest.link.trans hsame.link, hrest.info.trans hsame.info, hrest.bufferLength.trans hsame.bufferLength, rfl⟩
      · simp only [List.cons_append, List.forall_mem_cons, List.forall_mem_append]
        exact ⟨hcopied _ _, hhandled, hactions⟩
    · rw [readPacket_last h hanother]
      have hsent := hsame.trans (sendOutbound_same ((s.load pdata).packet program signed pdata.length).1)
      refine ⟨?_, ?_⟩
      · exact ⟨hsent.espconn, hsent.selfRef, hsent.connected, hsent.timer, hsent.state, hsent.link, hsent.info,
          hsent.bufferLength, rfl⟩
      · simp only [List.cons_append, List.forall_mem_cons, List.forall_mem_append]
        exact ⟨hcopied _ _, hhandled, sendOutbound_actions hP.toOfCalls⟩

/-! ### The buffer of a session -/

/-- From the TCP connection on the messages are built in the 1024 bytes of `out_buffer`. -/
def Ready (s : Client) : Prop :=
  s.state = .connectSending ∨ s.state = .data → s.connection.bufferLength = 1024

theorem SameSession.ready (h : SameSession s s') (hs : s.Ready) : s'.Ready := by
  intro hstate
  rw [h.state] at hstate
  exact h.bufferLength.trans (hs hstate)

theorem accept_ready (hs : s.Ready) (hstate : s.state = .connectSending) : (s.accept program).1.Ready := by
  have hbuffer := hs (.inl hstate)
  unfold accept
  dsimp only
  split_ifs
  · intro hinit
    have hsame := sendOutbound_same { s with state := .init }
    rw [hsame.state] at hinit
    rcases hinit with hinit | hinit <;> exact nomatch hinit
  · exact (call_same program _ .connect).ready fun _ => hbuffer
  · exact fun _ => hbuffer

theorem received_ready (hs : s.Ready) (pdata : List UInt8) : (s.received program signed pdata).1.Ready := by
  unfold received
  by_cases hsending : s.state = .connectSending
  · rw [readPacket_sending hsending]
    exact accept_ready hs hsending
  · by_cases hdata : s.state = .data
    · have hsame := (@readPacket_data s (fun _ => True) program signed (pdata.length + 1) 0 pdata hdata
        ⟨⟨fun _ _ => trivial, fun _ _ => trivial, trivial, fun _ => trivial⟩, fun _ => trivial,
          fun _ _ => trivial, trivial, fun _ => trivial⟩ fun _ _ => trivial).1
      exact hsame.ready hs
    · rw [readPacket_idle hsending hdata]
      exact hs

theorem react_ready (hs : s.Ready) (e : Event) : (s.react program signed e).1.Ready := by
  cases e with
  | operation o => exact (operate_same s o).ready hs
  | connect callback memory => cases memory <;> exact hs
  | tcpConnected =>
    rw [react]
    split_ifs
    · intro _
      refine (transmit_same _ _).bufferLength.trans ?_
      exact Connection.mqttMsgConnect_bufferLength _ _
    · exact hs
  | received pdata =>
    rw [react]
    split_ifs
    · exact received_ready hs pdata
    · exact hs
  | sent count =>
    rw [react]
    split_ifs
    · unfold socketSent
      dsimp only
      split_ifs
      · exact hs
      · exact (callPuback_same program _).ready hs
      · exact hs
    · exact hs
  | tick =>
    rw [react]
    split_ifs
    · unfold socketTimer ping
      dsimp only
      split_ifs
      · refine fun hstate => (transmit_same _ _).bufferLength.trans ?_
        refine (Connection.finiMessage_bufferLength _ _ _ _ _).trans (hs (.inr ?_))
        assumption
      · exact hs
      · exact hs
    · exact hs
  | disconnected =>
    rw [react]
    split_ifs
    · unfold socketDisconnected
      dsimp only
      split_ifs
      · exact (call_same program _ .offline).ready hs
      · exact hs
    · exact hs

theorem client_ready (program : Program) (signed : Signed) (s : Client) (e : Event) (hs : s.Ready) :
    ((client program signed).next s e).Ready := by
  unfold Machine.next client
  dsimp only
  split_ifs
  · exact hs
  · exact react_ready hs e

end Client

end EspClock.Mqtt
