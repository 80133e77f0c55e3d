import EspClock.Mqtt.Frame

/-!
# The output buffer while packets are in flight

All messages are built in the one `out_buffer`, and espconn keeps a reference to the bytes of a packet until
the sent event that covers it. The calls of the program wait for `send_timeout`, which runs out on its own;
the answers to received messages, the ping and CONNECT wait for nothing. So the bytes in flight are left
alone exactly as long as whatever stores into the buffer finds nothing in flight.
-/

namespace EspClock.Mqtt

open Mem Client

/-- Nothing is stored into `out_buffer` while packets are in flight. -/
def Action.Intact : Action → Prop
  | .wrote indices inFlight => indices ≠ [] → inFlight = 0
  | _ => True

/-! ### What stores into the buffer -/

/-- A call that gets as far as storing bytes: it is accepted, and its first part fits. -/
def Operation.Stores (s : Client) : Operation → Prop
  | .publish topic _ _ _ _ =>
    s.espconn = true ∧ s.sendTimeout = 0 ∧ cstr topic ≠ [] ∧ (cstr topic).length + 5 ≤ s.connection.bufferLength
  | .subscribe topic _ _ =>
    s.sendTimeout = 0 ∧ s.connected = true ∧ cstr topic ≠ [] ∧ 5 ≤ s.connection.bufferLength
  | .subscribeTable topics _ =>
    s.sendTimeout = 0 ∧ s.connected = true ∧ (∃ topic ∈ topics, cstr topic.1 ≠ []) ∧ 5 ≤ s.connection.bufferLength
  | _ => False

/-- Calls one after the other, of which none stores while packets are in flight. -/
def OperationsWait (s : Client) : List Operation → Prop
  | [] => True
  | o :: os => (o.Stores s → s.inFlight = 0) ∧ OperationsWait (s.operate o).1 os

/-- The calls that the program makes in its next callback. -/
def CallWaits (program : Program) (s : Client) : Prop :=
  OperationsWait { s with called := s.called + 1 } (program s.called)

/-- The messages that are answered. -/
def Answered (qos : Nat) : Option MessageType → Prop
  | some .publish => qos = 1 ∨ qos = 2
  | some .pubrec | some .pubrel | some .pingreq => True
  | _ => False

/-- The callback of a publish, if there is one. -/
def PubackWaits (program : Program) (s : Client) : Prop :=
  s.pubackRef.isSome = true → s.selfRef = true → CallWaits program s

/-- The callback that a message leads to. -/
def MessageCallWaits (program : Program) (s : Client) (qos id : Nat) : Option MessageType → Prop
  | some .suback => s.subackRef = true → s.selfRef = true → CallWaits program s
  | some .publish => s.messageRef = true → s.selfRef = true → CallWaits program (s.acknowledge qos id).1
  | some .puback | some .pubcomp => s.pendingType = some .publish → s.pendingId = id → PubackWaits program s
  | _ => True

/-- A message that is answered comes while nothing is in flight. -/
def MessageWaits (program : Program) (s : Client) : Prop :=
  let type := mqttGetType.value s.inBuffer.cells
  let qos := mqttGetQos.value s.inBuffer.cells
  (Answered qos type → s.inFlight = 0) ∧
    MessageCallWaits program s qos ((mqttGetId 1024).value s.inBuffer.cells) type

/-- The messages of a receive callback one after the other. -/
def DataWaits (program : Program) (signed : Signed) : Nat → Client → List UInt8 → Prop
  | 0, _, _ => True
  | fuel + 1, s, pdata =>
    MessageWaits program (s.load pdata) ∧
      ((s.load pdata).Another signed pdata.length →
        DataWaits program signed fuel ((s.load pdata).packet program signed pdata.length).1
          (pdata.drop ((s.load pdata).messageLength signed pdata.length)))

/-- Whatever stores into `out_buffer` in an event finds nothing in flight: a call of the program, also one in
a callback, the CONNECT message of a new connection, a ping, and the answer to a message. -/
def Waits (program : Program) (signed : Signed) (s : Client) (e : Event) : Prop :=
  s.stuck = false →
    match e with
    | .operation o => o.Stores s → s.inFlight = 0
    | .tcpConnected => s.espconn = true → s.inFlight = 0
    | .received pdata =>
      s.espconn = true → s.link = true →
        (s.state = .data → DataWaits program signed (pdata.length + 1) s pdata) ∧
        (s.state = .connectSending → mqttGetType.value (s.load pdata).inBuffer.cells = some .connack →
          s.connectRef = true → s.selfRef = true → CallWaits program { s.load pdata with state := .data })
    | .sent count =>
      s.espconn = true → 0 < count → count ≤ s.inFlight → s.connected = true → s.pendingType = some .publish →
        s.pendingQos = 0 → PubackWaits program { s with inFlight := s.inFlight - count, sendTimeout := 0 }
    | .tick =>
      s.timer = true → s.state = .data → s.info.keepalive < wrap32 (s.keepAliveTick + 1) → s.inFlight = 0
    | _ => True

/-! ### The builders -/

namespace Connection

variable {c : Connection}

theorem store_written_ne {i : Nat} {bytes : List UInt8} (h : bytes ≠ [] ∨ c.written ≠ []) :
    (c.store i bytes).written ≠ [] := by
  intro hnil
  obtain ⟨hwritten, hindices⟩ := List.append_eq_nil_iff.mp hnil
  rcases h with hbytes | hold
  · rw [List.map_eq_nil_iff, List.range_eq_nil, List.length_eq_zero_iff] at hindices
    exact hbytes hindices
  · exact hold hwritten

theorem finiMessage_written_ne (type : MessageType) (dup qos retain : Nat) :
    (c.finiMessage type dup qos retain).written ≠ [] := by
  unfold finiMessage
  dsimp only
  split_ifs
  · exact store_written_ne (.inl (List.cons_ne_nil _ _))
  · exact store_written_ne (.inl (List.cons_ne_nil _ _))

/-- A part of a message, whether it fails or not, that comes after bytes were stored. -/
def HasWritten : Except Connection Connection → Prop
  | .ok c | .error c => c.written ≠ []

theorem HasWritten.fini {result : Except Connection Connection} (h : HasWritten result) (type : MessageType)
    (dup qos retain : Nat) : (fini type dup qos retain result).written ≠ [] := by
  cases result with
  | ok c => exact finiMessage_written_ne _ _ _ _
  | error c => exact h

theorem HasWritten.bind {result : Except Connection Connection} {f : Connection → Except Connection Connection}
    (h : HasWritten result) (hf : ∀ c, c.written ≠ [] → HasWritten (f c)) : HasWritten (result >>= f) := by
  cases result with
  | ok c => exact hf c h
  | error c => exact h

theorem orFlag_written_ne (flag : Nat) : (c.orFlag flag).written ≠ [] :=
  store_written_ne (.inl (List.cons_ne_nil _ _))

theorem appendString_written (h : c.written ≠ []) (string : List UInt8) : HasWritten (c.appendString string) := by
  unfold appendString
  split_ifs
  · exact h
  · exact store_written_ne (.inr h)

theorem appendData_written (h : c.written ≠ []) (data : List UInt8) : HasWritten (c.appendData data) := by
  unfold appendData
  split_ifs
  · exact h
  · exact store_written_ne (.inr h)

theorem appendOptional_written (h : c.written ≠ []) (string : List UInt8) (flag : Nat) :
    HasWritten (c.appendOptional string flag) := by
  unfold appendOptional
  split_ifs
  · exact h
  · exact (appendString_written h string).bind fun c _ => orFlag_written_ne flag

theorem appendWill_written (h : c.written ≠ []) (info : ConnectInfo) : HasWritten (c.appendWill info) := by
  unfold appendWill
  split_ifs
  · exact h
  · refine (appendString_written h _).bind fun c hc => (appendString_written hc _).bind fun c _ => ?_
    exact orFlag_written_ne _
  · refine (appendString_written h _).bind fun c hc => (appendString_written hc _).bind fun c _ => ?_
    exact orFlag_written_ne _

theorem mqttMsgConnect_written_ne (info : ConnectInfo) (h : 13 ≤ c.bufferLength) :
    (c.mqttMsgConnect info).written ≠ [] := by
  have hrest : ∀ c' : Connection, c'.written ≠ [] → HasWritten (do
      let c ← c'.appendString info.clientId
      let c ← c.appendWill info
      let c ← c.appendOptional info.username 128
      c.appendOptional info.password 64) := by
    intro c' hc
    refine (appendString_written hc _).bind fun c hc => (appendWill_written hc info).bind fun c hc => ?_
    exact (appendOptional_written hc _ _).bind fun c hc => appendOptional_written hc _ _
  have hpush : (c.initMessage.push [0, 4, 77, 81, 84, 84, 4, 0, UInt8.ofNat (info.keepalive / 256),
      UInt8.ofNat info.keepalive]).written ≠ [] := store_written_ne (.inl (List.cons_ne_nil _ _))
  have hroom : ¬ c.initMessage.length + 10 > c.initMessage.bufferLength := by
    change ¬ 3 + 10 > c.bufferLength
    omega
  unfold mqttMsgConnect
  apply HasWritten.fini
  dsimp only
  rw [if_neg hroom]
  split_ifs
  · exact orFlag_written_ne 2
  · exact hpush
  · exact hrest _ (orFlag_written_ne 2)
  · exact hrest _ hpush

/-- An identifier is stored where it fits. -/
theorem appendMessageId_written (hc : c.length + 2 ≤ c.bufferLength) (messageId : Nat) :
    ∃ assigned, c.appendMessageId messageId = .ok assigned ∧ assigned.1.written ≠ [] := by
  unfold appendMessageId assignId
  split_ifs with hzero
  · dsimp only
    rw [if_neg (by omega)]
    exact ⟨_, rfl, store_written_ne (.inl (List.cons_ne_nil _ _))⟩
  · dsimp only
    rw [if_neg (by omega)]
    exact ⟨_, rfl, store_written_ne (.inl (List.cons_ne_nil _ _))⟩

/-- Without room for an identifier nothing is stored for it. -/
theorem appendMessageId_full (hc : c.bufferLength < c.length + 2) (messageId : Nat) :
    ∃ c', c.appendMessageId messageId = .error c' ∧ c'.written = c.written := by
  unfold appendMessageId assignId
  split_ifs with hzero
  · dsimp only
    rw [if_pos (by omega)]
    exact ⟨_, rfl, rfl⟩
  · dsimp only
    rw [if_pos (by omega)]
    exact ⟨_, rfl, rfl⟩

theorem mqttMsgId_written_ne (type : MessageType) (qos messageId : Nat) (h : 5 ≤ c.bufferLength) :
    (c.mqttMsgId type qos messageId).written ≠ [] := by
  obtain ⟨assigned, hassigned, hwritten⟩ := @appendMessageId_written c.initMessage h messageId
  have hresult : HasWritten (.ok assigned.1) := hwritten
  unfold mqttMsgId
  rw [hassigned]
  exact hresult.fini type 0 qos 0

theorem mqttMsgSubscribe_written_ne_iff (topic : List UInt8) (qos messageId : Nat) :
    (c.mqttMsgSubscribe topic qos messageId).1.written ≠ [] ↔ topic ≠ [] ∧ 5 ≤ c.bufferLength := by
  unfold mqttMsgSubscribe
  dsimp only
  by_cases htopic : topic = []
  · rw [if_pos htopic]
    exact iff_of_false (fun h => h rfl) fun h => h.1 htopic
  · rw [if_neg htopic]
    by_cases hroom : 5 ≤ c.bufferLength
    · obtain ⟨assigned, hassigned, hwritten⟩ := @appendMessageId_written c.initMessage hroom 0
      rw [hassigned]
      refine iff_of_true (HasWritten.fini ?_ _ _ _ _) ⟨htopic, hroom⟩
      exact (appendString_written hwritten topic).bind fun c hc => appendData_written hc _
    · obtain ⟨c', hfull, hwritten⟩ := @appendMessageId_full c.initMessage (Nat.lt_of_not_le hroom) 0
      rw [hfull]
      exact iff_of_false (fun h => h hwritten) fun h => hroom h.2

theorem mqttMsgPublish_written_ne_iff (topic data : List UInt8) (qos retain messageId : Nat) :
    (c.mqttMsgPublish topic data qos retain messageId).1.written ≠ [] ↔
      topic ≠ [] ∧ topic.length + 5 ≤ c.bufferLength := by
  unfold mqttMsgPublish
  dsimp only
  by_cases htopic : topic = []
  · rw [if_pos htopic]
    exact iff_of_false (fun h => h rfl) fun h => h.1 htopic
  · rw [if_neg htopic]
    by_cases hroom : topic.length + 5 ≤ c.bufferLength
    · have happend : c.initMessage.appendString topic = .ok _ :=
        if_neg (show ¬ 3 + topic.length + 2 > c.bufferLength by omega)
      have hwritten : (c.initMessage.push (UInt8.ofNat (topic.length / 256) :: UInt8.ofNat topic.length :: topic)).written
          ≠ [] := store_written_ne (.inl (List.cons_ne_nil _ _))
      rw [happend]
      dsimp only
      refine iff_of_true ?_ ⟨htopic, hroom⟩
      split_ifs
      · generalize hc' : c.initMessage.push _ = c' at hwritten ⊢
        by_cases hid : c'.length + 2 ≤ c'.bufferLength
        · obtain ⟨assigned, hassigned, hassignedWritten⟩ := appendMessageId_written hid 0
          rw [hassigned]
          exact (appendData_written hassignedWritten data).fini _ _ _ _
        · obtain ⟨c'', hfull, hfullWritten⟩ := appendMessageId_full (Nat.lt_of_not_le hid) 0
          rw [hfull]
          exact fun h => hwritten (hfullWritten.symm.trans h)
      · exact (appendData_written hwritten data).fini _ _ _ _
    · have happend : c.initMessage.appendString topic = .error c.initMessage :=
        if_pos (show 3 + topic.length + 2 > c.bufferLength by omega)
      rw [happend]
      exact iff_of_false (fun h => h rfl) fun h => hroom h.2

end Connection

/-! ### Calls -/

variable {s : Client}

theorem build_intact_iff (c : Connection) :
    (∀ a ∈ (s.build c).2, a.Intact) ↔ (c.written ≠ [] → s.inFlight = 0) := List.forall_mem_singleton

theorem transmit_intact (publication : Option Publication) : ∀ a ∈ (s.transmit publication).2, a.Intact := by
  unfold transmit
  split_ifs
  · exact List.forall_mem_singleton.mpr trivial
  · exact List.forall_mem_nil _

theorem buildSubscribe_intact_iff (topic : List UInt8) (qos : Nat) :
    (∀ a ∈ (s.buildSubscribe topic qos).2, a.Intact) ↔
      (cstr topic ≠ [] ∧ 5 ≤ s.connection.bufferLength → s.inFlight = 0) := by
  unfold buildSubscribe
  rw [build_intact_iff, Connection.mqttMsgSubscribe_written_ne_iff]

theorem buildTable_inFlight (topics : List (List UInt8 × Nat)) : (s.buildTable topics).1.inFlight = s.inFlight := by
  induction topics generalizing s with
  | nil => rfl
  | cons topic topics ih => exact ih

theorem buildTable_intact_iff (topics : List (List UInt8 × Nat)) :
    (∀ a ∈ (s.buildTable topics).2.1, a.Intact) ↔
      ((∃ topic ∈ topics, cstr topic.1 ≠ []) ∧ 5 ≤ s.connection.bufferLength → s.inFlight = 0) := by
  induction topics generalizing s with
  | nil => exact iff_of_true (List.forall_mem_nil _) fun h => absurd h.1 (by simp)
  | cons topic topics ih =>
    have hsame := buildSubscribe_same s topic.1 topic.2
    have hinFlight : (s.buildSubscribe topic.1 topic.2).1.inFlight = s.inFlight := rfl
    rw [buildTable, List.forall_mem_append, buildSubscribe_intact_iff, ih, hsame.bufferLength, hinFlight]
    constructor
    · rintro ⟨hfirst, hrest⟩ ⟨⟨t, ht, hne⟩, hroom⟩
      rcases List.mem_cons.mp ht with rfl | ht
      · exact hfirst ⟨hne, hroom⟩
      · exact hrest ⟨⟨t, ht, hne⟩, hroom⟩
    · intro h
      refine ⟨fun hfirst => h ⟨⟨topic, List.mem_cons_self, hfirst.1⟩, hfirst.2⟩, ?_⟩
      rintro ⟨⟨t, ht, hne⟩, hroom⟩
      exact h ⟨⟨t, List.mem_cons_of_mem _ ht, hne⟩, hroom⟩

/-- A message without a topic, or without room, is empty. -/
theorem message_of_failed (topic : List UInt8) (qos : Nat) (h : ¬ (cstr topic ≠ [] ∧ 5 ≤ s.connection.bufferLength)) :
    (s.buildSubscribe topic qos).1.connection.message = [] := by
  change (s.connection.mqttMsgSubscribe (cstr topic) (qos % 256) s.pendingId).1.message = []
  have hfail : ∀ c : Connection, c.failMessage.message = [] := fun c => List.take_zero
  unfold Connection.mqttMsgSubscribe
  dsimp only
  by_cases htopic : cstr topic = []
  · rw [if_pos htopic]
    exact hfail _
  · have hroom : ¬ 5 ≤ s.connection.bufferLength := fun hroom => h ⟨htopic, hroom⟩
    obtain ⟨c', hfull, -⟩ := @Connection.appendMessageId_full s.connection.initMessage (Nat.lt_of_not_le hroom) 0
    rw [if_neg htopic, hfull]
    exact hfail _

theorem buildTable_messages (topics : List (List UInt8 × Nat))
    (h : ¬ ((∃ topic ∈ topics, cstr topic.1 ≠ []) ∧ 5 ≤ s.connection.bufferLength)) :
    ∀ message ∈ (s.buildTable topics).2.2, message = [] := by
  induction topics generalizing s with
  | nil => exact List.forall_mem_nil _
  | cons topic topics ih =>
    have hsame := buildSubscribe_same s topic.1 topic.2
    rw [buildTable, List.forall_mem_cons]
    constructor
    · apply message_of_failed
      exact fun hfirst => h ⟨⟨topic, List.mem_cons_self, hfirst.1⟩, hfirst.2⟩
    · apply ih
      rw [hsame.bufferLength]
      rintro ⟨⟨t, ht, hne⟩, hroom⟩
      exact h ⟨⟨t, List.mem_cons_of_mem _ ht, hne⟩, hroom⟩

theorem copyBack_written (c : Connection) (ptr : Nat) (messages : List (List UInt8))
    (h : ∀ message ∈ messages, message = []) : (copyBack c ptr messages).1.written = c.written := by
  induction messages generalizing c ptr with
  | nil => rfl
  | cons message messages ih =>
    obtain ⟨rfl, hrest⟩ := List.forall_mem_cons.mp h
    rw [copyBack]
    split_ifs
    · rw [ih _ _ hrest]
      exact List.append_nil _
    · exact ih _ _ hrest

theorem subscribeTable_intact_iff (topics : List (List UInt8 × Nat)) (callback : Bool) :
    (∀ a ∈ (s.subscribeTable topics callback).2, a.Intact) ↔
      ((Operation.subscribeTable topics callback).Stores s → s.inFlight = 0) := by
  unfold subscribeTable
  dsimp only
  by_cases htimeout : s.sendTimeout ≠ 0
  · rw [if_pos htimeout]
    exact iff_of_true (List.forall_mem_singleton.mpr trivial) fun h => absurd h.1 htimeout
  · rw [if_neg htimeout]
    cases hconnected : s.connected with
    | false =>
      exact iff_of_true (List.forall_mem_singleton.mpr trivial) fun h => by cases hconnected.symm.trans h.2.1
    | true =>
      have hstores : (Operation.subscribeTable topics callback).Stores s ↔
          (∃ topic ∈ topics, cstr topic.1 ≠ []) ∧ 5 ≤ s.connection.bufferLength :=
        ⟨fun h => h.2.2, fun h => ⟨not_not.mp htimeout, hconnected, h⟩⟩
      -- The copies are stored as well, but only where one of the messages was.
      have hcopied : ((∃ topic ∈ topics, cstr topic.1 ≠ []) ∧ 5 ≤ s.connection.bufferLength → s.inFlight = 0) →
          (Action.wrote (copyBack { (s.buildTable topics).1.connection with written := [] } 0
            (s.buildTable topics).2.2).1.written (s.buildTable topics).1.inFlight).Intact := by
        intro h hwritten
        rw [buildTable_inFlight]
        apply h
        by_contra hfailed
        exact hwritten (copyBack_written _ _ _ (buildTable_messages topics hfailed))
      rw [hstores, if_neg (by decide)]
      split_ifs
      · simp only [List.forall_mem_append, List.forall_mem_singleton, buildTable_intact_iff]
        exact ⟨fun h => h.1.1, fun h => ⟨⟨h, hcopied h⟩, trivial⟩⟩
      · simp only [List.forall_mem_append, List.forall_mem_singleton, buildTable_intact_iff]
        exact ⟨fun h => h.1.1, fun h => ⟨⟨h, hcopied h⟩, transmit_intact none⟩⟩

theorem operate_intact_iff (o : Operation) :
    (∀ a ∈ (s.operate o).2, a.Intact) ↔ (o.Stores s → s.inFlight = 0) := by
  cases o with
  | publish topic payload qos retain callback =>
    rw [operate, Client.publish]
    cases hconn : s.espconn with
    | false =>
      exact iff_of_true (List.forall_mem_nil _) fun h => by cases hconn.symm.trans h.1
    | true =>
      rw [if_neg (by decide)]
      split_ifs with htimeout
      · exact iff_of_true (List.forall_mem_singleton.mpr trivial) fun h => absurd h.2.1 htimeout
      · rw [List.forall_mem_append, build_intact_iff, Connection.mqttMsgPublish_written_ne_iff]
        constructor
        · exact fun h hstores => h.1 hstores.2.2
        · exact fun h => ⟨fun hfits => h ⟨hconn, not_not.mp htimeout, hfits⟩, transmit_intact _⟩
  | subscribe topic qos callback =>
    rw [operate, Client.subscribe]
    split_ifs with htimeout hconnected
    · exact iff_of_true (List.forall_mem_singleton.mpr trivial) fun h => absurd h.1 htimeout
    · refine iff_of_true (List.forall_mem_singleton.mpr trivial) fun h => ?_
      rw [h.2.1] at hconnected
      cases hconnected
    · rw [List.forall_mem_append, buildSubscribe_intact_iff]
      constructor
      · exact fun h hstores => h.1 hstores.2.2
      · intro h
        have hconnected' : s.connected = true := by simpa using hconnected
        exact ⟨fun hfits => h ⟨not_not.mp htimeout, hconnected', hfits⟩, transmit_intact none⟩
  | subscribeTable topics callback => exact subscribeTable_intact_iff topics callback
  | on method => exact iff_of_true (List.forall_mem_nil _) fun h => h.elim
  | close =>
    refine iff_of_true ?_ fun h => h.elim
    rw [operate]
    split_ifs
    · exact List.forall_mem_singleton.mpr trivial
    · exact List.forall_mem_nil _

theorem operateAll_intact_iff (os : List Operation) :
    (∀ a ∈ (s.operateAll os).2, a.Intact) ↔ OperationsWait s os := by
  induction os generalizing s with
  | nil => exact iff_of_true (List.forall_mem_nil _) trivial
  | cons o os ih =>
    rw [operateAll, List.forall_mem_append, operate_intact_iff, ih]
    rfl

variable {program : Program} {signed : Signed}

theorem call_intact_iff (callback : Callback) :
    (∀ a ∈ (s.call program callback).2, a.Intact) ↔ CallWaits program s := by
  rw [call, List.forall_mem_cons, operateAll_intact_iff]
  exact and_iff_right trivial

theorem callPuback_intact_iff : (∀ a ∈ (s.callPuback program).2, a.Intact) ↔ PubackWaits program s := by
  unfold callPuback PubackWaits
  cases s.pubackRef with
  | none => exact iff_of_true (List.forall_mem_nil _) fun h => by cases h
  | some n =>
    rw [forall_prop_of_true (show (some n).isSome = true from rfl)]
    dsimp only
    split_ifs with hself
    · rw [call_intact_iff]
      exact ⟨fun h _ => h, fun h => h hself⟩
    · exact iff_of_true (List.forall_mem_nil _) fun h => absurd h hself

/-! ### Messages -/

theorem sendOutbound_intact : ∀ a ∈ s.sendOutbound.2, a.Intact := by
  unfold sendOutbound
  split_ifs
  · exact transmit_intact none
  · exact List.forall_mem_nil _

theorem reading_intact {α : Type} (m : Reads UInt8 α) : ∀ a ∈ (s.reading m).2, a.Intact :=
  List.forall_mem_singleton.mpr trivial

theorem messageArguments_intact (topic data : Option Nat × Nat) :
    ∀ a ∈ (s.messageArguments topic data).2, a.Intact := by
  have hpush : ∀ text : Option Nat × Nat, ∀ a ∈ (s.pushText text).2, a.Intact := by
    rintro ⟨_ | i, k⟩
    · exact List.forall_mem_nil _
    · exact List.forall_mem_singleton.mpr trivial
  unfold messageArguments
  dsimp only
  split_ifs
  · exact List.forall_mem_append.mpr ⟨hpush _, hpush _⟩
  · exact hpush _

theorem deliverPublish_intact_iff (length : Nat) :
    (∀ a ∈ (s.deliverPublish program signed length).2, a.Intact) ↔
      (s.messageRef = true → s.selfRef = true → CallWaits program s) := by
  unfold deliverPublish
  dsimp only
  split_ifs with hrefs
  · simp only [List.forall_mem_append, call_intact_iff]
    constructor
    · exact fun h _ _ => h.2
    · exact fun h => ⟨⟨⟨reading_intact _, reading_intact _⟩, messageArguments_intact _ _⟩, h hrefs.1 hrefs.2⟩
  · refine iff_of_true ?_ fun h h' => absurd ⟨h, h'⟩ hrefs
    exact List.forall_mem_append.mpr ⟨reading_intact _, reading_intact _⟩

theorem acknowledge_intact_iff (qos id : Nat) (hbuffer : s.connection.bufferLength = 1024) :
    (∀ a ∈ (s.acknowledge qos id).2, a.Intact) ↔ (qos = 1 ∨ qos = 2 → s.inFlight = 0) := by
  have hwritten : ∀ type q, (s.connection.mqttMsgId type q id).written ≠ [] := fun type q =>
    Connection.mqttMsgId_written_ne type q id (by omega)
  unfold acknowledge
  split_ifs with hone htwo
  · rw [build_intact_iff]
    exact ⟨fun h _ => h (hwritten _ _), fun h _ => h (.inl hone)⟩
  · rw [build_intact_iff]
    exact ⟨fun h _ => h (hwritten _ _), fun h _ => h (.inr htwo)⟩
  · exact iff_of_true (List.forall_mem_nil _) fun h => (h.elim hone htwo).elim

theorem handle_intact_iff (len qos id : Nat) (type : Option MessageType) (hbuffer : s.connection.bufferLength = 1024) :
    (∀ a ∈ (s.handle program signed len qos id type).2, a.Intact) ↔
      (Answered qos type → s.inFlight = 0) ∧ MessageCallWaits program s qos id type := by
  have hnone : ∀ {p q : Prop}, ¬ p → q → ((∀ a ∈ ([] : List Action), a.Intact) ↔ (p → s.inFlight = 0) ∧ q) :=
    fun hp hq => iff_of_true (List.forall_mem_nil _) ⟨fun h => absurd h hp, hq⟩
  have hbuild : ∀ c : Connection, c.written ≠ [] →
      ((∀ a ∈ (s.build c).2, a.Intact) ↔ (True → s.inFlight = 0) ∧ True) := by
    intro c hc
    rw [build_intact_iff, forall_prop_of_true hc, forall_prop_of_true trivial, and_true]
  rcases type with _ | type
  · exact hnone not_false trivial
  · cases type with
    | suback =>
      rw [handle]
      split_ifs with hrefs
      · rw [call_intact_iff]
        exact ⟨fun h => ⟨fun h' => h'.elim, fun _ _ => h⟩, fun h => h.2 hrefs.1 hrefs.2⟩
      · exact hnone not_false fun h h' => absurd ⟨h, h'⟩ hrefs
    | publish =>
      obtain ⟨hmessageRef, hselfRef⟩ := @acknowledge_refs s qos id
      rw [handle, List.forall_mem_append, acknowledge_intact_iff qos id hbuffer, deliverPublish_intact_iff,
        hmessageRef, hselfRef]
      rfl
    | puback | pubcomp =>
      rw [handle]
      split_ifs with hpending
      · rw [callPuback_intact_iff]
        exact ⟨fun h => ⟨fun h' => h'.elim, fun _ _ => h⟩, fun h => h.2 hpending.1 hpending.2⟩
      · exact hnone not_false fun h h' => absurd ⟨h, h'⟩ hpending
    | pubrec | pubrel => exact hbuild _ (Connection.mqttMsgId_written_ne _ _ _ (by omega))
    | pingreq => exact hbuild _ (Connection.finiMessage_written_ne _ _ _ _)
    | _ => exact hnone not_false trivial

theorem packet_intact_iff (len : Nat) (hbuffer : s.connection.bufferLength = 1024) :
    (∀ a ∈ (s.packet program signed len).2, a.Intact) ↔ MessageWaits program s := by
  unfold packet
  simp only [List.forall_mem_append]
  rw [handle_intact_iff _ _ _ _ hbuffer]
  refine ⟨fun h => h.2, fun h => ⟨⟨⟨⟨?_, ?_⟩, ?_⟩, ?_⟩, h⟩⟩ <;> exact reading_intact _

theorem readPacket_intact_iff (fuel offset : Nat) (pdata : List UInt8) (hdata : s.state = .data)
    (hbuffer : s.connection.bufferLength = 1024) :
    (∀ a ∈ (s.readPacket program signed fuel offset pdata).2, a.Intact) ↔ DataWaits program signed fuel s pdata := by
  induction fuel generalizing s offset pdata with
  | zero => exact iff_of_true (List.forall_mem_nil _) trivial
  | succ fuel ih =>
    have hsame := packet_same program signed (s.load pdata) pdata.length
    have hpacket := @packet_intact_iff (s.load pdata) program signed pdata.length hbuffer
    rw [DataWaits]
    by_cases hanother : (s.load pdata).Another signed pdata.length
    · have hrest := @ih ((s.load pdata).packet program signed pdata.length).1
        (offset + (s.load pdata).messageLength signed pdata.length)
        (pdata.drop ((s.load pdata).messageLength signed pdata.length)) (hsame.state.trans hdata)
        (hsame.bufferLength.trans hbuffer)
      rw [readPacket_another hdata hanother]
      simp only [List.cons_append, List.forall_mem_cons, List.forall_mem_append]
      rw [hpacket, hrest, forall_prop_of_true hanother]
      exact and_iff_right trivial
    · rw [readPacket_last hdata hanother]
      simp only [List.cons_append, List.forall_mem_cons, List.forall_mem_append]
      rw [hpacket]
      exact ⟨fun h => ⟨h.2.1, fun h' => absurd h' hanother⟩, fun h => ⟨trivial, h.1, sendOutbound_intact⟩⟩

theorem accept_intact_iff :
    (∀ a ∈ (s.accept program).2, a.Intact) ↔
      (mqttGetType.value s.inBuffer.cells = some .connack → s.connectRef = true → s.selfRef = true →
        CallWaits program { s with state := .data }) := by
  unfold accept Client.reading
  dsimp only
  split_ifs with htype hrefs
  · refine iff_of_true ?_ fun h => absurd h htype
    rw [List.singleton_append, List.forall_mem_cons, List.forall_mem_cons]
    exact ⟨trivial, trivial, sendOutbound_intact⟩
  · rw [List.singleton_append, List.forall_mem_cons, call_intact_iff]
    exact ⟨fun h _ _ _ => h.2, fun h => ⟨trivial, h (not_not.mp htype) hrefs.1 hrefs.2⟩⟩
  · exact iff_of_true (List.forall_mem_singleton.mpr trivial) fun _ h h' => absurd ⟨h, h'⟩ hrefs

theorem received_intact_iff (pdata : List UInt8) (hready : s.Ready) :
    (∀ a ∈ (s.received program signed pdata).2, a.Intact) ↔
      (s.state = .data → DataWaits program signed (pdata.length + 1) s pdata) ∧
        (s.state = .connectSending → mqttGetType.value (s.load pdata).inBuffer.cells = some .connack →
          s.connectRef = true → s.selfRef = true → CallWaits program { s.load pdata with state := .data }) := by
  unfold received
  by_cases hsending : s.state = .connectSending
  · have hdata : s.state ≠ .data := fun h => by cases hsending.symm.trans h
    rw [readPacket_sending hsending, List.forall_mem_cons, accept_intact_iff]
    exact ⟨fun h => ⟨fun h' => absurd h' hdata, fun _ => h.2⟩, fun h => ⟨trivial, h.2 hsending⟩⟩
  · by_cases hdata : s.state = .data
    · rw [readPacket_intact_iff _ _ _ hdata (hready (.inr hdata))]
      exact ⟨fun h => ⟨fun _ => h, fun h' => absurd h' hsending⟩, fun h => h.1 hdata⟩
    · rw [readPacket_idle hsending hdata]
      exact iff_of_true (List.forall_mem_singleton.mpr trivial)
        ⟨fun h => absurd h hdata, fun h => absurd h hsending⟩

/-! ### Events -/

theorem transmit_offline (publication : Option Publication) (hlink : s.link = false) :
    (s.transmit publication).1.inFlight = s.inFlight := by
  unfold transmit
  rw [if_neg fun h => Bool.false_ne_true (hlink.symm.trans h.2.1)]

/-- Without a connection no packet gets in flight. -/
theorem operate_offline (o : Operation) (hlink : s.link = false) : (s.operate o).1.inFlight = s.inFlight := by
  cases o with
  | publish topic payload qos retain callback =>
    rw [operate, Client.publish]
    split_ifs
    · rfl
    · rfl
    · refine transmit_offline _ ?_
      exact hlink
  | subscribe topic qos callback =>
    rw [operate, Client.subscribe]
    split_ifs
    · rfl
    · rfl
    · refine transmit_offline _ ?_
      exact hlink
  | subscribeTable topics callback =>
    rw [operate, Client.subscribeTable]
    dsimp only
    split_ifs
    · rfl
    · rfl
    · exact buildTable_inFlight topics
    · refine (transmit_offline _ ?_).trans (buildTable_inFlight topics)
      exact (buildTable_same s topics).link.trans hlink
  | on method => cases method <;> rfl
  | close => rfl

theorem operationsWait_offline (os : List Operation) (hlink : s.link = false) (hinFlight : s.inFlight = 0) :
    OperationsWait s os := by
  induction os generalizing s with
  | nil => trivial
  | cons o os ih =>
    refine ⟨fun _ => hinFlight, ih ((operate_same s o).link.trans hlink) ?_⟩
    exact (operate_offline o hlink).trans hinFlight

theorem socketTimer_intact_iff :
    (∀ a ∈ s.socketTimer.2, a.Intact) ↔
      (s.state = .data → s.info.keepalive < wrap32 (s.keepAliveTick + 1) → s.inFlight = 0) := by
  unfold socketTimer ping
  dsimp only
  split_ifs with hdata hping
  · rw [List.forall_mem_append, build_intact_iff]
    constructor
    · exact fun h _ _ => h.1 (Connection.finiMessage_written_ne _ _ _ _)
    · exact fun h => ⟨fun _ => h hdata hping, transmit_intact none⟩
  · exact iff_of_true (List.forall_mem_nil _) fun _ h => absurd h hping
  · exact iff_of_true (List.forall_mem_nil _) fun h => absurd h hdata

theorem socketSent_intact_iff (count : Nat) :
    (∀ a ∈ (s.socketSent program count).2, a.Intact) ↔
      (s.connected = true → s.pendingType = some .publish → s.pendingQos = 0 →
        PubackWaits program { s with inFlight := s.inFlight - count, sendTimeout := 0 }) := by
  unfold socketSent
  dsimp only
  split_ifs with hconnected hpending
  · refine iff_of_true (List.forall_mem_nil _) fun h => ?_
    rw [h] at hconnected
    cases hconnected
  · rw [callPuback_intact_iff]
    exact ⟨fun h _ _ _ => h, fun h => h (by simpa using hconnected) hpending.1 hpending.2⟩
  · exact iff_of_true (List.forall_mem_nil _) fun _ h h' => absurd ⟨h, h'⟩ hpending

theorem socketDisconnected_intact : ∀ a ∈ (s.socketDisconnected program).2, a.Intact := by
  unfold socketDisconnected
  dsimp only
  split_ifs
  · rw [call_intact_iff]
    exact operationsWait_offline _ rfl rfl
  · exact List.forall_mem_nil _

/-- An event leaves the bytes in flight alone exactly if it waits for them. -/
theorem react_intact_iff (e : Event) (hready : s.Ready) (hstuck : s.stuck = false) :
    (∀ a ∈ (s.react program signed e).2, a.Intact) ↔ Waits program signed s e := by
  unfold Waits
  rw [forall_prop_of_true hstuck]
  cases e with
  | operation o => exact operate_intact_iff o
  | connect callback memory =>
    refine iff_of_true ?_ trivial
    cases memory with
    | both => exact List.forall_mem_nil _
    | none | espconn => exact List.forall_mem_singleton.mpr trivial
  | tcpConnected =>
    rw [react]
    split_ifs with hconn
    · have hwritten : ((s.connection.init 1024).mqttMsgConnect s.info).written ≠ [] :=
        Connection.mqttMsgConnect_written_ne _ (show 13 ≤ 1024 by decide)
      rw [socketConnected, List.forall_mem_append, build_intact_iff]
      exact ⟨fun h _ => h.1 hwritten, fun h => ⟨fun _ => h hconn, transmit_intact none⟩⟩
    · exact iff_of_true (List.forall_mem_nil _) fun h => absurd h hconn
  | received pdata =>
    rw [react]
    split_ifs with hconn
    · rw [received_intact_iff pdata hready]
      exact ⟨fun h _ _ => h, fun h => h hconn.1 hconn.2⟩
    · exact iff_of_true (List.forall_mem_nil _) fun h h' => absurd ⟨h, h'⟩ hconn
  | sent count =>
    rw [react]
    split_ifs with hcount
    · rw [socketSent_intact_iff]
      exact ⟨fun h _ _ _ => h, fun h => h hcount.1 hcount.2.1 hcount.2.2⟩
    · exact iff_of_true (List.forall_mem_nil _) fun h h' h'' => absurd ⟨h, h', h''⟩ hcount
  | tick =>
    rw [react]
    split_ifs with htimer
    · rw [socketTimer_intact_iff]
      exact ⟨fun h _ => h, fun h => h htimer⟩
    · exact iff_of_true (List.forall_mem_nil _) fun h => absurd h htimer
  | disconnected =>
    refine iff_of_true ?_ trivial
    rw [react]
    split_ifs
    · exact socketDisconnected_intact
    · exact List.forall_mem_nil _

theorem client_intact_iff (s : Client) (e : Event) (hready : s.Ready) :
    (∀ a ∈ (client program signed).actions s e, a.Intact) ↔ Waits program signed s e := by
  unfold Machine.actions client
  dsimp only
  cases hstuck : s.stuck with
  | true => exact iff_of_true (List.forall_mem_nil _) fun h => by cases hstuck.symm.trans h
  | false =>
    rw [if_neg (by decide)]
    exact react_intact_iff e hready hstuck

/-- For a client, whatever its program does, and any sequence of calls, received data, ticks, sent events and
events of its connections: nothing is stored into `out_buffer` while a packet is in flight exactly if
everything that stores into it finds nothing in flight. -/
theorem out_buffer_intact_iff (program : Program) (signed : Signed) (info : ConnectInfo) (connected : Bool)
    (events : List Event) :
    (∀ a ∈ (client program signed).trace (.new info connected) events, a.Intact) ↔
      (client program signed).Along (Waits program signed) (.new info connected) events := by
  rw [Machine.forall_trace_iff]
  apply Machine.along_iff_of_step (client_ready program signed) client_intact_iff
  exact fun h => by rcases h with h | h <;> cases h

/-- A connection up to a publish whose packet is in flight. -/
def published : List Event :=
  [.connect false .both, .tcpConnected, .received [0x20, 2, 0, 0], .sent 1, .operation (.publish [116] [120] 0 0 none)]

/-- A QoS 1 message arrives right after a publish: its PUBACK is built over the packet in flight. -/
theorem answer_over_publish :
    ¬ ∀ (program : Program) (signed : Signed) (info : ConnectInfo) (connected : Bool) (events : List Event),
      ∀ a ∈ (client program signed).trace (.new info connected) events, a.Intact := by
  intro hall
  have htrace := hall (fun _ => []) ⟨fun totlen b n => totlen + b * 2 ^ n, fun _ _ _ _ _ => rfl⟩
    ⟨[99], [], [], [], [], 60, 0, false, true⟩ false (published ++ [.received [0x32, 6, 0, 1, 116, 0, 9, 120]])
  rw [Machine.trace_append, List.forall_mem_append] at htrace
  have hlast := htrace.2
  rw [Machine.trace_cons, List.forall_mem_append, client_intact_iff _ _ fun _ => rfl] at hlast
  have hwaits := ((hlast.1 rfl rfl rfl).1 rfl).1.1
  exact absurd (hwaits (.inl rfl)) (by decide)

end EspClock.Mqtt
