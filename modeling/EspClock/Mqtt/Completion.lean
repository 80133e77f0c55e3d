import EspClock.Mqtt.Answers
import EspClock.Mqtt.Builder

/-!
# Completion of publishes

The client has one record of what is pending and one reference for the callback of a publish. Publishes,
subscriptions and pings write the record, and nothing clears it. A ledger beside the client knows which
packets are in flight and which publishes wait for their acknowledgement, and so which callback is due; the
record agrees with it as long as one publish is finished before anything else is begun that writes the record.
-/

namespace EspClock.Mqtt

open Mem Client

/-! ### What happens in a session -/

/-- An acknowledgement, in a receive callback of its own. A SUBACK packet has a return code for each topic; the
answer to a ping has no body. -/
structure Acknowledgement where
  type : MessageType
  id : Nat
  codes : List UInt8
  type_mem : type ∈ [.puback, .pubrec, .pubcomp, .suback, .pingresp]
  id_lt : id < 65536
  codes_nil : type ≠ .suback → codes = []
  codes_le : codes.length ≤ 1019

namespace Acknowledgement

def body (a : Acknowledgement) : List UInt8 := if a.type = .pingresp then [] else word a.id ++ a.codes

theorem length_body (a : Acknowledgement) :
    a.body.length = if a.type = .pingresp then 0 else 2 + a.codes.length := by
  unfold body
  split_ifs
  · rfl
  · rw [List.length_append, length_word]

theorem length_body_le (a : Acknowledgement) : a.body.length ≤ 1021 := by
  have hcodes := a.codes_le
  rw [length_body]
  split_ifs <;> omega

def packet (a : Acknowledgement) : Control where
  type := a.type
  flags := 0
  continued := if a.body.length < 128 then 0 else 1
  body := a.body
  type_ne h := absurd (h ▸ a.type_mem) (by decide)
  flags_lt := Control.zero_flags_lt
  continued_lt := by split_ifs <;> decide
  body_lt := by
    have hbody := a.length_body_le
    split_ifs with hshort
    · exact hshort
    · omega
  identified h := by
    rw [length_body, if_neg fun htype => h (by rw [htype]; decide)]
    exact Nat.le_add_right _ _

theorem length_packet_le (a : Acknowledgement) : a.packet.bytes.length ≤ 1024 := by
  have hbody := a.length_body_le
  rw [Control.length_bytes]
  show (if a.body.length < 128 then 0 else 1) + 2 + a.body.length ≤ 1024
  split_ifs <;> omega

/-- The publishes that it completes. -/
def Completes (a : Acknowledgement) (p : Publication) : Prop :=
  p.id = a.id ∧ (a.type = .puback ∧ p.qos = 1 ∨ a.type = .pubcomp ∧ p.qos = 2)

instance (a : Acknowledgement) (p : Publication) : Decidable (a.Completes p) := inferInstanceAs (Decidable (_ ∧ _))

/-- The client finds the identifier of the acknowledgements of a publish. -/
theorem id_value (a : Acknowledgement) (htype : a.type ∈ [.puback, .pubrec, .pubcomp]) :
    (mqttGetId 1024).value a.packet.bytes = a.id := by
  have hcodes : a.codes = [] := a.codes_nil fun h => absurd (h ▸ htype) (by decide)
  have hbody : a.body = word a.id := by
    rw [body, if_neg fun h => absurd (h ▸ htype) (by decide), hcodes, List.append_nil]
  have hbytes : a.packet.bytes = [UInt8.ofNat (a.type.number * 16 + 0), 2] ++ (word a.id ++ []) := by
    show UInt8.ofNat (a.type.number * 16 + 0) ::
      (lengthBytes (if a.body.length < 128 then 0 else 1) a.body.length ++ a.body) = _
    rw [hbody]
    rfl
  have hkind : mqttGetType.value a.packet.bytes = some a.type := by
    have hvalue := a.packet.type_value []
    rwa [List.append_nil] at hvalue
  have hlength : (Reads.cell 1).value a.packet.bytes = 2 := by rw [hbytes]; rfl
  have hword : (word16 2).value a.packet.bytes = a.id := by
    rw [hbytes]
    exact word16_append [UInt8.ofNat (a.type.number * 16 + 0), 2] [] a.id_lt
  rw [mqttGetId, if_neg (by decide), Reads.value_bind, hkind]
  cases hcase : a.type with
  | puback | pubrec | pubcomp =>
    dsimp only
    rw [if_pos (by decide), Reads.value_bind, hlength, if_pos (by decide), hword]
  | _ =>
    rw [hcase] at htype
    exact absurd htype (by decide)

end Acknowledgement

inductive Exchange where
  | call (o : Operation)
  | tick
  | sent (count : Nat)
  | acknowledge (a : Acknowledgement)

def Exchange.event : Exchange → Event
  | call o => .operation o
  | tick => .tick
  | sent count => .sent count
  | acknowledge a => .received a.packet.bytes

@[simp] theorem Exchange.event_sent (count : Nat) : Exchange.event (.sent count) = .sent count := rfl

def Action.handed? : Action → Option (Option Publication)
  | handed publication _ => some publication
  | _ => none

def Action.puback? : Action → Option Nat
  | callback (.puback n) => some n
  | _ => none

/-! ### The ledger -/

/-- A client with the packets in flight, the oldest first, and the publishes with a callback that wait for
their acknowledgement. -/
structure Ledger where
  client : Client
  queue : List (Option Publication)
  waiting : List Publication

/-- A publish in flight that is complete when it is sent, if it has a callback. -/
def unsent? : Option Publication → Option Publication
  | some p => if p.qos = 0 ∧ p.callback.isSome then some p else none
  | none => none

/-- A publish that is complete when it is acknowledged, if it has a callback. -/
def unacknowledged? : Option Publication → Option Publication
  | some p => if p.qos ≠ 0 ∧ p.callback.isSome then some p else none
  | none => none

namespace Ledger

/-- The publishes that a callback is due for later. -/
def unfinished (L : Ledger) : List Publication := L.queue.filterMap unsent? ++ L.waiting

/-- The packets that are handed over on the way to a new state. -/
def follow (L : Ledger) (r : Client × List Action) : Ledger where
  client := r.1
  queue := L.queue ++ r.2.filterMap Action.handed?
  waiting := L.waiting ++ (r.2.filterMap Action.handed?).filterMap unacknowledged?

/-- The ledger and the publishes that an event completes. -/
def arrive (L : Ledger) : Exchange → Ledger × List Publication
  | .sent count =>
    if count ≤ L.queue.length then
      ({ L with queue := L.queue.drop count }, (L.queue.take count).filterMap unsent?)
    else (L, [])
  | .acknowledge a =>
    ({ L with waiting := L.waiting.filter fun p => ¬ a.Completes p }, L.waiting.filter fun p => a.Completes p)
  | _ => (L, [])

end Ledger

/-- The client with its ledger. -/
def ledgers (program : Program) (signed : Signed) : Machine Ledger Exchange Action where
  step L x :=
    let r := (client program signed).step L.client x.event
    ((L.arrive x).1.follow r, r.2)

/-! ### The calls of the program -/

/-- What an acknowledgement finds in the record. -/
def Client.Matches (s : Client) (id : Nat) : Prop :=
  s.pendingType = some .publish ∧ s.pendingId = id ∧ s.pubackRef.isSome

/-- The record of a QoS 0 publish with a callback: every sent event leads to the callback. -/
def Client.Fires (s : Client) : Prop :=
  s.pendingType = some .publish ∧ s.pendingQos = 0 ∧ s.pubackRef.isSome

/-- The client in which the program runs in a callback, if the event leads to one. -/
def Client.Runs (s : Client) (c : Client) : Exchange → Prop
  | .sent count =>
    0 < count ∧ count ≤ s.inFlight ∧ s.Fires ∧
      c = { s with inFlight := s.inFlight - count, sendTimeout := 0, called := s.called + 1 }
  | .acknowledge a =>
    (a.type = .suback ∧ s.subackRef = true ∨ (a.type = .puback ∨ a.type = .pubcomp) ∧ s.Matches a.id) ∧
      c = { s.load a.packet.bytes with called := s.called + 1 }
  | _ => False

namespace Ledger

/-- Every call of a list has a property in the ledger before it. -/
def Calls (P : Ledger → Operation → Prop) (L : Ledger) : List Operation → Prop
  | [] => True
  | o :: os => P L o ∧ Calls P (L.follow (L.client.operate o)) os

/-- Every call that is made in an event has a property. -/
def EventCalls (P : Ledger → Operation → Prop) (program : Program) (L : Ledger) : Exchange → Prop
  | .call o => P L o
  | x => ∀ c, L.client.Runs c x → Calls P { (L.arrive x).1 with client := c } (program L.client.called)

/-- An accepted publish with a callback hands its packet over. -/
def Hands (L : Ledger) : Operation → Prop
  | .publish topic payload qos retain callback =>
    L.client.sendTimeout = 0 → callback ≠ none →
      ∃ id bytes, .handed (some ⟨qos % 256, id, callback⟩) bytes ∈
        (L.client.operate (.publish topic payload qos retain callback)).2
  | _ => True

/-- The callbacks of publishes that an event leads to are those that are due, and the publishes that it accepts
are on their way. -/
def Signalled (program : Program) (signed : Signed) (L : Ledger) (x : Exchange) : Prop :=
  ((ledgers program signed).actions L x).filterMap Action.puback? = (L.arrive x).2.filterMap Publication.callback ∧
    EventCalls Hands program L x

/-- A publish with a callback is accepted only when the publish before is finished, for QoS 0 also with nothing
in flight, and fits; one without a callback only before the first one with a callback. Subscriptions are
accepted only when no publish is unfinished, and the first topic of a table fits. -/
def CallOrderly (L : Ledger) : Operation → Prop
  | .publish topic payload qos _ callback =>
    L.client.sendTimeout = 0 →
      (callback = none → L.client.pubackRef = none) ∧
      (callback ≠ none →
        L.unfinished = [] ∧ (qos % 256 = 0 → L.queue = []) ∧ qos % 256 ≤ 2 ∧ cstr topic ≠ [] ∧
          (cstr topic).length + payload.length + (if qos % 256 = 0 then 5 else 7) ≤ 1024)
  | .subscribe _ _ _ => L.client.sendTimeout = 0 → L.unfinished = []
  | .subscribeTable topics _ =>
    L.client.sendTimeout = 0 → ∀ topic ∈ topics.head?,
      L.unfinished = [] ∧ cstr topic.1 ≠ [] ∧ (cstr topic.1).length < 1016
  | _ => True

/-- No ping while a publish is unfinished; no PUBREC while the record is that of a QoS 0 publish; PUBACK and
PUBCOMP with the identifier of the record only for the publish that they complete. -/
def Orderly (program : Program) (L : Ledger) (x : Exchange) : Prop :=
  EventCalls CallOrderly program L x ∧
    match x with
    | .tick =>
      L.client.timer = true → L.client.info.keepalive < wrap32 (L.client.keepAliveTick + 1) → L.unfinished = []
    | .acknowledge a =>
      (a.type = .pubrec → ¬ L.client.Fires) ∧
      (a.type = .puback ∨ a.type = .pubcomp → L.client.Matches a.id → ∃ p ∈ L.waiting, a.Completes p)
    | _ => True

end Ledger

/-! ### Messages that fit -/

namespace Connection

variable {c : Connection}

theorem mqttMsgPublish_fits {topic data : List UInt8} {qos : Nat} (hbuffer : c.bufferLength = 1024) (htopic : topic ≠ [])
    (hfits : topic.length + data.length + (if qos = 0 then 5 else 7) ≤ 1024) (retain messageId : Nat) :
    0 < (c.mqttMsgPublish topic data qos retain messageId).1.length := by
  have hroom : 3 + publishRemaining topic data qos ≤ 1024 := by
    unfold publishRemaining
    split_ifs at hfits ⊢
    · omega
    · omega
  obtain ⟨built, hbuilt, heq⟩ := mqttMsgPublish_built hbuffer htopic hroom retain messageId
  rw [heq, hbuilt.length_finiMessage]
  exact packetLength_pos _

theorem mqttMsgSubscribe_fits {topic : List UInt8} (hbuffer : c.bufferLength = 1024) (htopic : topic ≠ [])
    (hfits : topic.length < 1016) (qos messageId : Nat) :
    (c.mqttMsgSubscribe topic qos messageId).1.message ≠ [] ∧
      (c.mqttMsgSubscribe topic qos messageId).1.message.length < 1024 := by
  obtain ⟨built, hbuilt, heq⟩ := mqttMsgSubscribe_built hbuffer htopic (by omega) qos messageId
  rw [heq, hbuilt.message_finiMessage]
  refine ⟨List.cons_ne_nil _ _, ?_⟩
  simp only [List.length_cons, List.length_append, length_lengthBytes, length_word, length_encodeString,
    List.length_nil]
  split_ifs
  · omega
  · omega

end Connection

/-! ### The record and the ledger -/

/-- A client whose connection is open and whose callbacks can run. -/
structure Client.Open (s : Client) : Prop where
  receiving : s.Receiving
  connected : s.connected = true
  selfRef : s.selfRef = true
  buffer : s.connection.bufferLength = 1024

theorem Client.Open.of_same {s s' : Client} (h : SameSession s s') (hs : s.Open) : s'.Open :=
  ⟨hs.receiving.of_same h, h.connected.trans hs.connected, h.selfRef.trans hs.selfRef, h.bufferLength.trans hs.buffer⟩

/-- The record is that of a publish. -/
structure Client.Records (s : Client) (p : Publication) : Prop where
  type : s.pendingType = some .publish
  qos : s.pendingQos = p.qos
  id : s.pendingId = p.id
  callback : s.pubackRef = p.callback

/-- Two clients with the same record. -/
structure Client.SameRecord (s s' : Client) : Prop where
  type : s'.pendingType = s.pendingType
  qos : s'.pendingQos = s.pendingQos
  id : s'.pendingId = s.pendingId
  ref : s'.pubackRef = s.pubackRef

theorem Client.SameRecord.records {s s' : Client} (h : SameRecord s s') {p : Publication} (hs : s.Records p) :
    s'.Records p :=
  ⟨h.type.trans hs.type, h.qos.trans hs.qos, h.id.trans hs.id, h.ref.trans hs.callback⟩

theorem Client.SameRecord.fires_iff {s s' : Client} (h : SameRecord s s') : s'.Fires ↔ s.Fires := by
  unfold Fires
  rw [h.type, h.qos, h.ref]

theorem Client.transmit_cases (s : Client) (publication : Option Publication) :
    s.transmit publication = (s, []) ∨
      s.transmit publication =
        ({ s with inFlight := s.inFlight + 1 }, [.handed publication s.connection.message]) := by
  unfold transmit
  split_ifs
  · exact .inr rfl
  · exact .inl rfl

theorem Client.Records.fires {s : Client} {p : Publication} (h : s.Records p) (hcallback : p.callback.isSome)
    (hqos : p.qos = 0) : s.Fires :=
  ⟨h.type, h.qos.trans hqos, by rw [h.callback]; exact hcallback⟩

namespace Ledger

/-- Nothing is unfinished and no sent event can lead to a callback, or one publish is unfinished and the record
is its own. -/
inductive Balanced (L : Ledger) : Prop
  | settled (hunfinished : L.unfinished = []) (hfires : L.client.Fires → L.queue = [])
  | sending (p : Publication) (hrecords : L.client.Records p) (hcallback : p.callback.isSome) (hqos : p.qos = 0)
      (hqueue : L.queue = [some p]) (hwaiting : L.waiting = [])
  | waiting (p : Publication) (hrecords : L.client.Records p) (hcallback : p.callback.isSome)
      (hqos : p.qos = 1 ∨ p.qos = 2) (hqueue : L.queue.filterMap unsent? = []) (hwaiting : L.waiting = [p])

structure Inv (L : Ledger) : Prop where
  isOpen : L.client.Open
  inFlight : L.queue.length = L.client.inFlight
  outbound : L.client.outbound = true → ¬ L.client.Fires
  balanced : L.Balanced

variable {L : Ledger}

theorem unfinished_eq_nil_iff : L.unfinished = [] ↔ L.queue.filterMap unsent? = [] ∧ L.waiting = [] :=
  List.append_eq_nil_iff

theorem follow_follow (L : Ledger) (r r' : Client × List Action) :
    (L.follow r).follow r' = L.follow (r'.1, r.2 ++ r'.2) := by
  unfold follow
  simp only [List.filterMap_append, List.append_assoc]

/-- A result that hands nothing over. -/
theorem follow_silent {r : Client × List Action} (h : ∀ a ∈ r.2, a.handed? = none) :
    L.follow r = { L with client := r.1 } := by
  have hnil : r.2.filterMap Action.handed? = [] := List.filterMap_eq_nil_iff.mpr h
  unfold follow
  rw [hnil, List.filterMap_nil, List.append_nil, List.append_nil]

/-- A result that hands one packet over. -/
theorem follow_handed {r : Client × List Action} {publication : Option Publication}
    (h : r.2.filterMap Action.handed? = [publication]) :
    L.follow r =
      ⟨r.1, L.queue ++ [publication], L.waiting ++ (unacknowledged? publication).toList⟩ := by
  unfold follow
  rw [h]
  cases hpublication : unacknowledged? publication with
  | none => rw [List.filterMap_cons_none hpublication, List.filterMap_nil, Option.toList_none]
  | some p => rw [List.filterMap_cons_some hpublication, List.filterMap_nil, Option.toList_some]

/-- The invariant does not look at the rest of the client. -/
theorem Inv.with_client (hL : L.Inv) {s : Client} (hsame : SameSession L.client s)
    (hrecord : SameRecord L.client s) (hinFlight : s.inFlight = L.client.inFlight)
    (houtbound : s.outbound = true → ¬ s.Fires) : ({ L with client := s } : Ledger).Inv := by
  refine ⟨hL.isOpen.of_same hsame, hL.inFlight.trans hinFlight.symm, houtbound, ?_⟩
  cases hL.balanced with
  | settled hunfinished hfires => exact .settled hunfinished fun h => hfires (hrecord.fires_iff.mp h)
  | sending p h hcallback hqos hqueue hwaiting =>
    exact .sending p (hrecord.records h) hcallback hqos hqueue hwaiting
  | waiting p h hcallback hqos hqueue hwaiting =>
    exact .waiting p (hrecord.records h) hcallback hqos hqueue hwaiting

/-- A packet that is no publish goes out while no sent event leads to a callback. -/
theorem Inv.transmit (hL : L.Inv) (hfires : ¬ L.client.Fires) : (L.follow (L.client.transmit none)).Inv := by
  rcases transmit_cases L.client none with h | h
  · rw [h, follow_silent (List.forall_mem_nil _)]
    exact hL
  · rw [h, @follow_handed _ _ none rfl, unacknowledged?, Option.toList_none, List.append_nil]
    have hsame : SameSession L.client { L.client with inFlight := L.client.inFlight + 1 } :=
      ⟨rfl, rfl, rfl, rfl, rfl, rfl, rfl, rfl, rfl⟩
    have hqueue : (L.queue ++ [none]).filterMap unsent? = L.queue.filterMap unsent? := by
      rw [List.filterMap_append, List.filterMap_cons_none rfl, List.filterMap_nil, List.append_nil]
    refine ⟨hL.isOpen.of_same hsame, ?_, hL.outbound, ?_⟩
    · rw [List.length_append, hL.inFlight, List.length_singleton]
    · cases hL.balanced with
      | settled hunfinished _ =>
        refine .settled ?_ fun h => absurd h hfires
        rw [unfinished_eq_nil_iff] at hunfinished ⊢
        exact ⟨hqueue.trans hunfinished.1, hunfinished.2⟩
      | sending p h hcallback hqos _ _ => exact absurd (h.fires hcallback hqos) hfires
      | waiting p h hcallback hqos hnone hwaiting =>
        exact .waiting p ⟨h.type, h.qos, h.id, h.callback⟩ hcallback hqos (hqueue.trans hnone) hwaiting

theorem Inv.sendOutbound (hL : L.Inv) : (L.follow L.client.sendOutbound).Inv := by
  unfold Client.sendOutbound
  split_ifs with houtbound
  · have htransmitted := hL.transmit (hL.outbound houtbound)
    exact htransmitted.with_client ⟨rfl, rfl, rfl, rfl, rfl, rfl, rfl, rfl, rfl⟩ ⟨rfl, rfl, rfl, rfl⟩ rfl
      fun h => absurd h Bool.false_ne_true
  · rw [follow_silent (List.forall_mem_nil _)]
    exact hL

/-! ### The calls of the program keep the ledger -/

theorem pubackRef_eq_none (hL : L.Inv) (href : L.client.pubackRef = none) : L.unfinished = [] := by
  cases hL.balanced with
  | settled hunfinished _ => exact hunfinished
  | sending p h hcallback _ _ _ =>
    rw [← h.callback, href] at hcallback
    cases hcallback
  | waiting p h hcallback _ _ _ =>
    rw [← h.callback, href] at hcallback
    cases hcallback

/-- A new record without a publish that leads to a callback. -/
theorem Inv.of_unfinished (hL : L.Inv) (hunfinished : L.unfinished = []) {s : Client} (hsame : SameSession L.client s)
    {queue : List (Option Publication)} (hqueue : queue.filterMap unsent? = []) (hinFlight : queue.length = s.inFlight)
    (hfires : ¬ s.Fires) : (⟨s, queue, L.waiting⟩ : Ledger).Inv := by
  refine ⟨hL.isOpen.of_same hsame, hinFlight, fun _ => hfires, .settled ?_ fun h => absurd h hfires⟩
  exact unfinished_eq_nil_iff.mpr ⟨hqueue, (unfinished_eq_nil_iff.mp hunfinished).2⟩

/-- The client whose record is that of an accepted publish, before its packet is handed over. -/
def recorded (s : Client) (topic payload : List UInt8) (qos retain : Nat) (callback : Option Nat) : Client :=
  let built := s.connection.mqttMsgPublish (cstr topic) payload (qos % 256) (retain % 256) s.pendingId
  { (s.build built.1).1 with
    pendingId := built.2
    pendingType := some .publish
    pendingQos := qos % 256
    sendTimeout := 5
    pubackRef := callback.or s.pubackRef }

theorem operate_publish {s : Client} (hespconn : s.espconn = true) (htimeout : s.sendTimeout = 0)
    (topic payload : List UInt8) (qos retain : Nat) (callback : Option Nat) :
    s.operate (.publish topic payload qos retain callback) =
      let s' := recorded s topic payload qos retain callback
      let r := s'.transmit (some ⟨qos % 256, s'.pendingId, callback⟩)
      ({ r.1 with outbound := false }, .wrote s'.connection.written s.inFlight :: r.2) := by
  rw [operate, Client.publish, hespconn, htimeout]
  rfl

/-- A publish without a callback records nothing that could be completed. -/
theorem publish_silent (hL : L.Inv) (topic payload : List UInt8) (qos retain : Nat)
    (htimeout : L.client.sendTimeout = 0) (href : L.client.pubackRef = none) :
    (L.follow (L.client.operate (.publish topic payload qos retain none))).Inv := by
  have hsame := operate_same L.client (.publish topic payload qos retain none)
  have hunfinished := pubackRef_eq_none hL href
  have hnone : ∀ q id, unsent? (some ⟨q, id, none⟩) = none := fun q id => if_neg fun h => by cases h.2
  have hnone' : ∀ q id, unacknowledged? (some ⟨q, id, none⟩) = none := fun q id => if_neg fun h => by cases h.2
  have hfires : ∀ s : Client, s.pubackRef = none → ¬ s.Fires := by
    intro s hs h
    have hsome := h.2.2
    rw [hs] at hsome
    cases hsome
  rw [operate_publish hL.isOpen.receiving.espconn htimeout] at hsame ⊢
  dsimp only at hsame ⊢
  rcases transmit_cases (recorded L.client topic payload qos retain none)
    (some ⟨qos % 256, (recorded L.client topic payload qos retain none).pendingId, none⟩) with h | h
  · rw [h] at hsame ⊢
    rw [follow_silent (r := (_, [.wrote _ _])) (List.forall_mem_singleton.mpr rfl)]
    exact hL.of_unfinished hunfinished hsame (unfinished_eq_nil_iff.mp hunfinished).1 hL.inFlight (hfires _ href)
  · rw [h] at hsame ⊢
    rw [follow_handed (List.filterMap_cons_none rfl), hnone', Option.toList_none, List.append_nil]
    refine hL.of_unfinished hunfinished hsame ?_ ?_ (hfires _ href)
    · rw [List.filterMap_append, (unfinished_eq_nil_iff.mp hunfinished).1, List.filterMap_cons_none (hnone _ _)]
      rfl
    · rw [List.length_append, hL.inFlight]
      rfl

/-- A publish with a callback is recorded and handed over. -/
theorem publish_signalled (hL : L.Inv) (topic payload : List UInt8) (qos retain n : Nat)
    (htimeout : L.client.sendTimeout = 0) (hunfinished : L.unfinished = []) (hqueue : qos % 256 = 0 → L.queue = [])
    (hqos : qos % 256 ≤ 2) (htopic : cstr topic ≠ [])
    (hfits : (cstr topic).length + payload.length + (if qos % 256 = 0 then 5 else 7) ≤ 1024) :
    (L.follow (L.client.operate (.publish topic payload qos retain (some n)))).Inv ∧
      L.Hands (.publish topic payload qos retain (some n)) := by
  have hsame := operate_same L.client (.publish topic payload qos retain (some n))
  have hespconn := hL.isOpen.receiving.espconn
  have hresult := operate_publish hespconn htimeout topic payload qos retain (some n)
  obtain ⟨hunsent, hwaiting⟩ := unfinished_eq_nil_iff.mp hunfinished
  have hpos : 0 < (recorded L.client topic payload qos retain (some n)).connection.length :=
    Connection.mqttMsgPublish_fits hL.isOpen.buffer htopic hfits _ _
  have hhanded : ∀ publication, (recorded L.client topic payload qos retain (some n)).transmit publication = _ :=
    fun publication => if_pos ⟨hespconn, hL.isOpen.receiving.link, hpos⟩
  rw [hresult] at hsame ⊢
  dsimp only at hsame ⊢
  rw [hhanded] at hsame ⊢
  refine ⟨?_, fun _ _ => ⟨(recorded L.client topic payload qos retain (some n)).pendingId,
    (recorded L.client topic payload qos retain (some n)).connection.message, ?_⟩⟩
  swap
  · rw [hresult]
    dsimp only
    rw [hhanded]
    exact List.mem_cons_of_mem _ (List.mem_singleton.mpr rfl)
  rw [follow_handed (List.filterMap_cons_none rfl)]
  refine ⟨hL.isOpen.of_same hsame, ?_, fun h => absurd h Bool.false_ne_true, ?_⟩
  · rw [List.length_append, hL.inFlight]
    rfl
  · set p : Publication :=
      ⟨qos % 256, (recorded L.client topic payload qos retain (some n)).pendingId, some n⟩ with hp
    by_cases hzero : qos % 256 = 0
    · refine .sending p ⟨rfl, rfl, rfl, rfl⟩ rfl hzero ?_ ?_
      · rw [hqueue hzero]
        rfl
      · rw [hwaiting, unacknowledged?, if_neg fun h => h.1 hzero]
        rfl
    · have honetwo : p.qos = 1 ∨ p.qos = 2 := by
        rw [hp]
        dsimp only
        omega
      refine .waiting p ⟨rfl, rfl, rfl, rfl⟩ rfl honetwo ?_ ?_
      · have hnone : unsent? (some p) = none := if_neg fun h => hzero h.1
        rw [List.filterMap_append, hunsent, List.filterMap_cons_none hnone]
        rfl
      · rw [hwaiting, unacknowledged?, if_pos ⟨hzero, rfl⟩]
        rfl

theorem publish_inv (hL : L.Inv) (topic payload : List UInt8) (qos retain : Nat) (callback : Option Nat)
    (hok : L.CallOrderly (.publish topic payload qos retain callback)) :
    (L.follow (L.client.operate (.publish topic payload qos retain callback))).Inv ∧
      L.Hands (.publish topic payload qos retain callback) := by
  by_cases htimeout : L.client.sendTimeout = 0
  · obtain ⟨hsilent, hsignal⟩ := hok htimeout
    cases callback with
    | none => exact ⟨publish_silent hL topic payload qos retain htimeout (hsilent rfl), fun _ h => absurd rfl h⟩
    | some n =>
      obtain ⟨hunfinished, hqueue, hqos, htopic, hfits⟩ := hsignal (Option.some_ne_none n)
      exact publish_signalled hL topic payload qos retain n htimeout hunfinished hqueue hqos htopic hfits
  · have hresult : L.client.operate (.publish topic payload qos retain callback) =
        (L.client, [.error "sending in process"]) := by
      rw [operate, Client.publish, hL.isOpen.receiving.espconn, if_pos htimeout]
      rfl
    rw [hresult, follow_silent (r := (_, [.error _])) (List.forall_mem_singleton.mpr rfl)]
    exact ⟨hL, fun h => absurd h htimeout⟩

/-- A packet that begins something else goes out on a client that was left alone but for its message and its
record. -/
theorem Inv.begin (hL : L.Inv) (hunfinished : L.unfinished = []) {s : Client} (hsame : SameSession L.client s)
    (hinFlight : s.inFlight = L.client.inFlight) (hfires : ¬ s.Fires) {actions : List Action}
    (hactions : ∀ a ∈ actions, a.handed? = none) :
    (L.follow ((s.transmit none).1, actions ++ (s.transmit none).2)).Inv := by
  have hinv := hL.of_unfinished hunfinished hsame (unfinished_eq_nil_iff.mp hunfinished).1
    (hL.inFlight.trans hinFlight.symm) hfires
  have htransmitted := hinv.transmit hfires
  have hsilent := follow_silent (L := L) (r := (s, actions)) hactions
  rw [← follow_follow L (s, actions), hsilent]
  exact htransmitted

theorem subscribe_inv (hL : L.Inv) (topic : List UInt8) (qos : Nat) (callback : Bool)
    (hok : L.CallOrderly (.subscribe topic qos callback)) :
    (L.follow (L.client.operate (.subscribe topic qos callback))).Inv := by
  rw [operate, Client.subscribe]
  split_ifs with htimeout hconnected
  · rw [follow_silent (r := (_, [.error _])) (List.forall_mem_singleton.mpr rfl)]
    exact hL
  · rw [hL.isOpen.connected] at hconnected
    cases hconnected
  · refine hL.begin (hok (not_not.mp htimeout)) ?_ ?_ ?_ (List.forall_mem_singleton.mpr rfl)
    · exact (buildSubscribe_same L.client topic qos).trans ⟨rfl, rfl, rfl, rfl, rfl, rfl, rfl, rfl, rfl⟩
    · rfl
    · exact fun h => by cases h.1

theorem buildTable_silent (s : Client) (topics : List (List UInt8 × Nat)) :
    (∀ a ∈ (s.buildTable topics).2.1, a.handed? = none) ∧ (s.buildTable topics).1.inFlight = s.inFlight := by
  induction topics generalizing s with
  | nil => exact ⟨List.forall_mem_nil _, rfl⟩
  | cons topic topics ih =>
    obtain ⟨hactions, hinFlight⟩ := ih (s.buildSubscribe topic.1 topic.2).1
    rw [buildTable, List.forall_mem_append]
    exact ⟨⟨List.forall_mem_singleton.mpr rfl, hactions⟩, hinFlight⟩

theorem subscribeTable_inv (hL : L.Inv) (topics : List (List UInt8 × Nat)) (callback : Bool)
    (hok : L.CallOrderly (.subscribeTable topics callback)) :
    (L.follow (L.client.operate (.subscribeTable topics callback))).Inv := by
  rw [operate, Client.subscribeTable]
  split_ifs with htimeout hconnected
  · rw [follow_silent (r := (_, [.error _])) (List.forall_mem_singleton.mpr rfl)]
    exact hL
  · rw [hL.isOpen.connected] at hconnected
    cases hconnected
  · obtain ⟨hactions, hinFlight⟩ := buildTable_silent L.client topics
    have hsame := buildTable_same L.client topics
    cases topics with
    | nil =>
      show (L.follow (_, [.wrote _ _, .error _])).Inv
      rw [follow_silent (by simp [Action.handed?])]
      exact hL.with_client ⟨rfl, rfl, rfl, rfl, rfl, rfl, rfl, rfl, rfl⟩ ⟨rfl, rfl, rfl, rfl⟩ rfl hL.outbound
    | cons topic topics =>
      obtain ⟨hunfinished, htopic, hfits⟩ := hok (not_not.mp htimeout) topic rfl
      generalize hbuilt : L.client.buildTable (topic :: topics) = built at hactions hinFlight hsame
      have hcopied : ∀ c, (copyBack c 0 built.2.2).2 ≠ 0 := by
        intro c
        have hmessages : built.2.2 = (L.client.buildSubscribe topic.1 topic.2).1.connection.message ::
            ((L.client.buildSubscribe topic.1 topic.2).1.buildTable topics).2.2 := by
          rw [← hbuilt]
          rfl
        obtain ⟨hnil, hlength⟩ := Connection.mqttMsgSubscribe_fits hL.isOpen.buffer htopic hfits (topic.2 % 256)
          L.client.pendingId
        rw [hmessages, copyBack, if_pos (by rw [Nat.zero_add]; exact hlength)]
        exact Nat.ne_of_gt (copyBack_first _ (by rw [Nat.zero_add]; exact List.length_pos_iff.mpr hnil) _).1
      dsimp only
      rw [if_neg (hcopied _)]
      refine hL.begin hunfinished ?_ ?_ ?_ ?_
      · refine hsame.trans ⟨rfl, rfl, rfl, rfl, rfl, rfl, rfl, ?_, rfl⟩
        exact copyBack_bufferLength _ _ _
      · exact hinFlight
      · exact fun h => by cases h.1
      · rw [List.forall_mem_append]
        exact ⟨hactions, List.forall_mem_singleton.mpr rfl⟩

/-- A call of the program keeps the ledger and hands over what it accepts. -/
theorem operate_inv (hL : L.Inv) (o : Operation) (hok : L.CallOrderly o) :
    (L.follow (L.client.operate o)).Inv ∧ L.Hands o := by
  cases o with
  | publish topic payload qos retain callback => exact publish_inv hL topic payload qos retain callback hok
  | subscribe topic qos callback => exact ⟨subscribe_inv hL topic qos callback hok, trivial⟩
  | subscribeTable topics callback => exact ⟨subscribeTable_inv hL topics callback hok, trivial⟩
  | on method =>
    refine ⟨?_, trivial⟩
    rw [operate, follow_silent (List.forall_mem_nil _)]
    cases method <;>
      exact hL.with_client ⟨rfl, rfl, rfl, rfl, rfl, rfl, rfl, rfl, rfl⟩ ⟨rfl, rfl, rfl, rfl⟩ rfl hL.outbound
  | close =>
    refine ⟨?_, trivial⟩
    rw [operate, hL.isOpen.receiving.espconn, if_pos rfl,
      follow_silent (r := (_, [.disconnect])) (List.forall_mem_singleton.mpr rfl)]
    exact hL

theorem ofCalls_puback : OfCalls (·.puback? = none) :=
  ⟨fun _ _ => rfl, fun _ _ => rfl, rfl, fun _ => rfl⟩

theorem operateAll_inv (hL : L.Inv) (os : List Operation) (hok : L.Calls CallOrderly os) :
    (L.follow (L.client.operateAll os)).Inv ∧ L.Calls Hands os := by
  induction os generalizing L with
  | nil =>
    rw [operateAll, follow_silent (List.forall_mem_nil _)]
    exact ⟨hL, trivial⟩
  | cons o os ih =>
    obtain ⟨hinv, hhands⟩ := operate_inv hL o hok.1
    obtain ⟨hinv', hhands'⟩ := ih hinv hok.2
    rw [follow_follow] at hinv'
    exact ⟨hinv', hhands, hhands'⟩

/-! ### The events keep the ledger -/

variable {program : Program} {signed : Signed}

/-- An event that leaves the ledger in order, with the callbacks that are due. -/
def Kept (program : Program) (signed : Signed) (L : Ledger) (x : Exchange) : Prop :=
  ((ledgers program signed).next L x).Inv ∧ Signalled program signed L x

theorem step_eq (hL : L.Inv) (x : Exchange) :
    (ledgers program signed).step L x =
      ((L.arrive x).1.follow (L.client.react program signed x.event), (L.client.react program signed x.event).2) := by
  have hstep : (EspClock.Mqtt.client program signed).step L.client x.event = L.client.react program signed x.event :=
    if_neg (by rw [hL.isOpen.receiving.stuck]; exact Bool.false_ne_true)
  unfold ledgers
  dsimp only
  rw [hstep]

theorem kept_of_react (hL : L.Inv) (x : Exchange)
    (hinv : ((L.arrive x).1.follow (L.client.react program signed x.event)).Inv)
    (hpubacks : (L.client.react program signed x.event).2.filterMap Action.puback? =
      (L.arrive x).2.filterMap Publication.callback)
    (hcalls : EventCalls Hands program L x) : Kept program signed L x := by
  unfold Kept Signalled Machine.next Machine.actions
  rw [step_eq hL]
  exact ⟨hinv, hpubacks, hcalls⟩

theorem pubacks_eq_nil {actions : List Action} (h : ∀ a ∈ actions, a.puback? = none) :
    actions.filterMap Action.puback? = [] := List.filterMap_eq_nil_iff.mpr h

/-- A callback, in which the program makes its calls. -/
theorem call_inv {s : Client} (hL : ({ L with client := { s with called := s.called + 1 } } : Ledger).Inv)
    (hok : Calls CallOrderly { L with client := { s with called := s.called + 1 } } (program s.called))
    (callback : Callback) :
    (L.follow (s.call program callback)).Inv ∧
      Calls Hands { L with client := { s with called := s.called + 1 } } (program s.called) ∧
      (s.call program callback).2.filterMap Action.puback? = (Action.puback? (.callback callback)).toList := by
  obtain ⟨hinv, hhands⟩ := operateAll_inv hL (program s.called) hok
  refine ⟨hinv, hhands, ?_⟩
  rw [call]
  dsimp only
  cases hpuback : Action.puback? (.callback callback) with
  | none => rw [List.filterMap_cons_none hpuback, pubacks_eq_nil (operateAll_actions ofCalls_puback _)]; rfl
  | some n => rw [List.filterMap_cons_some hpuback, pubacks_eq_nil (operateAll_actions ofCalls_puback _)]; rfl

theorem call_kept (hL : L.Inv) (o : Operation) (hok : L.Orderly program (.call o)) :
    Kept program signed L (.call o) := by
  obtain ⟨hinv, hhands⟩ := operate_inv hL o hok.1
  exact kept_of_react hL (.call o) hinv (pubacks_eq_nil (operate_actions ofCalls_puback o)) hhands

theorem tick_kept (hL : L.Inv) (hok : L.Orderly program .tick) : Kept program signed L .tick := by
  have hdata := hL.isOpen.receiving.state
  have hcalls : EventCalls Hands program L .tick := fun c hc => hc.elim
  by_cases htimer : L.client.timer = true
  · have hreact : L.client.react program signed .tick = L.client.socketTimer := if_pos htimer
    by_cases hping : L.client.info.keepalive < wrap32 (L.client.keepAliveTick + 1)
    · -- the ping takes the record over
      set s : Client := { L.client with
        keepAliveTick := wrap32 (L.client.keepAliveTick + 1)
        pendingType := some .pingreq
        sendTimeout := 5
        connection := L.client.connection.mqttMsgPingreq
        outbound := true } with hs
      have hresult : L.client.socketTimer =
          ({ (s.transmit none).1 with keepAliveTick := 0, sendTimeout := (s.transmit none).1.sendTimeout - 1 },
            [.wrote s.connection.written L.client.inFlight] ++ (s.transmit none).2) := by
        unfold socketTimer ping
        rw [if_pos hdata]
        dsimp only
        rw [if_pos hping]
        rfl
      have hsame : SameSession L.client s :=
        ⟨rfl, rfl, rfl, rfl, rfl, rfl, rfl, Connection.finiMessage_bufferLength _ _ _ _ _, rfl⟩
      have hwrote : ∀ a ∈ [Action.wrote s.connection.written L.client.inFlight], a.handed? = none :=
        List.forall_mem_singleton.mpr rfl
      have hbegun := hL.begin (hok.2 htimer hping) hsame rfl (fun h => by cases h.1) hwrote
      refine kept_of_react hL .tick ?_ ?_ hcalls
      · show (L.follow (L.client.react program signed .tick)).Inv
        rw [hreact, hresult]
        exact hbegun.with_client ⟨rfl, rfl, rfl, rfl, rfl, rfl, rfl, rfl, rfl⟩ ⟨rfl, rfl, rfl, rfl⟩ rfl
          hbegun.outbound
      · show (L.client.react program signed .tick).2.filterMap Action.puback? = []
        rw [hreact, hresult]
        refine pubacks_eq_nil (List.forall_mem_append.mpr ⟨List.forall_mem_singleton.mpr rfl, ?_⟩)
        exact transmit_actions ofCalls_puback none
    · have hresult : L.client.socketTimer =
          ({ L.client with
            keepAliveTick := wrap32 (L.client.keepAliveTick + 1)
            sendTimeout := L.client.sendTimeout - 1 }, []) := by
        unfold socketTimer ping
        rw [if_pos hdata]
        dsimp only
        rw [if_neg hping]
      refine kept_of_react hL .tick ?_ ?_ hcalls
      · show (L.follow (L.client.react program signed .tick)).Inv
        rw [hreact, hresult, follow_silent (List.forall_mem_nil _)]
        exact hL.with_client ⟨rfl, rfl, rfl, rfl, rfl, rfl, rfl, rfl, rfl⟩ ⟨rfl, rfl, rfl, rfl⟩ rfl hL.outbound
      · show (L.client.react program signed .tick).2.filterMap Action.puback? = []
        rw [hreact, hresult]
        rfl
  · have hreact : L.client.react program signed .tick = (L.client, []) := if_neg htimer
    refine kept_of_react hL .tick ?_ ?_ hcalls
    · show (L.follow (L.client.react program signed .tick)).Inv
      rw [hreact, follow_silent (List.forall_mem_nil _)]
      exact hL
    · show (L.client.react program signed .tick).2.filterMap Action.puback? = []
      rw [hreact]
      rfl

/-- A sent event in the ledger: the publishes that it completes, and what is left. -/
theorem sent_arrive (hL : L.Inv) {count : Nat} (hpos : 0 < count) (hcount : count ≤ L.client.inFlight) {s : Client}
    (hsame : SameSession L.client s) (hrecord : SameRecord L.client s)
    (hinFlight : s.inFlight = L.client.inFlight - count) (houtbound : s.outbound = L.client.outbound) :
    ({ (L.arrive (.sent count)).1 with client := s } : Ledger).Inv ∧
      (L.client.Fires → (L.arrive (.sent count)).2.filterMap Publication.callback = L.client.pubackRef.toList) ∧
      (¬ L.client.Fires → (L.arrive (.sent count)).2 = []) := by
  have hlength := hL.inFlight
  have harrive : L.arrive (.sent count) =
      ({ L with queue := L.queue.drop count }, (L.queue.take count).filterMap unsent?) := if_pos (by omega)
  have hout : s.outbound = true → ¬ s.Fires := fun h hfires => hL.outbound (houtbound ▸ h) (hrecord.fires_iff.mp hfires)
  have hdrop : (L.queue.drop count).length = s.inFlight := by rw [List.length_drop, hlength, hinFlight]
  have hsub : L.queue.filterMap unsent? = [] →
      (L.queue.take count).filterMap unsent? = [] ∧ (L.queue.drop count).filterMap unsent? = [] := by
    intro h
    rwa [← List.take_append_drop count L.queue, List.filterMap_append, List.append_eq_nil_iff] at h
  rw [harrive]
  cases hL.balanced with
  | settled hunfinished hfires =>
    have hnot : ¬ L.client.Fires := by
      intro h
      rw [hfires h, List.length_nil] at hlength
      omega
    obtain ⟨hunsent, hwaiting⟩ := unfinished_eq_nil_iff.mp hunfinished
    obtain ⟨htaken, hleft⟩ := hsub hunsent
    refine ⟨⟨hL.isOpen.of_same hsame, hdrop, hout, ?_⟩, fun h => absurd h hnot, fun _ => htaken⟩
    exact .settled (unfinished_eq_nil_iff.mpr ⟨hleft, hwaiting⟩) fun h => absurd (hrecord.fires_iff.mp h) hnot
  | sending p h hcallback hqos hqueue hwaiting =>
    have hone : count = 1 := by
      rw [hqueue, List.length_singleton] at hlength
      omega
    subst hone
    refine ⟨⟨hL.isOpen.of_same hsame, hdrop, hout, ?_⟩, fun _ => ?_, fun hnot => absurd (h.fires hcallback hqos) hnot⟩
    · refine .settled (unfinished_eq_nil_iff.mpr ⟨?_, hwaiting⟩) fun _ => ?_
      · dsimp only
        rw [hqueue]
        rfl
      · dsimp only
        rw [hqueue]
        rfl
    · dsimp only
      obtain ⟨n, hn⟩ := Option.isSome_iff_exists.mp hcallback
      have hunsent : unsent? (some p) = some p := if_pos ⟨hqos, hcallback⟩
      rw [hqueue, List.take_one, List.head?_cons, Option.toList_some, List.filterMap_cons_some hunsent,
        List.filterMap_nil, List.filterMap_cons_some hn, h.callback, hn]
      rfl
  | waiting p h hcallback hqos hunsent hwaiting =>
    obtain ⟨htaken, hleft⟩ := hsub hunsent
    have hnot : ¬ L.client.Fires := fun hfires => by
      have hzero := h.qos.symm.trans hfires.2.1
      omega
    refine ⟨⟨hL.isOpen.of_same hsame, hdrop, hout, ?_⟩, fun h => absurd h hnot, fun _ => htaken⟩
    exact .waiting p (hrecord.records h) hcallback hqos hleft hwaiting

theorem sent_kept (hL : L.Inv) (count : Nat) (hok : L.Orderly program (.sent count)) :
    Kept program signed L (.sent count) := by
  by_cases hcount : 0 < count ∧ count ≤ L.client.inFlight
  · set s : Client := { L.client with inFlight := L.client.inFlight - count, sendTimeout := 0 } with hs
    have hreact : L.client.react program signed (.sent count) =
        if s.pendingType = some .publish ∧ s.pendingQos = 0 then s.callPuback program else (s, []) := by
      have hguard : L.client.react program signed (.sent count) = L.client.socketSent program count :=
        if_pos ⟨hL.isOpen.receiving.espconn, hcount⟩
      rw [hguard]
      exact if_neg (by simp [hL.isOpen.connected])
    by_cases hfires : L.client.Fires
    · obtain ⟨n, hn⟩ := Option.isSome_iff_exists.mp hfires.2.2
      have hcall : L.client.react program signed (.sent count) = s.call program (.puback n) := by
        rw [hreact, if_pos ⟨hfires.1, hfires.2.1⟩, callPuback]
        have href : s.pubackRef = some n := hn
        rw [href]
        exact if_pos hL.isOpen.selfRef
      obtain ⟨hinv, hdue, -⟩ := sent_arrive hL hcount.1 hcount.2 (s := { s with called := s.called + 1 })
        ⟨rfl, rfl, rfl, rfl, rfl, rfl, rfl, rfl, rfl⟩ ⟨rfl, rfl, rfl, rfl⟩ rfl rfl
      obtain ⟨hafter, hhands, hpubacks⟩ := call_inv hinv (hok.1 _ ⟨hcount.1, hcount.2, hfires, rfl⟩) (.puback n)
      refine kept_of_react hL _ ?_ ?_ ?_
      · show (_ : Ledger).Inv
        rw [Exchange.event_sent, hcall]
        exact hafter
      · rw [Exchange.event_sent, hcall, hpubacks, hdue hfires, hn]
        rfl
      · rintro c ⟨-, -, -, rfl⟩
        exact hhands
    · have hsilent : L.client.react program signed (.sent count) = (s, []) := by
        rw [hreact]
        split_ifs with hrecord
        · have href : s.pubackRef = none := by
            by_contra hsome
            exact hfires ⟨hrecord.1, hrecord.2, Option.isSome_iff_ne_none.mpr hsome⟩
          rw [callPuback, href]
        · rfl
      obtain ⟨hinv, -, hdue⟩ := sent_arrive hL hcount.1 hcount.2 (s := s)
        ⟨rfl, rfl, rfl, rfl, rfl, rfl, rfl, rfl, rfl⟩ ⟨rfl, rfl, rfl, rfl⟩ rfl rfl
      refine kept_of_react hL _ ?_ ?_ ?_
      · rw [Exchange.event_sent, hsilent, follow_silent (List.forall_mem_nil _)]
        exact hinv
      · rw [Exchange.event_sent, hsilent, hdue hfires]
        rfl
      · rintro c ⟨-, -, hfires', -⟩
        exact absurd hfires' hfires
  · have hreact : L.client.react program signed (.sent count) = (L.client, []) :=
      if_neg fun h => hcount h.2
    have harrive : L.arrive (.sent count) = (L, []) := by
      rw [arrive]
      split_ifs with hle
      · have hzero : count = 0 := by
          rw [hL.inFlight] at hle
          omega
        rw [hzero]
        rfl
      · rfl
    refine kept_of_react hL _ ?_ ?_ ?_
    · rw [Exchange.event_sent, hreact, harrive, follow_silent (List.forall_mem_nil _)]
      exact hL
    · rw [Exchange.event_sent, hreact, harrive]
      rfl
    · rintro c ⟨hpos, hle, -⟩
      exact absurd ⟨hpos, hle⟩ hcount

/-- An acknowledgement in the ledger: the publishes that it completes, and what is left. -/
theorem acknowledge_arrive (hL : L.Inv) (a : Acknowledgement) {s : Client} (hsame : SameSession L.client s)
    (hrecord : SameRecord L.client s) (hinFlight : s.inFlight = L.client.inFlight) (houtbound : s.outbound = false)
    (hok : a.type = .puback ∨ a.type = .pubcomp → L.client.Matches a.id → ∃ p ∈ L.waiting, a.Completes p) :
    ({ (L.arrive (.acknowledge a)).1 with client := s } : Ledger).Inv ∧
      ((a.type = .puback ∨ a.type = .pubcomp) ∧ L.client.Matches a.id →
        (L.arrive (.acknowledge a)).2.filterMap Publication.callback = L.client.pubackRef.toList) ∧
      (¬ ((a.type = .puback ∨ a.type = .pubcomp) ∧ L.client.Matches a.id) → (L.arrive (.acknowledge a)).2 = []) := by
  have hout : s.outbound = true → ¬ s.Fires := fun h => absurd (houtbound.symm.trans h) Bool.false_ne_true
  have hlength : L.queue.length = s.inFlight := hL.inFlight.trans hinFlight.symm
  rw [arrive]
  cases hL.balanced with
  | settled hunfinished hfires =>
    obtain ⟨hunsent, hwaiting⟩ := unfinished_eq_nil_iff.mp hunfinished
    dsimp only
    rw [hwaiting]
    refine ⟨⟨hL.isOpen.of_same hsame, hlength, hout, ?_⟩, fun h => ?_, fun _ => rfl⟩
    · exact .settled (unfinished_eq_nil_iff.mpr ⟨hunsent, rfl⟩) fun h => hfires (hrecord.fires_iff.mp h)
    · obtain ⟨p, hp, -⟩ := hok h.1 h.2
      rw [hwaiting] at hp
      exact absurd hp List.not_mem_nil
  | sending p h hcallback hqos hqueue hwaiting =>
    dsimp only
    rw [hwaiting]
    refine ⟨⟨hL.isOpen.of_same hsame, hlength, hout, ?_⟩, fun h => ?_, fun _ => rfl⟩
    · exact .sending p (hrecord.records h) hcallback hqos hqueue rfl
    · obtain ⟨q, hq, -⟩ := hok h.1 h.2
      rw [hwaiting] at hq
      exact absurd hq List.not_mem_nil
  | waiting p h hcallback hqos hunsent hwaiting =>
    obtain ⟨n, hn⟩ := Option.isSome_iff_exists.mp hcallback
    dsimp only
    rw [hwaiting]
    by_cases hcompletes : a.Completes p
    · have hmatches : (a.type = .puback ∨ a.type = .pubcomp) ∧ L.client.Matches a.id := by
        refine ⟨hcompletes.2.imp And.left And.left, h.type, h.id.trans hcompletes.1, ?_⟩
        rw [h.callback]
        exact hcallback
      have hnot : ¬ s.Fires := fun hfires => by
        have hzero := h.qos.symm.trans (hrecord.fires_iff.mp hfires).2.1
        omega
      rw [List.filter_cons_of_neg (by simpa using hcompletes), List.filter_cons_of_pos (by simpa using hcompletes)]
      refine ⟨⟨hL.isOpen.of_same hsame, hlength, hout, ?_⟩, fun _ => ?_, fun hnone => absurd hmatches hnone⟩
      · exact .settled (unfinished_eq_nil_iff.mpr ⟨hunsent, rfl⟩) fun h => absurd h hnot
      · rw [List.filterMap_cons_some hn, h.callback, hn]
        rfl
    · rw [List.filter_cons_of_pos (by simpa using hcompletes), List.filter_cons_of_neg (by simpa using hcompletes)]
      refine ⟨⟨hL.isOpen.of_same hsame, hlength, hout, ?_⟩, fun h => ?_, fun _ => rfl⟩
      · exact .waiting p (hrecord.records h) hcallback hqos hunsent rfl
      · obtain ⟨q, hq, hcompletes'⟩ := hok h.1 h.2
        rw [hwaiting, List.mem_singleton] at hq
        exact absurd (hq ▸ hcompletes') hcompletes

/-- The receive callback of an acknowledgement: what it leads to, and the answer at the end. -/
theorem react_acknowledge (hL : L.Inv) (a : Acknowledgement) :
    ∃ actions, L.client.react program signed (Exchange.acknowledge a).event =
        (((L.client.load a.packet.bytes).handle program signed 0 0 a.id (some a.type)).1.sendOutbound.1, actions) ∧
      ∀ {β : Type} (f : Action → Option β), (∀ indices, f (.read indices) = none) →
        (∀ offset count, f (.copied offset count) = none) →
        actions.filterMap f =
          ((L.client.load a.packet.bytes).handle program signed 0 0 a.id (some a.type)).2.filterMap f ++
          ((L.client.load a.packet.bytes).handle program signed 0 0 a.id (some a.type)).1.sendOutbound.2.filterMap f := by
  have hlength := a.length_packet_le
  have hcells := load_cells L.client hlength
  have hlast : ¬ (L.client.load a.packet.bytes).Another signed a.packet.bytes.length := by
    rw [@another_iff _ _ _ (.control a.packet) a.packet.bytes.length hcells le_rfl hlength]
    exact fun h => lt_irrefl _ h.2
  have hreact : L.client.react program signed (Exchange.acknowledge a).event =
      L.client.received program signed a.packet.bytes :=
    if_pos ⟨hL.isOpen.receiving.espconn, hL.isOpen.receiving.link⟩
  have htake : ∀ {β : Type} (f : Action → Option β), (∀ indices, f (.read indices) = none) → _ :=
    fun {β} f hf => @packet_take signed _ _ program (.control a.packet) a.packet.bytes.length hcells le_rfl hlength
      _ f hf
  have hstate := (htake (fun _ => (none : Option Unit)) fun _ => rfl).1
  have hhandle : (L.client.load a.packet.bytes).take program signed a.packet.bytes.length (.control a.packet) =
      (L.client.load a.packet.bytes).handle program signed 0 0 a.id (some a.type) := by
    have hmem := a.type_mem
    have hid := a.id_value
    cases htype : a.type with
    | puback | pubrec | pubcomp =>
      rw [← hid (by rw [htype]; decide), ← htype]
      rfl
    | suback | pingresp =>
      show handle program signed (L.client.load a.packet.bytes) 0 0 _ (some a.type) = _
      rw [htype]
      rfl
    | _ =>
      rw [htype] at hmem
      exact absurd hmem (by decide)
  rw [hhandle] at hstate
  have hreceived : L.client.received program signed a.packet.bytes = _ :=
    readPacket_last hL.isOpen.receiving.state hlast
  rw [hreact, hreceived, hstate]
  refine ⟨_, rfl, ?_⟩
  intro β f hread hcopied
  have hactions := (htake f hread).2
  rw [hhandle] at hactions
  rw [List.cons_append, List.filterMap_cons_none (hcopied _ _), List.filterMap_append, hactions]

theorem follow_of_handed {r r' r'' : Client × List Action} (hclient : r.1 = r''.1)
    (hhanded : r.2.filterMap Action.handed? = r'.2.filterMap Action.handed? ++ r''.2.filterMap Action.handed?) :
    L.follow r = (L.follow r').follow r'' := by
  unfold follow
  rw [hhanded, hclient, List.filterMap_append]
  simp only [List.append_assoc]

/-- What an acknowledgement leads to, up to the answer. -/
structure Handled (program : Program) (L : Ledger) (a : Acknowledgement) (r : Client × List Action) : Prop where
  inv : ((L.arrive (.acknowledge a)).1.follow r).Inv
  pubacks : r.2.filterMap Action.puback? = (L.arrive (.acknowledge a)).2.filterMap Publication.callback
  calls : EventCalls Hands program L (.acknowledge a)

/-- The acknowledgement of a publish with a callback. -/
def Due (L : Ledger) (a : Acknowledgement) : Prop := (a.type = .puback ∨ a.type = .pubcomp) ∧ L.client.Matches a.id

theorem not_due {a : Acknowledgement} (htype : ¬ (a.type = .puback ∨ a.type = .pubcomp)) : ¬ L.Due a := fun h =>
  htype h.1

/-- No callback of a subscription runs for a message of another type. -/
theorem not_suback {a : Acknowledgement} (htype : a.type ≠ .suback) :
    ¬ (a.type = .suback ∧ L.client.subackRef = true) := fun h => htype h.1

theorem handled_call (hL : L.Inv) {a : Acknowledgement} (hok : L.Orderly program (.acknowledge a))
    (hrun : a.type = .suback ∧ L.client.subackRef = true ∨ L.Due a) {callback : Callback}
    (hdue : (L.arrive (.acknowledge a)).2.filterMap Publication.callback = (Action.puback? (.callback callback)).toList) :
    Handled program L a ((L.client.load a.packet.bytes).call program callback) := by
  set s := L.client.load a.packet.bytes with hs
  obtain ⟨hcalled, -, -⟩ := acknowledge_arrive hL a (s := { s with called := s.called + 1 })
    ⟨rfl, rfl, rfl, rfl, rfl, rfl, rfl, rfl, rfl⟩ ⟨rfl, rfl, rfl, rfl⟩ rfl rfl hok.2.2
  obtain ⟨hinv, hhands, hpubacks⟩ := call_inv hcalled (hok.1 _ ⟨hrun, rfl⟩) callback
  refine ⟨hinv, hpubacks.trans hdue.symm, ?_⟩
  rintro c ⟨-, rfl⟩
  exact hhands

theorem handled_silent {a : Acknowledgement} {r : Client × List Action}
    (hinv : ((L.arrive (.acknowledge a)).1.follow r).Inv) (hpubacks : r.2.filterMap Action.puback? = [])
    (hdue : (L.arrive (.acknowledge a)).2 = []) (hsuback : ¬ (a.type = .suback ∧ L.client.subackRef = true))
    (hnot : ¬ L.Due a) : Handled program L a r := by
  refine ⟨hinv, ?_, ?_⟩
  · rw [hpubacks, hdue]
    rfl
  · rintro c ⟨hrun, -⟩
    exact absurd hrun (not_or.mpr ⟨hsuback, hnot⟩)

/-- PUBACK and PUBCOMP. -/
theorem handled_completion (hL : L.Inv) {a : Acknowledgement} (hok : L.Orderly program (.acknowledge a))
    (htype : a.type = .puback ∨ a.type = .pubcomp) :
    Handled program L a (if L.client.pendingType = some .publish ∧ L.client.pendingId = a.id then
      (L.client.load a.packet.bytes).callPuback program else (L.client.load a.packet.bytes, [])) := by
  obtain ⟨hloaded, hdue, hnone⟩ := acknowledge_arrive hL a (load_same L.client a.packet.bytes) ⟨rfl, rfl, rfl, rfl⟩ rfl
    rfl hok.2.2
  have hsuback := not_suback (L := L) (a := a) fun hsub => absurd (hsub ▸ htype) (by decide)
  have hsilent : ¬ L.client.Matches a.id → Handled program L a (L.client.load a.packet.bytes, []) := by
    intro hnot
    refine handled_silent ?_ rfl (hnone fun h => hnot h.2) hsuback fun h => hnot h.2
    rw [follow_silent (List.forall_mem_nil _)]
    exact hloaded
  split_ifs with hrecord
  · unfold callPuback
    have href : (L.client.load a.packet.bytes).pubackRef = L.client.pubackRef := rfl
    rw [href]
    cases hn : L.client.pubackRef with
    | none =>
      refine hsilent fun h => ?_
      have hsome := h.2.2
      rw [hn] at hsome
      cases hsome
    | some n =>
      have hmatches : L.client.Matches a.id := ⟨hrecord.1, hrecord.2, by rw [hn]; rfl⟩
      have hself : (L.client.load a.packet.bytes).selfRef = true := hL.isOpen.selfRef
      dsimp only
      rw [if_pos hself]
      refine handled_call hL hok (.inr ⟨htype, hmatches⟩) ((hdue ⟨htype, hmatches⟩).trans ?_)
      rw [hn]
      rfl
  · exact hsilent fun h => hrecord ⟨h.1, h.2.1⟩

theorem handle_acknowledge (hL : L.Inv) (a : Acknowledgement) (hok : L.Orderly program (.acknowledge a)) :
    Handled program L a ((L.client.load a.packet.bytes).handle program signed 0 0 a.id (some a.type)) := by
  obtain ⟨hloaded, -, hnone⟩ := acknowledge_arrive hL a (load_same L.client a.packet.bytes) ⟨rfl, rfl, rfl, rfl⟩ rfl
    rfl hok.2.2
  have hmem := a.type_mem
  cases htype : a.type with
  | suback =>
    have hnot : ¬ L.Due a := not_due (by rw [htype]; decide)
    rw [handle]
    split_ifs with hrefs
    · refine handled_call hL hok (.inl ⟨htype, hrefs.1⟩) ?_
      rw [hnone hnot]
      rfl
    · refine handled_silent ?_ rfl (hnone hnot) (fun h => hrefs ⟨h.2, hL.isOpen.selfRef⟩) hnot
      rw [follow_silent (List.forall_mem_nil _)]
      exact hloaded
  | puback => exact handled_completion hL hok (.inl htype)
  | pubcomp => exact handled_completion hL hok (.inr htype)
  | pubrec =>
    have hnot : ¬ L.Due a := not_due (by rw [htype]; decide)
    have hsuback := not_suback (L := L) (a := a) (by rw [htype]; decide)
    refine handled_silent ?_ rfl (hnone hnot) hsuback hnot
    rw [handle, build, follow_silent (r := (_, [.wrote _ _])) (List.forall_mem_singleton.mpr rfl)]
    refine hloaded.with_client ?_ ⟨rfl, rfl, rfl, rfl⟩ rfl fun _ => hok.2.1 htype
    exact build_same (Connection.mqttMsgId_bufferLength _ _ _ _)
  | pingresp =>
    have hnot : ¬ L.Due a := not_due (by rw [htype]; decide)
    have hsuback := not_suback (L := L) (a := a) (by rw [htype]; decide)
    refine handled_silent ?_ rfl (hnone hnot) hsuback hnot
    show ((L.arrive (.acknowledge a)).1.follow (L.client.load a.packet.bytes, [])).Inv
    rw [follow_silent (List.forall_mem_nil _)]
    exact hloaded
  | _ =>
    rw [htype] at hmem
    exact absurd hmem (by decide)

theorem acknowledge_kept (hL : L.Inv) (a : Acknowledgement) (hok : L.Orderly program (.acknowledge a)) :
    Kept program signed L (.acknowledge a) := by
  have hhandled := @handle_acknowledge L program signed hL a hok
  obtain ⟨actions, hreact, hfilter⟩ := @react_acknowledge L program signed hL a
  generalize (L.client.load a.packet.bytes).handle program signed 0 0 a.id (some a.type) = r at hhandled hreact hfilter
  refine kept_of_react hL _ ?_ ?_ hhandled.calls
  · have hhanded := hfilter Action.handed? (fun _ => rfl) fun _ _ => rfl
    rw [hreact, @follow_of_handed _ (r.1.sendOutbound.1, actions) _ r.1.sendOutbound rfl hhanded]
    exact hhandled.inv.sendOutbound
  · rw [hreact]
    dsimp only
    rw [hfilter Action.puback? (fun _ => rfl) fun _ _ => rfl, hhandled.pubacks,
      pubacks_eq_nil (sendOutbound_actions ofCalls_puback), List.append_nil]

theorem orderly_kept (hL : L.Inv) (x : Exchange) (hok : L.Orderly program x) : Kept program signed L x := by
  cases x with
  | call o => exact call_kept hL o hok
  | tick => exact tick_kept hL hok
  | sent count => exact sent_kept hL count hok
  | acknowledge a => exact acknowledge_kept hL a hok

end Ledger

/-! ### Runs -/

/-- A client that espconn knows has its own reference, and one with a link has noted the connection. -/
structure Client.Linked (s : Client) : Prop where
  selfRef : s.espconn = true → s.selfRef = true
  connected : s.link = true → s.connected = true

namespace Client

variable {program : Program} {signed : Signed} {s s' : Client}

theorem Linked.of_same (h : SameSession s s') (hs : s.Linked) : s'.Linked := by
  refine ⟨fun h' => ?_, fun h' => ?_⟩
  · rw [h.espconn] at h'
    exact h.selfRef.trans (hs.selfRef h')
  · rw [h.link] at h'
    exact h.connected.trans (hs.connected h')

theorem received_linked (hs : s.Linked) (pdata : List UInt8) : (s.received program signed pdata).1.Linked := by
  unfold received
  by_cases hsending : s.state = .connectSending
  · rw [readPacket_sending hsending]
    have hloaded : ∀ state, ({ s.load pdata with state := state } : Client).Linked :=
      fun state => ⟨hs.selfRef, hs.connected⟩
    unfold accept
    dsimp only
    split_ifs
    · exact (hloaded .init).of_same (sendOutbound_same _)
    · exact (hloaded .data).of_same (call_same program _ .connect)
    · exact hloaded .data
  · by_cases hdata : s.state = .data
    · have hsame := (@readPacket_data s (fun _ => True) program signed (pdata.length + 1) 0 pdata hdata
        ⟨⟨fun _ _ => trivial, fun _ _ => trivial, trivial, fun _ => trivial⟩, fun _ => trivial,
          fun _ _ => trivial, trivial, fun _ => trivial⟩ fun _ _ => trivial).1
      exact Linked.of_same hsame ⟨hs.selfRef, hs.connected⟩
    · rw [readPacket_idle hsending hdata]
      exact ⟨hs.selfRef, hs.connected⟩

theorem react_linked (hs : s.Linked) (e : Event) : (s.react program signed e).1.Linked := by
  cases e with
  | operation o => exact hs.of_same (operate_same s o)
  | connect callback memory =>
    cases memory with
    | both => exact ⟨fun _ => rfl, fun h => absurd h Bool.false_ne_true⟩
    | _ => exact ⟨fun h => absurd h Bool.false_ne_true, fun h => absurd h Bool.false_ne_true⟩
  | tcpConnected =>
    rw [react]
    split_ifs
    · have hsent : ∀ c : Connection, ({ s with connected := true, link := true, connection := c, outbound := true }.transmit
          none).1.Linked := by
        intro c
        refine Linked.of_same (transmit_same _ none) ?_
        exact ⟨hs.selfRef, fun _ => rfl⟩
      exact ⟨(hsent _).selfRef, (hsent _).connected⟩
    · exact hs
  | received pdata =>
    rw [react]
    split_ifs
    · exact received_linked hs pdata
    · exact hs
  | sent count =>
    rw [react]
    split_ifs
    · have hnoted : ∀ inFlight sendTimeout,
          ({ s with inFlight := inFlight, sendTimeout := sendTimeout } : Client).Linked :=
        fun _ _ => ⟨hs.selfRef, hs.connected⟩
      unfold socketSent
      dsimp only
      split_ifs
      · exact hnoted _ _
      · exact (hnoted _ _).of_same (callPuback_same program _)
      · exact hnoted _ _
    · exact hs
  | tick =>
    rw [react]
    split_ifs
    · exact hs.of_same (socketTimer_same s)
    · exact hs
  | disconnected =>
    rw [react]
    split_ifs
    · refine ⟨fun h => absurd h Bool.false_ne_true, fun h => ?_⟩
      have hlink : (s.socketDisconnected program).1.link = false := by
        unfold socketDisconnected
        dsimp only
        split_ifs
        · exact (call_same program _ .offline).link
        · rfl
      exact absurd (hlink.symm.trans h) Bool.false_ne_true
    · exact hs

theorem client_linked (program : Program) (signed : Signed) (s : Client) (e : Event) (hs : s.Linked) :
    ((client program signed).next s e).Linked := by
  unfold Machine.next client
  dsimp only
  split_ifs
  · exact hs
  · exact react_linked hs e

end Client

/-- The ledger of a client before its first publish with a callback. -/
def Ledger.opening (s : Client) : Ledger := ⟨s, List.replicate s.inFlight none, []⟩

theorem Ledger.opening_inv {s : Client} (hs : s.Open) (href : s.pubackRef = none) : (opening s).Inv := by
  have hfires : ¬ s.Fires := fun h => by
    have hsome := h.2.2
    rw [href] at hsome
    cases hsome
  refine ⟨hs, List.length_replicate, fun _ => hfires, .settled ?_ fun h => absurd h hfires⟩
  refine unfinished_eq_nil_iff.mpr ⟨?_, rfl⟩
  rw [List.filterMap_eq_nil_iff]
  intro publication hpublication
  rw [List.eq_of_mem_replicate hpublication]
  rfl

/-- A publish with a callback. -/
def observed (qos : Nat) : Exchange := .call (.publish [116] [112] qos 0 (some 7))

/-- The PUBACK for the first message of a session. -/
def puback : Acknowledgement := ⟨.puback, 1, [], by decide, by decide, fun _ => rfl, by decide⟩

end EspClock.Mqtt
