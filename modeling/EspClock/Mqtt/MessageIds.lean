import EspClock.Lib.Run
import EspClock.Mqtt.BuilderBounds
import EspClock.Mqtt.Frame

/-!
# Message identifiers

All builders draw their identifiers from one 16-bit counter of the connection, which skips zero and which nothing but a
drawn identifier moves. So the identifiers run around the numbers from 1 to 65535, and none comes back before all others
were there.
-/

namespace EspClock.Mqtt

/-- The loop of `append_message_id`: the counter, the identifier and the number of rounds, if no more rounds than `fuel`
are needed. -/
def assignLoop : Nat → Nat → Nat → Option (Nat × Nat × Nat)
  | 0, counter, messageId => if messageId = 0 then none else some (counter, messageId, 0)
  | fuel + 1, counter, messageId =>
    if messageId = 0 then
      let next := (counter + 1) % 65536
      (assignLoop fuel next next).map fun (counter, messageId, rounds) => (counter, messageId, rounds + 1)
    else some (counter, messageId, 0)

namespace Connection

/-- The identifier that a builder hands to `append_message_id`, if it gets there. -/
def asked (c : Connection) : Request → Option Nat
  | .publish topic _ qos _ _ =>
    if topic ≠ [] ∧ 3 + topic.length + 2 ≤ c.bufferLength ∧ 0 < qos then some 0 else none
  | .subscribe topic _ _ | .unsubscribe topic _ => if topic ≠ [] then some 0 else none
  | .puback messageId | .pubrec messageId | .pubrel messageId | .pubcomp messageId => some messageId
  | .connect _ | .pingreq | .pingresp | .disconnect => none

/-! ### The counter -/

variable {c c' : Connection}

theorem assignLoop_eq (c : Connection) (messageId : Nat) :
    ∃ rounds ≤ 2, ∀ fuel, 2 ≤ fuel →
      assignLoop fuel c.messageId messageId = some ((c.assignId messageId).1.messageId, (c.assignId messageId).2, rounds) := by
  by_cases hzero : messageId = 0
  · by_cases hwrap : (c.messageId + 1) % 65536 = 0
    · refine ⟨2, le_rfl, fun fuel hfuel => ?_⟩
      obtain ⟨fuel, rfl⟩ : ∃ n, fuel = n + 2 := ⟨fuel - 2, by omega⟩
      have hone : assignLoop fuel 1 1 = some (1, 1, 0) := by cases fuel <;> rfl
      simp [assignLoop, assignId, nextId, hzero, hwrap, hone]
    · refine ⟨1, by decide, fun fuel hfuel => ?_⟩
      obtain ⟨fuel, rfl⟩ : ∃ n, fuel = n + 2 := ⟨fuel - 2, by omega⟩
      simp [assignLoop, assignId, nextId, hzero, hwrap]
  · refine ⟨0, by decide, fun fuel hfuel => ?_⟩
    obtain ⟨fuel, rfl⟩ : ∃ n, fuel = n + 2 := ⟨fuel - 2, by omega⟩
    simp [assignLoop, assignId, hzero]

theorem assignId_messageId (c : Connection) (messageId : Nat) :
    (c.assignId messageId).1.messageId = if messageId = 0 then nextId c.messageId else c.messageId := by
  unfold assignId
  split_ifs <;> rfl

/-- Whether there is room for the identifier or not, the counter is moved. -/
theorem appendMessageId_counter (h : c'.messageId = c.messageId) (messageId : Nat) :
    (∀ p, c'.appendMessageId messageId = .ok p → p.1.messageId = (c.assignId messageId).1.messageId) ∧
      ∀ e, c'.appendMessageId messageId = .error e → e.messageId = (c.assignId messageId).1.messageId := by
  have hcounter : (c'.assignId messageId).1.messageId = (c.assignId messageId).1.messageId := by
    rw [assignId_messageId, assignId_messageId, h]
  unfold appendMessageId
  dsimp only
  split_ifs
  · exact ⟨fun _ hok => (nomatch hok), fun e herror => Except.error.inj herror ▸ hcounter⟩
  · exact ⟨fun p hok => Except.ok.inj hok ▸ (apart_messageId.push _ _).trans hcounter, fun _ herror => (nomatch herror)⟩

theorem mqttMsgPublish_messageId (c : Connection) (topic data : List UInt8) (qos retain messageId : Nat) :
    (c.mqttMsgPublish topic data qos retain messageId).1.messageId =
      if topic ≠ [] ∧ 3 + topic.length + 2 ≤ c.bufferLength ∧ 0 < qos then nextId c.messageId else c.messageId := by
  unfold mqttMsgPublish
  dsimp only
  by_cases hempty : topic = []
  · rw [if_pos hempty, if_neg fun h => h.1 hempty]
    rfl
  · rw [if_neg hempty]
    cases hstring : c.initMessage.appendString topic with
    | error c' =>
      rw [appendString] at hstring
      split_ifs at hstring with hroom
      have hlarge : ¬ 3 + topic.length + 2 ≤ c.bufferLength := not_le.mpr hroom
      rw [if_neg fun h => hlarge h.2.1, ← Except.error.inj hstring]
      rfl
    | ok c' =>
      have hkeeps := apart_messageId.appendString (show c.initMessage.messageId = c.messageId from rfl) topic
      rw [hstring] at hkeeps
      rw [appendString] at hstring
      split_ifs at hstring with hroom
      have hfits : 3 + topic.length + 2 ≤ c.bufferLength := not_lt.mp hroom
      obtain ⟨hok, herror⟩ := appendMessageId_counter hkeeps 0
      rw [assignId_messageId, if_pos rfl] at hok herror
      dsimp only
      by_cases hqos : qos > 0
      · rw [if_pos hqos, if_pos ⟨hempty, hfits, hqos⟩]
        cases hassigned : c'.appendMessageId 0 with
        | error e => exact herror e hassigned
        | ok p => exact (apart_messageId.fini (apart_messageId.appendData rfl data) _ _ _ _).trans (hok p hassigned)
      · rw [if_neg hqos, if_neg fun h => hqos h.2.2]
        exact (apart_messageId.fini (apart_messageId.appendData rfl data) _ _ _ _).trans hkeeps

/-- The builders of SUBSCRIBE and UNSUBSCRIBE differ in what stands behind the topic. -/
theorem subscription_messageId (c : Connection) {rest : Connection → Except Connection Connection}
    (hrest : ∀ c : Connection, c.Keeps Connection.messageId (rest c)) :
    (match c.initMessage.appendMessageId 0 with
      | .error c => (c.failMessage, 0)
      | .ok (c, messageId) => (fini .subscribe 0 1 0 (rest c), messageId)).1.messageId = nextId c.messageId := by
  obtain ⟨hok, herror⟩ := appendMessageId_counter (show c.initMessage.messageId = c.messageId from rfl) 0
  rw [assignId_messageId, if_pos rfl] at hok herror
  cases hassigned : c.initMessage.appendMessageId 0 with
  | error e => exact herror e hassigned
  | ok p => exact (apart_messageId.fini (hrest p.1) _ _ _ _).trans (hok p hassigned)

theorem mqttMsgId_messageId (c : Connection) (type : MessageType) (qos messageId : Nat) :
    (c.mqttMsgId type qos messageId).messageId = (c.assignId messageId).1.messageId := by
  obtain ⟨hok, herror⟩ := appendMessageId_counter (show c.initMessage.messageId = c.messageId from rfl) messageId
  unfold mqttMsgId
  cases hassigned : c.initMessage.appendMessageId messageId with
  | error e => exact herror e hassigned
  | ok p => exact (apart_messageId.finiMessage p.1 _ _ _ _).trans (hok p hassigned)

/-- Only the call of `append_message_id` moves the counter. -/
theorem build_messageId (c : Connection) (r : Request) :
    (c.build r).messageId = (c.asked r).elim c.messageId fun messageId => (c.assignId messageId).1.messageId := by
  cases r with
  | connect info => exact apart_messageId.mqttMsgConnect rfl info
  | publish topic data qos retain messageId =>
    refine (mqttMsgPublish_messageId c topic data qos retain messageId).trans ?_
    rw [asked]
    split_ifs
    · rfl
    · rfl
  | subscribe topic qos messageId =>
    show (c.mqttMsgSubscribe topic qos messageId).1.messageId = _
    rw [mqttMsgSubscribe, asked]
    by_cases hempty : topic = []
    · rw [if_pos hempty, if_neg (not_not.mpr hempty)]
      rfl
    · rw [if_neg hempty, if_pos hempty]
      exact subscription_messageId c fun _ => (apart_messageId.appendString rfl topic).bind fun _ h =>
        apart_messageId.appendData h _
  | unsubscribe topic messageId =>
    show (c.mqttMsgUnsubscribe topic messageId).1.messageId = _
    rw [mqttMsgUnsubscribe, asked]
    by_cases hempty : topic = []
    · rw [if_pos hempty, if_neg (not_not.mpr hempty)]
      rfl
    · rw [if_neg hempty, if_pos hempty]
      exact subscription_messageId c fun _ => apart_messageId.appendString rfl topic
  | puback messageId => exact mqttMsgId_messageId c _ _ messageId
  | pubrec messageId => exact mqttMsgId_messageId c _ _ messageId
  | pubrel messageId => exact mqttMsgId_messageId c _ _ messageId
  | pubcomp messageId => exact mqttMsgId_messageId c _ _ messageId
  | pingreq => exact apart_messageId.finiMessage c.initMessage _ _ _ _
  | pingresp => exact apart_messageId.finiMessage c.initMessage _ _ _ _
  | disconnect => exact apart_messageId.finiMessage c.initMessage _ _ _ _

/-! ### Once around -/

theorem nextId_eq {messageId : Nat} (hpos : 1 ≤ messageId) (hlt : messageId < 65536) :
    nextId messageId = messageId % 65535 + 1 := by
  unfold nextId
  split_ifs <;> omega

/-- The identifier that is drawn after some others. -/
theorem nextId_iterate {first : Nat} (hpos : 1 ≤ first) (hlt : first < 65536) (k : Nat) :
    nextId^[k] first = (first - 1 + k) % 65535 + 1 := by
  induction k with
  | zero => rw [Function.iterate_zero_apply, Nat.mod_eq_of_lt (by omega), Nat.add_zero, Nat.sub_add_cancel hpos]
  | succ k ih =>
    have hmod := Nat.mod_lt (first - 1 + k) (show 0 < 65535 by decide)
    rw [Function.iterate_succ_apply', ih, nextId_eq (by omega) (by omega)]
    omega

theorem nextId_iterate_ne {first i j : Nat} (hpos : 1 ≤ first) (hlt : first < 65536) (hij : i < j) (hnear : j < i + 65535) :
    nextId^[i] first ≠ nextId^[j] first := by
  rw [nextId_iterate hpos hlt, nextId_iterate hpos hlt]
  omega

end Connection

/-! ### Runs -/

inductive IdEvent where
  | build (r : Request)
  | init (bufferLength : Nat)

/-- The calls of `append_message_id`, each with the counter and the identifier that it is handed. -/
def identifiers : Machine Connection IdEvent (Nat × Nat) :=
  ⟨fun c e =>
    match e with
    | .build r => (c.build r, (c.asked r).toList.map fun messageId => (c.messageId, messageId))
    | .init bufferLength => (c.init bufferLength, [])⟩

/-- The identifier that a call assigns; none if its caller supplies one. -/
def assignedId (call : Nat × Nat) : Option Nat :=
  if call.2 = 0 then (assignLoop 2 call.1 call.2).map fun (_, messageId, _) => messageId else none

open Connection

theorem assignedId_eq (c : Connection) (messageId : Nat) :
    assignedId (c.messageId, messageId) = if messageId = 0 then some (nextId c.messageId) else none := by
  obtain ⟨rounds, -, hloop⟩ := assignLoop_eq c messageId
  rw [assignedId]
  by_cases hzero : messageId = 0
  · rw [if_pos hzero, if_pos hzero, hloop 2 le_rfl, assignId, if_pos hzero]
    rfl
  · rw [if_neg hzero, if_neg hzero]

/-- A step assigns nothing and leaves the counter, or it assigns the next identifier and leaves that. -/
theorem identifiers_step (c : Connection) (e : IdEvent) :
    ((identifiers.actions c e).filterMap assignedId = [] ∧ (identifiers.next c e).messageId = c.messageId) ∨
      ((identifiers.actions c e).filterMap assignedId = [nextId c.messageId] ∧
        (identifiers.next c e).messageId = nextId c.messageId) := by
  cases e with
  | init bufferLength => exact Or.inl ⟨rfl, rfl⟩
  | build r =>
    have hcounter : (identifiers.next c (.build r)).messageId = _ := build_messageId c r
    have hactions : identifiers.actions c (.build r) = (c.asked r).toList.map fun messageId => (c.messageId, messageId) := rfl
    rw [hcounter, hactions]
    cases c.asked r with
    | none => exact Or.inl ⟨rfl, rfl⟩
    | some messageId =>
      rw [Option.toList_some, List.map_singleton, Option.elim_some, assignId_messageId, List.filterMap_cons, assignedId_eq]
      by_cases hzero : messageId = 0
      · rw [if_pos hzero, if_pos hzero]
        exact Or.inr ⟨rfl, rfl⟩
      · rw [if_neg hzero, if_neg hzero]
        exact Or.inl ⟨rfl, rfl⟩

/-- The assigned identifiers of a run are drawn one after the other. -/
theorem assigned_trace (c : Connection) (events : List IdEvent) :
    ∃ n, (identifiers.trace c events).filterMap assignedId = (List.range n).map fun k => nextId^[k] (nextId c.messageId) := by
  induction events generalizing c with
  | nil => exact ⟨0, rfl⟩
  | cons e events ih =>
    obtain ⟨n, hrest⟩ := ih (identifiers.next c e)
    rw [Machine.trace_cons, List.filterMap_append, hrest]
    obtain ⟨hnothing, hcounter⟩ | ⟨hone, hcounter⟩ := identifiers_step c e
    · rw [hnothing, hcounter]
      exact ⟨n, rfl⟩
    · refine ⟨n + 1, ?_⟩
      rw [hone, hcounter, List.range_succ_eq_map, List.map_cons, List.map_map]
      rfl

end EspClock.Mqtt
