import EspClock.Mqtt.Builder
import EspClock.Mqtt.Segments

/-!
# A published message read back

The PUBLISH message that `mqtt_msg_publish` builds is a well-formed packet, so every function that takes a
received message apart finds in it what the builder was given, whatever follows it in the buffer.
-/

namespace EspClock.Mqtt

open Mem Reads Connection

/-- A place in the buffer that holds exactly this text. -/
def FindsText (cells text : List UInt8) (place : Option Nat × Nat) : Prop :=
  ∃ i, place = (some i, text.length) ∧ (cells.drop i).take text.length = text

/-- What the getters find in the first bytes of a buffer. -/
structure ReadBack (signed : Signed) (cells : List UInt8) (length total : Nat) (topic payload : List UInt8)
    (qos : Nat) (retain : Bool) (id : Nat) : Prop where
  totalLength : (mqttGetTotalLength signed length).value cells = (total : Int)
  topic : FindsText cells topic ((mqttGetPublishTopic signed length).value cells)
  data : FindsText cells payload ((mqttGetPublishData signed length).value cells)
  type : mqttGetType.value cells = some .publish
  qos : mqttGetQos.value cells = qos
  retain : mqttGetRetain.value cells = retain.toNat
  id : (mqttGetId length).value cells = id

/-! ### The packet -/

namespace Publish

variable (more : List UInt8)

theorem retain_value (p : Publish) : mqttGetRetain.value (p.bytes ++ more) = p.retain.toNat := by
  have hbyte : (cell 0).value (p.bytes ++ more) = p.flags := rfl
  have hretain := p.retain.toNat_le
  rw [mqttGetRetain, value_bind, hbyte, value_pure, flags_toNat]
  omega

/-- The fields of a packet with a payload. -/
theorem readBack (signed : Signed) (p : Publish) (hpayload : p.payload ≠ []) {length : Nat}
    (hlength : p.bytes.length ≤ length) (hfits : p.bytes.length < 2 ^ 31) :
    ReadBack signed (p.bytes ++ more) length p.bytes.length p.topic p.payload p.qos p.retain
      (if p.qos = 0 then 0 else p.id) where
  totalLength := p.totalLength_value more hlength hfits
  topic := ⟨_, p.topic_value more hlength hfits, p.topic_slice more⟩
  data := by
    have hdata := @data_value signed more p length hlength hfits
    rw [dataPlace, if_neg fun h => hpayload h.1] at hdata
    exact ⟨_, hdata, p.payload_slice more⟩
  type := p.type_value more
  qos := p.qos_value more
  retain := p.retain_value more
  id := by
    rw [p.id_value more hlength, idFound]
    simp only [hpayload, false_and, or_false]

end Publish

/-! ### The builder -/

namespace Connection

variable {c : Connection} {topic payload : List UInt8} {qos : Nat}

/-- The packet it is. -/
theorem mqttMsgPublish_packet (hbuffer : c.bufferLength = 1024) (htopic : topic ≠ []) (hqos : qos ≤ 2)
    (hfits : 3 + publishRemaining topic payload qos ≤ 1024) (retain : Bool) (messageId : Nat) :
    ∃ p : Publish, (c.mqttMsgPublish topic payload qos retain.toNat messageId).1.message = p.bytes ∧
      (c.mqttMsgPublish topic payload qos retain.toNat messageId).2 = (if p.qos = 0 then 0 else p.id) ∧
      p.topic = topic ∧ p.payload = payload ∧ p.qos = qos ∧ p.retain = retain := by
  obtain ⟨built, hbuilt, heq⟩ := mqttMsgPublish_built hbuffer htopic hfits retain.toNat messageId
  have hmessage := hbuilt.message_finiMessage .publish 0 qos retain.toNat
  rw [length_publishBody] at hmessage
  have hfits' := hfits
  rw [publishRemaining] at hfits'
  have hretain := retain.toNat_le
  have hcontinued : publishRemaining topic payload qos <
      128 ^ ((if publishRemaining topic payload qos < 128 then 0 else 1) + 1) := by
    split_ifs
    · omega
    · omega
  let p : Publish := {
    dup := false, qos := qos, retain := retain,
    continued := if publishRemaining topic payload qos < 128 then 0 else 1,
    topic := topic, id := nextId c.messageId, payload := payload,
    qos_lt := by omega, continued_lt := by split_ifs <;> omega, topic_ne := htopic, topic_lt := by omega,
    id_pos := nextId_pos _, id_lt := nextId_lt _, remaining_lt := hcontinued }
  have hflags : header .publish 0 qos retain.toNat = p.flags := by
    change UInt8.ofNat (3 * 16 + 0 % 2 * 8 + qos % 4 * 2 + retain.toNat % 2) = UInt8.ofNat (48 + 0 * 8 + qos * 2 + retain.toNat)
    congr 1
    omega
  have hremaining : p.remaining = publishRemaining topic payload qos := by
    rw [Publish.remaining, p.length_identifier]
    rfl
  have hidentifier : p.identifier = if qos = 0 then [] else word (c.assigned qos) := by
    by_cases hzero : qos = 0
    · rw [if_pos hzero, Publish.identifier, if_pos hzero]
    · rw [if_neg hzero, Publish.identifier, if_neg hzero, assigned, if_neg hzero]
  refine ⟨p, ?_, ?_, rfl, rfl, rfl, rfl⟩
  · rw [heq, hmessage, Publish.bytes, Publish.fixedHeader, hremaining, hidentifier, ← hflags]
    simp [publishBody, encodeString, p]
  · rw [heq]
    rfl

theorem mqttMsgPublish_length (hbuffer : c.bufferLength = 1024) (htopic : topic ≠ [])
    (hfits : 3 + publishRemaining topic payload qos ≤ 1024) (retain : Bool) (messageId : Nat) :
    (c.mqttMsgPublish topic payload qos retain.toNat messageId).1.length =
      (c.mqttMsgPublish topic payload qos retain.toNat messageId).1.message.length := by
  obtain ⟨built, hbuilt, heq⟩ := mqttMsgPublish_built hbuffer htopic hfits retain.toNat messageId
  rw [heq, hbuilt.length_finiMessage, hbuilt.message_finiMessage, packetLength]
  split_ifs
  · simp
    omega
  · simp
    omega

end Connection

/-- A message that fits the buffer is read back as it was given, with a message identifier that is not 0
exactly with QoS 1 and 2, whatever follows it. -/
theorem publish_read_back (signed : Signed) (c : Connection) (topic payload : List UInt8) (qos : Nat) (retain : Bool)
    (messageId : Nat) (hbuffer : c.bufferLength = 1024) (htopic : topic ≠ []) (hpayload : payload ≠ [])
    (hqos : qos ≤ 2) (hfits : packetLength (publishRemaining topic payload qos) ≤ 1024) (more : List UInt8)
    (length : Nat) (hlength : (c.mqttMsgPublish topic payload qos retain.toNat messageId).1.length ≤ length) :
    ReadBack signed ((c.mqttMsgPublish topic payload qos retain.toNat messageId).1.message ++ more) length
        (c.mqttMsgPublish topic payload qos retain.toNat messageId).1.length topic payload qos retain
        (c.mqttMsgPublish topic payload qos retain.toNat messageId).2 ∧
      (c.mqttMsgPublish topic payload qos retain.toNat messageId).1.length =
        packetLength (publishRemaining topic payload qos) ∧
      (0 < qos ↔ (c.mqttMsgPublish topic payload qos retain.toNat messageId).2 ≠ 0) := by
  have hroom : 3 + publishRemaining topic payload qos ≤ 1024 := by
    unfold packetLength at hfits
    split_ifs at hfits
    · omega
    · omega
  obtain ⟨p, hmessage, hid, rfl, rfl, rfl, rfl⟩ :=
    mqttMsgPublish_packet hbuffer htopic hqos hroom retain messageId
  obtain ⟨built, hbuilt, heq⟩ :=
    mqttMsgPublish_built hbuffer htopic hroom p.retain.toNat messageId
  have htotal : (c.mqttMsgPublish p.topic p.payload p.qos p.retain.toNat messageId).1.length =
      packetLength (publishRemaining p.topic p.payload p.qos) := by
    rw [heq, hbuilt.length_finiMessage, length_publishBody]
  have hsame := mqttMsgPublish_length hbuffer htopic hroom p.retain messageId
  rw [hmessage] at hsame
  refine ⟨?_, htotal, ?_⟩
  · rw [hmessage, hid, hsame]
    exact p.readBack more signed hpayload (by omega) (by omega)
  · rw [hid]
    have hpos := p.id_pos
    split_ifs
    · omega
    · omega

/-- The message `on` to the topic `t` with QoS 1, with two bytes of another one behind it. -/
theorem publish_read_back_retained :
    ReadBack wide ((Connection.fresh.mqttMsgPublish [116] [111, 110] 1 true.toNat 0).1.message ++ [48, 9]) 11
        (Connection.fresh.mqttMsgPublish [116] [111, 110] 1 true.toNat 0).1.length [116] [111, 110] 1 true
        (Connection.fresh.mqttMsgPublish [116] [111, 110] 1 true.toNat 0).2 ∧
      (Connection.fresh.mqttMsgPublish [116] [111, 110] 1 true.toNat 0).1.length =
        packetLength (publishRemaining [116] [111, 110] 1) ∧
      (0 < 1 ↔ (Connection.fresh.mqttMsgPublish [116] [111, 110] 1 true.toNat 0).2 ≠ 0) :=
  publish_read_back wide .fresh [116] [111, 110] 1 true 0 rfl (by decide) (by decide) (by decide) (by decide)
    [48, 9] 11 (by decide +kernel)

end EspClock.Mqtt
