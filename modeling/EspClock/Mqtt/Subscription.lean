import EspClock.Mqtt.Connect

/-!
# SUBSCRIBE and UNSUBSCRIBE

Decoders for the two packets after MQTT 3.1.1: a fixed header whose flags are reserved, an identifier that is
not 0, and the topic filters, each of them followed by a QoS in a SUBSCRIBE packet only. Strings are bytes
here. `mqtt_msg_subscribe` builds a SUBSCRIBE packet. `mqtt_msg_unsubscribe` writes the header of a SUBSCRIBE
packet too, in front of a topic without a QoS, so its packet is neither of the two.
-/

namespace EspClock.Mqtt

/-! ### Decoding -/

/-- Items up to the end of the bytes. None of them is empty, so there are no more items than bytes. -/
def takeAll {α : Type} (take : List UInt8 → Option (α × List UInt8)) : Nat → List UInt8 → Option (List α)
  | _, [] => some []
  | 0, _ :: _ => none
  | left + 1, bytes => do
    let (item, bytes) ← take bytes
    let items ← takeAll take left bytes
    pure (item :: items)

def takeFilter (bytes : List UInt8) : Option (List UInt8 × List UInt8) := do
  let (topic, bytes) ← takeString bytes
  guard (topic ≠ [])
  pure (topic, bytes)

def takeSubscription (bytes : List UInt8) : Option ((List UInt8 × Nat) × List UInt8) := do
  let (topic, bytes) ← takeFilter bytes
  let (qos, bytes) ← takeByte bytes
  guard (qos.toNat ≤ 2)
  pure ((topic, qos.toNat), bytes)

/-- A packet has an identifier that is not 0, and an item at least. -/
def checkItems {α : Type} (id : Nat) (items : List α) : Option (Nat × List α) :=
  if id ≠ 0 ∧ items ≠ [] then some (id, items) else none

/-- The identifier and the items of a packet that is nothing but a packet of this type. -/
def decodeItems {α : Type} (type : UInt8) (take : List UInt8 → Option (α × List UInt8)) (bytes : List UInt8) :
    Option (Nat × List α) := do
  let (first, bytes) ← takeByte bytes
  let (remaining, bytes) ← takeLength 4 bytes
  guard (first = type ∧ remaining = bytes.length)
  let (id, bytes) ← takeWord bytes
  let items ← takeAll take bytes.length bytes
  checkItems id items

def decodeSubscribe : List UInt8 → Option (Nat × List (List UInt8 × Nat)) := decodeItems 0x82 takeSubscription

def decodeUnsubscribe : List UInt8 → Option (Nat × List (List UInt8)) := decodeItems 0xA2 takeFilter

/-! ### What the decoders read -/

section Reading

variable {α : Type} {type first : UInt8} {take : List UInt8 → Option (α × List UInt8)} {id n : Nat}
  {items : List UInt8} {topic : List UInt8}

theorem takeAll_singleton {item : α} {left : Nat} (hitems : items ≠ []) (hleft : 0 < left)
    (htake : take items = some (item, [])) : takeAll take left items = some [item] := by
  obtain ⟨left, rfl⟩ : ∃ k, left = k + 1 := ⟨left - 1, by omega⟩
  obtain ⟨b, bytes, rfl⟩ := List.exists_cons_of_ne_nil hitems
  simp [takeAll, htake]

theorem takeAll_none {left : Nat} (hitems : items ≠ []) (htake : take items = none) :
    takeAll take left items = none := by
  obtain ⟨b, bytes, rfl⟩ := List.exists_cons_of_ne_nil hitems
  cases left with
  | zero => rfl
  | succ left => simp [takeAll, htake]

theorem encodeString_ne_nil (string : List UInt8) : encodeString string ≠ [] := List.cons_ne_nil _ _

theorem takeFilter_append (htopic : topic ≠ []) (hlength : topic.length < 65536) (rest : List UInt8) :
    takeFilter (encodeString topic ++ rest) = some (topic, rest) := by
  simp [takeFilter, takeString_append topic hlength, htopic]

theorem takeSubscription_append {qos : Nat} (htopic : topic ≠ []) (hlength : topic.length < 65536) (hqos : qos ≤ 2)
    (rest : List UInt8) :
    takeSubscription (encodeString topic ++ (UInt8.ofNat qos :: rest)) = some ((topic, qos), rest) := by
  have hbyte : (UInt8.ofNat qos).toNat = qos := by rw [UInt8.toNat_ofNat']; omega
  simp only [takeSubscription, takeFilter_append htopic hlength, takeByte, Option.bind_eq_bind, Option.bind_some,
    hbyte]
  simp [hqos]

/-- A topic at the end of the bytes lacks its QoS. -/
theorem takeSubscription_topic (htopic : topic ≠ []) (hlength : topic.length < 65536) :
    takeSubscription (encodeString topic) = none := by
  have htake := takeFilter_append htopic hlength []
  rw [List.append_nil] at htake
  simp [takeSubscription, htake, takeByte]

/-- A packet with a length field of one byte or two. -/
theorem decodeItems_cons (hid : id < 65536) (hn : n = 2 + items.length) (hsmall : n < 16384) :
    decodeItems type take (first :: (lengthBytes (if n < 128 then 0 else 1) n ++ (word id ++ items))) =
      if first = type then
        (takeAll take items.length items).bind (checkItems id)
      else none := by
  have hlength : takeLength 4 (lengthBytes (if n < 128 then 0 else 1) n ++ (word id ++ items)) =
      some (n, word id ++ items) := by
    by_cases hshort : n < 128
    · rw [if_pos hshort]
      exact takeLength_append (by omega) (by decide) _
    · rw [if_neg hshort]
      exact takeLength_append (by omega) (by decide) _
  have hremaining : n = (word id ++ items).length := by rw [List.length_append, length_word, hn]
  unfold decodeItems
  simp only [takeByte, Option.bind_eq_bind, Option.bind_some, hlength]
  by_cases hfirst : first = type
  · rw [if_pos hfirst]
    simp only [hfirst, hremaining, true_and, guard_true, Option.pure_def, Option.bind_some, takeWord_append hid]
  · rw [if_neg hfirst]
    simp [hfirst]

end Reading

/-! ### The packets that are built -/

/-- A call for one topic, a C string by its bytes. -/
inductive Subscription where
  | subscribe (topic : List UInt8) (qos : Nat)
  | unsubscribe (topic : List UInt8)
  deriving DecidableEq

namespace Subscription

/-- The message that is built and the identifier assigned to it, which was `messageId` before. -/
def build (c : Connection) (messageId : Nat) : Subscription → Connection × Nat
  | subscribe topic qos => c.mqttMsgSubscribe topic qos messageId
  | unsubscribe topic => c.mqttMsgUnsubscribe topic messageId

/-- A topic that is not empty and fits the buffer with its packet, and a QoS there is. -/
def Fits : Subscription → Prop
  | subscribe topic qos => topic ≠ [] ∧ 0 ∉ topic ∧ topic.length + 8 ≤ 1024 ∧ qos ≤ 2
  | unsubscribe topic => topic ≠ [] ∧ 0 ∉ topic ∧ topic.length + 7 ≤ 1024

/-- The packet is the one that was asked for, with its identifier, and not the other one. -/
def Decodes (built : Connection × Nat) : Subscription → Prop
  | subscribe topic qos =>
    decodeSubscribe built.1.message = some (built.2, [(topic, qos)]) ∧ decodeUnsubscribe built.1.message = none
  | unsubscribe topic =>
    decodeUnsubscribe built.1.message = some (built.2, [topic]) ∧ decodeSubscribe built.1.message = none

end Subscription

namespace Connection

variable {c : Connection} {topic : List UInt8}

theorem mqttMsgSubscribe_id (htopic : topic ≠ []) (hbuffer : c.bufferLength = 1024) (qos messageId : Nat) :
    (c.mqttMsgSubscribe topic qos messageId).2 = nextId c.messageId := by
  have hempty : Built 1024 c.initMessage [] := hbuffer ▸ built_initMessage (by omega)
  obtain ⟨identified, hid, -⟩ := hempty.appendMessageId_ok le_rfl (by decide)
  unfold mqttMsgSubscribe
  simp only [if_neg htopic, hid]
  rfl

/-- The packet has the type of SUBSCRIBE and nothing behind the topic. -/
theorem mqttMsgUnsubscribe_built (hbuffer : c.bufferLength = 1024) (htopic : topic ≠ [])
    (hfits : topic.length + 7 ≤ 1024) (messageId : Nat) :
    ∃ built, Built 1024 built (word (nextId c.messageId) ++ encodeString topic) ∧
      c.mqttMsgUnsubscribe topic messageId = (built.finiMessage .subscribe 0 1 0, nextId c.messageId) := by
  have hempty : Built 1024 c.initMessage [] := hbuffer ▸ built_initMessage (by omega)
  obtain ⟨identified, hid, hidentified⟩ := hempty.appendMessageId_ok le_rfl (by decide)
  rw [List.nil_append] at hidentified
  obtain ⟨built, happend, hbuilt, -⟩ := hidentified.appendString_ok le_rfl topic
    (by rw [length_word]; omega)
  refine ⟨built, hbuilt, ?_⟩
  unfold mqttMsgUnsubscribe
  simp only [if_neg htopic, hid]
  rw [happend]
  rfl

/-- What a decoder reads of a message that starts with an identifier. -/
theorem Built.decodeItems_finiMessage {α : Type} {type : UInt8} {take : List UInt8 → Option (α × List UInt8)}
    {items : List UInt8} {id : Nat} (h : Built 1024 c (word id ++ items)) (hid : id < 65536) :
    decodeItems type take (c.finiMessage .subscribe 0 1 0).message =
      if (0x82 : UInt8) = type then
        (takeAll take items.length items).bind (checkItems id)
      else none := by
  have hfits := h.fits
  have hlength : (word id ++ items).length = 2 + items.length := by rw [List.length_append, length_word]
  rw [h.message_finiMessage]
  exact decodeItems_cons hid hlength (by omega)

end Connection

open Connection

theorem subscribe_decodes {c : Connection} (hbuffer : c.bufferLength = 1024) (messageId : Nat) {topic : List UInt8}
    {qos : Nat} (hfits : (Subscription.subscribe topic qos).Fits) :
    (Subscription.subscribe topic qos).Decodes ((Subscription.subscribe topic qos).build c messageId) := by
  obtain ⟨htopic, -, hlength, hqos⟩ := hfits
  have hid := nextId_lt c.messageId
  have hpos := (nextId_pos c.messageId).ne'
  obtain ⟨built, hbuilt, hmessage⟩ := mqttMsgSubscribe_built hbuffer htopic hlength qos messageId
  rw [List.append_assoc] at hbuilt
  have htake := takeSubscription_append htopic (by omega) hqos []
  have hitems : encodeString topic ++ [UInt8.ofNat qos] ≠ [] :=
    List.append_ne_nil_of_left_ne_nil (encodeString_ne_nil topic) _
  unfold Subscription.Decodes Subscription.build
  dsimp only
  rw [hmessage, mqttMsgSubscribe_id htopic hbuffer, decodeSubscribe, decodeUnsubscribe,
    hbuilt.decodeItems_finiMessage hid, hbuilt.decodeItems_finiMessage hid, if_pos rfl, if_neg (by decide)]
  rw [takeAll_singleton hitems (List.length_pos_iff.mpr hitems) htake]
  simp [checkItems, hpos]

/-- Without a QoS the packet is no SUBSCRIBE packet, and its type is not that of UNSUBSCRIBE. -/
theorem unsubscribe_decodes_none {c : Connection} (hbuffer : c.bufferLength = 1024) (messageId : Nat)
    {topic : List UInt8} (hfits : (Subscription.unsubscribe topic).Fits) :
    decodeSubscribe ((Subscription.unsubscribe topic).build c messageId).1.message = none ∧
      decodeUnsubscribe ((Subscription.unsubscribe topic).build c messageId).1.message = none := by
  obtain ⟨htopic, -, hlength⟩ := hfits
  have hid := nextId_lt c.messageId
  obtain ⟨built, hbuilt, hmessage⟩ := mqttMsgUnsubscribe_built hbuffer htopic hlength messageId
  unfold Subscription.build
  dsimp only
  rw [hmessage, decodeSubscribe, decodeUnsubscribe, hbuilt.decodeItems_finiMessage hid,
    hbuilt.decodeItems_finiMessage hid, if_pos rfl, if_neg (by decide),
    takeAll_none (encodeString_ne_nil topic) (takeSubscription_topic htopic (by omega))]
  exact ⟨rfl, rfl⟩

/-- For every topic that fits and every QoS: the packet decodes as what was asked for, and not as the other,
exactly if it was built by `mqtt_msg_subscribe`. -/
theorem subscription_decodes_iff (c : Connection) (messageId : Nat) (request : Subscription)
    (hbuffer : c.bufferLength = 1024) (hfits : request.Fits) :
    request.Decodes (request.build c messageId) ↔ ∃ topic qos, request = .subscribe topic qos := by
  cases request with
  | subscribe topic qos => exact iff_of_true (subscribe_decodes hbuffer messageId hfits) ⟨topic, qos, rfl⟩
  | unsubscribe topic =>
    refine iff_of_false ?_ ?_
    · rintro ⟨hdecoded, -⟩
      rw [(unsubscribe_decodes_none hbuffer messageId hfits).2] at hdecoded
      cases hdecoded
    · rintro ⟨_, _, h⟩
      cases h

/-- A topic of 124 bytes, whose packet has two bytes of length. -/
theorem subscription_decodes_iff_long :
    (Subscription.subscribe (List.replicate 124 97) 2).Fits ∧
      ((Subscription.subscribe (List.replicate 124 97) 2).Decodes
        ((Subscription.subscribe (List.replicate 124 97) 2).build fresh 0) ↔
          ∃ topic qos, Subscription.subscribe (List.replicate 124 97) 2 = .subscribe topic qos) :=
  have hfits : (Subscription.subscribe (List.replicate 124 97) 2).Fits := by
    refine ⟨List.cons_ne_nil _ _, ?_, ?_, le_rfl⟩
    · simp
    · rw [List.length_replicate]
      decide
  ⟨hfits, subscription_decodes_iff fresh 0 _ rfl hfits⟩

/-- The packet for the topic "a" starts with 130 as a SUBSCRIBE packet does. -/
theorem unsubscribe_not_decodes :
    ¬ ∀ (c : Connection) (messageId : Nat) (request : Subscription), c.bufferLength = 1024 → request.Fits →
      request.Decodes (request.build c messageId) := by
  intro hall
  have hfits : (Subscription.unsubscribe [97]).Fits :=
    ⟨List.cons_ne_nil _ _, by decide, by rw [List.length_singleton]; decide⟩
  have hdecoded := (hall fresh 0 (.unsubscribe [97]) rfl hfits).1
  rw [(unsubscribe_decodes_none rfl 0 hfits).2] at hdecoded
  cases hdecoded

end EspClock.Mqtt
