import EspClock.Mqtt.Builder

/-!
# The bounds of the output buffer

A builder checks the room for a part before it stores it, so the message never grows beyond the buffer, and
what is stored for the fixed header lies in the three bytes left free for it. A message that is not given up
is a slice of the buffer whose fixed header says how long it is.
-/

namespace EspClock.Mqtt

open Mem Reads

/-- A call of a builder with its arguments. A pointer that is `NULL` is an empty string. -/
inductive Request where
  | connect (info : ConnectInfo)
  | publish (topic data : List UInt8) (qos retain messageId : Nat)
  | subscribe (topic : List UInt8) (qos messageId : Nat)
  | unsubscribe (topic : List UInt8) (messageId : Nat)
  | puback (messageId : Nat)
  | pubrec (messageId : Nat)
  | pubrel (messageId : Nat)
  | pubcomp (messageId : Nat)
  | pingreq
  | pingresp
  | disconnect

namespace Connection

variable {c : Connection}

/-- The connection after the call, with the message that is returned. -/
def build (c : Connection) : Request → Connection
  | .connect info => c.mqttMsgConnect info
  | .publish topic data qos retain messageId => (c.mqttMsgPublish topic data qos retain messageId).1
  | .subscribe topic qos messageId => (c.mqttMsgSubscribe topic qos messageId).1
  | .unsubscribe topic messageId => (c.mqttMsgUnsubscribe topic messageId).1
  | .puback messageId => c.mqttMsgPuback messageId
  | .pubrec messageId => c.mqttMsgPubrec messageId
  | .pubrel messageId => c.mqttMsgPubrel messageId
  | .pubcomp messageId => c.mqttMsgPubcomp messageId
  | .pingreq => c.mqttMsgPingreq
  | .pingresp => c.mqttMsgPingresp
  | .disconnect => c.mqttMsgDisconnect

/-- The message that is being built, which includes the three bytes left free. -/
structure Inside (c : Connection) : Prop where
  bufferLength_eq : c.bufferLength = 1024
  header_le : 3 ≤ c.length
  length_le : c.length ≤ 1024
  written_lt : ∀ i ∈ c.written, i < 1024

/-- A part was stored inside the buffer, or the message is given up. -/
def Stays : Except Connection Connection → Prop
  | .ok c => c.Inside
  | .error c => ∀ i ∈ c.written, i < 1024

/-- The message was given up, or it is a slice of the buffer and its fixed header has its length. -/
def Sound (signed : Signed) (c : Connection) : Prop :=
  (∀ i ∈ c.written, i < 1024) ∧
    (c.data = 0 ∧ c.length = 0 ∨
      c.data + c.length ≤ 1024 ∧
        (mqttGetTotalLength signed c.length).value (c.buffer.cells.drop c.data) = (c.length : Int))

/-! ### Parts -/

theorem store_written_lt {i : Nat} {bytes : List UInt8} (h : ∀ j ∈ c.written, j < 1024)
    (hend : i + bytes.length ≤ 1024) : ∀ j ∈ (c.store i bytes).written, j < 1024 := by
  intro j hj
  rcases List.mem_append.mp hj with hold | hnew
  · exact h j hold
  · obtain ⟨k, hk, rfl⟩ := List.mem_map.mp hnew
    have hlt := List.mem_range.mp hk
    omega

theorem inside_initMessage (h : c.bufferLength = 1024) : c.initMessage.Inside :=
  ⟨h, le_rfl, Nat.le_of_lt (by change 3 < 1024; decide), fun _ hi => absurd hi List.not_mem_nil⟩

theorem Inside.push (h : c.Inside) {bytes : List UInt8} (hroom : c.length + bytes.length ≤ 1024) :
    (c.push bytes).Inside :=
  ⟨h.bufferLength_eq, h.header_le.trans (Nat.le_add_right _ _), hroom, store_written_lt h.written_lt hroom⟩

theorem Inside.orFlag (h : c.Inside) (flag : Nat) : (c.orFlag flag).Inside :=
  ⟨h.bufferLength_eq, h.header_le, h.length_le, store_written_lt h.written_lt (by simp)⟩

theorem Inside.withId (h : c.Inside) (messageId : Nat) : { c with messageId := messageId }.Inside :=
  ⟨h.bufferLength_eq, h.header_le, h.length_le, h.written_lt⟩

theorem Stays.bind {result : Except Connection Connection} {f : Connection → Except Connection Connection}
    (h : Stays result) (hf : ∀ c, c.Inside → Stays (f c)) : Stays (result >>= f) := by
  cases result with
  | ok c => exact hf c h
  | error c => exact h

theorem Inside.appendString (h : c.Inside) (string : List UInt8) : Stays (c.appendString string) := by
  have hbuffer := h.bufferLength_eq
  unfold Connection.appendString
  split_ifs with hfull
  · exact h.written_lt
  · apply h.push
    rw [List.length_cons, List.length_cons]
    omega

theorem Inside.appendData (h : c.Inside) (data : List UInt8) : Stays (c.appendData data) := by
  have hbuffer := h.bufferLength_eq
  unfold Connection.appendData
  split_ifs with hfull
  · exact h.written_lt
  · apply h.push
    omega

theorem Inside.assignId (h : c.Inside) (messageId : Nat) : (c.assignId messageId).1.Inside := by
  unfold Connection.assignId
  split_ifs
  · exact h.withId _
  · exact h

/-- An identifier is stored inside the buffer, or the message is given up. -/
theorem Inside.appendMessageId (h : c.Inside) (messageId : Nat) :
    Stays ((c.appendMessageId messageId).map Prod.fst) := by
  have hassigned := h.assignId messageId
  have hbuffer := hassigned.bufferLength_eq
  unfold Connection.appendMessageId
  dsimp only
  split_ifs with hfull
  · exact hassigned.written_lt
  · apply hassigned.push
    rw [List.length_cons, List.length_singleton]
    omega

theorem Inside.appendOptional (h : c.Inside) (string : List UInt8) (flag : Nat) :
    Stays (c.appendOptional string flag) := by
  unfold Connection.appendOptional
  split_ifs
  · exact h
  · exact (h.appendString string).bind fun c hc => hc.orFlag flag

theorem Inside.appendWill (h : c.Inside) (info : ConnectInfo) : Stays (c.appendWill info) := by
  unfold Connection.appendWill
  split_ifs
  · exact h
  · refine (h.appendString _).bind fun c hc => (hc.appendString _).bind fun c hc => ?_
    exact ((hc.orFlag 4).orFlag 32).orFlag _
  · refine (h.appendString _).bind fun c hc => (hc.appendString _).bind fun c hc => ?_
    exact (hc.orFlag 4).orFlag _

/-! ### The fixed header -/

theorem Inside.built (h : c.Inside) : Built 1024 c ((c.buffer.cells.drop 3).take (c.length - 3)) := by
  have hheader := h.header_le
  have hfits := h.length_le
  have hsize := c.buffer.size_eq
  have hbody : ((c.buffer.cells.drop 3).take (c.length - 3)).length = c.length - 3 := by
    rw [List.length_take, List.length_drop]
    omega
  refine ⟨h.bufferLength_eq, ?_, ?_, ?_⟩
  · rw [hbody]
    omega
  · rw [hbody]
    omega
  · rw [hbody]

theorem Inside.finiMessage_written (h : c.Inside) (type : MessageType) (dup qos retain : Nat) :
    ∀ i ∈ (c.finiMessage type dup qos retain).written, i < 1024 := by
  unfold finiMessage
  dsimp only
  split_ifs
  · exact store_written_lt h.written_lt (by simp)
  · exact store_written_lt h.written_lt (by simp)

theorem Inside.finiMessage_end (h : c.Inside) (type : MessageType) (dup qos retain : Nat) :
    (c.finiMessage type dup qos retain).data + (c.finiMessage type dup qos retain).length ≤ 1024 := by
  have hheader := h.header_le
  have hfits := h.length_le
  unfold finiMessage
  dsimp only
  split_ifs
  · change 0 + (c.length - 3 + 3) ≤ 1024
    omega
  · change 1 + (c.length - 3 + 2) ≤ 1024
    omega

/-- The length field in front of a body is read back. -/
theorem totalLength_header (signed : Signed) (header : UInt8) {body rest : List UInt8} (hbody : body.length ≤ 1021) :
    (mqttGetTotalLength signed (packetLength body.length)).value
      (header :: (lengthBytes (if body.length < 128 then 0 else 1) body.length ++ (body ++ rest))) =
        (packetLength body.length : Int) := by
  -- One byte of the field is continued if the body is long.
  obtain ⟨continued, hcontinued, hlength, hsmall, hlarge⟩ : ∃ continued,
      (if body.length < 128 then 0 else 1) = continued ∧ packetLength body.length = body.length + 2 + continued ∧
        continued ≤ 1 ∧ body.length < 128 ^ (continued + 1) := by
    by_cases hshort : body.length < 128
    · exact ⟨0, if_pos hshort, if_pos hshort, Nat.zero_le 1, hshort⟩
    · exact ⟨1, if_neg hshort, if_neg hshort, le_rfl, by omega⟩
  have hsum : (0 : Int) + (body.length * 2 ^ (7 * ([header].length - 1)) : Nat) < 2 ^ 31 := by
    rw [List.length_singleton]
    push_cast
    omega
  have hvalue := @lengthField_append signed [header] (body ++ rest) continued body.length (packetLength body.length)
    (packetLength body.length) 0 hlarge (List.cons_ne_nil _ _) (by rw [List.length_singleton]; omega) (by omega)
    le_rfl hsum
  rw [List.singleton_append, List.length_singleton] at hvalue
  unfold mqttGetTotalLength
  rw [hcontinued, value_bind, hvalue]
  dsimp only
  rw [value_pure, signed.addShifted_eq _ _ _ (by positivity) (by push_cast; omega), hlength]
  push_cast
  ring

theorem Inside.total_finiMessage (h : c.Inside) (signed : Signed) (type : MessageType) (dup qos retain : Nat) :
    (mqttGetTotalLength signed (c.finiMessage type dup qos retain).length).value
      ((c.finiMessage type dup qos retain).buffer.cells.drop (c.finiMessage type dup qos retain).data) =
        ((c.finiMessage type dup qos retain).length : Int) := by
  have hbuilt := h.built
  set body := (c.buffer.cells.drop 3).take (c.length - 3) with hbody
  have hfits := hbuilt.fits
  have hmessage := hbuilt.message_finiMessage type dup qos retain
  have hlength := hbuilt.length_finiMessage type dup qos retain
  have hcells := List.take_append_drop (c.finiMessage type dup qos retain).length
    ((c.finiMessage type dup qos retain).buffer.cells.drop (c.finiMessage type dup qos retain).data)
  change (c.finiMessage type dup qos retain).message ++ _ = _ at hcells
  rw [← hcells, hmessage, hlength, List.cons_append, List.append_assoc]
  exact totalLength_header signed _ (by omega)

theorem Inside.finiMessage (h : c.Inside) (signed : Signed) (type : MessageType) (dup qos retain : Nat) :
    (c.finiMessage type dup qos retain).Sound signed :=
  ⟨h.finiMessage_written type dup qos retain,
    .inr ⟨h.finiMessage_end type dup qos retain, h.total_finiMessage signed type dup qos retain⟩⟩

theorem sound_failMessage (signed : Signed) (h : ∀ i ∈ c.written, i < 1024) : c.failMessage.Sound signed :=
  ⟨h, .inl ⟨rfl, rfl⟩⟩

theorem Stays.fini {result : Except Connection Connection} (h : Stays result) (signed : Signed) (type : MessageType)
    (dup qos retain : Nat) : (Connection.fini type dup qos retain result).Sound signed := by
  cases result with
  | ok c => exact Inside.finiMessage h signed type dup qos retain
  | error c => exact sound_failMessage signed h

/-! ### Builders -/

theorem sound_mqttMsgConnect (signed : Signed) (h : c.bufferLength = 1024) (info : ConnectInfo) :
    (c.mqttMsgConnect info).Sound signed := by
  have hempty := inside_initMessage h
  have hroom : ¬ c.initMessage.length + 10 > c.initMessage.bufferLength := by
    rw [hempty.bufferLength_eq]
    change ¬ 3 + 10 > 1024
    decide
  have hpush : (c.initMessage.push [0, 4, 77, 81, 84, 84, 4, 0, UInt8.ofNat (info.keepalive / 256),
      UInt8.ofNat info.keepalive]).Inside := by
    apply hempty.push
    change 3 + 10 ≤ 1024
    decide
  have hrest : ∀ c' : Connection, c'.Inside → Stays (do
      let c ← c'.appendString info.clientId
      let c ← c.appendWill info
      let c ← c.appendOptional info.username 128
      c.appendOptional info.password 64) := by
    intro c' hc
    refine (hc.appendString _).bind fun c hc => (hc.appendWill info).bind fun c hc => ?_
    exact (hc.appendOptional _ _).bind fun c hc => hc.appendOptional _ _
  unfold mqttMsgConnect
  apply Stays.fini
  dsimp only
  rw [if_neg hroom]
  split_ifs
  · exact (hpush.orFlag 2).written_lt
  · exact hpush.written_lt
  · exact hrest _ (hpush.orFlag 2)
  · exact hrest _ hpush

theorem sound_mqttMsgPublish (signed : Signed) (h : c.bufferLength = 1024) (topic data : List UInt8)
    (qos retain messageId : Nat) : (c.mqttMsgPublish topic data qos retain messageId).1.Sound signed := by
  have hempty := inside_initMessage h
  have hstring := hempty.appendString topic
  unfold mqttMsgPublish
  dsimp only
  by_cases htopic : topic = []
  · rw [if_pos htopic]
    exact sound_failMessage signed hempty.written_lt
  · rw [if_neg htopic]
    cases hnamed : c.initMessage.appendString topic with
    | error c =>
      rw [hnamed] at hstring
      exact sound_failMessage signed hstring
    | ok named =>
      rw [hnamed] at hstring
      have hid := Inside.appendMessageId hstring 0
      dsimp only
      by_cases hqos : qos > 0
      · rw [if_pos hqos]
        cases hidentified : named.appendMessageId 0 with
        | error c =>
          rw [hidentified] at hid
          exact sound_failMessage signed hid
        | ok assigned =>
          rw [hidentified] at hid
          exact (Inside.appendData hid data).fini signed _ _ _ _
      · rw [if_neg hqos]
        exact (Inside.appendData hstring data).fini signed _ _ _ _

/-- The messages that start with a new identifier. -/
theorem sound_identified (signed : Signed) (h : c.bufferLength = 1024) {type : MessageType}
    {f : Connection → Except Connection Connection} (hf : ∀ c, c.Inside → Stays (f c)) :
    (match c.initMessage.appendMessageId 0 with
      | .error c => (c.failMessage, 0)
      | .ok (c, messageId) => (Connection.fini type 0 1 0 (f c), messageId)).1.Sound signed := by
  have hid := (inside_initMessage h).appendMessageId 0
  cases hidentified : c.initMessage.appendMessageId 0 with
  | error c =>
    rw [hidentified] at hid
    exact sound_failMessage signed hid
  | ok assigned =>
    rw [hidentified] at hid
    exact (hf _ hid).fini signed _ _ _ _

theorem sound_mqttMsgSubscribe (signed : Signed) (h : c.bufferLength = 1024) (topic : List UInt8)
    (qos messageId : Nat) : (c.mqttMsgSubscribe topic qos messageId).1.Sound signed := by
  unfold mqttMsgSubscribe
  dsimp only
  split_ifs with htopic
  · exact sound_failMessage signed (inside_initMessage h).written_lt
  · exact sound_identified signed h fun c hc => (hc.appendString topic).bind fun c hc => hc.appendData _

theorem sound_mqttMsgUnsubscribe (signed : Signed) (h : c.bufferLength = 1024) (topic : List UInt8)
    (messageId : Nat) : (c.mqttMsgUnsubscribe topic messageId).1.Sound signed := by
  unfold mqttMsgUnsubscribe
  dsimp only
  split_ifs with htopic
  · exact sound_failMessage signed (inside_initMessage h).written_lt
  · exact sound_identified signed h fun c hc => hc.appendString topic

theorem sound_mqttMsgId (signed : Signed) (h : c.bufferLength = 1024) (type : MessageType) (qos messageId : Nat) :
    (mqttMsgId type qos c messageId).Sound signed :=
  ((inside_initMessage h).appendMessageId messageId).fini signed type 0 qos 0

end Connection

end EspClock.Mqtt
