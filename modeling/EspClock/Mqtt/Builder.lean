import EspClock.Mqtt.Packet

/-!
# What the builders build

The parts of a message lie behind the three bytes left free for the fixed header, in the order in which
they were appended. `finiMessage` puts the header of two or three bytes right in front of them. A builder
gives up exactly when its parts and three more bytes do not fit.
-/

namespace EspClock.Mqtt

open Mem

/-- The length of a string and the string. -/
def encodeString (string : List UInt8) : List UInt8 := word string.length ++ string

@[simp] theorem length_encodeString (string : List UInt8) : (encodeString string).length = string.length + 2 := by
  simp [encodeString]
  omega

/-- The length of a packet whose length field counts this many bytes, up to 16383 of them. -/
def packetLength (remaining : Nat) : Nat := if remaining < 128 then remaining + 2 else remaining + 3

/-- The bytes behind the fixed header of a PUBLISH message. -/
def publishRemaining (topic payload : List UInt8) (qos : Nat) : Nat :=
  2 + topic.length + (if qos = 0 then 0 else 2) + payload.length

theorem packetLength_pos (remaining : Nat) : 0 < packetLength remaining := by
  unfold packetLength
  split_ifs
  · exact Nat.succ_pos _
  · exact Nat.succ_pos _

namespace Connection

/-- The connection of a client as `mqtt_msg_init` sets it up. -/
def fresh : Connection := ⟨0, 0, 0, Block.fill 1024 0, 1024, []⟩

variable {c : Connection} {capacity : Nat} {body : List UInt8}

/-- These parts were appended since `init_message`. -/
structure Built (capacity : Nat) (c : Connection) (body : List UInt8) : Prop where
  bufferLength_eq : c.bufferLength = capacity
  length_eq : c.length = 3 + body.length
  fits : 3 + body.length ≤ capacity
  bytes_eq : (c.buffer.cells.drop 3).take body.length = body

/-- The parts were appended, or they do not fit. -/
def Builds (capacity : Nat) (body : List UInt8) : Except Connection Connection → Prop
  | .ok c => Built capacity c body
  | .error _ => capacity < 3 + body.length

@[simp] theorem builds_ok : Builds capacity body (.ok c) ↔ Built capacity c body := Iff.rfl

@[simp] theorem builds_pure : Builds capacity body (pure c) ↔ Built capacity c body := Iff.rfl

@[simp] theorem builds_error : Builds capacity body (.error c) ↔ capacity < 3 + body.length := Iff.rfl

theorem built_initMessage (h : 3 ≤ c.bufferLength) : Built c.bufferLength c.initMessage [] :=
  ⟨rfl, rfl, h, rfl⟩

theorem Built.push (h : Built capacity c body) (hcapacity : capacity ≤ 1024) (bytes : List UInt8)
    (hroom : 3 + (body ++ bytes).length ≤ capacity) : Built capacity (c.push bytes) (body ++ bytes) := by
  have hlength := h.length_eq
  have hsize := c.buffer.size_eq
  rw [List.length_append] at hroom
  refine ⟨h.bufferLength_eq, ?_, by rwa [List.length_append], ?_⟩
  · change c.length + bytes.length = 3 + (body ++ bytes).length
    rw [hlength, List.length_append]
    omega
  · have hcells := take_store_self c.buffer.cells (3 + body.length) bytes (by omega)
    have hdrop := congrArg (List.drop 3) hcells
    rw [List.drop_take, List.drop_append_of_le_length (by rw [List.length_take]; omega), List.drop_take,
      show 3 + body.length - 3 = body.length by omega, h.bytes_eq,
      show 3 + body.length + bytes.length - 3 = body.length + bytes.length by omega] at hdrop
    change ((Mem.store c.buffer.cells c.length bytes).drop 3).take (body ++ bytes).length = body ++ bytes
    rw [hlength, List.length_append, hdrop]

/-- A part that does not fit makes everything behind it not fit. -/
theorem Builds.bind {result : Except Connection Connection} (h : Builds capacity body result)
    {f : Connection → Except Connection Connection} {body' : List UInt8} (hle : body.length ≤ body'.length)
    (hf : ∀ c, Built capacity c body → Builds capacity body' (f c)) : Builds capacity body' (result >>= f) := by
  cases result with
  | ok c => exact hf c h
  | error c => exact Nat.lt_of_lt_of_le (builds_error.mp h) (Nat.add_le_add_left hle 3)

/-- The parts that fit are appended. -/
theorem Built.appendString_ok (h : Built capacity c body) (hcapacity : capacity ≤ 1024) (string : List UInt8)
    (hroom : 3 + body.length + (string.length + 2) ≤ capacity) :
    ∃ c', c.appendString string = .ok c' ∧ Built capacity c' (body ++ encodeString string) ∧
      c'.messageId = c.messageId := by
  have hlength := h.length_eq
  have hbuffer := h.bufferLength_eq
  refine ⟨c.push (encodeString string), if_neg (by omega), h.push hcapacity _ ?_, rfl⟩
  rw [List.length_append, length_encodeString]
  omega

theorem Built.appendData_ok (h : Built capacity c body) (hcapacity : capacity ≤ 1024) (data : List UInt8)
    (hroom : 3 + body.length + data.length ≤ capacity) :
    ∃ c', c.appendData data = .ok c' ∧ Built capacity c' (body ++ data) := by
  have hlength := h.length_eq
  have hbuffer := h.bufferLength_eq
  refine ⟨c.push data, if_neg (by omega), h.push hcapacity _ ?_⟩
  rw [List.length_append]
  omega

theorem Built.appendMessageId_ok (h : Built capacity c body) (hcapacity : capacity ≤ 1024)
    (hroom : 3 + body.length + 2 ≤ capacity) :
    ∃ c', c.appendMessageId 0 = .ok (c', nextId c.messageId) ∧
      Built capacity c' (body ++ word (nextId c.messageId)) := by
  have hlength := h.length_eq
  have hbuffer := h.bufferLength_eq
  have hnext : Built capacity { c with messageId := nextId c.messageId } body :=
    ⟨h.bufferLength_eq, h.length_eq, h.fits, h.bytes_eq⟩
  have hpushed := hnext.push hcapacity (word (nextId c.messageId))
    (by rw [List.length_append, length_word]; omega)
  refine ⟨_, if_neg ?_, hpushed⟩
  change ¬ c.length + 2 > c.bufferLength
  omega

theorem Built.appendString (h : Built capacity c body) (hcapacity : capacity ≤ 1024) (string : List UInt8) :
    Builds capacity (body ++ encodeString string) (c.appendString string) := by
  have hlength := h.length_eq
  have hbuffer := h.bufferLength_eq
  by_cases hroom : 3 + body.length + (string.length + 2) ≤ capacity
  · obtain ⟨c', hok, hbuilt, -⟩ := h.appendString_ok hcapacity string hroom
    rw [hok]
    exact hbuilt
  · have hfull : c.appendString string = .error c := if_pos (by omega)
    rw [hfull, builds_error, List.length_append, length_encodeString]
    omega

/-- A bit set in a part that is there already. -/
theorem Built.orFlag (h : Built capacity c body) {front tail : List UInt8} {flags : UInt8}
    (hbody : body = front ++ flags :: tail) (hfront : front.length = 7) (flag : Nat) :
    Built capacity (c.orFlag flag) (front ++ (flags ||| UInt8.ofNat flag) :: tail) := by
  have hlength := h.length_eq
  have hfits := h.fits
  have hbytes := h.bytes_eq
  have hsame : (front ++ (flags ||| UInt8.ofNat flag) :: tail).length = body.length := by
    rw [hbody, List.length_append, List.length_append, List.length_cons, List.length_cons]
  have hcell : c.buffer.get 10 = flags := by
    have hread := congrArg (fun l : List UInt8 => l[7]?) hbytes
    simp only [hbody, List.getElem?_take, List.getElem?_drop, List.length_append, List.length_cons] at hread
    rw [if_pos (by omega), List.getElem?_append_right (by omega), hfront] at hread
    rw [Block.get, List.getD_eq_getElem?_getD, hread]
    rfl
  refine ⟨h.bufferLength_eq, ?_, ?_, ?_⟩
  · rw [hsame]
    exact hlength
  · rw [hsame]
    exact hfits
  · rw [hsame]
    change ((c.buffer.cells.set 10 (c.buffer.get 10 ||| UInt8.ofNat flag)).drop 3).take body.length = _
    rw [List.drop_set, if_neg (by decide), List.take_set, hbytes, hcell, hbody,
      List.set_append_right (h := by omega), hfront]
    rfl

theorem nextId_pos (messageId : Nat) : 0 < nextId messageId := by
  unfold nextId
  split_ifs <;> omega

theorem nextId_lt (messageId : Nat) : nextId messageId < 65536 := by
  unfold nextId
  split_ifs <;> omega

/-! ### The fixed header -/

/-- The length field has one byte or two. -/
theorem Built.message_finiMessage (h : Built capacity c body) (type : MessageType)
    (dup qos retain : Nat) : (c.finiMessage type dup qos retain).message =
      header type dup qos retain :: (lengthBytes (if body.length < 128 then 0 else 1) body.length ++ body) := by
  have hlength := h.length_eq
  have hfits := h.fits
  have hsize := c.buffer.size_eq
  have hremaining : c.length - 3 = body.length := by omega
  unfold finiMessage
  simp only [hremaining]
  by_cases hshort : body.length < 128
  · have hcells := store_eq c.buffer.cells 1 [header type dup qos retain, UInt8.ofNat body.length]
      (by simp only [List.length_cons, List.length_nil]; omega)
    rw [if_neg (by omega), if_pos hshort]
    change ((Mem.store c.buffer.cells 1 [header type dup qos retain, UInt8.ofNat body.length]).drop 1).take
      (body.length + 2) = _
    rw [hcells, List.append_assoc, List.drop_left' (by rw [List.length_take]; omega)]
    simpa [lengthBytes] using h.bytes_eq
  · have hcells := store_eq c.buffer.cells 0 [header type dup qos retain, UInt8.ofNat (128 + body.length % 128),
      UInt8.ofNat (body.length / 128)] (by simp only [List.length_cons, List.length_nil]; omega)
    rw [if_pos (by omega), if_neg hshort]
    change ((Mem.store c.buffer.cells 0 [header type dup qos retain, UInt8.ofNat (128 + body.length % 128),
      UInt8.ofNat (body.length / 128)]).drop 0).take (body.length + 3) = _
    rw [hcells, List.drop_zero, List.take_zero, List.nil_append]
    simpa [lengthBytes] using h.bytes_eq

theorem Built.length_finiMessage (h : Built capacity c body) (type : MessageType) (dup qos retain : Nat) :
    (c.finiMessage type dup qos retain).length = packetLength body.length := by
  have hlength := h.length_eq
  have hremaining : c.length - 3 = body.length := by omega
  unfold finiMessage packetLength
  simp only [hremaining]
  by_cases hshort : body.length < 128
  · rw [if_neg (by omega), if_pos hshort]
  · rw [if_pos (by omega), if_neg hshort]

/-- A builder gives a message up exactly when its parts do not fit behind three bytes. -/
theorem Builds.fini {result : Except Connection Connection} (h : Builds capacity body result) (type : MessageType)
    (dup qos retain : Nat) : (fini type dup qos retain result).length = 0 ↔ capacity < 3 + body.length := by
  cases result with
  | ok c =>
    have hbuilt : Built capacity c body := h
    rw [Connection.fini, hbuilt.length_finiMessage]
    exact iff_of_false (packetLength_pos _).ne' (Nat.not_lt.mpr hbuilt.fits)
  | error c => exact iff_of_true rfl h

theorem Builds.message_fini {result : Except Connection Connection} (h : Builds capacity body result)
    (hfits : 3 + body.length ≤ capacity) (type : MessageType) (dup qos retain : Nat) :
    (Connection.fini type dup qos retain result).message =
      header type dup qos retain :: (lengthBytes (if body.length < 128 then 0 else 1) body.length ++ body) := by
  cases result with
  | ok c => exact Built.message_finiMessage h type dup qos retain
  | error c => exact absurd hfits (Nat.not_le.mpr h)

/-! ### Messages that fit -/

section Fitting

variable {topic payload : List UInt8} {qos : Nat}

/-- The identifier of a new message; QoS 0 has none. -/
def assigned (c : Connection) (qos : Nat) : Nat := if qos = 0 then 0 else nextId c.messageId

/-- The parts of a PUBLISH message. -/
def publishBody (c : Connection) (topic payload : List UInt8) (qos : Nat) : List UInt8 :=
  encodeString topic ++ (if qos = 0 then [] else word (c.assigned qos)) ++ payload

theorem length_publishBody (c : Connection) (topic payload : List UInt8) (qos : Nat) :
    (c.publishBody topic payload qos).length = publishRemaining topic payload qos := by
  rw [publishBody, publishRemaining, List.length_append, List.length_append, length_encodeString]
  split_ifs
  · simp only [List.length_nil]
    omega
  · rw [length_word]
    omega

theorem mqttMsgPublish_built (hbuffer : c.bufferLength = 1024) (htopic : topic ≠ [])
    (hfits : 3 + publishRemaining topic payload qos ≤ 1024) (retain messageId : Nat) :
    ∃ built, Built 1024 built (c.publishBody topic payload qos) ∧
      c.mqttMsgPublish topic payload qos retain messageId =
        (built.finiMessage .publish 0 qos retain, c.assigned qos) := by
  rw [publishRemaining] at hfits
  have hempty : Built 1024 c.initMessage [] := hbuffer ▸ built_initMessage (by omega)
  obtain ⟨named, happend, hnamed, hkept⟩ := hempty.appendString_ok le_rfl topic
    (by simp only [List.length_nil]; omega)
  rw [List.nil_append] at hnamed
  unfold mqttMsgPublish publishBody assigned
  simp only [if_neg htopic, happend]
  by_cases hqos : qos = 0
  · simp only [if_pos hqos] at hfits ⊢
    obtain ⟨built, hdata, hbuilt⟩ := hnamed.appendData_ok le_rfl payload
      (by rw [length_encodeString]; omega)
    refine ⟨built, by rwa [List.append_nil], ?_⟩
    rw [if_neg (by omega), hdata]
    rfl
  · simp only [if_neg hqos] at hfits ⊢
    obtain ⟨identified, hid, hidentified⟩ := hnamed.appendMessageId_ok le_rfl (by rw [length_encodeString]; omega)
    obtain ⟨built, hdata, hbuilt⟩ := hidentified.appendData_ok le_rfl payload
      (by rw [List.length_append, length_encodeString, length_word]; omega)
    have hsame : nextId named.messageId = nextId c.messageId := congrArg nextId hkept
    rw [hsame] at hid hbuilt
    refine ⟨built, hbuilt, ?_⟩
    rw [if_pos (Nat.pos_of_ne_zero hqos), hid]
    simp only [hdata]
    rfl

theorem mqttMsgSubscribe_built (hbuffer : c.bufferLength = 1024) (htopic : topic ≠ [])
    (hfits : topic.length + 8 ≤ 1024) (qos messageId : Nat) :
    ∃ built, Built 1024 built (word (nextId c.messageId) ++ encodeString topic ++ [UInt8.ofNat qos]) ∧
      (c.mqttMsgSubscribe topic qos messageId).1 = built.finiMessage .subscribe 0 1 0 := by
  have hempty : Built 1024 c.initMessage [] := hbuffer ▸ built_initMessage (by omega)
  obtain ⟨identified, hid, hidentified⟩ := hempty.appendMessageId_ok le_rfl (by decide)
  rw [List.nil_append] at hidentified
  obtain ⟨named, happend, hnamed, -⟩ := hidentified.appendString_ok le_rfl topic
    (by rw [length_word]; omega)
  obtain ⟨built, hdata, hbuilt⟩ := hnamed.appendData_ok le_rfl [UInt8.ofNat qos]
    (by rw [List.length_append, length_encodeString, length_word, List.length_singleton]; omega)
  refine ⟨built, hbuilt, ?_⟩
  unfold mqttMsgSubscribe
  simp only [if_neg htopic, hid]
  rw [happend]
  change fini .subscribe 0 1 0 (named.appendData [UInt8.ofNat qos]) = _
  rw [hdata]
  rfl

end Fitting

end Connection

end EspClock.Mqtt
