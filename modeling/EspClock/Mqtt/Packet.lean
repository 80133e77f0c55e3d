import EspClock.Mqtt.Frame
import Mathlib.Tactic.Ring
import Mathlib.Tactic.Positivity

/-!
# Well-formed packets

The control packets of the protocol, with any bytes in the fields that the client does not look at. The
functions that take a message apart find the fields of a PUBLISH packet at the start of the buffer, whatever
comes behind it, and of a packet of another kind they read no more than its first four bytes.

The length field of a packet may be longer than it has to be.
-/

namespace EspClock.Mqtt

open Mem Reads Client

/-! ### The bytes of a packet -/

/-- The two bytes of a number, the most significant one first. -/
def word (n : Nat) : List UInt8 := [UInt8.ofNat (n / 256), UInt8.ofNat n]

/-- A length with a number of bytes that have the continuation bit. -/
def lengthBytes : Nat → Nat → List UInt8
  | 0, n => [UInt8.ofNat n]
  | continued + 1, n => UInt8.ofNat (128 + n % 128) :: lengthBytes continued (n / 128)

/-- A PUBLISH packet. The identifier is there with QoS 1 and 2 only. -/
structure Publish where
  dup : Bool
  qos : Nat
  retain : Bool
  continued : Nat
  topic : List UInt8
  id : Nat
  payload : List UInt8
  qos_lt : qos < 3
  continued_lt : continued < 4
  topic_ne : topic ≠ []
  topic_lt : topic.length < 65536
  id_pos : 0 < id
  id_lt : id < 65536
  remaining_lt : 2 + topic.length + (if qos = 0 then 0 else 2) + payload.length < 128 ^ (continued + 1)

namespace Publish

def flags (p : Publish) : UInt8 := UInt8.ofNat (48 + p.dup.toNat * 8 + p.qos * 2 + p.retain.toNat)

def identifier (p : Publish) : List UInt8 := if p.qos = 0 then [] else word p.id

/-- The remaining length. -/
def remaining (p : Publish) : Nat := 2 + p.topic.length + p.identifier.length + p.payload.length

def fixedHeader (p : Publish) : List UInt8 := p.flags :: lengthBytes p.continued p.remaining

def bytes (p : Publish) : List UInt8 :=
  p.fixedHeader ++ (word p.topic.length ++ (p.topic ++ (p.identifier ++ p.payload)))

end Publish

/-- A control packet that is no PUBLISH packet: its body has the identifier that its type asks for. -/
structure Control where
  type : MessageType
  flags : Nat
  continued : Nat
  body : List UInt8
  type_ne : type ≠ .publish
  flags_lt : flags < 16
  continued_lt : continued < 4
  body_lt : body.length < 128 ^ (continued + 1)
  identified : type ∉ [.connect, .connack, .pingreq, .pingresp, .disconnect] → 2 ≤ body.length

namespace Control

/-- No flag is set. -/
theorem zero_flags_lt : 0 < 16 := by decide

def bytes (p : Control) : List UInt8 :=
  UInt8.ofNat (p.type.number * 16 + p.flags) :: (lengthBytes p.continued p.body.length ++ p.body)

end Control

/-! ### Cells behind a known part of the buffer -/

variable {signed : Signed} (front more : List UInt8)

theorem value_cell_append (b : UInt8) : (cell front.length).value (front ++ b :: more) = b := by
  rw [value_cell, List.getD_eq_getElem?_getD, List.getElem?_append_right le_rfl, Nat.sub_self]
  rfl

@[simp] theorem length_word (n : Nat) : (word n).length = 2 := rfl

theorem word16_append {n : Nat} (hn : n < 65536) :
    (word16 front.length).value (front ++ (word n ++ more)) = n := by
  have hhigh := value_cell_append front (UInt8.ofNat n :: more) (UInt8.ofNat (n / 256))
  have hlow := value_cell_append (front ++ [UInt8.ofNat (n / 256)]) more (UInt8.ofNat n)
  rw [List.append_assoc, List.length_append, List.length_singleton] at hlow
  unfold word16
  rw [value_bind, value_bind, value_pure, word]
  simp only [List.cons_append, List.nil_append] at hhigh hlow ⊢
  rw [hhigh, hlow, UInt8.toNat_ofNat', UInt8.toNat_ofNat']
  omega

@[simp] theorem length_lengthBytes (continued n : Nat) : (lengthBytes continued n).length = continued + 1 := by
  induction continued generalizing n with
  | zero => rfl
  | succ continued ih => rw [lengthBytes, List.length_cons, ih]

/-- The bytes of a length are its digits to base 128. -/
theorem digits_add (n : Nat) {i : Nat} (hi : 0 < i) :
    n % 128 * 2 ^ (7 * (i - 1)) + n / 128 * 2 ^ (7 * i) = n * 2 ^ (7 * (i - 1)) := by
  have hpow : 2 ^ (7 * i) = 128 * 2 ^ (7 * (i - 1)) := by
    obtain ⟨k, rfl⟩ : ∃ k, i = k + 1 := ⟨i - 1, by omega⟩
    rw [Nat.add_sub_cancel, Nat.mul_add, pow_add]
    ring
  calc n % 128 * 2 ^ (7 * (i - 1)) + n / 128 * 2 ^ (7 * i)
      = (n % 128 + 128 * (n / 128)) * 2 ^ (7 * (i - 1)) := by rw [hpow]; ring
    _ = n * 2 ^ (7 * (i - 1)) := by rw [Nat.mod_add_div]

/-- The loop over the length field finds its end and adds the length it stands for. -/
theorem lengthField_append {continued n length left : Nat} {totlen : Int} (hn : n < 128 ^ (continued + 1))
    (hfront : front ≠ []) (hlength : front.length + continued < length) (hleft : continued < left)
    (htotlen : 0 ≤ totlen) (hfits : totlen + (n * 2 ^ (7 * (front.length - 1)) : Nat) < 2 ^ 31) :
    (lengthField signed length left front.length totlen).value (front ++ (lengthBytes continued n ++ more)) =
      (front.length + continued + 1, totlen + (n * 2 ^ (7 * (front.length - 1)) : Nat)) := by
  have hpos : 0 < front.length := List.length_pos_iff.mpr hfront
  induction continued generalizing front n left totlen with
  | zero =>
    obtain ⟨left, rfl⟩ : ∃ k, left = k + 1 := ⟨left - 1, by omega⟩
    have hbyte : (UInt8.ofNat n).toNat = n := by rw [UInt8.toNat_ofNat']; omega
    have hmod : n % 128 = n := by omega
    rw [lengthField, if_pos (by omega), lengthBytes, List.singleton_append, value_bind, value_cell_append]
    dsimp only
    rw [hbyte, if_pos (by omega), value_pure, hmod, signed.addShifted_eq _ _ _ htotlen (by exact_mod_cast hfits)]
    push_cast
    rfl
  | succ continued ih =>
    obtain ⟨left, rfl⟩ : ∃ k, left = k + 1 := ⟨left - 1, by omega⟩
    set b := UInt8.ofNat (128 + n % 128) with hb
    have hbyte : b.toNat = 128 + n % 128 := by rw [hb, UInt8.toNat_ofNat']; omega
    have hmod : (128 + n % 128) % 128 = n % 128 := by omega
    have hdigits := digits_add n hpos
    have hquotient : n / 128 < 128 ^ (continued + 1) := by
      rw [Nat.div_lt_iff_lt_mul (by norm_num)]
      rwa [pow_succ] at hn
    have hadd := signed.addShifted_eq totlen (n % 128) (7 * (front.length - 1)) htotlen (by
      have hle : n % 128 * 2 ^ (7 * (front.length - 1)) ≤ n * 2 ^ (7 * (front.length - 1)) := by omega
      have hle' : ((n % 128 * 2 ^ (7 * (front.length - 1)) : Nat) : Int) ≤ (n * 2 ^ (7 * (front.length - 1)) : Nat) := by
        exact_mod_cast hle
      push_cast at hle' hfits ⊢
      linarith)
    have hrest := @ih (front ++ [b]) (n / 128) left
      (totlen + ((n % 128 * 2 ^ (7 * (front.length - 1)) : Nat) : Int)) hquotient (List.append_ne_nil_of_left_ne_nil hfront _)
      (by rw [List.length_append, List.length_singleton]; omega) (by omega) (by positivity)
      (by
        rw [List.length_append, List.length_singleton, Nat.add_sub_cancel, add_assoc, ← Nat.cast_add, hdigits]
        exact hfits)
      (by rw [List.length_append, List.length_singleton]; omega)
    rw [List.append_assoc, List.singleton_append, List.length_append, List.length_singleton, Nat.add_sub_cancel,
      add_assoc totlen, ← Nat.cast_add, hdigits] at hrest
    rw [lengthField, if_pos (by omega), lengthBytes, List.cons_append, value_bind, value_cell_append]
    dsimp only
    rw [hbyte, if_neg (by omega), hmod, hadd]
    push_cast at hrest ⊢
    rw [hrest]
    simp only [Prod.mk.injEq, and_true]
    omega

theorem skipLengthField_append {continued n length left : Nat} (hn : n < 128 ^ (continued + 1))
    (hlength : front.length + continued < length) (hleft : continued < left) :
    (skipLengthField length left front.length).value (front ++ (lengthBytes continued n ++ more)) =
      front.length + continued + 1 := by
  induction continued generalizing front n left with
  | zero =>
    obtain ⟨left, rfl⟩ : ∃ k, left = k + 1 := ⟨left - 1, by omega⟩
    have hbyte : (UInt8.ofNat n).toNat = n := by rw [UInt8.toNat_ofNat']; omega
    rw [skipLengthField, if_pos (by omega), lengthBytes, List.singleton_append, value_bind, value_cell_append, hbyte,
      if_pos (by omega), value_pure]
  | succ continued ih =>
    obtain ⟨left, rfl⟩ : ∃ k, left = k + 1 := ⟨left - 1, by omega⟩
    set b := UInt8.ofNat (128 + n % 128) with hb
    have hbyte : b.toNat = 128 + n % 128 := by rw [hb, UInt8.toNat_ofNat']; omega
    have hquotient : n / 128 < 128 ^ (continued + 1) := by
      rw [Nat.div_lt_iff_lt_mul (by norm_num)]
      rwa [pow_succ] at hn
    have hrest := @ih (front ++ [b]) (n / 128) left hquotient
      (by rw [List.length_append, List.length_singleton]; omega) (by omega)
    rw [List.append_assoc, List.singleton_append, List.length_append, List.length_singleton] at hrest
    rw [skipLengthField, if_pos (by omega), lengthBytes, List.cons_append, value_bind, value_cell_append, hbyte,
      if_neg (by omega), hrest]
    omega

/-! ### The fields of a PUBLISH packet -/

namespace Publish

variable {p : Publish}

theorem length_identifier (p : Publish) : p.identifier.length = if p.qos = 0 then 0 else 2 := by
  unfold identifier
  split_ifs <;> rfl

theorem length_fixedHeader (p : Publish) : p.fixedHeader.length = p.continued + 2 := by
  rw [fixedHeader, List.length_cons, length_lengthBytes]

theorem length_bytes (p : Publish) : p.bytes.length = p.continued + 2 + p.remaining := by
  rw [bytes, List.length_append, length_fixedHeader, remaining]
  simp only [List.length_append, length_word]
  omega

theorem remaining_lt' (p : Publish) : p.remaining < 128 ^ (p.continued + 1) := by
  rw [remaining, length_identifier]
  exact p.remaining_lt

theorem topic_pos (p : Publish) : 0 < p.topic.length := List.length_pos_iff.mpr p.topic_ne

theorem flags_toNat (p : Publish) : p.flags.toNat = 48 + p.dup.toNat * 8 + p.qos * 2 + p.retain.toNat := by
  have hqos := p.qos_lt
  have hdup := p.dup.toNat_le
  have hretain := p.retain.toNat_le
  rw [flags, UInt8.toNat_ofNat']
  omega

theorem type_value (p : Publish) : mqttGetType.value (p.bytes ++ more) = some .publish := by
  have hbyte : (cell 0).value (p.bytes ++ more) = p.flags := rfl
  have hqos := p.qos_lt
  have hdup := p.dup.toNat_le
  have hretain := p.retain.toNat_le
  rw [mqttGetType, value_bind, hbyte, value_pure, flags_toNat,
    show (48 + p.dup.toNat * 8 + p.qos * 2 + p.retain.toNat) / 16 = 3 by omega]
  rfl

theorem qos_value (p : Publish) : mqttGetQos.value (p.bytes ++ more) = p.qos := by
  have hbyte : (cell 0).value (p.bytes ++ more) = p.flags := rfl
  have hqos := p.qos_lt
  have hdup := p.dup.toNat_le
  have hretain := p.retain.toNat_le
  rw [mqttGetQos, value_bind, hbyte, value_pure, flags_toNat]
  omega

/-- The bytes of the packet behind the length field. -/
def content (p : Publish) : List UInt8 := word p.topic.length ++ (p.topic ++ (p.identifier ++ p.payload))

theorem bytes_append (p : Publish) :
    p.bytes ++ more = [p.flags] ++ (lengthBytes p.continued p.remaining ++ (p.content ++ more)) := by
  simp [bytes, content, fixedHeader]

theorem bytes_append_topic (p : Publish) :
    p.bytes ++ more =
      p.fixedHeader ++ (word p.topic.length ++ (p.topic ++ (p.identifier ++ (p.payload ++ more)))) := by
  simp [bytes]

theorem lengthField_value (p : Publish) {length : Nat} (hlength : p.bytes.length ≤ length)
    (hfits : p.remaining < 2 ^ 31) :
    (lengthField signed length length 1 0).value (p.bytes ++ more) = (p.continued + 2, (p.remaining : Int)) := by
  rw [length_bytes] at hlength
  have hvalue := @lengthField_append signed [p.flags] (p.content ++ more) _ _ length length 0 p.remaining_lt' (List.cons_ne_nil _ _) (by rw [List.length_singleton]; omega) (by omega) le_rfl
    (by simpa using hfits)
  rw [List.length_singleton] at hvalue
  rw [bytes_append, hvalue]
  simp only [Prod.mk.injEq]
  refine ⟨by omega, by simp⟩

theorem skipLengthField_value (p : Publish) {length : Nat} (hlength : p.bytes.length ≤ length) :
    (skipLengthField length length 1).value (p.bytes ++ more) = p.continued + 2 := by
  rw [length_bytes] at hlength
  have hvalue := @skipLengthField_append [p.flags] (p.content ++ more) _ _ length length p.remaining_lt' (by rw [List.length_singleton]; omega) (by omega)
  rw [List.length_singleton] at hvalue
  rw [bytes_append, hvalue]
  omega

theorem totalLength_value (p : Publish) {length : Nat} (hlength : p.bytes.length ≤ length)
    (hfits : p.bytes.length < 2 ^ 31) :
    (mqttGetTotalLength signed length).value (p.bytes ++ more) = (p.bytes.length : Int) := by
  have hfits' := hfits
  rw [length_bytes] at hfits'
  rw [mqttGetTotalLength, value_bind, lengthField_value more p hlength (by omega)]
  dsimp only
  rw [value_pure, signed.addShifted_eq _ _ _ (by positivity) (by push_cast; omega), length_bytes]
  push_cast
  ring

theorem topicLength_value (p : Publish) : (word16 (p.continued + 2)).value (p.bytes ++ more) = p.topic.length := by
  have hvalue := word16_append p.fixedHeader (p.topic ++ (p.identifier ++ (p.payload ++ more))) p.topic_lt
  rw [length_fixedHeader] at hvalue
  rw [bytes_append_topic, hvalue]

theorem topic_value (p : Publish) {length : Nat} (hlength : p.bytes.length ≤ length) (hfits : p.bytes.length < 2 ^ 31) :
    (mqttGetPublishTopic signed length).value (p.bytes ++ more) = (some (p.continued + 4), p.topic.length) := by
  have hlength' := hlength
  rw [length_bytes] at hlength' hfits
  have htopic := p.topic_pos
  have hremaining : 2 + p.topic.length ≤ p.remaining := by rw [remaining]; omega
  rw [mqttGetPublishTopic, value_bind, lengthField_value more p hlength (by omega)]
  dsimp only
  rw [value_ite, if_neg (by omega), value_bind, topicLength_value, value_ite, if_neg (by omega), value_pure]

/-- Where the payload is, and its length: if there is none, the QoS and whether bytes follow decide. -/
def dataPlace (p : Publish) (length : Nat) : Option Nat × Nat :=
  if p.payload = [] ∧ p.bytes.length = length then (none, if p.qos = 0 then 0 else length)
  else (some (p.continued + 4 + p.topic.length + p.identifier.length), p.payload.length)

theorem data_value (p : Publish) {length : Nat} (hlength : p.bytes.length ≤ length) (hfits : p.bytes.length < 2 ^ 31) :
    (mqttGetPublishData signed length).value (p.bytes ++ more) = p.dataPlace length := by
  have hlength' := hlength
  have hbytes := p.length_bytes
  rw [length_bytes] at hlength' hfits
  have htopic := p.topic_pos
  have hidentifier := p.length_identifier
  have hremaining : p.remaining = 2 + p.topic.length + p.identifier.length + p.payload.length := rfl
  have hpayload : p.payload = [] ↔ p.payload.length = 0 := List.length_eq_zero_iff.symm
  have htotal := signed.addShifted_eq (p.remaining : Int) (p.continued + 2) 0 (by positivity) (by push_cast; omega)
  rw [mqttGetPublishData, value_bind, lengthField_value more p hlength (by omega)]
  dsimp only
  rw [htotal, value_ite, if_neg (by omega), value_bind, topicLength_value, dataPlace]
  simp only [hpayload]
  by_cases hqos : p.qos = 0
  · rw [if_pos hqos] at hidentifier
    simp only [value_ite, value_bind, value_pure, qos_value, hqos, lt_irrefl, gt_iff_lt, false_and, if_false, if_true]
    split_ifs <;> simp only [Prod.mk.injEq, Option.some.injEq, reduceCtorEq, false_and] <;> omega
  · rw [if_neg hqos] at hidentifier
    have hpos : 0 < p.qos := Nat.pos_of_ne_zero hqos
    simp only [value_ite, value_bind, value_pure, qos_value, hqos, hpos, gt_iff_lt, true_and, if_false, if_true]
    split_ifs <;> simp only [Prod.mk.injEq, Option.some.injEq, reduceCtorEq, false_and] <;> omega

/-- The identifier is found unless the packet ends with it at the end of the buffer. -/
def idFound (p : Publish) (length : Nat) : Nat :=
  if p.qos = 0 ∨ p.payload = [] ∧ p.bytes.length = length then 0 else p.id

theorem id_value (p : Publish) {length : Nat} (hlength : p.bytes.length ≤ length) :
    (mqttGetId length).value (p.bytes ++ more) = p.idFound length := by
  have hlength' := hlength
  have hbytes := p.length_bytes
  rw [length_bytes] at hlength'
  have htopic := p.topic_pos
  have hidentifier := p.length_identifier
  have hremaining : p.remaining = 2 + p.topic.length + p.identifier.length + p.payload.length := rfl
  rw [mqttGetId, value_ite, if_neg (by omega), value_bind, type_value]
  dsimp only
  rw [value_bind, skipLengthField_value more p hlength, value_ite, if_neg (by omega), value_bind, topicLength_value,
    idFound]
  by_cases hqos : p.qos = 0
  · simp only [value_ite, value_bind, value_pure, qos_value, hqos, gt_iff_lt, lt_irrefl, if_false, true_or, if_true,
      ite_self]
  · rw [if_neg hqos] at hidentifier
    have hid : (word16 (p.continued + 2 + 2 + p.topic.length)).value (p.bytes ++ more) = p.id := by
      have hword : p.identifier = word p.id := if_neg hqos
      have hvalue := word16_append (p.fixedHeader ++ word p.topic.length ++ p.topic) (p.payload ++ more) p.id_lt
      rw [List.length_append, List.length_append, length_fixedHeader, length_word] at hvalue
      rw [bytes_append_topic, hword]
      simpa only [List.append_assoc] using hvalue
    rw [value_ite, if_neg (by omega), value_bind, qos_value, value_ite, if_pos (Nat.pos_of_ne_zero hqos), value_ite]
    by_cases hend : p.payload = [] ∧ p.bytes.length = length
    · have hpayload := List.length_eq_zero_iff.mpr hend.1
      rw [if_pos (by omega), if_pos (.inr hend), value_pure]
    · have hroom : 0 < p.payload.length ∨ p.bytes.length ≠ length := by
        rw [List.length_pos_iff]
        exact not_and_or.mp hend
      rw [if_neg (by omega), hid, if_neg (not_or.mpr ⟨hqos, hend⟩)]

theorem topic_slice (p : Publish) :
    ((p.bytes ++ more).drop (p.continued + 4)).take p.topic.length = p.topic := by
  rw [bytes_append_topic, ← List.append_assoc,
    List.drop_left' (by rw [List.length_append, length_fixedHeader, length_word]), List.take_left]

theorem payload_slice (p : Publish) :
    ((p.bytes ++ more).drop (p.continued + 4 + p.topic.length + p.identifier.length)).take p.payload.length =
      p.payload := by
  have hsplit : p.bytes ++ more =
      (p.fixedHeader ++ word p.topic.length ++ p.topic ++ p.identifier) ++ (p.payload ++ more) := by
    simp [bytes]
  rw [hsplit, List.drop_left' (by simp only [List.length_append, length_fixedHeader, length_word]), List.take_left]

/-- The arguments of the message callback. A QoS 1 or 2 packet without payload that fills its callback gives
the null pointer and the length of the callback. -/
def callback (p : Publish) (length : Nat) : Callback :=
  .message (.bytes p.topic)
    (if p.payload ≠ [] then some (.bytes p.payload)
    else if p.bytes.length = length ∧ p.qos ≠ 0 then some (.null length)
    else none)

theorem messageArguments_value (p : Publish) {s : Client} {length : Nat}
    (hcells : s.inBuffer.cells = p.bytes ++ more) :
    (s.messageArguments (some (p.continued + 4), p.topic.length) (p.dataPlace length)).1 = p.callback length := by
  have hpos : 0 < p.bytes.length := by rw [length_bytes]; omega
  unfold messageArguments dataPlace Publish.callback
  by_cases hpayload : p.payload = []
  · by_cases hlast : p.bytes.length = length
    · by_cases hqos : p.qos = 0
      · simp [pushText, hpayload, hlast, hqos, hcells, topic_slice]
      · have hlen : 0 < length := by omega
        simp [pushText, hpayload, hlast, hqos, hcells, topic_slice, hlen]
    · simp [pushText, hpayload, hlast, hcells, topic_slice]
  · have hlen : 0 < p.payload.length := List.length_pos_iff.mpr hpayload
    simp [pushText, hpayload, hlen, hcells, topic_slice, payload_slice]

end Publish

/-! ### The packets of other kinds -/

namespace Control

theorem length_bytes (p : Control) : p.bytes.length = p.continued + 2 + p.body.length := by
  rw [bytes, List.length_cons, List.length_append, length_lengthBytes]
  omega

theorem type_value (p : Control) : mqttGetType.value (p.bytes ++ more) = some p.type := by
  have hbyte : (cell 0).value (p.bytes ++ more) = UInt8.ofNat (p.type.number * 16 + p.flags) := rfl
  have hflags := p.flags_lt
  have hnumber : p.type.number < 16 := by cases p.type <;> decide
  rw [mqttGetType, value_bind, hbyte, value_pure, UInt8.toNat_ofNat',
    show (p.type.number * 16 + p.flags) % 2 ^ 8 / 16 = p.type.number by omega, MessageType.ofNumber_number]

theorem id_value (p : Control) : (mqttGetId 1024).value (p.bytes ++ more) = (mqttGetId 1024).value p.bytes := by
  have htype := p.type_value more
  have htype' := p.type_value []
  rw [List.append_nil] at htype'
  have hcell : ∀ i < p.bytes.length, (cell i).value (p.bytes ++ more) = (cell i).value p.bytes := by
    intro i hi
    rw [value_cell, value_cell, List.getD_eq_getElem?_getD, List.getD_eq_getElem?_getD, List.getElem?_append_left hi]
  have hbytes := p.length_bytes
  have hidentified := p.identified
  rw [mqttGetId, if_neg (by decide), value_bind, value_bind, htype, htype']
  cases hkind : p.type with
  | publish => exact absurd hkind p.type_ne
  | connect | connack | pingreq | pingresp | disconnect | unsubscribe => rfl
  | puback | pubrec | pubrel | pubcomp | suback | unsuback | subscribe =>
    have hbody : 2 ≤ p.body.length := hidentified (by rw [hkind]; decide)
    dsimp only
    simp only [word16, value_ite, value_bind, value_pure]
    rw [hcell 1 (by omega), hcell 2 (by omega), hcell 3 (by omega)]

end Control

/-! ### A packet at the start of the buffer -/

/-- A control packet. -/
inductive Packet where
  | publish (p : Publish)
  | control (p : Control)

namespace Packet

def bytes : Packet → List UInt8
  | publish p => p.bytes
  | control p => p.bytes

theorem type_value_iff (p : Packet) :
    mqttGetType.value (p.bytes ++ more) = some .publish ↔ ∃ q, p = .publish q := by
  cases p with
  | publish p => exact iff_of_true (p.type_value more) ⟨p, rfl⟩
  | control p =>
    refine iff_of_false ?_ (by rintro ⟨q, hq⟩; exact nomatch hq)
    rw [bytes, p.type_value more, Option.some.injEq]
    exact p.type_ne

theorem length_pos (p : Packet) : 0 < p.bytes.length := by
  cases p with
  | publish p => rw [bytes, p.length_bytes]; omega
  | control p => rw [bytes, p.length_bytes]; omega

end Packet

namespace Client

variable {s : Client} {program : Program}

/-- The message callback, if there is one. -/
def deliver (program : Program) (s : Client) (callback : Callback) : Client × List Action :=
  if s.messageRef ∧ s.selfRef then s.call program callback else (s, [])

/-- What the client does with a packet at the start of a number of bytes. -/
def take (program : Program) (signed : Signed) (s : Client) (len : Nat) : Packet → Client × List Action
  | .publish p =>
    let (s, written) := s.acknowledge p.qos (p.idFound 1024)
    let (s, called) := s.deliver program (p.callback len)
    (s, written ++ called)
  | .control p => s.handle program signed 0 0 ((mqttGetId 1024).value p.bytes) (some p.type)

theorem acknowledge_inBuffer (qos id : Nat) : (s.acknowledge qos id).1.inBuffer = s.inBuffer := by
  unfold acknowledge
  split_ifs <;> rfl

/-- Apart from the reads of `in_buffer`, a PUBLISH packet is delivered with the arguments of its callback. -/
theorem deliverPublish_deliver {p : Publish} {len : Nat} (hcells : s.inBuffer.cells = p.bytes ++ more)
    (hlength : p.bytes.length ≤ len) {β : Type} {f : Action → Option β} (hf : ∀ indices, f (.read indices) = none) :
    (s.deliverPublish program signed len).1 = (s.deliver program (p.callback len)).1 ∧
      (s.deliverPublish program signed len).2.filterMap f = (s.deliver program (p.callback len)).2.filterMap f := by
  have hfits : p.bytes.length ≤ 1024 := by
    have hsize := congrArg List.length hcells
    rw [s.inBuffer.size_eq, List.length_append] at hsize
    omega
  have htopic := @Publish.topic_value signed more p len hlength (by omega)
  have hdata := @Publish.data_value signed more p len hlength (by omega)
  rw [← hcells] at htopic hdata
  have harguments := @Publish.messageArguments_value more p s len hcells
  have hpush : ∀ text, (s.pushText text).2.filterMap f = [] := by
    rintro ⟨_ | i, k⟩
    · rfl
    · simp [pushText, hf]
  have hpushed : ∀ topic data, (s.messageArguments topic data).2.filterMap f = [] := by
    intro topic data
    unfold messageArguments
    dsimp only
    split_ifs
    · rw [List.filterMap_append, hpush, hpush, List.append_nil]
    · exact hpush _
  unfold deliverPublish deliver
  simp only [reading, htopic, hdata]
  split_ifs
  · rw [harguments]
    refine ⟨rfl, ?_⟩
    simp only [List.filterMap_append, List.filterMap_cons, List.filterMap_nil, hf, hpushed, List.nil_append]
  · refine ⟨rfl, ?_⟩
    simp only [List.filterMap_append, List.filterMap_cons, List.filterMap_nil, hf, List.nil_append]

/-- Apart from the reads of `in_buffer`, a message is handled like the packet it is. -/
theorem packet_take {p : Packet} {len : Nat} (hcells : s.inBuffer.cells = p.bytes ++ more)
    (hlength : p.bytes.length ≤ len) (hlen : len ≤ 1024) {β : Type} {f : Action → Option β}
    (hf : ∀ indices, f (.read indices) = none) :
    (s.packet program signed len).1 = (s.take program signed len p).1 ∧
      (s.packet program signed len).2.filterMap f = (s.take program signed len p).2.filterMap f := by
  cases p with
  | publish p =>
    rw [Packet.bytes] at hcells hlength
    have htype := p.type_value more
    have hqos := p.qos_value more
    have hid := @Publish.id_value more p 1024 (by omega)
    rw [← hcells] at htype hqos hid
    have hcells' : (s.acknowledge p.qos (p.idFound 1024)).1.inBuffer.cells = p.bytes ++ more := by
      rw [acknowledge_inBuffer, hcells]
    obtain ⟨hstate, hactions⟩ := @deliverPublish_deliver signed more _ program p len hcells' hlength _ f hf
    unfold packet take
    simp only [reading, htype, hqos, hid, handle]
    refine ⟨hstate, ?_⟩
    simp only [List.filterMap_append, List.filterMap_cons, List.filterMap_nil, hf, hactions, List.nil_append]
  | control p =>
    rw [Packet.bytes] at hcells
    have htype := p.type_value more
    have hid := p.id_value more
    rw [← hcells] at htype hid
    have hne := p.type_ne
    have hhandle : ∀ len qos id, s.handle program signed len qos id (some p.type) =
        s.handle program signed 0 0 id (some p.type) := by
      intro len qos id
      cases hkind : p.type with
      | publish => exact absurd hkind hne
      | _ => rfl
    unfold packet take
    simp only [reading, htype, hid, hhandle len]
    refine ⟨trivial, ?_⟩
    simp only [List.filterMap_append, List.filterMap_cons, List.filterMap_nil, hf, List.nil_append]

theorem load_cells (s : Client) {pdata : List UInt8} (hlen : pdata.length ≤ 1024) :
    (s.load pdata).inBuffer.cells = pdata ++ s.inBuffer.cells.drop pdata.length := by
  have hstore := store_eq s.inBuffer.cells 0 pdata (by rw [s.inBuffer.size_eq]; omega)
  rw [List.take_zero, List.nil_append, Nat.zero_add] at hstore
  exact hstore

theorem messageLength_publish {p : Publish} {len : Nat} (hcells : s.inBuffer.cells = p.bytes ++ more)
    (hlength : p.bytes.length ≤ len) (hfits : p.bytes.length ≤ 1024) :
    s.messageLength signed len = p.bytes.length := by
  rw [messageLength, hcells, p.totalLength_value more hlength (by omega)]
  omega

/-- Another message follows exactly if the packet is a PUBLISH packet and not the end of the data. -/
theorem another_iff {p : Packet} {len : Nat} (hcells : s.inBuffer.cells = p.bytes ++ more)
    (hlength : p.bytes.length ≤ len) (hlen : len ≤ 1024) :
    s.Another signed len ↔ (∃ q, p = .publish q) ∧ p.bytes.length < len := by
  rw [Another, hcells, p.type_value_iff]
  refine and_congr_right ?_
  rintro ⟨q, rfl⟩
  rw [Packet.bytes] at hcells hlength ⊢
  rw [messageLength_publish more hcells hlength (by omega)]

end Client

end EspClock.Mqtt
