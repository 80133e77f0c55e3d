import Mathlib.Data.Nat.Log
import Mathlib.Tactic.IntervalCases
import EspClock.Mqtt.Builder
import EspClock.Lib.Decimal

/-!
# The CONNECT packet

A CONNECT packet of protocol level 4 by its fields: the bytes it consists of, and a decoder that reads the
fields where the flag byte says they are. The decoder undoes the encoding, and `mqtt_msg_connect` builds
the encoding of the fields it is given, unless they do not fit the buffer.
-/

namespace EspClock.Mqtt

open Mem Decimal

structure Will where
  topic : List UInt8
  message : List UInt8
  qos : Nat
  retain : Bool
  deriving DecidableEq

/-- The fields of a CONNECT packet. -/
structure Connect where
  clientId : List UInt8
  keepalive : Nat
  cleanSession : Bool
  will : Option Will
  username : Option (List UInt8)
  password : Option (List UInt8)
  deriving DecidableEq

/-! ### Encoding -/

/-- The length field of a packet, as short as it can be. -/
def encodeLength (n : Nat) : List UInt8 := lengthBytes (Nat.log 128 n) n

def encodeOptional (string : Option (List UInt8)) : List UInt8 := (string.map encodeString).getD []

namespace Connect

def willFlags (p : Connect) : Nat :=
  match p.will with
  | none => 0
  | some w => 4 + w.qos * 8 + w.retain.toNat * 32

def flags (p : Connect) : UInt8 :=
  UInt8.ofNat (p.cleanSession.toNat * 2 + p.willFlags + p.password.isSome.toNat * 64 + p.username.isSome.toNat * 128)

def willBytes (p : Connect) : List UInt8 :=
  match p.will with
  | none => []
  | some w => encodeString w.topic ++ encodeString w.message

def body (p : Connect) : List UInt8 :=
  encodeString (ascii "MQTT") ++ 4 :: p.flags :: (word p.keepalive ++ (encodeString p.clientId ++
    (p.willBytes ++ (encodeOptional p.username ++ encodeOptional p.password))))

def encode (p : Connect) : List UInt8 := 16 :: (encodeLength p.body.length ++ p.body)

end Connect

/-! ### Decoding -/

def takeByte : List UInt8 → Option (UInt8 × List UInt8)
  | [] => none
  | b :: bytes => some (b, bytes)

def takeWord (bytes : List UInt8) : Option (Nat × List UInt8) := do
  let (high, bytes) ← takeByte bytes
  let (low, bytes) ← takeByte bytes
  pure (high.toNat * 256 + low.toNat, bytes)

def takeString (bytes : List UInt8) : Option (List UInt8 × List UInt8) := do
  let (n, bytes) ← takeWord bytes
  guard (n ≤ bytes.length)
  pure (bytes.take n, bytes.drop n)

/-- A length field of a number of bytes at most. -/
def takeLength : Nat → List UInt8 → Option (Nat × List UInt8)
  | 0, _ => none
  | left + 1, bytes => do
    let (b, bytes) ← takeByte bytes
    if b.toNat < 128 then pure (b.toNat, bytes)
    else do
      let (n, bytes) ← takeLength left bytes
      pure (b.toNat % 128 + 128 * n, bytes)

def takeOptional (present : Bool) (bytes : List UInt8) : Option (Option (List UInt8) × List UInt8) :=
  if present then (takeString bytes).map fun (string, bytes) => (some string, bytes) else some (none, bytes)

def bit (flags : UInt8) (k : Nat) : Bool := flags.toNat / 2 ^ k % 2 = 1

def takeWill (flags : UInt8) (bytes : List UInt8) : Option (Option Will × List UInt8) :=
  if bit flags 2 then do
    let (topic, bytes) ← takeString bytes
    let (message, bytes) ← takeString bytes
    pure (some ⟨topic, message, flags.toNat / 8 % 4, bit flags 5⟩, bytes)
  else some (none, bytes)

/-- The fields of a packet that is nothing but a CONNECT packet. -/
def decodeConnect (bytes : List UInt8) : Option Connect := do
  let (type, bytes) ← takeByte bytes
  let (remaining, bytes) ← takeLength 4 bytes
  guard (type = 16 ∧ remaining = bytes.length)
  let (name, bytes) ← takeString bytes
  let (level, bytes) ← takeByte bytes
  guard (name = ascii "MQTT" ∧ level = 4)
  let (flags, bytes) ← takeByte bytes
  let (keepalive, bytes) ← takeWord bytes
  let (clientId, bytes) ← takeString bytes
  let (will, bytes) ← takeWill flags bytes
  let (username, bytes) ← takeOptional (bit flags 7) bytes
  let (password, bytes) ← takeOptional (bit flags 6) bytes
  guard (bit flags 0 = false ∧ bytes = [])
  pure ⟨clientId, keepalive, bit flags 1, will, username, password⟩

/-! ### The decoder undoes the encoding -/

theorem takeWord_append {n : Nat} (hn : n < 65536) (rest : List UInt8) : takeWord (word n ++ rest) = some (n, rest) := by
  have hbytes : n / 256 % 256 * 256 + n % 256 = n := by omega
  simp [takeWord, takeByte, word, hbytes]

theorem takeString_append (string : List UInt8) (hstring : string.length < 65536) (rest : List UInt8) :
    takeString (encodeString string ++ rest) = some (string, rest) := by
  rw [encodeString, List.append_assoc, takeString, takeWord_append hstring]
  simp

theorem takeLength_append {continued n left : Nat} (hn : n < 128 ^ (continued + 1)) (hleft : continued < left)
    (rest : List UInt8) : takeLength left (lengthBytes continued n ++ rest) = some (n, rest) := by
  induction continued generalizing n left with
  | zero =>
    obtain ⟨left, rfl⟩ : ∃ k, left = k + 1 := ⟨left - 1, by omega⟩
    have hsmall : n < 128 := by simpa using hn
    have hbyte : n % 256 = n := by omega
    simp [takeLength, lengthBytes, takeByte, hbyte, hsmall]
  | succ continued ih =>
    obtain ⟨left, rfl⟩ : ∃ k, left = k + 1 := ⟨left - 1, by omega⟩
    have hquotient : n / 128 < 128 ^ (continued + 1) := by
      rw [Nat.div_lt_iff_lt_mul (by norm_num)]
      rwa [pow_succ] at hn
    have hrest := @ih (n / 128) left hquotient (by omega)
    have hcontinued : ¬ (128 + n % 128) % 256 < 128 := by omega
    have hsum : n % 128 + 128 * (n / 128) = n := Nat.mod_add_div n 128
    simp [takeLength, lengthBytes, takeByte, hrest, hcontinued, hsum]

theorem takeOptional_append {string : Option (List UInt8)} (hstring : ∀ s ∈ string, s.length < 65536) (rest : List UInt8) :
    takeOptional string.isSome (encodeOptional string ++ rest) = some (string, rest) := by
  cases string with
  | none => rfl
  | some string => simp [takeOptional, encodeOptional, takeString_append string (hstring string rfl)]

theorem bit_eq_iff (flags : UInt8) (k : Nat) (b : Bool) : bit flags k = b ↔ flags.toNat / 2 ^ k % 2 = b.toNat := by
  cases b with
  | false => simp [bit]
  | true => simp [bit]

namespace Connect

/-- A packet that its length fields can describe. -/
structure Encodable (p : Connect) : Prop where
  keepalive_lt : p.keepalive < 65536
  qos_lt : ∀ w ∈ p.will, w.qos < 4
  body_lt : p.body.length < 65536

theorem length_body (p : Connect) : p.body.length = 12 + p.clientId.length + p.willBytes.length +
    (encodeOptional p.username).length + (encodeOptional p.password).length := by
  simp [body, ascii]
  omega

theorem willFlags_eq {p : Connect} (h : p.Encodable) : ∃ n < 8, p.willFlags = p.will.isSome.toNat * 4 + n * 8 := by
  unfold willFlags
  cases hwill : p.will with
  | none => exact ⟨0, by decide, rfl⟩
  | some w =>
    have hqos := h.qos_lt w (by simp [hwill])
    have hretain := w.retain.toNat_le
    refine ⟨w.qos + w.retain.toNat * 4, by omega, ?_⟩
    simp only [Option.isSome_some, Bool.toNat_true]
    omega

theorem flags_toNat {p : Connect} (h : p.Encodable) :
    p.flags.toNat = p.cleanSession.toNat * 2 + p.willFlags + p.password.isSome.toNat * 64 +
      p.username.isSome.toNat * 128 := by
  have hclean := p.cleanSession.toNat_le
  have hpassword := p.password.isSome.toNat_le
  have husername := p.username.isSome.toNat_le
  have hpresent := p.will.isSome.toNat_le
  obtain ⟨n, hn, hwill⟩ := willFlags_eq h
  rw [flags, UInt8.toNat_ofNat']
  omega

/-- The flag byte says which fields are there. -/
theorem bits {p : Connect} (h : p.Encodable) :
    bit p.flags 0 = false ∧ bit p.flags 1 = p.cleanSession ∧ bit p.flags 2 = p.will.isSome ∧
      bit p.flags 6 = p.password.isSome ∧ bit p.flags 7 = p.username.isSome := by
  have hclean := p.cleanSession.toNat_le
  have hpassword := p.password.isSome.toNat_le
  have husername := p.username.isSome.toNat_le
  have hpresent := p.will.isSome.toNat_le
  obtain ⟨n, hn, hwill⟩ := willFlags_eq h
  simp only [bit_eq_iff, flags_toNat h, Bool.toNat_false]
  refine ⟨by omega, by omega, by omega, by omega, by omega⟩

theorem takeWill_append {p : Connect} (h : p.Encodable) (rest : List UInt8) :
    takeWill p.flags (p.willBytes ++ rest) = some (p.will, rest) := by
  obtain ⟨-, -, hpresent, -, -⟩ := bits h
  have hbody := h.body_lt
  have hlength := p.length_body
  have hflags := flags_toNat h
  have hclean := p.cleanSession.toNat_le
  have hpassword := p.password.isSome.toNat_le
  have husername := p.username.isSome.toNat_le
  rw [takeWill, hpresent]
  cases hwill : p.will with
  | none => simp [willBytes, hwill]
  | some w =>
    have hbytes : p.willBytes = encodeString w.topic ++ encodeString w.message := by rw [willBytes, hwill]
    have hqos := h.qos_lt w (by simp [hwill])
    have hretain := w.retain.toNat_le
    have hnumber : p.willFlags = 4 + w.qos * 8 + w.retain.toNat * 32 := by rw [willFlags, hwill]
    rw [hbytes, List.length_append, length_encodeString, length_encodeString] at hlength
    have htopic := takeString_append w.topic (by omega) (encodeString w.message ++ rest)
    have hmessage := takeString_append w.message (by omega) rest
    have hqosBits : p.flags.toNat / 8 % 4 = w.qos := by omega
    have hretainBit : bit p.flags 5 = w.retain := by
      rw [bit_eq_iff]
      omega
    rw [hbytes, List.append_assoc]
    simp [htopic, hmessage, hqosBits, hretainBit]

theorem decode_encode (p : Connect) (h : p.Encodable) : decodeConnect p.encode = some p := by
  obtain ⟨hreserved, hclean, -, hpassword, husername⟩ := bits h
  have hbody := h.body_lt
  have hlength := p.length_body
  have hshort : ∀ string : Option (List UInt8), (encodeOptional string).length ≤ p.body.length →
      ∀ s ∈ string, s.length < 65536 := by
    rintro _ hle s rfl
    simp only [encodeOptional, Option.map_some, Option.getD_some, length_encodeString] at hle
    omega
  have hsize := @takeLength_append (Nat.log 128 p.body.length) p.body.length 4
    (Nat.lt_pow_succ_log_self (by decide) p.body.length) (Nat.log_lt_of_lt_pow' (by decide) (by omega)) p.body
  have hname := takeString_append (ascii "MQTT") (by decide) (4 :: p.flags :: (word p.keepalive ++
    (encodeString p.clientId ++ (p.willBytes ++ (encodeOptional p.username ++ encodeOptional p.password)))))
  have hkeepalive := takeWord_append h.keepalive_lt (encodeString p.clientId ++
    (p.willBytes ++ (encodeOptional p.username ++ encodeOptional p.password)))
  have hclient := takeString_append p.clientId (by omega)
    (p.willBytes ++ (encodeOptional p.username ++ encodeOptional p.password))
  have hwill := takeWill_append h (encodeOptional p.username ++ encodeOptional p.password)
  have huser := takeOptional_append (hshort p.username (by omega)) (encodeOptional p.password)
  have hpass := takeOptional_append (hshort p.password (by omega)) []
  rw [List.append_nil] at hpass
  rw [encode, decodeConnect]
  simp only [takeByte, encodeLength, Option.bind_eq_bind, Option.bind_some, hsize]
  simp only [body, hname, hkeepalive, hclient, hwill, husername, hpassword, huser, hpass, hreserved, hclean, Option.bind_some]
  simp

end Connect

/-! ### The builder -/

/-- A string that is left out when it is empty. -/
def optional (string : List UInt8) : Option (List UInt8) := if string = [] then none else some string

/-- The fields that the information asks for. Without a topic there is no will. -/
def ConnectInfo.fields (info : ConnectInfo) : Connect where
  clientId := info.clientId
  keepalive := info.keepalive
  cleanSession := info.cleanSession
  will := if info.willTopic = [] then none else some ⟨info.willTopic, info.willMessage, info.willQos, info.willRetain⟩
  username := optional info.username
  password := optional info.password

namespace Connection

variable {c : Connection} {capacity keepalive : Nat} {flags : UInt8} {tail : List UInt8}

/-- The parts of a CONNECT message, with the flags set so far. -/
def connectParts (flags : UInt8) (keepalive : Nat) (tail : List UInt8) : List UInt8 :=
  (encodeString (ascii "MQTT") ++ [4]) ++ flags :: (word keepalive ++ tail)

theorem connectParts_append (flags : UInt8) (keepalive : Nat) (tail more : List UInt8) :
    connectParts flags keepalive tail ++ more = connectParts flags keepalive (tail ++ more) := by
  simp [connectParts]

theorem length_connectParts (flags : UInt8) (keepalive : Nat) (tail : List UInt8) :
    (connectParts flags keepalive tail).length = 10 + tail.length := by
  simp [connectParts, ascii]
  omega

theorem connectParts_length_le {tail' : List UInt8} (h : tail.length ≤ tail'.length) (flags flags' : UInt8) :
    (connectParts flags keepalive tail).length ≤ (connectParts flags' keepalive tail').length := by
  rw [length_connectParts, length_connectParts]
  exact Nat.add_le_add_left h 10

theorem Built.setFlag (h : Built capacity c (connectParts flags keepalive tail)) (flag : Nat) :
    Built capacity (c.orFlag flag) (connectParts (flags ||| UInt8.ofNat flag) keepalive tail) :=
  h.orFlag rfl (by decide) flag

theorem Built.appendField (h : Built capacity c (connectParts flags keepalive tail)) (hcapacity : capacity ≤ 1024)
    (string : List UInt8) :
    Builds capacity (connectParts flags keepalive (tail ++ encodeString string)) (c.appendString string) := by
  rw [← connectParts_append]
  exact h.appendString hcapacity string

def orIf (present : Bool) (flags flag : UInt8) : UInt8 := if present then flags ||| flag else flags

/-- The flags of the will. -/
def orWill (flags : UInt8) (info : ConnectInfo) : UInt8 :=
  if info.willTopic = [] then flags
  else orIf info.willRetain (flags ||| 4) 32 ||| UInt8.ofNat (info.willQos % 4 * 8)

theorem Built.appendWill (h : Built capacity c (connectParts flags keepalive tail)) (hcapacity : capacity ≤ 1024)
    (info : ConnectInfo) :
    Builds capacity (connectParts (orWill flags info) keepalive (tail ++ info.fields.willBytes)) (c.appendWill info) := by
  unfold Connection.appendWill orWill Connect.willBytes ConnectInfo.fields
  by_cases htopic : info.willTopic = []
  · simpa [htopic] using h
  · simp only [if_neg htopic]
    refine (h.appendField hcapacity info.willTopic).bind (connectParts_length_le (by simp) _ _) fun c hc => ?_
    refine (hc.appendField hcapacity info.willMessage).bind (connectParts_length_le (by simp) _ _) fun c hc => ?_
    rw [List.append_assoc] at hc
    cases hretain : info.willRetain with
    | true => exact ((hc.setFlag 4).setFlag 32).setFlag (info.willQos % 4 * 8)
    | false => exact (hc.setFlag 4).setFlag (info.willQos % 4 * 8)

theorem Built.appendOptional (h : Built capacity c (connectParts flags keepalive tail)) (hcapacity : capacity ≤ 1024)
    (string : List UInt8) (flag : Nat) :
    Builds capacity (connectParts (orIf (optional string).isSome flags (UInt8.ofNat flag)) keepalive
      (tail ++ encodeOptional (optional string))) (c.appendOptional string flag) := by
  unfold Connection.appendOptional orIf optional
  by_cases hstring : string = []
  · simpa [hstring, encodeOptional] using h
  · simp only [if_neg hstring]
    refine (h.appendField hcapacity string).bind (connectParts_length_le le_rfl _ _) fun c hc => ?_
    exact hc.setFlag flag

/-- The flags set one after another are those of the packet. -/
theorem flags_fields {info : ConnectInfo} (hqos : info.willQos ≤ 2) :
    orIf (optional info.password).isSome (orIf (optional info.username).isSome
      (orWill (orIf info.cleanSession 0 2) info) 128) 64 = info.fields.flags := by
  unfold orWill Connect.flags Connect.willFlags ConnectInfo.fields
  generalize (optional info.password).isSome = password
  generalize (optional info.username).isSome = username
  generalize info.cleanSession = clean
  by_cases hwill : info.willTopic = []
  · simp only [if_pos hwill]
    revert password username clean
    decide
  · simp only [if_neg hwill]
    generalize info.willRetain = retain
    generalize info.willQos = qos at hqos
    interval_cases qos
    all_goals
      revert password username clean retain
      decide

theorem body_fields (info : ConnectInfo) : info.fields.body = connectParts info.fields.flags info.keepalive
    (encodeString info.clientId ++ (info.fields.willBytes ++
      (encodeOptional (optional info.username) ++ encodeOptional (optional info.password)))) := by
  simp [Connect.body, connectParts, ConnectInfo.fields]

/-- What `mqtt_msg_connect` puts together, or what does not fit. -/
theorem mqttMsgConnect_builds {info : ConnectInfo} (hbuffer : c.bufferLength = 1024) (hclient : info.clientId ≠ [])
    (hqos : info.willQos ≤ 2) :
    ∃ result, c.mqttMsgConnect info = fini .connect 0 0 0 result ∧ Builds 1024 info.fields.body result := by
  refine ⟨_, rfl, ?_⟩
  have hempty : Built 1024 c.initMessage [] := hbuffer ▸ built_initMessage (by omega)
  have hroom : ¬ c.initMessage.length + 10 > c.initMessage.bufferLength := by
    change ¬ 3 + 10 > c.bufferLength
    omega
  have hheader := hempty.push le_rfl (connectParts 0 info.keepalive []) (by
    rw [List.nil_append, length_connectParts]
    decide)
  rw [List.nil_append] at hheader
  have hclean : Built 1024 (if info.cleanSession then (c.initMessage.push (connectParts 0 info.keepalive [])).orFlag 2
      else c.initMessage.push (connectParts 0 info.keepalive []))
      (connectParts (orIf info.cleanSession 0 2) info.keepalive []) := by
    cases info.cleanSession with
    | false => exact hheader
    | true => exact hheader.setFlag 2
  rw [body_fields, ← flags_fields hqos]
  simp only [if_neg hroom, if_neg hclient]
  refine Builds.bind (hclean.appendField le_rfl info.clientId) (connectParts_length_le (by simp) _ _) fun c hc => ?_
  refine Builds.bind (hc.appendWill le_rfl info) (connectParts_length_le (by simp) _ _) fun c hc => ?_
  refine Builds.bind (hc.appendOptional le_rfl info.username 128) (connectParts_length_le (by simp) _ _) fun c hc => ?_
  have hlast := hc.appendOptional le_rfl info.password 64
  rw [List.nil_append, List.append_assoc, List.append_assoc] at hlast
  exact hlast

end Connection

theorem encodeLength_eq {n : Nat} (hn : n < 128 * 128) : encodeLength n = lengthBytes (if n < 128 then 0 else 1) n := by
  rw [encodeLength]
  split_ifs with hshort
  · rw [Nat.log_of_lt hshort]
  · rw [Nat.log_eq_one_iff'.mpr ⟨not_lt.mp hshort, hn⟩]

/-- Three bytes in front of the body are enough for a packet that fits, and needed for one that does not. -/
theorem encode_fits_iff (p : Connect) : p.encode.length ≤ 1024 ↔ 3 + p.body.length ≤ 1024 := by
  by_cases hsmall : p.body.length < 128 * 128
  · rw [Connect.encode, encodeLength_eq hsmall, List.length_cons, List.length_append, length_lengthBytes]
    split_ifs
    · omega
    · omega
  · rw [Connect.encode, List.length_cons, List.length_append]
    omega

theorem ConnectInfo.fields_qos {info : ConnectInfo} (hqos : info.willQos ≤ 2) : ∀ w ∈ info.fields.will, w.qos < 4 := by
  intro w hw
  unfold fields at hw
  by_cases htopic : info.willTopic = []
  · simp [htopic] at hw
  · obtain rfl : _ = w := by simpa [htopic] using hw
    exact Nat.lt_of_le_of_lt hqos (by decide)

/-- A CONNECT message is either the packet of the fields it was built from or given up, and it is given up
exactly when the packet does not fit the buffer. -/
theorem connect_read_back (c : Connection) (info : ConnectInfo) (hbuffer : c.bufferLength = 1024)
    (hclient : info.clientId ≠ []) (hkeepalive : info.keepalive < 65536) (hqos : info.willQos ≤ 2) :
    ((c.mqttMsgConnect info).length = 0 ∨ decodeConnect (c.mqttMsgConnect info).message = some info.fields) ∧
      ((c.mqttMsgConnect info).length = 0 ↔ 1024 < info.fields.encode.length) := by
  obtain ⟨result, heq, hbuilds⟩ := Connection.mqttMsgConnect_builds hbuffer hclient hqos
  have hgiven : (c.mqttMsgConnect info).length = 0 ↔ 1024 < 3 + info.fields.body.length := by
    rw [heq]
    exact hbuilds.fini .connect 0 0 0
  refine ⟨?_, ?_⟩
  · by_cases hfits : 3 + info.fields.body.length ≤ 1024
    · right
      have hencodable : info.fields.Encodable := ⟨hkeepalive, ConnectInfo.fields_qos hqos, by omega⟩
      have hmessage := hbuilds.message_fini hfits .connect 0 0 0
      have hencode : (c.mqttMsgConnect info).message = info.fields.encode := by
        rw [heq, hmessage, Connect.encode, encodeLength_eq (by omega)]
        rfl
      rw [hencode]
      exact info.fields.decode_encode hencodable
    · exact .inl (hgiven.mpr (not_le.mp hfits))
  · rw [hgiven, ← not_le, ← not_le, encode_fits_iff]

/-- A client `c` with a retained will and a password, but no user name. -/
def lastWill : ConnectInfo := ⟨[99], [], [112], [116], [111, 102, 102], 60, 1, true, true⟩

theorem connect_read_back_will :
    ((Connection.fresh.mqttMsgConnect lastWill).length = 0 ∨
        decodeConnect (Connection.fresh.mqttMsgConnect lastWill).message =
          some ⟨[99], 60, true, some ⟨[116], [111, 102, 102], 1, true⟩, none, some [112]⟩) ∧
      ((Connection.fresh.mqttMsgConnect lastWill).length = 0 ↔ 1024 < lastWill.fields.encode.length) :=
  connect_read_back .fresh lastWill rfl (by decide) (by decide) (by decide)

end EspClock.Mqtt
