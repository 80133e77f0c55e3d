import EspClock.Mqtt.Frame

/-!
# The bounds of the input buffer

`mqtt_socket_received` copies all it is given to `in_buffer`, which has 1024 bytes. The check in front of the
copy asks for a length that is above 1024 and not above 0, so it never fires. What is read afterwards stays
below the length that was copied or below 1024, whatever the length field of a packet says, and what is left
of the data shrinks from packet to packet. So all accesses are in bounds exactly if the data has at most 1024
bytes.
-/

namespace EspClock.Mqtt

open Mem Reads

/-- A copy stays inside of `in_buffer` and of the data, a read inside of `in_buffer`. -/
def Action.InBounds (length : Nat) : Action → Prop
  | .copied offset count => count ≤ 1024 ∧ offset + count ≤ length
  | .read indices => ∀ i ∈ indices, i < 1024
  | _ => True

variable {signed : Signed} {cells : List UInt8} {length n : Nat}

/-! ### Taking a message apart -/

theorem lengthField_below (left i : Nat) (totlen : Int) (hn : length ≤ n) :
    (lengthField signed length left i totlen).Below n cells := by
  induction left generalizing i totlen with
  | zero => exact below_pure _
  | succ left ih =>
    rw [lengthField]
    apply below_unless
    intro hi
    apply below_bind
    · exact below_cell (by omega)
    · apply below_guard
      exact fun _ => ih _ _

theorem word16_below {i : Nat} (hi : i + 1 < n) : (word16 i).Below n cells := by
  apply below_bind
  · exact below_cell (by omega)
  · apply below_bind
    · exact below_cell hi
    · exact below_pure _

theorem mqttGetType_below (hn : 0 < n) : mqttGetType.Below n cells := by
  apply below_bind
  · exact below_cell hn
  · exact below_pure _

theorem mqttGetQos_below (hn : 0 < n) : mqttGetQos.Below n cells := by
  apply below_bind
  · exact below_cell hn
  · exact below_pure _

theorem mqttGetTotalLength_below (hn : length ≤ n) : (mqttGetTotalLength signed length).Below n cells := by
  apply below_bind
  · exact lengthField_below _ _ _ hn
  · exact below_pure _

theorem mqttGetPublishTopic_below (hn : length ≤ n) : (mqttGetPublishTopic signed length).Below n cells := by
  apply below_bind
  · exact lengthField_below _ _ _ hn
  · apply below_guard
    intro hi
    apply below_bind
    · exact word16_below (by omega)
    · apply below_guard
      exact fun _ => below_pure _

theorem mqttGetPublishData_below (hn : length ≤ n) : (mqttGetPublishData signed length).Below n cells := by
  apply below_bind
  · exact lengthField_below _ _ _ hn
  · apply below_guard
    intro hi
    apply below_bind
    · exact word16_below (by omega)
    · apply below_guard
      intro hi
      apply below_bind
      · exact mqttGetQos_below (by omega)
      · apply below_guard
        intro _
        apply below_guard
        intro _
        apply below_guard
        exact fun _ => below_pure _

theorem skipLengthField_below (left i : Nat) (hn : length ≤ n) : (skipLengthField length left i).Below n cells := by
  induction left generalizing i with
  | zero => exact below_pure _
  | succ left ih =>
    rw [skipLengthField]
    apply below_unless
    intro hi
    apply below_bind
    · exact below_cell (by omega)
    · apply below_guard
      exact fun _ => ih _

theorem mqttGetId_below (hn : length ≤ n) : (mqttGetId length).Below n cells := by
  apply below_guard
  intro hpos
  apply below_bind
  · exact mqttGetType_below (by omega)
  · have hshort : (if length ≥ 4 then do
        let b ← cell 1
        if b.toNat < 128 then word16 2 else pure 0
        else pure 0 : Reads UInt8 Nat).Below n cells := by
      apply below_unless
      intro hlong
      apply below_bind
      · exact below_cell (by omega)
      · apply below_unless
        exact fun _ => word16_below (by omega)
    rcases mqttGetType.value cells with _ | type
    · exact below_pure _
    · cases type with
      | publish =>
        apply below_bind
        · exact skipLengthField_below _ _ hn
        · apply below_guard
          intro hi
          apply below_bind
          · exact word16_below (by omega)
          · apply below_guard
            intro hi
            apply below_bind
            · exact mqttGetQos_below (by omega)
            · apply below_unless
              intro _
              apply below_guard
              exact fun hi => word16_below (by omega)
      | puback | pubrec | pubrel | pubcomp | suback | unsuback | subscribe => exact hshort
      | _ => exact below_pure _

/-- A topic that is found ends within the length. -/
theorem mqttGetPublishTopic_value {i k : Nat}
    (h : (mqttGetPublishTopic signed length).value cells = (some i, k)) : i + k ≤ length := by
  unfold mqttGetPublishTopic at h
  rw [value_bind] at h
  generalize (lengthField signed length length 1 0).value cells = field at h
  simp only [value_ite, value_bind, value_pure] at h
  split_ifs at h with hi htopic
  · cases h
  · cases h
  · cases h
    omega

/-- A payload that is found ends within the length, also when the length field says more. -/
theorem mqttGetPublishData_value {i k : Nat}
    (h : (mqttGetPublishData signed length).value cells = (some i, k)) : i + k ≤ length := by
  unfold mqttGetPublishData at h
  rw [value_bind] at h
  generalize (lengthField signed length length 1 0).value cells = field at h
  simp only [value_ite, value_bind, value_pure] at h
  generalize mqttGetQos.value cells = qos at h
  split_ifs at h <;> cases h
  all_goals omega

/-- For every buffer and every length, and however the sum of the length field ends: the accessors read only
below the length, and a topic or a payload that is found is a slice that ends within it. -/
theorem accessors_inBounds (signed : Signed) (cells : List UInt8) (length : Nat) :
    (mqttGetTotalLength signed length).Below length cells ∧
      (mqttGetPublishTopic signed length).Below length cells ∧
      (mqttGetPublishData signed length).Below length cells ∧
      (mqttGetId length).Below length cells ∧
      (∀ i ∈ ((mqttGetPublishTopic signed length).value cells).1,
        i + ((mqttGetPublishTopic signed length).value cells).2 ≤ length) ∧
      ∀ i ∈ ((mqttGetPublishData signed length).value cells).1,
        i + ((mqttGetPublishData signed length).value cells).2 ≤ length :=
  ⟨mqttGetTotalLength_below le_rfl, mqttGetPublishTopic_below le_rfl, mqttGetPublishData_below le_rfl,
    mqttGetId_below le_rfl, fun _ hi => mqttGetPublishTopic_value (Prod.ext hi rfl),
    fun _ hi => mqttGetPublishData_value (Prod.ext hi rfl)⟩

/-! ### Accesses of a receive callback -/

namespace Client

variable {s : Client} {program : Program}

theorem ofCalls_inBounds (length : Nat) : OfCalls (Action.InBounds length) :=
  ⟨fun _ _ => trivial, fun _ _ => trivial, trivial, fun _ => trivial⟩

theorem call_inBounds (program : Program) (callback : Callback) :
    ∀ a ∈ (s.call program callback).2, a.InBounds length :=
  call_actions (ofCalls_inBounds length) program trivial

theorem reading_inBounds {α : Type} {m : Reads UInt8 α} (hm : m.Below 1024 s.inBuffer.cells) :
    ∀ a ∈ (s.reading m).2, a.InBounds length :=
  List.forall_mem_singleton.mpr hm

theorem pushText_inBounds {text : Option Nat × Nat} (htext : ∀ i, text.1 = some i → i + text.2 ≤ 1024) :
    ∀ a ∈ (s.pushText text).2, a.InBounds length := by
  rcases text with ⟨_ | i, k⟩
  · exact List.forall_mem_nil _
  · exact List.forall_mem_singleton.mpr (below_slice (htext i rfl))

theorem messageArguments_inBounds {topic data : Option Nat × Nat} (htopic : ∀ i, topic.1 = some i → i + topic.2 ≤ 1024)
    (hdata : ∀ i, data.1 = some i → i + data.2 ≤ 1024) :
    ∀ a ∈ (s.messageArguments topic data).2, a.InBounds length := by
  unfold messageArguments
  dsimp only
  split_ifs
  · exact List.forall_mem_append.mpr ⟨pushText_inBounds htopic, pushText_inBounds hdata⟩
  · exact pushText_inBounds htopic

theorem deliverPublish_inBounds {len : Nat} (hlen : len ≤ 1024) :
    ∀ a ∈ (s.deliverPublish program signed len).2, a.InBounds length := by
  have htopic : ∀ a ∈ (s.reading (mqttGetPublishTopic signed len)).2, a.InBounds length :=
    reading_inBounds (mqttGetPublishTopic_below hlen)
  have hdata : ∀ a ∈ (s.reading (mqttGetPublishData signed len)).2, a.InBounds length :=
    reading_inBounds (mqttGetPublishData_below hlen)
  unfold deliverPublish
  dsimp only
  split_ifs
  · simp only [List.forall_mem_append]
    refine ⟨⟨⟨htopic, hdata⟩, messageArguments_inBounds ?_ ?_⟩, call_inBounds program _⟩
    · exact fun i hi => (mqttGetPublishTopic_value (Prod.ext hi rfl)).trans hlen
    · exact fun i hi => (mqttGetPublishData_value (Prod.ext hi rfl)).trans hlen
  · rw [List.forall_mem_append]
    exact ⟨htopic, hdata⟩

theorem handle_inBounds {len : Nat} (hlen : len ≤ 1024) (qos id : Nat) (type : Option MessageType) :
    ∀ a ∈ (s.handle program signed len qos id type).2, a.InBounds length :=
  handle_actions_of (ofCalls_inBounds length) trivial (fun _ => trivial) (fun _ => deliverPublish_inBounds hlen) qos id
    type

theorem packet_inBounds {len : Nat} (hlen : len ≤ 1024) :
    ∀ a ∈ (s.packet program signed len).2, a.InBounds length := by
  unfold packet
  simp only [List.forall_mem_append]
  refine ⟨⟨⟨⟨?_, ?_⟩, ?_⟩, ?_⟩, handle_inBounds hlen _ _ _⟩
  · exact reading_inBounds (mqttGetTotalLength_below hlen)
  · exact reading_inBounds (mqttGetType_below (by decide))
  · exact reading_inBounds (mqttGetQos_below (by decide))
  · exact reading_inBounds (mqttGetId_below le_rfl)

theorem accept_inBounds : ∀ a ∈ (s.accept program).2, a.InBounds length := by
  have htype : ∀ a ∈ (s.reading mqttGetType).2, a.InBounds length := reading_inBounds (mqttGetType_below (by decide))
  unfold accept
  dsimp only
  split_ifs
  · rw [List.forall_mem_append, List.forall_mem_cons]
    exact ⟨htype, trivial, sendOutbound_actions (ofCalls_inBounds length)⟩
  · rw [List.forall_mem_append]
    exact ⟨htype, call_inBounds program _⟩
  · exact htype

/-- As long as what is left of the data fits, every access of every iteration is in bounds. -/
theorem readPacket_inBounds (fuel : Nat) (offset : Nat) (pdata : List UInt8) (hlen : pdata.length ≤ 1024)
    (hend : offset + pdata.length ≤ length) :
    ∀ a ∈ (s.readPacket program signed fuel offset pdata).2, a.InBounds length := by
  induction fuel generalizing s offset pdata with
  | zero => exact List.forall_mem_nil _
  | succ fuel ih =>
    have hcopied : (Action.copied offset pdata.length).InBounds length := ⟨hlen, hend⟩
    have hsend : ∀ (s : Client), ∀ a ∈ s.sendOutbound.2, a.InBounds length :=
      fun s => sendOutbound_actions (ofCalls_inBounds length)
    by_cases hsending : s.state = .connectSending
    · rw [readPacket_sending hsending]
      exact List.forall_mem_cons.mpr ⟨hcopied, accept_inBounds⟩
    · by_cases hdata : s.state = .data
      · by_cases hanother : (s.load pdata).Another signed pdata.length
        · have hnext : (s.load pdata).messageLength signed pdata.length < pdata.length := hanother.2
          rw [readPacket_another hdata hanother]
          simp only [List.cons_append, List.forall_mem_cons, List.forall_mem_append]
          refine ⟨hcopied, packet_inBounds hlen, ih _ _ ?_ ?_⟩
          · rw [List.length_drop]
            omega
          · rw [List.length_drop]
            omega
        · rw [readPacket_last hdata hanother]
          simp only [List.cons_append, List.forall_mem_cons, List.forall_mem_append]
          exact ⟨hcopied, packet_inBounds hlen, hsend _⟩
      · rw [readPacket_idle hsending hdata]
        exact List.forall_mem_singleton.mpr hcopied

/-- An iteration starts with the copy of all that is left. -/
theorem copied_mem (fuel offset : Nat) (pdata : List UInt8) :
    .copied offset pdata.length ∈ (s.readPacket program signed (fuel + 1) offset pdata).2 := by
  by_cases hsending : s.state = .connectSending
  · rw [readPacket_sending hsending]
    exact List.mem_cons_self
  · by_cases hdata : s.state = .data
    · by_cases hanother : (s.load pdata).Another signed pdata.length
      · rw [readPacket_another hdata hanother]
        exact List.mem_append_left _ List.mem_cons_self
      · rw [readPacket_last hdata hanother]
        exact List.mem_append_left _ List.mem_cons_self
    · rw [readPacket_idle hsending hdata]
      exact List.mem_cons_self

end Client

/-- For a receive callback with any data, in any state, and however many iterations its loop makes: all
accesses to `in_buffer` and to the data are in bounds exactly if the data has at most 1024 bytes. -/
theorem received_inBounds_iff (program : Client.Program) (signed : Signed) (s : Client) (fuel : Nat)
    (pdata : List UInt8) :
    (∀ a ∈ (s.readPacket program signed (fuel + 1) 0 pdata).2, a.InBounds pdata.length) ↔ pdata.length ≤ 1024 := by
  constructor
  · intro hall
    exact (hall _ (Client.copied_mem fuel 0 pdata)).1
  · intro hlen
    exact Client.readPacket_inBounds (fuel + 1) 0 pdata hlen (Nat.zero_add _).le

/-- A callback with 1460 bytes, a full TCP segment, is copied beyond the end of `in_buffer`. -/
theorem segment_copied_beyond :
    ¬ ∀ (program : Client.Program) (signed : Signed) (s : Client) (pdata : List UInt8), pdata.length < 2 ^ 16 →
      ∀ a ∈ (s.received program signed pdata).2, a.InBounds pdata.length := by
  intro hall
  have hlength : (List.replicate 1460 (0 : UInt8)).length = 1460 := List.length_replicate
  have hcopied := hall (fun _ => []) ⟨fun totlen b n => totlen + b * 2 ^ n, fun _ _ _ _ _ => rfl⟩
    (Client.new ⟨[99], [], [], [], [], 60, 0, false, true⟩ false) (List.replicate 1460 0) (by rw [hlength]; decide)
    _ (Client.copied_mem _ 0 _)
  have hle : (List.replicate 1460 (0 : UInt8)).length ≤ 1024 := hcopied.1
  rw [hlength] at hle
  exact absurd hle (by decide)

end EspClock.Mqtt
