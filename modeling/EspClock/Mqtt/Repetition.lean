import Mathlib.Logic.Relation
import EspClock.Mqtt.Packet

/-!
# The end of the packet loop

A repetition of the loop in `mqtt_socket_received` takes the declared length of a PUBLISH packet away from
what is left of the data. That length has 16 bits, so it is 0 for a packet that declares a multiple of 65536
bytes. Then the loop starts again with the same data and never ends.
-/

namespace EspClock.Mqtt

open Mem Reads Client

/-- The length that a packet at the start of the data declares, with 16 bits. -/
def declaredLength (signed : Signed) (pdata : List UInt8) : Nat :=
  ((mqttGetTotalLength signed pdata.length).value pdata % 65536).toNat

/-- A PUBLISH packet is at the start of the data. -/
def IsPublish (pdata : List UInt8) : Prop := mqttGetType.value pdata = some .publish

/-- The data of one repetition and that of the next. -/
def NextPacket (signed : Signed) (pdata rest : List UInt8) : Prop :=
  IsPublish pdata ∧ declaredLength signed pdata < pdata.length ∧ rest = pdata.drop (declaredLength signed pdata)

/-- What the repetitions copy, as the offset and the number of the bytes. -/
def Action.copy? : Action → Option (Nat × Nat)
  | .copied offset count => some (offset, count)
  | _ => none

/-- Less is left after a repetition, and it ends where the data ends. -/
def Shorter (copy next : Nat × Nat) : Prop := next.2 < copy.2 ∧ next.1 + next.2 = copy.1 + copy.2

variable {signed : Signed} {pdata rest : List UInt8} {s : Client} {program : Program}

/-! ### What the loop reads -/

/-- The loop over the length field depends on the bytes below the length only. -/
theorem lengthField_congr {cells cells' : List UInt8} {length : Nat}
    (h : ∀ i < length, cells.getD i default = cells'.getD i default) (left i : Nat) (totlen : Int) :
    (lengthField signed length left i totlen).value cells = (lengthField signed length left i totlen).value cells' := by
  induction left generalizing i totlen with
  | zero => rfl
  | succ left ih =>
    by_cases hi : i < length
    · rw [lengthField, if_pos hi, value_bind, value_bind, value_cell, value_cell, h i hi]
      dsimp only
      rw [value_ite, value_ite, ih, value_pure, value_pure]
    · rw [lengthField, if_neg hi, value_pure, value_pure]

theorem getD_append_left {cells : List UInt8} {i : Nat} (hi : i < pdata.length) :
    (pdata ++ cells).getD i default = pdata.getD i default := by
  rw [List.getD_eq_getElem?_getD, List.getD_eq_getElem?_getD, List.getElem?_append_left hi]

theorem messageLength_load (hlen : pdata.length ≤ 1024) :
    (s.load pdata).messageLength signed pdata.length = declaredLength signed pdata := by
  have hfield := @lengthField_congr signed (s.load pdata).inBuffer.cells pdata pdata.length
    (by rw [load_cells s hlen]; exact fun i hi => getD_append_left hi) pdata.length 1 0
  unfold messageLength declaredLength mqttGetTotalLength
  rw [value_bind, value_bind, hfield]
  rfl

theorem isPublish_load (hlen : pdata.length ≤ 1024) (hpos : 0 < pdata.length) :
    mqttGetType.value (s.load pdata).inBuffer.cells = some .publish ↔ IsPublish pdata := by
  unfold IsPublish mqttGetType
  rw [value_bind, value_bind, value_cell, value_cell, load_cells s hlen, getD_append_left hpos]
  rfl

/-- Another repetition depends on the data only. -/
theorem another_load (hlen : pdata.length ≤ 1024) :
    (s.load pdata).Another signed pdata.length ↔ IsPublish pdata ∧ declaredLength signed pdata < pdata.length := by
  unfold Another
  rw [messageLength_load hlen]
  constructor
  · exact fun ⟨htype, hlt⟩ => ⟨(isPublish_load hlen (Nat.zero_lt_of_lt hlt)).mp htype, hlt⟩
  · exact fun ⟨hpublish, hlt⟩ => ⟨(isPublish_load hlen (Nat.zero_lt_of_lt hlt)).mpr hpublish, hlt⟩

theorem IsPublish.pos (h : IsPublish pdata) : 0 < pdata.length := by
  cases pdata with
  | nil => cases h
  | cons b pdata => exact Nat.succ_pos _

theorem packet_load_same (s : Client) (pdata : List UInt8) (len : Nat) :
    SameSession s ((s.load pdata).packet program signed len).1 :=
  (load_same s pdata).trans (packet_same program signed _ len)

/-! ### A loop that never ends -/

/-- A PUBLISH packet that declares no length is read again and again. -/
theorem readPacket_zero_stuck (hstate : s.state = .data) (hlen : pdata.length ≤ 1024) (hpublish : IsPublish pdata)
    (hzero : declaredLength signed pdata = 0) (fuel offset : Nat) :
    (s.readPacket program signed fuel offset pdata).1.stuck = true := by
  induction fuel generalizing s offset with
  | zero => rfl
  | succ fuel ih =>
    have hanother := (@another_load signed pdata s hlen).mpr ⟨hpublish, by rw [hzero]; exact hpublish.pos⟩
    have hsame := @packet_load_same signed program s pdata pdata.length
    have hrest := ih (hsame.state.trans hstate) (offset + 0)
    rw [readPacket_another hstate hanother, messageLength_load hlen, hzero]
    exact hrest

/-- The loop comes to whatever is reached from the data, if it has not ended. -/
theorem readPacket_stuck_of_reaches (hreach : Relation.ReflTransGen (NextPacket signed) pdata rest)
    (hstuck : ∀ (s : Client) (fuel offset : Nat), s.state = .data → rest.length ≤ 1024 →
      (s.readPacket program signed fuel offset rest).1.stuck = true)
    (hstate : s.state = .data) (hlen : pdata.length ≤ 1024) (fuel offset : Nat) :
    (s.readPacket program signed fuel offset pdata).1.stuck = true := by
  induction hreach using Relation.ReflTransGen.head_induction_on generalizing s fuel offset with
  | refl => exact hstuck s fuel offset hstate hlen
  | @head pdata next hstep hreach ih =>
    obtain ⟨hpublish, hlt, rfl⟩ := hstep
    cases fuel with
    | zero => rfl
    | succ fuel =>
      have hanother := (@another_load signed pdata s hlen).mpr ⟨hpublish, hlt⟩
      have hsame := @packet_load_same signed program s pdata pdata.length
      rw [readPacket_another hstate hanother, messageLength_load hlen]
      exact ih (hsame.state.trans hstate) (by rw [List.length_drop]; omega) fuel _

/-! ### A loop that ends -/

/-- None of the PUBLISH packets that the loop comes to declares a multiple of 65536 bytes. -/
def Advances (signed : Signed) (pdata : List UInt8) : Prop :=
  ∀ rest, Relation.ReflTransGen (NextPacket signed) pdata rest → IsPublish rest → declaredLength signed rest ≠ 0

theorem Advances.next (h : Advances signed pdata) (hpublish : IsPublish pdata)
    (hlt : declaredLength signed pdata < pdata.length) : Advances signed (pdata.drop (declaredLength signed pdata)) :=
  fun rest hreach => h rest (.head ⟨hpublish, hlt, rfl⟩ hreach)

/-- With a repetition for every byte the loop ends. -/
theorem readPacket_ends (h : Advances signed pdata) (hstate : s.state = .data) (hstuck : s.stuck = false)
    (hlen : pdata.length ≤ 1024) {fuel : Nat} (hfuel : pdata.length < fuel) (offset : Nat) :
    (s.readPacket program signed fuel offset pdata).1.stuck = false := by
  induction fuel generalizing s pdata offset with
  | zero => exact absurd hfuel (Nat.not_lt_zero _)
  | succ fuel ih =>
    have hsame := @packet_load_same signed program s pdata pdata.length
    by_cases hanother : (s.load pdata).Another signed pdata.length
    · obtain ⟨hpublish, hlt⟩ := (another_load hlen).mp hanother
      have hpos := Nat.pos_of_ne_zero (h pdata .refl hpublish)
      rw [readPacket_another hstate hanother, messageLength_load hlen]
      apply ih (h.next hpublish hlt) (hsame.state.trans hstate) (hsame.stuck.trans hstuck)
      · rw [List.length_drop]
        omega
      · rw [List.length_drop]
        omega
    · rw [readPacket_last hstate hanother]
      exact ((sendOutbound_same _).stuck.trans hsame.stuck).trans hstuck

theorem ofMessages_copy : OfMessages (·.copy? = none) :=
  ⟨⟨fun _ _ => rfl, fun _ _ => rfl, rfl, fun _ => rfl⟩, fun _ => rfl, fun _ _ => rfl, rfl, fun _ => rfl⟩

/-- Between two copies there is none. -/
theorem copies_eq_nil {actions : List Action} (h : ∀ a ∈ actions, a.copy? = none) :
    actions.filterMap Action.copy? = [] := List.filterMap_eq_nil_iff.mpr h

/-- The copies are those of the first repetition and of the rest of the loop. -/
theorem copies_cons (offset count : Nat) {actions : List Action} (h : ∀ a ∈ actions, a.copy? = none)
    (rest : List Action) :
    (.copied offset count :: actions ++ rest).filterMap Action.copy? =
      (offset, count) :: rest.filterMap Action.copy? := by
  have hcopy : (Action.copied offset count).copy? = some (offset, count) := rfl
  rw [List.cons_append, List.filterMap_cons_some hcopy, List.filterMap_append, copies_eq_nil h, List.nil_append]

theorem readPacket_head (hstate : s.state = .data) (fuel offset : Nat) (pdata : List UInt8) :
    ∀ copy ∈ ((s.readPacket program signed fuel offset pdata).2.filterMap Action.copy?).head?,
      copy = (offset, pdata.length) := by
  cases fuel with
  | zero => simp [readPacket]
  | succ fuel =>
    have hpacket := fun s : Client => @packet_actions s _ program signed ofMessages_copy
    by_cases hanother : (s.load pdata).Another signed pdata.length
    · rw [readPacket_another hstate hanother]
      dsimp only
      rw [copies_cons _ _ (hpacket _ _)]
      simp
    · rw [readPacket_last hstate hanother, copies_cons _ _ (hpacket _ _)]
      simp

theorem readPacket_shorter (h : Advances signed pdata) (hstate : s.state = .data) (hlen : pdata.length ≤ 1024)
    (fuel offset : Nat) :
    ((s.readPacket program signed fuel offset pdata).2.filterMap Action.copy?).IsChain Shorter := by
  induction fuel generalizing s pdata offset with
  | zero => exact .nil
  | succ fuel ih =>
    have hsame := @packet_load_same signed program s pdata pdata.length
    have hpacket := fun s : Client => @packet_actions s _ program signed ofMessages_copy
    by_cases hanother : (s.load pdata).Another signed pdata.length
    · obtain ⟨hpublish, hlt⟩ := (another_load hlen).mp hanother
      have hpos := Nat.pos_of_ne_zero (h pdata .refl hpublish)
      have hstate' := hsame.state.trans hstate
      rw [readPacket_another hstate hanother, messageLength_load hlen]
      dsimp only
      rw [copies_cons _ _ (hpacket _ _), List.isChain_cons]
      refine ⟨fun copy hcopy => ?_, ih (h.next hpublish hlt) hstate' (by rw [List.length_drop]; omega) _⟩
      rw [readPacket_head hstate' _ _ _ copy hcopy]
      constructor
      · dsimp only
        rw [List.length_drop]
        omega
      · dsimp only
        rw [List.length_drop]
        omega
    · rw [readPacket_last hstate hanother, copies_cons _ _ (hpacket _ _),
        copies_eq_nil (sendOutbound_actions ofMessages_copy.toOfCalls)]
      exact .singleton _

/-- For all contents of up to 1024 bytes that a receive callback brings in state `MQTT_DATA`: the loop ends,
with less left after every repetition, exactly if no PUBLISH packet that it comes to declares a multiple of
65536 bytes. -/
theorem readPacket_ends_iff (program : Client.Program) (signed : Signed) (s : Client) (pdata : List UInt8)
    (hstate : s.state = .data) (hstuck : s.stuck = false) (hlen : pdata.length ≤ 1024) :
    ((∃ fuel, (s.readPacket program signed fuel 0 pdata).1.stuck = false) ∧
      ∀ fuel, ((s.readPacket program signed fuel 0 pdata).2.filterMap Action.copy?).IsChain Shorter) ↔
      Advances signed pdata := by
  constructor
  · rintro ⟨⟨fuel, hends⟩, -⟩ rest hreach hpublish hzero
    have hzero' := fun (s : Client) fuel offset (hstate : s.state = .data) hlen =>
      @readPacket_zero_stuck signed rest s program hstate hlen hpublish hzero fuel offset
    have hnever := readPacket_stuck_of_reaches hreach hzero' hstate hlen fuel 0
    rw [hnever] at hends
    cases hends
  · intro h
    exact ⟨⟨pdata.length + 1, readPacket_ends h hstate hstuck hlen (Nat.lt_succ_self _) 0⟩,
      fun fuel => readPacket_shorter h hstate hlen fuel 0⟩

/-- A client that is connected, without callbacks. -/
def connectedClient : Client := { Client.new ⟨[99], [], [], [], [], 60, 0, false, true⟩ true with state := .data }

/-- Two PUBLISH packets in one callback. -/
theorem readPacket_ends_iff_two :
    ((∃ fuel, (connectedClient.readPacket (fun _ => []) ⟨fun totlen b n => totlen + b * 2 ^ n, fun _ _ _ _ _ => rfl⟩
        fuel 0 [0x30, 3, 0, 1, 97, 0x30, 3, 0, 1, 98]).1.stuck = false) ∧
      ∀ fuel, ((connectedClient.readPacket (fun _ => []) ⟨fun totlen b n => totlen + b * 2 ^ n, fun _ _ _ _ _ => rfl⟩
        fuel 0 [0x30, 3, 0, 1, 97, 0x30, 3, 0, 1, 98]).2.filterMap Action.copy?).IsChain Shorter) ↔
      Advances ⟨fun totlen b n => totlen + b * 2 ^ n, fun _ _ _ _ _ => rfl⟩
        [0x30, 3, 0, 1, 97, 0x30, 3, 0, 1, 98] :=
  readPacket_ends_iff _ _ connectedClient _ rfl rfl (by decide)

/-- A PUBLISH packet whose length field says 65532, so that it declares 65536 bytes, is never left. -/
theorem declared_65536_stuck :
    ¬ ∀ (program : Client.Program) (signed : Signed) (s : Client) (pdata : List UInt8),
      s.state = .data → s.stuck = false → pdata.length ≤ 1024 →
        (∃ fuel, (s.readPacket program signed fuel 0 pdata).1.stuck = false) ∧
          ∀ fuel, ((s.readPacket program signed fuel 0 pdata).2.filterMap Action.copy?).IsChain Shorter := by
  intro hall
  obtain ⟨⟨fuel, hends⟩, -⟩ := hall (fun _ => []) ⟨fun totlen b n => totlen + b * 2 ^ n, fun _ _ _ _ _ => rfl⟩
    connectedClient [0x30, 0xFC, 0xFF, 0x03] rfl rfl (by decide)
  have hpublish : IsPublish [0x30, 0xFC, 0xFF, 0x03] := rfl
  rw [readPacket_zero_stuck rfl (by decide) hpublish (by decide)] at hends
  cases hends

end EspClock.Mqtt
