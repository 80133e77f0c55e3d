import EspClock.Mqtt.Connect

/-!
# The length field of a received packet

MQTT 3.1.1 gives the length field four bytes at most. The loops that read it are bounded by the length of the
packet only: a field that does not end within four bytes is summed up like any other, with shifts by 28 bits
and more, and one that does not end within the packet is cut off there. So what is read is right exactly for
the fields that MQTT allows, and for packets that are too short to have one.
-/

namespace EspClock.Mqtt

open Mem Reads

/-! ### What the loop adds -/

/-- The loop over the length field again, with the bits of each byte and by how much they are shifted. -/
def lengthFieldTerms (length : Nat) : Nat → Nat → Reads UInt8 (List (Nat × Nat))
  | 0, _ => pure []
  | left + 1, i =>
    if i < length then do
      let b ← cell i
      let term := (b.toNat % 128, 7 * (i - 1))
      if b.toNat < 128 then pure [term] else (term :: ·) <$> lengthFieldTerms length left (i + 1)
    else pure []

/-- The sum of the terms, without the bounds of the machine. -/
def termsSum (terms : List (Nat × Nat)) : Nat := (terms.map fun term => term.1 * 2 ^ term.2).sum

/-- No shift by the width or more, and no sum beyond the largest integer, the index behind the field included. -/
def Defined (terms : List (Nat × Nat)) : Prop :=
  (∀ term ∈ terms, term.2 < 32) ∧ termsSum terms + (1 + terms.length) < 2 ^ 31

/-- `mqtt_get_publish_topic` behind its loop. -/
def topicBehind (length i : Nat) : Reads UInt8 (Option Nat × Nat) :=
  if i + 2 ≥ length then pure (none, length)
  else do
    let topiclen ← word16 i
    if i + 2 + topiclen > length then pure (none, length) else pure (some (i + 2), topiclen)

/-- `mqtt_get_publish_data` behind its loop. -/
def dataBehind (length i : Nat) (totlen : Int) : Reads UInt8 (Option Nat × Nat) :=
  if i + 2 ≥ length then pure (none, length)
  else do
    let topiclen ← word16 i
    if i + 2 + topiclen ≥ length then pure (none, 0)
    else
      let i := i + 2 + topiclen
      let qos ← mqttGetQos
      if qos > 0 ∧ i + 2 ≥ length then pure (none, length)
      else
        let i := if qos > 0 then i + 2 else i
        if totlen < i then pure (none, length)
        else if totlen ≤ length then pure (some i, (totlen - i).toNat) else pure (some i, length - i)

/-- What the three functions make of a packet of this length, where the length field and what follows it is
`field`. A field that MQTT allows is decoded, and any other one is rejected: there is no topic, no payload and
no length that a packet can have. -/
structure ReadsLength (signed : Signed) (cells : List UInt8) (length : Nat) : Prop where
  decodes : ∀ n rest, takeLength 4 ((cells.take length).drop 1) = some (n, rest) →
    (mqttGetTotalLength signed length).value cells = (length - rest.length + n : Nat) ∧
    (mqttGetPublishTopic signed length).value cells = (topicBehind length (length - rest.length)).value cells ∧
    (mqttGetPublishData signed length).value cells =
      (dataBehind length (length - rest.length) (length - rest.length + n : Nat)).value cells
  rejects : takeLength 4 ((cells.take length).drop 1) = none →
    (mqttGetTotalLength signed length).value cells < 2 ∧
    ((mqttGetPublishTopic signed length).value cells).1 = none ∧
    ((mqttGetPublishData signed length).value cells).1 = none
  defined : Defined ((lengthFieldTerms length length 1).value cells)

variable {signed : Signed} {cells : List UInt8} {length : Nat}

theorem mqttGetPublishTopic_eq (signed : Signed) (length : Nat) :
    mqttGetPublishTopic signed length = lengthField signed length length 1 0 >>= fun field =>
      topicBehind length field.1 := rfl

theorem mqttGetPublishData_eq (signed : Signed) (length : Nat) :
    mqttGetPublishData signed length = lengthField signed length length 1 0 >>= fun field =>
      dataBehind length field.1 (signed.addShifted field.2 field.1 0) := rfl

theorem terms_end {left i : Nat} (hi : i < length) (hend : (cells.getD i default).toNat < 128) :
    (lengthFieldTerms length (left + 1) i).value cells = [((cells.getD i default).toNat % 128, 7 * (i - 1))] := by
  rw [lengthFieldTerms, if_pos hi, value_bind, value_cell]
  dsimp only
  rw [value_ite, if_pos hend, value_pure]

theorem terms_more {left i : Nat} (hi : i < length) (hmore : ¬ (cells.getD i default).toNat < 128) :
    (lengthFieldTerms length (left + 1) i).value cells =
      ((cells.getD i default).toNat % 128, 7 * (i - 1)) :: (lengthFieldTerms length left (i + 1)).value cells := by
  rw [lengthFieldTerms, if_pos hi, value_bind, value_cell]
  dsimp only
  rw [value_ite, if_neg hmore]
  rfl

/-- The index and the sum of the loop by its terms. -/
theorem lengthField_terms (left i : Nat) (totlen : Int) :
    (lengthField signed length left i totlen).value cells =
      (i + ((lengthFieldTerms length left i).value cells).length,
        ((lengthFieldTerms length left i).value cells).foldl
          (fun sum term => signed.addShifted sum term.1 term.2) totlen) := by
  induction left generalizing i totlen with
  | zero => rfl
  | succ left ih =>
    by_cases hi : i < length
    · rw [lengthField, if_pos hi, value_bind, value_cell]
      dsimp only
      by_cases hend : (cells.getD i default).toNat < 128
      · rw [value_ite, if_pos hend, terms_end hi hend]
        rfl
      · rw [value_ite, if_neg hend, terms_more hi hend, ih, List.length_cons, List.foldl_cons,
          Nat.add_assoc, Nat.add_comm 1]
    · rw [lengthField, lengthFieldTerms, if_neg hi, if_neg hi]
      rfl

/-- Where the sum stays below the largest integer the machine adds the terms. -/
theorem foldl_addShifted {terms : List (Nat × Nat)} {totlen : Nat} (h : totlen + termsSum terms < 2 ^ 31) :
    terms.foldl (fun sum term => signed.addShifted sum term.1 term.2) (totlen : Int) =
      (totlen + termsSum terms : Nat) := by
  induction terms generalizing totlen with
  | nil => rfl
  | cons term terms ih =>
    have hsum : termsSum (term :: terms) = term.1 * 2 ^ term.2 + termsSum terms := rfl
    rw [hsum, ← Nat.add_assoc] at h
    have hadd := signed.addShifted_eq totlen term.1 term.2 (by positivity) (by
      have hlt : totlen + term.1 * 2 ^ term.2 < 2 ^ 31 := by omega
      exact_mod_cast hlt)
    have hcast : (totlen : Int) + term.1 * 2 ^ term.2 = (totlen + term.1 * 2 ^ term.2 : Nat) := by push_cast; rfl
    rw [List.foldl_cons, hadd, hcast, ih h, hsum, Nat.add_assoc]

theorem lengthField_defined (h : Defined ((lengthFieldTerms length length 1).value cells)) :
    (lengthField signed length length 1 0).value cells =
      (1 + ((lengthFieldTerms length length 1).value cells).length,
        (termsSum ((lengthFieldTerms length length 1).value cells) : Int)) := by
  have hfold := @foldl_addShifted signed ((lengthFieldTerms length length 1).value cells) 0 (by have := h.2; omega)
  rw [Nat.zero_add] at hfold
  rw [lengthField_terms]
  exact congrArg _ hfold

theorem mqttGetTotalLength_defined (h : Defined ((lengthFieldTerms length length 1).value cells)) :
    (mqttGetTotalLength signed length).value cells =
      (1 + ((lengthFieldTerms length length 1).value cells).length +
        termsSum ((lengthFieldTerms length length 1).value cells) : Nat) := by
  have hbound := h.2
  rw [mqttGetTotalLength, value_bind, lengthField_defined h]
  dsimp only
  rw [value_pure, signed.addShifted_eq _ _ _ (by positivity) (by push_cast; omega)]
  push_cast
  ring

/-! ### The fields that MQTT allows -/

/-- A field that the decoder takes is the one that the loop sums up. -/
theorem terms_of_takeLength {left width i n : Nat} {rest : List UInt8} (hleft : length ≤ i + left) (hi : 0 < i)
    (htake : takeLength width ((cells.take length).drop i) = some (n, rest)) :
    termsSum ((lengthFieldTerms length left i).value cells) = n * 2 ^ (7 * (i - 1)) ∧
      rest = (cells.take length).drop (i + ((lengthFieldTerms length left i).value cells).length) ∧
      0 < ((lengthFieldTerms length left i).value cells).length ∧
      ((lengthFieldTerms length left i).value cells).length ≤ width ∧ n < 128 ^ width ∧
      i + ((lengthFieldTerms length left i).value cells).length ≤ length ∧
      ∀ term ∈ (lengthFieldTerms length left i).value cells, term.2 + 14 ≤ 7 * (i + width) := by
  induction width generalizing left i n rest with
  | zero => cases htake
  | succ width ih =>
    by_cases hlt : i < (cells.take length).length
    · have hlength : i < length := by rw [List.length_take] at hlt; omega
      obtain ⟨left, rfl⟩ : ∃ k, left = k + 1 := ⟨left - 1, by omega⟩
      have hcells : i < cells.length := by rw [List.length_take] at hlt; omega
      have hcell : (cells.take length)[i] = cells.getD i default := by
        rw [List.getElem_take, List.getD_eq_getElem?_getD, List.getElem?_eq_getElem hcells]
        rfl
      rw [List.drop_eq_getElem_cons hlt, hcell] at htake
      simp only [takeLength, takeByte, Option.bind_eq_bind, Option.bind_some, Option.pure_def] at htake
      by_cases hend : (cells.getD i default).toNat < 128
      · rw [if_pos hend] at htake
        cases htake
        rw [terms_end hlength hend]
        refine ⟨?_, rfl, Nat.one_pos, Nat.le_add_left _ _, ?_, hlength, ?_⟩
        · rw [Nat.mod_eq_of_lt hend]
          exact Nat.add_zero _
        · calc (cells.getD i default).toNat < 128 ^ 1 := by omega
            _ ≤ 128 ^ (width + 1) := Nat.pow_le_pow_right (by decide) (by omega)
        · rintro term hterm
          rw [List.mem_singleton.mp hterm]
          omega
      · rw [if_neg hend] at htake
        obtain ⟨⟨m, rest'⟩, hrest, hsome⟩ := Option.bind_eq_some_iff.mp htake
        cases hsome
        obtain ⟨hsum, hdrop, hpos, hwidth, hm, hfits, hshift⟩ := ih (show length ≤ i + 1 + left by omega) (Nat.succ_pos i) hrest
        have hdigits := digits_add ((cells.getD i default).toNat % 128 + 128 * m) hi
        rw [show ((cells.getD i default).toNat % 128 + 128 * m) % 128 = (cells.getD i default).toNat % 128 by omega,
          show ((cells.getD i default).toNat % 128 + 128 * m) / 128 = m by omega] at hdigits
        rw [terms_more hlength hend]
        refine ⟨?_, ?_, Nat.succ_pos _, Nat.succ_le_succ hwidth, ?_, ?_, ?_⟩
        · rw [← hdigits, ← Nat.add_sub_cancel (n := i) (m := 1), ← hsum]
          rfl
        · dsimp only
          rw [hdrop, List.length_cons, Nat.add_assoc, Nat.add_comm 1]
        · dsimp only at hm ⊢
          rw [pow_succ]
          omega
        · rw [List.length_cons]
          omega
        · rw [List.forall_mem_cons]
          refine ⟨by dsimp only; omega, fun term hterm => ?_⟩
          have hle := hshift term hterm
          omega
    · rw [List.drop_eq_nil_of_le (Nat.le_of_not_lt hlt)] at htake
      cases htake

/-- A field of four bytes at most neither shifts nor sums too far. -/
theorem defined_of_takeLength {n : Nat} {rest : List UInt8} (hlength : length ≤ cells.length)
    (htake : takeLength 4 ((cells.take length).drop 1) = some (n, rest)) :
    Defined ((lengthFieldTerms length length 1).value cells) ∧
      1 + ((lengthFieldTerms length length 1).value cells).length = length - rest.length ∧
      termsSum ((lengthFieldTerms length length 1).value cells) = n := by
  obtain ⟨hsum, hrest, hpos, hwidth, hn, hend, hshift⟩ := terms_of_takeLength
    (show length ≤ 1 + length by omega) Nat.one_pos htake
  have hsame : termsSum ((lengthFieldTerms length length 1).value cells) = n := by simpa using hsum
  refine ⟨⟨fun term hterm => ?_, ?_⟩, ?_, hsame⟩
  · have hle := hshift term hterm
    omega
  · rw [hsame]
    omega
  · rw [hrest, List.length_drop, List.length_take]
    omega

/-- With a byte behind the first the loop reads at least one. -/
theorem terms_pos (hlength : 2 ≤ length) : 0 < ((lengthFieldTerms length length 1).value cells).length := by
  obtain ⟨left, rfl⟩ : ∃ k, length = k + 1 := ⟨length - 1, by omega⟩
  by_cases hend : (cells.getD 1 default).toNat < 128
  · rw [terms_end (by omega) hend]
    exact Nat.one_pos
  · rw [terms_more (by omega) hend]
    exact Nat.succ_pos _

/-- Where there is no byte behind the first there is no field, and all three functions reject the packet. -/
theorem readsLength_short (hlength : length ≤ 1) : ReadsLength signed cells length := by
  have hnil : (lengthFieldTerms length length 1).value cells = [] := by
    cases length with
    | zero => rfl
    | succ left => rw [lengthFieldTerms, if_neg (by omega)]; rfl
  have hdrop : (cells.take length).drop 1 = [] :=
    List.drop_eq_nil_of_le ((List.length_take_le _ _).trans hlength)
  have hdefined : Defined ((lengthFieldTerms length length 1).value cells) := by
    rw [hnil]
    exact ⟨fun _ h => absurd h List.not_mem_nil, by decide⟩
  refine ⟨fun n rest htake => ?_, fun _ => ⟨?_, ?_, ?_⟩, hdefined⟩
  · rw [hdrop] at htake
    cases htake
  · rw [mqttGetTotalLength_defined hdefined, hnil]
    decide
  · rw [mqttGetPublishTopic_eq, value_bind, lengthField_defined hdefined, hnil, topicBehind, value_ite,
      if_pos (by simp only [List.length_nil]; omega), value_pure]
  · rw [mqttGetPublishData_eq, value_bind, lengthField_defined hdefined, hnil, dataBehind, value_ite,
      if_pos (by simp only [List.length_nil]; omega), value_pure]

theorem readsLength_of_takeLength (hlength : length ≤ cells.length) {n : Nat} {rest : List UInt8}
    (htake : takeLength 4 ((cells.take length).drop 1) = some (n, rest)) : ReadsLength signed cells length := by
  obtain ⟨hdefined, hindex, hsum⟩ := defined_of_takeLength hlength htake
  have hfield := @lengthField_defined signed cells length hdefined
  rw [hindex, hsum] at hfield
  have htotal := @mqttGetTotalLength_defined signed cells length hdefined
  rw [hindex, hsum] at htotal
  have hbound := hdefined.2
  rw [hindex, hsum] at hbound
  refine ⟨fun m rest' hm => ?_, fun hnone => ?_, hdefined⟩
  · rw [htake] at hm
    cases hm
    refine ⟨htotal, ?_, ?_⟩
    · rw [mqttGetPublishTopic_eq, value_bind, hfield]
    · rw [mqttGetPublishData_eq, value_bind, hfield]
      dsimp only
      rw [signed.addShifted_eq _ _ _ (by positivity) (by push_cast; omega)]
      congr 2
      push_cast
      ring
  · rw [htake] at hnone
    cases hnone

/-- For every buffer and every length: the three functions read the length field as MQTT says, without an
overflow, and reject the packet where MQTT does not allow the field, exactly if the field ends within four
bytes and within the length, or the length leaves no room for a field. -/
theorem readsLength_iff (signed : Signed) (cells : List UInt8) (length : Nat) (hlength : length ≤ cells.length) :
    ReadsLength signed cells length ↔
      (takeLength 4 ((cells.take length).drop 1)).isSome = true ∨ length ≤ 1 := by
  constructor
  · intro hreads
    by_cases hshort : length ≤ 1
    · exact .inr hshort
    · cases htake : takeLength 4 ((cells.take length).drop 1) with
      | some field => exact .inl rfl
      | none =>
        obtain ⟨htotal, -, -⟩ := hreads.rejects htake
        have hpos := @terms_pos cells length (by omega)
        rw [mqttGetTotalLength_defined hreads.defined] at htotal
        have hle : 1 + ((lengthFieldTerms length length 1).value cells).length +
            termsSum ((lengthFieldTerms length length 1).value cells) < 2 := by exact_mod_cast htotal
        omega
  · rintro (hsome | hshort)
    · obtain ⟨⟨n, rest⟩, htake⟩ := Option.isSome_iff_exists.mp hsome
      exact readsLength_of_takeLength hlength htake
    · exact readsLength_short hshort

/-- A field of three bytes. -/
theorem readsLength_iff_three :
    ReadsLength ⟨fun totlen b n => totlen + b * 2 ^ n, fun _ _ _ _ _ => rfl⟩ [0x30, 0x80, 0xA3, 0x01, 0x00] 5 ↔
      (takeLength 4 ((([0x30, 0x80, 0xA3, 0x01, 0x00] : List UInt8).take 5).drop 1)).isSome = true ∨ 5 ≤ 1 :=
  readsLength_iff _ [0x30, 0x80, 0xA3, 0x01, 0x00] 5 le_rfl

/-- A field of five bytes is decoded: the length is read as 2 ^ 28 and 6 bytes. -/
theorem fifth_byte_decoded :
    ¬ ∀ (signed : Signed) (cells : List UInt8) (length : Nat), length ≤ cells.length →
      ReadsLength signed cells length := by
  intro hall
  have hreads := hall ⟨fun totlen b n => totlen + b * 2 ^ n, fun _ _ _ _ _ => rfl⟩
    [0x30, 0x80, 0x80, 0x80, 0x80, 0x01] 6 le_rfl
  have htotal := (hreads.rejects (by decide)).1
  exact absurd htotal (by decide)

end EspClock.Mqtt
