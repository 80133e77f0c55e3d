import EspClock.Mqtt.Segments

/-!
# Messages without payload

What `deliver_publish` hands to the message callback. The getter of the payload answers with the null
pointer when there is none to point to, and `deliver_publish` looks at the length alone. Of the exits with
the null pointer, the one behind the identifier of a QoS 1 or 2 message leaves the length as it was: the
number of bytes received.
-/

namespace EspClock.Mqtt

open Mem Client

namespace Client

variable {s : Client} {p : Publish} {more : List UInt8} {length : Nat}

/-- The one callback of `deliver_publish`. -/
theorem deliverPublish_callbacks (program : Program) (signed : Signed) (hcells : s.inBuffer.cells = p.bytes ++ more)
    (hlength : p.bytes.length ≤ length) (hmessage : s.messageRef = true) (hself : s.selfRef = true) :
    (s.deliverPublish program signed length).2.filterMap Action.callback? = [p.callback length] := by
  obtain ⟨-, hactions⟩ :=
    @deliverPublish_deliver signed more s program p length hcells hlength _ Action.callback? fun _ => rfl
  rw [hactions, deliver, if_pos ⟨hmessage, hself⟩]
  exact call_callbacks s _

/-- A PUBLISH packet without payload, in front of any bytes and received together with any number of them,
is delivered as its topic and no payload exactly when it has QoS 0 or something was received behind it. -/
theorem empty_message_iff (program : Program) (signed : Signed) (s : Client) (p : Publish) (more : List UInt8)
    (length : Nat) (hempty : p.payload = []) (hcells : s.inBuffer.cells = p.bytes ++ more)
    (hlength : p.bytes.length ≤ length) (hmessage : s.messageRef = true) (hself : s.selfRef = true) :
    (s.deliverPublish program signed length).2.filterMap Action.callback? = [.message (.bytes p.topic) none] ↔
      p.qos = 0 ∨ p.bytes.length < length := by
  rw [deliverPublish_callbacks program signed hcells hlength hmessage hself, Publish.callback]
  by_cases hqos : p.qos = 0
  · simp [hempty, hqos]
  · by_cases hlast : p.bytes.length = length
    · simp [hempty, hqos, hlast]
    · have hbehind : p.bytes.length < length := by omega
      simp [hempty, hlast, hbehind]

end Client

/-- A message without payload on the topic `t`. -/
def emptyMessage (qos : Nat) (hqos : qos < 3) : Publish :=
  { message with
    qos := qos
    payload := []
    qos_lt := hqos
    remaining_lt := by
      split_ifs <;> decide }

/-- The empty message with QoS 0. -/
theorem empty_message_iff_qos_zero :
    ((listening.load (emptyMessage 0 (by decide)).bytes).deliverPublish silent wide 5).2.filterMap Action.callback? =
        [.message (.bytes [116]) none] ↔
      0 = 0 ∨ (emptyMessage 0 (by decide)).bytes.length < 5 :=
  empty_message_iff silent wide _ (emptyMessage 0 (by decide)) _ 5 rfl (load_cells listening (by decide)) (by decide) rfl rfl

/-- With QoS 1 and nothing behind it, the null pointer is pushed with the length of the packet. -/
theorem empty_message_null :
    ¬ ∀ (s : Client) (p : Publish) (more : List UInt8) (length : Nat), p.payload = [] →
      s.inBuffer.cells = p.bytes ++ more → p.bytes.length ≤ length → s.messageRef = true → s.selfRef = true →
        (s.deliverPublish silent wide length).2.filterMap Action.callback? = [.message (.bytes p.topic) none] := by
  intro hall
  have hcalled := hall (listening.load (emptyMessage 1 (by decide)).bytes) (emptyMessage 1 (by decide)) _ 7 rfl
    (load_cells listening (by decide)) (by decide) rfl rfl
  exact absurd hcalled (by decide +kernel)

end EspClock.Mqtt
