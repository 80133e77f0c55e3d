import EspClock.Mqtt.Frame

/-!
# The establishment of a session

Beside the client a history is kept of what the server has sent on the current TCP connection since the
CONNECT packet went out. A session is established when this starts with a CONNACK packet of return code 0.

The client looks at no more than the type of the first packet, and a connection that ends leaves `connState`
as it is. So `MQTT_DATA` means an established session exactly as long as every CONNACK packet that the client
takes has return code 0 and no connection ends, or is replaced, in state `MQTT_DATA`.
-/

namespace EspClock.Mqtt

open Mem Client

/-- A whole CONNACK packet with return code 0 stands at the start. -/
def Accepted (bytes : List UInt8) : Prop := ∃ flags rest, bytes = 0x20 :: 2 :: flags :: 0 :: rest

/-- A client and what the server has sent on the current connection since the CONNECT packet. -/
structure Session where
  client : Client
  heard : Option (List UInt8)

namespace Session

def Established (s : Session) : Prop := ∃ bytes, s.heard = some bytes ∧ Accepted bytes

def isHanded : Action → Bool
  | .handed _ _ => true
  | _ => false

/-- The history after an event and what it left behind. -/
def hears (s : Session) (actions : List Action) : Event → Option (List UInt8)
  | .connect _ _ => none
  | .tcpConnected =>
    if s.client.espconn then
      if actions.any isHanded then some [] else none
    else s.heard
  | .received pdata => if s.client.espconn ∧ s.client.link then s.heard.map (· ++ pdata) else s.heard
  | .disconnected => if s.client.espconn then none else s.heard
  | _ => s.heard

end Session

/-- The client with the history of its connection. -/
def sessions (program : Program) (signed : Signed) : Machine Session Event Action where
  step s e :=
    if s.client.stuck then (s, [])
    else
      let result := s.client.react program signed e
      (⟨result.1, s.hears result.2 e⟩, result.2)

/-- The state `MQTT_DATA` means an established session. -/
def Session.Sound (s : Session) : Prop := s.client.state = .data → s.Established

/-- The connect callback runs in an established session. -/
def CallbackSound (program : Program) (signed : Signed) (s : Session) (e : Event) : Prop :=
  .callback .connect ∈ (sessions program signed).actions s e → ((sessions program signed).next s e).Established

/-- No connection ends, or is replaced, in state `MQTT_DATA`; a packet that the client takes for its CONNACK
packet is one of return code 0, on a connection on which CONNECT was sent. -/
def KeepsEstablished (s : Session) (e : Event) : Prop :=
  s.client.stuck = false →
    match e with
    | .connect _ _ => s.client.state ≠ .data
    | .disconnected => s.client.espconn = true → s.client.state ≠ .data
    | .received pdata =>
      s.client.espconn = true → s.client.link = true → s.client.state = .connectSending →
        mqttGetType.value (s.client.load pdata).inBuffer.cells = some .connack →
          s.heard.isSome ∧ Accepted pdata
    | _ => True

/-! ### One event -/

variable {program : Program} {signed : Signed} {s : Session} {e : Event}

theorem ofMessages_ne_connect : OfMessages (· ≠ .callback .connect) where
  wrote _ _ h := nomatch h
  handed _ _ h := nomatch h
  disconnect h := nomatch h
  error _ h := nomatch h
  read _ h := nomatch h
  message _ _ h := nomatch h
  suback h := nomatch h
  puback _ h := nomatch h

theorem Accepted.append {bytes : List UInt8} (h : Accepted bytes) (rest : List UInt8) : Accepted (bytes ++ rest) := by
  obtain ⟨flags, rest', rfl⟩ := h
  exact ⟨flags, rest' ++ rest, rfl⟩

/-- All events but the start of a connection and the arrival of data. -/
def Event.Quiet : Event → Prop
  | .received _ | .tcpConnected => False
  | _ => True

theorem react_quiet (c : Client) (e : Event) (he : e.Quiet) :
    (c.react program signed e).1.state = c.state ∧ ∀ a ∈ (c.react program signed e).2, a ≠ .callback .connect := by
  have hcalls := ofMessages_ne_connect.toOfCalls
  cases e with
  | operation o => exact ⟨(operate_same c o).state, operate_actions hcalls o⟩
  | connect callback memory =>
    cases memory with
    | both => exact ⟨rfl, List.forall_mem_nil _⟩
    | none | espconn => exact ⟨rfl, List.forall_mem_singleton.mpr fun h => by cases h⟩
  | tcpConnected | received pdata => exact he.elim
  | sent count =>
    rw [react]
    split_ifs
    · unfold socketSent
      dsimp only
      split_ifs
      · exact ⟨rfl, List.forall_mem_nil _⟩
      · exact ⟨(callPuback_same program _).state, callPuback_actions hcalls program fun _ h => by cases h⟩
      · exact ⟨rfl, List.forall_mem_nil _⟩
    · exact ⟨rfl, List.forall_mem_nil _⟩
  | tick =>
    rw [react]
    split_ifs
    · unfold socketTimer ping
      dsimp only
      split_ifs
      · refine ⟨?_, List.forall_mem_append.mpr ⟨build_actions hcalls _, transmit_actions hcalls _⟩⟩
        exact (transmit_same _ _).state
      · exact ⟨rfl, List.forall_mem_nil _⟩
      · exact ⟨rfl, List.forall_mem_nil _⟩
    · exact ⟨rfl, List.forall_mem_nil _⟩
  | disconnected =>
    rw [react]
    split_ifs
    · unfold socketDisconnected
      dsimp only
      split_ifs
      · exact ⟨(call_same program _ _).state, call_actions hcalls program fun h => by cases h⟩
      · exact ⟨rfl, List.forall_mem_nil _⟩
    · exact ⟨rfl, List.forall_mem_nil _⟩

/-- The type of the first packet decides. -/
theorem accept_spec (c : Client) :
    (mqttGetType.value c.inBuffer.cells = some .connack → (c.accept program).1.state = .data) ∧
    (mqttGetType.value c.inBuffer.cells ≠ some .connack → (c.accept program).1.state = .init ∧
      ∀ a ∈ (c.accept program).2, a ≠ .callback .connect) := by
  constructor
  · intro htype
    unfold accept Client.reading
    dsimp only
    rw [if_neg (not_not.mpr htype)]
    split_ifs
    · exact (call_same program _ .connect).state
    · rfl
  · intro htype
    unfold accept Client.reading
    dsimp only
    rw [if_pos htype]
    refine ⟨(sendOutbound_same _).state, ?_⟩
    rw [List.singleton_append, List.forall_mem_cons, List.forall_mem_cons]
    exact ⟨(fun h => by cases h), (fun h => by cases h), sendOutbound_actions ofMessages_ne_connect.toOfCalls⟩

/-- Outside of `MQTT_CONNECT_SENDING` a receive callback leaves the state alone. -/
theorem received_quiet (c : Client) (h : c.state ≠ .connectSending) (pdata : List UInt8) :
    (c.received program signed pdata).1.state = c.state ∧
      ∀ a ∈ (c.received program signed pdata).2, a ≠ .callback .connect := by
  unfold received
  by_cases hdata : c.state = .data
  · obtain ⟨hsame, hactions⟩ := readPacket_data hdata ofMessages_ne_connect (fun _ _ h => by cases h)
    exact ⟨hsame.state, hactions⟩
  · rw [readPacket_idle h hdata]
    exact ⟨rfl, List.forall_mem_singleton.mpr fun h => by cases h⟩

theorem received_sending (c : Client) (h : c.state = .connectSending) (pdata : List UInt8) :
    (mqttGetType.value (c.load pdata).inBuffer.cells = some .connack →
      (c.received program signed pdata).1.state = .data) ∧
    (mqttGetType.value (c.load pdata).inBuffer.cells ≠ some .connack →
      (c.received program signed pdata).1.state = .init ∧
        ∀ a ∈ (c.received program signed pdata).2, a ≠ .callback .connect) := by
  obtain ⟨hconnack, hother⟩ := @accept_spec program (c.load pdata)
  unfold received
  rw [readPacket_sending h]
  refine ⟨hconnack, fun htype => ?_⟩
  obtain ⟨hstate, hactions⟩ := hother htype
  exact ⟨hstate, List.forall_mem_cons.mpr ⟨(fun h => by cases h), hactions⟩⟩

theorem socketConnected_spec (c : Client) :
    c.socketConnected.1.state = .connectSending ∧ ∀ a ∈ c.socketConnected.2, a ≠ .callback .connect := by
  have hcalls := ofMessages_ne_connect.toOfCalls
  exact ⟨rfl, List.forall_mem_append.mpr ⟨build_actions hcalls _, transmit_actions hcalls _⟩⟩

/-- Before the server's first packet nothing was heard. -/
def Session.Fresh (s : Session) : Prop := s.client.state = .connectSending → ∀ bytes, s.heard = some bytes → bytes = []

theorem next_stuck (h : s.client.stuck = true) : (sessions program signed).step s e = (s, []) := if_pos h

theorem next_eq (h : s.client.stuck = false) :
    (sessions program signed).step s e =
      (⟨(s.client.react program signed e).1, s.hears (s.client.react program signed e).2 e⟩,
        (s.client.react program signed e).2) := if_neg (by rw [h]; decide)

theorem next_fresh (s : Session) (e : Event) (h : s.Fresh) : ((sessions program signed).next s e).Fresh := by
  unfold Machine.next
  cases hstuck : s.client.stuck with
  | true =>
    rw [next_stuck hstuck]
    exact h
  | false =>
    rw [next_eq hstuck]
    unfold Session.Fresh
    dsimp only
    cases e with
    | operation o =>
      rw [(react_quiet s.client (.operation o) trivial).1]
      exact h
    | sent count =>
      rw [(react_quiet s.client (.sent count) trivial).1]
      exact h
    | tick =>
      rw [(react_quiet s.client .tick trivial).1]
      exact h
    | connect callback memory => exact fun _ bytes hbytes => by cases hbytes
    | tcpConnected =>
      intro hstate bytes hbytes
      rw [Session.hears] at hbytes
      split_ifs at hbytes with hconn hsent
      · exact (Option.some.inj hbytes).symm
      · rw [react, if_neg hconn] at hstate
        exact h hstate bytes hbytes
    | received pdata =>
      rw [react, Session.hears]
      split_ifs with hconn
      · intro hstate
        by_cases hsending : s.client.state = .connectSending
        · obtain ⟨hconnack, hother⟩ := @received_sending program signed s.client hsending pdata
          by_cases htype : mqttGetType.value (s.client.load pdata).inBuffer.cells = some .connack
          · rw [hconnack htype] at hstate
            cases hstate
          · rw [(hother htype).1] at hstate
            cases hstate
        · rw [(received_quiet s.client hsending pdata).1] at hstate
          exact absurd hstate hsending
      · exact h
    | disconnected =>
      rw [(react_quiet s.client .disconnected trivial).1, Session.hears]
      split_ifs with hconn
      · exact fun _ bytes hbytes => by cases hbytes
      · exact h

/-- When an event leaves no established session behind, it must not leave the state `MQTT_DATA` either. -/
theorem dropped_iff (hstuck : s.client.stuck = false) (he : e.Quiet)
    (hheard : s.hears (s.client.react program signed e).2 e = none) :
    ((sessions program signed).next s e).Sound ∧ CallbackSound program signed s e ↔ s.client.state ≠ .data := by
  obtain ⟨hstate, hactions⟩ := @react_quiet program signed s.client e he
  unfold CallbackSound Machine.next Machine.actions Session.Sound Session.Established
  rw [next_eq hstuck]
  dsimp only
  rw [hstate, hheard]
  constructor
  · rintro ⟨hsound, -⟩ hdata
    obtain ⟨bytes, hbytes, -⟩ := hsound hdata
    cases hbytes
  · exact fun hdata => ⟨fun h => absurd h hdata, fun h => absurd rfl (hactions _ h)⟩

/-- An event that the history does not notice keeps a sound session sound. -/
theorem unnoticed_sound (hstuck : s.client.stuck = false) (hstate : (s.client.react program signed e).1.state = s.client.state)
    (hactions : ∀ a ∈ (s.client.react program signed e).2, a ≠ .callback .connect)
    (hheard : ∀ bytes, s.heard = some bytes → Accepted bytes →
      ∃ bytes', s.hears (s.client.react program signed e).2 e = some bytes' ∧ Accepted bytes')
    (hsound : s.Sound) : ((sessions program signed).next s e).Sound ∧ CallbackSound program signed s e := by
  unfold CallbackSound Machine.next Machine.actions Session.Sound Session.Established
  rw [next_eq hstuck]
  refine ⟨?_, fun h => absurd rfl (hactions _ h)⟩
  intro hdata
  obtain ⟨bytes, hbytes, haccepted⟩ := hsound (hstate.symm.trans hdata)
  exact hheard bytes hbytes haccepted

/-- An event that the client ignores. -/
theorem ignored_sound (hstuck : s.client.stuck = false) (hreact : s.client.react program signed e = (s.client, []))
    (hhears : s.hears [] e = s.heard) (hsound : s.Sound) :
    ((sessions program signed).next s e).Sound ∧ CallbackSound program signed s e := by
  apply unnoticed_sound hstuck _ _ _ hsound
  · rw [hreact]
  · rw [hreact]
    exact List.forall_mem_nil _
  · rw [hreact, hhears]
    exact fun bytes hbytes haccepted => ⟨bytes, hbytes, haccepted⟩

/-- The client is in the established session of its first packet if this is a CONNACK packet of return
code 0. -/
theorem received_sound_iff {pdata : List UInt8} (hstuck : s.client.stuck = false)
    (hconn : s.client.espconn = true ∧ s.client.link = true) (hfresh : s.Fresh) (hsound : s.Sound) :
    ((sessions program signed).next s (.received pdata)).Sound ∧ CallbackSound program signed s (.received pdata) ↔
      (s.client.espconn = true → s.client.link = true → s.client.state = .connectSending →
        mqttGetType.value (s.client.load pdata).inBuffer.cells = some .connack →
          s.heard.isSome ∧ Accepted pdata) := by
  have hreact : s.client.react program signed (.received pdata) = s.client.received program signed pdata :=
    if_pos hconn
  have hhears : ∀ actions, s.hears actions (.received pdata) = s.heard.map (· ++ pdata) := fun _ => if_pos hconn
  by_cases hsending : s.client.state = .connectSending
  · obtain ⟨hconnack, hother⟩ := @received_sending program signed s.client hsending pdata
    by_cases htype : mqttGetType.value (s.client.load pdata).inBuffer.cells = some .connack
    · have hestablished : ((sessions program signed).next s (.received pdata)).Established ↔
          s.heard.isSome ∧ Accepted pdata := by
        unfold Machine.next Session.Established
        rw [next_eq hstuck]
        dsimp only
        rw [hhears]
        cases hheard : s.heard with
        | none => exact iff_of_false (by rintro ⟨_, h, _⟩; cases h) fun h => by cases h.1
        | some bytes =>
          rw [hfresh hsending bytes hheard]
          constructor
          · rintro ⟨bytes', hbytes', haccepted⟩
            rw [← Option.some.inj hbytes'] at haccepted
            exact ⟨rfl, haccepted⟩
          · exact fun h => ⟨pdata, rfl, h.2⟩
      have hdata : ((sessions program signed).next s (.received pdata)).client.state = .data := by
        unfold Machine.next
        rw [next_eq hstuck, hreact]
        exact hconnack htype
      constructor
      · rintro ⟨hnext, -⟩ - - - -
        exact hestablished.mp (hnext hdata)
      · intro h
        have hnext := hestablished.mpr (h hconn.1 hconn.2 hsending htype)
        exact ⟨fun _ => hnext, fun _ => hnext⟩
    · obtain ⟨hstate, hactions⟩ := hother htype
      refine iff_of_true ?_ fun _ _ _ h => absurd h htype
      unfold CallbackSound Machine.next Machine.actions Session.Sound
      rw [next_eq hstuck, hreact]
      refine ⟨fun hdata => ?_, fun h => absurd rfl (hactions _ h)⟩
      rw [hstate] at hdata
      cases hdata
  · obtain ⟨hstate, hactions⟩ := @received_quiet program signed s.client hsending pdata
    refine iff_of_true ?_ fun _ _ h => absurd h hsending
    apply unnoticed_sound hstuck _ _ _ hsound
    · rw [hreact]
      exact hstate
    · rw [hreact]
      exact hactions
    · intro bytes hbytes haccepted
      refine ⟨bytes ++ pdata, ?_, haccepted.append pdata⟩
      rw [hhears, hbytes]
      rfl

theorem next_sound_iff (s : Session) (e : Event) (hfresh : s.Fresh) (hsound : s.Sound) :
    ((sessions program signed).next s e).Sound ∧ CallbackSound program signed s e ↔ KeepsEstablished s e := by
  unfold KeepsEstablished
  cases hstuck : s.client.stuck with
  | true =>
    unfold CallbackSound Machine.next Machine.actions
    rw [next_stuck hstuck]
    exact iff_of_true ⟨hsound, fun h => absurd h List.not_mem_nil⟩ fun h => by cases h
  | false =>
    rw [forall_prop_of_true rfl]
    have hkept : ∀ bytes, s.heard = some bytes → Accepted bytes → ∃ bytes', s.heard = some bytes' ∧ Accepted bytes' :=
      fun bytes hbytes haccepted => ⟨bytes, hbytes, haccepted⟩
    cases e with
    | operation o =>
      obtain ⟨hstate, hactions⟩ := @react_quiet program signed s.client (.operation o) trivial
      exact iff_of_true (unnoticed_sound hstuck hstate hactions hkept hsound) trivial
    | sent count =>
      obtain ⟨hstate, hactions⟩ := @react_quiet program signed s.client (.sent count) trivial
      exact iff_of_true (unnoticed_sound hstuck hstate hactions hkept hsound) trivial
    | tick =>
      obtain ⟨hstate, hactions⟩ := @react_quiet program signed s.client .tick trivial
      exact iff_of_true (unnoticed_sound hstuck hstate hactions hkept hsound) trivial
    | connect callback memory => exact dropped_iff hstuck trivial rfl
    | tcpConnected =>
      refine iff_of_true ?_ trivial
      by_cases hconn : s.client.espconn = true
      · obtain ⟨hstate, hactions⟩ := socketConnected_spec s.client
        unfold CallbackSound Machine.next Machine.actions Session.Sound
        rw [next_eq hstuck, react, if_pos hconn]
        refine ⟨fun hdata => ?_, fun h => absurd rfl (hactions _ h)⟩
        rw [hstate] at hdata
        cases hdata
      · exact ignored_sound hstuck (if_neg hconn) (if_neg hconn) hsound
    | received pdata =>
      by_cases hconn : s.client.espconn = true ∧ s.client.link = true
      · exact received_sound_iff hstuck hconn hfresh hsound
      · have hignored := @ignored_sound program signed s (.received pdata) hstuck (if_neg hconn) (if_neg hconn) hsound
        exact iff_of_true hignored fun h h' => absurd ⟨h, h'⟩ hconn
    | disconnected =>
      by_cases hconn : s.client.espconn = true
      · rw [@dropped_iff program signed s .disconnected hstuck trivial (if_pos hconn)]
        exact ⟨fun h _ => h, fun h => h hconn⟩
      · obtain ⟨hstate, hactions⟩ := @react_quiet program signed s.client .disconnected trivial
        refine iff_of_true (unnoticed_sound hstuck hstate hactions ?_ hsound) fun h => absurd h hconn
        rw [Session.hears, if_neg hconn]
        exact hkept

/-! ### Runs -/

/-- For a client, whatever its program does, and any sequence of calls, events of its connections and
ticks: `MQTT_DATA` means an established session in every state, and the connect callback runs in one, exactly
if every CONNACK packet that the client takes has return code 0 and follows a CONNECT packet, and no
connection ends or is replaced in state `MQTT_DATA`. -/
theorem established_iff (program : Program) (signed : Signed) (info : ConnectInfo) (connected : Bool)
    (events : List Event) :
    ((sessions program signed).Always Session.Sound ⟨.new info connected, none⟩ events ∧
      (sessions program signed).Along (CallbackSound program signed) ⟨.new info connected, none⟩ events) ↔
    (sessions program signed).Along KeepsEstablished ⟨.new info connected, none⟩ events := by
  apply Machine.always_and_along_iff next_fresh next_sound_iff
  · exact fun h => by cases h
  · exact fun h => by cases h

/-- A server that refuses the connection: the client calls its connect callback. -/
theorem refused_connected :
    ¬ ∀ (program : Program) (signed : Signed) (info : ConnectInfo) (connected : Bool) (events : List Event),
      (sessions program signed).Always Session.Sound ⟨.new info connected, none⟩ events ∧
        (sessions program signed).Along (CallbackSound program signed) ⟨.new info connected, none⟩ events := by
  intro hall
  obtain ⟨halways, -⟩ := hall (fun _ => []) ⟨fun totlen b n => totlen + b * 2 ^ n, fun _ _ _ _ _ => rfl⟩
    ⟨[99], [], [], [], [], 60, 0, false, true⟩ false [.connect true .both, .tcpConnected, .received [0x20, 2, 0, 5]]
  obtain ⟨bytes, hbytes, flags, rest, haccepted⟩ := halways.last rfl
  have hheard : some bytes = some [0x20, 2, 0, 5] := hbytes.symm.trans rfl
  rw [haccepted] at hheard
  simp at hheard

end EspClock.Mqtt
