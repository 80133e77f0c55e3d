import EspClock.Mqtt.Packet

/-!
# Packets in receive callbacks

Nothing is kept from one receive callback to the next, and within a callback the loop looks for another packet
behind a PUBLISH packet only. So the callbacks of the program are those of the packets one by one as long as
every receive callback holds whole packets and all of them but the last are PUBLISH packets. A QoS 1 or 2
packet without payload gives the program something else when it is alone than when bytes follow.
-/

namespace EspClock.Mqtt

open Mem Client

def Action.callback? : Action → Option Callback
  | callback c => some c
  | _ => none

namespace Client

variable {s s' : Client} {program : Program} {signed : Signed}

/-! ### What the calls of the program depend on -/

/-- The client without what only the handlers look at. -/
def core (s : Client) : Client := { s with inBuffer := Block.fill 1024 0, outbound := false, inFlight := 0 }

theorem load_core (s : Client) (pdata : List UInt8) : (s.load pdata).core = s.core := rfl

theorem transmit_core (s : Client) (publication : Option Publication) :
    (s.transmit publication).1.core = s.core := by
  unfold transmit
  split_ifs <;> rfl

theorem transmit_core_congr (h : s.core = s'.core) (publication publication' : Option Publication) :
    (s.transmit publication).1.core = (s'.transmit publication').1.core := by
  rw [transmit_core, transmit_core, h]

theorem sendOutbound_core (s : Client) : s.sendOutbound.1.core = s.core := by
  unfold sendOutbound
  split_ifs
  · exact transmit_core s none
  · rfl

theorem eq_of_core (h : s.core = s'.core) :
    s' = { s with inBuffer := s'.inBuffer, outbound := s'.outbound, inFlight := s'.inFlight } := by
  cases s
  cases s'
  simp only [core, mk.injEq] at h ⊢
  simp only [h, and_self]

theorem buildTable_core (h : s.core = s'.core) (topics : List (List UInt8 × Nat)) :
    (s.buildTable topics).1.core = (s'.buildTable topics).1.core ∧
      (s.buildTable topics).2.2 = (s'.buildTable topics).2.2 := by
  induction topics generalizing s s' with
  | nil => exact ⟨h, rfl⟩
  | cons topic topics ih =>
    rw [eq_of_core h]
    obtain ⟨hcore, hmessages⟩ := @ih (s.buildSubscribe topic.1 topic.2).1
      ({ s with inBuffer := s'.inBuffer, outbound := s'.outbound, inFlight := s'.inFlight }.buildSubscribe topic.1 topic.2).1
      rfl
    refine ⟨hcore, ?_⟩
    rw [buildTable, buildTable]
    dsimp only
    rw [hmessages]
    rfl

/-- A call of the program does not depend on it. -/
theorem operate_core (h : s.core = s'.core) (o : Operation) : (s.operate o).1.core = (s'.operate o).1.core := by
  cases o with
  | publish topic payload qos retain callback =>
    rw [eq_of_core h, operate, operate, publish, publish]
    split_ifs
    · rfl
    · rfl
    · refine transmit_core_congr ?_ _ _
      rfl
  | subscribe topic qos callback =>
    rw [eq_of_core h, operate, operate, subscribe, subscribe]
    split_ifs
    · rfl
    · rfl
    · refine transmit_core_congr ?_ none none
      rfl
  | subscribeTable topics callback =>
    obtain ⟨hcore, hmessages⟩ := buildTable_core h topics
    have hsendTimeout : s'.sendTimeout = s.sendTimeout := by rw [eq_of_core h]
    have hconnected : s'.connected = s.connected := by rw [eq_of_core h]
    rw [operate, operate, subscribeTable, subscribeTable, hsendTimeout, hconnected]
    dsimp only
    rw [← hmessages, eq_of_core hcore]
    dsimp only
    split_ifs
    · exact h
    · exact h
    · rfl
    · refine transmit_core_congr ?_ none none
      rfl
  | on method =>
    rw [eq_of_core h]
    cases method <;> rfl
  | close => exact h

theorem operateAll_core (h : s.core = s'.core) (os : List Operation) :
    (s.operateAll os).1.core = (s'.operateAll os).1.core := by
  induction os generalizing s s' with
  | nil => exact h
  | cons o os ih => exact ih (operate_core h o)

/-! ### The callbacks of a packet -/

theorem ofCalls_callback : OfCalls (·.callback? = none) :=
  ⟨fun _ _ => rfl, fun _ _ => rfl, rfl, fun _ => rfl⟩

theorem callbacks_eq_nil {actions : List Action} (h : ∀ a ∈ actions, a.callback? = none) :
    actions.filterMap Action.callback? = [] := List.filterMap_eq_nil_iff.mpr h

theorem call_core (h : s.core = s'.core) (callback : Callback) :
    (s.call program callback).1.core = (s'.call program callback).1.core := by
  have hcalled : s.called = s'.called := by rw [eq_of_core h]
  rw [call, call, ← hcalled]
  refine operateAll_core ?_ (program s.called)
  rw [eq_of_core h]
  rfl

theorem call_callbacks (s : Client) (callback : Callback) :
    (s.call program callback).2.filterMap Action.callback? = [callback] := by
  rw [call]
  exact congrArg (callback :: ·) (callbacks_eq_nil (operateAll_actions ofCalls_callback _))

/-- Two results of which the program sees the same. -/
def Alike (r r' : Client × List Action) : Prop :=
  r.1.core = r'.1.core ∧ r.2.filterMap Action.callback? = r'.2.filterMap Action.callback?

theorem call_alike (h : s.core = s'.core) (callback : Callback) :
    Alike (s.call program callback) (s'.call program callback) :=
  ⟨call_core h callback, (call_callbacks s callback).trans (call_callbacks s' callback).symm⟩

theorem build_alike (h : s.core = s'.core) (f : Connection → Connection) :
    Alike (s.build (f s.connection)) (s'.build (f s'.connection)) := by
  rw [eq_of_core h]
  exact ⟨rfl, rfl⟩

theorem acknowledge_alike (h : s.core = s'.core) (qos id : Nat) :
    Alike (s.acknowledge qos id) (s'.acknowledge qos id) := by
  unfold acknowledge
  split_ifs
  · exact build_alike h (Connection.mqttMsgPuback · id)
  · exact build_alike h (Connection.mqttMsgPubrec · id)
  · exact ⟨h, rfl⟩

theorem deliver_alike (h : s.core = s'.core) (callback : Callback) :
    Alike (s.deliver program callback) (s'.deliver program callback) := by
  have hmessageRef : s'.messageRef = s.messageRef := by rw [eq_of_core h]
  have hselfRef : s'.selfRef = s.selfRef := by rw [eq_of_core h]
  unfold deliver
  rw [hmessageRef, hselfRef]
  split_ifs
  · exact call_alike h callback
  · exact ⟨h, rfl⟩

theorem callPuback_alike (h : s.core = s'.core) : Alike (s.callPuback program) (s'.callPuback program) := by
  have hpubackRef : s'.pubackRef = s.pubackRef := by rw [eq_of_core h]
  have hselfRef : s'.selfRef = s.selfRef := by rw [eq_of_core h]
  unfold callPuback
  rw [hpubackRef, hselfRef]
  cases s.pubackRef with
  | none => exact ⟨h, rfl⟩
  | some n =>
    dsimp only
    split_ifs
    · exact call_alike h (.puback n)
    · exact ⟨h, rfl⟩

theorem take_alike (h : s.core = s'.core) (len : Nat) (p : Packet) :
    Alike (s.take program signed len p) (s'.take program signed len p) := by
  cases p with
  | publish p =>
    obtain ⟨hcore, hwritten⟩ := acknowledge_alike h p.qos (p.idFound 1024)
    obtain ⟨hcore', hcalled⟩ := @deliver_alike _ _ program hcore (p.callback len)
    refine ⟨hcore', ?_⟩
    unfold take
    dsimp only
    rw [List.filterMap_append, List.filterMap_append, hwritten, hcalled]
  | control p =>
    have hsubackRef : s'.subackRef = s.subackRef := by rw [eq_of_core h]
    have hselfRef : s'.selfRef = s.selfRef := by rw [eq_of_core h]
    have hpendingType : s'.pendingType = s.pendingType := by rw [eq_of_core h]
    have hpendingId : s'.pendingId = s.pendingId := by rw [eq_of_core h]
    unfold take
    dsimp only
    generalize (mqttGetId 1024).value p.bytes = id
    cases hkind : p.type with
    | publish => exact absurd hkind p.type_ne
    | suback =>
      rw [handle, handle, hsubackRef, hselfRef]
      split_ifs
      · exact call_alike h .suback
      · exact ⟨h, rfl⟩
    | puback | pubcomp =>
      rw [handle, handle, hpendingType, hpendingId]
      split_ifs
      · exact callPuback_alike h
      · exact ⟨h, rfl⟩
    | pubrec => exact build_alike h (Connection.mqttMsgPubrel · id)
    | pubrel => exact build_alike h (Connection.mqttMsgPubcomp · id)
    | pingreq => exact build_alike h Connection.mqttMsgPingresp
    | _ => exact ⟨h, rfl⟩

/-! ### Packets one by one -/

/-- What the client does with packets that come one by one. -/
def takeAll (program : Program) (signed : Signed) (s : Client) : List Packet → Client × List Action
  | [] => (s, [])
  | p :: ps =>
    let (s, actions) := s.take program signed p.bytes.length p
    let (s, actions') := s.takeAll program signed ps
    (s, actions ++ actions')

theorem takeAll_alike (h : s.core = s'.core) (ps : List Packet) :
    Alike (s.takeAll program signed ps) (s'.takeAll program signed ps) := by
  induction ps generalizing s s' with
  | nil => exact ⟨h, rfl⟩
  | cons p ps ih =>
    obtain ⟨hcore, hactions⟩ := @take_alike _ _ program signed h p.bytes.length p
    obtain ⟨hcore', hactions'⟩ := ih hcore
    refine ⟨hcore', ?_⟩
    rw [takeAll, takeAll, List.filterMap_append, List.filterMap_append, hactions, hactions']

theorem takeAll_append (s : Client) (ps qs : List Packet) :
    s.takeAll program signed (ps ++ qs) =
      (((s.takeAll program signed ps).1.takeAll program signed qs).1,
        (s.takeAll program signed ps).2 ++ ((s.takeAll program signed ps).1.takeAll program signed qs).2) := by
  induction ps generalizing s with
  | nil => rfl
  | cons p ps ih =>
    rw [List.cons_append, takeAll, takeAll]
    dsimp only
    rw [ih, List.append_assoc]

theorem deliver_same (program : Program) (s : Client) (callback : Callback) :
    SameSession s (s.deliver program callback).1 := by
  unfold deliver
  split_ifs
  · exact call_same program s callback
  · exact SameSession.refl s

theorem take_same (s : Client) (len : Nat) (p : Packet) : SameSession s (s.take program signed len p).1 := by
  cases p with
  | publish p =>
    exact (acknowledge_same s p.qos (p.idFound 1024)).trans (deliver_same program _ (p.callback len))
  | control p => exact handle_same program signed s 0 0 _ _

/-- The length makes a difference only for a QoS 1 or 2 packet without payload. -/
theorem take_length (s : Client) {p : Publish} (h : p.qos = 0 ∨ p.payload ≠ []) (len : Nat) :
    s.take program signed len (.publish p) = s.take program signed p.bytes.length (.publish p) := by
  have hcallback : p.callback len = p.callback p.bytes.length := by
    unfold Publish.callback
    rcases h with hqos | hpayload
    · simp [hqos]
    · simp [hpayload]
  unfold take
  dsimp only
  rw [hcallback]

/-! ### The packets of a receive callback -/

/-- A client that gets received data as packets. -/
structure Receiving (s : Client) : Prop where
  state : s.state = .data
  espconn : s.espconn = true
  link : s.link = true
  stuck : s.stuck = false

theorem Receiving.of_same (h : SameSession s s') (hs : s.Receiving) : s'.Receiving :=
  ⟨h.state.trans hs.state, h.espconn.trans hs.espconn, h.link.trans hs.link, h.stuck.trans hs.stuck⟩

theorem Receiving.of_core (h : s.core = s'.core) (hs : s.Receiving) : s'.Receiving := by
  rw [eq_of_core h]
  exact ⟨hs.state, hs.espconn, hs.link, hs.stuck⟩

theorem packet_alike {p : Packet} {rest : List UInt8} (hlen : (p.bytes ++ rest).length ≤ 1024) :
    Alike ((s.load (p.bytes ++ rest)).packet program signed (p.bytes ++ rest).length)
      (s.take program signed (p.bytes ++ rest).length p) := by
  have hcells := load_cells s hlen
  rw [List.append_assoc] at hcells
  obtain ⟨hstate, hactions⟩ := @packet_take signed _ _ program _ _ hcells
    (List.length_append ▸ Nat.le_add_right _ _) hlen _ Action.callback? fun _ => rfl
  obtain ⟨hcore, hcallbacks⟩ := @take_alike _ s program signed (load_core s (p.bytes ++ rest)) (p.bytes ++ rest).length p
  refine ⟨?_, hactions.trans hcallbacks⟩
  rw [hstate]
  exact hcore

/-- The packet after which the loop ends. -/
theorem readPacket_end {p : Packet} {rest : List UInt8} (hlen : (p.bytes ++ rest).length ≤ 1024)
    (hend : rest = [] ∨ ∀ q, p ≠ .publish q) (hs : s.state = .data) (fuel offset : Nat) :
    Alike (s.readPacket program signed (fuel + 1) offset (p.bytes ++ rest))
      (s.take program signed (p.bytes ++ rest).length p) := by
  have hlast : ¬ (s.load (p.bytes ++ rest)).Another signed (p.bytes ++ rest).length := by
    have hcells := load_cells s hlen
    rw [List.append_assoc] at hcells
    rw [another_iff _ hcells (List.length_append ▸ Nat.le_add_right _ _) hlen]
    rintro ⟨⟨q, hq⟩, hlt⟩
    rcases hend with rfl | hend
    · rw [List.append_nil] at hlt
      exact lt_irrefl _ hlt
    · exact hend q hq
  obtain ⟨hcore, hcallbacks⟩ := @packet_alike s program signed p rest hlen
  rw [readPacket_last hs hlast]
  refine ⟨(sendOutbound_core _).trans hcore, ?_⟩
  rw [List.cons_append, List.filterMap_cons_none rfl, List.filterMap_append,
    callbacks_eq_nil (sendOutbound_actions ofCalls_callback), List.append_nil, hcallbacks]

/-- The packets of a receive callback that the loop finds one by one. -/
structure Whole (ps : List Packet) : Prop where
  ne_nil : ps ≠ []
  fits : (ps.flatMap Packet.bytes).length ≤ 1024
  followed : ∀ p ∈ ps.dropLast, ∃ q, p = .publish q ∧ (q.qos = 0 ∨ q.payload ≠ [])

theorem readPacket_whole {ps : List Packet} (hps : Whole ps) (hs : s.state = .data) {fuel : Nat}
    (hfuel : ps.length ≤ fuel) (offset : Nat) :
    Alike (s.readPacket program signed fuel offset (ps.flatMap Packet.bytes)) (s.takeAll program signed ps) := by
  induction ps generalizing s fuel offset with
  | nil => exact absurd rfl hps.ne_nil
  | cons p ps ih =>
    obtain ⟨fuel, rfl⟩ : ∃ k, fuel = k + 1 := ⟨fuel - 1, by rw [List.length_cons] at hfuel; omega⟩
    have hlen := hps.fits
    rw [List.flatMap_cons] at hlen ⊢
    by_cases hnil : ps = []
    · subst hnil
      rw [List.flatMap_nil] at hlen ⊢
      obtain ⟨hcore, hcallbacks⟩ := @readPacket_end s program signed p [] hlen (.inl rfl) hs fuel offset
      rw [List.append_nil] at hcore hcallbacks ⊢
      refine ⟨hcore, hcallbacks.trans ?_⟩
      simp only [takeAll, List.append_nil]
    · obtain ⟨q, rfl, hq⟩ := hps.followed p (by rw [List.dropLast_cons_of_ne_nil hnil]; exact List.mem_cons_self)
      have hrest : Whole ps :=
        ⟨hnil, by rw [List.length_append] at hlen; omega, fun p hp =>
          hps.followed p (by rw [List.dropLast_cons_of_ne_nil hnil]; exact List.mem_cons_of_mem _ hp)⟩
      generalize hdata : ps.flatMap Packet.bytes = rest at hlen ⊢
      have hpos : 0 < rest.length := by
        obtain ⟨p', ps', rfl⟩ := List.exists_cons_of_ne_nil hnil
        have hp' := p'.length_pos
        rw [← hdata, List.flatMap_cons, List.length_append]
        omega
      have hcells := load_cells s hlen
      rw [List.append_assoc] at hcells
      have hle : (Packet.publish q).bytes.length ≤ ((Packet.publish q).bytes ++ rest).length := by
        rw [List.length_append]
        exact Nat.le_add_right _ _
      have hanother : (s.load ((Packet.publish q).bytes ++ rest)).Another signed
          ((Packet.publish q).bytes ++ rest).length := by
        rw [another_iff _ hcells hle hlen]
        exact ⟨⟨q, rfl⟩, by rw [List.length_append]; omega⟩
      have hnext := @messageLength_publish signed _ _ _ _ hcells hle (hle.trans hlen)
      obtain ⟨hcore, hcallbacks⟩ := @packet_alike s program signed (.publish q) rest hlen
      have hsame := (load_same s ((Packet.publish q).bytes ++ rest)).trans
        (packet_same program signed (s.load ((Packet.publish q).bytes ++ rest)) ((Packet.publish q).bytes ++ rest).length)
      rw [readPacket_another hs hanother, hnext]
      rw [take_length s hq] at hcore hcallbacks
      dsimp only
      rw [show q.bytes = (Packet.publish q).bytes from rfl, List.drop_left, ← hdata]
      rw [← hdata] at hcore hcallbacks hsame
      have hfuel' : ps.length ≤ fuel := Nat.le_of_succ_le_succ hfuel
      obtain ⟨hcore', hcallbacks'⟩ := ih hrest (hsame.state.trans hs) hfuel'
        (offset + (Packet.publish q).bytes.length)
      obtain ⟨hcore'', hcallbacks''⟩ := @takeAll_alike _ _ program signed hcore ps
      refine ⟨hcore'.trans hcore'', ?_⟩
      rw [List.cons_append, List.filterMap_cons_none rfl, List.filterMap_append, hcallbacks, hcallbacks', hcallbacks'',
        ← List.filterMap_append]
      rfl

theorem takeAll_same (s : Client) (ps : List Packet) : SameSession s (s.takeAll program signed ps).1 := by
  induction ps generalizing s with
  | nil => exact SameSession.refl s
  | cons p ps ih => exact (take_same s p.bytes.length p).trans (ih _)

theorem length_le_flatMap (ps : List Packet) : ps.length ≤ (ps.flatMap Packet.bytes).length := by
  induction ps with
  | nil => exact le_rfl
  | cons p ps ih =>
    have hpos := p.length_pos
    rw [List.flatMap_cons, List.length_append, List.length_cons]
    omega

theorem Receiving.step (hs : s.Receiving) (pdata : List UInt8) :
    (client program signed).step s (.received pdata) = s.received program signed pdata := by
  unfold client
  dsimp only
  rw [if_neg (by rw [hs.stuck]; exact Bool.false_ne_true), react, if_pos ⟨hs.espconn, hs.link⟩]

/-- One receive callback. -/
theorem step_whole (hs : s.Receiving) {ps : List Packet} (hps : Whole ps) :
    Alike ((client program signed).step s (.received (ps.flatMap Packet.bytes))) (s.takeAll program signed ps) := by
  rw [hs.step]
  exact readPacket_whole hps hs.state ((length_le_flatMap ps).trans (Nat.le_succ _)) 0

/-- The receive callbacks of a run. -/
theorem run_whole (hs : s.Receiving) {groups : List (List Packet)} (hgroups : ∀ ps ∈ groups, Whole ps) :
    ((client program signed).trace s (groups.map fun ps => .received (ps.flatMap Packet.bytes))).filterMap
        Action.callback? = (s.takeAll program signed groups.flatten).2.filterMap Action.callback? := by
  induction groups generalizing s with
  | nil => rfl
  | cons ps groups ih =>
    rw [List.forall_mem_cons] at hgroups
    obtain ⟨hcore, hcallbacks⟩ := @step_whole s program signed hs ps hgroups.1
    have hnext := Receiving.of_core hcore.symm (hs.of_same (takeAll_same s ps))
    have hrest := (@takeAll_alike _ _ program signed hcore groups.flatten).2
    rw [List.map_cons, Machine.trace_cons, List.filterMap_append, List.flatten_cons, takeAll_append,
      List.filterMap_append, ← hrest]
    exact congrArg₂ (· ++ ·) hcallbacks (ih hnext hgroups.2)

end Client

/-! ### Segmentation -/

/-- In state `MQTT_DATA`, whatever the program does in its callbacks: when every receive callback holds whole
packets, all but the last of them PUBLISH packets that have a payload or QoS 0, the callbacks of the program are
those it gets when each packet arrives in a receive callback of its own. -/
theorem callbacks_of_whole (program : Program) (signed : Signed) (s : Client) (hs : s.Receiving)
    (groups : List (List Packet)) (hgroups : ∀ ps ∈ groups, Whole ps) :
    ((client program signed).trace s (groups.map fun ps => .received (ps.flatMap Packet.bytes))).filterMap
        Action.callback? =
      ((client program signed).trace s (groups.flatten.map fun p => .received p.bytes)).filterMap
        Action.callback? := by
  have hfits : ∀ p ∈ groups.flatten, p.bytes.length ≤ 1024 := by
    intro p hp
    obtain ⟨ps, hps, hmem⟩ := List.mem_flatten.mp hp
    refine le_trans ?_ (hgroups ps hps).fits
    exact (List.sublist_flatten_of_mem (List.mem_map_of_mem hmem)).length_le
  have halone : ∀ ps ∈ groups.flatten.map fun p => [p], Whole ps := by
    intro ps hps
    obtain ⟨p, hp, rfl⟩ := List.mem_map.mp hps
    refine ⟨List.cons_ne_nil _ _, ?_, fun p hp => absurd hp List.not_mem_nil⟩
    rw [List.flatMap_singleton]
    exact hfits p hp
  have hone := @run_whole _ program signed hs _ halone
  rw [List.map_map, ← List.flatMap_def, List.flatMap_singleton'] at hone
  rw [run_whole hs hgroups, ← hone]
  simp only [Function.comp_def, List.flatMap_singleton]

/-- A program that makes no calls in its callbacks. -/
def silent : Program := fun _ => []

def wide : Signed := ⟨fun totlen b n => totlen + b * 2 ^ n, fun _ _ _ _ _ => rfl⟩

/-- A client on a session with callbacks for messages and SUBACK packets. -/
def listening : Client :=
  { Client.new ⟨[99], [], [], [], [], 60, 0, false, true⟩ true with
    espconn := true, selfRef := true, messageRef := true, subackRef := true, link := true, state := .data }

/-- The payload `x` on the topic `t`. -/
def message : Publish where
  dup := false
  qos := 1
  retain := false
  continued := 0
  topic := [116]
  id := 9
  payload := [120]
  qos_lt := by decide
  continued_lt := by decide
  topic_ne := by decide
  topic_lt := by decide
  id_pos := by decide
  id_lt := by decide
  remaining_lt := by decide

/-- The answer to the subscription with identifier 1. -/
def suback : Control where
  type := .suback
  flags := 0
  continued := 0
  body := [0, 1, 0]
  type_ne := by decide
  flags_lt := by decide
  continued_lt := by decide
  body_lt := by decide
  identified := by decide

theorem whole_message_suback : Whole [.publish message, .control suback] := by
  refine ⟨List.cons_ne_nil _ _, by decide, ?_⟩
  intro p hp
  rw [List.mem_singleton.mp hp]
  exact ⟨message, rfl, .inr (List.cons_ne_nil _ _)⟩

/-- A message and a SUBACK packet in one receive callback. -/
theorem callbacks_of_whole_coalesced :
    ((client silent wide).trace listening
        ([[.publish message, .control suback]].map fun ps => .received (ps.flatMap Packet.bytes))).filterMap
          Action.callback? =
      ((client silent wide).trace listening
        ([[Packet.publish message, .control suback]].flatten.map fun p => .received p.bytes)).filterMap
          Action.callback? :=
  callbacks_of_whole _ _ listening ⟨rfl, rfl, rfl, rfl⟩ _ (List.forall_mem_singleton.mpr whole_message_suback)

/-- A client after a subscription. -/
def subscribed : Client :=
  (client silent wide).final (.new ⟨[99], [], [], [], [], 60, 0, false, true⟩ false)
    [.connect false .both, .tcpConnected, .received [0x20, 2, 0, 0], .operation (.subscribe [116] 0 true)]

theorem take_suback {s : Client} (hsubackRef : s.subackRef = true) (hselfRef : s.selfRef = true) (len : Nat) :
    s.take silent wide len (.control suback) = ({ s with called := s.called + 1 }, [.callback .suback]) :=
  if_pos ⟨hsubackRef, hselfRef⟩

/-- Of two SUBACK packets in one receive callback the second one is lost. -/
theorem second_suback_lost :
    ¬ ∀ (program : Program) (signed : Signed) (info : ConnectInfo) (connected : Bool) (events : List Event)
      (ps : List Packet) (cut : List (List UInt8)),
      ((client program signed).final (.new info connected) events).Receiving →
      (∀ p ∈ ps, p.bytes.length ≤ 1024) → (∀ data ∈ cut, data.length ≤ 1024) → cut.flatten = ps.flatMap Packet.bytes →
      ((client program signed).trace ((client program signed).final (.new info connected) events)
          (cut.map .received)).filterMap Action.callback? =
        ((client program signed).trace ((client program signed).final (.new info connected) events)
          (ps.map fun p => .received p.bytes)).filterMap Action.callback? := by
  intro hall
  have hs : subscribed.Receiving := ⟨rfl, rfl, rfl, rfl⟩
  have hsubackRef : subscribed.subackRef = true := rfl
  have hselfRef : subscribed.selfRef = true := rfl
  have hequal := hall silent wide _ _ _ [.control suback, .control suback] [suback.bytes ++ suback.bytes] hs
    (by decide) (by decide) rfl
  have hone := (@readPacket_end subscribed silent wide (.control suback) suback.bytes (by decide)
    (.inr fun _ h => nomatch h) hs.state ((suback.bytes ++ suback.bytes).length) 0).2
  have hboth := @run_whole subscribed silent wide hs [[.control suback], [.control suback]] (by
    intro ps hps
    obtain rfl : ps = [.control suback] := by simpa using hps
    exact ⟨List.cons_ne_nil _ _, by decide, fun _ h => absurd h List.not_mem_nil⟩)
  rw [take_suback hsubackRef hselfRef] at hone
  have hseen : ((client silent wide).trace subscribed [.received (suback.bytes ++ suback.bytes)]).filterMap
      Action.callback? = [.suback] := by
    rw [Machine.trace_cons, Machine.trace_nil, List.append_nil, Machine.actions, hs.step]
    exact hone
  have halone : (subscribed.takeAll silent wide [.control suback, .control suback]).2.filterMap Action.callback? =
      [.suback, .suback] := by
    simp only [takeAll, take_suback hsubackRef hselfRef,
      take_suback (s := { subscribed with called := subscribed.called + 1 }) hsubackRef hselfRef]
    rfl
  have hlengths := congrArg List.length ((hseen.symm.trans hequal).trans (hboth.trans halone))
  exact absurd hlengths (by decide)

end EspClock.Mqtt
