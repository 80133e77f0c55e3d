import Mathlib.Algebra.Order.BigOperators.Group.List
import Mathlib.Data.List.GetD
import Mathlib.Data.List.Iterate
import EspClock.Mqtt.OutBuffer
import EspClock.Mqtt.Builder

/-!
# Subscribing to a table of topics

The packets for a table are built one after the other in `out_buffer`, copied into nodes of a list and then
gathered in `out_buffer`. A packet that does not fit behind the others is left out without a word, and so is
a topic that makes no packet. The node of a packet is freed before its pointer to the next node is read, and
the node of an empty packet is never freed. So a call that gets as far as sending reads a freed node.
-/

namespace EspClock.Mqtt

open Mem Client

/-- What a call does with a block of the heap, in order. -/
inductive HeapAction where
  | alloc (block : Nat)
  | read (block : Nat)
  | free (block : Nat)
  deriving DecidableEq

/-- `SUB_STORAGE`, which is a block itself and has its data in another one. -/
structure Node where
  block : Nat
  dataBlock : Nat
  data : List UInt8

/-- A call with what it does on the heap, and the bytes passed to `espconn_sent` if no error is raised. -/
structure TableCall where
  client : Client
  actions : List Action
  heap : List HeapAction
  sent : Option (List UInt8)

namespace Client

/-- The loop over the table; there is no list where one of the allocations fails. The blocks are numbered in
the order of their allocation. -/
def storeTable (alloc : Nat → Bool) (s : Client) (block : Nat) :
    List (List UInt8 × Nat) → Client × List Action × List HeapAction × Option (List Node)
  | [] => (s, [], [], some [])
  | (topic, qos) :: topics =>
    if !alloc block then (s, [], [], none)
    else
      let (s, written) := s.buildSubscribe topic qos
      let message := s.connection.message
      if !alloc (block + 1) then (s, written, [.alloc block], none)
      else
        let (s, written', heap, nodes) := storeTable alloc s (block + 2) topics
        (s, written ++ written', .alloc block :: .alloc (block + 1) :: heap,
          nodes.map (⟨block, block + 1, message⟩ :: ·))

/-- The loop over the list: the packets are put one behind the other and the nodes are freed. -/
def gather (c : Connection) (ptr : Nat) : List Node → Connection × Nat × List HeapAction
  | [] => (c, ptr, [])
  | node :: nodes =>
    if node.data.length = 0 then
      let (c, ptr, heap) := gather c ptr nodes
      (c, ptr, .read node.block :: heap)
    else if ptr + node.data.length < 1024 then
      let (c, ptr, heap) := gather (c.store ptr node.data) (ptr + node.data.length) nodes
      (c, ptr, .read node.block :: .read node.dataBlock :: .free node.dataBlock :: .free node.block ::
        .read node.block :: heap)
    else
      let (c, ptr, heap) := gather c ptr nodes
      (c, ptr, .read node.block :: .free node.dataBlock :: .free node.block :: .read node.block :: heap)

/-- `subscribeTable` with its blocks; `alloc` says which allocations succeed. The list starts with a node of
its own, block 0. -/
def subscribeTableOn (alloc : Nat → Bool) (s : Client) (topics : List (List UInt8 × Nat)) (callback : Bool) :
    TableCall :=
  if s.sendTimeout ≠ 0 then ⟨s, [.error "sending in process"], [], none⟩
  else if !s.connected then ⟨s, [.error "not connected"], [], none⟩
  else if !alloc 0 then ⟨s, [.error "not enough memory"], [], none⟩
  else
    let (s, written, heap, nodes) := s.storeTable alloc 1 topics
    match nodes with
    | none => ⟨s, written ++ [.error "not enough memory"], .alloc 0 :: heap, none⟩
    | some nodes =>
      let (c, ptr, gathered) := gather { s.connection with written := [] } 0 (⟨0, 0, []⟩ :: nodes)
      let written := written ++ [.wrote c.written s.inFlight]
      let heap := .alloc 0 :: heap ++ gathered ++ [.free 0]
      if ptr = 0 then ⟨{ s with connection := c }, written ++ [.error "invalid data"], heap, none⟩
      else
        let c := { c with data := 0, length := ptr }
        let (s, handed) := { s with connection := c }.subscribed callback
        ⟨s, written ++ handed, heap, some c.message⟩

end Client

/-! ### What a call should do -/

/-- The SUBSCRIBE packet for a topic. -/
def subscribePacket (id : Nat) (topic : List UInt8) (qos : Nat) : List UInt8 :=
  let body := word id ++ encodeString topic ++ [UInt8.ofNat qos]
  Connection.header .subscribe 0 1 0 :: (lengthBytes (if body.length < 128 then 0 else 1) body.length ++ body)

/-- A packet for every topic of a table in order, with an identifier of its own. -/
def IsPackets (topics : List (List UInt8 × Nat)) (sent : List UInt8) : Prop :=
  ∃ ids : List Nat, ids.length = topics.length ∧ ids.Nodup ∧
    sent = (ids.zip topics).flatMap fun packet => subscribePacket packet.1 (cstr packet.2.1) packet.2.2

/-- Every block is freed once. -/
def FreedOnce (heap : List HeapAction) : Prop :=
  ∀ block, .alloc block ∈ heap → heap.count (.free block) = 1

/-- No block is read after it was freed. -/
def NotReadFreed (heap : List HeapAction) : Prop :=
  ∀ block before after, heap = before ++ .free block :: after → .read block ∉ after

/-- Unless it raises an error the call sends all packets and handles its blocks properly. -/
def LosesNone (topics : List (List UInt8 × Nat)) (call : TableCall) : Prop :=
  ∀ sent, call.sent = some sent → IsPackets topics sent ∧ FreedOnce call.heap ∧ NotReadFreed call.heap

/-- The length of the packet for a topic. -/
def subscribeLength (topic : List UInt8 × Nat) : Nat := packetLength (5 + (cstr topic.1).length)

/-- The call raises an error: a packet is on its way, there is no connection, an allocation fails, or none of
the topics makes a packet that can be gathered. -/
def Raises (alloc : Nat → Bool) (s : Client) (topics : List (List UInt8 × Nat)) : Prop :=
  s.sendTimeout ≠ 0 ∨ s.connected = false ∨ (∃ block ≤ 2 * topics.length, alloc block = false) ∨
    s.connection.bufferLength = 0 ∨ ∀ topic ∈ topics, cstr topic.1 = [] ∨ 1015 < (cstr topic.1).length

/-! ### The list of nodes -/

variable {alloc : Nat → Bool} {s : Client} {c : Connection} {topics : List (List UInt8 × Nat)}

/-- The nodes for packets, with their blocks from a number on. -/
def nodesFrom (block : Nat) : List (List UInt8) → List Node
  | [] => []
  | message :: messages => ⟨block, block + 1, message⟩ :: nodesFrom (block + 2) messages

@[simp] theorem nodesFrom_data (block : Nat) (messages : List (List UInt8)) :
    (nodesFrom block messages).map Node.data = messages := by
  induction messages generalizing block with
  | nil => rfl
  | cons message messages ih => simp [nodesFrom, ih]

/-- The allocations of the nodes. -/
def allocations (nodes : List Node) : List HeapAction :=
  nodes.flatMap fun node => [.alloc node.block, .alloc node.dataBlock]

@[simp] theorem allocations_cons (node : Node) (nodes : List Node) :
    allocations (node :: nodes) = .alloc node.block :: .alloc node.dataBlock :: allocations nodes := rfl

/-- Where all allocations succeed the list has the packets of the table. -/
theorem storeTable_eq {block : Nat} (h : ∀ k < 2 * topics.length, alloc (block + k) = true) :
    s.storeTable alloc block topics = ((s.buildTable topics).1, (s.buildTable topics).2.1,
      allocations (nodesFrom block (s.buildTable topics).2.2), some (nodesFrom block (s.buildTable topics).2.2)) := by
  induction topics generalizing s block with
  | nil => rfl
  | cons topic topics ih =>
    rw [List.length_cons] at h
    have hnode := h 0 (by omega)
    have hdata := h 1 (by omega)
    have hrest := @ih (s.buildSubscribe topic.1 topic.2).1 (block + 2)
      fun k hk => by rw [Nat.add_assoc]; exact h (2 + k) (by omega)
    rw [Nat.add_zero] at hnode
    simp [storeTable, buildTable, nodesFrom, hnode, hdata, hrest]

/-- There is no list where an allocation fails. -/
theorem storeTable_none {block : Nat} (h : ∃ k < 2 * topics.length, alloc (block + k) = false) :
    (s.storeTable alloc block topics).2.2.2 = none := by
  induction topics generalizing s block with
  | nil => simp at h
  | cons topic topics ih =>
    obtain ⟨k, hk, hfails⟩ := h
    rw [List.length_cons] at hk
    by_cases hnode : alloc block = true
    · by_cases hdata : alloc (block + 1) = true
      · have hrest := @ih (s.buildSubscribe topic.1 topic.2).1 (block + 2) ?_
        · simp [storeTable, hnode, hdata, hrest]
        · rcases k with _ | _ | k
          · rw [Nat.add_zero, hnode] at hfails
            cases hfails
          · rw [Nat.zero_add, hdata] at hfails
            cases hfails
          · exact ⟨k, by omega, by rw [← hfails]; congr 1; omega⟩
      · simp [storeTable, hnode, hdata]
    · simp [storeTable, hnode]

/-! ### Gathering -/

theorem Connection.store_nil (c : Connection) (i : Nat) : c.store i [] = c := by
  cases c
  simp [Connection.store, Block.store]

/-- Skipping an empty packet makes no difference to what is gathered. -/
theorem gather_eq (c : Connection) (ptr : Nat) (nodes : List Node) :
    (gather c ptr nodes).1 = (copyBack c ptr (nodes.map Node.data)).1 ∧
      (gather c ptr nodes).2.1 = (copyBack c ptr (nodes.map Node.data)).2 := by
  induction nodes generalizing c ptr with
  | nil => exact ⟨rfl, rfl⟩
  | cons node nodes ih =>
    by_cases hempty : node.data.length = 0
    · have hnil : node.data = [] := List.length_eq_zero_iff.mp hempty
      simp only [gather, List.map_cons, copyBack, hnil, List.length_nil, if_true, Nat.add_zero, Connection.store_nil,
        ite_self]
      exact ih c ptr
    · by_cases hfits : ptr + node.data.length < 1024
      · simp only [gather, List.map_cons, copyBack, if_neg hempty, if_pos hfits]
        exact ih _ _
      · simp only [gather, List.map_cons, copyBack, if_neg hempty, if_neg hfits]
        exact ih _ _

theorem gather_first (c : Connection) (messages : List (List UInt8)) :
    (gather c 0 (⟨0, 0, []⟩ :: nodesFrom 1 messages)).1 = (copyBack c 0 messages).1 ∧
      (gather c 0 (⟨0, 0, []⟩ :: nodesFrom 1 messages)).2.1 = (copyBack c 0 messages).2 := by
  have heq := gather_eq c 0 (nodesFrom 1 messages)
  rw [nodesFrom_data] at heq
  exact heq

/-- The call behind its allocations: the packets of the table are gathered, and sent if there are any. -/
def sendTable (s : Client) (callback : Bool) (messages : List (List UInt8)) : TableCall :=
  let nodes := nodesFrom 1 messages
  let gathered := gather { s.connection with written := [] } 0 (⟨0, 0, []⟩ :: nodes)
  let heap := .alloc 0 :: allocations nodes ++ gathered.2.2 ++ [.free 0]
  let written := [.wrote gathered.1.written s.inFlight]
  if gathered.2.1 = 0 then ⟨{ s with connection := gathered.1 }, written ++ [.error "invalid data"], heap, none⟩
  else
    let c := { gathered.1 with data := 0, length := gathered.2.1 }
    ⟨({ s with connection := c }.subscribed callback).1, written ++ ({ s with connection := c }.subscribed callback).2,
      heap, some c.message⟩

theorem subscribeTableOn_send (htimeout : s.sendTimeout = 0) (hconnected : s.connected = true)
    (halloc : ∀ block ≤ 2 * topics.length, alloc block = true) (callback : Bool) :
    s.subscribeTableOn alloc topics callback =
      let call := sendTable (s.buildTable topics).1 callback (s.buildTable topics).2.2
      { call with actions := (s.buildTable topics).2.1 ++ call.actions } := by
  have hstored := @storeTable_eq alloc s topics 1 fun k hk => halloc (1 + k) (by omega)
  unfold subscribeTableOn sendTable
  rw [if_neg (by rw [htimeout]; simp), hconnected, halloc 0 (Nat.zero_le _), hstored]
  dsimp only
  simp only [Bool.not_true, Bool.false_eq_true, if_false]
  split_ifs
  · rw [List.append_assoc]
  · rw [List.append_assoc]

/-- Where all allocations succeed the call is the one without blocks. -/
theorem subscribeTableOn_eq (halloc : ∀ block, alloc block = true) (callback : Bool) :
    ((s.subscribeTableOn alloc topics callback).client, (s.subscribeTableOn alloc topics callback).actions) =
      s.subscribeTable topics callback := by
  by_cases htimeout : s.sendTimeout ≠ 0
  · unfold subscribeTableOn subscribeTable
    rw [if_pos htimeout, if_pos htimeout]
  · by_cases hconnected : s.connected = true
    · obtain ⟨hc, hptr⟩ := gather_first { (s.buildTable topics).1.connection with written := [] }
        (s.buildTable topics).2.2
      rw [subscribeTableOn_send (not_not.mp htimeout) hconnected (fun block _ => halloc block)]
      unfold subscribeTable sendTable
      rw [if_neg htimeout, hconnected]
      dsimp only
      rw [hc, hptr]
      simp only [Bool.not_true, Bool.false_eq_true, if_false]
      split_ifs
      · exact Prod.ext rfl (List.append_assoc _ _ _).symm
      · exact Prod.ext rfl (List.append_assoc _ _ _).symm
    · unfold subscribeTableOn subscribeTable
      rw [if_neg htimeout, if_neg htimeout, Bool.eq_false_of_not_eq_true hconnected]
      rfl

/-! ### What is gathered -/

/-- The packets that are not left out. -/
def kept (ptr : Nat) : List (List UInt8) → List (List UInt8)
  | [] => []
  | message :: messages =>
    if ptr + message.length < 1024 then message :: kept (ptr + message.length) messages else kept ptr messages

theorem kept_flatten_lt {ptr : Nat} (hptr : ptr < 1024) (messages : List (List UInt8)) :
    ptr + (kept ptr messages).flatten.length < 1024 := by
  induction messages generalizing ptr with
  | nil => exact hptr
  | cons message messages ih =>
    by_cases hfits : ptr + message.length < 1024
    · have hrest := ih hfits
      rw [kept, if_pos hfits, List.flatten_cons, List.length_append]
      omega
    · rw [kept, if_neg hfits]
      exact ih hptr

theorem kept_flatten_le (ptr : Nat) (messages : List (List UInt8)) :
    (kept ptr messages).flatten.length ≤ messages.flatten.length := by
  induction messages generalizing ptr with
  | nil => exact le_rfl
  | cons message messages ih =>
    rw [kept, List.flatten_cons, List.length_append]
    split_ifs
    · rw [List.flatten_cons, List.length_append]
      exact Nat.add_le_add_left (ih _) _
    · exact (ih _).trans (Nat.le_add_left _ _)

theorem kept_all {ptr : Nat} {messages : List (List UInt8)} (h : ptr + messages.flatten.length < 1024) :
    kept ptr messages = messages := by
  induction messages generalizing ptr with
  | nil => rfl
  | cons message messages ih =>
    rw [List.flatten_cons, List.length_append] at h
    rw [kept, if_pos (by omega), ih (by omega)]

/-- Nothing is gathered exactly if no packet fits on its own. -/
theorem kept_eq_nil_iff (messages : List (List UInt8)) :
    (kept 0 messages).flatten = [] ↔ ∀ message ∈ messages, message = [] ∨ 1024 ≤ message.length := by
  induction messages with
  | nil => simp [kept]
  | cons message messages ih =>
    rw [kept, List.forall_mem_cons, Nat.zero_add]
    by_cases hempty : message = []
    · rw [hempty, List.length_nil, if_pos (by decide), List.flatten_cons, List.nil_append, ih]
      simp
    · by_cases hfits : message.length < 1024
      · rw [if_pos hfits, List.flatten_cons, List.append_eq_nil_iff]
        exact iff_of_false (fun h => hempty h.1) fun h => h.1.elim hempty fun hle => by omega
      · rw [if_neg hfits, ih]
        exact ⟨fun h => ⟨.inr (Nat.le_of_not_lt hfits), h⟩, fun h => h.2⟩

/-- The packets that are kept lie one behind the other. -/
theorem copyBack_spec (c : Connection) {ptr : Nat} (hptr : ptr ≤ 1024) (messages : List (List UInt8)) :
    (copyBack c ptr messages).2 = ptr + (kept ptr messages).flatten.length ∧
      (copyBack c ptr messages).1.buffer.cells.take (copyBack c ptr messages).2 =
        c.buffer.cells.take ptr ++ (kept ptr messages).flatten := by
  induction messages generalizing c ptr with
  | nil => simp [copyBack, kept]
  | cons message messages ih =>
    by_cases hfits : ptr + message.length < 1024
    · obtain ⟨hend, hcells⟩ := ih (c.store ptr message) (le_of_lt hfits)
      have hstored := take_store_self c.buffer.cells ptr message (by rw [c.buffer.size_eq]; omega)
      rw [copyBack, kept, if_pos hfits, if_pos hfits, hcells, List.flatten_cons, ← List.append_assoc, ← hstored]
      refine ⟨?_, rfl⟩
      rw [hend, List.length_append, Nat.add_assoc]
    · rw [copyBack, kept, if_neg hfits, if_neg hfits]
      exact ih c hptr

/-! ### The packets of the topics -/

theorem length_subscribePacket (id : Nat) (topic : List UInt8) (qos : Nat) :
    (subscribePacket id topic qos).length = packetLength (5 + topic.length) := by
  have hbody : (word id ++ encodeString topic ++ [UInt8.ofNat qos]).length = 5 + topic.length := by
    simp only [List.length_append, length_word, length_encodeString, List.length_singleton]
    omega
  rw [subscribePacket, hbody, List.length_cons, List.length_append, length_lengthBytes, hbody, packetLength]
  split_ifs <;> omega

theorem packetLength_lt_iff (n : Nat) : packetLength (5 + n) < 1024 ↔ n ≤ 1015 := by
  unfold packetLength
  split_ifs <;> omega

namespace Connection

variable {topic : List UInt8}

/-- The packet of a topic that fits. -/
theorem mqttMsgSubscribe_packet (hbuffer : c.bufferLength = 1024) (htopic : topic ≠ [])
    (hfits : topic.length + 8 ≤ 1024) (qos messageId : Nat) :
    (c.mqttMsgSubscribe topic qos messageId).1.message = subscribePacket (nextId c.messageId) topic qos := by
  obtain ⟨built, hbuilt, hmessage⟩ := mqttMsgSubscribe_built hbuffer htopic hfits qos messageId
  rw [hmessage, hbuilt.message_finiMessage]
  rfl

theorem Built.appendData {body : List UInt8} (h : Built 1024 c body) (data : List UInt8) :
    Builds 1024 (body ++ data) (c.appendData data) := by
  have hlength := h.length_eq
  have hbuffer := h.bufferLength_eq
  by_cases hroom : 3 + body.length + data.length ≤ 1024
  · obtain ⟨c', hok, hbuilt⟩ := h.appendData_ok le_rfl data hroom
    rw [hok]
    exact hbuilt
  · have hfull : c.appendData data = .error c := if_pos (by omega)
    rw [hfull, builds_error, List.length_append]
    omega

/-- A topic that is too long makes no packet. -/
theorem mqttMsgSubscribe_failed (hbuffer : c.bufferLength = 1024) (hfull : 1024 < topic.length + 8)
    (qos messageId : Nat) : (c.mqttMsgSubscribe topic qos messageId).1.message = [] := by
  have htopic : topic ≠ [] := by
    rintro rfl
    exact absurd hfull (by decide)
  have hempty : Built 1024 c.initMessage [] := hbuffer ▸ built_initMessage (by omega)
  obtain ⟨identified, hid, hidentified⟩ := hempty.appendMessageId_ok le_rfl (by decide)
  rw [List.nil_append] at hidentified
  have hbuilds : Builds 1024 (word (nextId c.initMessage.messageId) ++ encodeString topic ++ [UInt8.ofNat qos])
      (identified.appendString topic >>= fun c => c.appendData [UInt8.ofNat qos]) := by
    refine (hidentified.appendString le_rfl topic).bind ?_ fun named hnamed => hnamed.appendData _
    simp only [List.length_append]
    omega
  have hlength := (hbuilds.fini .subscribe 0 1 0).mpr (by
    simp only [List.length_append, length_word, length_encodeString, List.length_singleton]
    omega)
  have hbuilt : (c.mqttMsgSubscribe topic qos messageId).1 = fini .subscribe 0 1 0
      (identified.appendString topic >>= fun c => c.appendData [UInt8.ofNat qos]) := by
    unfold mqttMsgSubscribe
    simp only [if_neg htopic, hid]
  rw [hbuilt, message, hlength, List.take_zero]

/-- A connection that has assigned this identifier last, whether its message was given up or not. -/
def HasId (id : Nat) : Except Connection Connection → Prop
  | .ok c | .error c => c.messageId = id

theorem HasId.bind {id : Nat} {result : Except Connection Connection} {f : Connection → Except Connection Connection}
    (h : HasId id result) (hf : ∀ c, c.messageId = id → HasId id (f c)) : HasId id (result >>= f) := by
  cases result with
  | ok c => exact hf c h
  | error c => exact h

theorem HasId.fini {id : Nat} {result : Except Connection Connection} (h : HasId id result) :
    (Connection.fini .subscribe 0 1 0 result).messageId = id := by
  cases result with
  | ok c =>
    rw [Connection.fini, finiMessage]
    dsimp only
    split_ifs
    · exact h
    · exact h
  | error c => exact h

/-- A topic takes an identifier, also where the packet is given up. -/
theorem mqttMsgSubscribe_messageId (htopic : topic ≠ []) (hbuffer : c.bufferLength = 1024) (qos messageId : Nat) :
    (c.mqttMsgSubscribe topic qos messageId).1.messageId = nextId c.messageId := by
  have hstring : ∀ c' : Connection, HasId c'.messageId (c'.appendString topic) := by
    intro c'
    unfold Connection.appendString
    split_ifs <;> exact rfl
  have hdata : ∀ c' : Connection, HasId c'.messageId (c'.appendData [UInt8.ofNat qos]) := by
    intro c'
    unfold Connection.appendData
    split_ifs <;> exact rfl
  unfold mqttMsgSubscribe
  rw [if_neg htopic]
  simp only [appendMessageId, assignId, if_true, initMessage, hbuffer]
  exact HasId.fini ((hstring _).bind fun c' hc => hc ▸ hdata c')

end Connection

/-- What a topic leaves in `out_buffer`. -/
theorem message_buildSubscribe (hbuffer : s.connection.bufferLength = 1024) (topic : List UInt8) (qos : Nat) :
    (s.buildSubscribe topic qos).1.connection.message =
      if cstr topic ≠ [] ∧ (cstr topic).length + 8 ≤ 1024 then
        subscribePacket (Connection.nextId s.connection.messageId) (cstr topic) (qos % 256)
      else [] := by
  by_cases htopic : cstr topic = []
  · rw [message_of_failed topic qos fun h => h.1 htopic, if_neg fun h => h.1 htopic]
  · by_cases hfits : (cstr topic).length + 8 ≤ 1024
    · rw [if_pos ⟨htopic, hfits⟩]
      exact Connection.mqttMsgSubscribe_packet hbuffer htopic hfits _ _
    · rw [if_neg fun h => hfits h.2]
      exact Connection.mqttMsgSubscribe_failed hbuffer (Nat.lt_of_not_le hfits) _ _

theorem subscribePacket_mod (id : Nat) (topic : List UInt8) (qos : Nat) :
    subscribePacket id topic (qos % 256) = subscribePacket id topic qos := by
  have hbyte : UInt8.ofNat (qos % 256) = UInt8.ofNat qos := UInt8.toNat_inj.mp (by simp)
  rw [subscribePacket, subscribePacket, hbyte]

/-- What the packet of a topic adds to those before it. -/
def builtLength (topic : List UInt8 × Nat) : Nat :=
  if cstr topic.1 ≠ [] ∧ (cstr topic.1).length + 8 ≤ 1024 then subscribeLength topic else 0

theorem length_buildSubscribe (hbuffer : s.connection.bufferLength = 1024) (topic : List UInt8 × Nat) :
    (s.buildSubscribe topic.1 topic.2).1.connection.message.length = builtLength topic := by
  rw [message_buildSubscribe hbuffer, builtLength]
  split_ifs
  · exact length_subscribePacket _ _ _
  · rfl

theorem length_buildTable (hbuffer : s.connection.bufferLength = 1024) (topics : List (List UInt8 × Nat)) :
    (s.buildTable topics).2.2.flatten.length = (topics.map builtLength).sum := by
  induction topics generalizing s with
  | nil => rfl
  | cons topic topics ih =>
    have hsame := buildSubscribe_same s topic.1 topic.2
    rw [buildTable, List.flatten_cons, List.length_append, length_buildSubscribe hbuffer,
      ih (hsame.bufferLength.trans hbuffer), List.map_cons, List.sum_cons]

/-- The packet of a topic can be gathered exactly if the topic is there and not too long. -/
theorem gathers_iff (hbuffer : s.connection.bufferLength = 1024) (topic : List UInt8 × Nat) :
    (s.buildSubscribe topic.1 topic.2).1.connection.message = [] ∨
        1024 ≤ (s.buildSubscribe topic.1 topic.2).1.connection.message.length ↔
      cstr topic.1 = [] ∨ 1015 < (cstr topic.1).length := by
  have hpos := packetLength_pos (5 + (cstr topic.1).length)
  have hlt := packetLength_lt_iff (cstr topic.1).length
  rw [← List.length_eq_zero_iff, length_buildSubscribe hbuffer, builtLength]
  by_cases htopic : cstr topic.1 = []
  · rw [if_neg fun h => h.1 htopic]
    exact iff_of_true (.inl rfl) (.inl htopic)
  · by_cases hfits : (cstr topic.1).length + 8 ≤ 1024
    · rw [if_pos ⟨htopic, hfits⟩, subscribeLength]
      simp only [htopic, false_or]
      omega
    · rw [if_neg fun h => hfits h.2]
      exact iff_of_true (.inl rfl) (.inr (by omega))

theorem buildTable_gathers_iff (hbuffer : s.connection.bufferLength = 1024) (topics : List (List UInt8 × Nat)) :
    (∀ message ∈ (s.buildTable topics).2.2, message = [] ∨ 1024 ≤ message.length) ↔
      ∀ topic ∈ topics, cstr topic.1 = [] ∨ 1015 < (cstr topic.1).length := by
  induction topics generalizing s with
  | nil => exact iff_of_true (List.forall_mem_nil _) (List.forall_mem_nil _)
  | cons topic topics ih =>
    have hsame := buildSubscribe_same s topic.1 topic.2
    rw [buildTable, List.forall_mem_cons, List.forall_mem_cons, gathers_iff hbuffer,
      ih (hsame.bufferLength.trans hbuffer)]

/-- The packets of topics that all fit, with consecutive identifiers. -/
theorem buildTable_packets (hbuffer : s.connection.bufferLength = 1024)
    (htopics : ∀ topic ∈ topics, cstr topic.1 ≠ [] ∧ (cstr topic.1).length + 8 ≤ 1024) :
    (s.buildTable topics).2.2.flatten =
      ((List.iterate Connection.nextId (Connection.nextId s.connection.messageId) topics.length).zip topics).flatMap
        fun packet => subscribePacket packet.1 (cstr packet.2.1) packet.2.2 := by
  induction topics generalizing s with
  | nil => rfl
  | cons topic topics ih =>
    obtain ⟨hfirst, hrest⟩ := List.forall_mem_cons.mp htopics
    have hsame := buildSubscribe_same s topic.1 topic.2
    have hid : (s.buildSubscribe topic.1 topic.2).1.connection.messageId = Connection.nextId s.connection.messageId :=
      Connection.mqttMsgSubscribe_messageId hfirst.1 hbuffer _ _
    rw [buildTable, List.flatten_cons, message_buildSubscribe hbuffer, if_pos hfirst, subscribePacket_mod,
      ih (hsame.bufferLength.trans hbuffer) hrest, hid]
    rfl

/-! ### Identifiers -/

theorem nextId_eq {id : Nat} (hpos : 1 ≤ id) (hlt : id < 65536) : Connection.nextId id = id % 65535 + 1 := by
  unfold Connection.nextId
  split_ifs <;> omega

theorem nextId_iterate {id : Nat} (hpos : 1 ≤ id) (hlt : id < 65536) (k : Nat) :
    Connection.nextId^[k] id = (id - 1 + k) % 65535 + 1 := by
  induction k with
  | zero =>
    rw [Function.iterate_zero_apply]
    omega
  | succ k ih =>
    rw [Function.iterate_succ_apply', ih, nextId_eq (by omega) (by omega)]
    omega

/-- Fewer than 65536 identifiers are different. -/
theorem nodup_ids (messageId : Nat) {n : Nat} (hn : n ≤ 65535) :
    (List.iterate Connection.nextId (Connection.nextId messageId) n).Nodup := by
  rw [← List.range_map_iterate]
  apply List.Nodup.map_on ?_ List.nodup_range
  intro j hj k hk heq
  have hpos := Connection.nextId_pos messageId
  have hlt := Connection.nextId_lt messageId
  rw [List.mem_range] at hj hk
  rw [nextId_iterate hpos hlt, nextId_iterate hpos hlt] at heq
  omega

/-! ### Blocks -/

theorem alloc_mem_iff (first block : Nat) (messages : List (List UInt8)) :
    .alloc block ∈ allocations (nodesFrom first messages) ↔ first ≤ block ∧ block < first + 2 * messages.length := by
  induction messages generalizing first with
  | nil =>
    simp only [nodesFrom, allocations, List.flatMap_nil, List.not_mem_nil, List.length_nil, false_iff]
    omega
  | cons message messages ih =>
    simp only [nodesFrom, allocations_cons, List.mem_cons, HeapAction.alloc.injEq, ih, List.length_cons]
    omega

theorem free_not_mem_allocations (block : Nat) (nodes : List Node) : .free block ∉ allocations nodes := by
  simp [allocations]

theorem alloc_not_mem_gather (block : Nat) (c : Connection) (ptr : Nat) (nodes : List Node) :
    .alloc block ∉ (gather c ptr nodes).2.2 := by
  induction nodes generalizing c ptr with
  | nil => exact List.not_mem_nil
  | cons node nodes ih =>
    rw [gather]
    split_ifs <;> simp [ih]

theorem count_free_cons (c : Connection) (ptr block : Nat) (node : Node) (nodes : List Node) :
    ∃ c' ptr', (gather c ptr (node :: nodes)).2.2.count (.free block) =
      (gather c' ptr' nodes).2.2.count (.free block) +
        if node.data = [] then 0 else [node.dataBlock, node.block].count block := by
  by_cases hempty : node.data.length = 0
  · refine ⟨c, ptr, ?_⟩
    rw [gather, if_pos hempty, if_pos (List.length_eq_zero_iff.mp hempty)]
    simp
  · have hne : node.data ≠ [] := fun hnil => hempty (by rw [hnil]; rfl)
    by_cases hfits : ptr + node.data.length < 1024
    · refine ⟨c.store ptr node.data, ptr + node.data.length, ?_⟩
      rw [gather, if_neg hempty, if_pos hfits, if_neg hne]
      simp [List.count_cons]
      exact Nat.add_assoc _ _ _
    · refine ⟨c, ptr, ?_⟩
      rw [gather, if_neg hempty, if_neg hfits, if_neg hne]
      simp [List.count_cons]
      exact Nat.add_assoc _ _ _

/-- The loop over the list frees the two blocks of a node once, and not at all if its packet is empty. -/
theorem count_free_gather (c : Connection) (ptr first block : Nat) (messages : List (List UInt8)) :
    (gather c ptr (nodesFrom first messages)).2.2.count (.free block) =
      if first ≤ block ∧ messages.getD ((block - first) / 2) [] ≠ [] then 1 else 0 := by
  induction messages generalizing c ptr first with
  | nil => simp [nodesFrom, gather]
  | cons message messages ih =>
    obtain ⟨c', ptr', hcount⟩ := count_free_cons c ptr block ⟨first, first + 1, message⟩ (nodesFrom (first + 2) messages)
    rw [nodesFrom, hcount, ih]
    dsimp only
    by_cases hle : first + 2 ≤ block
    · -- a block of a later node
      have hindex : (block - first) / 2 = (block - (first + 2)) / 2 + 1 := by omega
      have hother : [first + 1, first].count block = 0 := by
        rw [List.count_eq_zero]
        simp only [List.mem_cons, List.not_mem_nil, or_false]
        omega
      rw [hindex, List.getD_cons_succ, hother, ite_self, Nat.add_zero]
      simp [hle, show first ≤ block by omega]
    · rw [if_neg fun h => hle h.1, Nat.zero_add]
      by_cases hfirst : first ≤ block
      · have hindex : (block - first) / 2 = 0 := by omega
        have hown : [first + 1, first].count block = 1 := by
          rcases (show block = first ∨ block = first + 1 by omega) with rfl | rfl
          · simp
          · simp
        rw [hindex, List.getD_cons_zero, hown]
        by_cases hnil : message = []
        · rw [if_pos hnil, if_neg fun h => h.2 hnil]
        · rw [if_neg hnil, if_pos ⟨hfirst, hnil⟩]
      · have hother : [first + 1, first].count block = 0 := by
          rw [List.count_eq_zero]
          simp only [List.mem_cons, List.not_mem_nil, or_false]
          omega
        rw [hother, ite_self, if_neg fun h => hfirst h.1]

/-- A node with a packet is read after it was freed. -/
theorem gather_reads_freed (c : Connection) (ptr : Nat) {nodes : List Node} (h : ∃ node ∈ nodes, node.data ≠ []) :
    ∃ block before after, (gather c ptr nodes).2.2 = before ++ .free block :: .read block :: after := by
  induction nodes generalizing c ptr with
  | nil => simp at h
  | cons node nodes ih =>
    by_cases hempty : node.data.length = 0
    · have hnil : node.data = [] := List.length_eq_zero_iff.mp hempty
      obtain ⟨other, hmem, hne⟩ := h
      rcases List.mem_cons.mp hmem with rfl | hmem
      · exact absurd hnil hne
      · obtain ⟨block, before, after, heq⟩ := ih c ptr ⟨other, hmem, hne⟩
        refine ⟨block, .read node.block :: before, after, ?_⟩
        rw [gather, if_pos hempty]
        dsimp only
        rw [heq, List.cons_append]
    · rw [gather, if_neg hempty]
      split_ifs
      · exact ⟨node.block, [.read node.block, .read node.dataBlock, .free node.dataBlock], _, rfl⟩
      · exact ⟨node.block, [.read node.block, .free node.dataBlock], _, rfl⟩

/-! ### What a call does -/

theorem sendTable_heap (s : Client) (callback : Bool) (messages : List (List UInt8)) :
    ∃ c, (sendTable s callback messages).heap = .alloc 0 :: allocations (nodesFrom 1 messages) ++
      (.read 0 :: (gather c 0 (nodesFrom 1 messages)).2.2) ++ [.free 0] := by
  refine ⟨{ s.connection with written := [] }, ?_⟩
  unfold sendTable
  dsimp only
  split_ifs
  · rfl
  · rfl

/-- What is sent are the packets that are kept, if there are any. -/
theorem sendTable_sent (s : Client) (callback : Bool) (messages : List (List UInt8)) :
    (sendTable s callback messages).sent =
      if (kept 0 messages).flatten = [] then none else some (kept 0 messages).flatten := by
  obtain ⟨hc, hptr⟩ := gather_first { s.connection with written := [] } messages
  obtain ⟨hend, hcells⟩ := copyBack_spec { s.connection with written := [] } (Nat.zero_le 1024) messages
  rw [List.take_zero, List.nil_append, ← hc, ← hptr] at hcells
  rw [Nat.zero_add, ← hptr] at hend
  have hzero : (gather { s.connection with written := [] } 0 (⟨0, 0, []⟩ :: nodesFrom 1 messages)).2.1 = 0 ↔
      (kept 0 messages).flatten = [] := by
    rw [hend]
    exact List.length_eq_zero_iff
  unfold sendTable
  by_cases hnil : (kept 0 messages).flatten = []
  · rw [if_pos hnil]
    dsimp only
    rw [if_pos (hzero.mpr hnil)]
  · rw [if_neg hnil]
    dsimp only
    rw [if_neg fun h => hnil (hzero.mp h)]
    exact congrArg some hcells

/-- All blocks are freed once exactly if there is no empty packet. -/
theorem sendTable_freedOnce_iff (s : Client) (callback : Bool) (messages : List (List UInt8)) :
    FreedOnce (sendTable s callback messages).heap ↔ ∀ message ∈ messages, message ≠ [] := by
  obtain ⟨c, hheap⟩ := sendTable_heap s callback messages
  have hcount : ∀ block, (sendTable s callback messages).heap.count (.free block) =
      (if 1 ≤ block ∧ messages.getD ((block - 1) / 2) [] ≠ [] then 1 else 0) + if block = 0 then 1 else 0 := by
    intro block
    have hallocations := List.count_eq_zero.mpr (free_not_mem_allocations block (nodesFrom 1 messages))
    rw [hheap, List.count_append, List.count_append, List.count_cons, hallocations, List.count_cons,
      count_free_gather]
    by_cases hzero : block = 0
    · simp [hzero]
    · simp [hzero, Ne.symm hzero]
  have hmem : ∀ block, .alloc block ∈ (sendTable s callback messages).heap ↔ block < 1 + 2 * messages.length := by
    intro block
    have hgather := alloc_not_mem_gather block c 0 (nodesFrom 1 messages)
    rw [hheap]
    simp only [List.mem_append, List.mem_cons, alloc_mem_iff, hgather, HeapAction.alloc.injEq, reduceCtorEq,
      List.not_mem_nil, or_false]
    omega
  constructor
  · intro hfreed message hmessage hnil
    obtain ⟨i, hi, rfl⟩ := List.mem_iff_getElem.mp hmessage
    have honce := hfreed (1 + 2 * i) ((hmem _).mpr (by omega))
    have hindex : (1 + 2 * i - 1) / 2 = i := by omega
    rw [hcount, hindex, List.getD_eq_getElem _ _ hi, hnil, if_neg fun h => h.2 rfl, if_neg (by omega)] at honce
    cases honce
  · intro hall block hblock
    have hlt := (hmem block).mp hblock
    rw [hcount]
    by_cases hzero : block = 0
    · rw [hzero, if_neg fun h => absurd h.1 (by decide), if_pos rfl]
    · have hi : (block - 1) / 2 < messages.length := by omega
      rw [List.getD_eq_getElem _ _ hi, if_pos ⟨by omega, hall _ (List.getElem_mem hi)⟩, if_neg hzero]

/-- Where a packet is gathered its node is read after it was freed. -/
theorem sendTable_reads_freed (s : Client) (callback : Bool) {messages : List (List UInt8)}
    (h : ∃ message ∈ messages, message ≠ []) : ¬ NotReadFreed (sendTable s callback messages).heap := by
  obtain ⟨c, hheap⟩ := sendTable_heap s callback messages
  obtain ⟨message, hmem, hne⟩ := h
  have hnode : ∃ node ∈ nodesFrom 1 messages, node.data ≠ [] := by
    rw [← nodesFrom_data 1 messages] at hmem
    obtain ⟨node, hnode, rfl⟩ := List.mem_map.mp hmem
    exact ⟨node, hnode, hne⟩
  obtain ⟨block, before, after, hgather⟩ := gather_reads_freed c 0 hnode
  intro hnot
  refine hnot block (.alloc 0 :: allocations (nodesFrom 1 messages) ++ .read 0 :: before)
    (.read block :: after ++ [.free 0]) ?_ (List.mem_append_left _ List.mem_cons_self)
  rw [hheap, hgather]
  simp

theorem kept_nil_of_empty {messages : List (List UInt8)} (h : ∀ message ∈ messages, message = []) :
    (kept 0 messages).flatten = [] := (kept_eq_nil_iff messages).mpr fun message hmem => .inl (h message hmem)

/-- Without a buffer, or without a packet that fits, there is nothing to send. -/
theorem kept_buildTable_iff (hbuffer : s.connection.bufferLength = 1024 ∨ s.connection.bufferLength = 0)
    (topics : List (List UInt8 × Nat)) :
    (kept 0 (s.buildTable topics).2.2).flatten = [] ↔
      s.connection.bufferLength = 0 ∨ ∀ topic ∈ topics, cstr topic.1 = [] ∨ 1015 < (cstr topic.1).length := by
  rcases hbuffer with hbuffer | hbuffer
  · rw [kept_eq_nil_iff, buildTable_gathers_iff hbuffer, hbuffer]
    simp
  · refine iff_of_true (kept_nil_of_empty (buildTable_messages topics fun h => ?_)) (.inl hbuffer)
    rw [hbuffer] at h
    exact absurd h.2 (by decide)

/-- No list is built where an allocation fails. -/
theorem subscribeTableOn_alloc (h : ∃ block ≤ 2 * topics.length, alloc block = false) (callback : Bool) :
    (s.subscribeTableOn alloc topics callback).sent = none := by
  unfold subscribeTableOn
  split_ifs with htimeout hconnected hfirst
  · rfl
  · rfl
  · rfl
  · obtain ⟨block, hle, hfails⟩ := h
    have hnone := @storeTable_none alloc s topics 1 (by
      rcases block with _ | k
      · rw [hfails] at hfirst
        exact absurd rfl hfirst
      · exact ⟨k, by omega, by rw [Nat.add_comm]; exact hfails⟩)
    dsimp only
    rw [hnone]

/-- A call raises an error, or it sends the packets that are kept. -/
theorem subscribeTableOn_cases (hbuffer : s.connection.bufferLength = 1024 ∨ s.connection.bufferLength = 0)
    (alloc : Nat → Bool) (topics : List (List UInt8 × Nat)) (callback : Bool) :
    (Raises alloc s topics ∧ (s.subscribeTableOn alloc topics callback).sent = none) ∨
      (¬ Raises alloc s topics ∧ s.connection.bufferLength = 1024 ∧
        (s.subscribeTableOn alloc topics callback).heap =
          (sendTable (s.buildTable topics).1 callback (s.buildTable topics).2.2).heap ∧
        (s.subscribeTableOn alloc topics callback).sent = some (kept 0 (s.buildTable topics).2.2).flatten ∧
        (kept 0 (s.buildTable topics).2.2).flatten ≠ []) := by
  by_cases htimeout : s.sendTimeout = 0
  · by_cases hconnected : s.connected = true
    · by_cases halloc : ∀ block ≤ 2 * topics.length, alloc block = true
      · have hsent := sendTable_sent (s.buildTable topics).1 callback (s.buildTable topics).2.2
        have hraises : Raises alloc s topics ↔ (kept 0 (s.buildTable topics).2.2).flatten = [] := by
          have hnone : ¬ ∃ block ≤ 2 * topics.length, alloc block = false := by
            rintro ⟨block, hle, hfails⟩
            rw [halloc block hle] at hfails
            cases hfails
          rw [kept_buildTable_iff hbuffer, Raises]
          simp only [htimeout, hconnected, hnone, ne_eq, not_true, Bool.true_eq_false, false_or]
        rw [subscribeTableOn_send htimeout hconnected halloc]
        by_cases hnil : (kept 0 (s.buildTable topics).2.2).flatten = []
        · rw [if_pos hnil] at hsent
          exact .inl ⟨hraises.mpr hnil, hsent⟩
        · rw [if_neg hnil] at hsent
          have hbuffer' : s.connection.bufferLength = 1024 := by
            rcases hbuffer with hfull | hzero
            · exact hfull
            · exact absurd ((kept_buildTable_iff (.inr hzero) topics).mpr (.inl hzero)) hnil
          exact .inr ⟨fun h => hnil (hraises.mp h), hbuffer', rfl, hsent, hnil⟩
      · have hfails : ∃ block ≤ 2 * topics.length, alloc block = false := by
          simpa using halloc
        exact .inl ⟨.inr (.inr (.inl hfails)), subscribeTableOn_alloc hfails callback⟩
    · left
      refine ⟨.inr (.inl (Bool.eq_false_of_not_eq_true hconnected)), ?_⟩
      unfold subscribeTableOn
      rw [if_neg (by rw [htimeout]; simp), Bool.eq_false_of_not_eq_true hconnected]
      rfl
  · left
    refine ⟨.inl htimeout, ?_⟩
    unfold subscribeTableOn
    rw [if_pos htimeout]

/-! ### The packets that are sent -/

theorem length_isPackets {sent : List UInt8} (h : IsPackets topics sent) :
    sent.length = (topics.map subscribeLength).sum := by
  obtain ⟨ids, hids, -, rfl⟩ := h
  induction topics generalizing ids with
  | nil =>
    rw [List.zip_nil_right]
    rfl
  | cons topic topics ih =>
    obtain ⟨id, ids, rfl⟩ := List.exists_cons_of_length_eq_add_one hids
    rw [List.zip_cons_cons, List.flatMap_cons, List.length_append, length_subscribePacket,
      ih ids (Nat.succ.inj hids), List.map_cons, List.sum_cons, subscribeLength]

theorem builtLength_le (topic : List UInt8 × Nat) : builtLength topic ≤ subscribeLength topic := by
  unfold builtLength
  split_ifs
  · exact le_rfl
  · exact Nat.zero_le _

theorem subscribeLength_pos (topic : List UInt8 × Nat) : 0 < subscribeLength topic := packetLength_pos _

/-- All packets are sent exactly if no topic is empty and all of them fit together. -/
theorem isPackets_kept_iff (hbuffer : s.connection.bufferLength = 1024) (topics : List (List UInt8 × Nat)) :
    IsPackets topics (kept 0 (s.buildTable topics).2.2).flatten ↔
      (∀ topic ∈ topics, cstr topic.1 ≠ []) ∧ (topics.map subscribeLength).sum < 1024 := by
  have hbuilt := length_buildTable hbuffer topics
  constructor
  · intro h
    have hlength := length_isPackets h
    have hlt := kept_flatten_lt (show 0 < 1024 by decide) (s.buildTable topics).2.2
    have hle := kept_flatten_le 0 (s.buildTable topics).2.2
    refine ⟨fun topic hmem hnil => ?_, by omega⟩
    have hless := List.sum_lt_sum (l := topics) builtLength subscribeLength (fun topic _ => builtLength_le topic)
      ⟨topic, hmem, by rw [builtLength, if_neg fun h => h.1 hnil]; exact subscribeLength_pos topic⟩
    omega
  · rintro ⟨hne, hsum⟩
    have hfits : ∀ topic ∈ topics, cstr topic.1 ≠ [] ∧ (cstr topic.1).length + 8 ≤ 1024 := by
      intro topic hmem
      have hle := List.le_sum_of_mem (List.mem_map_of_mem (f := subscribeLength) hmem)
      have hshort := (packetLength_lt_iff (cstr topic.1).length).mp (Nat.lt_of_le_of_lt hle hsum)
      exact ⟨hne topic hmem, by omega⟩
    have hbuiltsum := List.sum_le_sum fun topic (_ : topic ∈ topics) => builtLength_le topic
    have hcount : topics.length ≤ (topics.map subscribeLength).sum := by
      have h := List.length_le_sum_of_one_le (topics.map subscribeLength) fun n hn => by
        obtain ⟨topic, -, rfl⟩ := List.mem_map.mp hn
        exact subscribeLength_pos topic
      rwa [List.length_map] at h
    rw [kept_all (by rw [hbuilt]; omega), buildTable_packets hbuffer hfits]
    exact ⟨_, List.length_iterate _ _ _, nodup_ids _ (by omega), rfl⟩

theorem buildTable_ne_iff (hbuffer : s.connection.bufferLength = 1024) (topics : List (List UInt8 × Nat)) :
    (∀ message ∈ (s.buildTable topics).2.2, message ≠ []) ↔
      ∀ topic ∈ topics, cstr topic.1 ≠ [] ∧ (cstr topic.1).length ≤ 1016 := by
  induction topics generalizing s with
  | nil => exact iff_of_true (List.forall_mem_nil _) (List.forall_mem_nil _)
  | cons topic topics ih =>
    have hsame := buildSubscribe_same s topic.1 topic.2
    have hpos := subscribeLength_pos topic
    rw [buildTable, List.forall_mem_cons, List.forall_mem_cons, ih (hsame.bufferLength.trans hbuffer)]
    refine and_congr_left fun _ => ?_
    rw [← List.length_pos_iff, length_buildSubscribe hbuffer, builtLength]
    split_ifs with hfits
    · exact iff_of_true hpos ⟨hfits.1, by omega⟩
    · exact iff_of_false (Nat.lt_irrefl 0) fun h => hfits ⟨h.1, by omega⟩

/-- A call that sends reads a node that it has freed. -/
theorem subscribeTableOn_reads_freed (hbuffer : s.connection.bufferLength = 1024 ∨ s.connection.bufferLength = 0)
    (hraises : ¬ Raises alloc s topics) (callback : Bool) :
    ¬ NotReadFreed (s.subscribeTableOn alloc topics callback).heap := by
  rcases subscribeTableOn_cases hbuffer alloc topics callback with ⟨h, -⟩ | ⟨-, -, hheap, -, hne⟩
  · exact absurd h hraises
  · rw [hheap]
    apply sendTable_reads_freed
    by_contra hall
    exact hne (kept_nil_of_empty fun message hmem => by_contra fun hmessage => hall ⟨message, hmem, hmessage⟩)

/-- For every table of topics and QoS values, and whichever allocations succeed: the call does all that is
asked of it exactly if it raises an error. A call that sends has sent a packet for every topic exactly if no
topic is empty and all the packets are shorter than the buffer together; it has freed every block exactly
once exactly if every topic made a packet; and it has read a block that was freed in any case. -/
theorem subscribeTable_losesNone_iff (alloc : Nat → Bool) (s : Client) (topics : List (List UInt8 × Nat))
    (callback : Bool) (hbuffer : s.connection.bufferLength = 1024 ∨ s.connection.bufferLength = 0) :
    (LosesNone topics (s.subscribeTableOn alloc topics callback) ↔ Raises alloc s topics) ∧
      ∀ sent, (s.subscribeTableOn alloc topics callback).sent = some sent →
        (IsPackets topics sent ↔
          (∀ topic ∈ topics, cstr topic.1 ≠ []) ∧ (topics.map subscribeLength).sum < 1024) ∧
        (FreedOnce (s.subscribeTableOn alloc topics callback).heap ↔
          ∀ topic ∈ topics, cstr topic.1 ≠ [] ∧ (cstr topic.1).length ≤ 1016) ∧
        ¬ NotReadFreed (s.subscribeTableOn alloc topics callback).heap := by
  rcases subscribeTableOn_cases hbuffer alloc topics callback with
    ⟨hraises, hnone⟩ | ⟨hraises, hfull, hheap, hsent, hne⟩
  · refine ⟨iff_of_true (fun sent hsent => ?_) hraises, fun sent hsent => ?_⟩
    · rw [hnone] at hsent
      cases hsent
    · rw [hnone] at hsent
      cases hsent
  · have hread := subscribeTableOn_reads_freed hbuffer hraises callback
    refine ⟨iff_of_false (fun h => hread (h _ hsent).2.2) hraises, fun sent h => ?_⟩
    rw [hsent, Option.some.injEq] at h
    rw [← h]
    refine ⟨isPackets_kept_iff hfull topics, ?_, hread⟩
    rw [hheap, sendTable_freedOnce_iff, buildTable_ne_iff hfull]

/-- A client that is connected and has its output buffer. -/
def subscriber : Client :=
  { Client.new ⟨[99], [], [], [], [], 60, 0, false, true⟩ true with connection := Connection.fresh }

/-- Two topics, with memory for everything but the data of the second packet. -/
theorem subscribeTable_losesNone_iff_two :
    subscriber.connection.bufferLength = 1024 ∧
      (LosesNone [([97], 0), ([98], 1)] (subscriber.subscribeTableOn (· ≠ 4) [([97], 0), ([98], 1)] false) ↔
        Raises (· ≠ 4) subscriber [([97], 0), ([98], 1)]) :=
  ⟨rfl, (subscribeTable_losesNone_iff (· ≠ 4) subscriber [([97], 0), ([98], 1)] false (.inl rfl)).1⟩

/-- A table with the one topic "a" is subscribed to, and its node is read after it was freed. -/
theorem subscribed_reads_freed :
    ¬ ∀ (alloc : Nat → Bool) (s : Client) (topics : List (List UInt8 × Nat)) (callback : Bool),
      s.connection.bufferLength = 1024 → LosesNone topics (s.subscribeTableOn alloc topics callback) := by
  intro hall
  have hbuffer : subscriber.connection.bufferLength = 1024 := rfl
  have hloses := hall (fun _ => true) subscriber [([97], 0)] false hbuffer
  have hraises : ¬ Raises (fun _ => true) subscriber [([97], 0)] := by
    have htimeout : subscriber.sendTimeout = 0 := rfl
    have hconnected : subscriber.connected = true := rfl
    have htopic : cstr [97] = [97] := rfl
    simp [Raises, hbuffer, htimeout, hconnected, htopic]
  rcases subscribeTableOn_cases (.inl hbuffer) (fun _ => true) [([97], 0)] false with ⟨h, -⟩ | ⟨-, -, -, hsent, -⟩
  · exact hraises h
  · exact subscribeTableOn_reads_freed (.inl hbuffer) hraises false (hloses _ hsent).2.2

end EspClock.Mqtt
