import EspClock.Mqtt.Segments
import Mathlib.Data.List.Perm.Basic

/-!
# Answers to received messages

PUBACK and PUBREC are built before the message callback runs and are handed over at the end of the receive
callback, and there is one place for them: whatever is built in between takes it, and so does the next packet
of the same callback. So of the packets that want an answer only the last one of a callback can get it, and
only if the program builds no message of its own.
-/

namespace EspClock.Mqtt

open Mem Client

/-- The bytes of a PUBACK or PUBREC packet. -/
def IsAnswer (bytes : List UInt8) : Prop := bytes.head? = some 0x40 ∨ bytes.head? = some 0x50

instance (bytes : List UInt8) : Decidable (IsAnswer bytes) := inferInstanceAs (Decidable (_ ∨ _))

def Action.answer? : Action → Option (List UInt8)
  | handed _ bytes => if IsAnswer bytes then some bytes else none
  | _ => none

/-- The answer that a packet wants. -/
def Publish.answer? (p : Publish) : Option (List UInt8) :=
  if p.qos = 1 then some (0x40 :: 2 :: word p.id)
  else if p.qos = 2 then some (0x50 :: 2 :: word p.id)
  else none

/-- A call that builds a message. -/
def Operation.Builds (s : Client) : Operation → Prop
  | .publish _ _ _ _ _ => s.espconn = true ∧ s.sendTimeout = 0
  | .subscribe _ _ _ => s.sendTimeout = 0 ∧ s.connected = true
  | .subscribeTable topics _ => s.sendTimeout = 0 ∧ s.connected = true ∧ topics ≠ []
  | _ => False

/-- The message callback, if there is one, builds no message. -/
def BuildsNothing (program : Program) (s : Client) : Prop :=
  s.messageRef = true → s.selfRef = true → ∀ o ∈ program s.called, ¬ o.Builds s

/-- Only the last packet wants an answer, and the program builds no message when it gets it. -/
def AnswersKept (program : Program) (s : Client) : List Publish → Prop
  | [] => True
  | [p] => p.qos = 0 ∨ BuildsNothing program s
  | p :: ps => p.qos = 0 ∧ AnswersKept program (s.deliver program (p.callback 0)).1 ps

/-! ### The first byte of a message -/

theorem getElem?_store_of_lt {cells : List UInt8} {i j : Nat} (h : j < i) (bytes : List UInt8) :
    (store cells i bytes)[j]? = cells[j]? := by
  induction bytes generalizing cells i with
  | nil => rfl
  | cons b bytes ih => rw [store, ih (Nat.lt_succ_of_lt h), List.getElem?_set_ne (Nat.ne_of_gt h)]

theorem isAnswer_singleton_iff (b : UInt8) : IsAnswer [b] ↔ b.toNat = 64 ∨ b.toNat = 80 := by
  unfold IsAnswer
  rw [List.head?_cons, Option.some.injEq, Option.some.injEq, ← UInt8.toNat_inj, ← UInt8.toNat_inj]
  rfl

namespace Connection

variable {c : Connection}

theorem head?_message (h : 0 < c.length) : c.message.head? = c.buffer.cells[c.data]? := by
  rw [message, List.head?_take, if_neg (Nat.ne_of_gt h), List.head?_drop]

theorem head?_message_store {i length : Nat} {b : UInt8} {bytes : List UInt8} (hi : i < 1024) (hlength : 0 < length) :
    { c.store i (b :: bytes) with length := length, data := i }.message.head? = some b := by
  have hcells : (Mem.store c.buffer.cells i (b :: bytes))[i]? = some b := by
    rw [Mem.store, getElem?_store_of_lt (Nat.lt_succ_self i), List.getElem?_set_self (by rw [c.buffer.size_eq]; exact hi)]
  exact (head?_message hlength).trans hcells

theorem head?_finiMessage (type : MessageType) (dup qos retain : Nat) :
    (c.finiMessage type dup qos retain).message.head? = some (header type dup qos retain) := by
  unfold finiMessage
  dsimp only
  split_ifs
  · exact head?_message_store (by decide) (Nat.succ_pos _)
  · exact head?_message_store (by decide) (Nat.succ_pos _)

theorem failMessage_message : c.failMessage.message = [] := List.take_zero

/-- A message that is no answer, or was given up. -/
theorem fini_not_answer {type : MessageType} {dup qos retain : Nat} (hheader : ¬ IsAnswer [header type dup qos retain])
    (result : Except Connection Connection) : ¬ IsAnswer (fini type dup qos retain result).message := by
  cases result with
  | ok c =>
    unfold IsAnswer at hheader ⊢
    rw [fini, head?_finiMessage]
    exact hheader
  | error c =>
    rw [fini, failMessage_message]
    decide

theorem failMessage_not_answer : ¬ IsAnswer c.failMessage.message := by
  rw [failMessage_message]
  decide

theorem mqttMsgPublish_not_answer (topic data : List UInt8) (qos retain messageId : Nat) :
    ¬ IsAnswer (c.mqttMsgPublish topic data qos retain messageId).1.message := by
  have hheader : ¬ IsAnswer [header .publish 0 qos retain] := by
    have hbyte : (header .publish 0 qos retain).toNat = 48 + qos % 4 * 2 + retain % 2 := by
      rw [header, UInt8.toNat_ofNat', MessageType.number]
      omega
    rw [isAnswer_singleton_iff, hbyte]
    omega
  unfold mqttMsgPublish
  dsimp only
  split_ifs
  · exact failMessage_not_answer
  · cases (c.initMessage.appendString topic) with
    | error c => exact failMessage_not_answer
    | ok c =>
      dsimp only
      cases c.appendMessageId 0 with
      | error c => exact failMessage_not_answer
      | ok built => exact fini_not_answer hheader _
  · cases (c.initMessage.appendString topic) with
    | error c => exact failMessage_not_answer
    | ok c => exact fini_not_answer hheader _

theorem mqttMsgSubscribe_not_answer (topic : List UInt8) (qos messageId : Nat) :
    ¬ IsAnswer (c.mqttMsgSubscribe topic qos messageId).1.message := by
  unfold mqttMsgSubscribe
  dsimp only
  split_ifs
  · exact failMessage_not_answer
  · cases c.initMessage.appendMessageId 0 with
    | error c => exact failMessage_not_answer
    | ok built => exact fini_not_answer (by decide) _

/-- PUBACK and PUBREC packets, of an identifier that is not 0. -/
theorem mqttMsgId_message (type : MessageType) {id : Nat} (hid : 0 < id) (hbuffer : c.bufferLength = 1024) :
    (c.mqttMsgId type 0 id).message = header type 0 0 0 :: 2 :: word id := by
  have happend : c.initMessage.appendMessageId id = .ok (c.initMessage.push (word id), id) := by
    unfold appendMessageId assignId
    rw [if_neg (Nat.ne_of_gt hid)]
    have hfits : ¬ c.initMessage.length + 2 > c.initMessage.bufferLength := by
      show ¬ 3 + 2 > c.bufferLength
      omega
    exact if_neg hfits
  have hcells : ∀ cells : List UInt8, cells.length = 1024 →
      ((Mem.store (Mem.store cells 3 (word id)) 1 [header type 0 0 0, 2]).drop 1).take 4 =
        header type 0 0 0 :: 2 :: word id := by
    intro cells hlength
    rcases cells with _ | ⟨_, _ | ⟨_, _ | ⟨_, _ | ⟨_, _ | ⟨_, cells⟩⟩⟩⟩⟩
    case cons.cons.cons.cons.cons => rfl
    all_goals simp at hlength
  rw [mqttMsgId, happend]
  exact hcells c.buffer.cells c.buffer.size_eq

end Connection

/-! ### Calls of the program -/

namespace Client

variable {s : Client} {program : Program} {signed : Signed}

theorem transmit_answers (publication : Option Publication) (h : ¬ IsAnswer s.connection.message) :
    (s.transmit publication).2.filterMap Action.answer? = [] := by
  unfold transmit
  split_ifs
  · exact List.filterMap_cons_none (if_neg h)
  · rfl

theorem transmit_not_answer (publication : Option Publication) (h : ¬ IsAnswer s.connection.message) :
    ¬ IsAnswer (s.transmit publication).1.connection.message := by
  unfold transmit
  split_ifs <;> exact h

theorem buildTable_answers (topics : List (List UInt8 × Nat)) :
    (s.buildTable topics).2.1.filterMap Action.answer? = [] ∧
      (∀ message ∈ (s.buildTable topics).2.2, ¬ IsAnswer message) ∧
      (topics ≠ [] → ¬ IsAnswer (s.buildTable topics).1.connection.message) := by
  induction topics generalizing s with
  | nil => exact ⟨rfl, List.forall_mem_nil _, fun h => absurd rfl h⟩
  | cons topic topics ih =>
    have hfirst : ¬ IsAnswer (s.buildSubscribe topic.1 topic.2).1.connection.message :=
      Connection.mqttMsgSubscribe_not_answer _ _ _
    obtain ⟨hwritten, hmessages, hlast⟩ := @ih (s.buildSubscribe topic.1 topic.2).1
    refine ⟨?_, ?_, fun _ => ?_⟩
    · rw [buildTable, List.filterMap_append, hwritten]
      rfl
    · rw [buildTable, List.forall_mem_cons]
      exact ⟨hfirst, hmessages⟩
    · by_cases hnil : topics = []
      · subst hnil
        exact hfirst
      · exact hlast hnil

theorem copyBack_first (c : Connection) {ptr : Nat} (hptr : 0 < ptr) (messages : List (List UInt8)) :
    0 < (copyBack c ptr messages).2 ∧ (copyBack c ptr messages).1.buffer.cells[0]? = c.buffer.cells[0]? := by
  induction messages generalizing c ptr with
  | nil => exact ⟨hptr, rfl⟩
  | cons message messages ih =>
    rw [copyBack]
    split_ifs
    · obtain ⟨hpos, hcell⟩ := ih (c.store ptr message) (Nat.add_pos_left hptr message.length)
      exact ⟨hpos, hcell.trans (getElem?_store_of_lt hptr message)⟩
    · exact ih c hptr

/-- The copies that are put back begin with one of the messages. -/
theorem copyBack_not_answer {messages : List (List UInt8)} (h : ∀ message ∈ messages, ¬ IsAnswer message)
    (c : Connection) :
    ((copyBack c 0 messages).2 = 0 → (copyBack c 0 messages).1.message = c.message) ∧
      ((copyBack c 0 messages).2 ≠ 0 →
        ¬ IsAnswer { (copyBack c 0 messages).1 with data := 0, length := (copyBack c 0 messages).2 }.message) := by
  induction messages generalizing c with
  | nil => exact ⟨fun _ => rfl, fun h => absurd rfl h⟩
  | cons message messages ih =>
    rw [List.forall_mem_cons] at h
    rw [copyBack]
    split_ifs with hfits
    · cases message with
      | nil => exact ih h.2 (c.store 0 [])
      | cons b bytes =>
        obtain ⟨hpos, hcell⟩ := copyBack_first (c.store 0 (b :: bytes)) (Nat.add_pos_right 0 (Nat.succ_pos bytes.length)) messages
        have hfirst : (c.store 0 (b :: bytes)).buffer.cells[0]? = some b := by
          show (store c.buffer.cells 0 (b :: bytes))[0]? = some b
          rw [store, getElem?_store_of_lt Nat.one_pos, List.getElem?_set_self (by rw [c.buffer.size_eq]; decide)]
        have hhead : ({ (copyBack (c.store 0 (b :: bytes)) (0 + (b :: bytes).length) messages).1 with
            data := 0, length := (copyBack (c.store 0 (b :: bytes)) (0 + (b :: bytes).length) messages).2 } :
              Connection).message.head? = some b :=
          (Connection.head?_message hpos).trans (hcell.trans hfirst)
        refine ⟨fun hzero => absurd hzero (Nat.ne_of_gt hpos), fun _ => ?_⟩
        unfold IsAnswer
        rw [hhead]
        exact h.1
    · exact ih h.2 c

/-- A call that builds a message leaves one that is no answer, any other call leaves the message there is. -/
theorem operate_answers (o : Operation) :
    (s.operate o).2.filterMap Action.answer? = [] ∧
      (o.Builds s → ¬ IsAnswer (s.operate o).1.connection.message) ∧
      (¬ o.Builds s →
        (s.operate o).1.connection.message = s.connection.message ∧ (s.operate o).1.outbound = s.outbound ∧
          (s.operate o).1.sendTimeout = s.sendTimeout) := by
  cases o with
  | publish topic payload qos retain callback =>
    rw [operate, publish]
    split_ifs with hespconn htimeout
    · exact ⟨rfl, fun h => absurd h.1 (by simpa using hespconn), fun _ => ⟨rfl, rfl, rfl⟩⟩
    · exact ⟨rfl, fun h => absurd h.2 htimeout, fun _ => ⟨rfl, rfl, rfl⟩⟩
    · have hbuilt := s.connection.mqttMsgPublish_not_answer (cstr topic) payload (qos % 256) (retain % 256) s.pendingId
      refine ⟨?_, fun _ => ?_, fun h => absurd ⟨by simpa using hespconn, not_not.mp htimeout⟩ h⟩
      · rw [List.filterMap_append, transmit_answers _ hbuilt]
        rfl
      · exact transmit_not_answer _ hbuilt
  | subscribe topic qos callback =>
    rw [operate, subscribe]
    split_ifs with htimeout hconnected
    · exact ⟨rfl, fun h => absurd h.1 htimeout, fun _ => ⟨rfl, rfl, rfl⟩⟩
    · exact ⟨rfl, fun h => absurd h.2 (by simpa using hconnected), fun _ => ⟨rfl, rfl, rfl⟩⟩
    · have hbuilt := s.connection.mqttMsgSubscribe_not_answer (cstr topic) (qos % 256) s.pendingId
      refine ⟨?_, fun _ => ?_, fun h => absurd ⟨not_not.mp htimeout, by simpa using hconnected⟩ h⟩
      · rw [List.filterMap_append, subscribed, transmit_answers _ hbuilt]
        rfl
      · exact transmit_not_answer _ hbuilt
  | subscribeTable topics callback =>
    rw [operate, subscribeTable]
    split_ifs with htimeout hconnected
    · exact ⟨rfl, fun h => absurd h.1 htimeout, fun _ => ⟨rfl, rfl, rfl⟩⟩
    · exact ⟨rfl, fun h => absurd h.2.1 (by simpa using hconnected), fun _ => ⟨rfl, rfl, rfl⟩⟩
    · obtain ⟨hwritten, hmessages, hlast⟩ := @buildTable_answers s topics
      have hcopied := copyBack_not_answer hmessages { (s.buildTable topics).1.connection with written := [] }
      have hnil : ¬ (Operation.subscribeTable topics callback).Builds s → topics = [] := by
        intro h
        by_contra hne
        exact h ⟨not_not.mp htimeout, by simpa using hconnected, hne⟩
      dsimp only
      split_ifs with hptr
      · refine ⟨?_, fun h => ?_, fun h => ?_⟩
        · rw [List.filterMap_append, List.filterMap_append, hwritten]
          rfl
        · rw [hcopied.1 hptr]
          exact hlast h.2.2
        · obtain rfl := hnil h
          exact ⟨rfl, rfl, rfl⟩
      · refine ⟨?_, fun _ => ?_, fun h => ?_⟩
        · rw [List.filterMap_append, List.filterMap_append, hwritten, subscribed, transmit_answers _ (hcopied.2 hptr)]
          rfl
        · exact transmit_not_answer none (hcopied.2 hptr)
        · obtain rfl := hnil h
          exact absurd rfl hptr
  | on method => cases method <;> exact ⟨rfl, fun h => h.elim, fun _ => ⟨rfl, rfl, rfl⟩⟩
  | close =>
    refine ⟨?_, fun h => h.elim, fun _ => ⟨rfl, rfl, rfl⟩⟩
    rw [operate]
    split_ifs <;> rfl

theorem operate_not_answer (o : Operation) (h : ¬ IsAnswer s.connection.message) :
    ¬ IsAnswer (s.operate o).1.connection.message := by
  obtain ⟨-, hbuilds, hother⟩ := @operate_answers s o
  by_cases ho : o.Builds s
  · exact hbuilds ho
  · rw [(hother ho).1]
    exact h

theorem operateAll_answers (os : List Operation) :
    (s.operateAll os).2.filterMap Action.answer? = [] ∧
      ((¬ IsAnswer s.connection.message ∨ ¬ ∀ o ∈ os, ¬ o.Builds s) →
        ¬ IsAnswer (s.operateAll os).1.connection.message) ∧
      ((∀ o ∈ os, ¬ o.Builds s) →
        (s.operateAll os).1.connection.message = s.connection.message ∧ (s.operateAll os).1.outbound = s.outbound) := by
  induction os generalizing s with
  | nil => exact ⟨rfl, fun h => h.resolve_right fun h => h (List.forall_mem_nil _), fun _ => ⟨rfl, rfl⟩⟩
  | cons o os ih =>
    obtain ⟨hactions, hbuilds, hother⟩ := @operate_answers s o
    obtain ⟨hactions', hforeign, hsame⟩ := @ih (s.operate o).1
    -- a call that builds nothing does not change which calls do
    have hagain : ¬ o.Builds s → ∀ o' : Operation, o'.Builds (s.operate o).1 ↔ o'.Builds s := by
      intro ho o'
      have htimeout := (hother ho).2.2
      have hespconn := (operate_same s o).espconn
      have hconnected := (operate_same s o).connected
      cases o' <;> simp only [Operation.Builds, htimeout, hespconn, hconnected]
    rw [operateAll]
    refine ⟨?_, fun h => ?_, fun h => ?_⟩
    · rw [List.filterMap_append, hactions, hactions', List.append_nil]
    · by_cases ho : o.Builds s
      · exact hforeign (.inl (hbuilds ho))
      · refine hforeign (h.imp (operate_not_answer o) fun hbuilder hnone => hbuilder ?_)
        rw [List.forall_mem_cons]
        exact ⟨ho, fun o' ho' => (not_congr (hagain ho o')).mp (hnone o' ho')⟩
    · rw [List.forall_mem_cons] at h
      obtain ⟨hmessage, houtbound⟩ := hsame fun o' ho' => (not_congr (hagain h.1 o')).mpr (h.2 o' ho')
      exact ⟨hmessage.trans (hother h.1).1, houtbound.trans (hother h.1).2.1⟩

theorem deliver_answers (callback : Callback) :
    (s.deliver program callback).2.filterMap Action.answer? = [] ∧
      ((¬ IsAnswer s.connection.message ∨ ¬ BuildsNothing program s) →
        ¬ IsAnswer (s.deliver program callback).1.connection.message) ∧
      (BuildsNothing program s →
        (s.deliver program callback).1.connection.message = s.connection.message ∧
          (s.deliver program callback).1.outbound = s.outbound) := by
  unfold deliver BuildsNothing
  split_ifs with href
  · obtain ⟨hactions, hforeign, hsame⟩ := @operateAll_answers { s with called := s.called + 1 } (program s.called)
    refine ⟨hactions, fun h => hforeign (h.imp_right fun h hnone => h fun _ _ => hnone), fun h => hsame (h href.1 href.2)⟩
  · exact ⟨rfl, fun h => h.resolve_right fun h => h fun h h' => absurd ⟨h, h'⟩ href, fun _ => ⟨rfl, rfl⟩⟩

/-! ### The answer of a packet -/

theorem isAnswer_length {c : Connection} (h : IsAnswer c.message) : 0 < c.length := by
  by_contra hzero
  have hnil : c.message = [] := by
    unfold Connection.message
    rw [Nat.eq_zero_of_not_pos hzero, List.take_zero]
  rw [hnil] at h
  exact absurd h (by decide)

theorem sendOutbound_answers (hespconn : s.espconn = true) (hlink : s.link = true) :
    s.sendOutbound.2.filterMap Action.answer? =
      if s.outbound = true ∧ IsAnswer s.connection.message then [s.connection.message] else [] := by
  unfold sendOutbound
  by_cases houtbound : s.outbound = true
  · rw [if_pos houtbound]
    dsimp only
    by_cases hanswer : IsAnswer s.connection.message
    · rw [if_pos ⟨houtbound, hanswer⟩, transmit, if_pos ⟨hespconn, hlink, isAnswer_length hanswer⟩]
      exact List.filterMap_cons_some (if_pos hanswer)
    · rw [if_neg fun h => hanswer h.2]
      exact transmit_answers none hanswer
  · rw [if_neg houtbound, if_neg fun h => houtbound h.1]
    rfl

theorem acknowledge_answers {p : Publish} (hpayload : p.payload ≠ []) (hbuffer : s.connection.bufferLength = 1024) :
    (s.acknowledge p.qos (p.idFound 1024)).2.filterMap Action.answer? = [] ∧
      match p.answer? with
      | some answer =>
        (s.acknowledge p.qos (p.idFound 1024)).1.outbound = true ∧
          (s.acknowledge p.qos (p.idFound 1024)).1.connection.message = answer ∧ IsAnswer answer
      | none => s.acknowledge p.qos (p.idFound 1024) = (s, []) := by
  have hid : p.qos ≠ 0 → p.idFound 1024 = p.id :=
    fun hqos => if_neg (not_or.mpr ⟨hqos, fun h => hpayload h.1⟩)
  unfold acknowledge Publish.answer?
  by_cases hqos1 : p.qos = 1
  · rw [if_pos hqos1, if_pos hqos1, hid (by omega)]
    exact ⟨rfl, rfl, Connection.mqttMsgId_message .puback p.id_pos hbuffer, .inl rfl⟩
  · rw [if_neg hqos1, if_neg hqos1]
    by_cases hqos2 : p.qos = 2
    · rw [if_pos hqos2, if_pos hqos2, hid (by omega)]
      exact ⟨rfl, rfl, Connection.mqttMsgId_message .pubrec p.id_pos hbuffer, .inr rfl⟩
    · rw [if_neg hqos2, if_neg hqos2]
      exact ⟨rfl, rfl⟩

theorem answer?_eq_none_iff (p : Publish) : p.answer? = none ↔ p.qos = 0 := by
  have hqos := p.qos_lt
  unfold Publish.answer?
  split_ifs with h h'
  · exact iff_of_false (nomatch ·) (by omega)
  · exact iff_of_false (nomatch ·) (by omega)
  · exact iff_of_true rfl (by omega)

theorem acknowledge_buildsNothing (qos id : Nat) :
    BuildsNothing program (s.acknowledge qos id).1 ↔ BuildsNothing program s := by
  have hbuilds : ∀ o : Operation, o.Builds (s.acknowledge qos id).1 ↔ o.Builds s := by
    intro o
    unfold acknowledge
    split_ifs <;> cases o <;> rfl
  have hcalled : (s.acknowledge qos id).1.called = s.called := by
    unfold acknowledge
    split_ifs <;> rfl
  obtain ⟨hmessageRef, hselfRef⟩ := acknowledge_refs s qos id
  unfold BuildsNothing
  rw [hselfRef, hmessageRef, hcalled]
  simp only [hbuilds]

/-- The last packet of a receive callback. -/
theorem take_answers {p : Publish} (hpayload : p.payload ≠ []) (hbuffer : s.connection.bufferLength = 1024)
    (houtbound : s.outbound = false) (hespconn : s.espconn = true) (hlink : s.link = true) (len : Nat) :
    (s.take program signed len (.publish p)).2.filterMap Action.answer? = [] ∧
      (BuildsNothing program s →
        (s.take program signed len (.publish p)).1.sendOutbound.2.filterMap Action.answer? = p.answer?.toList) ∧
      (¬ BuildsNothing program s →
        (s.take program signed len (.publish p)).1.sendOutbound.2.filterMap Action.answer? = []) := by
  have hsame := @take_same program signed s len (.publish p)
  obtain ⟨hwritten, hbuilt⟩ := @acknowledge_answers s p hpayload hbuffer
  obtain ⟨hactions, hforeign, hkept⟩ :=
    @deliver_answers (s.acknowledge p.qos (p.idFound 1024)).1 program (p.callback len)
  rw [acknowledge_buildsNothing] at hforeign hkept
  refine ⟨?_, fun hnothing => ?_, fun hbuilds => ?_⟩
  · rw [take, List.filterMap_append, hwritten, hactions]
    rfl
  · obtain ⟨hmessage, hout⟩ := hkept hnothing
    rw [sendOutbound_answers (hsame.espconn.trans hespconn) (hsame.link.trans hlink)]
    cases hanswer : p.answer? with
    | none =>
      rw [hanswer] at hbuilt
      have hout' : (s.acknowledge p.qos (p.idFound 1024)).1.outbound = false := by
        rw [hbuilt]
        exact houtbound
      exact if_neg fun h => Bool.false_ne_true ((hout.trans hout').symm.trans h.1)
    | some answer =>
      rw [hanswer] at hbuilt
      obtain ⟨hout', hmessage', his⟩ := hbuilt
      have hfinal := hmessage.trans hmessage'
      show (if _ ∧ IsAnswer _ then [_] else []) = [answer]
      rw [if_pos ⟨hout.trans hout', hfinal.symm ▸ his⟩]
      exact congrArg (fun m => [m]) hfinal
  · rw [sendOutbound_answers (hsame.espconn.trans hespconn) (hsame.link.trans hlink)]
    exact if_neg fun h => hforeign (.inr hbuilds) h.2

/-! ### The packets of a receive callback -/

theorem buildsNothing_core {s' : Client} (h : s.core = s'.core) : BuildsNothing program s ↔ BuildsNothing program s' := by
  rw [eq_of_core h]
  unfold BuildsNothing
  refine imp_congr Iff.rfl (imp_congr Iff.rfl (forall_congr' fun o => imp_congr Iff.rfl ?_))
  cases o <;> rfl

theorem answersKept_cons_cons (p q : Publish) (ps : List Publish) :
    AnswersKept program s (p :: q :: ps) ↔ p.qos = 0 ∧ AnswersKept program (s.deliver program (p.callback 0)).1 (q :: ps) :=
  Iff.rfl

theorem answersKept_core {s' : Client} (h : s.core = s'.core) (ps : List Publish) :
    AnswersKept program s ps ↔ AnswersKept program s' ps := by
  induction ps generalizing s s' with
  | nil => exact Iff.rfl
  | cons p ps ih =>
    cases ps with
    | nil => exact or_congr Iff.rfl (buildsNothing_core h)
    | cons q ps => exact and_congr Iff.rfl (ih (deliver_alike h (p.callback 0)).1)

theorem deliver_fst (callback callback' : Callback) :
    (s.deliver program callback).1 = (s.deliver program callback').1 := by
  unfold deliver
  split_ifs <;> rfl

/-- The last packet of a receive callback. -/
theorem readPacket_answers_last {p : Publish} (hpayload : p.payload ≠ []) (hlen : p.bytes.length ≤ 1024)
    (hs : s.Receiving) (hbuffer : s.connection.bufferLength = 1024) (fuel offset : Nat) :
    (BuildsNothing program s →
        (s.readPacket program signed (fuel + 1) offset p.bytes).2.filterMap Action.answer? = p.answer?.toList) ∧
      (¬ BuildsNothing program s →
        (s.readPacket program signed (fuel + 1) offset p.bytes).2.filterMap Action.answer? = []) := by
  have hcells := load_cells s hlen
  have hlast : ¬ (s.load p.bytes).Another signed p.bytes.length := by
    rw [@another_iff _ _ _ (.publish p) p.bytes.length hcells le_rfl hlen]
    exact fun h => lt_irrefl _ h.2
  obtain ⟨hstate, hactions⟩ := @packet_take signed _ _ program (.publish p) p.bytes.length
    hcells le_rfl hlen _ Action.answer? fun _ => rfl
  obtain ⟨hnone, hkept, hlost⟩ := @take_answers (s.load p.bytes) program signed p hpayload hbuffer rfl hs.espconn
    hs.link p.bytes.length
  rw [buildsNothing_core (load_core s p.bytes)] at hkept hlost
  rw [readPacket_last hs.state hlast, List.cons_append, List.filterMap_cons_none rfl, List.filterMap_append, hactions,
    hnone, List.nil_append, hstate]
  exact ⟨hkept, hlost⟩

/-- A packet that is followed by another one gets no answer. -/
theorem readPacket_answers_followed {p : Publish} {rest : List UInt8} (hrest : rest ≠ []) (hpayload : p.payload ≠ [])
    (hlen : (p.bytes ++ rest).length ≤ 1024) (hs : s.Receiving) (hbuffer : s.connection.bufferLength = 1024)
    (fuel offset : Nat) :
    ∃ s' offset', SameSession s s' ∧ (p.qos = 0 → s'.core = (s.deliver program (p.callback 0)).1.core) ∧
      (s.readPacket program signed (fuel + 1) offset (p.bytes ++ rest)).2.filterMap Action.answer? =
        (s'.readPacket program signed fuel offset' rest).2.filterMap Action.answer? := by
  have hcells := load_cells s hlen
  rw [List.append_assoc] at hcells
  have hle : p.bytes.length ≤ (p.bytes ++ rest).length := by
    rw [List.length_append]
    exact Nat.le_add_right _ _
  have hanother : (s.load (p.bytes ++ rest)).Another signed (p.bytes ++ rest).length := by
    rw [another_iff (p := .publish p) _ hcells hle hlen]
    refine ⟨⟨p, rfl⟩, ?_⟩
    have hpos := List.length_pos_iff.mpr hrest
    rw [List.length_append]
    exact Nat.lt_add_of_pos_right hpos
  have hnext := @messageLength_publish signed _ _ _ _ hcells hle (hle.trans hlen)
  obtain ⟨hstate, hactions⟩ := @packet_take signed _ _ program (.publish p) _ hcells hle hlen
    _ Action.answer? fun _ => rfl
  obtain ⟨hnone, -, -⟩ := @take_answers (s.load (p.bytes ++ rest)) program signed p hpayload hbuffer rfl hs.espconn
    hs.link (p.bytes ++ rest).length
  refine ⟨_, offset + p.bytes.length, (load_same s (p.bytes ++ rest)).trans
    (packet_same program signed (s.load (p.bytes ++ rest)) (p.bytes ++ rest).length), ?_, ?_⟩
  · intro hqos
    have htake : ((s.load (p.bytes ++ rest)).take program signed (p.bytes ++ rest).length (.publish p)).1 =
        ((s.load (p.bytes ++ rest)).deliver program (p.callback 0)).1 := by
      have hone : p.qos ≠ 1 := by omega
      have htwo : p.qos ≠ 2 := by omega
      unfold take acknowledge
      dsimp only
      rw [if_neg hone, if_neg htwo]
      exact deliver_fst _ _
    rw [hstate, htake]
    exact (deliver_alike (load_core s (p.bytes ++ rest)) (p.callback 0)).1
  · rw [readPacket_another hs.state hanother, hnext]
    dsimp only
    rw [List.drop_left, List.cons_append, List.filterMap_cons_none rfl, List.filterMap_append, hactions, hnone,
      List.nil_append]

/-- The answers of a receive callback: never more than are wanted, and all of them exactly under the condition. -/
theorem readPacket_answers {ps : List Publish} (hps : ps ≠ []) (hpayload : ∀ p ∈ ps, p.payload ≠ [])
    (hlen : (ps.flatMap Publish.bytes).length ≤ 1024) (hs : s.Receiving) (hbuffer : s.connection.bufferLength = 1024)
    {fuel : Nat} (hfuel : ps.length ≤ fuel) (offset : Nat) :
    ((s.readPacket program signed fuel offset (ps.flatMap Publish.bytes)).2.filterMap Action.answer?).Sublist
        (ps.filterMap Publish.answer?) ∧
      (((s.readPacket program signed fuel offset (ps.flatMap Publish.bytes)).2.filterMap Action.answer?).Perm
        (ps.filterMap Publish.answer?) ↔ AnswersKept program s ps) := by
  induction ps generalizing s fuel offset with
  | nil => exact absurd rfl hps
  | cons p ps ih =>
    obtain ⟨fuel, rfl⟩ : ∃ k, fuel = k + 1 := ⟨fuel - 1, by rw [List.length_cons] at hfuel; omega⟩
    rw [List.forall_mem_cons] at hpayload
    rw [List.flatMap_cons] at hlen ⊢
    have hnone := answer?_eq_none_iff p
    cases ps with
    | nil =>
      rw [List.flatMap_nil, List.append_nil] at hlen ⊢
      obtain ⟨hkept, hlost⟩ := @readPacket_answers_last s program signed p hpayload.1 hlen hs hbuffer fuel offset
      have hwanted : [p].filterMap Publish.answer? = p.answer?.toList := by
        cases hanswer : p.answer? with
        | none => exact List.filterMap_cons_none hanswer
        | some answer => exact List.filterMap_cons_some hanswer
      rw [hwanted, AnswersKept]
      by_cases hnothing : BuildsNothing program s
      · rw [hkept hnothing]
        exact ⟨List.Sublist.refl _, iff_of_true (List.Perm.refl _) (.inr hnothing)⟩
      · rw [hlost hnothing, ← hnone]
        refine ⟨List.nil_sublist _, ?_⟩
        cases p.answer? with
        | none => exact iff_of_true (List.Perm.refl _) (.inl rfl)
        | some answer =>
          refine iff_of_false (fun h => List.cons_ne_nil _ _ (List.nil_perm.mp h)) ?_
          exact fun h => h.elim (nomatch ·) hnothing
    | cons q ps =>
      have hrest : (q :: ps).flatMap Publish.bytes ≠ [] := by
        rw [List.flatMap_cons]
        refine List.append_ne_nil_of_left_ne_nil ?_ _
        exact List.cons_ne_nil _ _
      obtain ⟨s', offset', hsame, hcore, hanswers⟩ :=
        @readPacket_answers_followed s program signed p _ hrest hpayload.1 hlen hs hbuffer fuel offset
      rw [List.length_append] at hlen
      obtain ⟨hsub, hiff⟩ := @ih s' (List.cons_ne_nil _ _) hpayload.2 (by omega) (hs.of_same hsame)
        (hsame.bufferLength.trans hbuffer) fuel (Nat.le_of_succ_le_succ hfuel) offset'
      rw [hanswers, answersKept_cons_cons, ← hnone]
      cases hanswer : p.answer? with
      | none =>
        rw [List.filterMap_cons_none hanswer]
        refine ⟨hsub, hiff.trans ?_⟩
        rw [answersKept_core (hcore (hnone.mp hanswer))]
        exact (and_iff_right rfl).symm
      | some answer =>
        rw [List.filterMap_cons_some hanswer]
        refine ⟨hsub.cons answer, iff_of_false (fun h => ?_) (fun h => nomatch h.1)⟩
        have hlength := h.length_eq
        have hle := hsub.length_le
        rw [List.length_cons] at hlength
        omega

end Client

/-! ### Acknowledgement -/

theorem step_answers (program : Program) (signed : Signed) {s : Client} (hs : s.Receiving)
    (hbuffer : s.connection.bufferLength = 1024) {ps : List Publish} (hps : ps ≠ []) (hpayload : ∀ p ∈ ps, p.payload ≠ [])
    (hlen : (ps.flatMap Publish.bytes).length ≤ 1024) :
    (((client program signed).actions s (.received (ps.flatMap Publish.bytes))).filterMap Action.answer?).Perm
        (ps.filterMap Publish.answer?) ↔ AnswersKept program s ps := by
  have hfuel : ps.length ≤ (ps.flatMap Publish.bytes).length + 1 := by
    have hle := length_le_flatMap (ps.map .publish)
    rw [List.length_map, List.flatMap_map] at hle
    exact hle.trans (Nat.le_succ _)
  rw [Machine.actions, hs.step]
  exact (readPacket_answers hps hpayload hlen hs hbuffer hfuel 0).2

/-- For a client in any state that a run reaches, whatever its program does, and a receive callback of PUBLISH
packets with payloads: it hands over exactly the PUBACK and PUBREC packets that these want if and only if all of
them but the last have QoS 0 and, when the last one is answered, the message callback builds no message. -/
theorem answers_kept_iff (program : Program) (signed : Signed) (info : ConnectInfo) (connected : Bool)
    (events : List Event) (hs : ((client program signed).final (.new info connected) events).Receiving)
    (ps : List Publish) (hps : ps ≠ []) (hpayload : ∀ p ∈ ps, p.payload ≠ [])
    (hlen : (ps.flatMap Publish.bytes).length ≤ 1024) :
    (((client program signed).actions ((client program signed).final (.new info connected) events)
          (.received (ps.flatMap Publish.bytes))).filterMap Action.answer?).Perm (ps.filterMap Publish.answer?) ↔
      AnswersKept program ((client program signed).final (.new info connected) events) ps := by
  have halways := Machine.always_of_forall_step (M := client program signed) (client_ready program signed)
    (s := .new info connected) (fun h => by rcases h with h | h <;> exact nomatch h) events
  exact step_answers program signed hs (halways.last (.inr hs.state)) hps hpayload hlen

/-- A connection up to its CONNACK packet. -/
def connecting : List Event := [.connect false .both, .tcpConnected, .received [0x20, 2, 0, 0]]

/-- One QoS 1 packet. -/
theorem answers_kept_message :
    (((client silent wide).actions
          ((client silent wide).final (.new ⟨[99], [], [], [], [], 60, 0, false, true⟩ false) connecting)
          (.received ([message].flatMap Publish.bytes))).filterMap Action.answer?).Perm
        ([message].filterMap Publish.answer?) ↔
      AnswersKept silent
        ((client silent wide).final (.new ⟨[99], [], [], [], [], 60, 0, false, true⟩ false) connecting) [message] :=
  answers_kept_iff silent wide _ _ connecting ⟨rfl, rfl, rfl, rfl⟩ [message] (List.cons_ne_nil _ _)
    (List.forall_mem_singleton.mpr (List.cons_ne_nil _ _)) (by decide)

/-- Of two QoS 1 packets in one receive callback only one is acknowledged. -/
theorem first_answer_lost :
    ¬ ∀ (program : Program) (signed : Signed) (info : ConnectInfo) (connected : Bool) (events : List Event),
      ((client program signed).final (.new info connected) events).Receiving →
      ∀ ps : List Publish, (∀ p ∈ ps, p.payload ≠ []) → (ps.flatMap Publish.bytes).length ≤ 1024 →
      (((client program signed).actions ((client program signed).final (.new info connected) events)
        (.received (ps.flatMap Publish.bytes))).filterMap Action.answer?).Perm (ps.filterMap Publish.answer?) := by
  intro hall
  have hpayload : ∀ p ∈ [message, message], p.payload ≠ [] := by
    intro p hp
    rw [List.eq_of_mem_replicate (n := 2) hp]
    exact List.cons_ne_nil _ _
  have hperm := hall silent wide ⟨[99], [], [], [], [], 60, 0, false, true⟩ false connecting ⟨rfl, rfl, rfl, rfl⟩
    [message, message] hpayload (by decide)
  rw [step_answers silent wide ⟨rfl, rfl, rfl, rfl⟩ rfl (List.cons_ne_nil _ _) hpayload (by decide)] at hperm
  exact absurd hperm.1 (by decide)

end EspClock.Mqtt
