import EspClock.Lib.Run
import EspClock.FileServer.Frames

/-!
# The answers on the wire

`espconn_sent` keeps a reference to the bytes it is given until the sent event of that send. The echo
of a frame is given as a reference to the receive buffer itself, so the bytes on the wire are those
the buffer has by then: a frame copied in behind the executed one is moved over the echo by the same
callback, and a callback before the sent event copies its data over it. When neither happens, every
answer arrives as it was given.
-/

namespace EspClock.FileServer

open Mem Decimal Console

/-- What a send refers to: a constant string, or the first cells of `m_DataBuffer`. -/
inductive Reference where
  | text (bytes : List UInt8)
  | buffer (length : Nat)

def Reference.bytes (dataBuffer : Block UInt8 maxBufferSize) : Reference → List UInt8
  | .text bytes => bytes
  | .buffer length => dataBuffer.upTo length

/-- A connection with the sends that have not had their sent event, the oldest first. -/
structure Line (σ : Type) where
  server : FsUserdata
  world : World σ
  inFlight : List Reference

inductive LineEvent where
  | received (data : List UInt8)
  | sent

inductive Entry where
  | action (a : Action)
  | delivered (bytes : List UInt8)

/-- The sends among the actions of a callback. -/
def references (actions : List Action) : List Reference :=
  actions.filterMap fun
    | .sent text => some (.text text)
    | .sentBuffer bytes => some (.buffer bytes.length)
    | _ => none

variable {σ : Type} (P : Platform σ)

/-- Receive callbacks and sent events in any order. A sent event takes the bytes its send refers to
as they are at that moment. -/
def line : Machine (Line σ) LineEvent Entry :=
  ⟨fun st e =>
    match e with
    | .received data =>
      let out := fsDataReceived P st.world st.server data
      (⟨out.server, out.world, st.inFlight ++ references out.actions⟩, out.actions.map .action)
    | .sent =>
      match st.inFlight with
      | [] => (st, [])
      | r :: rest => ({ st with inFlight := rest }, [.delivered (r.bytes st.server.dataBuffer)])⟩

def Line.initial (dataBuffer : Block UInt8 maxBufferSize) (w : World σ) : Line σ :=
  ⟨.fresh dataBuffer, w, []⟩

/-- No write to the buffer changes a cell of an echo in flight; the first argument has the buffer
bytes each send in flight was given. -/
def Intact : List (List UInt8) → List Entry → Prop
  | _, [] => True
  | sends, .action (.write i v) :: log =>
    (∀ bytes ∈ sends, i < bytes.length → bytes[i]? = some v) ∧ Intact sends log
  | sends, .action (.sent _) :: log => Intact (sends ++ [[]]) log
  | sends, .action (.sentBuffer bytes) :: log => Intact (sends ++ [bytes]) log
  | sends, .action _ :: log => Intact sends log
  | sends, .delivered _ :: log => Intact sends.tail log

def delivered (log : List Entry) : List (List UInt8) :=
  log.filterMap fun
    | .delivered bytes => some bytes
    | _ => none

def verdict (success : Bool) : List UInt8 := ascii (if success then "Y|" else "N|")

/-- The answers the executed frames should get. -/
def replies (log : List Entry) : List (List UInt8) :=
  log.flatMap fun
    | .action (.execute _ frame success) => [verdict success, frame]
    | _ => []

/-- A callback finds no send in flight and brings nothing behind the first frame it completes. -/
def Quiet (st : Line σ) : LineEvent → Prop
  | .received data => st.inFlight = [] ∧
      ∀ n ∈ declaredSize (st.server.dataBuffer.upTo st.server.dataLength ++ data),
        st.server.dataLength + data.length ≤ n
  | .sent => True

/-! ### One callback -/

/-- Neither a send nor an execution. -/
def Action.Silent : Action → Prop
  | .read _ | .write _ _ | .disconnect => True
  | _ => False

theorem Action.AccessBelow.silent {m : Nat} {a : Action} (h : a.AccessBelow m) : a.Silent := by
  cases a <;> trivial

variable {P} {s : FsUserdata} {p : List UInt8}

/-- Of what a quiet callback does, the answer of a frame comes last, and the buffer still has it. -/
theorem fsDataReceived_quiet (w : World σ) (h : Holds s p) {data : List UInt8}
    (hquiet : ∀ n ∈ declaredSize (p ++ data), p.length + data.length ≤ n) :
    (∀ y ∈ (fsDataReceived P w s data).actions, y.Silent) ∨
    ∃ a b command frame success i v, (fsDataReceived P w s data).actions =
        a ++ [.execute command frame success, .write i v, .sent (verdict success), .sentBuffer frame] ++ b ∧
      (∀ y ∈ a, y.Silent) ∧ (∀ y ∈ b, y = .disconnect ∨ ∃ i, y = .read i) ∧
      (fsDataReceived P w s data).server.dataBuffer.upTo frame.length = frame := by
  by_cases hcopy : min data.length (maxBufferSize - p.length) = 0
  · left
    rw [fsDataReceived_eq, pass_refused h.toContent hcopy]
    intro y hy
    rw [List.mem_singleton.mp hy]
    trivial
  obtain ⟨filled, hfilled⟩ : ∃ filled, filled = p ++ data.take (maxBufferSize - p.length) := ⟨_, rfl⟩
  by_cases hblocked : ∀ n, declaredSize filled = some n → filled.length < n
  · left
    obtain ⟨s', a, refused, -, hreceived, -, haccess⟩ := fsDataReceived_blocked P w h hcopy hfilled hblocked
    rw [hreceived]
    refine List.forall_mem_append.mpr ⟨fun y hy => (haccess y hy).silent, ?_⟩
    cases refused <;> simp [Action.Silent]
  · right
    simp only [not_forall, not_lt] at hblocked
    obtain ⟨n, hsize, hle⟩ := hblocked
    have hall : filled ++ data.drop (maxBufferSize - p.length) = p ++ data := by
      rw [hfilled, List.append_assoc, List.take_append_drop]
    have hlong : p.length + data.length ≤ n :=
      hquiet n (hall ▸ framing.size_append _ hsize)
    have hlen := congrArg List.length hall
    rw [List.length_append, List.length_append] at hlen
    have hrest : data.drop (maxBufferSize - p.length) = [] := List.length_eq_zero_iff.mp (by omega)
    have hn : filled.length = n := by omega
    obtain ⟨s₃, a, s', hpass, -, hcontent, -, -, -, haccess, hbuffer⟩ :=
      pass_frame (P := P) (w := w) h hcopy hfilled hsize hle
    rw [fsDataReceived_eq, hpass, hrest]
    have hmove : FsUserdata.moveActions s₃.dataBuffer.cells n (filled.length - n) = [] := by
      rw [hn, Nat.sub_self]
      rfl
    refine ⟨a ++ ([.read n, .write n 0] ++ reads s₃.readPoint ((frameText (filled.take n)).length + 1)),
      reads 0 n ++ if (executeFrame P w (filled.take n)).1 then [] else [.disconnect],
      s₃.command, filled.take n, (executeFrame P w (filled.take n)).1, n, s₃.peek n, ?_, ?_, ?_, ?_⟩
    · simp only [frameActions, hmove, List.append_nil, List.append_assoc]
      rfl
    · simp only [List.forall_mem_append]
      refine ⟨fun y hy => (haccess y hy).silent, by simp [Action.Silent], fun y hy => ?_⟩
      obtain ⟨i, -, rfl⟩ := mem_reads hy
      trivial
    · refine List.forall_mem_append.mpr ⟨fun y hy => ?_, fun y hy => ?_⟩
      · obtain ⟨i, -, rfl⟩ := mem_reads hy
        exact Or.inr ⟨i, rfl⟩
      · split_ifs at hy
        · cases hy
        · exact Or.inl (List.mem_singleton.mp hy)
    · change s'.dataBuffer.upTo (filled.take n).length = filled.take n
      rw [hbuffer hn, List.take_of_length_le hn.le, hcontent.bytes_eq]

/-! ### Logs -/

theorem delivered_append (l m : List Entry) : delivered (l ++ m) = delivered l ++ delivered m :=
  List.filterMap_append

theorem replies_append (l m : List Entry) : replies (l ++ m) = replies l ++ replies m :=
  List.flatMap_append

theorem references_append (a b : List Action) : references (a ++ b) = references a ++ references b :=
  List.filterMap_append

theorem delivered_actions (a : List Action) : delivered (a.map .action) = [] := by
  rw [delivered, List.filterMap_eq_nil_iff]
  intro entry hentry
  obtain ⟨y, -, rfl⟩ := List.mem_map.mp hentry
  rfl

theorem replies_silent {a : List Action} (h : ∀ y ∈ a, y.Silent) : replies (a.map .action) = [] := by
  rw [replies, List.flatMap_eq_nil_iff]
  intro entry hentry
  obtain ⟨y, hy, rfl⟩ := List.mem_map.mp hentry
  have hsilent := h y hy
  cases y <;> first | rfl | exact hsilent.elim

theorem references_silent {a : List Action} (h : ∀ y ∈ a, y.Silent) : references a = [] := by
  rw [references, List.filterMap_eq_nil_iff]
  intro y hy
  have hsilent := h y hy
  cases y <;> first | rfl | exact hsilent.elim

/-- With nothing in flight there is nothing to change. -/
theorem intact_silent {a : List Action} (h : ∀ y ∈ a, y.Silent) (log : List Entry) :
    Intact [] (a.map .action ++ log) ↔ Intact [] log := by
  induction a with
  | nil => rfl
  | cons y a ih =>
    have hsilent := h y List.mem_cons_self
    have ih := ih fun z hz => h z (List.mem_cons_of_mem y hz)
    cases y with
    | read i => exact ih
    | write i v => exact (and_iff_right fun _ hmem => absurd hmem List.not_mem_nil).trans ih
    | disconnect => exact ih
    | _ => exact hsilent.elim

theorem intact_reads {b : List Action} (h : ∀ y ∈ b, y = .disconnect ∨ ∃ i, y = .read i)
    (sends : List (List UInt8)) (log : List Entry) :
    Intact sends (b.map .action ++ log) ↔ Intact sends log := by
  induction b with
  | nil => rfl
  | cons y b ih =>
    have ih := ih fun z hz => h z (List.mem_cons_of_mem y hz)
    rcases h y List.mem_cons_self with rfl | ⟨i, rfl⟩
    · exact ih
    · exact ih

/-! ### Runs -/

theorem line_sent_nil {st : Line σ} (h : st.inFlight = []) : (line P).step st .sent = (st, []) := by
  simp only [line, h]

theorem line_sent_cons {st : Line σ} {r : Reference} {rest : List Reference} (h : st.inFlight = r :: rest) :
    (line P).step st .sent =
      ({ st with inFlight := rest }, [.delivered (r.bytes st.server.dataBuffer)]) := by
  simp only [line, h]

def Line.Sound (st : Line σ) : Prop := ∃ p, Holds st.server p

theorem line_sound (st : Line σ) (e : LineEvent) (h : st.Sound) : ((line P).next st e).Sound := by
  cases e with
  | received data =>
    obtain ⟨p, hp⟩ := h
    exact ⟨_, (fsDataReceived_spec P st.world hp data).1⟩
  | sent =>
    simp only [Machine.next, line]
    split
    · exact h
    · exact h

/-- The pieces of the answers that are still to be delivered. -/
def Line.outstanding (st : Line σ) : List (List UInt8) :=
  st.inFlight.map fun r => r.bytes st.server.dataBuffer

/-- A quiet callback leaves the answers of the frames it executed in flight, and nothing it writes
comes after a send. -/
theorem received_quiet {st : Line σ} {data : List UInt8} (h : st.Sound) (hquiet : Quiet st (.received data)) :
    replies ((line P).actions st (.received data)) = ((line P).next st (.received data)).outstanding ∧
      ∀ log, (∀ sends, sends.length = ((line P).next st (.received data)).inFlight.length →
        Intact sends log) → Intact [] ((line P).actions st (.received data) ++ log) := by
  obtain ⟨p, hp⟩ := h
  obtain ⟨hnone, hlong⟩ := hquiet
  rw [hp.pending_eq, hp.length_eq] at hlong
  simp only [Machine.actions, Machine.next, line, Line.outstanding, hnone, List.nil_append]
  rcases fsDataReceived_quiet (P := P) st.world hp hlong with
    hsilent | ⟨a, b, command, frame, success, i, v, hactions, ha, hb, hbuffer⟩
  · rw [replies_silent hsilent, references_silent hsilent]
    exact ⟨rfl, fun log hlog => (intact_silent hsilent log).mpr (hlog [] rfl)⟩
  · have hbsilent : ∀ y ∈ b, y.Silent := by
      intro y hy
      rcases hb y hy with rfl | ⟨j, rfl⟩ <;> trivial
    have hreferences : references (fsDataReceived P st.world st.server data).actions =
        [.text (verdict success), .buffer frame.length] := by
      rw [hactions, references_append, references_append, references_silent ha, references_silent hbsilent]
      rfl
    refine ⟨?_, fun log hlog => ?_⟩
    · rw [hreferences, hactions, List.map_append, List.map_append, replies_append, replies_append,
        replies_silent ha, replies_silent hbsilent]
      simp only [List.map_cons, List.map_nil, Reference.bytes, hbuffer]
      rfl
    · rw [hactions, List.map_append, List.map_append, List.append_assoc, List.append_assoc, intact_silent ha]
      have hrest := hlog [[], frame] (by rw [hreferences]; rfl)
      change (∀ bytes ∈ ([] : List (List UInt8)), i < bytes.length → bytes[i]? = some v) ∧
        Intact [[], frame] (b.map .action ++ log)
      exact ⟨fun _ hmem => absurd hmem List.not_mem_nil, (intact_reads hb _ log).mpr hrest⟩

theorem intact_run {st : Line σ} {events : List LineEvent} (h : st.Sound)
    (hquiet : (line P).Along Quiet st events) {sends : List (List UInt8)}
    (hsends : sends.length = st.inFlight.length) : Intact sends ((line P).trace st events) := by
  induction events generalizing st sends with
  | nil => trivial
  | cons e events ih =>
    have hnext := line_sound (P := P) st e h
    rw [Machine.trace_cons]
    cases e with
    | received data =>
      have hempty : sends = [] := List.length_eq_zero_iff.mp (by rw [hsends, hquiet.1.1]; rfl)
      rw [hempty]
      exact (received_quiet h hquiet.1).2 _ fun sends' hsends' => ih hnext hquiet.2 hsends'
    | sent =>
      cases hflight : st.inFlight with
      | nil =>
        have hrest := hquiet.2
        rw [Machine.next, line_sent_nil hflight] at hnext hrest ⊢
        rw [Machine.actions, line_sent_nil hflight]
        exact ih hnext hrest hsends
      | cons r rest =>
        have hrest := hquiet.2
        rw [Machine.next, line_sent_cons hflight] at hnext hrest ⊢
        rw [Machine.actions, line_sent_cons hflight]
        refine ih hnext hrest ?_
        rw [List.length_tail, hsends, hflight]
        rfl

theorem delivered_run {st : Line σ} {events : List LineEvent} (h : st.Sound)
    (hquiet : (line P).Along Quiet st events) :
    st.outstanding ++ replies ((line P).trace st events) =
      delivered ((line P).trace st events) ++ ((line P).final st events).outstanding := by
  induction events generalizing st with
  | nil => simp [replies, delivered]
  | cons e events ih =>
    have ih := ih (line_sound (P := P) st e h) hquiet.2
    rw [Machine.trace_cons, Machine.final_cons, replies_append, delivered_append]
    cases e with
    | received data =>
      have hnone : st.outstanding = [] := by rw [Line.outstanding, hquiet.1.1]; rfl
      have hactions : delivered ((line P).actions st (.received data)) = [] := delivered_actions _
      rw [hnone, hactions, (received_quiet h hquiet.1).1, List.nil_append, List.nil_append, ih]
    | sent =>
      cases hflight : st.inFlight with
      | nil =>
        rw [Machine.next, line_sent_nil hflight] at ih
        rw [Machine.actions, Machine.next, line_sent_nil hflight]
        exact ih
      | cons r rest =>
        rw [Machine.next, line_sent_cons hflight] at ih
        rw [Machine.actions, Machine.next, line_sent_cons hflight]
        have houtstanding : st.outstanding =
            r.bytes st.server.dataBuffer :: Line.outstanding { st with inFlight := rest } := by
          rw [Line.outstanding, hflight]
          rfl
        rw [houtstanding]
        exact congrArg (List.cons (r.bytes st.server.dataBuffer)) ih

/-- Whatever bytes arrive: when no callback finds a send in flight and none brings bytes behind the
frame it completes, no echo is changed before its sent event, and what goes over the wire is the
verdict and the frame of one execution after another. -/
theorem answers_intact_of_quiet (P : Platform σ) (dataBuffer : Block UInt8 maxBufferSize) (w : World σ)
    (events : List LineEvent) (hquiet : (line P).Along Quiet (.initial dataBuffer w) events) :
    Intact [] ((line P).trace (.initial dataBuffer w) events) ∧
      delivered ((line P).trace (.initial dataBuffer w) events) <+:
        replies ((line P).trace (.initial dataBuffer w) events) := by
  have hsound : (Line.initial dataBuffer w).Sound := ⟨[], holds_fresh dataBuffer⟩
  have hdelivered := delivered_run hsound hquiet
  exact ⟨intact_run hsound hquiet rfl, _, hdelivered.symm⟩

/-- A frame cut in two, its answer, and the next frame. -/
theorem answers_intact_of_quiet_two_frames :
    delivered ((line Platform.accepting).trace (.initial (Block.fill _ 0) .initial)
        [.received (ascii "O|1"), .received (ascii "|a"), .sent, .sent, .received (ascii "C|0|"), .sent]) =
      [ascii "Y|", ascii "O|1|a", ascii "Y|"] ∧
    Intact [] ((line Platform.accepting).trace (.initial (Block.fill _ 0) .initial)
        [.received (ascii "O|1"), .received (ascii "|a"), .sent, .sent, .received (ascii "C|0|"), .sent]) :=
  ⟨by decide, (answers_intact_of_quiet Platform.accepting (Block.fill _ 0) .initial
    [.received (ascii "O|1"), .received (ascii "|a"), .sent, .sent, .received (ascii "C|0|"), .sent]
    ⟨⟨rfl, by decide⟩, ⟨rfl, by decide⟩, trivial, trivial, ⟨rfl, by decide⟩, trivial, trivial⟩).1⟩

/-- The data of the receive callbacks of a run. -/
def receivedData (events : List LineEvent) : List (List UInt8) :=
  events.filterMap fun
    | .received data => some data
    | .sent => none

/-- Two frames in one callback: the second is moved over the echo of the first. -/
theorem echo_overwritten :
    ¬ ∀ (frames : List Frame) (events : List LineEvent),
      (∀ data ∈ receivedData events, data ≠ [] ∧ data.length ≤ 65535) →
      (receivedData events).flatten <+: stream frames →
      Intact [] ((line Platform.accepting).trace (.initial (Block.fill _ 0) .initial) events) ∧
        delivered ((line Platform.accepting).trace (.initial (Block.fill _ 0) .initial) events) <+:
          replies ((line Platform.accepting).trace (.initial (Block.fill _ 0) .initial) events) := by
  intro hall
  have hopen : ∃ f : Frame, f.bytes = ascii "O|1|a" :=
    ⟨⟨79, [49], ascii "a", by decide, by decide, List.forall_mem_singleton.mpr (by decide), by decide, by decide⟩,
      by decide⟩
  obtain ⟨f, hf⟩ := hopen
  have hwire := (hall [f, .closing] [.received (ascii "O|1|aC|0|"), .sent, .sent] (by decide)
    (by rw [stream, List.map_cons, hf]; decide)).2
  exact absurd hwire (by decide)

end EspClock.FileServer
