import EspClock.Lib.Run
import EspClock.FileServer.Reassembly

/-!
# Sessions and the bounds of the receive buffer

The callbacks of the SDK in any order and with any bytes: clients connect, send and disconnect, and
only one of them at a time is let in. The length and the read point stay inside the buffer whatever
arrives. The accesses do, too, with one exception: the terminator of a frame that fills the buffer
exactly is written one cell behind it.
-/

namespace EspClock.FileServer

open Mem Decimal Console

/-- The server object, the client let in, the clients whose `reverse` points to the object, and the
globals. -/
structure Session (σ : Type) where
  server : FsUserdata
  client : Option Nat
  reverse : Nat → Bool
  world : World σ

inductive Callback where
  | connected (client : Nat)
  | dataReceived (client : Nat) (data : List UInt8)
  | disconnected (client : Nat)

variable {σ : Type} (P : Platform σ)

/-- `fs_client_connected` -/
def fsClientConnected (st : Session σ) (client : Nat) : Session σ × List Action :=
  if st.client ≠ none then
    ({ st with reverse := fun c => if c = client then false else st.reverse c }, [.disconnect])
  else ({ st with client := some client, reverse := fun c => if c = client then true else st.reverse c }, [])

/-- `fs_client_disconnected`, which is also the reconnect callback. -/
def fsClientDisconnected (st : Session σ) (client : Nat) : Session σ × List Action :=
  if st.reverse client then
    (⟨.fresh st.server.dataBuffer, none, fun c => if c = client then false else st.reverse c,
      closeFile P st.world⟩, [])
  else (st, [])

def sessions : Machine (Session σ) Callback Action :=
  ⟨fun st e =>
    match e with
    | .connected client => fsClientConnected st client
    | .disconnected client => fsClientDisconnected P st client
    | .dataReceived client data =>
      if st.reverse client then
        let out := fsDataReceived P st.world st.server data
        ({ st with server := out.server, world := out.world }, out.actions)
      else (st, [])⟩

/-- The server as `file_server.start` leaves it. -/
def Session.initial (dataBuffer : Block UInt8 maxBufferSize) (w : World σ) : Session σ :=
  ⟨.fresh dataBuffer, none, fun _ => false, w⟩

/-! ### Accesses -/

/-- An access to the buffer has an index inside of it. -/
def Action.InBounds : Action → Prop
  | .read i => i < maxBufferSize
  | .write i _ => i < maxBufferSize
  | _ => True

instance : DecidablePred Action.InBounds := fun a => by
  cases a <;> unfold Action.InBounds <;> infer_instance

theorem Action.AccessBelow.inBounds {m : Nat} {a : Action} (h : a.AccessBelow m) (hm : m ≤ maxBufferSize) :
    a.InBounds := by
  cases a with
  | read i => exact Nat.lt_of_lt_of_le h hm
  | write i v => exact Nat.lt_of_lt_of_le h hm
  | _ => trivial

theorem inBounds_of_reads {start count : Nat} (hle : start + count ≤ maxBufferSize) :
    ∀ y ∈ reads start count, y.InBounds := by
  intro y hy
  obtain ⟨i, hi, rfl⟩ := mem_reads hy
  exact Nat.lt_of_lt_of_le hi hle

/-- The accesses around a frame are in bounds unless its terminator is not. -/
theorem frameActions_inBounds_iff {s : FsUserdata} {t : List UInt8} {n : Nat} (hcontent : Content s t)
    (hle : n ≤ t.length) (hpoint : s.readPoint ≤ n) (hheader : s.readPoint = headerLength (t.take n))
    (success : Bool) :
    (∀ y ∈ frameActions s t n success, y.InBounds) ↔ n < maxBufferSize := by
  have h64 := hcontent.le
  have htext : (frameText (t.take n)).length ≤ n - s.readPoint := by
    rw [frameText, ← hheader]
    refine (List.takeWhile_prefix _).length_le.trans ?_
    rw [List.length_drop, List.length_take]
    omega
  constructor
  · intro hall
    exact hall (.read n) (by simp [frameActions])
  · intro hn y hy
    simp only [frameActions, List.mem_append] at hy
    rcases hy with ((((hy | hy) | hy) | hy) | hy) | hy
    · rcases List.mem_cons.mp hy with rfl | hy
      · exact hn
      · rw [List.mem_singleton.mp hy]
        exact hn
    · exact inBounds_of_reads (by omega) y hy
    · rcases List.mem_cons.mp hy with rfl | hy
      · trivial
      · rcases List.mem_cons.mp hy with rfl | hy
        · exact hn
        · rcases List.mem_cons.mp hy with rfl | hy
          · trivial
          · rw [List.mem_singleton.mp hy]
            trivial
    · exact inBounds_of_reads (by omega) y hy
    · cases success with
      | true => simp at hy
      | false =>
        rw [List.mem_singleton.mp hy]
        trivial
    · exact (mem_moveActions hy).inBounds (by omega)

/-- The accesses of a callback are in bounds exactly when it executes no frame of the size of the
buffer. -/
theorem fsDataReceived_inBounds_iff {s : FsUserdata} {p : List UInt8} (w : World σ) (h : Holds s p)
    (data : List UInt8) :
    (∀ y ∈ (fsDataReceived P w s data).actions, y.InBounds) ↔
      ¬ ∃ f ∈ (framing.absorb maxBufferSize p data).frames, f.length = maxBufferSize := by
  induction hlen : data.length using Nat.strong_induction_on generalizing data w s p with
  | _ len ih =>
  subst hlen
  have hple := h.le
  by_cases hcopy : min data.length (maxBufferSize - p.length) = 0
  · rw [Framing.absorb_stuck hcopy, fsDataReceived_eq, pass_refused h.toContent hcopy]
    exact iff_of_true (by simp [Action.InBounds]) (by simp)
  obtain ⟨filled, hfilled⟩ : ∃ filled, filled = p ++ data.take (maxBufferSize - p.length) := ⟨_, rfl⟩
  have hfilledle : filled.length ≤ maxBufferSize := by
    rw [hfilled, List.length_append, List.length_take]
    omega
  by_cases hblocked : ∀ n, declaredSize filled = some n → filled.length < n
  · obtain ⟨s', a, refused, habsorb, hreceived, -, haccess⟩ :=
      fsDataReceived_blocked P w h hcopy hfilled hblocked
    rw [habsorb, hreceived]
    refine iff_of_true (List.forall_mem_append.mpr ⟨?_, ?_⟩) (by simp)
    · exact fun y hy => (haccess y hy).inBounds hfilledle
    · cases refused <;> simp [Action.InBounds]
  · simp only [not_forall, not_lt] at hblocked
    obtain ⟨n, hsize, hle⟩ := hblocked
    obtain ⟨s₃, a, s', hpass, hholds, hcontent, hheader, hpoint, -, haccess, -⟩ :=
      pass_frame (P := P) (w := w) h hcopy hfilled hsize hle
    have hframe := frameActions_inBounds_iff hcontent hle hpoint
      (hheader.trans (headerLength_take hsize hle).symm) (executeFrame P w (filled.take n)).1
    have hcopied : ∀ y ∈ a, y.InBounds := fun y hy => (haccess y hy).inBounds hfilledle
    have hlength : (filled.take n).length = n := by rw [List.length_take, Nat.min_eq_left hle]
    cases hrest : data.drop (maxBufferSize - p.length) with
    | nil =>
      rw [Framing.absorb_complete_last hcopy hfilled hsize hle hrest, fsDataReceived_eq, hpass, hrest]
      simp only [List.forall_mem_append, hframe, List.mem_singleton, exists_eq_left, hlength]
      constructor
      · rintro ⟨-, hlt⟩
        omega
      · intro hne
        exact ⟨hcopied, by omega⟩
    | cons byte bytes =>
      have hshort : (byte :: bytes).length < data.length := by
        rw [← hrest, List.length_drop]
        omega
      have ih := ih _ hshort (executeFrame P w (filled.take n)).2 hholds (byte :: bytes) rfl
      rw [Framing.absorb_complete hcopy hfilled hsize hle hrest.symm (List.cons_ne_nil _ _),
        fsDataReceived_eq, hpass, hrest]
      simp only [List.forall_mem_append, hframe, ih, List.mem_cons, exists_eq_or_imp, hlength, not_or]
      constructor
      · rintro ⟨⟨-, hlt⟩, hrest⟩
        exact ⟨by omega, hrest⟩
      · rintro ⟨hne, hrest⟩
        exact ⟨⟨hcopied, by omega⟩, hrest⟩

/-! ### Runs -/

/-- The length and the read point are inside the buffer. -/
def Session.Bounded (st : Session σ) : Prop :=
  st.server.dataLength ≤ maxBufferSize ∧ st.server.readPoint ≤ st.server.dataLength

/-- The bytes in the buffer. -/
def Session.pending (st : Session σ) : List UInt8 := st.server.dataBuffer.upTo st.server.dataLength

/-- The callback completes no frame that fills the buffer exactly. -/
def NoFullFrame (st : Session σ) : Callback → Prop
  | .dataReceived client data =>
    st.reverse client = true → ¬ framing.Fills maxBufferSize (st.pending ++ data)
  | _ => True

/-- The server's fields follow from the bytes in the buffer, and a full buffer has no complete frame. -/
def Session.Consistent (st : Session σ) : Prop :=
  ∃ p, Holds st.server p ∧ framing.Settled maxBufferSize p

theorem Holds.readPoint_le {s : FsUserdata} {p : List UInt8} (h : Holds s p) :
    s.readPoint ≤ s.dataLength := by
  have hparsed := h.parsed
  have hlength := h.length_eq
  unfold Parsed at hparsed
  cases hstate : s.state with
  | noCommand =>
    rw [hstate] at hparsed
    omega
  | noSize =>
    rw [hstate] at hparsed
    obtain ⟨hpoint, c, x, body, rfl, -⟩ := hparsed
    rw [List.length_cons, List.length_cons] at hlength
    omega
  | noData =>
    rw [hstate] at hparsed
    obtain ⟨c, x, body, k, rfl, -, -, hfind, hpoint, -⟩ := hparsed
    obtain ⟨hk, -⟩ := List.findIdx?_eq_some_iff_getElem.mp hfind
    rw [List.length_cons, List.length_cons] at hlength
    omega

theorem Session.Consistent.bounded {st : Session σ} (h : st.Consistent) : st.Bounded := by
  obtain ⟨p, hholds, -⟩ := h
  exact ⟨hholds.length_eq ▸ hholds.le, hholds.readPoint_le⟩

theorem consistent_fresh (dataBuffer : Block UInt8 maxBufferSize) :
    ∃ p, Holds (.fresh dataBuffer) p ∧ framing.Settled maxBufferSize p :=
  ⟨[], holds_fresh dataBuffer, Or.inl (by decide)⟩

/-- Any callback keeps the server consistent. -/
theorem sessions_consistent (st : Session σ) (e : Callback) (h : st.Consistent) :
    ((sessions P).next st e).Consistent := by
  cases e with
  | connected client =>
    change (fsClientConnected st client).1.Consistent
    unfold fsClientConnected
    split
    · exact h
    · exact h
  | disconnected client =>
    change (fsClientDisconnected P st client).1.Consistent
    unfold fsClientDisconnected
    split
    · exact consistent_fresh _
    · exact h
  | dataReceived client data =>
    simp only [Machine.next, sessions]
    split
    · obtain ⟨p, hholds, hsettled⟩ := h
      exact ⟨_, (fsDataReceived_spec P st.world hholds data).1, (Framing.absorb_fills p data hsettled).2⟩
    · exact h

/-- A callback accesses the buffer within its bounds exactly when it completes no full frame. -/
theorem actions_inBounds_iff (st : Session σ) (e : Callback) (h : st.Consistent) :
    (∀ a ∈ (sessions P).actions st e, a.InBounds) ↔ NoFullFrame st e := by
  cases e with
  | connected client =>
    change (∀ a ∈ (fsClientConnected st client).2, a.InBounds) ↔ True
    unfold fsClientConnected
    split <;> simp [Action.InBounds]
  | disconnected client =>
    change (∀ a ∈ (fsClientDisconnected P st client).2, a.InBounds) ↔ True
    unfold fsClientDisconnected
    split <;> simp
  | dataReceived client data =>
    obtain ⟨p, hholds, hsettled⟩ := h
    simp only [Machine.actions, sessions, NoFullFrame]
    cases hreverse : st.reverse client with
    | false => simp
    | true =>
      simp only [if_true, true_implies]
      rw [fsDataReceived_inBounds_iff P st.world hholds data, (Framing.absorb_fills p data hsettled).1,
        Session.pending, hholds.pending_eq]

/-- For any callbacks, lengths and bytes, the length and the read point stay inside the buffer and
every access has an index below its size, exactly when no callback completes a full frame. -/
theorem buffer_safe_iff (P : Platform σ) (dataBuffer : Block UInt8 maxBufferSize) (w : World σ)
    (callbacks : List Callback) :
    ((sessions P).Always Session.Bounded (.initial dataBuffer w) callbacks ∧
      ∀ a ∈ (sessions P).trace (.initial dataBuffer w) callbacks, a.InBounds) ↔
    (sessions P).Along NoFullFrame (.initial dataBuffer w) callbacks := by
  have hinit : (Session.initial dataBuffer w).Consistent := consistent_fresh dataBuffer
  have halways : (sessions P).Always Session.Consistent (.initial dataBuffer w) callbacks :=
    Machine.always_of_forall_step (sessions_consistent P) hinit callbacks
  rw [Machine.forall_trace_iff, and_iff_right (halways.mono fun _ h => h.bounded)]
  exact Machine.along_iff_of_step (I := Session.Consistent) (sessions_consistent P)
    (actions_inBounds_iff P) hinit callbacks

/-- A frame of 64 bytes: its terminator goes to the cell behind the buffer. -/
theorem terminator_out_of_bounds :
    ¬ ∀ (dataBuffer : Block UInt8 maxBufferSize) (callbacks : List Callback),
      (sessions Platform.accepting).Always Session.Bounded (.initial dataBuffer .initial) callbacks ∧
        ∀ a ∈ (sessions Platform.accepting).trace (.initial dataBuffer .initial) callbacks, a.InBounds := by
  intro hall
  have hsafe := (hall (Block.fill _ 0)
    [.connected 0, .dataReceived 0 (ascii "W|59|" ++ List.replicate 59 97)]).2 (.write 64 0) (by decide)
  exact absurd hsafe (by decide)

end EspClock.FileServer
