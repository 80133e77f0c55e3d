import EspClock.FileServer.Frames
import EspClock.Upload.Client

/-!
# A transfer between the client and the server

The client's main loop and the server's receive callback over a reliable connection: the bytes on their
way form two queues, a callback or a `recv` takes any number of them from the front, and callbacks and
rounds of the loop come in any order. `espconn_disconnect` only schedules a close, so it leaves the
queues as they are.

At any time one command at most is on its way. `Transfer` lists the three situations there are: nothing
is on its way, a command is, or its reply is. Every event leads from one of them to one of them, with the
frames executed by the server in the order of the queue.
-/

namespace EspClock.Upload

open Mem Decimal FileServer

structure Net (σ : Type) where
  client : Client
  server : FsUserdata
  world : World σ
  toServer : List UInt8
  toClient : List UInt8

inductive Event where
  /-- A receive callback with the next bytes. -/
  | callback (count : Nat)
  /-- A round of the client's loop; `recv` gets the next bytes, if any have arrived. -/
  | round (count : Nat) (writable : Bool)

/-- The bytes handed to `espconn_sent`. -/
def sentBytes (actions : List Action) : List UInt8 :=
  actions.flatMap fun
    | .sent text => text
    | .sentBuffer bytes => bytes
    | _ => []

def recvSize : Nat := 4096

variable {σ : Type} (P : Platform σ)

namespace Net

def callback (n : Net σ) (count : Nat) : Net σ × List Action :=
  if n.toServer.take count = [] then (n, [])
  else
    let out := fsDataReceived P n.world n.server (n.toServer.take count)
    ({ n with
        server := out.server
        world := out.world
        toServer := n.toServer.drop count
        toClient := n.toClient ++ sentBytes out.actions },
      out.actions)

def round (n : Net σ) (count : Nat) (writable : Bool) : Net σ :=
  if n.client.Running then
    let count := min count recvSize
    let data := n.toClient.take count
    let (client, bytes) := Upload.round n.client (if data = [] then none else some data) writable
    { n with client := client, toServer := n.toServer ++ bytes, toClient := n.toClient.drop count }
  else n

/-- The client in front of its loop and the server behind a fresh connection. -/
def initial (baseName text : List UInt8) (dataBuffer : Block UInt8 maxBufferSize) (w : World σ) : Net σ :=
  ⟨.initial (prepareFile packetSize baseName text), .fresh dataBuffer, w, [], []⟩

end Net

def network : Machine (Net σ) Event Action :=
  ⟨fun n e =>
    match e with
    | .callback count => n.callback P count
    | .round count writable => (n.round count writable, [])⟩

/-! ### Packets as frames -/

/-- A packet the buffer of the server has room for, with its terminator. -/
def Sendable (text : List UInt8) : Prop :=
  ∃ letter payload, letter ∈ ascii "OWCG" ∧ payload.length ≤ 58 ∧ text = packet letter payload

/-- A packet as a frame of the server. -/
def packetFrame (letter : UInt8) (payload : List UInt8) (hletter : letter ∈ ascii "OWCG")
    (hshort : payload.length ≤ 58) : Frame where
  letter := letter
  digits := print payload.length
  payload := payload
  letter_known := hletter
  digits_ne_nil := print_ne_nil _
  digits_decimal := fun _ hc => isDigit_of_mem_print hc
  size_eq := value_print _
  short := by
    have := length_print_le_two (n := payload.length) (by omega)
    omega

theorem Sendable.fits {text : List UInt8} (h : Sendable text) :
    framing.Fits maxBufferSize [text] := by
  obtain ⟨letter, payload, hletter, hshort, rfl⟩ := h
  exact fits_frames [packetFrame letter payload hletter hshort]

theorem sendable_packet {letter : UInt8} {payload : List UInt8} (hletter : letter ∈ ascii "OWCG")
    (hshort : payload.length ≤ 58) : Sendable (packet letter payload) :=
  ⟨letter, payload, hletter, hshort, rfl⟩

theorem length_removeCommand {baseName : List UInt8} (hname : baseName.length ≤ fsNameMaxLength) :
    (removeCommand baseName).length ≤ 58 := by
  have hcall : (ascii "file.remove(\"").length = 13 := rfl
  have hlc : (ascii "lc").length = 2 := rfl
  have hclose : (ascii "\")").length = 2 := rfl
  rw [removeCommand, List.length_append, List.length_append, List.length_append, hcall, hlc, hclose,
    List.length_take]
  rw [fsNameMaxLength] at hname
  omega

theorem sendable_prepared {baseName : List UInt8} (hname : baseName.length ≤ fsNameMaxLength)
    (text : List UInt8) : ∀ t ∈ preparedTexts packetSize baseName text, Sendable t := by
  have hbase : baseName.length ≤ 58 := le_trans hname (by decide)
  intro t ht
  rw [preparedTexts, List.mem_cons, List.mem_cons, List.mem_append, List.mem_map, List.mem_singleton] at ht
  obtain rfl | rfl | ⟨c, hc, rfl⟩ | rfl := ht
  · exact sendable_packet (by decide) hbase
  · exact sendable_packet (by decide) (length_removeCommand hname)
  · exact sendable_packet (by decide)
      (le_trans (length_le_of_mem_chunks (by decide) hc) (by decide))
  · exact sendable_packet (by decide) hbase

/-! ### The server on one frame -/

section Server

variable {P} {w : World σ} {server : FsUserdata} {p data text : List UInt8}

theorem sentBytes_visible (actions : List Action) : sentBytes (visible actions) = sentBytes actions := by
  induction actions with
  | nil => rfl
  | cons a as ih => cases a <;> simp_all [sentBytes, visible]

/-- What `absorb` does with the next part of a frame. -/
theorem absorb_part (hfits : framing.Fits maxBufferSize [text]) (hdata : data ≠ [])
    (hpart : p ++ data <+: text) :
    (framing.absorb maxBufferSize p data).refused = false ∧
      (p ++ data ≠ text → (framing.absorb maxBufferSize p data).frames = [] ∧
        (framing.absorb maxBufferSize p data).pending = p ++ data) ∧
      (p ++ data = text → (framing.absorb maxBufferSize p data).frames = [text] ∧
        (framing.absorb maxBufferSize p data).pending = []) := by
  have hshort := (hfits text List.mem_cons_self).2
  have hle := hpart.length_le
  rw [List.length_append] at hle
  have hdatalen : 0 < data.length := List.length_pos_iff.mpr hdata
  obtain ⟨hframes, hbytes, -, hrefused⟩ :=
    Framing.absorb_fits hfits (show p.length < maxBufferSize by omega) hdata (by simpa using hpart)
  rw [List.map_cons, List.map_nil, Framing.handedOver, Framing.handedOver] at hframes
  refine ⟨hrefused, ?_, ?_⟩
  · intro hne
    have hlt : p.length + data.length < text.length := by
      rw [← List.length_append]
      exact lt_of_le_of_ne hpart.length_le fun h => hne (hpart.eq_of_length h)
    rw [if_pos hlt] at hframes
    refine ⟨hframes, ?_⟩
    rw [hbytes, hframes]
    rfl
  · intro heq
    have hlen : p.length + data.length = text.length := by rw [← List.length_append, heq]
    rw [if_neg (by omega), if_pos (by omega)] at hframes
    refine ⟨hframes, ?_⟩
    rw [hframes, heq] at hbytes
    simpa using hbytes

/-- A callback with a part of a frame that leaves the frame incomplete. -/
theorem fsDataReceived_part (w : World σ) (h : Holds server p) (hfits : framing.Fits maxBufferSize [text])
    (hdata : data ≠ []) (hpart : p ++ data <+: text) (hne : p ++ data ≠ text) :
    Holds (fsDataReceived P w server data).server (p ++ data) ∧
      (fsDataReceived P w server data).world = w ∧
      visible (fsDataReceived P w server data).actions = [] := by
  obtain ⟨hrefused, hincomplete, -⟩ := absorb_part hfits hdata hpart
  obtain ⟨hframes, hpending⟩ := hincomplete hne
  have hspec := fsDataReceived_spec P w h data
  rw [hframes, hpending, hrefused] at hspec
  exact hspec

/-- A callback with the rest of a frame. -/
theorem fsDataReceived_rest (w : World σ) (h : Holds server p) (hfits : framing.Fits maxBufferSize [text])
    (hdata : data ≠ []) (heq : p ++ data = text) :
    Holds (fsDataReceived P w server data).server [] ∧
      (fsDataReceived P w server data).world = (executeFrame P w text).2 ∧
      visible (fsDataReceived P w server data).actions = exchange text (executeFrame P w text).1 := by
  obtain ⟨hrefused, -, hcomplete⟩ := absorb_part hfits hdata ⟨[], by rw [List.append_nil, heq]⟩
  obtain ⟨hframes, hpending⟩ := hcomplete heq
  have hspec := fsDataReceived_spec P w h data
  rw [hframes, hpending, hrefused] at hspec
  refine ⟨hspec.1, hspec.2.1, hspec.2.2.trans ?_⟩
  simp [serve]

end Server

/-! ### The situations of a transfer -/

/-- A text as the server lists it among the executed frames. -/
def asFrame (text : List UInt8) : FsCommand × List UInt8 := (commandOf (text.headD 0), text)

/-- The server executes every frame with success. -/
def Accepted : World σ → List (List UInt8) → Prop
  | _, [] => True
  | w, t :: ts => (executeFrame P w t).1 = true ∧ Accepted (executeFrame P w t).2 ts

/-- The situations of a transfer of `texts`, with the actions of the server so far. -/
inductive Transfer (w : World σ) (texts : List (List UInt8)) : Net σ → List Action → Prop
  | idle {done todo : List (List UInt8)} {spin : Bool} {server : FsUserdata} {actions : List Action}
      (split : done ++ todo = texts) (ends : spin = false ↔ todo = []) (pending : Holds server [])
      (shown : executed actions = done.map asFrame) :
      Transfer w texts ⟨.atRest done todo spin, server, (serve P w done).1, [], []⟩ actions
  | sent {done todo : List (List UInt8)} {text p rest : List UInt8} {server : FsUserdata}
      {actions : List Action} (split : done ++ text :: todo = texts) (pending : Holds server p)
      (parts : p ++ rest = text) (travels : rest ≠ []) (shown : executed actions = done.map asFrame) :
      Transfer w texts ⟨.waiting done text todo [], server, (serve P w done).1, rest, []⟩ actions
  | answered {done todo : List (List UInt8)} {text buffer rest : List UInt8} {server : FsUserdata}
      {actions : List Action} (split : done ++ text :: todo = texts) (pending : Holds server [])
      (parts : buffer ++ rest = ascii "Y|" ++ text) (travels : rest ≠ [])
      (shown : executed actions = (done ++ [text]).map asFrame) :
      Transfer w texts ⟨.waiting done text todo buffer, server, (serve P w (done ++ [text])).1, [], rest⟩ actions

section Steps

variable {P} {w : World σ} {texts : List (List UInt8)} {n : Net σ} {actions : List Action}

theorem Accepted.executeFrame {done todo : List (List UInt8)} {text : List UInt8}
    (h : Accepted P w (done ++ text :: todo)) : (executeFrame P (serve P w done).1 text).1 = true := by
  induction done generalizing w with
  | nil => exact h.1
  | cons t ts ih => exact ih h.2

theorem serve_concat (done : List (List UInt8)) (text : List UInt8) :
    (serve P w (done ++ [text])).1 = (FileServer.executeFrame P (serve P w done).1 text).2 := by
  rw [serve_append]
  rfl

theorem executed_exchange_asFrame (text : List UInt8) (success : Bool) :
    executed (exchange text success) = [asFrame text] := by
  cases success <;> rfl

/-- A callback takes a part of the command that is on its way, if one is; with its last byte the frame
is executed and the reply sets off. -/
theorem Transfer.callback (hsend : ∀ t ∈ texts, Sendable t) (haccept : Accepted P w texts)
    (h : Transfer P w texts n actions) (count : Nat) :
    Transfer P w texts (n.callback P count).1 (actions ++ (n.callback P count).2) := by
  rw [Net.callback]
  by_cases hdata : n.toServer.take count = []
  · rw [if_pos hdata, List.append_nil]
    exact h
  · rw [if_neg hdata]
    cases h with
    | idle split ends pending shown => exact absurd List.take_nil hdata
    | answered split pending parts travels shown => exact absurd List.take_nil hdata
    | @sent done todo text p rest server actions split pending parts travels shown =>
      dsimp only at hdata ⊢
      have hfits : framing.Fits maxBufferSize [text] := (hsend text (by rw [← split]; simp)).fits
      have hparts : p ++ rest.take count ++ rest.drop count = text := by
        rw [List.append_assoc, List.take_append_drop, parts]
      by_cases hleft : rest.drop count = []
      · have hwhole : p ++ rest.take count = text := by rw [← hparts, hleft, List.append_nil]
        obtain ⟨hholds, hworld, hvisible⟩ :=
          fsDataReceived_rest (P := P) (serve P w done).1 pending hfits hdata hwhole
        rw [Accepted.executeFrame (split ▸ haccept)] at hvisible
        have hbytes : sentBytes (fsDataReceived P (serve P w done).1 server (rest.take count)).actions =
            ascii "Y|" ++ text := by
          rw [← sentBytes_visible, hvisible]
          simp [sentBytes, exchange]
        rw [hleft, hworld, ← serve_concat, hbytes]
        refine .answered split hholds rfl (by simp [ascii]) ?_
        rw [executed_append, shown, ← executed_visible, hvisible, executed_exchange_asFrame, List.map_append]
        rfl
      · have hpart : p ++ rest.take count <+: text := ⟨_, hparts⟩
        have hne : p ++ rest.take count ≠ text := by
          intro heq
          exact hleft (List.append_right_eq_self.mp (hparts.trans heq.symm))
        obtain ⟨hholds, hworld, hvisible⟩ :=
          fsDataReceived_part (P := P) (serve P w done).1 pending hfits hdata hpart hne
        have hbytes : sentBytes (fsDataReceived P (serve P w done).1 server (rest.take count)).actions = [] := by
          rw [← sentBytes_visible, hvisible]
          rfl
        rw [hworld, hbytes]
        refine .sent split hholds hparts hleft ?_
        rw [executed_append, shown, ← executed_visible, hvisible]
        exact List.append_nil _

/-- The part of a round that a readable socket enters: the client takes a part of the reply, and with its
last byte the command is confirmed. -/
theorem Transfer.receives (hsend : ∀ t ∈ texts, Sendable t) (h : Transfer P w texts n actions) {count : Nat}
    (hdata : n.toClient.take count ≠ []) :
    Transfer P w texts
      { n with client := receive n.client (n.toClient.take count), toClient := n.toClient.drop count }
      actions := by
  cases h with
  | idle split ends pending shown => exact absurd List.take_nil hdata
  | sent split pending parts travels shown => exact absurd List.take_nil hdata
  | @answered done todo text buffer rest server actions split pending parts travels shown =>
    dsimp only at hdata ⊢
    obtain ⟨letter, payload, -, -, rfl⟩ := hsend text (by rw [← split]; simp)
    have hparts : buffer ++ rest.take count ++ rest.drop count = reply letter payload := by
      rw [List.append_assoc, List.take_append_drop, parts]
      rfl
    by_cases hleft : rest.drop count = []
    · have hwhole : buffer ++ rest.take count = reply letter payload := by
        rw [← hparts, hleft, List.append_nil]
      rw [hleft, receive_complete done todo hwhole]
      refine .idle ?_ ?_ pending shown
      · rw [← split, List.append_assoc]
        rfl
      · rw [decide_eq_false_iff_not, not_ne_iff]
    · have hshort : (buffer ++ rest.take count).length < (reply letter payload).length := by
        have hleftlen : 0 < (rest.drop count).length := List.length_pos_iff.mpr hleft
        have hlen := congrArg List.length hparts
        rw [List.length_append] at hlen
        omega
      rw [receive_part done todo ⟨_, hparts⟩ hshort]
      exact .answered split pending hparts hleft shown

/-- The part of a round that a writable socket enters: the next command sets off once the one before it
is confirmed. -/
theorem Transfer.sends (hsend : ∀ t ∈ texts, Sendable t) (h : Transfer P w texts n actions) :
    Transfer P w texts
      { n with client := (send n.client).1, toServer := n.toServer ++ (send n.client).2 } actions := by
  cases h with
  | @idle done todo spin server actions split ends pending shown =>
    cases todo with
    | nil =>
      dsimp only
      rw [send_atRest_nil]
      exact .idle split ends pending shown
    | cons text todo =>
      obtain rfl : spin = true := by
        rw [← Bool.not_eq_false, ends]
        exact List.cons_ne_nil _ _
      have htext : text ≠ [] := by
        obtain ⟨letter, payload, -, -, rfl⟩ := hsend text (by rw [← split]; simp)
        exact List.cons_ne_nil _ _
      dsimp only
      rw [send_atRest_cons]
      exact .sent split pending rfl htext shown
  | sent split pending parts travels shown =>
    dsimp only
    rw [send_waiting, List.append_nil]
    exact .sent split pending parts travels shown
  | answered split pending parts travels shown =>
    dsimp only
    rw [send_waiting]
    exact .answered split pending parts travels shown

theorem Transfer.raised (h : Transfer P w texts n actions) : n.client.raised = none := by
  cases h <;> rfl

theorem Transfer.round (hsend : ∀ t ∈ texts, Sendable t) (h : Transfer P w texts n actions) (count : Nat)
    (writable : Bool) : Transfer P w texts (n.round count writable) actions := by
  have hend : ∀ {m : Net σ}, Transfer P w texts m actions →
      Transfer P w texts
        { m with
          client := (if m.client.raised.isSome ∨ writable = false then (m.client, []) else send m.client).1
          toServer := m.toServer ++
            (if m.client.raised.isSome ∨ writable = false then (m.client, []) else send m.client).2 }
        actions := by
    intro m hm
    by_cases hstop : m.client.raised.isSome ∨ writable = false
    · rw [if_pos hstop, List.append_nil]
      exact hm
    · rw [if_neg hstop]
      exact hm.sends hsend
  rw [Net.round]
  by_cases hrun : n.client.Running
  · rw [if_pos hrun]
    by_cases hdata : n.toClient.take (min count recvSize) = []
    · have hdrop : n.toClient.drop (min count recvSize) = n.toClient := by
        have := List.take_append_drop (min count recvSize) n.toClient
        rwa [hdata, List.nil_append] at this
      simp only [hdata, hdrop]
      exact hend h
    · simp only [hdata]
      exact hend (h.receives hsend hdata)
  · rw [if_neg hrun]
    exact h

theorem transfer_run (hsend : ∀ t ∈ texts, Sendable t) (haccept : Accepted P w texts)
    (h : Transfer P w texts n actions) (events : List Event) :
    Transfer P w texts ((network P).final n events) (actions ++ (network P).trace n events) := by
  refine Machine.final_trace_of_step ?_ h events
  intro m e as hm
  cases e with
  | callback count => exact hm.callback hsend haccept count
  | round count writable =>
    have hround := hm.round hsend count writable
    rw [← List.append_nil as] at hround
    exact hround

/-! ### What the situations have in common -/

theorem Transfer.countStatus_sent_le (h : Transfer P w texts n actions) :
    countStatus .sent n.client.commands ≤ 1 := by
  cases h with
  | idle => simp [countStatus_atRest]
  | sent => simp [countStatus_waiting]
  | answered => simp [countStatus_waiting]

theorem Transfer.executed_eq (h : Transfer P w texts n actions) :
    ∃ k, executed actions = (texts.take k).map asFrame ∧ k ≤ texts.length ∧
      (k = countStatus .confirmed n.client.commands ∨ k = countStatus .confirmed n.client.commands + 1) := by
  cases h with
  | @idle done todo spin server actions split ends pending shown =>
    refine ⟨done.length, ?_, ?_, Or.inl ?_⟩
    · rw [shown, ← split, List.take_left' rfl]
    · rw [← split]
      exact (List.prefix_append done _).length_le
    · simp [countStatus_atRest]
  | @sent done todo text p rest server actions split pending parts travels shown =>
    refine ⟨done.length, ?_, ?_, Or.inl ?_⟩
    · rw [shown, ← split, List.take_left' rfl]
    · rw [← split]
      exact (List.prefix_append done _).length_le
    · simp [countStatus_waiting]
  | @answered done todo text buffer rest server actions split pending parts travels shown =>
    have hsplit : (done ++ [text]) ++ todo = texts := by
      rw [← split, List.append_assoc]
      rfl
    refine ⟨(done ++ [text]).length, ?_, ?_, Or.inr ?_⟩
    · rw [shown, ← hsplit, List.take_left' rfl]
    · rw [← hsplit]
      exact (List.prefix_append _ todo).length_le
    · simp [countStatus_waiting]

/-- Behind the loop every frame is executed. -/
theorem Transfer.complete (h : Transfer P w texts n actions) (hspin : n.client.spin = false) :
    executed actions = texts.map asFrame ∧ n.world = (serve P w texts).1 := by
  cases h with
  | @idle done todo spin server actions split ends pending shown =>
    obtain rfl : todo = [] := ends.mp hspin
    rw [List.append_nil] at split
    exact ⟨split ▸ shown, split ▸ rfl⟩
  | sent => cases hspin
  | answered => cases hspin

end Steps

theorem transfer_initial {P : Platform σ} (baseName text : List UInt8) (dataBuffer : Block UInt8 maxBufferSize)
    (w : World σ) :
    Transfer P w (preparedTexts packetSize baseName text) (.initial baseName text dataBuffer w) [] :=
  .idle (P := P) (w := w) (List.nil_append _) (iff_of_false Bool.noConfusion (List.cons_ne_nil _ _))
    (holds_fresh dataBuffer) rfl

end EspClock.Upload
