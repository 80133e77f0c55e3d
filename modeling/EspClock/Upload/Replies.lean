import EspClock.Lib.Run
import EspClock.Upload.Transfer

/-!
# The replies in the buffer of the client

`process_packet` on a stream of replies, however `recv` cuts it: a reply is taken out of the buffer as soon as all of it
is there. The bytes of a payload are not looked at, since the search for the separator starts behind the prefix and ends
in front of the payload.
-/

namespace EspClock.Upload

open Decimal

/-- A well-formed reply to a frame: confirmed or refused, with the letter of the frame, its size field and its payload. -/
structure Reply where
  confirmed : Bool
  letter : UInt8
  digits : List UInt8
  payload : List UInt8
  digits_ne_nil : digits ≠ []
  digits_decimal : ∀ c ∈ digits, IsDigit c
  size_eq : value digits = payload.length

/-- The two bytes of the verdict, the letter and a separator. -/
def Reply.start (r : Reply) : List UInt8 := (if r.confirmed then ascii "Y|" else ascii "N|") ++ [r.letter, 124]

def Reply.bytes (r : Reply) : List UInt8 := r.start ++ (r.digits ++ 124 :: r.payload)

/-! ### What a call does -/

/-- A call of `process_packet` is entered, `int` gets a field, a reply is cut off the buffer. -/
inductive ParserAction where
  | entered
  | int (field : List UInt8)
  | extracted (reply : List UInt8)
  deriving DecidableEq

/-- The body of `process_packet` with what it does. -/
def processTraced : Nat → Client → Client × List ParserAction
  | 0, c => (c, [])
  | fuel + 1, c =>
    if 4 < c.buffer.length then
      match find c.buffer 124 4 with
      | none => (c, [.entered])
      | some index =>
        let field := (c.buffer.take index).drop 4
        match int? field with
        | none => ({ c with raised := some .invalidLiteral }, [.entered, .int field])
        | some size =>
          if index + size < c.buffer.length then
            let stop := sliceIndex c.buffer.length (index + size + 1)
            let payload := c.buffer.take stop
            let rest := c.buffer.drop stop
            let (commands, allowed, failed) := settle payload c.commands
            let c' := { c with buffer := rest, commands := commands, allowSend := c.allowSend || allowed }
            let log : List ParserAction := [.entered, .int field, .extracted payload]
            if failed then ({ c' with raised := some (.transportFailure payload) }, log)
            else if 0 < rest.length then
              if rest.length < c.buffer.length then ((processTraced fuel c').1, log ++ (processTraced fuel c').2)
              else ({ c' with raised := some .recursionLimit }, log)
            else (c', log)
          else (c, [.entered, .int field])
    else (c, [.entered])

theorem processTraced_fst (fuel : Nat) (c : Client) : (processTraced fuel c).1 = processWith fuel c := by
  induction fuel generalizing c with
  | zero => rfl
  | succ fuel ih =>
    rw [processTraced, processWith]
    split_ifs
    · cases find c.buffer 124 4 with
      | none => rfl
      | some index =>
        dsimp only
        cases int? ((c.buffer.take index).drop 4) with
        | none => rfl
        | some size =>
          dsimp only
          split_ifs
          · rfl
          · exact ih _
          · rfl
          · rfl
          · rfl
    · rfl

/-- The field of a call of `int`. -/
def intField : ParserAction → Option (List UInt8)
  | .int field => some field
  | _ => none

/-- The reply that is cut off. -/
def extractedReply : ParserAction → Option (List UInt8)
  | .extracted reply => some reply
  | _ => none

/-! ### One reply -/

section Reply

variable {c : Client} {r : Reply} {rest future more : List UInt8}

/-- What a call does that extracts a reply. -/
def Reply.extraction (r : Reply) : List ParserAction := [.entered, .int r.digits, .extracted r.bytes]

theorem Reply.count_extraction (r : Reply) : r.extraction.count .entered = 1 := rfl

theorem Reply.length_bytes (r : Reply) : r.bytes.length = 4 + r.digits.length + r.payload.length + 1 := by
  have hstart : r.start.length = 4 := by
    rw [start, List.length_append]
    cases r.confirmed <;> rfl
  rw [bytes, List.length_append, hstart, List.length_append, List.length_cons]
  omega

theorem Reply.drop_bytes (r : Reply) (more : List UInt8) :
    (r.bytes ++ more).drop 4 = r.digits ++ 124 :: (r.payload ++ more) := by
  have hstart : r.start.length = 4 := by
    rw [start, List.length_append]
    cases r.confirmed <;> rfl
  rw [bytes, List.append_assoc, List.append_assoc, List.drop_left' hstart, List.cons_append]

/-- `int` reads the size field of a reply. -/
theorem Reply.int?_digits (r : Reply) : int? r.digits = some (r.payload.length : Int) := by
  rw [int?_of_digits r.digits_ne_nil r.digits_decimal, r.size_eq]

/-- While a reply is not complete, a call leaves it in the buffer. `int` gets the whole size field or is not called. -/
theorem processTraced_incomplete (fuel : Nat) (hstream : c.buffer ++ future = r.bytes ++ more)
    (hshort : c.buffer.length < r.bytes.length) :
    processTraced (fuel + 1) c = (c, [.entered]) ∨ processTraced (fuel + 1) c = (c, [.entered, .int r.digits]) := by
  rw [processTraced]
  by_cases hheader : 4 < c.buffer.length
  · rw [if_pos hheader]
    have hdrop : c.buffer.drop 4 = (r.digits ++ 124 :: (r.payload ++ more)).take (c.buffer.length - 4) := by
      rw [← r.drop_bytes more, ← hstream, List.drop_append_of_le_length hheader.le]
      exact (List.take_left' (by rw [List.length_drop])).symm
    by_cases hlong : r.digits.length < c.buffer.length - 4
    · obtain ⟨m, hm⟩ : ∃ m, c.buffer.length - 4 = r.digits.length + (m + 1) :=
        ⟨c.buffer.length - 5 - r.digits.length, by omega⟩
      rw [hm, List.take_length_add_append, List.take_succ_cons] at hdrop
      obtain ⟨hfind, hfield⟩ := find_behind_digits r.digits_decimal hdrop
      rw [hfind]
      dsimp only
      rw [hfield, r.int?_digits]
      dsimp only
      rw [Reply.length_bytes] at hshort
      rw [if_neg (by push_cast; omega)]
      exact Or.inr rfl
    · have hdigits : ∀ x ∈ c.buffer.drop 4, IsDigit x := by
        intro x hx
        rw [hdrop, List.take_append_of_le_length (by omega)] at hx
        exact r.digits_decimal x (List.mem_of_mem_take hx)
      rw [find_of_digits hdigits]
      exact Or.inl rfl
  · rw [if_neg hheader]
    exact Or.inl rfl

/-- A complete reply is cut off the buffer and matched with the commands; the next call goes on behind it. -/
theorem processTraced_complete (fuel : Nat) (hbuffer : c.buffer = r.bytes ++ rest) :
    ∃ c' : Client, c'.buffer = rest ∧
      ((c'.raised = some (.transportFailure r.bytes) ∧
          processTraced (fuel + 1) c = (c', r.extraction)) ∨
        c'.raised = c.raised ∧
          processTraced (fuel + 1) c =
            if 0 < rest.length then
              ((processTraced fuel c').1, r.extraction ++ (processTraced fuel c').2)
            else (c', r.extraction)) := by
  have hlength := r.length_bytes
  have hlong : c.buffer.length = r.bytes.length + rest.length := by rw [hbuffer, List.length_append]
  have hdrop : c.buffer.drop 4 = r.digits ++ 124 :: (r.payload ++ rest) := by rw [hbuffer, r.drop_bytes]
  obtain ⟨hfind, hfield⟩ := find_behind_digits r.digits_decimal hdrop
  have hstop : sliceIndex c.buffer.length ((4 + r.digits.length : Nat) + (r.payload.length : Int) + 1) =
      r.bytes.length := by
    rw [sliceIndex, if_pos (by positivity)]
    omega
  have htake : c.buffer.take r.bytes.length = r.bytes := by rw [hbuffer, List.take_left' rfl]
  have hrest : c.buffer.drop r.bytes.length = rest := by rw [hbuffer, List.drop_left' rfl]
  rw [processTraced, if_pos (by omega), hfind]
  dsimp only
  rw [hfield, r.int?_digits]
  dsimp only
  rw [if_pos (by push_cast; omega), hstop, htake, hrest]
  obtain ⟨commands, allowed, failed⟩ := settle r.bytes c.commands
  let c' : Client := { c with buffer := rest, commands := commands, allowSend := c.allowSend || allowed }
  cases failed with
  | true => exact ⟨{ c' with raised := some (.transportFailure r.bytes) }, rfl, Or.inl ⟨rfl, rfl⟩⟩
  | false =>
    refine ⟨c', rfl, Or.inr ⟨rfl, ?_⟩⟩
    dsimp only
    rw [if_neg (by decide), if_pos (show rest.length < c.buffer.length by omega)]
    rfl

end Reply

/-! ### A stream of replies -/

def stream (replies : List Reply) : List UInt8 := (replies.map Reply.bytes).flatten

theorem stream_cons (r : Reply) (rs : List Reply) : stream (r :: rs) = r.bytes ++ stream rs := rfl

theorem length_stream_ge (replies : List Reply) : 6 * replies.length ≤ (stream replies).length := by
  induction replies with
  | nil => exact le_rfl
  | cons r rs ih =>
    have hdigits : 0 < r.digits.length := List.length_pos_iff.mpr r.digits_ne_nil
    rw [stream_cons, List.length_append, List.length_cons, Reply.length_bytes]
    omega

/-- The buffer holds the incomplete rest of what has come of the replies that are to come, and `future` is still on its
way. -/
structure Rests (c : Client) (future : List UInt8) (todo : List Reply) : Prop where
  raised_none : c.raised = none
  stream_eq : c.buffer ++ future = stream todo
  incomplete : ∀ r ∈ todo.head?, c.buffer.length < r.bytes.length

/-- What a call leaves behind, with its calls of itself: some of the replies are extracted, in order. -/
structure Extracts (c : Client) (todo : List Reply) (future : List UInt8) (out : Client × List ParserAction)
    (done left : List Reply) : Prop where
  split : todo = done ++ left
  taken : (stream done).length ≤ c.buffer.length
  extracted : out.2.filterMap extractedReply = done.map Reply.bytes
  fields : ∀ field ∈ out.2.filterMap intField, field ≠ [] ∧ ∀ x ∈ field, IsDigit x
  entered : out.2.count .entered ≤ done.length + 1
  ends : (∃ r ∈ done, out.1.raised = some (.transportFailure r.bytes)) ∨ Rests out.1 future left

theorem Reply.field_decimal (r : Reply) : ∀ field ∈ [r.digits], field ≠ [] ∧ ∀ x ∈ field, IsDigit x := by
  intro field hfield
  obtain rfl : field = r.digits := List.mem_singleton.mp hfield
  exact ⟨r.digits_ne_nil, r.digits_decimal⟩

/-- By induction on the replies: every call extracts one of them or is the last. -/
theorem processTraced_extracts (todo : List Reply) (fuel : Nat) (c : Client) {future : List UInt8}
    (hraised : c.raised = none) (hstream : c.buffer ++ future = stream todo) (hfuel : c.buffer.length < fuel) :
    ∃ done left, Extracts c todo future (processTraced fuel c) done left := by
  induction todo generalizing fuel c with
  | nil =>
    obtain ⟨hbuffer, -⟩ := List.append_eq_nil_iff.mp hstream
    obtain ⟨fuel, rfl⟩ : ∃ n, fuel = n + 1 := ⟨fuel - 1, by omega⟩
    have hcall : processTraced (fuel + 1) c = (c, [.entered]) := by
      rw [processTraced, hbuffer]
      rfl
    rw [hcall]
    exact ⟨[], [], rfl, Nat.zero_le _, rfl, fun _ h => absurd h List.not_mem_nil, le_rfl,
      Or.inr ⟨hraised, hstream, fun _ h => absurd h (by simp)⟩⟩
  | cons r rs ih =>
    obtain ⟨fuel, rfl⟩ : ∃ n, fuel = n + 1 := ⟨fuel - 1, by omega⟩
    have hpositive : 0 < r.bytes.length := by
      rw [Reply.length_bytes]
      omega
    rw [stream_cons] at hstream
    by_cases hshort : c.buffer.length < r.bytes.length
    · have hrests : Rests c future (r :: rs) := ⟨hraised, hstream, fun x hx => by
        obtain rfl : r = x := Option.some.inj hx
        exact hshort⟩
      obtain hcall | hcall := processTraced_incomplete fuel hstream hshort
      · rw [hcall]
        exact ⟨[], r :: rs, rfl, Nat.zero_le _, rfl, fun _ h => absurd h List.not_mem_nil, le_rfl, Or.inr hrests⟩
      · rw [hcall]
        exact ⟨[], r :: rs, rfl, Nat.zero_le _, rfl, r.field_decimal, le_rfl, Or.inr hrests⟩
    · obtain ⟨rest, hbuffer⟩ : ∃ rest, c.buffer = r.bytes ++ rest :=
        (List.prefix_of_prefix_length_le ⟨_, rfl⟩ ⟨_, hstream⟩ (by omega)).imp fun _ h => h.symm
      have hlong : c.buffer.length = r.bytes.length + rest.length := by rw [hbuffer, List.length_append]
      rw [hbuffer, List.append_assoc] at hstream
      have hfollows : rest ++ future = stream rs := List.append_cancel_left hstream
      have hone : (stream [r]).length ≤ c.buffer.length := by
        rw [stream_cons, List.length_append, hlong]
        exact Nat.add_le_add_left (Nat.zero_le _) _
      obtain ⟨c', rfl, ⟨hfailed, hcall⟩ | ⟨hnone, hcall⟩⟩ := processTraced_complete fuel hbuffer
      · rw [hcall]
        exact ⟨[r], rs, rfl, hone, rfl, r.field_decimal, Nat.le_succ 1, Or.inl ⟨r, List.mem_singleton_self r, hfailed⟩⟩
      · rw [hraised] at hnone
        rw [hcall]
        by_cases hmore : 0 < c'.buffer.length
        · rw [if_pos hmore]
          obtain ⟨done, left, h⟩ := ih _ _ hnone hfollows (show c'.buffer.length < fuel by omega)
          refine ⟨r :: done, left, congrArg (r :: ·) h.split, ?_, congrArg (r.bytes :: ·) h.extracted, ?_, ?_, ?_⟩
          · have htaken := h.taken
            rw [stream_cons, List.length_append]
            omega
          · rw [List.filterMap_append]
            exact List.forall_mem_append.mpr ⟨r.field_decimal, h.fields⟩
          · have hentered := h.entered
            rw [List.count_append, List.length_cons]
            rw [r.count_extraction]
            omega
          · refine h.ends.imp_left ?_
            rintro ⟨x, hx, hfailed⟩
            exact ⟨x, List.mem_cons_of_mem r hx, hfailed⟩
        · rw [if_neg hmore]
          have hnil : c'.buffer = [] := List.length_eq_zero_iff.mp (by omega)
          refine ⟨[r], rs, rfl, hone, rfl, r.field_decimal, Nat.le_succ 1, Or.inr ⟨hnone, hfollows, fun x hx => ?_⟩⟩
          rw [hnil, Reply.length_bytes]
          exact Nat.succ_pos _

/-! ### Runs -/

inductive ParserEvent where
  | recv (data : List UInt8)
  | send

/-- The calls of `process_packet`, with commands sent in between, up to an exception. -/
def parser : Machine Client ParserEvent ParserAction :=
  ⟨fun c e =>
    if c.raised.isSome then (c, [])
    else
      match e with
      | .recv data => processTraced (c.buffer.length + data.length + 1) { c with buffer := c.buffer ++ data }
      | .send => ((send c).1, [])⟩

/-- The bytes that `recv` returns. -/
def received (events : List ParserEvent) : List UInt8 :=
  events.flatMap fun
    | .recv data => data
    | .send => []

/-- How deep a call goes: an event within the size that `recv` is asked for enters at most this many calls. -/
def Shallow (limit : Nat) (c : Client) (e : ParserEvent) : Prop :=
  ∀ data, e = .recv data → data.length ≤ recvSize → (parser.actions c e).count .entered ≤ limit

section Runs

variable {c : Client} {todo : List Reply} {future : List UInt8}

theorem parser_recv (h : c.raised = none) (data : List UInt8) :
    parser.step c (.recv data) =
      processTraced (c.buffer.length + data.length + 1) { c with buffer := c.buffer ++ data } := by
  show (if c.raised.isSome then _ else _) = _
  rw [if_neg (by rw [h]; decide)]

/-- A step of the machine is a call of `process_packet`. -/
theorem parser_next_recv (h : c.raised = none) (data : List UInt8) : parser.next c (.recv data) = processPacket c data := by
  rw [Machine.next, parser_recv h]
  exact processTraced_fst _ _

theorem parser_send (h : c.raised = none) : parser.step c .send = ((send c).1, []) := by
  show (if c.raised.isSome then _ else _) = _
  rw [if_neg (by rw [h]; decide)]

/-- Behind an exception there are no calls. -/
theorem parser_raised (h : c.raised.isSome) (events : List ParserEvent) :
    parser.final c events = c ∧ parser.trace c events = [] ∧ parser.Along (Shallow 684) c events := by
  induction events with
  | nil => exact ⟨rfl, rfl, trivial⟩
  | cons e es ih =>
    have hstep : parser.step c e = (c, []) := if_pos h
    have hnext : parser.next c e = c := congrArg Prod.fst hstep
    have hactions : parser.actions c e = [] := congrArg Prod.snd hstep
    rw [Machine.final_cons, Machine.trace_cons, Machine.Along, hnext, hactions]
    refine ⟨ih.1, ih.2.1, fun _ _ _ => ?_, ih.2.2⟩
    rw [hactions]
    exact Nat.zero_le _

/-- What is sent is not a matter of the buffer. -/
theorem Rests.send (h : Rests c future todo) : Rests (send c).1 future todo := by
  rw [Upload.send]
  cases c.commands[c.sendNum]? with
  | none => exact h
  | some command =>
    dsimp only
    split_ifs
    · exact ⟨h.raised_none, h.stream_eq, h.incomplete⟩
    · exact h

/-- All replies but the first begin in the new data, and each has six bytes at least. -/
theorem Rests.length_done (h : Rests c future todo) {done left : List Reply} (hsplit : todo = done ++ left) {count : Nat}
    (htaken : (stream done).length ≤ c.buffer.length + count) : 6 * done.length ≤ count + 5 := by
  subst hsplit
  cases done with
  | nil => exact Nat.zero_le _
  | cons r rs =>
    have hincomplete := h.incomplete r rfl
    have hlength := length_stream_ge rs
    rw [stream_cons, List.length_append] at htaken
    rw [List.length_cons]
    omega

/-- A step from a buffer with the rest of a reply: what it extracts, and how deep it goes. -/
theorem parser_step (e : ParserEvent) (h : Rests c (received [e] ++ future) todo) :
    ∃ done left,
      todo = done ++ left ∧
      (parser.actions c e).filterMap extractedReply = done.map Reply.bytes ∧
      (∀ field ∈ (parser.actions c e).filterMap intField, field ≠ [] ∧ ∀ x ∈ field, IsDigit x) ∧
      Shallow 684 c e ∧
      ((∃ r ∈ done, (parser.next c e).raised = some (.transportFailure r.bytes)) ∨ Rests (parser.next c e) future left) := by
  cases e with
  | send =>
    rw [Machine.next, Machine.actions, parser_send h.raised_none]
    exact ⟨[], todo, rfl, rfl, fun _ h => absurd h List.not_mem_nil, fun _ h => absurd h (by simp), Or.inr h.send⟩
  | recv data =>
    have hdata : received [.recv data] = data := List.append_nil data
    have hstream := h.stream_eq
    rw [hdata, ← List.append_assoc] at hstream
    obtain ⟨done, left, hout⟩ := processTraced_extracts todo (c.buffer.length + data.length + 1)
      { c with buffer := c.buffer ++ data } h.raised_none hstream (by
        rw [List.length_append]
        exact Nat.lt_succ_self _)
    have htaken := hout.taken
    have hentered := hout.entered
    rw [List.length_append] at htaken
    rw [← parser_recv h.raised_none] at hout hentered
    refine ⟨done, left, hout.split, hout.extracted, hout.fields, ?_, hout.ends⟩
    intro data' hdata' hsize
    obtain rfl : data = data' := ParserEvent.recv.inj hdata'
    have hdone := h.length_done hout.split htaken
    have hdepth : (parser.actions c (.recv data)).count .entered ≤ done.length + 1 := hentered
    rw [recvSize] at hsize
    omega

/-- A run from a buffer with the rest of a reply. -/
theorem parser_run (events : List ParserEvent) (h : Rests c (received events ++ future) todo) :
    ∃ done left,
      todo = done ++ left ∧
      (parser.trace c events).filterMap extractedReply = done.map Reply.bytes ∧
      (∀ field ∈ (parser.trace c events).filterMap intField, field ≠ [] ∧ ∀ x ∈ field, IsDigit x) ∧
      parser.Along (Shallow 684) c events ∧
      ((∃ r ∈ done, (parser.final c events).raised = some (.transportFailure r.bytes)) ∨
        Rests (parser.final c events) future left) := by
  induction events generalizing c todo with
  | nil => exact ⟨[], todo, rfl, rfl, fun _ h => absurd h List.not_mem_nil, trivial, Or.inr h⟩
  | cons e es ih =>
    have hevents : received (e :: es) ++ future = received [e] ++ (received es ++ future) := by
      rw [← List.append_assoc, received, received, received, ← List.flatMap_append]
      rfl
    rw [hevents] at h
    obtain ⟨first, left, hsplit, hextracted, hfields, hshallow, hfailed | hrests⟩ := parser_step e h
    · obtain ⟨r, hr, hraised⟩ := hfailed
      obtain ⟨hfinal, htrace, halong⟩ := parser_raised (by rw [hraised]; rfl) es
      rw [Machine.trace_cons, Machine.final_cons, htrace, hfinal, List.append_nil]
      exact ⟨first, left, hsplit, hextracted, hfields, ⟨hshallow, halong⟩, Or.inl ⟨r, hr, hraised⟩⟩
    · obtain ⟨second, left', rfl, hextracted', hfields', halong, hends⟩ := ih hrests
      rw [Machine.trace_cons, Machine.final_cons]
      refine ⟨first ++ second, left', ?_, ?_, ?_, ⟨hshallow, halong⟩, ?_⟩
      · rw [hsplit, List.append_assoc]
      · rw [List.filterMap_append, hextracted, hextracted', List.map_append]
      · rw [List.filterMap_append]
        exact List.forall_mem_append.mpr ⟨hfields, hfields'⟩
      · refine hends.imp_left ?_
        rintro ⟨r, hr, hraised⟩
        exact ⟨r, List.mem_append_right first hr, hraised⟩

end Runs

/-- For every stream of replies, however it is cut: `int` gets decimal fields only, a call stays far from the thousand
nested ones that Python allows, and the replies are extracted in order. Unless one of them raises the transport failure,
the buffer holds the incomplete rest. -/
theorem replies_extracted (replies : List Reply) (commands : List Command) (events : List ParserEvent)
    (future : List UInt8) (hcut : received events ++ future = stream replies) :
    (∀ field ∈ (parser.trace (.initial commands) events).filterMap intField, field ≠ [] ∧ ∀ x ∈ field, IsDigit x) ∧
    parser.Along (Shallow 684) (.initial commands) events ∧
    ∃ done left,
      replies = done ++ left ∧
      (parser.trace (.initial commands) events).filterMap extractedReply = done.map Reply.bytes ∧
      ((∃ r ∈ done, (parser.final (.initial commands) events).raised = some (.transportFailure r.bytes)) ∨
        Rests (parser.final (.initial commands) events) future left ∧
          (future = [] → left = [] ∧ (parser.final (.initial commands) events).buffer = [])) := by
  have hinitial : Rests (.initial commands) (received events ++ future) replies :=
    ⟨rfl, hcut, fun r _ => by
      rw [Reply.length_bytes]
      exact Nat.succ_pos _⟩
  obtain ⟨done, left, hsplit, hextracted, hfields, halong, hends⟩ := parser_run events hinitial
  refine ⟨hfields, halong, done, left, hsplit, hextracted, hends.imp_right fun hrests => ⟨hrests, ?_⟩⟩
  rintro rfl
  have hstream := hrests.stream_eq
  rw [List.append_nil] at hstream
  cases left with
  | nil => exact ⟨rfl, hstream⟩
  | cons r rs =>
    have hincomplete := hrests.incomplete r rfl
    rw [hstream, stream_cons, List.length_append] at hincomplete
    omega

/-- `Y|W|1||`, with a separator as its payload, and `Y|C|02|ab`. -/
def twoReplies : List Reply :=
  [⟨true, 87, ascii "1", ascii "|", by decide +kernel, by decide +kernel, by decide +kernel⟩,
    ⟨true, 67, ascii "02", ascii "ab", by decide +kernel, by decide +kernel, by decide +kernel⟩]

theorem replies_extracted_two :
    received [.recv (ascii "Y|W|"), .send, .recv (ascii "1||Y|C|0"), .recv (ascii "2|a")] ++ ascii "b" =
        stream twoReplies ∧
      (parser.trace (.initial []) [.recv (ascii "Y|W|"), .send, .recv (ascii "1||Y|C|0"), .recv (ascii "2|a")]).filterMap
        extractedReply = [ascii "Y|W|1||"] ∧
      ∃ done left, twoReplies = done ++ left ∧ [ascii "Y|W|1||"] = done.map Reply.bytes := by
  have hcut : received [.recv (ascii "Y|W|"), .send, .recv (ascii "1||Y|C|0"), .recv (ascii "2|a")] ++ ascii "b" =
      stream twoReplies := by decide
  have htrace : (parser.trace (.initial []) [.recv (ascii "Y|W|"), .send, .recv (ascii "1||Y|C|0"),
      .recv (ascii "2|a")]).filterMap extractedReply = [ascii "Y|W|1||"] := by decide +kernel
  obtain ⟨-, -, done, left, hsplit, hextracted, -⟩ := replies_extracted twoReplies [] _ _ hcut
  exact ⟨hcut, htrace, done, left, hsplit, htrace ▸ hextracted⟩

end EspClock.Upload
