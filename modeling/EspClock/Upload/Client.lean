import EspClock.Lib.Decimal

/-!
# The upload client

`wireless_file.py`: the file is cut into packets, each a command of the file server, and the main loop
sends one command after another. A command is sent only after the one before it was confirmed; a reply
is matched with the commands by its text.

`processPacket` follows the source on any bytes, also on those no server sends: a size field is read as
Python's `int` reads it, a negative size makes the slices count from the end, and an exception ends the
loop.
-/

namespace EspClock.Upload

open Decimal

inductive Status where
  | queued
  | sent
  | confirmed
  | failed
  deriving DecidableEq

/-- A command of the queue: the text to send and its status. -/
structure Command where
  text : List UInt8
  status : Status
  deriving DecidableEq

/-- The reply that confirms a command, and the one that refuses it. -/
def Command.plus (c : Command) : List UInt8 := ascii "Y|" ++ c.text

def Command.minus (c : Command) : List UInt8 := ascii "N|" ++ c.text

inductive PythonError where
  | transportFailure (payload : List UInt8)
  | invalidLiteral
  | recursionLimit
  deriving DecidableEq

structure Client where
  commands : List Command
  buffer : List UInt8
  allowSend : Bool
  sendNum : Nat
  spin : Bool
  raised : Option PythonError

/-! ### The queue -/

def enqueue (data : List UInt8) : Command := ⟨data, .queued⟩

/-- The format `"%c|%d|%s"` with the length of the payload. -/
def packet (letter : UInt8) (payload : List UInt8) : List UInt8 :=
  letter :: 124 :: (print payload.length ++ 124 :: payload)

def chunksWith (chunk : Nat) : Nat → List UInt8 → List (List UInt8)
  | 0, _ => []
  | fuel + 1, text =>
    if text.length ≠ 0 then
      text.take (min chunk text.length) :: chunksWith chunk fuel (text.drop (min chunk text.length))
    else []

/-- The loop over the text. Every round takes at least one byte, so its length bounds the rounds. -/
def chunks (chunk : Nat) (text : List UInt8) : List (List UInt8) := chunksWith chunk text.length text

/-- The command that removes the compiled script. -/
def removeCommand (baseName : List UInt8) : List UInt8 :=
  ascii "file.remove(\"" ++ (baseName.take (baseName.length - 3) ++ ascii "lc") ++ ascii "\")"

/-- The texts `prepare_file` enqueues. -/
def preparedTexts (chunk : Nat) (baseName text : List UInt8) : List (List UInt8) :=
  packet 79 baseName :: packet 71 (removeCommand baseName) ::
    ((chunks chunk text).map (packet 87) ++ [packet 67 baseName])

def prepareFile (chunk : Nat) (baseName text : List UInt8) : List Command :=
  (preparedTexts chunk baseName text).map enqueue

def packetSize : Nat := 50

/-- The client in front of its main loop. -/
def Client.initial (commands : List Command) : Client := ⟨commands, [], true, 0, true, none⟩

/-! ### Replies -/

/-- `string.find` of a byte from a position on. -/
def find (s : List UInt8) (c : UInt8) (start : Nat) : Option Nat :=
  ((s.drop start).findIdx? (· = c)).map (start + ·)

def isSpace (c : UInt8) : Bool := c = 32 ∨ 9 ≤ c ∧ c ≤ 13

def strip (s : List UInt8) : List UInt8 := ((s.dropWhile isSpace).reverse.dropWhile isSpace).reverse

def digits? (s : List UInt8) : Option Nat :=
  if s ≠ [] ∧ s.all (fun c => decide (IsDigit c)) then some (value s) else none

/-- `int` of a string. -/
def int? (s : List UInt8) : Option Int :=
  match strip s with
  | 45 :: ds => (digits? ds).map fun n => -(n : Int)
  | 43 :: ds => (digits? ds).map fun n => (n : Int)
  | ds => (digits? ds).map fun n => (n : Int)

/-- The place an index of a slice stands for; a negative one counts from the end. -/
def sliceIndex (length : Nat) (i : Int) : Nat := if 0 ≤ i then i.toNat else (length + i).toNat

/-- The loop over the commands for a reply: the commands, whether one was confirmed, and whether the
loop ended with the exception. -/
def settle (payload : List UInt8) : List Command → List Command × Bool × Bool
  | [] => ([], false, false)
  | c :: cs =>
    let success := c.plus = payload ∧ c.status = .sent
    let c' : Command := if success then { c with status := .confirmed } else c
    if c'.minus = payload ∧ c'.status = .sent then
      ({ c' with status := .failed } :: cs, decide success, true)
    else
      let (rest, allowed, failed) := settle payload cs
      (c' :: rest, decide success || allowed, failed)

/-- The body of `process_packet` once the data is in the buffer. A call that leaves the buffer as it is
would call itself for ever. -/
def processWith : Nat → Client → Client
  | 0, c => c
  | fuel + 1, c =>
    if 4 < c.buffer.length then
      match find c.buffer 124 4 with
      | none => c
      | some index =>
        match int? ((c.buffer.take index).drop 4) with
        | none => { c with raised := some .invalidLiteral }
        | some size =>
          if index + size < c.buffer.length then
            let stop := sliceIndex c.buffer.length (index + size + 1)
            let payload := c.buffer.take stop
            let rest := c.buffer.drop stop
            let (commands, allowed, failed) := settle payload c.commands
            let c' := { c with buffer := rest, commands := commands, allowSend := c.allowSend || allowed }
            if failed then { c' with raised := some (.transportFailure payload) }
            else if 0 < rest.length then
              if rest.length < c.buffer.length then processWith fuel c'
              else { c' with raised := some .recursionLimit }
            else c'
          else c
    else c

def processPacket (c : Client) (data : List UInt8) : Client :=
  processWith (c.buffer.length + data.length + 1) { c with buffer := c.buffer ++ data }

/-! ### The main loop -/

def countStatus (status : Status) (commands : List Command) : Nat :=
  commands.countP fun c => c.status = status

def checkCompletion (c : Client) : Bool := countStatus .confirmed c.commands = c.commands.length

/-- The part of a round that a readable socket enters. -/
def receive (c : Client) (data : List UInt8) : Client :=
  let c := processPacket c data
  if c.raised.isSome then c else { c with spin := !checkCompletion c }

/-- The part of a round that a writable socket enters, with the bytes it sends. -/
def send (c : Client) : Client × List UInt8 :=
  match c.commands[c.sendNum]? with
  | none => (c, [])
  | some command =>
    if command.status = .queued ∧ c.allowSend then
      ({ c with
          commands := c.commands.set c.sendNum { command with status := .sent }
          sendNum := c.sendNum + 1
          allowSend := false },
        command.text)
    else (c, [])

/-- The condition of the loop; an exception leaves it as well. -/
def Client.Running (c : Client) : Prop := c.spin = true ∧ c.raised = none

instance (c : Client) : Decidable c.Running := inferInstanceAs (Decidable (_ ∧ _))

/-- A round of the main loop: what `recv` returned, if the socket was readable, and whether it was
writable. -/
def round (c : Client) (received : Option (List UInt8)) (writable : Bool) : Client × List UInt8 :=
  let c := match received with
    | some data => receive c data
    | none => c
  if c.raised.isSome ∨ writable = false then (c, []) else send c

/-! ### Cutting the text -/

private theorem chunksWith_spec {chunk : Nat} (hchunk : 0 < chunk) (fuel : Nat) (text : List UInt8)
    (hfuel : text.length ≤ fuel) :
    (chunksWith chunk fuel text).flatten = text ∧ ∀ c ∈ chunksWith chunk fuel text, c.length ≤ chunk := by
  induction fuel generalizing text with
  | zero =>
    obtain rfl : text = [] := List.length_eq_zero_iff.mp (by omega)
    exact ⟨rfl, fun _ hc => absurd hc List.not_mem_nil⟩
  | succ fuel ih =>
    rw [chunksWith]
    by_cases hlen : text.length ≠ 0
    · rw [if_pos hlen]
      obtain ⟨hflatten, hshort⟩ := ih (text.drop (min chunk text.length)) (by
        rw [List.length_drop]
        omega)
      refine ⟨?_, ?_⟩
      · rw [List.flatten_cons, hflatten, List.take_append_drop]
      · intro c hc
        obtain rfl | hc := List.mem_cons.mp hc
        · rw [List.length_take]
          omega
        · exact hshort c hc
    · rw [if_neg hlen]
      refine ⟨?_, fun _ hc => absurd hc List.not_mem_nil⟩
      exact (List.length_eq_zero_iff.mp (not_ne_iff.mp hlen)).symm

theorem flatten_chunks {chunk : Nat} (hchunk : 0 < chunk) (text : List UInt8) :
    (chunks chunk text).flatten = text := (chunksWith_spec hchunk _ text le_rfl).1

theorem length_le_of_mem_chunks {chunk : Nat} (hchunk : 0 < chunk) {text c : List UInt8}
    (hc : c ∈ chunks chunk text) : c.length ≤ chunk := (chunksWith_spec hchunk _ text le_rfl).2 c hc

/-! ### Reading a size -/

theorem not_isSpace_of_isDigit {c : UInt8} (h : IsDigit c) : isSpace c = false := by
  rw [isSpace, decide_eq_false_iff_not]
  rintro (rfl | ⟨-, hle⟩)
  · exact absurd h (by decide)
  · have hle : c.toNat ≤ 13 := hle
    have := h.1
    omega

theorem dropWhile_isSpace {s : List UInt8} (h : ∀ c ∈ s, IsDigit c) : s.dropWhile isSpace = s := by
  cases s with
  | nil => rfl
  | cons c cs =>
    have hc : isSpace c = false := not_isSpace_of_isDigit (h c List.mem_cons_self)
    rw [List.dropWhile_cons_of_neg (by rw [hc]; decide)]

theorem strip_of_digits {s : List UInt8} (h : ∀ c ∈ s, IsDigit c) : strip s = s := by
  rw [strip, dropWhile_isSpace h, dropWhile_isSpace fun c hc => h c (List.mem_reverse.mp hc),
    List.reverse_reverse]

theorem int?_of_digits {s : List UInt8} (hne : s ≠ []) (h : ∀ c ∈ s, IsDigit c) :
    int? s = some (value s : Int) := by
  have hall : s.all (fun c => decide (IsDigit c)) = true :=
    List.all_eq_true.mpr fun c hc => decide_eq_true (h c hc)
  have hdigits : digits? s = some (value s) := by rw [digits?, if_pos ⟨hne, hall⟩]
  rw [int?, strip_of_digits h]
  split
  · exact absurd (h 45 List.mem_cons_self) (by decide)
  · exact absurd (h 43 List.mem_cons_self) (by decide)
  · rw [hdigits]
    rfl

/-- Behind the four bytes of the prefix there are digits only: no separator yet. -/
theorem find_of_digits {b : List UInt8} (h : ∀ x ∈ b.drop 4, IsDigit x) : find b 124 4 = none := by
  rw [find, findIdx?_of_digits h (by decide)]
  rfl

/-- Once the separator is there, the bytes in front of it are the size field. -/
theorem find_behind_digits {b digits rest : List UInt8} (hdigits : ∀ x ∈ digits, IsDigit x)
    (hdrop : b.drop 4 = digits ++ 124 :: rest) :
    find b 124 4 = some (4 + digits.length) ∧ (b.take (4 + digits.length)).drop 4 = digits := by
  refine ⟨?_, ?_⟩
  · rw [find, hdrop, findIdx?_behind_digits hdigits (by decide)]
    rfl
  · rw [List.drop_take, hdrop, Nat.add_sub_cancel_left, List.take_left' rfl]

/-! ### What a reply does -/

section Reply

variable {c : Client} {data payload b : List UInt8} {letter : UInt8}

def NoneSent (commands : List Command) : Prop := ∀ c ∈ commands, c.status ≠ .sent

theorem settle_of_noneSent {commands : List Command} (h : NoneSent commands) (reply : List UInt8) :
    settle reply commands = (commands, false, false) := by
  induction commands with
  | nil => rfl
  | cons c cs ih =>
    have hc : c.status ≠ .sent := h c List.mem_cons_self
    have hcs : NoneSent cs := fun x hx => h x (List.mem_cons_of_mem c hx)
    simp only [settle, hc, and_false, if_false, ih hcs, decide_false, Bool.false_or]

/-- The one command that was sent is confirmed, whatever the texts of the others are. -/
theorem settle_plus {before after : List Command} {text : List UInt8} (hbefore : NoneSent before)
    (hafter : NoneSent after) :
    settle (ascii "Y|" ++ text) (before ++ ⟨text, .sent⟩ :: after) =
      (before ++ ⟨text, .confirmed⟩ :: after, true, false) := by
  induction before with
  | nil =>
    have hplus : (Command.mk text .sent).plus = ascii "Y|" ++ text := rfl
    simp only [List.nil_append, settle, hplus, and_self, if_true, settle_of_noneSent hafter]
    simp
  | cons c cs ih =>
    have hc : c.status ≠ .sent := hbefore c List.mem_cons_self
    have hcs : NoneSent cs := fun x hx => hbefore x (List.mem_cons_of_mem c hx)
    simp only [List.cons_append, settle, hc, and_false, if_false, ih hcs, decide_false, Bool.false_or]

/-- The reply that confirms a packet. -/
def reply (letter : UInt8) (payload : List UInt8) : List UInt8 := ascii "Y|" ++ packet letter payload

theorem length_reply (letter : UInt8) (payload : List UInt8) :
    (reply letter payload).length = (print payload.length).length + payload.length + 5 := by
  have hyes : (ascii "Y|").length = 2 := rfl
  rw [reply, packet, List.length_append, hyes, List.length_cons, List.length_cons, List.length_append,
    List.length_cons]
  omega

theorem drop_reply (letter : UInt8) (payload : List UInt8) :
    (reply letter payload).drop 4 = print payload.length ++ 124 :: payload := rfl

theorem drop_of_part (hpart : b <+: reply letter payload) :
    b.drop 4 = (print payload.length ++ 124 :: payload).take (b.length - 4) := by
  rw [← drop_reply letter, ← List.drop_take, ← List.prefix_iff_eq_take.mp hpart]

/-- In front of the separator there are digits only. -/
theorem find_separator_none (hpart : b <+: reply letter payload)
    (hshort : b.length ≤ (print payload.length).length + 4) : find b 124 4 = none := by
  have hdigits : ∀ x ∈ b.drop 4, IsDigit x := by
    intro x hx
    rw [drop_of_part hpart, List.take_append_of_le_length (by omega)] at hx
    exact isDigit_of_mem_print (List.mem_of_mem_take hx)
  exact find_of_digits hdigits

/-- Once the separator is there, the bytes in front of it are the size. -/
theorem find_separator (hpart : b <+: reply letter payload)
    (hlong : (print payload.length).length + 4 < b.length) :
    find b 124 4 = some (4 + (print payload.length).length) ∧
      int? ((b.take (4 + (print payload.length).length)).drop 4) = some (payload.length : Int) := by
  obtain ⟨m, hm⟩ : ∃ m, b.length - 4 = (print payload.length).length + (m + 1) :=
    ⟨b.length - 5 - (print payload.length).length, by omega⟩
  have hdrop : b.drop 4 = print payload.length ++ 124 :: payload.take m := by
    rw [drop_of_part hpart, hm, List.take_length_add_append, List.take_succ_cons]
  have hdigits : ∀ x ∈ print payload.length, IsDigit x := fun x hx => isDigit_of_mem_print hx
  obtain ⟨hfind, hfield⟩ := find_behind_digits hdigits hdrop
  refine ⟨hfind, ?_⟩
  rw [hfield, int?_of_digits (print_ne_nil _) hdigits, value_print]

/-- A reply that is not complete stays in the buffer. -/
theorem processPacket_part (hpart : c.buffer ++ data <+: reply letter payload)
    (hshort : (c.buffer ++ data).length < (reply letter payload).length) :
    processPacket c data = { c with buffer := c.buffer ++ data } := by
  rw [length_reply] at hshort
  rw [processPacket, processWith]
  generalize c.buffer ++ data = b at hpart hshort
  dsimp only
  by_cases hheader : 4 < b.length
  · rw [if_pos hheader]
    by_cases hlong : (print payload.length).length + 4 < b.length
    · obtain ⟨hfind, hint⟩ := find_separator hpart hlong
      simp only [hfind, hint]
      rw [if_neg (by push_cast; omega)]
    · rw [find_separator_none hpart (by omega)]
  · rw [if_neg hheader]

/-- A complete reply is matched with the commands. -/
theorem processPacket_complete (hwhole : c.buffer ++ data = reply letter payload) {commands : List Command}
    (hsettle : settle (reply letter payload) c.commands = (commands, true, false)) :
    processPacket c data = { c with buffer := [], commands := commands, allowSend := true } := by
  have hlength := length_reply letter payload
  obtain ⟨hfind, hint⟩ := find_separator (List.prefix_refl (reply letter payload)) (by omega)
  have hstop : sliceIndex (reply letter payload).length
      ((4 + (print payload.length).length : Nat) + (payload.length : Int) + 1) =
      (reply letter payload).length := by
    rw [sliceIndex, if_pos (by positivity)]
    omega
  rw [processPacket, processWith, hwhole]
  dsimp only
  rw [if_pos (by omega)]
  simp only [hfind, hint]
  rw [if_pos (by push_cast; omega), hstop, List.take_length, List.drop_length, hsettle]
  simp

end Reply

/-! ### The client between two replies -/

/-- The texts as commands with one status. -/
def marked (status : Status) (texts : List (List UInt8)) : List Command := texts.map (Command.mk · status)

/-- The client with the first texts confirmed and nothing on its way. -/
def Client.atRest (done todo : List (List UInt8)) (spin : Bool) : Client :=
  ⟨marked .confirmed done ++ marked .queued todo, [], true, done.length, spin, none⟩

/-- The client that waits for the reply to a text, with a part of the reply in its buffer. -/
def Client.waiting (done : List (List UInt8)) (text : List UInt8) (todo : List (List UInt8))
    (buffer : List UInt8) : Client :=
  ⟨marked .confirmed done ++ ⟨text, .sent⟩ :: marked .queued todo, buffer, false, done.length + 1, true, none⟩

theorem length_marked (status : Status) (texts : List (List UInt8)) :
    (marked status texts).length = texts.length := List.length_map _

theorem noneSent_marked {status : Status} (h : status ≠ .sent) (texts : List (List UInt8)) :
    NoneSent (marked status texts) := by
  intro c hc
  obtain ⟨text, -, rfl⟩ := List.mem_map.mp hc
  exact h

theorem countStatus_marked (status mark : Status) (texts : List (List UInt8)) :
    countStatus status (marked mark texts) = if mark = status then texts.length else 0 := by
  induction texts with
  | nil => exact (ite_self 0).symm
  | cons t ts ih =>
    rw [marked, List.map_cons, countStatus, List.countP_cons, ← countStatus, ← marked, ih]
    by_cases h : mark = status
    · simp [h]
    · simp [h]

variable (done todo : List (List UInt8)) (text buffer : List UInt8) (spin : Bool)

theorem length_atRest : (Client.atRest done todo spin).commands.length = done.length + todo.length := by
  rw [Client.atRest, List.length_append, length_marked, length_marked]

theorem length_waiting :
    (Client.waiting done text todo buffer).commands.length = done.length + (todo.length + 1) := by
  rw [Client.waiting, List.length_append, List.length_cons, length_marked, length_marked]

theorem countStatus_atRest (status : Status) :
    countStatus status (Client.atRest done todo spin).commands =
      (if Status.confirmed = status then done.length else 0) +
        if Status.queued = status then todo.length else 0 := by
  rw [Client.atRest, countStatus, List.countP_append, ← countStatus, ← countStatus, countStatus_marked,
    countStatus_marked]

theorem countStatus_waiting (status : Status) :
    countStatus status (Client.waiting done text todo buffer).commands =
      (if Status.confirmed = status then done.length else 0) +
        ((if Status.queued = status then todo.length else 0) + if Status.sent = status then 1 else 0) := by
  rw [Client.waiting, countStatus, List.countP_append, List.countP_cons, ← countStatus, ← countStatus,
    countStatus_marked, countStatus_marked]
  simp only [decide_eq_true_eq]

theorem send_atRest_cons :
    send (.atRest done (text :: todo) true) = (.waiting done text todo [], text) := by
  have hnum : (Client.atRest done (text :: todo) true).sendNum = done.length := rfl
  have hnext : (Client.atRest done (text :: todo) true).commands[done.length]? = some ⟨text, .queued⟩ := by
    rw [Client.atRest, List.getElem?_append_right (length_marked ..).le, length_marked, Nat.sub_self]
    rfl
  have hset : (Client.atRest done (text :: todo) true).commands.set done.length ⟨text, .sent⟩ =
      (Client.waiting done text todo []).commands := by
    rw [Client.atRest, List.set_append_right _ _ (length_marked ..).le, length_marked, Nat.sub_self]
    rfl
  rw [send, hnum, hnext]
  dsimp only
  rw [if_pos ⟨rfl, rfl⟩, hset]
  rfl

theorem send_atRest_nil : send (.atRest done [] spin) = (.atRest done [] spin, []) := by
  have hnone : (Client.atRest done [] spin).commands[done.length]? = none := by
    rw [List.getElem?_eq_none_iff, length_atRest]
    exact le_rfl
  have hnum : (Client.atRest done [] spin).sendNum = done.length := rfl
  rw [send, hnum, hnone]

/-- Nothing is sent while a reply is missing. -/
theorem send_waiting : send (.waiting done text todo buffer) = (.waiting done text todo buffer, []) := by
  rw [send]
  split
  · rfl
  · rw [if_neg]
    exact fun h => Bool.noConfusion h.2

variable {text buffer} {letter : UInt8} {payload data : List UInt8}

theorem receive_part (hpart : buffer ++ data <+: reply letter payload)
    (hshort : (buffer ++ data).length < (reply letter payload).length) :
    receive (.waiting done text todo buffer) data = .waiting done text todo (buffer ++ data) := by
  have hcount : checkCompletion (.waiting done text todo (buffer ++ data)) = false := by
    rw [checkCompletion, decide_eq_false_iff_not, countStatus_waiting, length_waiting]
    simp
  have hprocess : processPacket (.waiting done text todo buffer) data =
      .waiting done text todo (buffer ++ data) := processPacket_part hpart hshort
  rw [receive, hprocess, hcount]
  rfl

theorem receive_complete (hwhole : buffer ++ data = reply letter payload) :
    receive (.waiting done (packet letter payload) todo buffer) data =
      .atRest (done ++ [packet letter payload]) todo (decide (todo ≠ [])) := by
  have hmarked : marked .confirmed done ++ ⟨packet letter payload, .confirmed⟩ :: marked .queued todo =
      marked .confirmed (done ++ [packet letter payload]) ++ marked .queued todo := by
    have hdone : marked .confirmed (done ++ [packet letter payload]) =
        marked .confirmed done ++ [⟨packet letter payload, .confirmed⟩] := List.map_append
    rw [hdone, List.append_assoc]
    rfl
  have hprocess : processPacket (.waiting done (packet letter payload) todo buffer) data =
      .atRest (done ++ [packet letter payload]) todo true := by
    rw [processPacket_complete hwhole
      (settle_plus (noneSent_marked (by decide) done) (noneSent_marked (by decide) todo)), hmarked,
      Client.atRest, List.length_append]
    rfl
  have hcount : checkCompletion (.atRest (done ++ [packet letter payload]) todo true) = decide (todo = []) := by
    rw [checkCompletion, countStatus_atRest, length_atRest, if_pos rfl, if_neg (by decide)]
    cases todo <;> simp
  rw [receive, hprocess, hcount, decide_not]
  rfl

end EspClock.Upload
