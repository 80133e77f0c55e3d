import EspClock.Lib.Framing
import EspClock.FileServer.Receive

/-!
# What the receive callback does to a stream

The state machine of `fs_data_received` carries the parsed part of a frame from one callback to the
next. It never knows more than the bytes in the buffer say: `Holds` states the server's fields as a
function of those bytes, for arbitrary bytes. Under it the callback is `Framing.absorb` of the bytes
it holds and the bytes it gets, with the frame length the header declares; all later results about
streams are read off that machine.
-/

namespace EspClock.FileServer

open Mem Decimal Console

/-! ### The declared length of a frame -/

/-- The length of the frame at the head of the bytes, once its size field has ended. An unknown
command is a frame of its first two bytes. -/
def declaredSize : List UInt8 → Option Nat
  | c :: _ :: body =>
    if commandOf c = .idle then some 2
    else (body.findIdx? (· = pipe)).map fun k => 2 + (k + 1) + atoi (body.take k)
  | _ => none

/-- The length of everything in front of the payload. -/
def headerLength : List UInt8 → Nat
  | c :: _ :: body =>
    if commandOf c = .idle then 2 else 2 + ((body.findIdx? (· = pipe)).getD 0 + 1)
  | _ => 0

theorem declaredSize_length {t : List UInt8} {n : Nat} (h : declaredSize t = some n) : 2 ≤ t.length := by
  match t, h with
  | _ :: _ :: _, _ => simp

private theorem findIdx?_lt {body : List UInt8} {k : Nat} (h : body.findIdx? (· = pipe) = some k) :
    k < body.length := by
  obtain ⟨hk, -⟩ := List.findIdx?_eq_some_iff_getElem.mp h
  exact hk

def framing : Framing UInt8 where
  size := declaredSize
  size_append := by
    intro t n u h
    match t, h with
    | c :: x :: body, h =>
      rw [declaredSize] at h
      rw [List.cons_append, List.cons_append, declaredSize]
      split_ifs at h ⊢ with hidle
      · exact h
      · obtain ⟨k, hk, hn⟩ := Option.map_eq_some_iff.mp h
        rw [List.findIdx?_append, hk, Option.some_or, Option.map_some,
          List.take_append_of_le_length (findIdx?_lt hk).le, hn]
  size_pos := by
    intro t n h
    match t, h with
    | c :: x :: body, h =>
      rw [declaredSize] at h
      split_ifs at h with hidle
      · cases h
        norm_num
      · obtain ⟨k, -, hn⟩ := Option.map_eq_some_iff.mp h
        omega
  size_take := by
    intro t n h hle
    match t, h with
    | c :: x :: body, h =>
      rw [declaredSize] at h
      split_ifs at h with hidle
      · cases h
        rw [List.take_succ_cons, List.take_succ_cons, declaredSize, if_pos hidle]
      · obtain ⟨k, hk, rfl⟩ := Option.map_eq_some_iff.mp h
        obtain ⟨m, hm⟩ : ∃ m, 2 + (k + 1) + atoi (body.take k) = m + 2 := 
          ⟨k + 1 + atoi (body.take k), by omega⟩
        have hkm : k < m := by omega
        rw [hm, List.take_succ_cons, List.take_succ_cons, declaredSize, if_neg hidle]
        have hfind : (body.take m).findIdx? (· = pipe) = some k := by
          rw [List.findIdx?_eq_some_iff_getElem] at hk ⊢
          obtain ⟨hlt, hat, hbefore⟩ := hk
          refine ⟨by rw [List.length_take]; omega, ?_, fun j hj => ?_⟩
          · rw [List.getElem_take]
            exact hat
          · rw [List.getElem_take]
            exact hbefore j hj
        rw [hfind, Option.map_some, List.take_take, Nat.min_eq_left hkm.le, hm]

@[simp] theorem framing_size : framing.size = declaredSize := rfl

/-! ### The bytes a server holds -/

/-- The bytes in the buffer. -/
structure Content (s : FsUserdata) (t : List UInt8) : Prop where
  length_eq : s.dataLength = t.length
  bytes_eq : s.dataBuffer.upTo t.length = t
  le : t.length ≤ maxBufferSize

/-- The parsed part of the frame, as far as the bytes allowed it. -/
def Parsed (s : FsUserdata) (p : List UInt8) : Prop :=
  match s.state with
  | .noCommand => s.readPoint = 0 ∧ s.payload = 0
  | .noSize => s.readPoint = 2 ∧ ∃ c x body, p = c :: x :: body ∧ commandOf c = s.command ∧
      s.command ≠ .idle ∧ body.findIdx? (· = pipe) = none
  | .noData => ∃ c x body k, p = c :: x :: body ∧ commandOf c = s.command ∧ s.command ≠ .idle ∧
      body.findIdx? (· = pipe) = some k ∧ s.readPoint = 2 + (k + 1) ∧ s.payload = atoi (body.take k)

structure Holds (s : FsUserdata) (p : List UInt8) : Prop extends Content s p where
  parsed : Parsed s p

theorem Holds.pending_eq {s : FsUserdata} {p : List UInt8} (h : Holds s p) :
    s.dataBuffer.upTo s.dataLength = p := by
  rw [h.length_eq, h.bytes_eq]

theorem holds_fresh (dataBuffer : Block UInt8 maxBufferSize) : Holds (.fresh dataBuffer) [] :=
  ⟨⟨rfl, rfl, Nat.zero_le _⟩, rfl, rfl⟩

namespace Content

variable {s : FsUserdata} {t : List UInt8}

theorem memory_take (h : Content s t) : s.memory.take t.length = t := by
  have hle : t.length ≤ s.dataBuffer.cells.length := by rw [s.dataBuffer.size_eq]; exact h.le
  rw [FsUserdata.memory, List.take_append_of_le_length hle]
  exact h.bytes_eq

theorem memory_eq (h : Content s t) : s.memory = t ++ s.memory.drop t.length := by
  conv_lhs => rw [← List.take_append_drop t.length s.memory, h.memory_take]

theorem peek_zero {c : UInt8} {cs : List UInt8} (h : Content s (c :: cs)) : s.peek 0 = c := by
  rw [FsUserdata.peek, h.memory_eq]
  rfl

theorem field_eq (h : Content s t) {p : Nat} (hp : p ≤ t.length) :
    (s.memory.drop p).take (sub32 s.dataLength p) = t.drop p := by
  have hle := h.le
  have hsmall : maxBufferSize < 2 ^ 32 := by decide
  rw [h.length_eq, sub32_of_le hp (by omega), List.take_drop, show p + (t.length - p) = t.length by omega,
    h.memory_take]

end Content

/-! ### The header -/

theorem mem_reads {start count : Nat} {a : Action} (h : a ∈ reads start count) :
    ∃ i < start + count, a = .read i := by
  obtain ⟨i, hi, rfl⟩ := List.mem_map.mp h
  exact ⟨start + i, Nat.add_lt_add_left (List.mem_range.mp hi) start, rfl⟩

/-- The header of the bytes `t` is read: they declare a frame of `n` bytes. -/
structure HeaderRead (s : FsUserdata) (t : List UInt8) (n : Nat) : Prop where
  content : Content s t
  parsed : 2 < n → Parsed s t
  size_eq : s.readPoint + s.payload = n
  readPoint_le : s.readPoint ≤ t.length
  command_eq : s.command = commandOf (t.headD 0)
  readPoint_eq : s.readPoint = headerLength t

/-- The actions read the first bytes of the buffer only. -/
def ReadsBelow (m : Nat) (actions : List Action) : Prop := ∀ y ∈ actions, ∃ i < m, y = .read i

theorem ReadsBelow.append {m : Nat} {a b : List Action} (ha : ReadsBelow m a) (hb : ReadsBelow m b) :
    ReadsBelow m (a ++ b) := List.forall_mem_append.mpr ⟨ha, hb⟩

theorem readsBelow_reads {start count m : Nat} (h : start + count ≤ m) : ReadsBelow m (reads start count) := by
  intro y hy
  obtain ⟨i, hi, rfl⟩ := mem_reads hy
  exact ⟨i, by omega, rfl⟩

/-- What the two steps on the header do: the call returns when no length is declared yet, else the header
is read. -/
structure ReadsHeader (s : FsUserdata) (t : List UInt8) : Prop where
  waits : declaredSize t = none →
    (∃ a, s.takeCommand = (none, a) ∧ Holds s t ∧ ReadsBelow t.length a) ∨
      ∃ s₂ a b, s.takeCommand = (some s₂, a) ∧ s₂.takeSize = (none, b) ∧ Holds s₂ t ∧
        ReadsBelow t.length (a ++ b)
  proceeds : ∀ n, declaredSize t = some n →
    ∃ s₂ a s₃ b, s.takeCommand = (some s₂, a) ∧ s₂.takeSize = (some s₃, b) ∧ HeaderRead s₃ t n ∧
      ReadsBelow t.length (a ++ b)

section Header

variable {s : FsUserdata} {c x : UInt8} {body : List UInt8}

private theorem takeSize_none (hcontent : Content s (c :: x :: body)) (hstate : s.state = .noSize)
    (hpoint : s.readPoint = 2) (hfind : body.findIdx? (· = pipe) = none) :
    ∃ b, s.takeSize = (none, b) ∧ ReadsBelow (c :: x :: body).length b := by
  have hfield : (s.memory.drop s.readPoint).take (sub32 s.dataLength s.readPoint) = body := by
    rw [hpoint, hcontent.field_eq (by simp)]
    rfl
  refine ⟨reads s.readPoint body.length, ?_, readsBelow_reads (by rw [hpoint]; simp; omega)⟩
  rw [FsUserdata.takeSize, if_pos hstate]
  simp only [hfield, hfind]

theorem takeSize_some {k : Nat} (hcontent : Content s (c :: x :: body)) (hstate : s.state = .noSize)
    (hpoint : s.readPoint = 2) (hfind : body.findIdx? (· = pipe) = some k) :
    ∃ b, s.takeSize =
        (some { s with payload := atoi (body.take k), readPoint := s.readPoint + k + 1, state := .noData }, b) ∧
      ReadsBelow (c :: x :: body).length b := by
  have hfield : (s.memory.drop s.readPoint).take (sub32 s.dataLength s.readPoint) = body := by
    rw [hpoint, hcontent.field_eq (by simp)]
    rfl
  have hk := findIdx?_lt hfind
  have hlen : (c :: x :: body).length = body.length + 2 := rfl
  let digits := ((body.take k).takeWhile fun c => decide (IsDigit c)).length
  refine ⟨reads s.readPoint (k + 1) ++ reads s.readPoint (min k (digits + 1)), ?_, ?_⟩
  · rw [FsUserdata.takeSize, if_pos hstate]
    simp only [hfield, hfind, digits]
  · exact (readsBelow_reads (by omega)).append (readsBelow_reads (by omega))

/-- A server that knows the command, but not the size. -/
private theorem readsHeader_of_noSize {s₂ : FsUserdata} {a : List Action} (htake : s.takeCommand = (some s₂, a))
    (ha : ReadsBelow (c :: x :: body).length a) (hcontent : Content s₂ (c :: x :: body))
    (hstate : s₂.state = .noSize) (hpoint : s₂.readPoint = 2) (hcommand : commandOf c = s₂.command)
    (hidle : s₂.command ≠ .idle) : ReadsHeader s (c :: x :: body) := by
  have hidle' : commandOf c ≠ .idle := hcommand ▸ hidle
  cases hfind : body.findIdx? (· = pipe) with
  | none =>
    have hsize : declaredSize (c :: x :: body) = none := by rw [declaredSize, if_neg hidle', hfind, Option.map_none]
    obtain ⟨b, hnone, hb⟩ := takeSize_none hcontent hstate hpoint hfind
    refine ⟨fun _ => Or.inr ⟨s₂, a, b, htake, hnone, ⟨hcontent, ?_⟩, ha.append hb⟩, fun n hn => ?_⟩
    · rw [Parsed, hstate]
      exact ⟨hpoint, c, x, body, rfl, hcommand, hidle, hfind⟩
    · exact absurd hn (by rw [hsize]; simp)
  | some k =>
    have hsize : declaredSize (c :: x :: body) = some (2 + (k + 1) + atoi (body.take k)) := by
      rw [declaredSize, if_neg hidle', hfind, Option.map_some]
    obtain ⟨b, hsome, hb⟩ := takeSize_some hcontent hstate hpoint hfind
    have hk := findIdx?_lt hfind
    refine ⟨fun h => absurd h (by rw [hsize]; simp), fun n hn => ?_⟩
    rw [hsize] at hn
    obtain rfl := Option.some.inj hn
    refine ⟨s₂, a, _, b, htake, hsome, ⟨⟨hcontent.length_eq, hcontent.bytes_eq, hcontent.le⟩, fun _ => ?_, ?_, ?_,
      hcommand.symm, ?_⟩, ha.append hb⟩
    · exact ⟨c, x, body, k, rfl, hcommand, hidle, hfind, by simp only; omega, rfl⟩
    · simp only
      omega
    · simp only [List.length_cons]
      omega
    · rw [headerLength, if_neg hidle', hfind]
      simp only [Option.getD_some]
      omega

/-- A server that waits for a command. -/
private theorem readsHeader_of_noCommand {t : List UInt8} (hcontent : Content s t) (hstate : s.state = .noCommand)
    (hpoint : s.readPoint = 0) (hpayload : s.payload = 0) : ReadsHeader s t := by
  have hlen := hcontent.length_eq
  match t with
  | [] | [_] =>
    refine ⟨fun _ => Or.inl ⟨[], ?_, ⟨hcontent, ?_⟩, fun _ h => absurd h List.not_mem_nil⟩,
      fun n hn => absurd hn (by simp [declaredSize])⟩
    · rw [FsUserdata.takeCommand, if_pos hstate, if_neg (by rw [hlen]; simp)]
    · rw [Parsed, hstate]
      exact ⟨hpoint, hpayload⟩
  | c :: x :: body =>
    have htwo : 2 ≤ s.dataLength := by rw [hlen]; simp
    have hread : ReadsBelow (c :: x :: body).length [.read 0] := by
      intro y hy
      exact ⟨0, by simp, List.mem_singleton.mp hy⟩
    by_cases hidle : commandOf c = .idle
    · have htake : s.takeCommand =
          (some { s with readPoint := 2, command := .idle, state := .noCommand }, [.read 0]) := by
        rw [FsUserdata.takeCommand, if_pos hstate, if_pos htwo]
        simp only [hcontent.peek_zero, hidle, ne_eq, not_true_eq_false, if_false]
      refine ⟨fun h => absurd h (by simp [declaredSize, hidle]), fun n hn => ?_⟩
      have hn2 : n = 2 := by simpa [declaredSize, hidle] using hn.symm
      refine ⟨_, _, _, [], htake, rfl,
        ⟨⟨hlen, hcontent.bytes_eq, hcontent.le⟩, ?_, ?_, ?_, hidle.symm, ?_⟩, hread⟩
      · omega
      · simp only [hpayload]
        omega
      · simp
      · rw [headerLength, if_pos hidle]
    · have htake : s.takeCommand =
          (some { s with readPoint := 2, command := commandOf c, state := .noSize }, [.read 0]) := by
        rw [FsUserdata.takeCommand, if_pos hstate, if_pos htwo]
        simp only [hcontent.peek_zero, hidle, ne_eq, not_false_eq_true, if_true]
      exact readsHeader_of_noSize htake hread ⟨hlen, hcontent.bytes_eq, hcontent.le⟩ rfl rfl rfl hidle

/-- A server that knows the command and the size. -/
private theorem readsHeader_of_noData {u : List UInt8} {k : Nat} (hcontent : Content s (c :: x :: (body ++ u)))
    (hstate : s.state = .noData) (hcommand : commandOf c = s.command) (hidle : s.command ≠ .idle)
    (hfind : body.findIdx? (· = pipe) = some k) (hpoint : s.readPoint = 2 + (k + 1))
    (hpayload : s.payload = atoi (body.take k)) : ReadsHeader s (c :: x :: (body ++ u)) := by
  have hk := findIdx?_lt hfind
  have hidle' : commandOf c ≠ .idle := hcommand ▸ hidle
  have hfind' : (body ++ u).findIdx? (· = pipe) = some k := by
    rw [List.findIdx?_append, hfind, Option.some_or]
  have htake : (body ++ u).take k = body.take k := List.take_append_of_le_length hk.le
  have hsize : declaredSize (c :: x :: (body ++ u)) = some (s.readPoint + s.payload) := by
    rw [declaredSize, if_neg hidle', hfind', Option.map_some, htake, hpoint, hpayload]
  refine ⟨fun h => absurd h (by rw [hsize]; simp), fun n hn => ?_⟩
  refine ⟨s, [], s, [], ?_, ?_, ⟨hcontent, fun _ => ?_, ?_, ?_, hcommand.symm, ?_⟩,
    fun _ h => absurd h List.not_mem_nil⟩
  · rw [FsUserdata.takeCommand, if_neg (by rw [hstate]; decide)]
  · rw [FsUserdata.takeSize, if_neg (by rw [hstate]; decide)]
  · rw [Parsed, hstate]
    exact ⟨c, x, body ++ u, k, rfl, hcommand, hidle, hfind', hpoint, by rw [htake]; exact hpayload⟩
  · exact Option.some.inj (hsize.symm.trans hn)
  · rw [hpoint]
    simp
    omega
  · rw [hpoint, headerLength, if_neg hidle', hfind']
    rfl

end Header

/-- The header of the bytes in the buffer, read from where an earlier callback left off. -/
theorem header_spec {s : FsUserdata} {p t : List UInt8} (hcontent : Content s t) (hparsed : Parsed s p)
    (hstart : p <+: t) : ReadsHeader s t := by
  cases hstate : s.state with
  | noCommand =>
    rw [Parsed, hstate] at hparsed
    exact readsHeader_of_noCommand hcontent hstate hparsed.1 hparsed.2
  | noSize =>
    rw [Parsed, hstate] at hparsed
    obtain ⟨hpoint, c, x, body, rfl, hcommand, hidle, -⟩ := hparsed
    obtain ⟨u, rfl⟩ := hstart
    have htake : s.takeCommand = (some s, []) := by
      rw [FsUserdata.takeCommand, if_neg (by rw [hstate]; decide)]
    exact readsHeader_of_noSize htake (fun _ h => absurd h List.not_mem_nil) hcontent hstate hpoint hcommand hidle
  | noData =>
    rw [Parsed, hstate] at hparsed
    obtain ⟨c, x, body, k, rfl, hcommand, hidle, hfind, hpoint, hpayload⟩ := hparsed
    obtain ⟨u, rfl⟩ := hstart
    exact readsHeader_of_noData hcontent hstate hcommand hidle hfind hpoint hpayload

/-! ### The frame -/

/-- The text the frame carries, as the code sees it: up to the first zero byte of the payload. -/
def frameText (frame : List UInt8) : List UInt8 := (frame.drop (headerLength frame)).takeWhile (· ≠ 0)

/-- The command of a frame executed on the globals. -/
def executeFrame {σ : Type} (P : Platform σ) (w : World σ) (frame : List UInt8) : Bool × World σ :=
  execute P w (commandOf (frame.headD 0)) (frameText frame)

theorem headerLength_take {t : List UInt8} {n : Nat} (h : declaredSize t = some n) (hle : n ≤ t.length) :
    headerLength (t.take n) = headerLength t := by
  match t, h with
  | c :: x :: body, h =>
    have hwhole : declaredSize ((c :: x :: body).take n) = some n :=
      framing.size_take (show framing.size (c :: x :: body) = some n from h) hle
    rw [declaredSize] at h
    split_ifs at h with hidle
    · cases h
      rw [List.take_succ_cons, List.take_succ_cons, headerLength, headerLength, if_pos hidle, if_pos hidle]
    · obtain ⟨k, hk, rfl⟩ := Option.map_eq_some_iff.mp h
      obtain ⟨m, hm⟩ : ∃ m, 2 + (k + 1) + atoi (body.take k) = m + 2 :=
        ⟨k + 1 + atoi (body.take k), by omega⟩
      rw [hm, List.take_succ_cons, List.take_succ_cons] at hwhole ⊢
      rw [declaredSize, if_neg hidle] at hwhole
      obtain ⟨k', hk', -⟩ := Option.map_eq_some_iff.mp hwhole
      have hsame : k' = k := by
        have happend : body.findIdx? (· = pipe) = some k' := by
          rw [← List.take_append_drop m body, List.findIdx?_append, hk', Option.some_or]
        exact Option.some.inj (happend.symm.trans hk)
      rw [headerLength, headerLength, if_neg hidle, if_neg hidle, hk', hk, hsame]

/-- A cell that is overwritten and restored, the low byte of the length behind the buffer included. -/
theorem FsUserdata.poke_restore (s : FsUserdata) {i : Nat} (hi : i ≤ maxBufferSize) (v : UInt8) :
    (s.poke i v).poke i (s.peek i) = s := by
  have hsize := s.dataBuffer.size_eq
  rcases Nat.lt_or_eq_of_le hi with hlt | rfl
  · have hcell : i < s.dataBuffer.cells.length := by omega
    have hpeek : s.peek i = s.dataBuffer.cells.get ⟨i, hcell⟩ := by
      rw [FsUserdata.peek, FsUserdata.memory, List.getD_eq_getElem?_getD, List.getElem?_append_left hcell,
        List.getElem?_eq_getElem hcell]
      rfl
    have hset : (s.dataBuffer.set i v).set i (s.peek i) = s.dataBuffer := by
      rw [hpeek]
      unfold Block.set
      congr 1
      rw [List.set_set]
      exact List.set_getElem_self hcell
    rw [FsUserdata.poke, if_pos hlt, FsUserdata.poke, if_pos hlt]
    simp only [hset]
  · have hpeek : (s.peek maxBufferSize).toNat = s.dataLength % 2 ^ 8 := by
      rw [FsUserdata.peek, FsUserdata.memory, List.getD_eq_getElem?_getD,
        List.getElem?_append_right (by omega), hsize, Nat.sub_self]
      simp [littleEndian]
    have hv := v.toNat_lt
    have hnot : ¬ maxBufferSize < maxBufferSize := lt_irrefl _
    simp only [FsUserdata.poke, if_neg hnot, if_true, hpeek]
    have hlength : s.dataLength - s.dataLength % 2 ^ 8 + v.toNat -
        (s.dataLength - s.dataLength % 2 ^ 8 + v.toNat) % 2 ^ 8 + s.dataLength % 2 ^ 8 = s.dataLength := by
      omega
    rw [hlength]

private theorem terminated_memory {s : FsUserdata} {t : List UInt8} (hcontent : Content s t) {n : Nat}
    (hn : n ≤ t.length) : ∃ rest, (s.poke n 0).memory = t.take n ++ 0 :: rest := by
  have hsize := s.dataBuffer.size_eq
  have hle := hcontent.le
  have hcells : s.dataBuffer.cells.take n = t.take n := by
    conv_rhs => rw [← hcontent.bytes_eq, Block.upTo, List.take_take, Nat.min_eq_left hn]
  by_cases hlt : n < maxBufferSize
  · refine ⟨s.dataBuffer.cells.drop (n + 1) ++ littleEndian s.dataLength, ?_⟩
    rw [FsUserdata.poke, if_pos hlt, FsUserdata.memory, Block.set]
    dsimp only
    rw [List.set_eq_take_append_cons_drop, if_pos (by omega), hcells]
    simp
  · have hn64 : n = maxBufferSize := by omega
    have hlength : s.dataLength = maxBufferSize := by rw [hcontent.length_eq]; omega
    refine ⟨[0, 0, 0], ?_⟩
    rw [FsUserdata.poke, if_neg hlt, if_pos hn64, FsUserdata.memory]
    dsimp only
    rw [← hcells, hlength, List.take_of_length_le (by omega)]
    rfl

/-- The actions on a complete frame of `n` bytes at the head of the bytes `t` in the buffer. -/
def frameActions (s : FsUserdata) (t : List UInt8) (n : Nat) (success : Bool) : List Action :=
  [.read n, .write n 0] ++ reads s.readPoint ((frameText (t.take n)).length + 1) ++
    [.execute s.command (t.take n) success, .write n (s.peek n),
      .sent (ascii (if success then "Y|" else "N|")), .sentBuffer (t.take n)] ++
    reads 0 n ++ (if success then [] else [.disconnect]) ++
    FsUserdata.moveActions s.dataBuffer.cells n (t.length - n)

section Receive

variable {σ : Type} {P : Platform σ} {w : World σ} {s : FsUserdata} {t : List UInt8} {n : Nat}

theorem takeData_complete (hcontent : Content s t) (hsize : declaredSize t = some n) (hle : n ≤ t.length)
    (hn : s.readPoint + s.payload = n) (hheader : s.readPoint = headerLength t)
    (hcommand : s.command = commandOf (t.headD 0)) :
    ∃ s', s.takeData P w = (s', (executeFrame P w (t.take n)).2,
        frameActions s t n (executeFrame P w (t.take n)).1) ∧
      Holds s' (t.drop n) ∧ (t.length = n → s'.dataBuffer = s.dataBuffer) := by
  have h64 := hcontent.le
  have hsmall : maxBufferSize = 64 := rfl
  have hlength := hcontent.length_eq
  have hpacket : wrap32 (s.readPoint + s.payload) % 2 ^ 16 = n := by
    rw [hn, wrap32_of_lt (by omega), Nat.mod_eq_of_lt (by omega)]
  have hpos : 0 < n := framing.size_pos (show framing.size t = some n from hsize)
  have hframe : s.memory.take n = t.take n := by
    conv_rhs => rw [← hcontent.memory_take, List.take_take, Nat.min_eq_left hle]
  have hpoint : (s.poke n 0).readPoint = s.readPoint := by
    rw [FsUserdata.poke]
    split_ifs <;> rfl
  have htext : cstring (s.poke n 0).memory (s.poke n 0).readPoint = frameText (t.take n) := by
    obtain ⟨rest, hrest⟩ := terminated_memory hcontent hle
    rw [hrest, hpoint, cstring_of_terminated (by rw [List.length_take]; omega), frameText,
      headerLength_take hsize hle, hheader]
  have hhead : s.command = commandOf ((t.take n).headD 0) := by
    obtain ⟨m, rfl⟩ : ∃ m, n = m + 1 := ⟨n - 1, by omega⟩
    rw [hcommand]
    cases t <;> rfl
  refine ⟨⟨if 0 < t.length - n then s.dataBuffer.move 0 n (t.length - n) else s.dataBuffer,
    t.length - n, 0, 0, .noCommand, .idle⟩, ?_, ?_, fun hall => if_neg (by omega)⟩
  · rw [FsUserdata.takeData, if_pos (by rw [sub32_of_le (by omega) (by omega)]; omega)]
    dsimp only
    rw [hpacket, s.poke_restore (by omega), hframe, htext, hpoint, hlength,
      sub32_of_le hle (by omega), hhead]
    simp only [frameActions, executeFrame, hhead]
    rfl
  · have hdrop : (t.drop n).length = t.length - n := List.length_drop
    refine ⟨⟨hdrop.symm, ?_, by rw [hdrop]; omega⟩, rfl, rfl⟩
    by_cases hmore : 0 < t.length - n
    · simp only [if_pos hmore, hdrop]
      rw [Block.upTo_move _ _ _ (by omega), show n + (t.length - n) = t.length by omega, hcontent.bytes_eq]
    · have hnil : t.drop n = [] := List.drop_of_length_le (by omega)
      simp [hnil, Block.upTo]

theorem takeData_partial (hcontent : Content s t) (hn : s.readPoint + s.payload = n)
    (hle : s.readPoint ≤ t.length) (hlt : t.length < n) : s.takeData P w = (s, w, []) := by
  have h64 := hcontent.le
  have hsmall : maxBufferSize = 64 := rfl
  have hlength := hcontent.length_eq
  rw [FsUserdata.takeData, if_neg (by rw [sub32_of_le (by omega) (by omega)]; omega)]

/-! ### One call -/

/-- A read or write of a cell below an index. -/
def Action.AccessBelow (bound : Nat) : Action → Prop
  | .read i => i < bound
  | .write i _ => i < bound
  | _ => False

theorem mem_writes {start : Nat} {bytes : List UInt8} {a : Action} (h : a ∈ writes start bytes) :
    ∃ i v, start ≤ i ∧ i < start + bytes.length ∧ a = .write i v := by
  obtain ⟨i, hi, rfl⟩ := List.mem_mapIdx.mp h
  exact ⟨start + i, bytes[i], Nat.le_add_right _ _, Nat.add_lt_add_left hi start, rfl⟩

variable {p data filled : List UInt8}

private theorem sub32_maxBufferSize (h : Content s p) : sub32 maxBufferSize s.dataLength = maxBufferSize - p.length := by
  rw [h.length_eq]
  exact sub32_of_le h.le (by decide)

theorem pass_refused (h : Content s p) (hcopy : min data.length (maxBufferSize - p.length) = 0) :
    pass P w s data = ⟨s, w, [.disconnect], none⟩ := by
  rw [pass, sub32_maxBufferSize h]
  exact if_pos hcopy

/-- The server with the bytes that were copied in front of everything else a call does. -/
private def copyIn (s : FsUserdata) (bytes : List UInt8) : FsUserdata :=
  { s with dataBuffer := s.dataBuffer.store s.dataLength bytes, dataLength := s.dataLength + bytes.length }

private theorem copyIn_content (h : Content s p) {bytes : List UInt8}
    (hroom : p.length + bytes.length ≤ maxBufferSize) : Content (copyIn s bytes) (p ++ bytes) := by
  refine ⟨?_, ?_, by rw [List.length_append]; exact hroom⟩
  · rw [copyIn, h.length_eq, List.length_append]
  · rw [copyIn, h.length_eq, List.length_append]
    dsimp only
    rw [Block.upTo_store _ _ _ hroom, h.bytes_eq]

private theorem pass_copied (h : Content s p) (hcopy : min data.length (maxBufferSize - p.length) ≠ 0) :
    pass P w s data =
      let bytes := data.take (maxBufferSize - p.length)
      match (copyIn s bytes).takeCommand with
      | (none, a) => ⟨copyIn s bytes, w, writes p.length bytes ++ a, none⟩
      | (some s₂, a) =>
        match s₂.takeSize with
        | (none, b) => ⟨s₂, w, writes p.length bytes ++ a ++ b, none⟩
        | (some s₃, b) =>
          ⟨(s₃.takeData P w).1, (s₃.takeData P w).2.1,
            writes p.length bytes ++ a ++ b ++ (s₃.takeData P w).2.2,
            some (data.drop (maxBufferSize - p.length))⟩ := by
  have htake : data.take (min data.length (maxBufferSize - p.length)) = data.take (maxBufferSize - p.length) := by
    rw [Nat.min_comm, ← List.take_take, List.take_length]
  have hdrop : data.drop (min data.length (maxBufferSize - p.length)) = data.drop (maxBufferSize - p.length) := by
    rcases Nat.le_total data.length (maxBufferSize - p.length) with hle | hle
    · rw [Nat.min_eq_left hle, List.drop_of_length_le le_rfl, List.drop_of_length_le hle]
    · rw [Nat.min_eq_right hle]
  have hlen : min data.length (maxBufferSize - p.length) = (data.take (maxBufferSize - p.length)).length := by
    rw [List.length_take, Nat.min_comm]
  rw [pass, sub32_maxBufferSize h, if_neg hcopy, htake, hdrop, hlen, h.length_eq]
  unfold copyIn
  rewrite [h.length_eq]
  rfl

private theorem access_of_copied {a : List Action}
    (hfilled : filled = p ++ data.take (maxBufferSize - p.length)) (hreads : ReadsBelow filled.length a) :
    ∀ y ∈ writes p.length (data.take (maxBufferSize - p.length)) ++ a, y.AccessBelow filled.length := by
  refine List.forall_mem_append.mpr ⟨fun y hy => ?_, fun y hy => ?_⟩
  · obtain ⟨i, v, -, hi, rfl⟩ := mem_writes hy
    rw [hfilled, List.length_append]
    exact hi
  · obtain ⟨i, hi, rfl⟩ := hreads y hy
    exact hi

/-- A call that finds no declared length returns, whatever it has not copied. -/
theorem pass_undetermined (h : Holds s p) (hcopy : min data.length (maxBufferSize - p.length) ≠ 0)
    (hfilled : filled = p ++ data.take (maxBufferSize - p.length)) (hsize : declaredSize filled = none) :
    ∃ s' a, pass P w s data = ⟨s', w, a, none⟩ ∧ Holds s' filled ∧
      ∀ y ∈ a, y.AccessBelow filled.length := by
  have hle := h.le
  have hcontent : Content (copyIn s (data.take (maxBufferSize - p.length))) filled :=
    hfilled ▸ copyIn_content h.toContent (by rw [List.length_take]; omega)
  have hheader := (header_spec hcontent h.parsed (hfilled ▸ List.prefix_append p _)).waits hsize
  rw [pass_copied h.toContent hcopy]
  rcases hheader with ⟨a, htake, hholds, hreads⟩ | ⟨s₂, a, b, htake, hnone, hholds, hreads⟩
  · simp only [htake]
    exact ⟨_, _, rfl, hholds, access_of_copied hfilled hreads⟩
  · simp only [htake, hnone, List.append_assoc]
    exact ⟨_, _, rfl, hholds, access_of_copied hfilled hreads⟩

theorem pass_partial (h : Holds s p) (hcopy : min data.length (maxBufferSize - p.length) ≠ 0)
    (hfilled : filled = p ++ data.take (maxBufferSize - p.length)) (hsize : declaredSize filled = some n)
    (hlt : filled.length < n) :
    ∃ s' a, pass P w s data = ⟨s', w, a, some (data.drop (maxBufferSize - p.length))⟩ ∧
      Holds s' filled ∧ ∀ y ∈ a, y.AccessBelow filled.length := by
  have hle := h.le
  have hcontent : Content (copyIn s (data.take (maxBufferSize - p.length))) filled :=
    hfilled ▸ copyIn_content h.toContent (by rw [List.length_take]; omega)
  obtain ⟨s₂, a, s₃, b, htake, hsome, ⟨hcontent₃, hparsed, hn, hpoint, -, -⟩, hreads⟩ :=
    (header_spec hcontent h.parsed (hfilled ▸ List.prefix_append p _)).proceeds n hsize
  have htwo := declaredSize_length hsize
  rw [pass_copied h.toContent hcopy]
  simp only [htake, hsome, takeData_partial hcontent₃ hn hpoint hlt, List.append_nil]
  refine ⟨_, _, rfl, ⟨hcontent₃, hparsed (by omega)⟩, ?_⟩
  rw [List.append_assoc]
  exact access_of_copied hfilled hreads

/-- A call that finds a complete frame executes and answers it and keeps the bytes behind it. -/
theorem pass_frame (h : Holds s p) (hcopy : min data.length (maxBufferSize - p.length) ≠ 0)
    (hfilled : filled = p ++ data.take (maxBufferSize - p.length)) (hsize : declaredSize filled = some n)
    (hle : n ≤ filled.length) :
    ∃ s₃ a s', pass P w s data = ⟨s', (executeFrame P w (filled.take n)).2,
        a ++ frameActions s₃ filled n (executeFrame P w (filled.take n)).1,
        some (data.drop (maxBufferSize - p.length))⟩ ∧
      Holds s' (filled.drop n) ∧ Content s₃ filled ∧ s₃.readPoint = headerLength filled ∧
      s₃.readPoint ≤ n ∧ s₃.command = commandOf (filled.headD 0) ∧
      (∀ y ∈ a, y.AccessBelow filled.length) ∧ (filled.length = n → s'.dataBuffer = s₃.dataBuffer) := by
  have hple := h.le
  have hcontent : Content (copyIn s (data.take (maxBufferSize - p.length))) filled :=
    hfilled ▸ copyIn_content h.toContent (by rw [List.length_take]; omega)
  obtain ⟨s₂, a, s₃, b, htake, hsome, ⟨hcontent₃, -, hn, -, hcommand, hheader⟩, hreads⟩ :=
    (header_spec hcontent h.parsed (hfilled ▸ List.prefix_append p _)).proceeds n hsize
  obtain ⟨s', hdata, hholds, hbuffer⟩ :=
    takeData_complete (P := P) (w := w) hcontent₃ hsize hle hn hheader hcommand
  rw [pass_copied h.toContent hcopy]
  simp only [htake, hsome, hdata]
  refine ⟨s₃, _, s', rfl, hholds, hcontent₃, hheader, by omega, hcommand, ?_, hbuffer⟩
  rw [List.append_assoc]
  exact access_of_copied hfilled hreads

/-! ### The callback as a machine on frames -/

/-- The actions of a call other than the accesses to its buffer. -/
def visible (actions : List Action) : List Action :=
  actions.filter fun
    | .read _ | .write _ _ => false
    | _ => true

/-- What an executed frame shows: the execution, the two parts of the answer and, when the command
failed, the disconnect. -/
def exchange (frame : List UInt8) (success : Bool) : List Action :=
  [.execute (commandOf (frame.headD 0)) frame success,
    .sent (ascii (if success then "Y|" else "N|")), .sentBuffer frame] ++
    if success then [] else [.disconnect]

/-- Frames executed and answered one after another. -/
def serve (P : Platform σ) : World σ → List (List UInt8) → World σ × List Action
  | w, [] => (w, [])
  | w, f :: fs =>
    let (success, w') := executeFrame P w f
    let rest := serve P w' fs
    (rest.1, exchange f success ++ rest.2)

theorem visible_append (a b : List Action) : visible (a ++ b) = visible a ++ visible b :=
  List.filter_append ..

theorem visible_of_access {a : List Action} {m : Nat} (h : ∀ y ∈ a, y.AccessBelow m) : visible a = [] := by
  rw [visible, List.filter_eq_nil_iff]
  intro y hy
  have := h y hy
  cases y <;> simp_all [Action.AccessBelow]

theorem visible_reads (start count : Nat) : visible (reads start count) = [] :=
  visible_of_access (m := start + count) fun y hy => by
    obtain ⟨i, hi, rfl⟩ := mem_reads hy
    exact hi

theorem mem_moveActions {cells : List UInt8} {source count : Nat} {y : Action}
    (h : y ∈ FsUserdata.moveActions cells source count) : y.AccessBelow (source + count) := by
  obtain ⟨i, hi, hy⟩ := List.mem_flatMap.mp h
  have hi := List.mem_range.mp hi
  rcases List.mem_cons.mp hy with rfl | hy
  · exact Nat.add_lt_add_left hi source
  · rw [List.mem_singleton.mp hy]
    exact Nat.lt_of_lt_of_le hi (Nat.le_add_left _ _)

theorem visible_frameActions (hpos : 0 < n) (hcommand : s.command = commandOf (t.headD 0)) (success : Bool) :
    visible (frameActions s t n success) = exchange (t.take n) success := by
  have hhead : (t.take n).headD 0 = t.headD 0 := by
    obtain ⟨m, rfl⟩ : ∃ m, n = m + 1 := ⟨n - 1, by omega⟩
    cases t <;> rfl
  have hmove : visible (FsUserdata.moveActions s.dataBuffer.cells n (t.length - n)) = [] :=
    visible_of_access fun y hy => mem_moveActions hy
  rw [frameActions, exchange, hhead, ← hcommand]
  simp only [visible_append, visible_reads, hmove, List.append_nil]
  cases success <;> rfl

/-- A callback that fills the buffer without completing a frame executes nothing. It refuses what it has
no room for. -/
theorem fsDataReceived_blocked (P : Platform σ) (w : World σ) (h : Holds s p)
    (hcopy : min data.length (maxBufferSize - p.length) ≠ 0)
    (hfilled : filled = p ++ data.take (maxBufferSize - p.length))
    (hblocked : ∀ n, declaredSize filled = some n → filled.length < n) :
    ∃ s' a refused, framing.absorb maxBufferSize p data = ⟨filled, [], refused⟩ ∧
      fsDataReceived P w s data = ⟨s', w, a ++ if refused then [.disconnect] else []⟩ ∧ Holds s' filled ∧
      ∀ y ∈ a, y.AccessBelow filled.length := by
  cases hsize : declaredSize filled with
  | none =>
    obtain ⟨s', a, hpass, hholds, haccess⟩ := pass_undetermined (P := P) (w := w) h hcopy hfilled hsize
    refine ⟨s', a, false, Framing.absorb_undetermined hcopy hfilled hsize, ?_, hholds, haccess⟩
    rw [fsDataReceived_eq, hpass, if_neg Bool.false_ne_true, List.append_nil]
  | some n =>
    have hn := hblocked n hsize
    obtain ⟨s', a, hpass, hholds, haccess⟩ := pass_partial (P := P) (w := w) h hcopy hfilled hsize hn
    refine ⟨s', a, _, Framing.absorb_overlong hcopy h.le hfilled hsize hn, ?_, hholds, haccess⟩
    rw [fsDataReceived_eq, hpass]
    cases hrest : data.drop (maxBufferSize - p.length) with
    | nil => simp
    | cons byte bytes =>
      have hfull : filled.length = maxBufferSize := by
        have := congrArg List.length hrest
        rw [List.length_drop, List.length_cons] at this
        rw [hfilled, List.length_append, List.length_take]
        have := h.le
        omega
      have hnext : fsDataReceived P w s' (byte :: bytes) = ⟨s', w, [.disconnect]⟩ := by
        rw [fsDataReceived_eq, pass_refused hholds.toContent (by rw [hfull]; omega)]
      simp [hnext]

/-- For arbitrary bytes, a callback executes and answers the frames `absorb` hands over and keeps in
the buffer what `absorb` leaves; it ends with a disconnect when it finds no room for a byte. -/
theorem fsDataReceived_spec (P : Platform σ) (w : World σ) (h : Holds s p) (data : List UInt8) :
    Holds (fsDataReceived P w s data).server (framing.absorb maxBufferSize p data).pending ∧
      (fsDataReceived P w s data).world = (serve P w (framing.absorb maxBufferSize p data).frames).1 ∧
      visible (fsDataReceived P w s data).actions =
        (serve P w (framing.absorb maxBufferSize p data).frames).2 ++
          if (framing.absorb maxBufferSize p data).refused then [.disconnect] else [] := by
  induction hlen : data.length using Nat.strong_induction_on generalizing data w s p with
  | _ len ih =>
  subst hlen
  by_cases hcopy : min data.length (maxBufferSize - p.length) = 0
  · rw [Framing.absorb_stuck hcopy, fsDataReceived_eq, pass_refused h.toContent hcopy]
    exact ⟨h, rfl, rfl⟩
  obtain ⟨filled, hfilled⟩ : ∃ filled, filled = p ++ data.take (maxBufferSize - p.length) := ⟨_, rfl⟩
  by_cases hblocked : ∀ n, declaredSize filled = some n → filled.length < n
  · obtain ⟨s', a, refused, habsorb, hreceived, hholds, haccess⟩ :=
      fsDataReceived_blocked P w h hcopy hfilled hblocked
    rw [habsorb, hreceived]
    refine ⟨hholds, rfl, ?_⟩
    rw [visible_append, visible_of_access haccess]
    cases refused <;> rfl
  · simp only [not_forall, not_lt] at hblocked
    obtain ⟨n, hsize, hle⟩ := hblocked
    obtain ⟨s₃, a, s', hpass, hholds, -, -, -, hcommand, haccess, -⟩ :=
      pass_frame (P := P) (w := w) h hcopy hfilled hsize hle
    have hpos : 0 < n := framing.size_pos (show framing.size filled = some n from hsize)
    have hvisible := visible_frameActions (s := s₃) hpos hcommand (executeFrame P w (filled.take n)).1
    cases hrest : data.drop (maxBufferSize - p.length) with
    | nil =>
      rw [Framing.absorb_complete_last hcopy hfilled hsize hle hrest, fsDataReceived_eq, hpass, hrest]
      refine ⟨hholds, rfl, ?_⟩
      simp only [visible_append, visible_of_access haccess, hvisible, serve]
      simp
    | cons byte bytes =>
      have hshort : (byte :: bytes).length < data.length := by
        rw [← hrest, List.length_drop]
        omega
      obtain ⟨ihholds, ihworld, ihvisible⟩ :=
        ih _ hshort (w := (executeFrame P w (filled.take n)).2) hholds (byte :: bytes) rfl
      rw [Framing.absorb_complete hcopy hfilled hsize hle hrest.symm (List.cons_ne_nil _ _),
        fsDataReceived_eq, hpass, hrest]
      refine ⟨ihholds, ihworld, ?_⟩
      simp only [visible_append, visible_of_access haccess, hvisible, ihvisible, serve,
        List.nil_append, List.append_assoc]

end Receive

end EspClock.FileServer
