import Mathlib.Data.List.Induction
import EspClock.Lib.Run
import EspClock.FileServer.Reassembly

/-!
# Streams of well-formed frames

A connection that receives the concatenation of well-formed frames, cut into callbacks in any way.
`Received` is the state of such a connection after some of the bytes: the first frames have been
executed and answered and the buffer holds the rest. No byte gets lost. How many frames have been
executed does depend on the cut: the callback calls itself again while bytes are left that it has not
copied, and not while bytes are left in the buffer.
-/

namespace EspClock.FileServer

open Mem Decimal Console

/-! ### Frames -/

/-- A well-formed frame: command letter, `|`, decimal size, `|` and as many bytes, 63 bytes at most. -/
structure Frame where
  letter : UInt8
  digits : List UInt8
  payload : List UInt8
  letter_known : letter ∈ ascii "OWCG"
  digits_ne_nil : digits ≠ []
  digits_decimal : ∀ c ∈ digits, IsDigit c
  size_eq : value digits = payload.length
  short : digits.length + payload.length + 3 ≤ 63

namespace Frame

def bytes (f : Frame) : List UInt8 := f.letter :: pipe :: (f.digits ++ pipe :: f.payload)

def command (f : Frame) : FsCommand := commandOf f.letter

theorem length_bytes (f : Frame) : f.bytes.length = f.digits.length + f.payload.length + 3 := by
  simp only [bytes, List.length_cons, List.length_append]
  omega

theorem command_ne_idle (f : Frame) : commandOf f.letter ≠ .idle := by
  have hall : (ascii "OWCG").all (fun c => decide (commandOf c ≠ .idle)) = true := by decide
  exact of_decide_eq_true (List.all_eq_true.mp hall f.letter f.letter_known)

theorem findIdx_digits (f : Frame) : (f.digits ++ pipe :: f.payload).findIdx? (· = pipe) = some f.digits.length :=
  findIdx?_behind_digits f.digits_decimal (by decide) f.payload

end Frame

/-- On digits that do not overflow, `atoi` is the decimal value. -/
theorem atoiFrom_eq_valueFrom {digits : List UInt8} (hdigits : ∀ c ∈ digits, IsDigit c) (acc : Nat)
    (hsmall : valueFrom acc digits < 2 ^ 32) : atoiFrom acc digits = valueFrom acc digits := by
  induction digits generalizing acc with
  | nil => rfl
  | cons c cs ih =>
    have hstep : acc * 10 + digitValue c < 2 ^ 32 := lt_of_le_of_lt (le_valueFrom _ cs) hsmall
    rw [atoiFrom, if_pos (hdigits c List.mem_cons_self), wrap32_of_lt (n := acc * 10) (by omega),
      wrap32_of_lt hstep, ih (fun d hd => hdigits d (List.mem_cons_of_mem c hd)) _ hsmall]
    rfl

namespace Frame

theorem whole (f : Frame) : framing.Whole f.bytes := by
  have hshort := f.short
  have hatoi : atoi f.digits = f.payload.length := by
    rw [atoi, atoiFrom_eq_valueFrom f.digits_decimal, ← f.size_eq]
    · rfl
    · rw [← value, f.size_eq]
      omega
  rw [Framing.Whole, framing_size, bytes, declaredSize, if_neg f.command_ne_idle, f.findIdx_digits,
    Option.map_some, List.take_left' rfl, hatoi]
  simp only [List.length_cons, List.length_append]
  congr 1
  omega

theorem headerLength_bytes (f : Frame) : headerLength f.bytes = f.digits.length + 3 := by
  rw [bytes, headerLength, if_neg f.command_ne_idle, f.findIdx_digits]
  simp only [Option.getD_some]
  omega

theorem frameText_bytes (f : Frame) : frameText f.bytes = f.payload.takeWhile (· ≠ 0) := by
  have hdrop : f.bytes.drop (f.digits.length + 3) = f.payload := by
    have hsplit : f.bytes = (f.letter :: pipe :: (f.digits ++ [pipe])) ++ f.payload := by simp [bytes]
    rw [hsplit]
    exact List.drop_left' (by simp)
  rw [frameText, headerLength_bytes, hdrop]

end Frame

theorem fits_frames (frames : List Frame) : framing.Fits maxBufferSize (frames.map Frame.bytes) := by
  intro b hb
  obtain ⟨f, -, rfl⟩ := List.mem_map.mp hb
  refine ⟨f.whole, ?_⟩
  rw [f.length_bytes]
  exact Nat.lt_succ_of_le f.short

/-- The concatenation of the frames. -/
def stream (frames : List Frame) : List UInt8 := (frames.map Frame.bytes).flatten

def lengths (frames : List Frame) : List Nat := frames.map fun f => f.bytes.length

theorem lengths_eq (frames : List Frame) : lengths frames = (frames.map Frame.bytes).map List.length := by
  rw [List.map_map]
  rfl

theorem length_stream (frames : List Frame) : (stream frames).length = (lengths frames).sum := by
  rw [stream, List.length_flatten, lengths_eq]

/-! ### The connection -/

variable {σ : Type} (P : Platform σ)

/-- A connection, fed with the data of its receive callbacks. -/
def connection : Machine (FsUserdata × World σ) (List UInt8) Action :=
  ⟨fun s data =>
    let out := fsDataReceived P s.2 s.1 data
    ((out.server, out.world), out.actions)⟩

/-- The frames that were executed, each with its command. -/
def executed (actions : List Action) : List (FsCommand × List UInt8) :=
  actions.filterMap fun
    | .execute command frame _ => some (command, frame)
    | _ => none

/-- The frames that were answered, as the answers quote them. -/
def answered (actions : List Action) : List (List UInt8) :=
  actions.filterMap fun
    | .sentBuffer frame => some frame
    | _ => none

theorem executed_visible (actions : List Action) : executed (visible actions) = executed actions := by
  induction actions with
  | nil => rfl
  | cons a as ih => cases a <;> simp_all [executed, visible]

theorem answered_visible (actions : List Action) : answered (visible actions) = answered actions := by
  induction actions with
  | nil => rfl
  | cons a as ih => cases a <;> simp_all [answered, visible]

theorem executed_append (a b : List Action) : executed (a ++ b) = executed a ++ executed b :=
  List.filterMap_append

theorem answered_append (a b : List Action) : answered (a ++ b) = answered a ++ answered b :=
  List.filterMap_append

theorem executed_exchange (f : Frame) (success : Bool) :
    executed (exchange f.bytes success) = [(f.command, f.bytes)] := by
  cases success <;> rfl

theorem answered_exchange (f : List UInt8) (success : Bool) : answered (exchange f success) = [f] := by
  cases success <;> rfl

theorem serve_append (w : World σ) (fs gs : List (List UInt8)) :
    serve P w (fs ++ gs) = ((serve P (serve P w fs).1 gs).1, (serve P w fs).2 ++ (serve P (serve P w fs).1 gs).2) := by
  induction fs generalizing w with
  | nil => rfl
  | cons f fs ih => simp only [List.cons_append, serve, ih, List.append_assoc]

theorem executed_serve (w : World σ) (frames : List Frame) :
    executed (serve P w (frames.map Frame.bytes)).2 = frames.map fun f => (f.command, f.bytes) := by
  induction frames generalizing w with
  | nil => rfl
  | cons f frames ih =>
    rw [List.map_cons, serve, executed_append, executed_exchange, ih]
    rfl

theorem answered_serve (w : World σ) (fs : List (List UInt8)) : answered (serve P w fs).2 = fs := by
  induction fs generalizing w with
  | nil => rfl
  | cons f fs ih =>
    rw [serve, answered_append, answered_exchange, ih]
    rfl

/-- A connection on which `bytes` of the stream have arrived: the first `k` frames are executed and
answered, the rest of the bytes is in the buffer, and there is room left in it. -/
structure Received (w : World σ) (frames : List Frame) (bytes : List UInt8) (k : Nat)
    (st : FsUserdata × World σ) (actions : List Action) : Prop where
  le : k ≤ frames.length
  pending : ∃ p, Holds st.1 p ∧ bytes = stream (frames.take k) ++ p ∧ p.length < maxBufferSize
  world : st.2 = (serve P w ((frames.take k).map Frame.bytes)).1
  shown : visible actions = (serve P w ((frames.take k).map Frame.bytes)).2

variable {P} {w : World σ} {frames : List Frame} {bytes : List UInt8} {k : Nat}
  {st : FsUserdata × World σ} {actions : List Action}

theorem received_fresh (w : World σ) (frames : List Frame) (dataBuffer : Block UInt8 maxBufferSize) :
    Received P w frames [] 0 (.fresh dataBuffer, w) [] :=
  ⟨Nat.zero_le _, ⟨[], holds_fresh dataBuffer, rfl, by decide⟩, rfl, rfl⟩

/-- A callback that brings the next bytes of the stream. -/
theorem Received.callback (h : Received P w frames bytes k st actions) {data : List UInt8} (hdata : data ≠ [])
    (hstream : bytes ++ data <+: stream frames) :
    Received P w frames (bytes ++ data)
      (k + Framing.handedOver maxBufferSize ((lengths frames).drop k)
        ((bytes ++ data).length - ((lengths frames).take k).sum))
      ((connection P).next st data) (actions ++ (connection P).actions st data) := by
  obtain ⟨hk, ⟨p, hholds, hbytes, hroom⟩, hworld, hshown⟩ := h
  have hsplit : stream frames = stream (frames.take k) ++ stream (frames.drop k) := by
    rw [stream, stream, stream, ← List.flatten_append, ← List.map_append, List.take_append_drop]
  have hnext : p ++ data <+: ((frames.drop k).map Frame.bytes).flatten := by
    rw [hbytes, hsplit, List.append_assoc] at hstream
    exact (List.prefix_append_right_inj _).mp hstream
  have htotal : p.length + data.length = (bytes ++ data).length - ((lengths frames).take k).sum := by
    rw [hbytes, List.length_append, List.length_append, length_stream, lengths, lengths, List.map_take]
    omega
  have hlens : ((frames.drop k).map Frame.bytes).map List.length = (lengths frames).drop k := by
    rw [← lengths_eq, lengths, lengths, List.map_drop]
  obtain ⟨hframes, hconserve, hroom', hrefused⟩ :=
    Framing.absorb_fits (fits_frames (frames.drop k)) hroom hdata hnext
  rw [htotal, hlens] at hframes
  set m := Framing.handedOver maxBufferSize ((lengths frames).drop k)
    ((bytes ++ data).length - ((lengths frames).take k).sum) with hm
  have hmle : k + m ≤ frames.length := by
    have := Framing.handedOver_le_length maxBufferSize ((lengths frames).drop k)
      ((bytes ++ data).length - ((lengths frames).take k).sum)
    rw [List.length_drop, lengths, List.length_map, ← lengths, ← hm] at this
    omega
  have htake : (frames.take (k + m)).map Frame.bytes =
      (frames.take k).map Frame.bytes ++ (framing.absorb maxBufferSize p data).frames := by
    rw [hframes, List.take_add, List.map_append, List.map_take, List.map_take]
  obtain ⟨hholds', hworld', hvisible⟩ := fsDataReceived_spec P st.2 hholds data
  refine ⟨hmle, ⟨_, hholds', ?_, hroom'⟩, ?_, ?_⟩
  · rw [hbytes, List.append_assoc, hconserve, stream, stream, htake, List.flatten_append, List.append_assoc]
  · rw [htake, serve_append, ← hworld]
    exact hworld'
  · rw [htake, serve_append, visible_append, hshown, ← hworld]
    rw [hrefused] at hvisible
    exact congrArg _ (hvisible.trans (List.append_nil _))

theorem Received.executed_eq (h : Received P w frames bytes k st actions) :
    executed actions = (frames.take k).map fun f => (f.command, f.bytes) := by
  rw [← executed_visible, h.shown, executed_serve]

theorem Received.answered_eq (h : Received P w frames bytes k st actions) :
    answered actions = (frames.take k).map Frame.bytes := by
  rw [← answered_visible, h.shown, answered_serve]

/-- A run of callbacks from a fresh connection, read from its last callback. -/
theorem received_run (P : Platform σ) (w : World σ) (frames : List Frame)
    (dataBuffer : Block UInt8 maxBufferSize) {segments : List (List UInt8)}
    (hsegments : ∀ c ∈ segments, c ≠ []) (hstream : segments.flatten <+: stream frames) :
    ∃ k, Received P w frames segments.flatten k ((connection P).final (.fresh dataBuffer, w) segments)
      ((connection P).trace (.fresh dataBuffer, w) segments) := by
  induction segments using List.reverseRecOn with
  | nil => exact ⟨0, received_fresh w frames dataBuffer⟩
  | append_singleton segments c ih =>
    rw [List.flatten_append, List.flatten_singleton] at hstream ⊢
    obtain ⟨k, hk⟩ := ih (fun d hd => hsegments d (List.mem_append_left _ hd))
      ((List.prefix_append _ _).trans hstream)
    have hnext := hk.callback (hsegments c (by simp)) hstream
    rw [Machine.final_append, Machine.trace_append]
    simp only [Machine.final_cons, Machine.final_nil, Machine.trace_cons, Machine.trace_nil, List.append_nil]
    exact ⟨_, hnext⟩

/-- After every callback the bytes received so far are the frames executed so far, the first ones of
the stream, followed by the bytes in the buffer. -/
theorem stream_reassembled (P : Platform σ) (w : World σ) (dataBuffer : Block UInt8 maxBufferSize)
    (frames : List Frame) (segments : List (List UInt8))
    (hsegments : ∀ c ∈ segments, c ≠ [] ∧ c.length ≤ 65535) (hstream : segments.flatten <+: stream frames) :
    ∃ k, executed ((connection P).trace (.fresh dataBuffer, w) segments) =
        (frames.take k).map (fun f => (f.command, f.bytes)) ∧
      segments.flatten = stream (frames.take k) ++
        ((connection P).final (.fresh dataBuffer, w) segments).1.dataBuffer.upTo
          ((connection P).final (.fresh dataBuffer, w) segments).1.dataLength := by
  obtain ⟨k, hk⟩ := received_run P w frames dataBuffer
    (fun c hc => (hsegments c hc).1) hstream
  obtain ⟨p, hholds, hbytes, -⟩ := hk.pending
  refine ⟨k, hk.executed_eq, ?_⟩
  rw [hholds.length_eq, hholds.bytes_eq]
  exact hbytes

/-- The frame `C|0|`. -/
def Frame.closing : Frame :=
  ⟨67, [48], [], by decide, by decide, List.forall_mem_singleton.mpr (by decide), rfl, by decide⟩

/-- Two frames, the second one cut in two. -/
theorem stream_reassembled_cut_frame :
    ∃ k, executed ((connection .accepting).trace (.fresh (Block.fill _ 0), .initial)
        [ascii "C|0|C|", ascii "0|"]) =
        ([Frame.closing, Frame.closing].take k).map (fun f => (f.command, f.bytes)) ∧
      [ascii "C|0|C|", ascii "0|"].flatten = stream ([Frame.closing, Frame.closing].take k) ++
        ((connection .accepting).final (.fresh (Block.fill _ 0), .initial)
          [ascii "C|0|C|", ascii "0|"]).1.dataBuffer.upTo
          ((connection .accepting).final (.fresh (Block.fill _ 0), .initial)
            [ascii "C|0|C|", ascii "0|"]).1.dataLength :=
  stream_reassembled .accepting .initial (Block.fill _ 0) [.closing, .closing]
    [ascii "C|0|C|", ascii "0|"] (by decide) (by decide)

/-! ### Frames that wait in the buffer -/

/-- All frames whose last byte is among the bytes received are executed and answered, in order and
no others. -/
def CaughtUp (frames : List Frame) (received : Nat) (actions : List Action) : Prop :=
  executed actions = (frames.take (Framing.completed (lengths frames) received)).map
      (fun f => (f.command, f.bytes)) ∧
    answered actions = (frames.take (Framing.completed (lengths frames) received)).map Frame.bytes

/-- Of any two consecutive frames that end in the callback that brings the stream from `before` to
`after` bytes, the first one starts more than a buffer before the end of the callback. -/
def Recurses (frames : List Frame) (before after : Nat) : Prop :=
  ∀ i, i + 1 < frames.length → before < ((lengths frames).take (i + 1)).sum →
    ((lengths frames).take (i + 2)).sum ≤ after →
      maxBufferSize < after - ((lengths frames).take i).sum

theorem Received.caughtUp_iff (h : Received P w frames bytes k st actions) :
    CaughtUp frames bytes.length actions ↔ k = Framing.completed (lengths frames) bytes.length := by
  have hle := h.le
  have hcompleted := Framing.completed_le_length (lengths frames) bytes.length
  rw [lengths, List.length_map, ← lengths] at hcompleted
  rw [CaughtUp, h.executed_eq, h.answered_eq]
  constructor
  · rintro ⟨-, heq⟩
    have := congrArg List.length heq
    rw [List.length_map, List.length_map, List.length_take, List.length_take] at this
    omega
  · rintro rfl
    exact ⟨rfl, rfl⟩

/-- A callback that finds every complete frame executed leaves it so exactly when it calls itself
again in front of every frame but the last one it completes. -/
theorem Received.callback_caughtUp_iff (h : Received P w frames bytes k st actions)
    (hcaught : k = Framing.completed (lengths frames) bytes.length) (data : List UInt8) :
    k + Framing.handedOver maxBufferSize ((lengths frames).drop k)
        ((bytes ++ data).length - ((lengths frames).take k).sum) =
      Framing.completed (lengths frames) (bytes ++ data).length ↔
    Recurses frames bytes.length (bytes ++ data).length := by
  have hmono : k ≤ Framing.completed (lengths frames) (bytes ++ data).length := by
    rcases Nat.eq_zero_or_pos k with rfl | hpos
    · exact Nat.zero_le _
    · have hlen : k - 1 < (lengths frames).length := by
        have := h.le
        rw [lengths, List.length_map]
        omega
      have hlast : k - 1 < Framing.completed (lengths frames) bytes.length := by omega
      rw [Framing.lt_completed_iff _ _ _ hlen] at hlast
      have : k - 1 < Framing.completed (lengths frames) (bytes ++ data).length := by
        rw [Framing.lt_completed_iff _ _ _ hlen, List.length_append]
        omega
      omega
  have hbase : ((lengths frames).take k).sum ≤ bytes.length := by
    rw [hcaught]
    exact Framing.sum_take_completed_le _ _
  have hgrow : bytes.length ≤ (bytes ++ data).length := by simp
  rw [Framing.completed_drop _ _ k hmono, Nat.add_left_cancel_iff, Framing.handedOver_eq_completed_iff]
  have hlength : ((lengths frames).drop k).length = frames.length - k := by
    rw [List.length_drop, lengths, List.length_map]
  have hsum : ∀ i, (((lengths frames).drop k).take i).sum + ((lengths frames).take k).sum =
      ((lengths frames).take (k + i)).sum := by
    intro i
    rw [List.take_add, List.sum_append]
    omega
  constructor
  · intro hall i hi hend hsecond
    have hki : k ≤ i := by
      by_contra hlt
      have : i < Framing.completed (lengths frames) bytes.length := by omega
      rw [Framing.lt_completed_iff _ _ _ (by rw [lengths, List.length_map]; omega)] at this
      omega
    have hsum₀ := hsum (i - k)
    have hsum₂ := hsum (i - k + 2)
    rw [show k + (i - k) = i by omega] at hsum₀
    rw [show k + (i - k + 2) = i + 2 by omega] at hsum₂
    have := hall (i - k) (by omega) (by omega)
    omega
  · intro hall i hi hsecond
    have hsum₀ := hsum i
    have hsum₂ := hsum (i + 2)
    have hnot : ¬ ((lengths frames).take (k + i + 1)).sum ≤ bytes.length := by
      rw [← Framing.lt_completed_iff _ _ _ (by rw [lengths, List.length_map]; omega)]
      omega
    have := hall (k + i) (by omega) (by omega) (by rw [show k + i + 2 = k + (i + 2) by omega]; omega)
    omega

/-- At the end of every callback all frames received in full are executed and answered exactly when
every callback that completes several frames has more than a buffer of bytes from the start of the
last but one of them on. -/
theorem caughtUp_iff_recurses (P : Platform σ) (w : World σ) (dataBuffer : Block UInt8 maxBufferSize)
    (frames : List Frame) (segments : List (List UInt8))
    (hsegments : ∀ c ∈ segments, c ≠ [] ∧ c.length ≤ 65535) (hstream : segments.flatten <+: stream frames) :
    (∀ n ≤ segments.length, CaughtUp frames (segments.take n).flatten.length
        ((connection P).trace (.fresh dataBuffer, w) (segments.take n))) ↔
      ∀ n < segments.length,
        Recurses frames (segments.take n).flatten.length (segments.take (n + 1)).flatten.length := by
  induction segments using List.reverseRecOn with
  | nil =>
    refine iff_of_true (fun n hn => ?_) (by simp)
    obtain rfl : n = 0 := by simpa using hn
    have hnone : Framing.completed (lengths frames) 0 = 0 := by
      cases frames with
      | nil => rfl
      | cons f frames => simp [lengths, Framing.completed, Frame.length_bytes]
    exact (received_fresh (P := P) w frames dataBuffer).caughtUp_iff.mpr hnone.symm
  | append_singleton segments c ih =>
    have hinit : ∀ d ∈ segments, d ≠ [] ∧ d.length ≤ 65535 := fun d hd => hsegments d (List.mem_append_left _ hd)
    rw [List.flatten_append, List.flatten_singleton] at hstream
    have hstart := (List.prefix_append _ _).trans hstream
    obtain ⟨k, hk⟩ := received_run P w frames dataBuffer (fun d hd => (hinit d hd).1) hstart
    have hnext := hk.callback (hsegments c (by simp)).1 hstream
    have htrace : (connection P).trace (.fresh dataBuffer, w) (segments ++ [c]) =
        (connection P).trace (.fresh dataBuffer, w) segments ++
          (connection P).actions ((connection P).final (.fresh dataBuffer, w) segments) c := by
      rw [Machine.trace_append]
      simp only [Machine.trace_cons, Machine.trace_nil, List.append_nil]
    rw [Machine.forall_take_concat (Q := fun es => CaughtUp frames es.flatten.length
        ((connection P).trace (.fresh dataBuffer, w) es)),
      Machine.forall_take_succ_concat (R := fun before after =>
        Recurses frames before.flatten.length after.flatten.length),
      ← ih hinit hstart, htrace, List.flatten_append, List.flatten_singleton]
    refine and_congr_right fun hold => ?_
    have hbefore := hold segments.length le_rfl
    rw [List.take_length] at hbefore
    rw [hnext.caughtUp_iff]
    exact hk.callback_caughtUp_iff (hk.caughtUp_iff.mp hbefore) c

/-- One callback per frame. -/
theorem caughtUp_iff_recurses_single_frames :
    (∀ n ≤ 2, CaughtUp [.closing, .closing] (([ascii "C|0|", ascii "C|0|"].take n).flatten.length)
        ((connection .accepting).trace (.fresh (Block.fill _ 0), .initial)
          ([ascii "C|0|", ascii "C|0|"].take n))) ↔
      ∀ n < 2, Recurses [.closing, .closing] (([ascii "C|0|", ascii "C|0|"].take n).flatten.length)
        (([ascii "C|0|", ascii "C|0|"].take (n + 1)).flatten.length) :=
  caughtUp_iff_recurses .accepting .initial (Block.fill _ 0) [.closing, .closing]
    [ascii "C|0|", ascii "C|0|"] (by decide) (by decide)

/-- Two frames in one callback: the second one waits in the buffer for a byte that never comes. -/
theorem not_caughtUp_two_frames :
    ¬ ∀ (frames : List Frame) (segments : List (List UInt8)),
      (∀ c ∈ segments, c ≠ [] ∧ c.length ≤ 65535) → segments.flatten <+: stream frames →
        ∀ n ≤ segments.length, CaughtUp frames (segments.take n).flatten.length
          ((connection .accepting).trace (.fresh (Block.fill _ 0), .initial) (segments.take n)) := by
  intro hall
  have hcaught := hall [.closing, .closing] [ascii "C|0|C|0|"] (by decide) (by decide) 1 (by decide)
  exact absurd hcaught.1 (by decide)

end EspClock.FileServer
