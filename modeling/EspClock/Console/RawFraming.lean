import EspClock.Console.Line
import EspClock.Lib.Cut

/-!
# Raw UART data

With the console off `readline` hands the bytes of the UART to the receive callback in payloads of a fixed length or in
payloads up to an end character. What is in the line when a poll runs out of bytes stays there for the next one, so the
payloads are the stream cut at the delimiter, in whatever polls the bytes come.
-/

namespace EspClock.Console

open Mem

/-- What the second argument of `uart.on` delimits the payloads by: a length or an end character. -/
inductive Delimiter where
  | needLen (n : Nat)
  | endChar (ch : UInt8)

/-- The mode that `uart.on` sets for a receive callback and a last argument of 0. -/
def Delimiter.mode : Delimiter → UartMode
  | .needLen n => ⟨false, n, -1, true⟩
  | .endChar ch => ⟨false, 0, ch.toNat, true⟩

@[simp] theorem Delimiter.mode_runInput (d : Delimiter) : d.mode.runInput = false := by
  cases d with
  | needLen n => rfl
  | endChar ch => rfl

@[simp] theorem Delimiter.mode_receives (d : Delimiter) : d.mode.receives = true := by
  cases d with
  | needLen n => rfl
  | endChar ch => rfl

/-- A length of 0 would hand over what every poll reads, and `uart.on` refuses one above 255. -/
def Delimiter.InRange : Delimiter → Prop
  | .needLen n => 1 ≤ n ∧ n ≤ 255
  | .endChar _ => True

/-- A payload of the length, or one that ends at the first end character or where the line is full. -/
def Delimiter.Delimits : Delimiter → List UInt8 → Prop
  | .needLen n, payload => payload.length = n
  | .endChar ch, payload =>
    payload.getLast? = some ch ∧ ch ∉ payload.dropLast ∨ payload.length = maxInput ∧ ch ∉ payload.dropLast

/-! ### The payloads -/

/-- A Lua side whose receive callback also notes what it is called with. -/
def Lua.recording {σ : Type} (L : Lua σ) : Lua (List (List UInt8) × σ) where
  docall chunk s :=
    let (incomplete, uart, env) := L.docall chunk (s.1, s.2.2)
    (incomplete, uart, s.2.1, env)
  onData buf s :=
    let (uart, env) := L.onData buf (s.1, s.2.2)
    (uart, s.2.1 ++ [buf], env)

/-- The state before a run, with nothing noted, and one of a run without its notes. -/
def State.noting {σ : Type} (c : State σ) : State (List (List UInt8) × σ) := ⟨c.load, c.uart, [], c.env⟩

def State.forget {σ : Type} (c : State (List (List UInt8) × σ)) : State σ := ⟨c.load, c.uart, c.env.2⟩

/-- The receive callback does not call `uart.on`. -/
def Lua.KeepsMode {σ : Type} (L : Lua σ) : Prop := ∀ buf s, (L.onData buf s).1 = s.1

variable {σ : Type} (L : Lua σ)

/-- The state after some polls, each with the bytes it reads, and the payloads that the receive callback got. -/
def polled (c : State σ) (polls : List (List UInt8)) : State (List (List UInt8) × σ) :=
  polls.foldl (readline L.recording) c.noting

def payloads (c : State σ) (polls : List (List UInt8)) : List (List UInt8) := (polled L c polls).env.1

/-! ### Notes change nothing -/

section Forget

variable (c : State (List (List UInt8) × σ))

theorem forget_uartOnDataCb (buf : List UInt8) :
    (uartOnDataCb L.recording c buf).forget = uartOnDataCb L c.forget buf := by
  rw [uartOnDataCb, uartOnDataCb, apply_ite State.forget]
  rfl

theorem forget_endOfLine : (endOfLine L.recording c).forget = endOfLine L c.forget := by
  have hcb := forget_uartOnDataCb L { c with load := { c.load with line := c.load.line.set c.load.linePosition 0 } }
    ((c.load.line.set c.load.linePosition 0).upTo c.load.linePosition)
  by_cases hzero : c.load.linePosition = 0
  · exact (congrArg State.forget (if_pos hzero)).trans (hcb.trans (if_pos hzero).symm)
  · refine (congrArg State.forget (if_neg hzero)).trans (Eq.trans ?_ (if_neg hzero).symm)
    exact congrArg (fun s : State σ => { s with load := { s.load with done := true } }) hcb

theorem forget_storeByte (ch : UInt8) : (storeByte L.recording c ch).forget = storeByte L c.forget ch := by
  rw [storeByte, storeByte]
  dsimp only
  rw [apply_ite State.forget]
  refine if_congr Iff.rfl ?_ rfl
  exact congrArg (fun s : State σ => { s with load := { s.load with linePosition := 0 } }) (forget_uartOnDataCb L _ _)

theorem forget_consoleByte (ch : UInt8) : (consoleByte L.recording c ch).forget = consoleByte L c.forget ch := by
  rw [consoleByte, consoleByte, apply_ite State.forget, forget_endOfLine, forget_storeByte]

theorem forget_readlineLoop (bytes : List UInt8) :
    (readlineLoop L.recording bytes c).forget = readlineLoop L bytes c.forget := by
  fun_induction readlineLoop L.recording bytes c with
  | case1 c => rfl
  | case2 c ch hrun hdelete => exact ((if_pos hrun).trans (if_pos hdelete)).symm
  | case3 c ch hrun hdelete =>
    rw [forget_consoleByte]
    exact ((if_pos hrun).trans (if_neg hdelete)).symm
  | case4 c ch hrun =>
    rw [forget_storeByte]
    exact (if_neg hrun).symm
  | case5 c next rest hrun ih =>
    rw [ih, forget_consoleByte]
    exact ((if_pos hrun).trans (if_pos rfl)).symm
  | case6 c ch next rest hrun hcr hdelete ih =>
    rw [ih]
    exact ((if_pos hrun).trans ((if_neg hcr).trans (if_pos hdelete))).symm
  | case7 c ch next rest hrun hcr hdelete ih =>
    rw [ih, forget_consoleByte]
    exact ((if_pos hrun).trans ((if_neg hcr).trans (if_neg hdelete))).symm
  | case8 c ch next rest hrun ih =>
    rw [ih, forget_storeByte]
    exact (if_neg hrun).symm

theorem forget_readline (bytes : List UInt8) : (readline L.recording c bytes).forget = readline L c.forget bytes := by
  rw [readline, readline, ← forget_readlineLoop]
  dsimp only
  rw [apply_ite State.forget]
  refine if_congr Iff.rfl ?_ rfl
  exact congrArg (fun s : State σ => { s with load := { s.load with linePosition := 0 } }) (forget_uartOnDataCb L _ _)

end Forget

theorem forget_polled (c : State σ) (polls : List (List UInt8)) :
    (polled L c polls).forget = polls.foldl (readline L) c := by
  induction polls using List.reverseRecOn with
  | nil => rfl
  | append_singleton polls bytes ih =>
    rw [List.foldl_append, ← ih, polled, List.foldl_append]
    exact forget_readline L _ bytes

/-! ### The line is what is behind the last payload -/

/-- Whether bytes behind the last payload are one: there are as many as asked for, they fill the line, or they end with
the end character. -/
def Delimiter.ends : Delimiter → List UInt8 → Bool
  | .needLen n, bytes => decide (n ≤ bytes.length ∨ maxInput ≤ bytes.length)
  | .endChar ch, bytes => decide (maxInput ≤ bytes.length ∨ bytes.getLast? = some ch)

/-- What the receive callback makes of a payload. -/
def Lua.handle (mode : UartMode) (env : σ) (payload : List UInt8) : σ := (L.onData payload (mode, env)).2

structure Cuts (start : σ) (d : Delimiter) (t : Cut UInt8) (c : State (List (List UInt8) × σ)) : Prop where
  mode : c.uart = d.mode
  noted : c.env.1 = t.pieces
  handled : c.env.2 = t.pieces.foldl (L.handle d.mode) start
  position : c.load.linePosition = t.pending.length
  line : c.load.line.upTo c.load.linePosition = t.pending
  room : t.pending.length < maxInput

/-- The test of `readline` behind a byte in raw mode. -/
theorem ends_concat (d : Delimiter) (hd : d.InRange) (pending : List UInt8) (ch : UInt8) :
    (d.mode.runInput = false ∧
      (d.mode.needLen ≠ 0 ∧ d.mode.needLen ≤ pending.length + 1 ∨ maxInput ≤ pending.length + 1 ∨
        0 ≤ d.mode.endChar ∧ (ch.toNat : Int) = d.mode.endChar % 256)) ↔ d.ends (pending ++ [ch]) = true := by
  cases d with
  | needLen n =>
    have hn : n ≠ 0 := by have := hd.1; omega
    simp [Delimiter.mode, Delimiter.ends, hn]
  | endChar e =>
    have hchar : (ch.toNat : Int) = (e.toNat : Int) % 256 ↔ ch = e := by
      have he := e.toNat_lt
      rw [← UInt8.toNat_inj]
      omega
    simp [Delimiter.mode, Delimiter.ends, hchar]

theorem length_lt_of_not_ends {d : Delimiter} {bytes : List UInt8} (h : d.ends bytes = false) : bytes.length < maxInput := by
  cases d with
  | needLen n => exact not_le.mp fun hfull => of_decide_eq_false h (Or.inr hfull)
  | endChar e => exact not_le.mp fun hfull => of_decide_eq_false h (Or.inl hfull)

section Cuts

variable {L} {start : σ} {d : Delimiter} {t : Cut UInt8} {c : State (List (List UInt8) × σ)}

theorem uartOnDataCb_recording (hL : L.KeepsMode) (hmode : c.uart = d.mode) {buf : List UInt8} (hne : buf ≠ []) :
    (uartOnDataCb L.recording c buf).uart = d.mode ∧ (uartOnDataCb L.recording c buf).env.1 = c.env.1 ++ [buf] ∧
      (uartOnDataCb L.recording c buf).env.2 = L.handle d.mode c.env.2 buf := by
  have hreceives : c.uart.receives = true := by rw [hmode, Delimiter.mode_receives]
  rw [uartOnDataCb, if_neg (by simp [hne, hreceives])]
  exact ⟨(hL buf _).trans hmode, rfl, by rw [← hmode]; rfl⟩

/-- A byte goes behind the others, or completes a payload. -/
theorem storeByte_cuts (hL : L.KeepsMode) (hd : d.InRange) (h : Cuts L start d t c) (ch : UInt8) :
    Cuts L start d (t.next d.ends ch) (storeByte L.recording c ch) := by
  have hstart : ¬ (c.uart.runInput = true ∧ maxInput ≤ c.load.linePosition + 1) := by simp [h.mode]
  have hline : (c.load.line.set c.load.linePosition ch).upTo (c.load.linePosition + 1) = t.pending ++ [ch] := by
    have hroom := h.room
    rw [← h.line]
    exact c.load.line.upTo_store c.load.linePosition [ch] (by rw [h.position]; exact hroom)
  have htest := ends_concat d hd t.pending ch
  rw [← h.mode, ← h.position] at htest
  rw [storeByte]
  dsimp only
  rw [if_neg hstart]
  cases hends : d.ends (t.pending ++ [ch]) with
  | true =>
    obtain ⟨hmode, hnoted, hhandled⟩ := uartOnDataCb_recording hL (c := { c with load := { c.load with
      line := c.load.line.set c.load.linePosition ch
      linePosition := c.load.linePosition + 1 } }) h.mode (List.concat_ne_nil ch t.pending)
    rw [if_pos (htest.mpr hends), Cut.next_of_ends hends, hline]
    refine ⟨hmode, hnoted.trans (congrArg (· ++ [t.pending ++ [ch]]) h.noted), hhandled.trans ?_, rfl, rfl, Nat.succ_pos 255⟩
    rw [List.foldl_append]
    exact congrArg (L.handle d.mode · (t.pending ++ [ch])) h.handled
  | false =>
    rw [if_neg fun htrue => Bool.false_ne_true (hends.symm.trans (htest.mp htrue)), Cut.next_of_not_ends hends]
    refine ⟨h.mode, h.noted, h.handled, ?_, hline, length_lt_of_not_ends hends⟩
    rw [List.length_append, List.length_singleton]
    exact congrArg (· + 1) h.position

theorem readlineLoop_cuts (hL : L.KeepsMode) (hd : d.InRange) (h : Cuts L start d t c) (bytes : List UInt8) :
    Cuts L start d (bytes.foldl (Cut.next d.ends) t) (readlineLoop L.recording bytes c) := by
  induction bytes generalizing t c with
  | nil => exact h
  | cons ch bytes ih =>
    have hrun : ¬ c.uart.runInput = true := by simp [h.mode]
    have hrest := ih (storeByte_cuts hL hd h ch)
    cases bytes with
    | nil =>
      rw [readlineLoop, if_neg hrun]
      exact hrest
    | cons next bytes =>
      rw [readlineLoop, if_neg hrun]
      exact hrest

/-- Nothing is flushed behind the loop. -/
theorem readline_cuts (hL : L.KeepsMode) (hd : d.InRange) (h : Cuts L start d t c) (bytes : List UInt8) :
    Cuts L start d (bytes.foldl (Cut.next d.ends) t) (readline L.recording c bytes) := by
  have hloop := readlineLoop_cuts hL hd h bytes
  rw [readline]
  dsimp only
  rw [if_neg]
  · exact hloop
  · rintro ⟨-, -, hlen, hend⟩
    rw [hloop.mode] at hlen hend
    cases d with
    | needLen n =>
      exact absurd hlen (Nat.pos_iff_ne_zero.mp hd.1)
    | endChar e => exact absurd hend (Int.natCast_nonneg _).not_gt

end Cuts

/-- Whatever is in the line at the start comes before the stream. -/
theorem polled_cuts {L : Lua σ} (hL : L.KeepsMode) {d : Delimiter} (hd : d.InRange) {c : State σ} (hmode : c.uart = d.mode)
    (hroom : c.load.linePosition < maxInput) (polls : List (List UInt8)) :
    Cuts L c.env d (polls.flatten.foldl (Cut.next d.ends) ⟨[], c.load.line.upTo c.load.linePosition⟩) (polled L c polls) := by
  have hlength : c.load.linePosition = (c.load.line.upTo c.load.linePosition).length := by
    rw [Block.upTo, List.length_take, c.load.line.size_eq, min_eq_left hroom.le]
  induction polls using List.reverseRecOn with
  | nil => exact ⟨hmode, rfl, rfl, hlength, rfl, hlength ▸ hroom⟩
  | append_singleton polls bytes ih =>
    rw [List.flatten_append, List.flatten_singleton, List.foldl_append, polled, List.foldl_append]
    exact readline_cuts hL hd ih bytes

theorem polled_cuts_start {L : Lua σ} (hL : L.KeepsMode) {d : Delimiter} (hd : d.InRange) {c : State σ}
    (hmode : c.uart = d.mode) (hstart : c.load.linePosition = 0) (polls : List (List UInt8)) :
    Cuts L c.env d (Cut.of d.ends polls.flatten) (polled L c polls) := by
  have hcuts := polled_cuts hL hd hmode (hstart ▸ Nat.succ_pos 255) polls
  rwa [hstart] at hcuts

/-- A sequence that is complete with its last byte and not before is a payload of the delimiter. -/
theorem delimits_of_ends {d : Delimiter} (hd : d.InRange) {p : List UInt8} {ch : UInt8}
    (hends : d.ends (p ++ [ch]) = true) (hopen : Cut.Open d.ends p) : d.Delimits (p ++ [ch]) := by
  have hlength : (p ++ [ch]).length = p.length + 1 := by rw [List.length_append, List.length_singleton]
  have hmax : maxInput = 256 := rfl
  cases d with
  | needLen n =>
    obtain ⟨hpos, hsmall⟩ := hd
    have hlong := of_decide_eq_true hends
    have hshort : p.length < n := by
      obtain rfl | hne := eq_or_ne p []
      · exact hpos
      · exact not_le.mp fun hle => of_decide_eq_false (hopen p List.prefix_rfl hne) (Or.inl hle)
    show (p ++ [ch]).length = n
    omega
  | endChar e =>
    have hshort : p.length < maxInput := by
      obtain rfl | hne := eq_or_ne p []
      · exact Nat.succ_pos 255
      · exact length_lt_of_not_ends (hopen p List.prefix_rfl hne)
    have hno : e ∉ (p ++ [ch]).dropLast := by
      rw [List.dropLast_concat]
      intro hmem
      obtain ⟨u, v, rfl⟩ := List.append_of_mem hmem
      have hprefix : u ++ [e] <+: u ++ e :: v := ⟨v, by rw [List.append_assoc, List.singleton_append]⟩
      exact of_decide_eq_false (hopen _ hprefix (List.concat_ne_nil e u)) (Or.inr List.getLast?_concat)
    obtain hfull | hlast := of_decide_eq_true hends
    · exact Or.inr ⟨by omega, hno⟩
    · exact Or.inl ⟨hlast, hno⟩

/-- For every way the bytes come in polls: the payloads and what is in the line are the stream, every payload is one of
the delimiter, and the payloads are those of every other way. -/
theorem raw_framing (L : Lua σ) (hL : L.KeepsMode) (d : Delimiter) (hd : d.InRange) (c : State σ) (hmode : c.uart = d.mode)
    (hstart : c.load.linePosition = 0) (polls : List (List UInt8)) :
    (payloads L c polls).flatten ++ (polled L c polls).load.line.upTo (polled L c polls).load.linePosition = polls.flatten ∧
      (∀ payload ∈ payloads L c polls, d.Delimits payload) ∧
      ∀ polls', polls'.flatten = polls.flatten → payloads L c polls' = payloads L c polls := by
  have hcuts := polled_cuts_start hL hd hmode hstart polls
  refine ⟨?_, ?_, ?_⟩
  · rw [payloads, hcuts.noted, hcuts.line, Cut.flatten_of]
  · intro payload hpayload
    rw [payloads, hcuts.noted] at hpayload
    obtain ⟨p, ch, rfl, hends, hopen⟩ := Cut.ends_of_mem_pieces _ payload hpayload
    exact delimits_of_ends hd hends hopen
  · intro polls' heq
    rw [payloads, payloads, hcuts.noted, (polled_cuts_start hL hd hmode hstart polls').noted, heq]

/-- A callback that does nothing, payloads of three bytes, and five bytes in two polls. -/
theorem raw_framing_three : payloads ⟨fun _ s => (false, s), fun _ s => s⟩
      (⟨LuaLoad.initial, (Delimiter.needLen 3).mode, ()⟩ : State Unit) [[1, 2, 3, 4], [5]] =
    payloads ⟨fun _ s => (false, s), fun _ s => s⟩ ⟨LuaLoad.initial, (Delimiter.needLen 3).mode, ()⟩ [[1], [2, 3, 4, 5]] :=
  (raw_framing ⟨fun _ s => (false, s), fun _ s => s⟩ (fun _ _ => rfl) (.needLen 3) ⟨by decide, by decide⟩
    ⟨LuaLoad.initial, (Delimiter.needLen 3).mode, ()⟩ rfl rfl [[1], [2, 3, 4, 5]]).2.2 [[1, 2, 3, 4], [5]] rfl

end EspClock.Console
