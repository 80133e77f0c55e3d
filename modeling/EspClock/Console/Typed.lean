import EspClock.Console.Inject
import EspClock.Console.Poll
import Mathlib.Data.List.Forall2
import Mathlib.Data.List.Induction

/-!
# Typed lines

While no byte is read behind the end of a line until `dojob` has run, `dojob` pushes the lines as they were typed: the
line holds the characters read since the last line end, and what `dojob` has pushed, with the line that waits for it,
are the lines read so far.
-/

namespace EspClock.Console

open Mem

/-! ### The lines in a sequence of bytes -/

/-- The lines of some bytes that are not empty, and the characters behind the last line end. -/
structure Typed where
  lines : List (List UInt8)
  current : List UInt8

def Typed.byte (t : Typed) (ch : UInt8) : Typed :=
  if ch = 13 ∨ ch = 10 then if t.current = [] then t else ⟨t.lines ++ [t.current], []⟩
  else ⟨t.lines, t.current ++ [ch]⟩

def typed (bytes : List UInt8) : Typed := bytes.foldl Typed.byte ⟨[], []⟩

theorem typed_concat (bytes : List UInt8) (ch : UInt8) : typed (bytes ++ [ch]) = (typed bytes).byte ch := by
  rw [typed, List.foldl_append]
  rfl

theorem Typed.byte_of_end (t : Typed) {ch : UInt8} (hend : ch = 13 ∨ ch = 10) :
    t.byte ch = if t.current = [] then t else ⟨t.lines ++ [t.current], []⟩ := by
  rw [Typed.byte, if_pos hend]

theorem Typed.byte_end_empty {t : Typed} {ch : UInt8} (hend : ch = 13 ∨ ch = 10) (hempty : t.current = []) :
    t.byte ch = t := by
  rw [Typed.byte_of_end t hend, if_pos hempty]

/-- Nothing stands behind a line end. -/
theorem Typed.current_byte_of_end (t : Typed) {ch : UInt8} (hend : ch = 13 ∨ ch = 10) : (t.byte ch).current = [] := by
  rw [t.byte_of_end hend]
  split_ifs with hempty
  · exact hempty
  · rfl

theorem Typed.byte_end {t : Typed} {ch : UInt8} (hend : ch = 13 ∨ ch = 10) (hne : t.current ≠ []) :
    t.byte ch = ⟨t.lines ++ [t.current], []⟩ := by
  rw [Typed.byte_of_end t hend, if_neg hne]

theorem Typed.byte_char {t : Typed} {ch : UInt8} (hchar : ¬ (ch = 13 ∨ ch = 10)) :
    t.byte ch = ⟨t.lines, t.current ++ [ch]⟩ := by
  rw [Typed.byte, if_neg hchar]

theorem Typed.lines_prefix_byte (t : Typed) (ch : UInt8) : t.lines <+: (t.byte ch).lines := by
  rw [Typed.byte]
  split_ifs
  · exact List.prefix_rfl
  · exact List.prefix_append _ _
  · exact List.prefix_rfl

theorem typed_lines_mono {bytes stream : List UInt8} (h : bytes <+: stream) : (typed bytes).lines <+: (typed stream).lines := by
  obtain ⟨rest, rfl⟩ := h
  induction rest using List.reverseRecOn with
  | nil => simp
  | append_singleton rest ch ih =>
    rw [← List.append_assoc, typed_concat]
    exact ih.trans (Typed.lines_prefix_byte _ ch)

/-- A byte that may follow: a line end, or a printable character of a line that fits. -/
def Typed.Admits (t : Typed) (ch : UInt8) : Prop :=
  ch = 13 ∨ ch = 10 ∨ 0x20 ≤ ch ∧ ch < 0x7f ∧ t.current.length + 1 < maxInput - 1

/-- Every byte of a sequence may follow those before it. -/
def Admissible (t : Typed) : List UInt8 → Prop
  | [] => True
  | ch :: rest => t.Admits ch ∧ Admissible (t.byte ch) rest

theorem admissible_append (t : Typed) (bytes rest : List UInt8) :
    Admissible t (bytes ++ rest) ↔ Admissible t bytes ∧ Admissible (bytes.foldl Typed.byte t) rest := by
  induction bytes generalizing t with
  | nil => exact (iff_of_eq (true_and _)).symm
  | cons ch bytes ih =>
    rw [List.cons_append, Admissible, Admissible, ih, List.foldl_cons, and_assoc]

theorem Typed.not_end {ch : UInt8} (hprint : 0x20 ≤ ch ∧ ch < 0x7f) : ¬ (ch = 13 ∨ ch = 10) := by
  rintro (rfl | rfl)
  · exact absurd hprint.1 (by decide)
  · exact absurd hprint.1 (by decide)

theorem admissible_text {t : Typed} {text : List UInt8} (hroom : t.current.length + text.length < maxInput - 1)
    (hprint : ∀ ch ∈ text, 0x20 ≤ ch ∧ ch < 0x7f) :
    Admissible t text ∧ text.foldl Typed.byte t = ⟨t.lines, t.current ++ text⟩ := by
  induction text generalizing t with
  | nil => exact ⟨trivial, congrArg (Typed.mk t.lines) (List.append_nil _).symm⟩
  | cons ch text ih =>
    obtain ⟨hch, htext⟩ := List.forall_mem_cons.mp hprint
    rw [List.length_cons] at hroom
    have hbyte := Typed.byte_char (t := t) (Typed.not_end hch)
    have hcurrent : (t.byte ch).current.length = t.current.length + 1 := by
      rw [hbyte, List.length_append, List.length_singleton]
    obtain ⟨hadmissible, hfold⟩ := ih (t := t.byte ch) (by omega) htext
    refine ⟨⟨Or.inr (Or.inr ⟨hch.1, hch.2, by omega⟩), hadmissible⟩, ?_⟩
    rw [List.foldl_cons, hfold, hbyte, List.append_assoc, List.singleton_append]

theorem admissible_lineEnd (t : Typed) (lineEnd : LineEnd) :
    Admissible t lineEnd.bytes ∧
      lineEnd.bytes.foldl Typed.byte t = if t.current = [] then t else ⟨t.lines ++ [t.current], []⟩ := by
  have hcr : (13 : UInt8) = 13 ∨ (13 : UInt8) = 10 := Or.inl rfl
  have hlf : (10 : UInt8) = 13 ∨ (10 : UInt8) = 10 := Or.inr rfl
  cases lineEnd with
  | cr => exact ⟨⟨Or.inl rfl, trivial⟩, t.byte_of_end hcr⟩
  | lf => exact ⟨⟨Or.inr (Or.inl rfl), trivial⟩, t.byte_of_end hlf⟩
  | crLf =>
    refine ⟨⟨Or.inl rfl, Or.inr (Or.inl rfl), trivial⟩, ?_⟩
    show (t.byte 13).byte 10 = _
    rw [Typed.byte_end_empty hlf (t.current_byte_of_end hcr), t.byte_of_end hcr]

/-- The bytes of a stream may follow each other, and its lines are those that were typed. -/
theorem typed_stream {stream : List TypedLine} (hplain : ∀ line ∈ stream, line.Plain) {t : Typed} (hempty : t.current = []) :
    Admissible t (stream.flatMap TypedLine.bytes) ∧
      (stream.flatMap TypedLine.bytes).foldl Typed.byte t = ⟨t.lines ++ typedTexts stream, []⟩ := by
  induction stream generalizing t with
  | nil =>
    refine ⟨trivial, ?_⟩
    rw [typedTexts, List.map_nil, List.filter_nil, List.append_nil, ← hempty]
    rfl
  | cons line stream ih =>
    obtain ⟨hline, hstream⟩ := List.forall_mem_cons.mp hplain
    obtain ⟨hadmissible, hfold⟩ := @admissible_text t line.text (by rw [hempty]; simpa using hline.1) hline.2
    rw [hempty, List.nil_append] at hfold
    obtain ⟨hadmissibleEnd, hfoldEnd⟩ := admissible_lineEnd ⟨t.lines, line.text⟩ line.lineEnd
    obtain ⟨hrest, hfoldRest⟩ := ih hstream
      (t := if line.text = [] then ⟨t.lines, line.text⟩ else ⟨t.lines ++ [line.text], []⟩) (by split_ifs with h <;> [exact h; rfl])
    rw [List.flatMap_cons, TypedLine.bytes, List.append_assoc, admissible_append, admissible_append, List.foldl_append,
      List.foldl_append, hfold, hfoldEnd]
    refine ⟨⟨hadmissible, hadmissibleEnd, hrest⟩, ?_⟩
    rw [hfoldRest, typedTexts, typedTexts, List.map_cons]
    split_ifs with h
    · rw [List.filter_cons_of_neg (by simpa using h)]
    · rw [List.filter_cons_of_pos (by simpa using h), List.append_assoc]
      rfl

theorem Typed.byte_end_end (t : Typed) {ch ch' : UInt8} (hend : ch = 13 ∨ ch = 10) (hend' : ch' = 13 ∨ ch' = 10) :
    (t.byte ch).byte ch' = t.byte ch' := by
  rw [Typed.byte_end_empty hend' (t.current_byte_of_end hend), t.byte_of_end hend, t.byte_of_end hend']

/-! ### The line -/

def LuaLoad.text (load : LuaLoad) : List UInt8 := load.line.upTo load.linePosition

/-- The line holds a finished line that `dojob` has not run, or the characters behind the last line end. -/
structure Holds (load : LuaLoad) (t : Typed) (handed : List (List UInt8)) : Prop where
  short : load.linePosition < maxInput - 1
  plain : 0 ∉ load.text
  waiting : load.done = true → t = ⟨handed ++ [load.text], []⟩ ∧ 0 < load.linePosition ∧ Loaded load load.text
  editing : load.done = false → t = ⟨handed, load.text⟩

theorem length_text {load : LuaLoad} (h : load.linePosition < maxInput - 1) : load.text.length = load.linePosition := by
  have hsize := load.line.size_eq
  have hmax : maxInput = 256 := rfl
  rw [LuaLoad.text, Block.upTo, List.length_take]
  omega

theorem upTo_set_succ {n : Nat} (b : Block UInt8 n) {i : Nat} (hi : i < n) (x : UInt8) :
    (b.set i x).upTo (i + 1) = b.upTo i ++ [x] :=
  b.upTo_store i [x] hi

variable {σ : Type} {L : Lua σ} {c : State σ} {t : Typed} {handed : List (List UInt8)} {ch : UInt8}

theorem endOfLine_load (c : State σ) :
    (endOfLine L c).load = { c.load with
      line := c.load.line.set c.load.linePosition 0
      done := if c.load.linePosition = 0 then c.load.done else true } := by
  rw [endOfLine]
  dsimp only
  split_ifs with hzero
  · rw [uartOnDataCb_load]
  · rw [uartOnDataCb_load]

theorem storeByte_append (hrun : c.uart.runInput = true) (hroom : c.load.linePosition + 1 < maxInput) :
    storeByte L c ch = { c with load := { c.load with
      line := c.load.line.set c.load.linePosition ch
      linePosition := c.load.linePosition + 1 } } := by
  have hstart : ¬ (c.uart.runInput = true ∧ maxInput ≤ c.load.linePosition + 1) := fun h => absurd h.2 hroom.not_ge
  rw [storeByte]
  dsimp only
  rw [if_neg hstart, if_neg]
  exact fun h => absurd (hrun.symm.trans h.1) (by decide)

/-- No line waits while the position is at the start. -/
theorem Holds.of_start {load : LuaLoad} (h : Holds load t handed) (hzero : load.linePosition = 0) :
    load.done = false ∧ t.current = [] := by
  have hediting : load.done = false := by
    by_contra hdone
    exact absurd (h.waiting (Bool.eq_true_of_not_eq_false hdone)).2.1 (by omega)
  refine ⟨hediting, ?_⟩
  rw [h.editing hediting]
  exact List.length_eq_zero_iff.mp ((length_text h.short).trans hzero)

/-- A line end finishes the line, unless it is empty or finished already. -/
theorem Holds.lineEnd {load load' : LuaLoad} (h : Holds load t handed) (hend : ch = 13 ∨ ch = 10)
    (hline : load'.line = load.line.set load.linePosition 0) (hposition : load'.linePosition = load.linePosition)
    (hdone : load'.done = if load.linePosition = 0 then load.done else true) : Holds load' (t.byte ch) handed := by
  have hmax : maxInput = 256 := rfl
  have hshort := h.short
  have hlength := length_text h.short
  have htext : load'.text = load.text := by
    rw [LuaLoad.text, hline, hposition]
    exact Block.upTo_set _ _ le_rfl
  have hplain : 0 ∉ load'.text := htext ▸ h.plain
  by_cases hzero : load.linePosition = 0
  · obtain ⟨hediting, hempty⟩ := h.of_start hzero
    rw [if_pos hzero] at hdone
    rw [Typed.byte_end_empty hend hempty]
    refine ⟨hposition ▸ h.short, hplain, fun hfinished => ?_, fun _ => htext ▸ h.editing hediting⟩
    exact absurd (hediting.symm.trans (hdone.symm.trans hfinished)) (by decide)
  · have hne : load.text ≠ [] := fun hnil => hzero (by rw [← hlength, hnil]; rfl)
    have hbyte : t.byte ch = ⟨handed ++ [load.text], []⟩ := by
      cases hwaiting : load.done with
      | false => rw [h.editing hwaiting, Typed.byte_end hend hne]
      | true => rw [(h.waiting hwaiting).1, Typed.byte_end_empty hend rfl]
    rw [if_neg hzero] at hdone
    rw [hbyte]
    refine ⟨hposition ▸ h.short, hplain, fun _ => ⟨by rw [htext], by omega, hdone, ?_⟩, fun hediting => ?_⟩
    · rw [htext, hlength, hline]
      exact upTo_set_succ _ (by omega) 0
    · exact absurd (hdone.symm.trans hediting) (by decide)

/-- A character goes behind the others. -/
theorem Holds.char {load load' : LuaLoad} (h : Holds load t handed) (hadmits : t.Admits ch)
    (hchar : ¬ (ch = 13 ∨ ch = 10)) (hediting : load.done = false)
    (hline : load'.line = load.line.set load.linePosition ch) (hposition : load'.linePosition = load.linePosition + 1)
    (hdone : load'.done = load.done) : Holds load' (t.byte ch) handed := by
  have hmax : maxInput = 256 := rfl
  have ht := h.editing hediting
  have hshort := h.short
  obtain ⟨hlow, -, hroom⟩ := (hadmits.resolve_left fun hcr => hchar (Or.inl hcr)).resolve_left fun hlf => hchar (Or.inr hlf)
  rw [ht, length_text h.short] at hroom
  have htext : load'.text = load.text ++ [ch] := by
    rw [LuaLoad.text, hline, hposition]
    exact upTo_set_succ _ (by omega) ch
  rw [Typed.byte_char hchar, ht]
  refine ⟨hposition ▸ hroom, ?_, fun hfinished => ?_, fun _ => by rw [htext]⟩
  · rw [htext, List.mem_append, List.mem_singleton]
    rintro (hmem | rfl)
    · exact h.plain hmem
    · exact absurd hlow (by decide)
  · exact absurd (hediting.symm.trans (hdone.symm.trans hfinished)) (by decide)

theorem consoleByte_holds (hrun : c.uart.runInput = true) (h : Holds c.load t handed) (hadmits : t.Admits ch)
    (hwait : c.load.done = true → ch = 13 ∨ ch = 10) : Holds (consoleByte L c ch).load (t.byte ch) handed := by
  rw [consoleByte]
  split_ifs with hend
  · rw [endOfLine_load]
    exact h.lineEnd hend rfl rfl rfl
  · have hmax : maxInput = 256 := rfl
    have hshort := h.short
    rw [storeByte_append hrun (by omega)]
    exact h.char hadmits hend (Bool.eq_false_iff.mpr fun hdone => hend (hwait hdone)) rfl rfl rfl

theorem consoleByte_done (ch : UInt8) (hrun : c.uart.runInput = true) (hroom : c.load.linePosition + 1 < maxInput) :
    (consoleByte L c ch).load.done =
      (c.load.done || (decide (ch = 13 ∨ ch = 10) && !decide (c.load.linePosition = 0))) := by
  rw [consoleByte]
  split_ifs with hend
  · rw [endOfLine_load, decide_eq_true hend, Bool.true_and]
    dsimp only
    split_ifs with hzero
    · rw [decide_eq_true hzero, Bool.not_true, Bool.or_false]
    · rw [decide_eq_false hzero, Bool.not_false, Bool.or_true]
  · rw [storeByte_append hrun hroom, decide_eq_false hend, Bool.false_and, Bool.or_false]

theorem uartOnDataCb_runInput (hL : L.KeepsInput) (c : State σ) (hrun : c.uart.runInput = true) (buf : List UInt8) :
    (uartOnDataCb L c buf).uart.runInput = true := by
  rw [uartOnDataCb]
  split_ifs
  · exact hrun
  · exact hL.onData buf c.uart c.env hrun

theorem consoleByte_runInput (hL : L.KeepsInput) (hrun : c.uart.runInput = true)
    (hroom : c.load.linePosition + 1 < maxInput) : (consoleByte L c ch).uart.runInput = true := by
  rw [consoleByte]
  split_ifs
  · rw [endOfLine]
    dsimp only
    split_ifs
    · apply uartOnDataCb_runInput hL
      exact hrun
    · apply uartOnDataCb_runInput hL
      exact hrun
  · rw [storeByte_append hrun hroom]
    exact hrun

/-! ### Polls -/

/-- A carriage return that was read and not handled. -/
def Phase.held : Phase → List UInt8
  | .afterCr => [13]
  | .idle | .loop => []

theorem Phase.of_ne_idle {phase : Phase} (h : phase ≠ .idle) : phase = .afterCr ∨ phase = .loop := by
  cases phase with
  | idle => exact absurd rfl h
  | loop => exact Or.inr rfl
  | afterCr => exact Or.inl rfl

@[simp] theorem Polls.consoleByte_phase (s : Polls σ) (ch : UInt8) : (s.consoleByte L ch).phase = .loop := rfl

/-- The lines read so far are those that were handed to the interpreter and the one that waits, and a line waits only
while its timer is armed. The timer that is armed from the start expires before the first poll. -/
structure Follows (s : Polls σ) (received : List UInt8) (handed : List (List UInt8)) : Prop where
  runInput : s.console.uart.runInput = true
  reads : s.rx.reading = true → s.rx.rcvBuff.contents ≠ []
  timer : s.console.load.done = true → s.luaTimer = true
  early : s.luaTimer = true → s.console.load.done = false →
    s.phase = .idle ∧ s.readlineTimer = false ∧ s.console.load.linePosition = 0
  alive : s.phase ≠ .idle ∨ s.readlineTimer = true ∨ s.luaTimer = true
  holds : ∃ processed, processed ++ s.phase.held ++ s.rx.rcvBuff.contents = received ∧
    Holds s.console.load (typed processed) handed

variable {s : Polls σ} {received : List UInt8}

/-- The bytes in front of an unread one and what they admit. -/
theorem admits_of_received {processed rest : List UInt8} (hadmissible : Admissible ⟨[], []⟩ (processed ++ ch :: rest)) :
    (typed processed).Admits ch :=
  ((admissible_append _ _ _).mp hadmissible).2.1

theorem consoleByte_follows (hL : L.KeepsInput) (h : Follows s received handed) (hphase : s.phase ≠ .idle)
    {rx : Uart.State} (hreads : rx.reading = true → rx.rcvBuff.contents ≠ []) {t : Typed}
    (hholds : Holds s.console.load t handed) (hadmits : t.Admits ch)
    (hwait : s.console.load.done = true → ch = 13 ∨ ch = 10) {processed : List UInt8}
    (htyped : typed processed = t.byte ch) (hreceived : processed ++ rx.rcvBuff.contents = received) :
    Follows ({ s with rx := rx }.consoleByte L ch) received handed := by
  have hmax : maxInput = 256 := rfl
  have hshort := hholds.short
  have hroom : s.console.load.linePosition + 1 < maxInput := by omega
  have hdone := consoleByte_done (L := L) ch h.runInput hroom
  refine ⟨consoleByte_runInput hL h.runInput hroom, hreads, fun hfinished => ?_, fun harmed hediting => ?_,
    Or.inl (by rw [Polls.consoleByte_phase]; decide), processed, ?_, ?_⟩
  · rw [Polls.consoleByte] at hfinished ⊢
    rw [hdone, Bool.or_eq_true] at hfinished
    exact Bool.or_eq_true_iff.mpr (hfinished.imp h.timer id)
  · rw [Polls.consoleByte] at harmed hediting
    rw [hdone, Bool.or_eq_false_iff] at hediting
    have harmed' : s.luaTimer = true := (Bool.or_eq_true_iff.mp harmed).resolve_right fun hend =>
      absurd (hediting.2.symm.trans hend) (by decide)
    exact absurd (h.early harmed' hediting.1).1 hphase
  · rw [Polls.consoleByte_phase, Phase.held, List.append_nil]
    exact hreceived
  · rw [htyped]
    exact consoleByte_holds h.runInput hholds hadmits hwait

theorem Typed.Admits.of_print (h : t.Admits ch) (hend : ¬ (ch = 13 ∨ ch = 10)) : 0x20 ≤ ch ∧ ch < 0x7f := by
  rcases h with hcr | hlf | ⟨hlow, hhigh, -⟩
  · exact absurd (Or.inl hcr) hend
  · exact absurd (Or.inr hlf) hend
  · exact ⟨hlow, hhigh⟩

/-- A carriage return behind nothing, or in front of a line end, changes nothing. -/
theorem byte_cr_byte (ch : UInt8) (h : Holds s.console.load t handed)
    (hwait : 0 < s.console.load.linePosition → ch = 13 ∨ ch = 10) :
    (t.byte 13).byte ch = t.byte ch ∧ ((t.byte 13).Admits ch → t.Admits ch) := by
  by_cases hzero : s.console.load.linePosition = 0
  · rw [Typed.byte_end_empty (Or.inl rfl) (h.of_start hzero).2]
    exact ⟨rfl, id⟩
  · have hend := hwait (Nat.pos_of_ne_zero hzero)
    exact ⟨t.byte_end_end (Or.inl rfl) hend, fun _ => hend.elim Or.inl fun hlf => Or.inr (Or.inl hlf)⟩

theorem byteRead_follows (hL : L.KeepsInput) (h : Follows s received handed) (hadmissible : Admissible ⟨[], []⟩ received)
    (hphase : s.phase ≠ .idle) (hreading : s.rx.reading = true) {rx : Uart.State} (hdone : rx.reading = false)
    (hcontents : s.rx.rcvBuff.contents = s.rx.rcvBuff.pop.1 :: rx.rcvBuff.contents) (hunhurried : Unhurried s .next) :
    Follows ({ s with rx := rx }.byteRead L s.rx.rcvBuff.pop.1) received handed := by
  have hhurry := hunhurried hphase hreading
  have hreads : rx.reading = true → rx.rcvBuff.contents ≠ [] := fun hread => absurd (hdone.symm.trans hread) (by decide)
  generalize s.rx.rcvBuff.pop.1 = ch at hcontents hhurry ⊢
  obtain ⟨processed, hreceived, hholds⟩ := h.holds
  rw [hcontents] at hreceived
  rcases Phase.of_ne_idle hphase with hp | hp
  · have hreceived' : (processed ++ [13]) ++ ch :: rx.rcvBuff.contents = received := by
      rw [← hreceived, hp]
      rfl
    have hadmits := admits_of_received (hreceived' ▸ hadmissible)
    rw [typed_concat] at hadmits
    obtain ⟨hbyte, hof⟩ := byte_cr_byte ch hholds fun hpos => hhurry (Or.inr ⟨hp, hpos⟩)
    have hread : { s with rx := rx }.byteRead L ch = { s with rx := rx }.consoleByte L ch := by
      rw [Polls.byteRead]
      dsimp only
      rw [hp]
    rw [hread]
    have htyped : typed (processed ++ [13] ++ [ch]) = (typed processed).byte ch := by
      rw [typed_concat, typed_concat, hbyte]
    refine consoleByte_follows hL h hphase hreads hholds (hof hadmits) (fun hdone => hhurry (Or.inl hdone)) htyped ?_
    rw [← hreceived', List.append_assoc]
    rfl
  · have hreceived' : processed ++ ch :: rx.rcvBuff.contents = received := by
      rw [← hreceived, hp, Phase.held, List.append_nil]
    have hadmits := admits_of_received (hreceived' ▸ hadmissible)
    have hread : { s with rx := rx }.byteRead L ch = if ch = 13 then { s with rx := rx, phase := .afterCr }
        else if ch = 0x7f ∨ ch = 0x08 then { s with rx := rx, console := backspace s.console }
        else { s with rx := rx }.consoleByte L ch := by
      rw [Polls.byteRead]
      dsimp only
      rw [hp, h.runInput]
      rfl
    rw [hread]
    split_ifs with hcr hback
    · refine ⟨h.runInput, hreads, h.timer, fun harmed hediting => ?_, Or.inl fun hidle => ?_, processed, ?_, hholds⟩
      · exact absurd (h.early harmed hediting).1 hphase
      · exact absurd (show Phase.afterCr = .idle from hidle) (by decide)
      · rw [← hreceived', hcr, Phase.held, List.append_assoc]
        rfl
    · exfalso
      have hprint := hadmits.of_print (by rcases hback with rfl | rfl <;> decide)
      rcases hback with rfl | rfl
      · exact absurd hprint.2 (by decide)
      · exact absurd hprint.1 (by decide)
    · refine consoleByte_follows hL h hphase hreads hholds hadmits (fun hdone => hhurry (Or.inl hdone))
        (typed_concat processed ch) ?_
      rw [← hreceived', List.append_assoc]
      rfl

theorem noneRead_follows (hL : L.KeepsInput) (h : Follows s received handed) (hphase : s.phase ≠ .idle) :
    Follows (s.noneRead L) received handed := by
  obtain ⟨processed, hreceived, hholds⟩ := h.holds
  rcases Phase.of_ne_idle hphase with hp | hp
  · have hread : s.noneRead L = s.consoleByte L 13 := by
      rw [Polls.noneRead, hp]
    rw [hread]
    refine consoleByte_follows hL h hphase h.reads hholds (Or.inl rfl) (fun _ => Or.inl rfl)
      (typed_concat processed 13) ?_
    rw [← hreceived, hp]
    rfl
  · have hconsole : readline L s.console [] = s.console := by
      rw [readline, readlineLoop]
      exact if_neg fun hraw => absurd (h.runInput.symm.trans hraw.2.1) (by decide)
    have hread : s.noneRead L = { s with phase := .idle, readlineTimer := true } := by
      rw [Polls.noneRead, hp]
      dsimp only
      rw [hconsole]
    rw [hread]
    refine ⟨h.runInput, h.reads, h.timer, fun harmed hediting => ?_, Or.inr (Or.inl rfl), processed, ?_, hholds⟩
    · exact absurd (h.early harmed hediting).1 hphase
    · rw [← hreceived, hp]
      rfl

theorem next_follows (hL : L.KeepsInput) (h : Follows s received handed) (hadmissible : Admissible ⟨[], []⟩ received)
    (hunhurried : Unhurried s .next) : Follows (s.next L) received handed := by
  rw [Polls.next]
  split_ifs with hphase
  · exact h
  · obtain ⟨hreading, hresult, hdone, hcontents⟩ | ⟨-, hresult⟩ | ⟨-, hne, hresult⟩ :=
      Uart.uartGetc_cases s.rx h.reads
    · dsimp only
      rw [hresult]
      exact byteRead_follows hL h hadmissible hphase hreading hdone hcontents hunhurried
    · rw [hresult]
      exact noneRead_follows hL h hphase
    · rw [hresult]
      exact ⟨h.runInput, fun _ => hne, h.timer, h.early, h.alive, h.holds⟩

/-! ### `dojob` -/

theorem dojob_fresh (c : State σ) : (dojob L c).1.load.linePosition = 0 ∧ (dojob L c).1.load.done = false := by
  by_cases hdone : c.load.done = true
  · rw [dojob, if_pos hdone]
    exact ⟨rfl, rfl⟩
  · rw [dojob, if_neg hdone]
    exact ⟨rfl, rfl⟩

theorem dojob_runInput (hL : L.KeepsInput) (hrun : c.uart.runInput = true) : (dojob L c).1.uart.runInput = true := by
  by_cases hdone : c.load.done = true
  · rw [dojob, if_pos hdone]
    exact hL.docall _ c.uart c.env hrun
  · rw [dojob, if_neg hdone]
    exact hrun

theorem Holds.fresh {load : LuaLoad} (hposition : load.linePosition = 0) (hdone : load.done = false)
    (handed : List (List UInt8)) : Holds load ⟨handed, []⟩ handed := by
  have htext : load.text = [] := by
    rw [LuaLoad.text, hposition]
    rfl
  refine ⟨hposition ▸ by decide, ?_, fun hfinished => absurd (hdone.symm.trans hfinished) (by decide), fun _ => ?_⟩
  · rw [htext]
    exact List.not_mem_nil
  · rw [htext]

/-- A step to a state that follows, with the lines that it handed to the interpreter. -/
def FollowedBy (received : List UInt8) (handed : List (List UInt8)) (r : Polls σ × List PollAction) : Prop :=
  ∃ lines, Follows r.1 (received ++ r.2.filterMap PollAction.received?) (handed ++ lines) ∧
    List.Forall₂ PushedFor (r.2.filterMap PollAction.pushed?) lines

theorem FollowedBy.quiet (h : Follows s received handed) : FollowedBy received handed (s, []) := by
  refine ⟨[], ?_, List.Forall₂.nil⟩
  rw [List.filterMap_nil, List.append_nil, List.append_nil]
  exact h

/-- `dojob` pushes the line that waits, and finds nothing to lose when none does. -/
theorem dojob_follows (hL : L.KeepsInput) (h : Follows s received handed) (harmed : s.luaTimer = true) :
    FollowedBy received handed (s.dojob L) := by
  obtain ⟨processed, hreceived, hholds⟩ := h.holds
  obtain ⟨hposition, hediting⟩ := dojob_fresh (L := L) s.console
  have hfollows : ∀ lines, typed processed = ⟨handed ++ lines, []⟩ → Follows (s.dojob L).1 received (handed ++ lines) := by
    intro lines htyped
    refine ⟨dojob_runInput hL h.runInput, h.reads, fun hdone => ?_, fun harmed => ?_, Or.inr (Or.inl rfl), processed,
      hreceived, ?_⟩
    · exact absurd (hediting.symm.trans hdone) (by decide)
    · exact absurd (show false = true from harmed) (by decide)
    · rw [htyped]
      exact Holds.fresh hposition hediting _
  cases hdone : s.console.load.done with
  | true =>
    obtain ⟨htyped, -, hloaded⟩ := hholds.waiting hdone
    have hpushed : (s.dojob L).2 = [.pushed s.console.load.firstline (jobText s.console.load.firstline s.console.load.text)] := by
      rw [Polls.dojob]
      dsimp only
      rw [dojob_loaded L hloaded hholds.plain]
      rfl
    rw [FollowedBy, hpushed]
    refine ⟨[s.console.load.text], ?_, List.Forall₂.cons rfl List.Forall₂.nil⟩
    exact (List.append_nil received).symm ▸ hfollows _ htyped
  | false =>
    have hempty : s.console.load.text = [] := by
      rw [LuaLoad.text, (h.early harmed hdone).2.2]
      rfl
    have hpushed : (s.dojob L).2 = [] := by
      rw [Polls.dojob, dojob, if_neg (by rw [hdone]; decide)]
      rfl
    rw [FollowedBy, hpushed]
    refine ⟨[], ?_, List.Forall₂.nil⟩
    refine (List.append_nil received).symm ▸ hfollows [] ?_
    rw [hholds.editing hdone, hempty, List.append_nil]

/-! ### Runs -/

theorem filterMap_received (fifo : List UInt8) : (fifo.map PollAction.received).filterMap PollAction.received? = fifo := by
  rw [List.filterMap_map]
  exact List.filterMap_some

theorem filterMap_pushed_received (fifo : List UInt8) :
    (fifo.map PollAction.received).filterMap PollAction.pushed? = [] := by
  rw [List.filterMap_map]
  exact List.filterMap_none fifo

theorem rxIntr_follows (h : Follows s received handed) {fifo : List UInt8} (hroom : NoOverrun s (.rxIntr fifo)) :
    FollowedBy received handed ((polls L).step s (.rxIntr fifo)) := by
  have hcontents := Uart.uart0RxIntrHandler_contents hroom
  obtain ⟨processed, hreceived, hholds⟩ := h.holds
  have hactions : ((polls L).step s (.rxIntr fifo)).2 = fifo.map .received := rfl
  rw [FollowedBy, hactions, filterMap_received, filterMap_pushed_received]
  refine ⟨[], ?_, List.Forall₂.nil⟩
  rw [List.append_nil]
  refine ⟨h.runInput, fun hread => ?_, h.timer, h.early, h.alive, processed, ?_, hholds⟩
  · show (Uart.uart0RxIntrHandler s.rx.rcvBuff fifo).1.contents ≠ []
    rw [hcontents]
    exact List.append_ne_nil_of_left_ne_nil (h.reads hread) fifo
  · show processed ++ s.phase.held ++ (Uart.uart0RxIntrHandler s.rx.rcvBuff fifo).1.contents = _
    rw [hcontents, ← List.append_assoc, hreceived]

theorem step_follows (hL : L.KeepsInput) (h : Follows s received handed) (hadmissible : Admissible ⟨[], []⟩ received)
    {e : PollEvent} (hroom : NoOverrun s e) (hunhurried : Unhurried s e) :
    FollowedBy received handed ((polls L).step s e) := by
  cases e with
  | rxIntr fifo => exact rxIntr_follows h hroom
  | readlineTimer =>
    by_cases hfires : s.phase = .idle ∧ s.readlineTimer = true
    · have hstep : (polls L).step s .readlineTimer = ({ s with phase := .loop, readlineTimer := false }, []) := if_pos hfires
      rw [hstep]
      apply FollowedBy.quiet
      obtain ⟨processed, hreceived, hholds⟩ := h.holds
      refine ⟨h.runInput, h.reads, h.timer, fun harmed hediting => ?_, Or.inl (fun hidle => ?_), processed, ?_, hholds⟩
      · exact absurd ((h.early harmed hediting).2.1.symm.trans hfires.2) (by decide)
      · exact absurd (show Phase.loop = .idle from hidle) (by decide)
      · rw [← hreceived, hfires.1]
        rfl
    · have hstep : (polls L).step s .readlineTimer = (s, []) := if_neg hfires
      rw [hstep]
      exact FollowedBy.quiet h
  | luaTimer =>
    by_cases hfires : s.phase = .idle ∧ s.luaTimer = true
    · have hstep : (polls L).step s .luaTimer = s.dojob L := if_pos hfires
      rw [hstep]
      exact dojob_follows hL h hfires.2
    · have hstep : (polls L).step s .luaTimer = (s, []) := if_neg hfires
      rw [hstep]
      exact FollowedBy.quiet h
  | next => exact FollowedBy.quiet (next_follows hL h hadmissible hunhurried)

/-- The state and the log of a run that a stream may still continue. -/
def Tracks (stream : List UInt8) (s : Polls σ) (log : List PollAction) : Prop :=
  log.filterMap PollAction.received? <+: stream →
    ∃ handed, Follows s (log.filterMap PollAction.received?) handed ∧
      List.Forall₂ PushedFor (log.filterMap PollAction.pushed?) handed

theorem step_tracks (hL : L.KeepsInput) {stream : List UInt8} (hstream : Admissible ⟨[], []⟩ stream) (s : Polls σ)
    (e : PollEvent) (log : List PollAction) (h : Tracks stream s log) (hok : NoOverrun s e ∧ Unhurried s e) :
    Tracks stream ((polls L).next s e) (log ++ (polls L).actions s e) := by
  intro hprefix
  rw [List.filterMap_append] at hprefix ⊢
  rw [List.filterMap_append]
  have hbefore := (List.prefix_append _ _).trans hprefix
  obtain ⟨handed, hfollows, hpushed⟩ := h hbefore
  have hadmissible : Admissible ⟨[], []⟩ (log.filterMap PollAction.received?) := by
    obtain ⟨rest, rfl⟩ := hbefore
    exact ((admissible_append _ _ _).mp hstream).1
  obtain ⟨lines, hnext, hlines⟩ := step_follows hL hfollows hadmissible hok.1 hok.2
  exact ⟨handed ++ lines, hnext, List.rel_append hpushed hlines⟩

theorem initial_tracks (stream : List UInt8) {mode : UartMode} (hmode : mode.runInput = true) (env : σ)
    (cells : Fin (Uart.rxBuffSize + 1) → UInt8) : Tracks stream (Polls.initial mode env cells) [] := by
  intro _
  have hcontents : (Polls.initial mode env cells).rx.rcvBuff.contents = [] := (RingBuffer.contents_eq_nil _).mpr rfl
  refine ⟨[], ⟨hmode, fun hread => absurd hread (by simp [Polls.initial, Uart.initial]), fun _ => rfl, fun _ _ => ⟨rfl, rfl, rfl⟩,
    Or.inr (Or.inr rfl), [], ?_, Holds.fresh rfl rfl []⟩, List.Forall₂.nil⟩
  rw [hcontents]
  rfl

/-- Under a condition on the bytes that are read behind the end of a line, `dojob` pushes the typed lines one after the
other, all of them once everything is read and run, and the console goes on polling. -/
theorem typed_lines_pushed (L : Lua σ) (hL : L.KeepsInput) (stream : List TypedLine) (hplain : ∀ line ∈ stream, line.Plain)
    (mode : UartMode) (hmode : mode.runInput = true) (env : σ) (cells : Fin (Uart.rxBuffSize + 1) → UInt8)
    (es : List PollEvent)
    (hreceived : ((polls L).trace (Polls.initial mode env cells) es).filterMap PollAction.received? <+:
      stream.flatMap TypedLine.bytes)
    (hok : (polls L).Along (fun s e => NoOverrun s e ∧ Unhurried s e) (Polls.initial mode env cells) es) :
    let log := (polls L).trace (Polls.initial mode env cells) es
    let s := (polls L).final (Polls.initial mode env cells) es
    (∃ handed, handed <+: typedTexts stream ∧ List.Forall₂ PushedFor (log.filterMap PollAction.pushed?) handed) ∧
      (s.Settled → log.filterMap PollAction.received? = stream.flatMap TypedLine.bytes →
        List.Forall₂ PushedFor (log.filterMap PollAction.pushed?) (typedTexts stream)) ∧
      (s.phase ≠ .idle ∨ s.readlineTimer = true ∨ s.luaTimer = true) := by
  intro log s
  obtain ⟨hadmissible, htyped⟩ := typed_stream hplain (t := ⟨[], []⟩) rfl
  have htracks : Tracks (stream.flatMap TypedLine.bytes) s log :=
    Machine.final_append_trace_of_along (step_tracks hL hadmissible) (initial_tracks _ hmode env cells) hok
  obtain ⟨handed, hfollows, hpushed⟩ := htracks hreceived
  obtain ⟨processed, hprocessed, hholds⟩ := hfollows.holds
  have hlines : handed <+: (typed processed).lines := by
    cases hdone : s.console.load.done with
    | true =>
      rw [(hholds.waiting hdone).1]
      exact List.prefix_append _ _
    | false =>
      have hhanded : (typed processed).lines = handed := congrArg Typed.lines (hholds.editing hdone)
      exact hhanded.symm ▸ List.prefix_rfl
  have hall : (typed (stream.flatMap TypedLine.bytes)).lines = typedTexts stream := by
    rw [typed, htyped, List.nil_append]
  refine ⟨⟨handed, ?_, hpushed⟩, fun hsettled hcomplete => ?_, hfollows.alive⟩
  · rw [← hall]
    refine hlines.trans (typed_lines_mono (List.IsPrefix.trans ?_ hreceived))
    rw [← hprocessed, List.append_assoc]
    exact List.prefix_append _ _
  · have hediting : s.console.load.done = false := by
      by_contra hdone
      exact absurd (hfollows.timer (Bool.eq_true_of_not_eq_false hdone)) (by rw [hsettled.run]; decide)
    rw [hsettled.polled, hsettled.read, Phase.held, List.append_nil, List.append_nil] at hprocessed
    rw [← hall, ← hcomplete, ← hprocessed, hholds.editing hediting]
    exact hpushed

theorem Lua.quiet_keepsInput : Lua.quiet.KeepsInput := ⟨fun _ _ _ h => h, fun _ _ _ h => h⟩

def poll (parts : Nat) : List PollEvent := .readlineTimer :: List.replicate parts .next

/-- Two lines, the second of which comes in after the first has been run. -/
def twoLines : List PollEvent :=
  [.luaTimer, .rxIntr [97, 13, 10]] ++ poll 7 ++ [.luaTimer, .rxIntr [98, 10]] ++ poll 5 ++ [.luaTimer]

theorem typed_lines_pushed_two_lines :
    let log := (polls Lua.quiet).trace (Polls.initial .console () fun _ => 0) twoLines
    let s := (polls Lua.quiet).final (Polls.initial .console () fun _ => 0) twoLines
    (∃ handed, handed <+: typedTexts [⟨[97], .crLf⟩, ⟨[98], .lf⟩] ∧
        List.Forall₂ PushedFor (log.filterMap PollAction.pushed?) handed) ∧
      (s.Settled → log.filterMap PollAction.received? = [⟨[97], .crLf⟩, ⟨[98], .lf⟩].flatMap TypedLine.bytes →
        List.Forall₂ PushedFor (log.filterMap PollAction.pushed?) (typedTexts [⟨[97], .crLf⟩, ⟨[98], .lf⟩])) ∧
      (s.phase ≠ .idle ∨ s.readlineTimer = true ∨ s.luaTimer = true) :=
  typed_lines_pushed Lua.quiet Lua.quiet_keepsInput [⟨[97], .crLf⟩, ⟨[98], .lf⟩]
    (by simp [TypedLine.Plain, maxInput]) .console rfl () (fun _ => 0) twoLines
    (by decide +kernel) (by decide +kernel)

/-- Two lines that come in together run as one. -/
theorem typed_lines_joined :
    ¬ ∀ (L : Lua Unit), L.KeepsInput → ∀ stream : List TypedLine, (∀ line ∈ stream, line.Plain) →
      ∀ (mode : UartMode), mode.runInput = true → ∀ (cells : Fin (Uart.rxBuffSize + 1) → UInt8) (es : List PollEvent),
      ((polls L).trace (Polls.initial mode () cells) es).filterMap PollAction.received? <+:
        stream.flatMap TypedLine.bytes →
      (polls L).Along NoOverrun (Polls.initial mode () cells) es →
      ∃ handed, handed <+: typedTexts stream ∧
        List.Forall₂ PushedFor (((polls L).trace (Polls.initial mode () cells) es).filterMap PollAction.pushed?) handed := by
  intro hall
  obtain ⟨handed, hprefix, hpushed⟩ := hall Lua.quiet Lua.quiet_keepsInput [⟨[97], .lf⟩, ⟨[98], .lf⟩]
    (by simp [TypedLine.Plain, maxInput]) .console rfl (fun _ => 0)
    ([.luaTimer, .rxIntr [97, 10, 98, 10]] ++ poll 9 ++ [.luaTimer]) (by decide +kernel) (by decide +kernel)
  have hjoined : ((polls Lua.quiet).trace (Polls.initial .console () fun _ => 0)
      ([.luaTimer, .rxIntr [97, 10, 98, 10]] ++ poll 9 ++ [.luaTimer])).filterMap PollAction.pushed? =
        [(true, [97, 98])] := by decide +kernel
  rw [hjoined] at hpushed
  cases hpushed with
  | cons hline hrest =>
    cases hrest
    obtain ⟨rest, hrest⟩ := hprefix
    obtain rfl := (List.cons.inj hrest).1
    exact absurd (show [97, 98] = jobText true [97] from hline) (by decide)

end EspClock.Console
