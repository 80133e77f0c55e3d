import EspClock.Console.Inject
import Mathlib.Data.List.TakeWhile

/-!
# Writes to the line

Every way into the line keeps its position inside of it, except for a command of `node.input` that fills the line up to
its last cell but one: its terminator goes into the last cell, and when the cell between holds a leftover, the position
computed from the string is one behind the line. `dojob` cuts a newline at the end of the string in the line, wherever
that end is.
-/

namespace EspClock.Console

open Mem

/-- What happens to the line. A chunk that is run may call `node.input` itself, and `behind` is what the memory behind
the line holds up to the next zero byte. -/
inductive LineEvent where
  | uartOn (mode : UartMode)
  | readline (bytes : List UInt8)
  | nodeInput (s : List UInt8)
  | run (payload : List UInt8) (calls : List (List UInt8)) (behind : List UInt8)
  | dojob (calls : List (List UInt8)) (behind : List UInt8)

variable {σ : Type} (L : Lua σ)

/-! ### The cells that are written -/

/-- The cell `storeByte` writes. -/
def storeByteCell (c : State σ) : Nat :=
  if c.uart.runInput ∧ maxInput ≤ c.load.linePosition + 1 then 0 else c.load.linePosition

def consoleByteCell (c : State σ) (ch : UInt8) : Nat :=
  if ch = 13 ∨ ch = 10 then c.load.linePosition else storeByteCell c

/-- The cells that the loop of `readline` writes. -/
def readlineCells : List UInt8 → State σ → List Nat
  | [], _ => []
  | [ch], c =>
    if c.uart.runInput then
      if ch = 0x7f ∨ ch = 0x08 then [c.load.linePosition - 1] else [consoleByteCell c ch]
    else [storeByteCell c]
  | ch :: next :: rest, c =>
    if c.uart.runInput then
      if ch = 13 then consoleByteCell c next :: readlineCells rest (consoleByte L c next)
      else if ch = 0x7f ∨ ch = 0x08 then
        (c.load.linePosition - 1) :: readlineCells (next :: rest) (backspace c)
      else consoleByteCell c ch :: readlineCells (next :: rest) (consoleByte L c ch)
    else storeByteCell c :: readlineCells (next :: rest) (storeByte L c ch)

/-- The cells that the copy of a command writes. -/
def injectCells (command : List UInt8) : List Nat := List.range command.length ++ [command.length + 1]

def nodeInputCells (load : LuaLoad) (s : List UInt8) : List Nat := if NodeInputAccepts load s then injectCells s else []

/-- The calls of `node.input` in a chunk. -/
def callCells (load : LuaLoad) : List (List UInt8) → List Nat
  | [] => []
  | s :: calls => nodeInputCells load s ++ callCells (if NodeInputAccepts load s then load.inject s else load) calls

/-- The string in the line, which goes on behind it when the line has no zero byte. -/
def LuaLoad.string (load : LuaLoad) (behind : List UInt8) : List UInt8 := cstring (load.line.cells ++ behind) 0

/-- The cell of a newline at the end of the string, which `dojob` overwrites. -/
def newlineCell (load : LuaLoad) (behind : List UInt8) : List Nat :=
  if (load.string behind).getLast? = some 10 then [(load.string behind).length - 1] else []

/-- The cells that `dojob` writes: that of a newline, those of the calls in the chunk and at last all of the line. -/
def dojobCells (load : LuaLoad) (calls : List (List UInt8)) (behind : List UInt8) : List Nat :=
  let stripped := { load with line := load.line.set ((load.string behind).length - 1) 0 }
  (if load.done then
    newlineCell load behind ++ callCells (if newlineCell load behind = [] then load else stripped) calls
  else []) ++ List.range maxInput

/-- `dojob` on the string that goes on behind the line. -/
def dojobBehind (c : State σ) (behind : List UInt8) : State σ :=
  if c.load.done then
    let text := jobText c.load.firstline (c.load.string behind)
    let chunk := if c.load.firstline then text else c.load.chunk ++ 10 :: text
    let (incomplete, uart, env) := L.docall chunk (c.uart, c.env)
    ⟨⟨!incomplete, Block.fill maxInput 0, 0, false, if incomplete then chunk else []⟩, uart, env⟩
  else (dojob L c).1

def lineWrites : Machine (State σ) LineEvent Nat :=
  ⟨fun c e =>
    match e with
    | .uartOn mode => ({ c with uart := mode }, [])
    | .readline bytes => (readline L c bytes, readlineCells L bytes c)
    | .nodeInput s => (nodeInput c s, nodeInputCells c.load s)
    | .run payload calls behind =>
      if c.load.linePosition = 0 then
        let c := { c with load := c.load.inject payload }
        (dojobBehind L c behind, injectCells payload ++ dojobCells c.load calls behind)
      else (c, [])
    | .dojob calls behind => (dojobBehind L c behind, dojobCells c.load calls behind)⟩

/-- A payload of the file server has at most 60 bytes, and what lies behind the line ends at the next zero byte. -/
def LineEvent.WellFormed : LineEvent → Prop
  | .run payload _ behind => payload.length ≤ 60 ∧ 0 ∉ behind
  | .dojob _ behind => 0 ∉ behind
  | _ => True

instance : DecidablePred LineEvent.WellFormed
  | .run _ _ _ => inferInstanceAs (Decidable (_ ∧ _))
  | .dojob _ _ => inferInstanceAs (Decidable (¬ _))
  | .uartOn _ | .readline _ | .nodeInput _ => instDecidableTrue

/-- A command of `node.input` that fills the line holds a zero byte or finds one behind it, and a string without end in
the line has no newline at its end behind the line. -/
def Terminated (c : State σ) : LineEvent → Prop
  | .nodeInput s => NodeInputAccepts c.load s → s.length < maxInput - 2 ∨ 0 ∈ s ∨ c.load.line.get (maxInput - 2) = 0
  | .dojob _ behind => c.load.done = true → 0 ∈ c.load.line.cells ∨ behind.getLast? ≠ some 10
  | _ => True

instance (c : State σ) : DecidablePred (Terminated c)
  | .nodeInput _ => inferInstanceAs (Decidable (_ → _))
  | .dojob _ _ => inferInstanceAs (Decidable (_ → _))
  | .uartOn _ | .readline _ | .run _ _ _ => instDecidableTrue

/-! ### The string in the line -/

theorem string_of_terminated {load : LuaLoad} (hzero : 0 ∈ load.line.cells) (behind : List UInt8) :
    load.string behind = cstring load.line.cells 0 ∧ (load.string behind).length < maxInput := by
  obtain ⟨text, rest, hcells⟩ := List.append_of_mem hzero
  have hsize := load.line.size_eq
  have hstring : load.string behind = (text.drop 0).takeWhile (· ≠ 0) := by
    rw [LuaLoad.string, hcells, List.append_assoc, List.cons_append]
    exact cstring_of_terminated (Nat.zero_le _)
  have hline : cstring load.line.cells 0 = (text.drop 0).takeWhile (· ≠ 0) := by
    rw [hcells]
    exact cstring_of_terminated (Nat.zero_le _)
  have hle : ((text.drop 0).takeWhile (· ≠ 0)).length ≤ text.length :=
    (List.takeWhile_prefix _).length_le
  rw [hcells, List.length_append, List.length_cons] at hsize
  refine ⟨hstring.trans hline.symm, ?_⟩
  rw [hstring]
  omega

theorem dojobBehind_eq {c : State σ} (hzero : 0 ∈ c.load.line.cells) (behind : List UInt8) :
    dojobBehind L c behind = (dojob L c).1 := by
  by_cases hdone : c.load.done = true
  · rw [dojobBehind, if_pos hdone, (string_of_terminated hzero behind).1, dojob, if_pos hdone]
  · rw [dojobBehind, if_neg hdone]

/-! ### `readline` -/

variable {L} {c : State σ} {ch : UInt8}

theorem storeByteCell_lt (h : c.load.linePosition < maxInput) : storeByteCell c < maxInput := by
  rw [storeByteCell]
  split_ifs
  · decide
  · exact h

theorem storeByte_position (h : c.load.linePosition < maxInput) : (storeByte L c ch).load.linePosition < maxInput := by
  have hmax : maxInput = 256 := rfl
  have hzero : 0 < maxInput := by decide
  rw [storeByte]
  dsimp only
  split_ifs with hstart hend hend
  · exact hzero
  · exact (by decide : 0 + 1 < maxInput)
  · exact hzero
  · show c.load.linePosition + 1 < maxInput
    by_contra hfull
    have hraw : c.uart.runInput = false := Bool.eq_false_iff.mpr fun hrun => hstart ⟨hrun, by omega⟩
    exact hend ⟨hraw, Or.inr (Or.inl (by omega))⟩

theorem endOfLine_position (c : State σ) : (endOfLine L c).load.linePosition = c.load.linePosition := by
  rw [endOfLine]
  dsimp only
  split_ifs
  · rw [uartOnDataCb_load]
  · rw [uartOnDataCb_load]

theorem consoleByte_bounds (ch : UInt8) (h : c.load.linePosition < maxInput) :
    consoleByteCell c ch < maxInput ∧ (consoleByte L c ch).load.linePosition < maxInput := by
  rw [consoleByteCell, consoleByte]
  split_ifs
  · exact ⟨h, (endOfLine_position c).trans_lt h⟩
  · exact ⟨storeByteCell_lt h, storeByte_position h⟩

theorem backspace_position (h : c.load.linePosition < maxInput) :
    c.load.linePosition - 1 < maxInput ∧ (backspace c).load.linePosition < maxInput :=
  ⟨(Nat.sub_le _ _).trans_lt h, (Nat.sub_le _ _).trans_lt h⟩

theorem readlineLoop_bounds (bytes : List UInt8) (h : c.load.linePosition < maxInput) :
    (∀ i ∈ readlineCells L bytes c, i < maxInput) ∧ (readlineLoop L bytes c).load.linePosition < maxInput := by
  fun_induction readlineCells L bytes c with
  | case1 c => exact ⟨fun _ hi => absurd hi List.not_mem_nil, h⟩
  | case2 ch c hrun hback =>
    obtain ⟨hcell, hposition⟩ := backspace_position h
    rw [readlineLoop, if_pos hrun, if_pos hback]
    exact ⟨List.forall_mem_singleton.mpr hcell, hposition⟩
  | case3 ch c hrun hback =>
    obtain ⟨hcell, hposition⟩ := consoleByte_bounds (L := L) ch h
    rw [readlineLoop, if_pos hrun, if_neg hback]
    exact ⟨List.forall_mem_singleton.mpr hcell, hposition⟩
  | case4 ch c hrun =>
    rw [readlineLoop, if_neg hrun]
    exact ⟨List.forall_mem_singleton.mpr (storeByteCell_lt h), storeByte_position h⟩
  | case5 next rest c hrun ih =>
    obtain ⟨hcell, hposition⟩ := consoleByte_bounds (L := L) next h
    obtain ⟨hcells, hlast⟩ := ih hposition
    rw [readlineLoop, if_pos hrun, if_pos rfl]
    exact ⟨List.forall_mem_cons.mpr ⟨hcell, hcells⟩, hlast⟩
  | case6 ch next rest c hrun hcr hback ih =>
    obtain ⟨hcell, hposition⟩ := backspace_position h
    obtain ⟨hcells, hlast⟩ := ih hposition
    rw [readlineLoop, if_pos hrun, if_neg hcr, if_pos hback]
    exact ⟨List.forall_mem_cons.mpr ⟨hcell, hcells⟩, hlast⟩
  | case7 ch next rest c hrun hcr hback ih =>
    obtain ⟨hcell, hposition⟩ := consoleByte_bounds (L := L) ch h
    obtain ⟨hcells, hlast⟩ := ih hposition
    rw [readlineLoop, if_pos hrun, if_neg hcr, if_neg hback]
    exact ⟨List.forall_mem_cons.mpr ⟨hcell, hcells⟩, hlast⟩
  | case8 ch next rest c hrun ih =>
    obtain ⟨hcells, hlast⟩ := ih (storeByte_position h)
    rw [readlineLoop, if_neg hrun]
    exact ⟨List.forall_mem_cons.mpr ⟨storeByteCell_lt h, hcells⟩, hlast⟩

theorem readline_position {bytes : List UInt8} (h : c.load.linePosition < maxInput) :
    (readline L c bytes).load.linePosition < maxInput := by
  have hzero : 0 < maxInput := by decide
  rw [readline]
  dsimp only
  split_ifs
  · exact hzero
  · exact (readlineLoop_bounds bytes h).2

/-! ### Commands and `dojob` -/

theorem inject_position {load : LuaLoad} {command : List UInt8} (hroom : command.length + 1 < maxInput)
    (hend : command.length < maxInput - 2 ∨ 0 ∈ command ∨ load.line.get (maxInput - 2) = 0) :
    (load.inject command).linePosition < maxInput := by
  have hmax : maxInput = 256 := rfl
  have hsize := load.line.size_eq
  have hcells : (load.inject command).line.cells =
      (command ++ load.line.cells.drop command.length).set (command.length + 1) 0 := by
    show (store load.line.cells 0 command).set (command.length + 1) 0 = _
    rw [store_eq _ _ _ (by omega), List.take_zero, List.nil_append, Nat.zero_add]
  have hlength : (command ++ load.line.cells.drop command.length).length = maxInput := by
    rw [List.length_append, List.length_drop]
    omega
  -- a zero byte in front of the last cell
  have hzero : ∃ i < maxInput - 1, (load.inject command).line.cells[i]? = some 0 := by
    rw [hcells]
    by_cases hshort : command.length < maxInput - 2
    · exact ⟨command.length + 1, by omega, List.getElem?_set_self (by omega)⟩
    · rcases hend.resolve_left hshort with hmem | hleft
      · obtain ⟨i, hi, hvalue⟩ := List.mem_iff_getElem.mp hmem
        refine ⟨i, by omega, ?_⟩
        rw [List.getElem?_set_ne (by omega), List.getElem?_append_left hi, List.getElem?_eq_getElem hi, hvalue]
      · have hlast : command.length = maxInput - 2 := by omega
        refine ⟨command.length, by omega, ?_⟩
        rw [List.getElem?_set_ne (by omega), List.getElem?_append_right le_rfl, Nat.sub_self, List.getElem?_drop,
          Nat.add_zero, hlast, List.getElem?_eq_getElem (by omega)]
        rw [Block.get, List.getD_eq_getElem?_getD, List.getElem?_eq_getElem (by omega)] at hleft
        exact congrArg some hleft
  obtain ⟨i, hi, hvalue⟩ := hzero
  have hle := length_cstring_le hvalue
  show (cstring (load.inject command).line.cells 0).length + 1 < maxInput
  omega

theorem inject_terminated {load : LuaLoad} {command : List UInt8} (hroom : command.length + 1 < maxInput) :
    0 ∈ (load.inject command).line.cells := by
  have hsize := (load.line.store 0 command).size_eq
  exact List.mem_set (by omega) 0

theorem injectCells_lt {command : List UInt8} (hroom : command.length + 1 < maxInput) :
    ∀ i ∈ injectCells command, i < maxInput := by
  rw [injectCells, List.forall_mem_append, List.forall_mem_singleton]
  exact ⟨fun i hi => (List.mem_range.mp hi).trans (Nat.lt_of_succ_lt hroom), hroom⟩

theorem NodeInputAccepts.room {load : LuaLoad} {s : List UInt8} (h : NodeInputAccepts load s) : s.length + 1 < maxInput := by
  have hmax : maxInput = 256 := rfl
  have hlength := h.2.1
  omega

theorem nodeInputCells_lt (load : LuaLoad) (s : List UInt8) : ∀ i ∈ nodeInputCells load s, i < maxInput := by
  rw [nodeInputCells]
  split_ifs with haccepts
  · exact injectCells_lt haccepts.room
  · exact fun _ hi => absurd hi List.not_mem_nil

theorem callCells_lt (load : LuaLoad) (calls : List (List UInt8)) : ∀ i ∈ callCells load calls, i < maxInput := by
  induction calls generalizing load with
  | nil => exact fun _ hi => absurd hi List.not_mem_nil
  | cons s calls ih => exact List.forall_mem_append.mpr ⟨nodeInputCells_lt load s, ih _⟩

theorem newlineCell_lt {load : LuaLoad} {behind : List UInt8} (hbehind : 0 ∉ behind)
    (hend : 0 ∈ load.line.cells ∨ behind.getLast? ≠ some 10) : ∀ i ∈ newlineCell load behind, i < maxInput := by
  have hmax : maxInput = 256 := rfl
  rw [newlineCell]
  split_ifs with hnewline
  · rw [List.forall_mem_singleton]
    by_cases hzero : 0 ∈ load.line.cells
    · exact (Nat.sub_le _ _).trans_lt (string_of_terminated hzero behind).2
    · have hstring : load.string behind = load.line.cells ++ behind := by
        rw [LuaLoad.string, cstring, List.drop_zero, List.takeWhile_eq_self_iff]
        intro ch hch
        have hne : ch ≠ 0 := by
          rintro rfl
          exact (List.mem_append.mp hch).elim hzero hbehind
        simpa using hne
      have hnil : behind = [] := by
        by_contra hne
        refine hend.resolve_left hzero ?_
        rw [hstring, List.getLast?_append_of_ne_nil _ hne] at hnewline
        exact hnewline
      rw [hstring, hnil, List.append_nil, load.line.size_eq]
      decide
  · exact fun _ hi => absurd hi List.not_mem_nil

theorem dojobCells_lt {load : LuaLoad} {calls : List (List UInt8)} {behind : List UInt8} (hbehind : 0 ∉ behind)
    (hend : load.done = true → 0 ∈ load.line.cells ∨ behind.getLast? ≠ some 10) :
    ∀ i ∈ dojobCells load calls behind, i < maxInput := by
  rw [dojobCells, List.forall_mem_append]
  refine ⟨?_, fun i hi => List.mem_range.mp hi⟩
  by_cases hdone : load.done = true
  · rw [if_pos hdone]
    exact List.forall_mem_append.mpr ⟨newlineCell_lt hbehind (hend hdone), callCells_lt _ _⟩
  · rw [if_neg hdone]
    exact fun _ hi => absurd hi List.not_mem_nil

theorem dojobBehind_position (behind : List UInt8) : (dojobBehind L c behind).load.linePosition = 0 := by
  by_cases hdone : c.load.done = true
  · rw [dojobBehind, if_pos hdone]
  · rw [dojobBehind, if_neg hdone, dojob, if_neg hdone]

/-! ### Runs -/

theorem lineWrites_step (c : State σ) (e : LineEvent) (h : c.load.linePosition < maxInput)
    (hok : e.WellFormed ∧ Terminated c e) :
    ((lineWrites L).next c e).load.linePosition < maxInput ∧ ∀ i ∈ (lineWrites L).actions c e, i < maxInput := by
  have hzero : 0 < maxInput := by decide
  obtain ⟨hform, hend⟩ := hok
  cases e with
  | uartOn mode => exact ⟨h, fun _ hi => absurd hi List.not_mem_nil⟩
  | readline bytes => exact ⟨readline_position h, (readlineLoop_bounds bytes h).1⟩
  | nodeInput s =>
    refine ⟨?_, nodeInputCells_lt c.load s⟩
    show (nodeInput c s).load.linePosition < maxInput
    rw [nodeInput]
    split_ifs with haccepts
    · exact inject_position haccepts.room (hend haccepts)
    · exact h
  | run payload calls behind =>
    have hmax : maxInput = 256 := rfl
    have hlength := hform.1
    have hroom : payload.length + 1 < maxInput := by omega
    by_cases hposition : c.load.linePosition = 0
    · have hstep : (lineWrites L).step c (.run payload calls behind) =
          (dojobBehind L { c with load := c.load.inject payload } behind,
            injectCells payload ++ dojobCells (c.load.inject payload) calls behind) := if_pos hposition
      rw [Machine.next, Machine.actions, hstep]
      refine ⟨(dojobBehind_position behind).trans_lt hzero, List.forall_mem_append.mpr ⟨injectCells_lt hroom, ?_⟩⟩
      exact dojobCells_lt hform.2 fun _ => Or.inl (inject_terminated hroom)
    · have hstep : (lineWrites L).step c (.run payload calls behind) = (c, []) := if_neg hposition
      rw [Machine.next, Machine.actions, hstep]
      exact ⟨h, fun _ hi => absurd hi List.not_mem_nil⟩
  | dojob calls behind => exact ⟨(dojobBehind_position behind).trans_lt hzero, dojobCells_lt hform hend⟩

/-- As long as every string in the line ends there, no event writes behind the line and the position stays inside. -/
theorem lineWrites_in_bounds (L : Lua σ) (uart : UartMode) (env : σ) (events : List LineEvent)
    (hform : ∀ e ∈ events, e.WellFormed)
    (hok : (lineWrites L).Along Terminated ⟨LuaLoad.initial, uart, env⟩ events) :
    (∀ i ∈ (lineWrites L).trace ⟨LuaLoad.initial, uart, env⟩ events, i < maxInput) ∧
      (lineWrites L).Always (fun c => c.load.linePosition < maxInput) ⟨LuaLoad.initial, uart, env⟩ events := by
  have hinitial : (⟨LuaLoad.initial, uart, env⟩ : State σ).load.linePosition < maxInput :=
    (by decide : 0 < maxInput)
  have halong := hok.and_forall hform
  refine ⟨?_, Machine.always_of_along (fun c e h hok => (lineWrites_step c e h hok).1) hinitial halong⟩
  rw [Machine.forall_trace_iff]
  exact Machine.along_of_step (fun c e h hok => (lineWrites_step c e h hok).1)
    (fun c e h hok => (lineWrites_step c e h hok).2) hinitial halong

/-- A command of `node.input`, bytes of the console behind it, and a command of the file server. -/
theorem lineWrites_in_bounds_three_ways :
    (∀ i ∈ (lineWrites Lua.quiet).trace ⟨LuaLoad.initial, .console, ()⟩
        [.nodeInput [97], .readline [98, 10], .dojob [] [], .run [99] [] []], i < maxInput) ∧
      (lineWrites Lua.quiet).Always (fun c => c.load.linePosition < maxInput) ⟨LuaLoad.initial, .console, ()⟩
        [.nodeInput [97], .readline [98, 10], .dojob [] [], .run [99] [] []] :=
  lineWrites_in_bounds Lua.quiet .console () _ (by decide) (by decide +kernel)

/-- A command of 254 bytes with a leftover of raw mode behind it leaves the position behind the line. -/
theorem line_end_written_behind_line :
    ¬ ∀ (uart : UartMode) (events : List LineEvent), (∀ e ∈ events, e.WellFormed) →
      ∀ i ∈ (lineWrites Lua.quiet).trace ⟨LuaLoad.initial, uart, ()⟩ events, i < maxInput := by
  intro hall
  have hbound := hall ⟨false, 0, -1, false⟩
    [.readline (List.replicate 255 97), .uartOn .console, .nodeInput (List.replicate 254 98), .readline [10]]
    (by decide) maxInput (by decide +kernel)
  exact absurd hbound (lt_irrefl _)

end EspClock.Console
