import EspClock.Lib.Run
import EspClock.Console.Line

/-!
# Commands injected into the line

`node.input` and the RUN command of the file server copy a command into the line of the console and
leave it to `dojob`. Both store the terminator one cell too far, so the command ends where it should
only if the cell behind it was zero already; and until `dojob` has run, the UART goes on writing to the
same line. `injections` keeps the accepted command next to the console and records, for every accepted
command, what `dojob` pushed for it.
-/

namespace EspClock.Console

open Mem Decimal

/-- The console with the command of `node.input` that `dojob` has not run yet. -/
structure Injections (σ : Type) where
  console : State σ
  pending : Option (List UInt8)

inductive ConsoleEvent where
  | uartOn (mode : UartMode)
  | readline (bytes : List UInt8)
  | nodeInput (s : List UInt8)
  | run (payload : List UInt8)
  | dojob

/-- An accepted command and what was pushed for it: nothing, if another command took its place. -/
structure Pushed where
  firstline : Bool
  command : List UInt8
  text : Option (List UInt8)
  deriving DecidableEq

def Pushed.Verbatim (p : Pushed) : Prop := p.text = some (jobText p.firstline p.command)

instance : DecidablePred Pushed.Verbatim := fun p => inferInstanceAs (Decidable (p.text = _))

variable {σ : Type} (L : Lua σ)

/-- A pending command that gives way to another one is lost. -/
def Injections.lost (st : Injections σ) : List Pushed :=
  st.pending.toList.map fun command => ⟨st.console.load.firstline, command, none⟩

def injections : Machine (Injections σ) ConsoleEvent Pushed :=
  ⟨fun st e =>
    match e with
    | .uartOn mode => ({ st with console := { st.console with uart := mode } }, [])
    | .readline bytes => ({ st with console := readline L st.console bytes }, [])
    | .nodeInput s =>
      if NodeInputAccepts st.console.load s then (⟨nodeInput st.console s, some s⟩, st.lost) else (st, [])
    | .run payload =>
      let (success, console, text) := runCommand L st.console payload
      if success then (⟨console, none⟩, st.lost ++ [⟨st.console.load.firstline, payload, text⟩])
      else (st, [])
    | .dojob =>
      let (console, text) := dojob L st.console
      (⟨console, none⟩,
        st.pending.toList.map fun command => ⟨st.console.load.firstline, command, text⟩)⟩

/-- The commands have no NUL bytes, and a payload comes from the file server's buffer. -/
def ConsoleEvent.WellFormed : ConsoleEvent → Prop
  | .nodeInput s => 0 ∉ s
  | .run payload => 0 ∉ payload ∧ payload.length < 64
  | _ => True

instance : DecidablePred ConsoleEvent.WellFormed
  | .nodeInput s => inferInstanceAs (Decidable (0 ∉ s))
  | .run payload => inferInstanceAs (Decidable (0 ∉ payload ∧ payload.length < 64))
  | .uartOn _ | .readline _ | .dojob => instDecidableTrue

/-- The bytes of a poll all go behind the terminator of a command of length `l`: the position is past
it and stays inside the line, no byte takes a character back, and none ends what is being read in a
way that calls the receive callback or starts the line over. -/
def Behind (c : State σ) (l : Nat) (bytes : List UInt8) : Prop :=
  l < c.load.linePosition ∧ c.load.linePosition + bytes.length < maxInput ∧
    if c.uart.runInput then
      ∀ ch ∈ bytes, ch ≠ 0x7f ∧ ch ≠ 0x08 ∧ (c.uart.receives = true → ch ≠ 13 ∧ ch ≠ 10)
    else
      (c.uart.needLen = 0 ∨ c.load.linePosition + bytes.length < c.uart.needLen) ∧
        ∀ ch ∈ bytes, ¬ (0 ≤ c.uart.endChar ∧ (ch.toNat : Int) = c.uart.endChar % 256)

/-- A command is accepted when no other is pending and the cell behind its end is zero, and while one
is pending a poll reads nothing or goes behind its terminator. -/
def Undisturbed (st : Injections σ) : ConsoleEvent → Prop
  | .nodeInput s => NodeInputAccepts st.console.load s →
      st.pending = none ∧ st.console.load.line.get s.length = 0
  | .run payload => st.console.load.linePosition = 0 →
      st.pending = none ∧ st.console.load.line.get payload.length = 0
  | .readline bytes => ∀ command ∈ st.pending, bytes = [] ∨ Behind st.console command.length bytes
  | _ => True

/-! ### A command in the line -/

/-- The line is ready to run and begins with the terminated command. -/
structure Loaded (load : LuaLoad) (command : List UInt8) : Prop where
  done : load.done = true
  upTo_eq : load.line.upTo (command.length + 1) = command ++ [0]

theorem Loaded.cstring_eq {load : LuaLoad} {command : List UInt8} (h : Loaded load command) (hnul : 0 ∉ command) :
    cstring load.line.cells 0 = command := by
  have hcells : load.line.cells = command ++ 0 :: load.line.cells.drop (command.length + 1) := by
    conv_lhs => rw [← List.take_append_drop (command.length + 1) load.line.cells]
    rw [show load.line.cells.take (command.length + 1) = command ++ [0] from h.upTo_eq, List.append_assoc]
    rfl
  rw [hcells, cstring_zero_of_append hnul]

/-- The terminator stored by the copy is not the one that counts. -/
theorem loaded_inject {load : LuaLoad} {command : List UInt8} (hroom : command.length < maxInput)
    (hzero : load.line.get command.length = 0) : Loaded (load.inject command) command := by
  refine ⟨rfl, ?_⟩
  have hsize := load.line.size_eq
  have hcell : command.length < load.line.cells.length := by rw [hsize]; exact hroom
  have hhead : load.line.cells.drop command.length = 0 :: load.line.cells.drop (command.length + 1) := by
    rw [List.drop_eq_getElem_cons hcell]
    congr 1
    rw [Block.get, List.getD_eq_getElem?_getD, List.getElem?_eq_getElem hcell] at hzero
    exact hzero
  have hstore : (load.line.store 0 command).upTo (command.length + 1) = command ++ [0] := by
    change (store load.line.cells 0 command).take (command.length + 1) = command ++ [0]
    rw [store_eq _ _ _ (by omega), List.take_zero, List.nil_append, Nat.zero_add, hhead, List.take_append,
      List.take_of_length_le (Nat.le_succ _), Nat.succ_sub (le_refl _), Nat.sub_self]
    rfl
  change ((load.line.store 0 command).set (command.length + 1) 0).upTo (command.length + 1) = command ++ [0]
  rw [Block.upTo_set _ _ le_rfl, hstore]

theorem dojob_loaded {c : State σ} {command : List UInt8} (h : Loaded c.load command) (hnul : 0 ∉ command) :
    (dojob L c).2 = some (jobText c.load.firstline command) := by
  rw [dojob, if_pos h.done, h.cstring_eq hnul]

/-! ### Polls behind a command -/

/-- A byte behind the terminator of a command changes neither the command nor the mode and moves the
position up by at most one. -/
structure Spared (l : Nat) (c c' : State σ) : Prop where
  done : c'.load.done = c.load.done ∨ c'.load.done = true
  line : c'.load.line.upTo (l + 1) = c.load.line.upTo (l + 1)
  uart : c'.uart = c.uart
  le : c.load.linePosition ≤ c'.load.linePosition
  le_succ : c'.load.linePosition ≤ c.load.linePosition + 1

variable {L} {c : State σ} {l : Nat} {ch : UInt8}

theorem storeByte_console (hmode : c.uart.runInput = true) (hl : l < c.load.linePosition)
    (hroom : c.load.linePosition + 1 < maxInput) : Spared l c (storeByte L c ch) := by
  have hposition : ¬ (c.uart.runInput = true ∧ maxInput ≤ c.load.linePosition + 1) := by omega
  have hkeep : ¬ (c.uart.runInput = false ∧
      (c.uart.needLen ≠ 0 ∧ c.uart.needLen ≤ c.load.linePosition + 1 ∨ maxInput ≤ c.load.linePosition + 1 ∨
        0 ≤ c.uart.endChar ∧ (ch.toNat : Int) = c.uart.endChar % 256)) := by simp [hmode]
  rw [storeByte]
  simp only [if_neg hposition, if_neg hkeep]
  exact ⟨Or.inl rfl, Block.upTo_set _ _ hl, rfl, Nat.le_succ _, le_rfl⟩

theorem storeByte_raw (hl : l < c.load.linePosition)
    (hroom : c.load.linePosition + 1 < maxInput)
    (hlen : c.uart.needLen = 0 ∨ c.load.linePosition + 1 < c.uart.needLen)
    (hend : ¬ (0 ≤ c.uart.endChar ∧ (ch.toNat : Int) = c.uart.endChar % 256)) :
    Spared l c (storeByte L c ch) := by
  have hposition : ¬ (c.uart.runInput = true ∧ maxInput ≤ c.load.linePosition + 1) := by omega
  have hkeep : ¬ (c.uart.runInput = false ∧
      (c.uart.needLen ≠ 0 ∧ c.uart.needLen ≤ c.load.linePosition + 1 ∨ maxInput ≤ c.load.linePosition + 1 ∨
        0 ≤ c.uart.endChar ∧ (ch.toNat : Int) = c.uart.endChar % 256)) := by
    rintro ⟨-, ⟨hne, hle⟩ | hfull | hchar⟩
    · omega
    · omega
    · exact hend hchar
  rw [storeByte]
  simp only [if_neg hposition, if_neg hkeep]
  exact ⟨Or.inl rfl, Block.upTo_set _ _ hl, rfl, Nat.le_succ _, le_rfl⟩

theorem endOfLine_silent (hreceives : c.uart.receives = false) (hl : l < c.load.linePosition) :
    Spared l c (endOfLine L c) := by
  have hposition : c.load.linePosition ≠ 0 := by omega
  rw [endOfLine]
  simp only [if_neg hposition, uartOnDataCb, hreceives, or_true, if_true]
  exact ⟨Or.inr rfl, Block.upTo_set _ _ hl, rfl, le_rfl, Nat.le_succ _⟩

variable {command bytes rest : List UInt8} {c' : State σ}

theorem Loaded.of_spared (h : Loaded c.load command) (hspared : Spared command.length c c') :
    Loaded c'.load command := by
  refine ⟨?_, hspared.line.trans h.upTo_eq⟩
  rcases hspared.done with hdone | hdone
  · exact hdone.trans h.done
  · exact hdone

theorem Behind.skip (h : Behind c l (ch :: rest)) : Behind c l rest := by
  obtain ⟨hl, hroom, hmode⟩ := h
  rw [List.length_cons] at hroom hmode
  refine ⟨hl, by omega, ?_⟩
  split_ifs at hmode ⊢ with hrun
  · exact fun x hx => hmode x (List.mem_cons_of_mem ch hx)
  · exact ⟨by omega, fun x hx => hmode.2 x (List.mem_cons_of_mem ch hx)⟩

theorem Behind.tail (h : Behind c l (ch :: rest)) (hspared : Spared l c c') : Behind c' l rest := by
  obtain ⟨hl, hroom, hmode⟩ := h
  have hle := hspared.le
  have hle_succ := hspared.le_succ
  rw [List.length_cons] at hroom hmode
  rw [Behind, hspared.uart]
  refine ⟨by omega, by omega, ?_⟩
  split_ifs at hmode ⊢ with hrun
  · exact fun x hx => hmode x (List.mem_cons_of_mem ch hx)
  · exact ⟨by omega, fun x hx => hmode.2 x (List.mem_cons_of_mem ch hx)⟩

theorem Behind.consoleByte (h : Behind c l (ch :: rest)) (hrun : c.uart.runInput = true) :
    Spared l c (consoleByte L c ch) := by
  obtain ⟨hl, hroom, hmode⟩ := h
  rw [List.length_cons] at hroom
  rw [if_pos hrun] at hmode
  unfold Console.consoleByte
  split_ifs with heol
  · refine endOfLine_silent ?_ hl
    by_contra hreceives
    have hch := (hmode ch List.mem_cons_self).2.2 (by simpa using hreceives)
    exact heol.elim hch.1 hch.2
  · exact storeByte_console hrun hl (by omega)

theorem Behind.storeByte (h : Behind c l (ch :: rest)) (hrun : ¬ c.uart.runInput = true) :
    Spared l c (storeByte L c ch) := by
  obtain ⟨hl, hroom, hmode⟩ := h
  rw [List.length_cons] at hroom hmode
  rw [if_neg hrun] at hmode
  exact storeByte_raw hl (by omega) (by omega) (hmode.2 ch List.mem_cons_self)

theorem Behind.not_backspace (h : Behind c l (ch :: rest)) (hrun : c.uart.runInput = true) :
    ¬ (ch = 0x7f ∨ ch = 0x08) := by
  obtain ⟨-, -, hmode⟩ := h
  rw [if_pos hrun] at hmode
  have hch := hmode ch List.mem_cons_self
  exact fun hback => hback.elim hch.1 hch.2.1

/-- A poll whose bytes all go behind the command leaves it in the line. -/
theorem readlineLoop_loaded (h : Behind c command.length bytes) (hload : Loaded c.load command) :
    Loaded (readlineLoop L bytes c).load command := by
  fun_induction readlineLoop L bytes c with
  | case1 c => exact hload
  | case2 ch c hrun hback => exact absurd hback (h.not_backspace hrun)
  | case3 ch c hrun hback => exact hload.of_spared (h.consoleByte hrun)
  | case4 ch c hrun => exact hload.of_spared (h.storeByte hrun)
  | case5 next rest c hrun ih =>
    have hspared := h.skip.consoleByte (L := L) hrun
    exact ih (h.skip.tail hspared) (hload.of_spared hspared)
  | case6 ch next rest c hrun hcr hback => exact absurd hback (h.not_backspace hrun)
  | case7 ch next rest c hrun hcr hback ih =>
    have hspared := h.consoleByte (L := L) hrun
    exact ih (h.tail hspared) (hload.of_spared hspared)
  | case8 ch next rest c hrun ih =>
    have hspared := h.storeByte (L := L) hrun
    exact ih (h.tail hspared) (hload.of_spared hspared)

theorem readline_loaded (h : bytes = [] ∨ Behind c command.length bytes) (hload : Loaded c.load command) :
    Loaded (readline L c bytes).load command := by
  have hloop : Loaded (readlineLoop L bytes c).load command := by
    rcases h with rfl | h
    · exact hload
    · exact readlineLoop_loaded h hload
  unfold readline
  dsimp only
  split_ifs
  · exact ⟨by simpa using hloop.done, by simpa using hloop.upTo_eq⟩
  · exact hloop

/-! ### Runs -/

/-- What is pending is in the line. -/
def Injections.Sound (st : Injections σ) : Prop :=
  ∀ command ∈ st.pending, 0 ∉ command ∧ Loaded st.console.load command

theorem injections_sound (st : Injections σ) (e : ConsoleEvent) (h : st.Sound)
    (hok : e.WellFormed ∧ Undisturbed st e) : ((injections L).next st e).Sound := by
  obtain ⟨hform, hok⟩ := hok
  cases e with
  | uartOn mode => exact h
  | readline bytes =>
    intro command hpending
    exact ⟨(h command hpending).1, readline_loaded (hok command hpending) (h command hpending).2⟩
  | nodeInput s =>
    simp only [Machine.next, injections]
    split
    next haccepts =>
      intro command hpending
      cases hpending
      have hroom : s.length < maxInput := lt_of_lt_of_le haccepts.2.1 (Nat.sub_le _ _)
      rw [nodeInput, if_pos haccepts]
      exact ⟨hform, loaded_inject hroom (hok haccepts).2⟩
    next => exact h
  | run payload =>
    simp only [Machine.next, injections]
    split
    · exact fun command hpending => nomatch hpending
    · exact h
  | dojob => exact fun command hpending => nomatch hpending

/-- What a step pushes for a command is the command. -/
theorem injections_verbatim (st : Injections σ) (e : ConsoleEvent) (h : st.Sound)
    (hok : e.WellFormed ∧ Undisturbed st e) : ∀ p ∈ (injections L).actions st e, p.Verbatim := by
  obtain ⟨hform, hok⟩ := hok
  cases e with
  | uartOn mode => exact fun p hp => nomatch hp
  | readline bytes => exact fun p hp => nomatch hp
  | nodeInput s =>
    simp only [Machine.actions, injections]
    split
    next haccepts =>
      rw [Injections.lost, (hok haccepts).1]
      exact fun p hp => nomatch hp
    next => exact fun p hp => nomatch hp
  | run payload =>
    simp only [Machine.actions, injections, runCommand]
    by_cases hposition : st.console.load.linePosition = 0
    · obtain ⟨hnone, hzero⟩ := hok hposition
      have hroom : payload.length < maxInput := hform.2.trans (by decide)
      have hpush := dojob_loaded L (c := { st.console with load := st.console.load.inject payload })
        (loaded_inject hroom hzero) hform.1
      simp only [if_pos hposition, if_true, Injections.lost, hnone, Option.toList_none, List.map_nil,
        List.nil_append, List.mem_singleton]
      rintro p rfl
      exact hpush
    · simp [if_neg hposition]
  | dojob =>
    intro p hp
    obtain ⟨command, hpending, rfl⟩ := List.mem_map.mp hp
    obtain ⟨hnul, hloaded⟩ := h command (by simpa using hpending)
    exact dojob_loaded L hloaded hnul

/-- The console as `lua_main` leaves it, in any UART mode. -/
def Injections.initial (uart : UartMode) (env : σ) : Injections σ := ⟨⟨LuaLoad.initial, uart, env⟩, none⟩

/-- A Lua side that runs every chunk and does nothing else. -/
def Lua.quiet : Lua Unit where
  docall _ x := (false, x)
  onData _ x := x

def UartMode.console : UartMode := ⟨true, 0, -1, false⟩

end EspClock.Console
