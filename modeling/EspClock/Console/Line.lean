import EspClock.Lib.Memory
import EspClock.Lib.Decimal

/-!
# The console line

`gLoad` of `lua.c` is the one line of input the interpreter has. The console fills it from the UART
(`readline`), `node.input` and the RUN command of the file server copy a command into it, and `dojob`
hands it to the interpreter and clears it. The interpreter itself and the receive callback set with
`uart.on` are parameters: all that matters of them here is what they do to the UART mode.
-/

namespace EspClock.Console

open Mem Decimal

def maxInput : Nat := 256

/-- The mode set by `uart.on`. A negative `endChar` is none; `receives` is that a receive callback
is set. -/
structure UartMode where
  runInput : Bool
  needLen : Nat
  endChar : Int
  receives : Bool
  deriving DecidableEq

/-- The Lua side. `docall` loads and runs a chunk and says whether the chunk was incomplete;
`onData` is the receive callback of `uart.on`. -/
structure Lua (σ : Type) where
  docall : List UInt8 → UartMode × σ → Bool × UartMode × σ
  onData : List UInt8 → UartMode × σ → UartMode × σ

/-- `lua_Load`. The lines of an incomplete chunk read so far, kept on the Lua stack, are `chunk`. -/
structure LuaLoad where
  firstline : Bool
  line : Block UInt8 maxInput
  linePosition : Nat
  done : Bool
  chunk : List UInt8

structure State (σ : Type) where
  load : LuaLoad
  uart : UartMode
  env : σ

/-- `gLoad` as `lua_main` sets it up. -/
def LuaLoad.initial : LuaLoad := ⟨true, Block.fill maxInput 0, 0, false, []⟩

variable {σ : Type} (L : Lua σ)

/-! ### `dojob` -/

/-- The rewriting `dojob` applies to a line: a newline at its end is dropped, and a `=` at the head
of a first line becomes `return `. -/
def jobText (firstline : Bool) (line : List UInt8) : List UInt8 :=
  let b := if line.getLast? = some 10 then line.dropLast else line
  if firstline ∧ b.head? = some 61 then ascii "return " ++ b.tail else b

/-- `dojob`, with the text it pushes for the line, if there is one to run. -/
def dojob (c : State σ) : State σ × Option (List UInt8) :=
  if c.load.done then
    let text := jobText c.load.firstline (cstring c.load.line.cells 0)
    let chunk := if c.load.firstline then text else c.load.chunk ++ 10 :: text
    let (incomplete, uart, env) := L.docall chunk (c.uart, c.env)
    (⟨⟨!incomplete, Block.fill maxInput 0, 0, false, if incomplete then chunk else []⟩, uart, env⟩,
      some text)
  else
    ({ c with load := { c.load with line := Block.fill maxInput 0, linePosition := 0, done := false } },
      none)

/-! ### Commands copied into the line -/

/-- The copy of a command into the line, as `node.input` and the RUN command do it. The terminator
is stored one cell behind the one that follows the command. -/
def LuaLoad.inject (load : LuaLoad) (command : List UInt8) : LuaLoad :=
  let line := (load.line.store 0 command).set (command.length + 1) 0
  { load with line := line, linePosition := (cstring line.cells 0).length + 1, done := true }

def NodeInputAccepts (load : LuaLoad) (s : List UInt8) : Prop :=
  0 < s.length ∧ s.length < maxInput - 1 ∧ load.linePosition = 0

instance (load : LuaLoad) (s : List UInt8) : Decidable (NodeInputAccepts load s) :=
  inferInstanceAs (Decidable (_ ∧ _ ∧ _))

def nodeInput (c : State σ) (s : List UInt8) : State σ :=
  if NodeInputAccepts c.load s then { c with load := c.load.inject s } else c

/-- The RUN command of the file server on a payload: whether it succeeded, and the text `dojob`
pushed. -/
def runCommand (c : State σ) (payload : List UInt8) : Bool × State σ × Option (List UInt8) :=
  if c.load.linePosition = 0 then
    let (c, text) := dojob L { c with load := c.load.inject payload }
    (true, c, text)
  else (false, c, none)

/-! ### `readline` -/

def uartOnDataCb (c : State σ) (buf : List UInt8) : State σ :=
  if buf = [] ∨ c.uart.receives = false then c
  else
    let (uart, env) := L.onData buf (c.uart, c.env)
    { c with uart := uart, env := env }

def backspace (c : State σ) : State σ :=
  let position := c.load.linePosition - 1
  { c with load := { c.load with line := c.load.line.set position 0, linePosition := position } }

def endOfLine (c : State σ) : State σ :=
  let position := c.load.linePosition
  let line := c.load.line.set position 0
  let c' := uartOnDataCb L { c with load := { c.load with line := line } } (line.upTo position)
  if position = 0 then c' else { c' with load := { c'.load with done := true } }

/-- A byte that goes into the line. With the console on, a line that is too long starts over; in raw
mode a line that is long enough or ends with the end character goes to the receive callback. -/
def storeByte (c : State σ) (ch : UInt8) : State σ :=
  let start := c.load.linePosition
  let position := if c.uart.runInput ∧ maxInput ≤ start + 1 then 0 else start
  let line := c.load.line.set position ch
  let c' := { c with load := { c.load with line := line, linePosition := position + 1 } }
  if c.uart.runInput = false ∧
      (c.uart.needLen ≠ 0 ∧ c.uart.needLen ≤ position + 1 ∨ maxInput ≤ position + 1 ∨
        0 ≤ c.uart.endChar ∧ (ch.toNat : Int) = c.uart.endChar % 256) then
    let c'' := uartOnDataCb L c' (line.upTo (position + 1))
    { c'' with load := { c''.load with linePosition := 0 } }
  else c'

/-- A byte read with the console on, once a carriage return took the byte behind it and a backspace
was handled. -/
def consoleByte (c : State σ) (ch : UInt8) : State σ :=
  if ch = 13 ∨ ch = 10 then endOfLine L c else storeByte L c ch

/-- The loop of `readline` over the bytes `uart_getc` returns in one poll. -/
def readlineLoop : List UInt8 → State σ → State σ
  | [], c => c
  | [ch], c =>
    if c.uart.runInput then
      if ch = 0x7f ∨ ch = 0x08 then backspace c else consoleByte L c ch
    else storeByte L c ch
  | ch :: next :: rest, c =>
    if c.uart.runInput then
      if ch = 13 then readlineLoop rest (consoleByte L c next)
      else if ch = 0x7f ∨ ch = 0x08 then readlineLoop (next :: rest) (backspace c)
      else readlineLoop (next :: rest) (consoleByte L c ch)
    else readlineLoop (next :: rest) (storeByte L c ch)

def readline (c : State σ) (bytes : List UInt8) : State σ :=
  let c := readlineLoop L bytes c
  if 0 < c.load.linePosition ∧ c.uart.runInput = false ∧ c.uart.needLen = 0 ∧ c.uart.endChar < 0 then
    let c' := uartOnDataCb L c (c.load.line.upTo c.load.linePosition)
    { c' with load := { c'.load with linePosition := 0 } }
  else c

@[simp] theorem uartOnDataCb_load (c : State σ) (buf : List UInt8) :
    (uartOnDataCb L c buf).load = c.load := by
  unfold uartOnDataCb
  split <;> rfl

end EspClock.Console
