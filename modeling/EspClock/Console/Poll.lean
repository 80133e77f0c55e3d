import EspClock.Lib.Run
import EspClock.Console.Line
import EspClock.Uart.Receive

/-!
# The timers of the console

`readline` runs from one timer and reads bytes with `uart_getc` until there are none, `dojob` runs from another one.
Neither interrupts the other, but the UART may interrupt both, so bytes arrive in the middle of a poll.
-/

namespace EspClock.Console

open Mem

/-- Where `readline` is: not running, in front of the call of `uart_getc` at the head of its loop, or in front of the
one behind a carriage return. -/
inductive Phase where
  | idle
  | loop
  | afterCr
  deriving DecidableEq

/-- The console with the receive buffer it reads from, and whether its timers are armed. -/
structure Polls (σ : Type) where
  console : State σ
  rx : Uart.State
  phase : Phase
  readlineTimer : Bool
  luaTimer : Bool

/-- What happens: bytes come in, a timer expires, or `readline` does its next part. -/
inductive PollEvent where
  | rxIntr (fifo : List UInt8)
  | readlineTimer
  | luaTimer
  | next

/-- A byte that comes in, and the text that `dojob` pushes for a line. -/
inductive PollAction where
  | received (ch : UInt8)
  | pushed (firstline : Bool) (text : List UInt8)
  deriving DecidableEq

variable {σ : Type} (L : Lua σ)

/-- `consoleByte`, and the timer it arms at the end of a line. -/
def Polls.consoleByte (s : Polls σ) (ch : UInt8) : Polls σ :=
  let ends : Bool := ch = 13 ∨ ch = 10
  let empty : Bool := s.console.load.linePosition = 0
  { s with
    console := Console.consoleByte L s.console ch
    phase := .loop
    readlineTimer := s.readlineTimer || (ends && empty)
    luaTimer := s.luaTimer || (ends && !empty) }

/-- `uart_getc` returned a byte to `readline`. -/
def Polls.byteRead (s : Polls σ) (ch : UInt8) : Polls σ :=
  match s.phase with
  | .afterCr => s.consoleByte L ch
  | _ =>
    if s.console.uart.runInput then
      if ch = 13 then { s with phase := .afterCr }
      else if ch = 0x7f ∨ ch = 0x08 then { s with console := backspace s.console }
      else s.consoleByte L ch
    else { s with console := storeByte L s.console ch }

/-- `uart_getc` returned false to `readline`. -/
def Polls.noneRead (s : Polls σ) : Polls σ :=
  match s.phase with
  | .afterCr => s.consoleByte L 13
  | _ => { s with console := readline L s.console [], phase := .idle, readlineTimer := true }

def Polls.next (s : Polls σ) : Polls σ :=
  if s.phase = .idle then s
  else
    let (rx, results) := Uart.uartGetc s.rx
    match results with
    | [.returned ch] => { s with rx := rx }.byteRead L ch
    | [.returnedFalse] => { s with rx := rx }.noneRead L
    | _ => { s with rx := rx }

def Polls.dojob (s : Polls σ) : Polls σ × List PollAction :=
  let (console, text) := Console.dojob L s.console
  ({ s with console := console, readlineTimer := true, luaTimer := false },
    text.toList.map (.pushed s.console.load.firstline))

def polls : Machine (Polls σ) PollEvent PollAction :=
  ⟨fun s e =>
    match e with
    | .rxIntr fifo =>
      ({ s with rx := { s.rx with rcvBuff := (Uart.uart0RxIntrHandler s.rx.rcvBuff fifo).1 } }, fifo.map .received)
    | .readlineTimer =>
      if s.phase = .idle ∧ s.readlineTimer = true then ({ s with phase := .loop, readlineTimer := false }, [])
      else (s, [])
    | .luaTimer => if s.phase = .idle ∧ s.luaTimer = true then s.dojob L else (s, [])
    | .next => (s.next L, [])⟩

/-- `lua_main` arms the timer of `dojob`. -/
def Polls.initial (mode : UartMode) (env : σ) (cells : Fin (Uart.rxBuffSize + 1) → UInt8) : Polls σ :=
  { console := ⟨LuaLoad.initial, mode, env⟩
    rx := Uart.initial cells
    phase := .idle
    readlineTimer := false
    luaTimer := true }

/-! ### Typed lines -/

inductive LineEnd where
  | cr
  | lf
  | crLf

def LineEnd.bytes : LineEnd → List UInt8
  | .cr => [13]
  | .lf => [10]
  | .crLf => [13, 10]

structure TypedLine where
  text : List UInt8
  lineEnd : LineEnd

def TypedLine.bytes (line : TypedLine) : List UInt8 := line.text ++ line.lineEnd.bytes

/-- The characters of a line that fits are printable. -/
def TypedLine.Plain (line : TypedLine) : Prop :=
  line.text.length < maxInput - 1 ∧ ∀ ch ∈ line.text, 0x20 ≤ ch ∧ ch < 0x7f

/-- The lines that the interpreter should get. -/
def typedTexts (stream : List TypedLine) : List (List UInt8) := (stream.map TypedLine.text).filter (· ≠ [])

def PollAction.received? : PollAction → Option UInt8
  | .received ch => some ch
  | .pushed _ _ => none

def PollAction.pushed? : PollAction → Option (Bool × List UInt8)
  | .received _ => none
  | .pushed firstline text => some (firstline, text)

/-- What `dojob` pushed is the text of a line. -/
def PushedFor (pushed : Bool × List UInt8) (line : List UInt8) : Prop := pushed.2 = jobText pushed.1 line

/-- Bytes come in when there is room for them. -/
def NoOverrun (s : Polls σ) : PollEvent → Prop
  | .rxIntr fifo => s.rx.rcvBuff.contents.length + fifo.length ≤ Uart.rxBuffSize
  | _ => True

instance (s : Polls σ) : DecidablePred (NoOverrun s)
  | .rxIntr _ => inferInstanceAs (Decidable (_ ≤ _))
  | .readlineTimer | .luaTimer | .next => instDecidableTrue

/-- The byte that `uart_getc` is about to return ends a line, if a finished line waits for `dojob` or if a carriage
return behind characters waits for it. -/
def Unhurried (s : Polls σ) : PollEvent → Prop
  | .next =>
    s.phase ≠ .idle → s.rx.reading = true →
      s.console.load.done = true ∨ (s.phase = .afterCr ∧ 0 < s.console.load.linePosition) →
        s.rx.rcvBuff.pop.1 = 13 ∨ s.rx.rcvBuff.pop.1 = 10
  | _ => True

instance (s : Polls σ) : DecidablePred (Unhurried s)
  | .next => inferInstanceAs (Decidable (_ → _ → _ → _))
  | .readlineTimer | .luaTimer | .rxIntr _ => instDecidableTrue

/-- The interpreter leaves the console on. -/
structure Lua.KeepsInput (L : Lua σ) : Prop where
  docall : ∀ chunk mode env, mode.runInput = true → (L.docall chunk (mode, env)).2.1.runInput = true
  onData : ∀ buf mode env, mode.runInput = true → (L.onData buf (mode, env)).1.runInput = true

/-- All that came in was read and run. -/
structure Polls.Settled (s : Polls σ) : Prop where
  read : s.rx.rcvBuff.contents = []
  polled : s.phase = .idle
  run : s.luaTimer = false

end EspClock.Console
