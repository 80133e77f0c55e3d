import EspClock.Lib.Memory

/-!
# The LED strip

`lpd8806.c`: a strip keeps three bytes for every LED in a buffer, `set_color` runs the colours through
the gamma table and stores them, `update` shifts the buffer out. The lengths, indices and colours come
from Lua as integers and become unsigned 32-bit words without a check.

An operation leaves its accesses behind: the indices into the gamma table and the buffer, the divisors
of its modulo operations and the bytes it shifts out.
-/

namespace EspClock.Led

open Mem

/-! ### Arguments from Lua -/

/-- A Lua value as the C functions see it: a string with the integer it reads as, if it is a numeral; a
number with the text and the integer it converts to; a table with its elements. -/
inductive LuaValue where
  | string (text : List UInt8) (integer : Option Int)
  | number (text : List UInt8) (integer : Int)
  | table (elements : List LuaValue)
  | other

inductive LuaError where
  | notInteger (argument : Int)
  | message (text : String)
  deriving DecidableEq

namespace LuaValue

/-- `lua_isstring`, which is true for numbers. -/
def isString : LuaValue → Bool
  | string _ _ | number _ _ => true
  | _ => false

/-- `luaL_checkinteger` -/
def integer? : LuaValue → Option Int
  | string _ integer => integer
  | number _ integer => some integer
  | _ => none

/-- `lua_isnumber` -/
def isNumber (v : LuaValue) : Bool := v.integer?.isSome

/-- `lua_tointeger` -/
def toInteger (v : LuaValue) : Int := v.integer?.getD 0

/-- `lua_tostring` -/
def toText : LuaValue → List UInt8
  | string text _ | number text _ => text
  | _ => []

/-- An argument that may be left out. -/
def wordOr (v : LuaValue) (default : Nat) : Nat := if v.isNumber then word32 v.toInteger else default

end LuaValue

/-! ### The strip -/

def gammaTable : List Nat :=
  [0, 0, 0, 0, 0, 0, 0, 0, 0, 0, 0, 0, 0, 0, 0, 0,
   0, 0, 0, 0, 0, 0, 0, 0, 0, 0, 0, 0, 1, 1, 1, 1,
   1, 1, 1, 1, 1, 1, 1, 1, 1, 1, 1, 1, 2, 2, 2, 2,
   2, 2, 2, 2, 2, 3, 3, 3, 3, 3, 3, 3, 3, 4, 4, 4,
   4, 4, 4, 4, 5, 5, 5, 5, 5, 6, 6, 6, 6, 6, 7, 7,
   7, 7, 7, 8, 8, 8, 8, 9, 9, 9, 9, 10, 10, 10, 10, 11,
   11, 11, 12, 12, 12, 13, 13, 13, 13, 14, 14, 14, 15, 15, 16, 16,
   16, 17, 17, 17, 18, 18, 18, 19, 19, 20, 20, 21, 21, 21, 22, 22,
   23, 23, 24, 24, 24, 25, 25, 26, 26, 27, 27, 28, 28, 29, 29, 30,
   30, 31, 32, 32, 33, 33, 34, 34, 35, 35, 36, 37, 37, 38, 38, 39,
   40, 40, 41, 41, 42, 43, 43, 44, 45, 45, 46, 47, 47, 48, 49, 50,
   50, 51, 52, 52, 53, 54, 55, 55, 56, 57, 58, 58, 59, 60, 61, 62,
   62, 63, 64, 65, 66, 67, 67, 68, 69, 70, 71, 72, 73, 74, 74, 75,
   76, 77, 78, 79, 80, 81, 82, 83, 84, 85, 86, 87, 88, 89, 90, 91,
   92, 93, 94, 95, 96, 97, 98, 99, 100, 101, 102, 104, 105, 106, 107, 108,
   109, 110, 111, 113, 114, 115, 116, 117, 118, 120, 121, 122, 123, 125, 126, 127]

structure Strip where
  mosi : Nat
  clk : Nat
  length : Nat
  type : Nat
  delay : Nat
  buffer : List UInt8

inductive Access where
  | gamma (index : Nat)
  | modulo (divisor : Nat)
  | buffer (index : Nat)
  | transfer (byte : UInt8)
  deriving DecidableEq

/-- The arguments of a `set_color`. -/
structure Color where
  index : Nat
  r : Nat
  g : Nat
  b : Nat

namespace Strip

def setColor (s : Strip) (c : Color) : Strip × List Access :=
  let index := c.index % s.length
  let rn := gammaTable.getD c.r 0
  let gn := gammaTable.getD c.g 0
  let bn := gammaTable.getD c.b 0
  let buffer := s.buffer.set (wrap32 (3 * index)) (UInt8.ofNat (gn ||| 0x80))
  let buffer := buffer.set (wrap32 (3 * index + 1)) (UInt8.ofNat (rn ||| 0x80))
  let buffer := buffer.set (wrap32 (3 * index + 2)) (UInt8.ofNat (bn ||| 0x80))
  ({ s with buffer := buffer },
    [.modulo s.length, .gamma c.r, .gamma c.g, .gamma c.b, .buffer (wrap32 (3 * index)),
      .buffer (wrap32 (3 * index + 1)), .buffer (wrap32 (3 * index + 2))])

/-- One `set_color` after another. -/
def setColors (s : Strip) : List Color → Strip × List Access
  | [] => (s, [])
  | c :: cs =>
    let (s, a) := s.setColor c
    let (s, b) := setColors s cs
    (s, a ++ b)

def clear (s : Strip) (r g b : Nat) : Strip × List Access :=
  s.setColors ((List.range s.length).map fun i => ⟨i, r, g, b⟩)

/-- `update`: the accesses of shifting out the buffer and the latch bytes. -/
def update (s : Strip) : List Access :=
  let length := wrap32 (s.length * 3) % 2 ^ 16
  let latch := wrap32 (wrap32 (s.length + 31) / 32 * 3) % 2 ^ 16
  (List.range length).flatMap (fun i => [.buffer i, .transfer (s.buffer.getD i 0)]) ++
    List.replicate latch (.transfer 0)

end Strip

/-! ### Lua functions -/

/-- What a setup asks of the board: the pins there are, the result of setting their mode, and whether
an object and a number of bytes can be allocated. -/
structure Board where
  gpioExists : Nat → Bool
  gpioMode : Nat → Int
  newuserdata : Bool
  zalloc : Nat → Bool

def lpdSetup (board : Board) (mosi clk length type delay : LuaValue) : Except LuaError (Strip × List Access) :=
  match mosi.integer?, clk.integer?, length.integer? with
  | some mosi, some clk, some length =>
    let s : Strip := ⟨word32 mosi, word32 clk, word32 length, type.wordOr 0, delay.wordOr 2,
      List.replicate (wrap32 (word32 length * 3)) 0⟩
    if !board.gpioExists s.mosi then .error (.message s!"gpio {s.mosi} does not exist")
    else if !board.gpioExists s.clk then .error (.message s!"gpio {s.clk} does not exist")
    else if board.gpioMode s.mosi < 0 then .error (.message "Invalid MOSI pin.")
    else if board.gpioMode s.clk < 0 then .error (.message "Invalid CLK pin.")
    else if !board.newuserdata then .error (.message "Out of memory (struct).")
    else if !board.zalloc s.buffer.length then .error (.message "Out of memory (data).")
    else
      let (s, a) := s.clear 0 0 0
      .ok (s, a ++ s.update)
  | none, _, _ => .error (.notInteger 1)
  | _, none, _ => .error (.notInteger 2)
  | _, _, none => .error (.notInteger 3)

/-- The colours of the table form, up to the first element that is not an integer. -/
def tableColors : List LuaValue → List LuaValue → List LuaValue → List LuaValue → List Color × Option LuaError
  | i :: is, r :: rs, g :: gs, b :: bs =>
    match i.integer?, r.integer?, g.integer?, b.integer? with
    | some i, some r, some g, some b =>
      let (cs, e) := tableColors is rs gs bs
      (⟨word32 i, word32 r, word32 g, word32 b⟩ :: cs, e)
    | _, _, _, _ => ([], some (.notInteger (-1)))
  | _, _, _, _ => ([], none)

/-- The calls of `set_color` that `lpd_set_color` makes, and the error it ends with. -/
def setColorCalls (index r g b : LuaValue) : List Color × Option LuaError :=
  match index with
  | .table is =>
    match r, g, b with
    | .table rs, .table gs, .table bs =>
      if is.length = rs.length ∧ is.length = gs.length ∧ is.length = bs.length then tableColors is rs gs bs
      else ([], some (.message "Tables sizes do not match"))
    | _, _, _ => ([], some (.message "Tables sizes do not match"))
  | _ =>
    match index.integer?, r.integer?, g.integer?, b.integer? with
    | some i, some r, some g, some b => ([⟨word32 i, word32 r, word32 g, word32 b⟩], none)
    | none, _, _, _ => ([], some (.notInteger 2))
    | _, none, _, _ => ([], some (.notInteger 3))
    | _, _, none, _ => ([], some (.notInteger 4))
    | _, _, _, none => ([], some (.notInteger 5))

def lpdSetColor (s : Strip) (index r g b : LuaValue) : Strip × List Access × Option LuaError :=
  let (colors, e) := setColorCalls index r g b
  let (s, a) := s.setColors colors
  (s, a, e)

def lpdClear (s : Strip) (r g b : LuaValue) : Strip × List Access :=
  let (s, a) := s.clear (r.wordOr 0) (g.wordOr 0) (b.wordOr 0)
  (s, a ++ s.update)

/-! ### Shapes -/

namespace Strip

@[simp] theorem setColor_buffer_length (s : Strip) (c : Color) :
    (s.setColor c).1.buffer.length = s.buffer.length := by
  simp [setColor]

@[simp] theorem setColors_length (s : Strip) (cs : List Color) : (s.setColors cs).1.length = s.length := by
  induction cs generalizing s with
  | nil => rfl
  | cons c cs ih =>
    rw [setColors, ih]
    rfl

@[simp] theorem setColors_buffer_length (s : Strip) (cs : List Color) :
    (s.setColors cs).1.buffer.length = s.buffer.length := by
  induction cs generalizing s with
  | nil => rfl
  | cons c cs ih => rw [setColors, ih, setColor_buffer_length]

@[simp] theorem clear_length (s : Strip) (r g b : Nat) : (s.clear r g b).1.length = s.length :=
  s.setColors_length _

@[simp] theorem clear_buffer_length (s : Strip) (r g b : Nat) :
    (s.clear r g b).1.buffer.length = s.buffer.length :=
  s.setColors_buffer_length _

end Strip

end EspClock.Led
