import EspClock.Bytecode.Dump

/-!
# Precompiled chunks, read

`luaU_undump` of `lundump.c` over the buffered streams of `lzio.c`. A reader hands out the stream piece by piece. `Zio.read`
takes bytes across the pieces; the functions of the loader are built on it in the order of the source.

`luaZ_direct_mode` calls the reader with null pointers to ask for the address of a stream in memory. No reader here has one:
it answers null, or takes the call for a real one and stores the size of a piece through the null pointer.
-/

namespace EspClock.Bytecode

open Octets Serial

/-! ### Streams -/

structure Reader (σ : Type) where
  next : σ → Option (List UInt8) × σ
  /-- Whether a call with null pointers is answered with null. -/
  answersNull : σ → Bool

/-- `generic_reader` of `lbaselib.c`, which gets each piece from a Lua function; `getS` of `lauxlib.c` has a single one. -/
def genericReader : Reader (List (List UInt8)) where
  next pieces := (pieces.head?, pieces.tail)
  answersNull _ := true

/-- The bytes still unread of the current piece, and the data of the reader. -/
structure Zio (σ : Type) where
  p : List UInt8
  data : σ

section Stream

variable {σ : Type} (R : Reader σ)

/-- The next byte, for which a piece is fetched if there is none; an empty piece is the end. -/
def Zio.lookahead (z : Zio σ) : Option UInt8 × Zio σ :=
  match z.p with
  | c :: _ => (some c, z)
  | [] =>
    match R.next z.data with
    | (some (c :: cs), data) => (some c, ⟨c :: cs, data⟩)
    | (_, data) => (none, ⟨[], data⟩)

/-- The turns of `luaZ_read`, of which each takes a byte at least: the bytes, and the number of those missing. -/
def Zio.readLoop : Nat → Nat → Zio σ → List UInt8 × Nat × Zio σ
  | 0, n, z => ([], n, z)
  | turns + 1, n, z =>
    if n = 0 then ([], 0, z)
    else
      match z.lookahead R with
      | (none, z) => ([], n, z)
      | (some _, z) =>
        let m := min n z.p.length
        let (bytes, missing, rest) := readLoop turns (n - m) { z with p := z.p.drop m }
        (z.p.take m ++ bytes, missing, rest)

def Zio.read (n : Nat) (z : Zio σ) : List UInt8 × Nat × Zio σ := z.readLoop R n n

end Stream

/-! ### The loader -/

inductive LoadError
  | syntaxError (message : String)
  | nullStore
deriving DecidableEq

/-- What the header says, and the name of the chunk. -/
structure Format where
  name : String
  swap : Bool
  numsize : Nat
  toflt : Bool

structure LoadState (σ : Type) where
  z : Zio σ
  total : Nat

/-- What the loader has from the rest of the interpreter: the check of a function's code, the conversion of integers, and what
is in a number that was never set. -/
structure Host where
  checkcode : Proto → Bool
  ofInt : Int → UInt64
  unset : UInt64

abbrev Load (σ α : Type) := StateT (LoadState σ) (Except LoadError) α

section Load

variable {σ : Type} (R : Reader σ) (H : Host) (S : Format)

def message (name why : String) : LoadError := .syntaxError (name ++ ": " ++ why ++ " in precompiled chunk")

def error {α : Type} (why : String) : Load σ α := throw (message S.name why)

/-- The macro `IF`. -/
def errorIf (c : Bool) (why : String) : Load σ Unit := if c then error S why else pure ()

def loadBlock (size : Nat) : Load σ (List UInt8) := do
  let st ← get
  let (bytes, missing, z) := st.z.read R size
  if missing ≠ 0 then error S "unexpected end"
  else
    set { z, total := st.total + size : LoadState σ }
    return bytes

/-- The elements of a vector. -/
def elements (size : Nat) : Nat → List UInt8 → List (List UInt8)
  | 0, _ => []
  | n + 1, bytes => bytes.take size :: elements size n (bytes.drop size)

def loadMem (n size : Nat) : Load σ (List (List UInt8)) := do
  let bytes ← loadBlock R S (n * size)
  return (elements size n bytes).map fun e => if S.swap then e.reverse else e

def loadVar (size : Nat) : Load σ (List UInt8) := do
  let es ← loadMem R S 1 size
  return es.flatten

def loadChar : Load σ UInt8 := do
  let x ← loadVar R S 1
  return UInt8.ofNat (value x)

def align4 : Load σ Unit := skip 4 LoadState.total (loadChar R S) 4

def loadInt : Load σ Int := do
  let x ← loadVar R S 4
  errorIf S (signed 4 (value x) < 0) "bad integer"
  return signed 4 (value x)

/-- A number of the machine, or an integer of the size that the header gives. -/
def loadNumber : Load σ UInt64 :=
  if S.toflt then
    if S.numsize = 1 ∨ S.numsize = 2 ∨ S.numsize = 4 ∨ S.numsize = 8 then do
      let y ← loadVar R S S.numsize
      return H.ofInt (signed S.numsize (value y))
    else return H.unset
  else do
    let x ← loadVar R S 8
    return UInt64.ofNat (value x)

/-- The question for the address of the stream. -/
def luaZDirectMode : Load σ Unit := do
  let st ← get
  if R.answersNull st.z.data then pure () else throw .nullStore

def loadString : Load σ (Option (List UInt8)) := do
  let x ← loadVar R S 4
  if value x = 0 then return none
  else
    luaZDirectMode R
    let s ← loadBlock R S (value x)
    return some (s.take (value x - 1))

def loadCode : Load σ (List UInt32) := do
  let n ← loadInt R S
  align4 R S
  luaZDirectMode R
  let code ← loadMem R S n.toNat 4
  return code.map fun e => UInt32.ofNat (value e)

def loadConstant : Load σ TValue := do
  let t ← loadChar R S
  if t = 0 then return .nil
  else if t = 1 then
    let b ← loadChar R S
    return .boolean (b ≠ 0)
  else if t = 5 then
    let n ← loadNumber R H S
    return .number n
  else if t = 6 then
    let s ← loadString R S
    return .string (s.getD [])
  else error S "bad constant"

def loadLocVar : Load σ LocVar := do
  let varname ← loadString R S
  let startpc ← loadInt R S
  let endpc ← loadInt R S
  return { varname, startpc, endpc }

/-- A function, unless it is deeper than the C stack allows. -/
def loadFunction : Nat → Option (List UInt8) → Load σ Proto
  | 0, _ => error S "code too deep"
  | room + 1, parent => do
    luaZDirectMode R
    let own ← loadString R S
    let source := own <|> parent
    let linedefined ← loadInt R S
    let lastlinedefined ← loadInt R S
    let nups ← loadChar R S
    let numparams ← loadChar R S
    let isVararg ← loadChar R S
    let maxstacksize ← loadChar R S
    let code ← loadCode R S
    let sizek ← loadInt R S
    let k ← times (loadConstant R H S) sizek.toNat
    let sizep ← loadInt R S
    let p ← times (loadFunction room source) sizep.toNat
    let sizelineinfo ← loadInt R S
    align4 R S
    luaZDirectMode R
    let lines ← loadMem R S sizelineinfo.toNat 4
    let lineinfo := lines.map fun e => signed 4 (value e)
    let sizelocvars ← loadInt R S
    let locvars ← times (loadLocVar R S) sizelocvars.toNat
    let sizeupvalues ← loadInt R S
    let upvalues ← times (loadString R S) sizeupvalues.toNat
    let f : Proto := ⟨source, linedefined, lastlinedefined, nups, numparams, isVararg, maxstacksize, code, k, p, lineinfo,
      locvars, upvalues⟩
    errorIf S (!H.checkcode f) "bad code"
    return f

end Load

/-- The header of this machine, `luaU_header`. -/
def luaUHeader : List UInt8 := luaSignature ++ [0x51, 0, 1, 4, 4, 4, 8, 0]

/-- The header tells whether the bytes are in the other order and whether numbers are integers; else it must be the own one,
but for the size of a number. -/
def loadHeader {σ : Type} (R : Reader σ) (name : String) : Load σ Format := do
  let s ← loadBlock R ⟨name, false, 0, false⟩ 12
  let toflt : Bool := 0 < s.getD 11 0
  let h := luaUHeader.set 10 (s.getD 10 0)
  let s' := s.set 6 1
  let S : Format := { name, swap := s.getD 6 0 ≠ 1, numsize := (s.getD 10 0).toNat, toflt }
  errorIf S (h ≠ if toflt then s'.set 11 0 else s') "bad header"
  return S

def luaiMaxccalls : Nat := 200

/-- The name of a chunk in messages. -/
def chunkName (name : String) : String :=
  match name.toList with
  | c :: rest => if c = '@' ∨ c = '=' then String.ofList rest else if c.toNat = 0x1B then "binary string" else name
  | [] => name

/-- The literal `=?`. -/
def noSource : List UInt8 := [0x3D, 0x3F]

/-- A chunk from a stream, with a number of C calls under way. -/
def luaUUndump {σ : Type} (R : Reader σ) (H : Host) (name : String) (nCcalls : Nat) : Load σ Proto := do
  let S ← loadHeader R (chunkName name)
  modify fun st => { st with total := 0 }
  loadFunction R H S (luaiMaxccalls - nCcalls) (some noSource)

end EspClock.Bytecode
