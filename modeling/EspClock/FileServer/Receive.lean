import EspClock.Console.Line

/-!
# The file server's receive callback

`fs_data_received` of `file_server.c`: the bytes of a callback are copied into the 64-byte buffer,
the state machine reads the command, the size and the payload off the buffer, a complete frame is
executed and answered, and the callback calls itself again on the bytes it has not copied yet.

A call leaves a list of actions behind, in the order the code performs them: every read and write of
`m_DataBuffer` by its index, the execution of a frame, the two `espconn_sent` calls of the answer and
`espconn_disconnect`. The file system and the interpreter are parameters.
-/

namespace EspClock.FileServer

open Mem Decimal Console

def maxBufferSize : Nat := 64

inductive FsState where
  | noCommand
  | noSize
  | noData
  deriving DecidableEq

inductive FsCommand where
  | idle
  | openFile
  | write
  | close
  | run
  deriving DecidableEq

/-- The part of `fs_userdata_t` the receive callback works on. -/
structure FsUserdata where
  dataBuffer : Block UInt8 maxBufferSize
  dataLength : Nat
  readPoint : Nat
  payload : Nat
  state : FsState
  command : FsCommand

/-- The server behind a fresh connection, whatever an earlier one left in the buffer. -/
def FsUserdata.fresh (dataBuffer : Block UInt8 maxBufferSize) : FsUserdata :=
  ⟨dataBuffer, 0, 0, 0, .noCommand, .idle⟩

/-! ### Memory of the server object

`m_DataLength` follows `m_DataBuffer` in the object, so the cell behind the buffer is its low byte. -/

def littleEndian (n : Nat) : List UInt8 :=
  [UInt8.ofNat n, UInt8.ofNat (n / 2 ^ 8), UInt8.ofNat (n / 2 ^ 16), UInt8.ofNat (n / 2 ^ 24)]

namespace FsUserdata

def memory (s : FsUserdata) : List UInt8 := s.dataBuffer.cells ++ littleEndian s.dataLength

def peek (s : FsUserdata) (i : Nat) : UInt8 := s.memory.getD i 0

def poke (s : FsUserdata) (i : Nat) (v : UInt8) : FsUserdata :=
  if i < maxBufferSize then { s with dataBuffer := s.dataBuffer.set i v }
  else if i = maxBufferSize then { s with dataLength := s.dataLength - s.dataLength % 2 ^ 8 + v.toNat }
  else s

end FsUserdata

/-! ### Surroundings -/

inductive OpenMode where
  | w
  | wPlus

/-- What the server calls: the file system next to the Lua side. -/
structure Platform (σ : Type) extends Lua σ where
  fsOpen : List UInt8 → OpenMode → σ → Int × σ
  fsClose : Int → σ → σ
  fsFlush : Int → σ → Int × σ
  fsWrite : Int → List UInt8 → σ → Nat × σ
  spiffsRemove : List UInt8 → σ → σ

def fsOpenOk : Int := 1

def fsInvalidFile : Int := fsOpenOk - 1

def fsNameMaxLength : Nat := 32

/-- The globals a frame acts on: `file_fd` and, with the console, `gLoad` and the file system. -/
structure World (σ : Type) where
  fileFd : Int
  console : State σ

namespace World

variable {σ : Type}

def withEnv (w : World σ) (env : σ) : World σ := { w with console := { w.console with env := env } }

end World

/-- A platform on which every file-system call succeeds and nothing is kept. -/
def Platform.accepting : Platform Unit where
  docall _ x := (false, x)
  onData _ x := x
  fsOpen _ _ x := (1, x)
  fsClose _ x := x
  fsFlush _ x := (0, x)
  fsWrite _ data x := (data.length, x)
  spiffsRemove _ x := x

def World.initial : World Unit := ⟨fsInvalidFile, ⟨LuaLoad.initial, ⟨true, 0, -1, false⟩, ()⟩⟩

inductive Action where
  | read (i : Nat)
  | write (i : Nat) (v : UInt8)
  | execute (command : FsCommand) (frame : List UInt8) (success : Bool)
  | sent (text : List UInt8)
  | sentBuffer (bytes : List UInt8)
  | disconnect
  deriving DecidableEq

/-! ### Execution of a frame -/

section Execution

variable {σ : Type} (P : Platform σ)

/-- `fs_flush` and `fs_close` on the open file, if there is one. -/
def closeFile (w : World σ) : World σ :=
  if w.fileFd ≠ fsInvalidFile then
    { w.withEnv (P.fsClose w.fileFd (P.fsFlush w.fileFd w.console.env).2) with fileFd := fsInvalidFile }
  else w

def executeOpen (w : World σ) (name : List UInt8) : Bool × World σ :=
  let w := closeFile P w
  if name.length ≤ fsNameMaxLength then
    let (fd, env) := P.fsOpen name .w w.console.env
    let env := P.spiffsRemove name (P.fsClose fd env)
    let (fd, env) := P.fsOpen name .wPlus env
    if fd < fsOpenOk then (false, { w.withEnv env with fileFd := fsInvalidFile })
    else (true, { w.withEnv env with fileFd := fd })
  else (false, w)

def executeWrite (w : World σ) (data : List UInt8) : Bool × World σ :=
  if w.fileFd ≠ fsInvalidFile then
    let (written, env) := P.fsWrite w.fileFd data w.console.env
    (written == data.length, w.withEnv env)
  else (false, w)

/-- `fs_flush` until it succeeds, a bounded number of times. -/
def flushLoop (fd : Int) : Nat → σ → Bool × σ
  | 0, env => (false, env)
  | tries + 1, env =>
    let (result, env) := P.fsFlush fd env
    if result = 0 then (true, env) else flushLoop fd tries env

def executeClose (w : World σ) : Bool × World σ :=
  if w.fileFd ≠ fsInvalidFile then
    let (success, env) := flushLoop P w.fileFd 10 w.console.env
    (success, { w.withEnv (P.fsClose w.fileFd env) with fileFd := fsInvalidFile })
  else (false, w)

def executeRun (w : World σ) (payload : List UInt8) : Bool × World σ :=
  let (success, console, _) := runCommand P.toLua w.console payload
  (success, { w with console := console })

def execute (w : World σ) (command : FsCommand) (payload : List UInt8) : Bool × World σ :=
  match command with
  | .idle => (false, w)
  | .openFile => executeOpen P w payload
  | .write => executeWrite P w payload
  | .close => executeClose P w
  | .run => executeRun P w payload

end Execution

/-! ### Reading a frame off the buffer -/

def pipe : UInt8 := 124

def commandOf (c : UInt8) : FsCommand :=
  if c = 79 then .openFile
  else if c = 87 then .write
  else if c = 67 then .close
  else if c = 71 then .run
  else .idle

def atoiFrom (result : Nat) : List UInt8 → Nat
  | [] => result
  | c :: cs => if IsDigit c then atoiFrom (wrap32 (wrap32 (result * 10) + digitValue c)) cs else 0

def atoi (str : List UInt8) : Nat := atoiFrom 0 str

/-- Reads of consecutive cells. -/
def reads (start count : Nat) : List Action := (List.range count).map fun i => .read (start + i)

/-- Writes of consecutive cells. -/
def writes (start : Nat) (bytes : List UInt8) : List Action :=
  bytes.mapIdx fun i v => .write (start + i) v

namespace FsUserdata

/-- The new command, if it is time for one; `none` when the callback returns. -/
def takeCommand (s : FsUserdata) : Option FsUserdata × List Action :=
  if s.state = .noCommand then
    if 2 ≤ s.dataLength then
      let command := commandOf (s.peek 0)
      (some { s with
          readPoint := 2, command := command, state := if command ≠ .idle then .noSize else .noCommand },
        [.read 0])
    else (none, [])
  else (some s, [])

/-- The size, if it is still unknown; `none` when the callback returns. -/
def takeSize (s : FsUserdata) : Option FsUserdata × List Action :=
  if s.state = .noSize then
    let field := (s.memory.drop s.readPoint).take (sub32 s.dataLength s.readPoint)
    match field.findIdx? (· = pipe) with
    | some k =>
      let digits := ((field.take k).takeWhile fun c => decide (IsDigit c)).length
      (some { s with payload := atoi (field.take k), readPoint := s.readPoint + k + 1, state := .noData },
        reads s.readPoint (k + 1) ++ reads s.readPoint (min k (digits + 1)))
    | none => (none, reads s.readPoint field.length)
  else (some s, [])

/-- `mem_move` of the bytes behind the frame to the start of the buffer. -/
def moveActions (cells : List UInt8) (source count : Nat) : List Action :=
  (List.range count).flatMap fun i =>
    [.read (source + i), .write i ((move cells 0 source i).getD (source + i) default)]

/-- The execution and the answer of the frame in the buffer, if it is complete. -/
def takeData {σ : Type} (P : Platform σ) (w : World σ) (s : FsUserdata) :
    FsUserdata × World σ × List Action :=
  if s.payload ≤ sub32 s.dataLength s.readPoint then
    let packetLen := wrap32 (s.readPoint + s.payload) % 2 ^ 16
    let backup := s.peek packetLen
    let terminated := s.poke packetLen 0
    let text := cstring terminated.memory terminated.readPoint
    let (success, w') := execute P w s.command text
    let restored := terminated.poke packetLen backup
    let frame := restored.memory.take packetLen
    let dataLength := sub32 restored.dataLength packetLen
    let moved := if 0 < dataLength then restored.dataBuffer.move 0 packetLen dataLength
      else restored.dataBuffer
    (⟨moved, dataLength, 0, 0, .noCommand, .idle⟩, w',
      [.read packetLen, .write packetLen 0] ++ reads terminated.readPoint (text.length + 1) ++
        [.execute s.command frame success, .write packetLen backup,
          .sent (ascii (if success then "Y|" else "N|")), .sentBuffer frame] ++
        reads 0 packetLen ++ (if success then [] else [.disconnect]) ++
        moveActions restored.dataBuffer.cells packetLen dataLength)
  else (s, w, [])

end FsUserdata

/-! ### The callback -/

variable {σ : Type}

/-- What a call leaves behind; `rest` is the argument of the recursive call at its end, if the call
gets that far. -/
structure Pass (σ : Type) where
  server : FsUserdata
  world : World σ
  actions : List Action
  rest : Option (List UInt8)

/-- One call of `fs_data_received` up to the recursive call. -/
def pass (P : Platform σ) (w : World σ) (s : FsUserdata) (data : List UInt8) : Pass σ :=
  let copied := min data.length (sub32 maxBufferSize s.dataLength)
  if copied = 0 then ⟨s, w, [.disconnect], none⟩
  else
    let bytes := data.take copied
    let s₁ := { s with
      dataBuffer := s.dataBuffer.store s.dataLength bytes, dataLength := s.dataLength + copied }
    let a₁ := writes s.dataLength bytes
    match s₁.takeCommand with
    | (none, a₂) => ⟨s₁, w, a₁ ++ a₂, none⟩
    | (some s₂, a₂) =>
      match s₂.takeSize with
      | (none, a₃) => ⟨s₂, w, a₁ ++ a₂ ++ a₃, none⟩
      | (some s₃, a₃) =>
        let (s₄, w', a₄) := s₃.takeData P w
        ⟨s₄, w', a₁ ++ a₂ ++ a₃ ++ a₄, some (data.drop copied)⟩

structure Outcome (σ : Type) where
  server : FsUserdata
  world : World σ
  actions : List Action

def receiveWith (P : Platform σ) : Nat → World σ → FsUserdata → List UInt8 → Outcome σ
  | 0, w, s, _ => ⟨s, w, []⟩
  | fuel + 1, w, s, data =>
    let r := pass P w s data
    match r.rest with
    | some (byte :: bytes) =>
      let out := receiveWith P fuel r.world r.server (byte :: bytes)
      ⟨out.server, out.world, r.actions ++ out.actions⟩
    | _ => ⟨r.server, r.world, r.actions⟩

/-- `fs_data_received`. Every call copies at least one byte before it calls itself, so the length of
the data bounds the depth. -/
def fsDataReceived (P : Platform σ) (w : World σ) (s : FsUserdata) (data : List UInt8) : Outcome σ :=
  receiveWith P (data.length + 1) w s data

theorem pass_rest_length {P : Platform σ} {w : World σ} {s : FsUserdata} {data rest : List UInt8}
    (h : (pass P w s data).rest = some rest) : rest.length < data.length := by
  unfold pass at h
  by_cases hcopied : min data.length (sub32 maxBufferSize s.dataLength) = 0
  · rw [if_pos hcopied] at h
    cases h
  · rw [if_neg hcopied] at h
    dsimp only at h
    split at h
    · cases h
    · split at h
      · cases h
      · have hrest := Option.some.inj h
        rw [← hrest, List.length_drop]
        omega

private theorem receiveWith_eq (P : Platform σ) (fuel : Nat) (w : World σ) (s : FsUserdata)
    (data : List UInt8) (h : data.length < fuel) :
    receiveWith P fuel w s data = fsDataReceived P w s data := by
  unfold fsDataReceived
  induction hlen : data.length using Nat.strong_induction_on generalizing fuel w s data with
  | _ len ih =>
  subst hlen
  obtain ⟨fuel, rfl⟩ : ∃ n, fuel = n + 1 := ⟨fuel - 1, by omega⟩
  rw [receiveWith, receiveWith]
  cases hrest : (pass P w s data).rest with
  | none => rfl
  | some rest =>
    cases rest with
    | nil => rfl
    | cons byte bytes =>
      have hshort := pass_rest_length hrest
      dsimp only
      rw [ih _ hshort fuel _ _ _ (by omega) rfl, ih _ hshort data.length _ _ _ hshort rfl]

/-- The recursion of the source. -/
theorem fsDataReceived_eq (P : Platform σ) (w : World σ) (s : FsUserdata) (data : List UInt8) :
    fsDataReceived P w s data =
      match (pass P w s data).rest with
      | some (byte :: bytes) =>
        let out := fsDataReceived P (pass P w s data).world (pass P w s data).server (byte :: bytes)
        ⟨out.server, out.world, (pass P w s data).actions ++ out.actions⟩
      | _ => ⟨(pass P w s data).server, (pass P w s data).world, (pass P w s data).actions⟩ := by
  rw [fsDataReceived, receiveWith]
  cases hrest : (pass P w s data).rest with
  | none => rfl
  | some rest =>
    cases rest with
    | nil => rfl
    | cons byte bytes =>
      dsimp only
      rw [receiveWith_eq P data.length _ _ _ (pass_rest_length hrest)]

end EspClock.FileServer
