import EspClock.Lib.Decimal
import EspClock.Bytecode.RoundTrip

/-!
# Compiling a file and loading it

`node.compile` of `node.c` writes the stripped chunk of a function into a file. Its writer refuses a block that the file system
did not take as a whole, and nobody looks at that afterwards: the call returns as if all was well, or never, if the file ends
within a word. `luaL_loadfsfile` of `lauxlib.c` reads the file through a buffer; it takes the question for the address of the
stream for a real call, unless the whole file was in the buffer.
-/

namespace EspClock.Bytecode

open Decimal Octets Serial

/-! ### Writing the file -/

def luaErrCcNotinteger : Int := 102

section Compile

variable {σ : Type}

/-- What `node.compile` has from the rest of the firmware: the compiler, and the file system. -/
structure Firmware (σ : Type) where
  fsNameMaxLength : Nat
  loadfsfile : List UInt8 → Except String Proto
  fsOpen : List UInt8 → Option σ
  fsWrite : List UInt8 → σ → Int × σ

/-- The callback for the dump. -/
def writer (F : Firmware σ) : Writer σ := fun p u =>
  if p.length ≠ 0 then
    let (n, u) := F.fsWrite p u
    (if n = p.length then 0 else 1, u)
  else (0, u)

inductive Outcome (σ : Type)
  | raised (message : String)
  | returned (file : σ)

/-- The name of the file with the chunk. -/
def output (fname : List UInt8) : List UInt8 := fname.take (fname.length - 2) ++ ascii "c"

/-- A call of `node.compile`; `none` if it never returns. -/
def nodeCompile (F : Firmware σ) (fname : List UInt8) : Option (Outcome σ) :=
  if F.fsNameMaxLength < fname.length then some (.raised "filename too long")
  else if fname.length < 4 ∨ fname.drop (fname.length - 4) ≠ ascii ".lua" then some (.raised "not a .lua file")
  else
    match F.loadfsfile fname with
    | .error text => some (.raised text)
    | .ok f =>
      match F.fsOpen (output fname) with
      | none => some (.raised "cannot open/write to file")
      | some file =>
        (luaUDump (writer F) file true f).map fun D =>
          if D.status = luaErrCcIntoverflow then .raised "value too big or small for target integer type"
          else if D.status = luaErrCcNotinteger then .raised "target lua_Number is integral but fractional value found"
          else .returned D.data

/-- A call that gets as far as the dump. -/
structure Compiles (F : Firmware σ) (fname : List UInt8) (f : Proto) (file : σ) : Prop where
  length_le : fname.length ≤ F.fsNameMaxLength
  lua : 4 ≤ fname.length ∧ fname.drop (fname.length - 4) = ascii ".lua"
  loaded : F.loadfsfile fname = .ok f
  opened : F.fsOpen (output fname) = some file

/-- The writer over the blocks of the stripped chunk, up to the first block that is refused. -/
def written (F : Firmware σ) (f : Proto) (file : σ) : Sink σ :=
  feed (writer F) ⟨0, 0, file⟩ (blocks 4 0 (dumpChunk .native true f))

theorem writer_taken {F : Firmware σ} {p : List UInt8} {u : σ} (h : (writer F p u).1 = 0) :
    p.length = 0 ∨ (F.fsWrite p u).1 = p.length := by
  by_cases hp : p.length ≠ 0
  · rw [writer, if_pos hp] at h
    by_contra hne
    have hrefused : (1 : Int) = 0 := (if_neg (not_or.mp hne).2).symm.trans h
    cases hrefused
  · exact .inl (not_not.mp hp)

theorem feed_writer_status (F : Firmware σ) {D : Sink σ} (hD : D.status = 0 ∨ D.status = 1) (bs : List (List UInt8)) :
    (feed (writer F) D bs).status = 0 ∨ (feed (writer F) D bs).status = 1 := by
  induction bs generalizing D with
  | nil => exact hD
  | cons b bs ih =>
    apply ih
    rcases hD with hzero | hone
    · rw [put, if_pos hzero]
      show (writer F b D.data).1 = 0 ∨ (writer F b D.data).1 = 1
      rw [writer]
      split
      · by_cases hn : (F.fsWrite b D.data).1 = b.length
        · exact .inl (if_pos hn)
        · exact .inr (if_neg hn)
      · exact .inl rfl
    · rw [put, if_neg (by rw [hone]; decide)]
      exact .inr hone

/-- The dump into the file ends unless the first block that was refused ends within a word. -/
theorem luaUDump_file (F : Firmware σ) {f : Proto} (hf : f.All Proto.Fits) (file : σ) :
    luaUDump (writer F) file true f = if (written F f file).wrote % 4 = 0 then some (written F f file) else none := by
  have hops : NoFail (dumpChunk .native true f) := noFail_dumpChunk native_wide hf
  obtain ⟨ops, hlast⟩ : ∃ ops, dumpChunk .native true f = ops ++ .align :: (dumpInt .native 0 ++ dumpInt .native 0) :=
    dumpChunk_stripped f
  have htail : ∀ op ∈ dumpInt .native 0 ++ dumpInt .native 0, ∃ b : List UInt8, op = .block b ∧ b.length % 4 = 0 := by
    intro op hop
    rw [dumpInt_eq native_wide (by decide) (by decide)] at hop
    exact ⟨_, by simpa using hop, by simp [maybeByteSwap, DumpTargetInfo.native]⟩
  have hnone : exec 4 (writer F) (dumpChunk .native true f) ⟨0, 0, file⟩ = none ↔ (written F f file).wrote % 4 ≠ 0 := by
    rw [written, hlast]
    rw [hlast] at hops
    exact exec_eq_none_iff (by decide) hops htail _
  have hsome : exec 4 (writer F) (dumpChunk .native true f) ⟨0, 0, file⟩ = some (written F f file) ∨ _ :=
    exec_spec (by decide) hops _
  show exec 4 (writer F) (dumpChunk .native true f) ⟨0, 0, file⟩ = _
  by_cases haligned : (written F f file).wrote % 4 = 0
  · rw [if_pos haligned]
    rcases hsome with hsome | ⟨-, -, hwrote⟩
    · exact hsome
    · exact absurd haligned hwrote
  · rw [if_neg haligned]
    exact hnone.mpr haligned

theorem nodeCompile_eq {F : Firmware σ} {fname : List UInt8} {f : Proto} {file : σ} (h : Compiles F fname f file)
    (hf : f.All Proto.Fits) :
    nodeCompile F fname = if (written F f file).wrote % 4 = 0 then some (.returned (written F f file).data) else none := by
  have hstatus : (written F f file).status = 0 ∨ (written F f file).status = 1 := feed_writer_status F (.inl rfl) _
  have hnoError : (written F f file).status ≠ luaErrCcIntoverflow ∧ (written F f file).status ≠ luaErrCcNotinteger := by
    rcases hstatus with hzero | hone
    · rw [hzero]
      decide
    · rw [hone]
      decide
  rw [nodeCompile, if_neg (Nat.not_lt.mpr h.length_le), if_neg (by simp [h.lua]), h.loaded]
  simp only [h.opened, luaUDump_file F hf]
  split
  · rw [Option.map_some, if_neg hnoError.1, if_neg hnoError.2]
  · rfl

/-- What the file holds then is the chunk up to some place, all of it if no block was refused. -/
theorem written_contents {F : Firmware σ} {contents : σ → List UInt8} (hwrite : Appends (writer F) contents) {f : Proto}
    {file : σ} (hempty : contents file = []) :
    contents (written F f file).data <+: chunk .native true f ∧
      ((written F f file).status = 0 → contents (written F f file).data = chunk .native true f) := by
  obtain ⟨t, ht, hdata, htaken⟩ := feed_appends hwrite ⟨0, 0, file⟩ (blocks 4 0 (dumpChunk .native true f))
  rw [hempty, List.nil_append] at hdata
  rw [written, hdata]
  exact ⟨ht, htaken⟩

/-- A compiler that knows one function, and a file system with room for `n` bytes. -/
def smallFlash (n : Nat) (f : Proto) : Firmware (List UInt8) where
  fsNameMaxLength := 30
  loadfsfile _ := .ok f
  fsOpen _ := some []
  fsWrite p file := ((min p.length (n - file.length) : Nat), file ++ p.take (n - file.length))

theorem smallFlash_appends (n : Nat) (f : Proto) : Appends (writer (smallFlash n f)) id := by
  intro b file
  refine ⟨b.take (n - file.length), List.take_prefix _ _, ?_, ?_⟩
  · by_cases hb : b.length ≠ 0
    · simp only [writer, if_pos hb]
      rfl
    · rw [List.length_eq_zero_iff.mp (not_not.mp hb)]
      simp [writer]
  · intro htaken
    apply List.take_of_length_le
    rcases writer_taken htaken with hnone | hall
    · omega
    · have hmin : ((min b.length (n - file.length) : Nat) : Int) = b.length := hall
      omega

-- The four bytes behind the source and the two lines take the last room: the file ends within a word.
example : (written (smallFlash 24 closureChunk) closureChunk []).wrote = 25 := by decide

end Compile

/-! ### Reading the file -/

/-- The reader of a file through a buffer of `B` bytes. At the end of the file it answers null to everything. -/
def getFSF (B : Nat) : Reader (List UInt8) where
  next data := if data = [] then (none, []) else (some (data.take B), data.drop B)
  answersNull data := data.isEmpty

/-- `luaL_loadfsfile`: `none` is a text, which is left to the parser. -/
def luaLLoadfsfile (B : Nat) (H : Host) (nCcalls : Nat) (filename : String) (file : List UInt8) :
    Except LoadError (Option Proto) :=
  let s := if file.head? = some 0x23 then (file.dropWhile (· ≠ 10)).tail else file
  if s.head? = some 0x1B then
    match Zio.lookahead (getFSF B) ⟨[], file.dropWhile (· ≠ 0x1B)⟩ with
    | (some c, z) =>
      if c = 0x1B then (luaUUndump (getFSF B) H ("@" ++ filename) nCcalls ⟨z, 0⟩).map fun r => some r.1 else .ok none
    | (none, _) => .ok none
  else .ok none

section Load

variable {σ : Type} {R : Reader σ} {H : Host}

theorem chunkName_at (filename : String) : chunkName ("@" ++ filename) = filename := by
  simp [chunkName]

theorem Zio.read_here {n : Nat} {z : Zio σ} (hn : n ≤ z.p.length) :
    z.read R n = (z.p.take n, 0, { z with p := z.p.drop n }) := by
  cases n with
  | zero => rfl
  | succ n =>
    obtain ⟨p, data⟩ := z
    cases p with
    | nil => exact absurd hn (Nat.not_succ_le_zero n)
    | cons c cs =>
      have hmin : min (n + 1) (c :: cs).length = n + 1 := Nat.min_eq_left hn
      have hrest : ∀ z : Zio σ, z.readLoop R n 0 = ([], 0, z) := fun z => by cases n <;> rfl
      simp only [Zio.read, Zio.readLoop, if_neg (Nat.succ_ne_zero n), Zio.lookahead, hmin, Nat.sub_self, hrest,
        List.append_nil]

/-- The header of the machine itself. -/
theorem loadHeader_native {name : String} {st : LoadState σ} {z : Zio σ} (hread : st.z.read R 12 = (luaUHeader, 0, z)) :
    loadHeader R name st = .ok (formatOf .native name, ⟨z, st.total + 12⟩) := by
  have hblock : loadBlock R ⟨name, false, 0, false⟩ 12 st = .ok (luaUHeader, ⟨z, st.total + 12⟩) := by
    rw [loadBlock_apply, hread]
    rfl
  show (loadBlock R ⟨name, false, 0, false⟩ 12 st >>= fun r => _) = _
  rw [hblock]
  rfl

/-- The loader asks for the address of the stream behind the header. -/
theorem luaUUndump_nullStore {name : String} {nCcalls : Nat} (hroom : nCcalls < luaiMaxccalls) {z : Zio σ} {total : Nat}
    (hlength : 12 ≤ z.p.length) (hheader : z.p.take 12 = luaUHeader) (hdata : R.answersNull z.data = false) :
    luaUUndump R H name nCcalls ⟨z, total⟩ = .error .nullStore := by
  have hread : z.read R 12 = (luaUHeader, 0, { z with p := z.p.drop 12 }) := hheader ▸ Zio.read_here hlength
  obtain ⟨room, hroom'⟩ : ∃ room, luaiMaxccalls - nCcalls = room + 1 := ⟨luaiMaxccalls - nCcalls - 1, by omega⟩
  rw [luaUUndump_apply, loadHeader_native hread, hroom']
  show (luaZDirectMode R ⟨{ z with p := z.p.drop 12 }, 0⟩ >>= fun r => _) = _
  have hasked : luaZDirectMode R ⟨{ z with p := z.p.drop 12 }, 0⟩ = .error .nullStore := by
    show (if R.answersNull z.data then _ else _ : Load σ Unit) _ = _
    rw [hdata]
    rfl
  rw [hasked]
  rfl

end Load

section File

variable {H : Host} {strip : Bool} {nCcalls : Nat} {f : Proto}

/-- A file that begins with an escape goes to the loader, which finds the first buffer full. -/
theorem luaLLoadfsfile_binary {B : Nat} (hB : 0 < B) (H : Host) (nCcalls : Nat) (filename : String) (rest : List UInt8) :
    luaLLoadfsfile B H nCcalls filename (0x1B :: rest) = (luaUUndump (getFSF B) H ("@" ++ filename) nCcalls
      ⟨⟨(0x1B :: rest).take B, (0x1B :: rest).drop B⟩, 0⟩).map fun r => some r.1 := by
  have hlook : Zio.lookahead (getFSF B) ⟨[], 0x1B :: rest⟩ =
      (some 0x1B, ⟨(0x1B :: rest).take B, (0x1B :: rest).drop B⟩) := by
    obtain ⟨n, rfl⟩ : ∃ n, B = n + 1 := ⟨B - 1, by omega⟩
    rfl
  simp [luaLLoadfsfile, hlook]

theorem take_header {file : List UInt8} (hfile : file <+: chunk .native strip f) (hlength : 12 ≤ file.length) :
    file.take 12 = luaUHeader := by
  obtain ⟨t, ht⟩ := hfile
  have hfirst := congrArg (List.take 12) ht
  rw [chunk_native, List.take_append_of_le_length hlength] at hfirst
  rw [hfirst]
  rfl

/-- A file that holds the start of a chunk. If it is longer than the buffer, the loader stores through a null pointer; else a
whole chunk gives the function, and a chunk that was cut off is refused. -/
theorem loadfsfile_chunk (hf : f.Loadable H strip nCcalls) {B : Nat} (hB : 12 ≤ B) (filename : String) {file : List UInt8}
    (hfile : file <+: chunk .native strip f) (hne : file ≠ []) :
    luaLLoadfsfile B H nCcalls filename file =
      if B < file.length then .error .nullStore
      else if file = chunk .native strip f then .ok (some (f.saved strip))
      else .error (message filename "unexpected end") := by
  obtain ⟨rest, rfl⟩ : ∃ rest, file = 0x1B :: rest := by
    cases file with
    | nil => exact absurd rfl hne
    | cons c rest =>
      rw [chunk_native] at hfile
      exact ⟨rest, by rw [(List.cons_prefix_cons.mp hfile).1]⟩
  rw [luaLLoadfsfile_binary (by omega) H nCcalls filename rest]
  by_cases hlong : B < (0x1B :: rest).length
  · have hdata : (getFSF B).answersNull ((0x1B :: rest).drop B) = false := by
      simp [getFSF, List.isEmpty_eq_false_iff, List.drop_eq_nil_iff] at hlong ⊢
      omega
    have hlength : 12 ≤ ((0x1B :: rest).take B).length := by
      rw [List.length_take]
      omega
    have hhead := take_header ((List.take_prefix B _).trans hfile) hlength
    have hroom : nCcalls < luaiMaxccalls := by
      have hdepth := hf.depth
      rw [f.depth_eq] at hdepth
      omega
    rw [if_pos hlong, luaUUndump_nullStore hroom hlength hhead hdata]
    rfl
  · have htake : (0x1B :: rest).take B = 0x1B :: rest := List.take_of_length_le (Nat.not_lt.mp hlong)
    have hdrop : (0x1B :: rest).drop B = [] := List.drop_eq_nil_iff.mpr (Nat.not_lt.mp hlong)
    have hz : Zio.Holds (getFSF B) ⟨(0x1B :: rest).take B, (0x1B :: rest).drop B⟩ (0x1B :: rest) := by
      rw [htake, hdrop]
      exact ⟨[], (List.append_nil _).symm, .done rfl (.inl rfl)⟩
    rw [if_neg hlong]
    by_cases hwhole : 0x1B :: rest = chunk .native strip f
    · have hall : Zio.Holds (getFSF B) ⟨(0x1B :: rest).take B, (0x1B :: rest).drop B⟩ (chunk .native strip f ++ []) := by
        rw [List.append_nil, ← hwhole]
        exact hz
      obtain ⟨st, hrun, -⟩ := luaUUndump_chunk native_wide hf ("@" ++ filename) hall 0
      rw [if_pos hwhole, hrun]
      rfl
    · rw [if_neg hwhole, luaUUndump_cut native_wide hf _ hz hfile hwhole, chunkName_at]
      rfl

theorem loadfsfile_chunk_closure :
    luaLLoadfsfile 4096 endsInReturn 0 "a.lc" (chunk .native true closureChunk) =
      if 4096 < (chunk .native true closureChunk).length then .error .nullStore
      else if chunk .native true closureChunk = chunk .native true closureChunk then .ok (some (closureChunk.saved true))
      else .error (message "a.lc" "unexpected end") :=
  loadfsfile_chunk (closureChunk_loadable true) (by decide) "a.lc" (List.prefix_refl _)
    (by rw [chunk_native]; exact List.cons_ne_nil _ _)

end File

end EspClock.Bytecode
