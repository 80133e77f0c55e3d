import Mathlib.Data.List.TakeWhile
import EspClock.Upload.Transfer

/-!
# The uploaded file

What a transfer leaves in the file. The file system and the interpreter are those of the server's
platform; `Storage` is what an upload relies on of them, stated for the one file it writes: opening it
empties it, writing appends, and neither closing it nor running the command that removes the compiled
script changes it.
-/

namespace EspClock.Upload

open Mem Decimal FileServer

/-- The file system on the file an upload writes. `opened fd` says that `fd` is open on the file. -/
structure Storage {σ : Type} (P : Platform σ) (baseName : List UInt8) where
  content : σ → List UInt8
  opened : Int → σ → Prop
  valid : ∀ {fd env}, opened fd env → fsOpenOk ≤ fd
  opens : ∀ env, opened (P.fsOpen (cstring baseName 0) .wPlus env).1 (P.fsOpen (cstring baseName 0) .wPlus env).2 ∧
    content (P.fsOpen (cstring baseName 0) .wPlus env).2 = []
  writes : ∀ {fd env} (data), opened fd env → (P.fsWrite fd data env).1 = data.length ∧
    opened fd (P.fsWrite fd data env).2 ∧ content (P.fsWrite fd data env).2 = content env ++ data
  flushes : ∀ {fd env}, opened fd env → (P.fsFlush fd env).1 = 0 ∧
    opened fd (P.fsFlush fd env).2 ∧ content (P.fsFlush fd env).2 = content env
  closes : ∀ {fd env}, opened fd env → content (P.fsClose fd env) = content env
  removes : ∀ {w : World σ}, opened w.fileFd w.console.env →
    opened w.fileFd (executeRun P w (cstring (removeCommand baseName) 0)).2.console.env ∧
      content (executeRun P w (cstring (removeCommand baseName) 0)).2.console.env = content w.console.env

section Execution

variable {σ : Type} {P : Platform σ} {baseName : List UInt8} (F : Storage P baseName)

/-- The file is open and holds `data`. -/
def Storage.Writing (w : World σ) (data : List UInt8) : Prop :=
  F.opened w.fileFd w.console.env ∧ F.content w.console.env = data

variable {F} {w : World σ} {data : List UInt8}

theorem Storage.Writing.fileFd_ne (h : F.Writing w data) : w.fileFd ≠ fsInvalidFile := by
  have := F.valid h.1
  rw [fsInvalidFile]
  omega

theorem executeFrame_packet (w : World σ) {letter : UInt8} {payload : List UInt8} {command : FsCommand}
    (hletter : letter ∈ ascii "OWCG") (hcommand : commandOf letter = command) (hshort : payload.length ≤ 58) :
    executeFrame P w (packet letter payload) = execute P w command (cstring payload 0) := by
  have htext := (packetFrame letter payload hletter hshort).frameText_bytes
  subst hcommand
  rw [executeFrame]
  exact congrArg (execute P w (commandOf letter)) htext

theorem closeFile_load (w : World σ) : (closeFile P w).console.load = w.console.load := by
  rw [closeFile]
  split <;> rfl

theorem executeOpen_spec (F : Storage P baseName) (w : World σ) (hname : baseName.length ≤ fsNameMaxLength) :
    (executeOpen P w (cstring baseName 0)).1 = true ∧
      F.Writing (executeOpen P w (cstring baseName 0)).2 [] ∧
      (executeOpen P w (cstring baseName 0)).2.console.load = w.console.load := by
  have hshort : (cstring baseName 0).length ≤ fsNameMaxLength :=
    le_trans (List.takeWhile_prefix _).length_le hname
  rw [executeOpen]
  dsimp only
  rw [if_pos hshort]
  generalize P.spiffsRemove _ _ = env
  obtain ⟨hopened, hcontent⟩ := F.opens env
  have hvalid := F.valid hopened
  rw [if_neg (not_lt.mpr hvalid)]
  exact ⟨rfl, ⟨hopened, hcontent⟩, closeFile_load w⟩

theorem executeWrite_spec (h : F.Writing w data) (chunk : List UInt8) :
    (executeWrite P w chunk).1 = true ∧ F.Writing (executeWrite P w chunk).2 (data ++ chunk) := by
  obtain ⟨hcount, hopened, hcontent⟩ := F.writes chunk h.1
  rw [executeWrite, if_pos h.fileFd_ne]
  refine ⟨?_, hopened, ?_⟩
  · exact beq_iff_eq.mpr hcount
  · rw [← h.2]
    exact hcontent

theorem executeClose_spec (h : F.Writing w data) :
    (executeClose P w).1 = true ∧ F.content (executeClose P w).2.console.env = data := by
  obtain ⟨hresult, hopened, hcontent⟩ := F.flushes h.1
  have hflush : flushLoop P w.fileFd 10 w.console.env = (true, (P.fsFlush w.fileFd w.console.env).2) := by
    rw [flushLoop]
    exact if_pos hresult
  rw [executeClose, if_pos h.fileFd_ne, hflush]
  refine ⟨rfl, ?_⟩
  rw [← h.2, ← hcontent]
  exact F.closes hopened

theorem executeRun_spec (h : F.Writing w data) (hline : w.console.load.linePosition = 0) :
    (executeRun P w (cstring (removeCommand baseName) 0)).1 = true ∧
      F.Writing (executeRun P w (cstring (removeCommand baseName) 0)).2 data := by
  obtain ⟨hopened, hcontent⟩ := F.removes h.1
  have hrun : (executeRun P w (cstring (removeCommand baseName) 0)).1 = true := by
    rw [executeRun, Console.runCommand, if_pos hline]
  exact ⟨hrun, hopened, hcontent.trans h.2⟩

/-! ### The queue on the server -/

theorem accepted_append (w : World σ) (xs ys : List (List UInt8)) :
    Accepted P w (xs ++ ys) ↔ Accepted P w xs ∧ Accepted P (serve P w xs).1 ys := by
  induction xs generalizing w with
  | nil => exact ⟨fun h => ⟨trivial, h⟩, fun h => h.2⟩
  | cons x xs ih =>
    rw [List.cons_append, Accepted, Accepted, ih, and_assoc]
    rfl

theorem serve_writes {chunks : List (List UInt8)} (hshort : ∀ c ∈ chunks, c.length ≤ 58)
    (hnul : 0 ∉ chunks.flatten) (h : F.Writing w data) :
    Accepted P w (chunks.map (packet 87)) ∧
      F.Writing (serve P w (chunks.map (packet 87))).1 (data ++ chunks.flatten) := by
  induction chunks generalizing w data with
  | nil => exact ⟨trivial, by rwa [List.flatten_nil, List.append_nil]⟩
  | cons c cs ih =>
    rw [List.flatten_cons, List.mem_append, not_or] at hnul
    have htext : cstring c 0 = c := by
      rw [cstring, List.drop_zero, List.takeWhile_eq_self_iff]
      intro x hx
      exact decide_eq_true fun h => hnul.1 (h ▸ hx)
    have hframe : executeFrame P w (packet 87 c) = executeWrite P w c := by
      rw [executeFrame_packet w (by decide) (show commandOf 87 = .write from rfl) (hshort c List.mem_cons_self),
        htext]
      rfl
    obtain ⟨hsuccess, hwriting⟩ := executeWrite_spec h c
    obtain ⟨haccept, hrest⟩ := ih (fun x hx => hshort x (List.mem_cons_of_mem c hx)) hnul.2 hwriting
    rw [List.map_cons, Accepted, serve, hframe, List.flatten_cons, ← List.append_assoc]
    exact ⟨⟨hsuccess, haccept⟩, hrest⟩

/-- The server executes the whole queue with success, and the file holds the text. -/
theorem serve_prepared (F : Storage P baseName) (w : World σ) {text : List UInt8}
    (hname : baseName.length ≤ fsNameMaxLength) (hnul : 0 ∉ text) (hline : w.console.load.linePosition = 0) :
    Accepted P w (preparedTexts packetSize baseName text) ∧
      F.content (serve P w (preparedTexts packetSize baseName text)).1.console.env = text := by
  have hbase : baseName.length ≤ 58 := le_trans hname (by decide)
  have hflatten : (chunks packetSize text).flatten = text := flatten_chunks (by decide) text
  have hcommand : (removeCommand baseName).length ≤ 58 := length_removeCommand hname
  have hchunk : ∀ c ∈ chunks packetSize text, c.length ≤ 58 := fun c hc =>
    le_trans (length_le_of_mem_chunks (by decide) hc) (by decide)
  have hframe₁ : executeFrame P w (packet 79 baseName) = executeOpen P w (cstring baseName 0) :=
    executeFrame_packet w (by decide) (show commandOf 79 = .openFile from rfl) hbase
  obtain ⟨hopen, hwriting₁, hload⟩ := executeOpen_spec F w hname
  obtain ⟨w₁, hw₁⟩ : ∃ w₁, w₁ = (executeOpen P w (cstring baseName 0)).2 := ⟨_, rfl⟩
  rw [← hw₁] at hwriting₁ hload
  have hframe₂ : executeFrame P w₁ (packet 71 (removeCommand baseName)) =
      executeRun P w₁ (cstring (removeCommand baseName) 0) :=
    executeFrame_packet w₁ (by decide) (show commandOf 71 = .run from rfl) hcommand
  obtain ⟨hrun, hwriting₂⟩ := executeRun_spec hwriting₁ (hload ▸ hline)
  obtain ⟨w₂, hw₂⟩ : ∃ w₂, w₂ = (executeRun P w₁ (cstring (removeCommand baseName) 0)).2 := ⟨_, rfl⟩
  rw [← hw₂] at hwriting₂
  obtain ⟨hwrites, hwriting₃⟩ := serve_writes hchunk (hflatten.symm ▸ hnul) hwriting₂
  obtain ⟨w₃, hw₃⟩ : ∃ w₃, w₃ = (serve P w₂ ((chunks packetSize text).map (packet 87))).1 := ⟨_, rfl⟩
  rw [← hw₃, hflatten, List.nil_append] at hwriting₃
  have hframe₃ : executeFrame P w₃ (packet 67 baseName) = executeClose P w₃ :=
    executeFrame_packet w₃ (by decide) (show commandOf 67 = .close from rfl) hbase
  obtain ⟨hclose, hcontent⟩ := executeClose_spec hwriting₃
  simp only [preparedTexts, Accepted, accepted_append, serve, serve_append, hframe₁, ← hw₁, hframe₂, ← hw₂,
    ← hw₃, hframe₃]
  exact ⟨⟨hopen, hrun, hwrites, hclose, trivial⟩, hcontent⟩

end Execution

/-! ### A whole upload -/

/-- For every text without a zero byte, every name that the file system takes, and every order and cut of
callbacks and rounds: one command at most waits for its reply; the frames executed are the first ones of
the queue, as many as are confirmed or one more; no exception ends the loop; and when the loop ends, the
frames executed are those of the queue and the file holds the text. -/
theorem upload_executes_queue {σ : Type} {P : Platform σ} {baseName text : List UInt8} (F : Storage P baseName)
    (w : World σ) (dataBuffer : Block UInt8 maxBufferSize) (hname : baseName.length ≤ fsNameMaxLength)
    (hnul : 0 ∉ text) (hline : w.console.load.linePosition = 0) (events : List Event) :
    countStatus .sent ((network P).final (.initial baseName text dataBuffer w) events).client.commands ≤ 1 ∧
      (∃ k, executed ((network P).trace (.initial baseName text dataBuffer w) events) =
          ((preparedTexts packetSize baseName text).take k).map asFrame ∧
        k ≤ (preparedTexts packetSize baseName text).length ∧
        (k = countStatus .confirmed
            ((network P).final (.initial baseName text dataBuffer w) events).client.commands ∨
          k = countStatus .confirmed
            ((network P).final (.initial baseName text dataBuffer w) events).client.commands + 1)) ∧
      ((network P).final (.initial baseName text dataBuffer w) events).client.raised = none ∧
      (((network P).final (.initial baseName text dataBuffer w) events).client.spin = false →
        executed ((network P).trace (.initial baseName text dataBuffer w) events) =
            (preparedTexts packetSize baseName text).map asFrame ∧
          F.content ((network P).final (.initial baseName text dataBuffer w) events).world.console.env = text) := by
  obtain ⟨haccept, hcontent⟩ := serve_prepared F w hname hnul hline
  have hrun := transfer_run (sendable_prepared hname text) haccept
    (transfer_initial baseName text dataBuffer w) events
  rw [List.nil_append] at hrun
  refine ⟨hrun.countStatus_sent_le, hrun.executed_eq, hrun.raised, ?_⟩
  intro hspin
  obtain ⟨hexecuted, hworld⟩ := hrun.complete hspin
  refine ⟨hexecuted, ?_⟩
  rw [hworld]
  exact hcontent

/-- Files in memory, and the name of the one that is open. -/
structure Files where
  files : List UInt8 → List UInt8
  handle : List UInt8

/-- A platform with files in memory, one open at a time, whose interpreter knows a single command. -/
def inMemory : Platform Files where
  docall chunk x := (false, x.1,
    if chunk = ascii "file.remove(\"a.lc\")" then ⟨Function.update x.2.files (ascii "a.lc") [], x.2.handle⟩
    else x.2)
  onData _ x := x
  fsOpen name _ s := (1, ⟨Function.update s.files name [], name⟩)
  fsClose _ s := s
  fsFlush _ s := (0, s)
  fsWrite _ data s := (data.length, ⟨Function.update s.files s.handle (s.files s.handle ++ data), s.handle⟩)
  spiffsRemove name s := ⟨Function.update s.files name [], s.handle⟩

theorem executeRun_inMemory (w : World Files) (command : List UInt8) :
    (executeRun inMemory w command).2.console.env = w.console.env ∨
      (executeRun inMemory w command).2.console.env =
        ⟨Function.update w.console.env.files (ascii "a.lc") [], w.console.env.handle⟩ := by
  rw [executeRun, Console.runCommand]
  by_cases hline : w.console.load.linePosition = 0
  · rw [if_pos hline]
    dsimp only [Console.dojob, Console.LuaLoad.inject, inMemory]
    rw [if_pos rfl]
    exact (ite_eq_or_eq _ _ _).symm
  · rw [if_neg hline]
    exact Or.inl rfl

/-- The file `a.lua` in memory. -/
def inMemoryStorage : Storage inMemory (ascii "a.lua") where
  content s := s.files (ascii "a.lua")
  opened fd s := fd = 1 ∧ s.handle = ascii "a.lua"
  valid h := h.1.ge
  opens s := by
    have hname : cstring (ascii "a.lua") 0 = ascii "a.lua" := by decide
    rw [hname]
    refine ⟨⟨rfl, rfl⟩, ?_⟩
    show Function.update s.files (ascii "a.lua") [] (ascii "a.lua") = []
    rw [Function.update_self]
  writes {fd s} data h := by
    refine ⟨rfl, h, ?_⟩
    show Function.update s.files s.handle (s.files s.handle ++ data) (ascii "a.lua") = s.files (ascii "a.lua") ++ data
    rw [h.2, Function.update_self]
  flushes h := ⟨rfl, h, rfl⟩
  closes _ := rfl
  removes {w} h := by
    obtain hrun | hrun := executeRun_inMemory w (cstring (removeCommand (ascii "a.lua")) 0)
    · rw [hrun]
      exact ⟨h, rfl⟩
    · rw [hrun]
      exact ⟨h, Function.update_of_ne (show ascii "a.lua" ≠ ascii "a.lc" by decide) [] w.console.env.files⟩

def emptyWorld : World Files :=
  ⟨fsInvalidFile, ⟨Console.LuaLoad.initial, ⟨true, 0, -1, false⟩, ⟨fun _ => [], []⟩⟩⟩

/-- Four commands and replies, each cut in two. -/
def fourExchanges : List Event :=
  (List.replicate 4 [.round 0 true, .callback 3, .callback 60, .round 5 true, .round 4096 false]).flatten

/-- The upload of `x=1` as `a.lua`, up to the end of the loop. -/
theorem upload_executes_queue_a_lua :
    ((network inMemory).final (.initial (ascii "a.lua") (ascii "x=1") (Block.fill _ 0) emptyWorld)
        fourExchanges).client.spin = false ∧
      executed ((network inMemory).trace (.initial (ascii "a.lua") (ascii "x=1") (Block.fill _ 0) emptyWorld)
        fourExchanges) = (preparedTexts packetSize (ascii "a.lua") (ascii "x=1")).map asFrame ∧
      ((network inMemory).final (.initial (ascii "a.lua") (ascii "x=1") (Block.fill _ 0) emptyWorld)
        fourExchanges).world.console.env.files (ascii "a.lua") = ascii "x=1" := by
  have hspin : ((network inMemory).final (.initial (ascii "a.lua") (ascii "x=1") (Block.fill _ 0) emptyWorld)
      fourExchanges).client.spin = false := by decide +kernel
  obtain ⟨-, -, -, hend⟩ := upload_executes_queue inMemoryStorage emptyWorld (Block.fill _ 0)
    (show (ascii "a.lua").length ≤ fsNameMaxLength by decide) (show 0 ∉ ascii "x=1" by decide) rfl fourExchanges
  obtain ⟨hexecuted, hcontent⟩ := hend hspin
  exact ⟨hspin, hexecuted, hcontent⟩

end EspClock.Upload
