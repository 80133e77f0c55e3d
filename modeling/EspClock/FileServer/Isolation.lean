import EspClock.FileServer.Session

/-!
# One session after another

A disconnect resets every field of the server but the bytes of the buffer, and the length says that
none of them counts. So nothing of a session is left for the next one but what the file system and the
interpreter keep. Two servers with different pasts are compared: as long as their surroundings answer
alike, they do the same from then on.
-/

namespace EspClock.FileServer

open Mem Decimal Console

variable {σ : Type} {P : Platform σ}

/-- Consoles in the relation get the same answers from the file system and stay in the relation, and
so they do when the interpreter runs a command. -/
structure AnswersAlike (P : Platform σ) (R : State σ → State σ → Prop) : Prop where
  fsOpen : ∀ {c c'} name mode, R c c' → (P.fsOpen name mode c.env).1 = (P.fsOpen name mode c'.env).1 ∧
    R { c with env := (P.fsOpen name mode c.env).2 } { c' with env := (P.fsOpen name mode c'.env).2 }
  fsClose : ∀ {c c'} fd, R c c' → R { c with env := P.fsClose fd c.env } { c' with env := P.fsClose fd c'.env }
  fsFlush : ∀ {c c'} fd, R c c' → (P.fsFlush fd c.env).1 = (P.fsFlush fd c'.env).1 ∧
    R { c with env := (P.fsFlush fd c.env).2 } { c' with env := (P.fsFlush fd c'.env).2 }
  fsWrite : ∀ {c c'} fd data, R c c' → (P.fsWrite fd data c.env).1 = (P.fsWrite fd data c'.env).1 ∧
    R { c with env := (P.fsWrite fd data c.env).2 } { c' with env := (P.fsWrite fd data c'.env).2 }
  spiffsRemove : ∀ {c c'} name, R c c' →
    R { c with env := P.spiffsRemove name c.env } { c' with env := P.spiffsRemove name c'.env }
  run : ∀ {c c'} payload, R c c' → R (runCommand P.toLua c payload).2.1 (runCommand P.toLua c' payload).2.1

/-- The line of the console is free. -/
def Free (w : World σ) : Prop := w.console.load.linePosition = 0

/-- The same file is open, the line is free in both or in neither, and the consoles are in the relation. -/
structure Alike (R : State σ → State σ → Prop) (w w' : World σ) : Prop where
  fileFd : w.fileFd = w'.fileFd
  free : Free w ↔ Free w'
  console : R w.console w'.console

/-! ### Commands -/

/-- RUN leaves the line as free as it was. -/
theorem runCommand_free (L : Lua σ) (c : State σ) (payload : List UInt8) :
    (runCommand L c payload).2.1.load.linePosition = 0 ↔ c.load.linePosition = 0 := by
  by_cases hfree : c.load.linePosition = 0
  · simp [runCommand, hfree, dojob, LuaLoad.inject]
  · simp [runCommand, hfree]

theorem runCommand_success (L : Lua σ) (c : State σ) (payload : List UInt8) :
    (runCommand L c payload).1 = true ↔ c.load.linePosition = 0 := by
  by_cases hfree : c.load.linePosition = 0
  · simp [runCommand, hfree]
  · simp [runCommand, hfree]

section Commands

variable {R : State σ → State σ → Prop} {w w' : World σ}

theorem closeFile_alike (hR : AnswersAlike P R) (h : Alike R w w') : Alike R (closeFile P w) (closeFile P w') := by
  by_cases hclosed : w.fileFd = fsInvalidFile
  · have hclosed' := h.fileFd ▸ hclosed
    simpa [closeFile, hclosed, hclosed'] using h
  · simp only [closeFile, ne_eq, hclosed, not_false_eq_true, if_true, ← h.fileFd]
    exact ⟨rfl, h.free, hR.fsClose _ (hR.fsFlush _ h.console).2⟩

theorem executeOpen_alike (hR : AnswersAlike P R) (h : Alike R w w') (name : List UInt8) :
    (executeOpen P w name).1 = (executeOpen P w' name).1 ∧
      Alike R (executeOpen P w name).2 (executeOpen P w' name).2 := by
  have hclosed := closeFile_alike hR h
  obtain ⟨hfd, hfirst⟩ := hR.fsOpen name .w hclosed.console
  have hremoved := hR.spiffsRemove name (hR.fsClose (P.fsOpen name .w (closeFile P w).console.env).1 hfirst)
  obtain ⟨hresult, hsecond⟩ := hR.fsOpen name .wPlus hremoved
  unfold executeOpen
  by_cases hname : name.length ≤ fsNameMaxLength
  · simp only [if_pos hname, ← hfd, ← hresult]
    split_ifs
    · exact ⟨rfl, rfl, hclosed.free, hsecond⟩
    · exact ⟨rfl, rfl, hclosed.free, hsecond⟩
  · rw [if_neg hname, if_neg hname]
    exact ⟨rfl, hclosed⟩

theorem executeWrite_alike (hR : AnswersAlike P R) (h : Alike R w w') (data : List UInt8) :
    (executeWrite P w data).1 = (executeWrite P w' data).1 ∧
      Alike R (executeWrite P w data).2 (executeWrite P w' data).2 := by
  obtain ⟨hwritten, hconsole⟩ := hR.fsWrite w.fileFd data h.console
  unfold executeWrite
  rw [← h.fileFd]
  split_ifs
  · exact ⟨congrArg (· == data.length) hwritten, h.fileFd, h.free, hconsole⟩
  · exact ⟨rfl, h⟩

theorem flushLoop_alike (hR : AnswersAlike P R) (fd : Int) (tries : Nat) {c c' : State σ} (h : R c c') :
    (flushLoop P fd tries c.env).1 = (flushLoop P fd tries c'.env).1 ∧
      R { c with env := (flushLoop P fd tries c.env).2 } { c' with env := (flushLoop P fd tries c'.env).2 } := by
  induction tries generalizing c c' with
  | zero => exact ⟨rfl, h⟩
  | succ tries ih =>
    obtain ⟨hresult, hconsole⟩ := hR.fsFlush fd h
    simp only [flushLoop, ← hresult]
    split_ifs
    · exact ⟨rfl, hconsole⟩
    · exact ih hconsole

theorem executeClose_alike (hR : AnswersAlike P R) (h : Alike R w w') :
    (executeClose P w).1 = (executeClose P w').1 ∧ Alike R (executeClose P w).2 (executeClose P w').2 := by
  obtain ⟨hsuccess, hconsole⟩ := flushLoop_alike hR w.fileFd 10 h.console
  unfold executeClose
  rw [← h.fileFd]
  split_ifs
  · exact ⟨hsuccess, rfl, h.free, hR.fsClose w.fileFd hconsole⟩
  · exact ⟨rfl, h⟩

theorem executeRun_alike (hR : AnswersAlike P R) (h : Alike R w w') (payload : List UInt8) :
    (executeRun P w payload).1 = (executeRun P w' payload).1 ∧
      Alike R (executeRun P w payload).2 (executeRun P w' payload).2 := by
  refine ⟨?_, h.fileFd, ?_, hR.run payload h.console⟩
  · apply Bool.eq_iff_iff.mpr
    exact (runCommand_success _ _ _).trans (h.free.trans (runCommand_success _ _ _).symm)
  · exact (runCommand_free _ _ _).trans (h.free.trans (runCommand_free _ _ _).symm)

/-- A command has the same success in both worlds and leaves them alike. -/
theorem executeFrame_alike (hR : AnswersAlike P R) (h : Alike R w w') (frame : List UInt8) :
    (executeFrame P w frame).1 = (executeFrame P w' frame).1 ∧
      Alike R (executeFrame P w frame).2 (executeFrame P w' frame).2 := by
  unfold executeFrame
  cases commandOf (frame.headD 0) with
  | idle => exact ⟨rfl, h⟩
  | openFile => exact executeOpen_alike hR h _
  | write => exact executeWrite_alike hR h _
  | close => exact executeClose_alike hR h
  | run => exact executeRun_alike hR h _

theorem serve_alike (hR : AnswersAlike P R) (h : Alike R w w') (frames : List (List UInt8)) :
    (serve P w frames).2 = (serve P w' frames).2 ∧ Alike R (serve P w frames).1 (serve P w' frames).1 := by
  induction frames generalizing w w' with
  | nil => exact ⟨rfl, h⟩
  | cons frame frames ih =>
    obtain ⟨hsuccess, hnext⟩ := executeFrame_alike hR h frame
    obtain ⟨hactions, hlast⟩ := ih hnext
    simp only [serve, hsuccess, hactions]
    exact ⟨trivial, hlast⟩

end Commands

/-! ### Two servers -/

/-- The same bytes wait in both buffers and the same client is let in, in worlds that are alike. -/
structure Session.Related (R : State σ → State σ → Prop) (st st' : Session σ) : Prop where
  pending : ∃ p, Holds st.server p ∧ Holds st'.server p
  client : st.client = st'.client
  reverse : st.reverse = st'.reverse
  world : Alike R st.world st'.world

/-- A callback does the same on related servers, accesses to the buffer apart, and leaves them related. -/
theorem sessions_related {R : State σ → State σ → Prop} (hR : AnswersAlike P R) (st st' : Session σ) (e : Callback)
    (h : st.Related R st') : ((sessions P).next st e).Related R ((sessions P).next st' e) ∧
      visible ((sessions P).actions st e) = visible ((sessions P).actions st' e) := by
  obtain ⟨⟨p, hp, hp'⟩, hclient, hreverse, hworld⟩ := h
  cases e with
  | connected client =>
    simp only [Machine.next, Machine.actions, sessions, fsClientConnected, ← hclient, ← hreverse]
    split_ifs
    · exact ⟨⟨⟨p, hp, hp'⟩, rfl, rfl, hworld⟩, rfl⟩
    · exact ⟨⟨⟨p, hp, hp'⟩, rfl, rfl, hworld⟩, rfl⟩
  | disconnected client =>
    simp only [Machine.next, Machine.actions, sessions, fsClientDisconnected, ← hreverse]
    split_ifs
    · exact ⟨⟨⟨[], holds_fresh _, holds_fresh _⟩, rfl, rfl, closeFile_alike hR hworld⟩, rfl⟩
    · exact ⟨⟨⟨p, hp, hp'⟩, hclient, hreverse, hworld⟩, rfl⟩
  | dataReceived client data =>
    obtain ⟨hnext, hafter, hvisible⟩ := fsDataReceived_spec P st.world hp data
    obtain ⟨hnext', hafter', hvisible'⟩ := fsDataReceived_spec P st'.world hp' data
    obtain ⟨hactions, halike⟩ := serve_alike hR hworld (framing.absorb maxBufferSize p data).frames
    simp only [Machine.next, Machine.actions, sessions, ← hreverse]
    split_ifs
    · refine ⟨⟨⟨_, hnext, hnext'⟩, hclient, rfl, ?_⟩, ?_⟩
      · rw [hafter, hafter']
        exact halike
      · rw [hvisible, hvisible', hactions]
    · exact ⟨⟨⟨p, hp, hp'⟩, hclient, hreverse, hworld⟩, rfl⟩

/-! ### What a session leaves behind -/

/-- Only the client that was let in is answered, and without one the server is as at its start. -/
structure Session.Closes (free : Prop) (st : Session σ) : Prop where
  holds : ∃ p, Holds st.server p
  reverse : ∀ client, st.reverse client = true → st.client = some client
  server : st.client = none → st.server = .fresh st.server.dataBuffer
  fileFd : st.client = none → st.world.fileFd = fsInvalidFile
  free_iff : Free st.world ↔ free

theorem closeFile_fileFd (P : Platform σ) (w : World σ) : (closeFile P w).fileFd = fsInvalidFile := by
  unfold closeFile
  split_ifs with hopen
  · rfl
  · exact not_not.mp hopen

theorem closeFile_free (P : Platform σ) (w : World σ) : Free (closeFile P w) ↔ Free w := by
  unfold closeFile
  split_ifs <;> rfl

theorem executeFrame_free (P : Platform σ) (w : World σ) (frame : List UInt8) :
    Free (executeFrame P w frame).2 ↔ Free w := by
  unfold executeFrame
  cases commandOf (frame.headD 0) with
  | idle => rfl
  | openFile =>
    simp only [execute, executeOpen]
    split_ifs
    · exact closeFile_free P w
    · exact closeFile_free P w
    · exact closeFile_free P w
  | write =>
    simp only [execute, executeWrite]
    split_ifs <;> rfl
  | close =>
    simp only [execute, executeClose]
    split_ifs <;> rfl
  | run => exact runCommand_free _ _ _

theorem serve_free (P : Platform σ) (w : World σ) (frames : List (List UInt8)) :
    Free (serve P w frames).1 ↔ Free w := by
  induction frames generalizing w with
  | nil => rfl
  | cons frame frames ih => exact (ih _).trans (executeFrame_free P w frame)

theorem sessions_closes {free : Prop} (st : Session σ) (e : Callback) (h : st.Closes free) :
    ((sessions P).next st e).Closes free := by
  obtain ⟨⟨p, hp⟩, hreverse, hserver, hfd, hfree⟩ := h
  cases e with
  | connected client =>
    simp only [Machine.next, sessions, fsClientConnected]
    split_ifs with hbusy
    · refine ⟨⟨p, hp⟩, fun c hc => ?_, hserver, hfd, hfree⟩
      by_cases hcc : c = client
      · simp [hcc] at hc
      · exact hreverse c (by simpa [hcc] using hc)
    · refine ⟨⟨p, hp⟩, fun c hc => ?_, fun h => absurd h (Option.some_ne_none _),
        fun h => absurd h (Option.some_ne_none _), hfree⟩
      by_cases hcc : c = client
      · rw [hcc]
      · have hnone := hreverse c (by simpa [hcc] using hc)
        rw [not_not.mp hbusy] at hnone
        cases hnone
  | disconnected client =>
    simp only [Machine.next, sessions, fsClientDisconnected]
    split_ifs with hclient
    · refine ⟨⟨[], holds_fresh _⟩, fun c hc => ?_, fun _ => rfl, fun _ => closeFile_fileFd P _,
        (closeFile_free P _).trans hfree⟩
      by_cases hcc : c = client
      · simp [hcc] at hc
      · have hsame := (hreverse c (by simpa [hcc] using hc)).symm.trans (hreverse client hclient)
        exact absurd (Option.some.inj hsame) hcc
    · exact ⟨⟨p, hp⟩, hreverse, hserver, hfd, hfree⟩
  | dataReceived client data =>
    simp only [Machine.next, sessions]
    split_ifs with hclient
    · have hconnected : st.client ≠ none := by
        rw [hreverse client hclient]
        exact Option.some_ne_none _
      obtain ⟨hnext, hafter, -⟩ := fsDataReceived_spec P st.world hp data
      refine ⟨⟨_, hnext⟩, hreverse, fun h => absurd h hconnected, fun h => absurd h hconnected, ?_⟩
      rw [hafter, serve_free]
      exact hfree
    · exact ⟨⟨p, hp⟩, hreverse, hserver, hfd, hfree⟩

theorem closes_initial (dataBuffer : Block UInt8 maxBufferSize) (console : State σ) :
    (Session.initial dataBuffer ⟨fsInvalidFile, console⟩).Closes (console.load.linePosition = 0) :=
  ⟨⟨[], holds_fresh _⟩, fun _ h => absurd h Bool.false_ne_true, fun _ => rfl, fun _ => rfl, Iff.rfl⟩

/-- A client that connects first, sends data and disconnects leaves no client behind. -/
theorem session_ended (P : Platform σ) (dataBuffer : Block UInt8 maxBufferSize) (w : World σ) (client : Nat)
    (datas : List (List UInt8)) :
    ((sessions P).final (.initial dataBuffer w)
      (.connected client :: (datas.map (.dataReceived client) ++ [.disconnected client]))).client = none := by
  have hkeep : ∀ (st : Session σ), st.reverse client = true →
      ((sessions P).final st (datas.map (.dataReceived client))).reverse client = true := by
    intro st hst
    induction datas generalizing st with
    | nil => exact hst
    | cons data datas ih =>
      refine ih _ ?_
      simp only [Machine.next, sessions, hst, if_true]
  have hlast := hkeep ((sessions P).next (.initial dataBuffer w) (.connected client))
    (by simp [Machine.next, sessions, fsClientConnected, Session.initial])
  rw [Machine.final_cons, Machine.final_append, Machine.final_cons, Machine.final_nil]
  simp only [Machine.next, sessions, fsClientDisconnected] at hlast ⊢
  rw [if_pos hlast]

/-- After any two pasts that left no client behind, the same callbacks execute the same commands and
get the same answers, as long as the file system and the interpreter answer alike. -/
theorem sessions_isolated (P : Platform σ) (R : State σ → State σ → Prop) (hR : AnswersAlike P R)
    (console : State σ) (buffer buffer' : Block UInt8 maxBufferSize) (past past' : List Callback)
    (hended : ((sessions P).final (.initial buffer ⟨fsInvalidFile, console⟩) past).client = none)
    (hended' : ((sessions P).final (.initial buffer' ⟨fsInvalidFile, console⟩) past').client = none)
    (hconsole : R ((sessions P).final (.initial buffer ⟨fsInvalidFile, console⟩) past).world.console
      ((sessions P).final (.initial buffer' ⟨fsInvalidFile, console⟩) past').world.console)
    (callbacks : List Callback) :
    visible ((sessions P).trace ((sessions P).final (.initial buffer ⟨fsInvalidFile, console⟩) past) callbacks) =
      visible ((sessions P).trace ((sessions P).final (.initial buffer' ⟨fsInvalidFile, console⟩) past')
        callbacks) := by
  have hcloses := (Machine.always_of_forall_step (sessions_closes (P := P))
    (closes_initial buffer console) past).last
  have hcloses' := (Machine.always_of_forall_step (sessions_closes (P := P))
    (closes_initial buffer' console) past').last
  refine Machine.view_trace_eq_of_related visible_append (sessions_related hR) ?_ callbacks
  refine ⟨⟨[], ?_, ?_⟩, hended.trans hended'.symm, ?_, ?_, ?_, hconsole⟩
  · rw [hcloses.server hended]
    exact holds_fresh _
  · rw [hcloses'.server hended']
    exact holds_fresh _
  · funext client
    have hnone := hcloses.reverse client
    have hnone' := hcloses'.reverse client
    rw [hended] at hnone
    rw [hended'] at hnone'
    rw [Bool.eq_false_iff.mpr fun h => absurd (hnone h) (Option.some_ne_none _).symm,
      Bool.eq_false_iff.mpr fun h => absurd (hnone' h) (Option.some_ne_none _).symm]
  · rw [hcloses.fileFd hended, hcloses'.fileFd hended']
  · exact hcloses.free_iff.trans hcloses'.free_iff.symm

/-- Equal consoles are answered alike. -/
theorem answersAlike_eq (P : Platform σ) : AnswersAlike P (· = ·) where
  fsOpen _ _ h := h ▸ ⟨rfl, rfl⟩
  fsClose _ h := h ▸ rfl
  fsFlush _ h := h ▸ ⟨rfl, rfl⟩
  fsWrite _ _ h := h ▸ ⟨rfl, rfl⟩
  spiffsRemove _ h := h ▸ rfl
  run _ h := h ▸ rfl

/-- A first session that leaves half a frame behind, and another one with other bytes; the second
session closes the file it has not opened. -/
theorem sessions_isolated_half_frame :
    visible ((sessions .accepting).trace ((sessions .accepting).final
        (.initial (Block.fill _ 0) .initial) (.connected 0 :: ([ascii "W|9|abc"].map (.dataReceived 0) ++ [.disconnected 0])))
        [.connected 2, .dataReceived 2 (ascii "C|0|")]) =
      visible ((sessions .accepting).trace ((sessions .accepting).final
        (.initial (Block.fill _ 7) .initial) (.connected 1 :: ([ascii "O|", ascii "1|x"].map (.dataReceived 1) ++ [.disconnected 1])))
        [.connected 2, .dataReceived 2 (ascii "C|0|")]) :=
  sessions_isolated .accepting (· = ·) (answersAlike_eq _) World.initial.console (Block.fill _ 0) (Block.fill _ 7) _ _
    (session_ended ..) (session_ended ..) rfl [.connected 2, .dataReceived 2 (ascii "C|0|")]

end EspClock.FileServer
