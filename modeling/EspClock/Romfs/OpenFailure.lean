import EspClock.Romfs.Room

/-!
# Opens that fail

An open that returns -1 leaves everything as it was, with one exception. To replace a file, `romfs_open` marks
the old one as deleted first, and only then looks whether there is room for a header and a free descriptor. If
there is not, the open fails and the old file is gone.
-/

namespace EspClock.Romfs

open Mem Nor Chain Wofs

variable (dev : Device)

/-- The calls, with any name and any flags. `firstfree` is what the variable of that name holds where no scan
has set it. -/
inductive Call where
  | «open» (path : List UInt8) (flags : OpenFlags) (stack : UInt8) (firstfree : Nat)
  | write (fd : Int) (data : List UInt8)
  | read (fd : Int) (len : Nat)
  | lseek (fd : Int) (off : Int) (whence : Whence)
  | close (fd : Int)
  | format

namespace Wofs

/-- `romfsOpen`, for any value of a variable that is not set. -/
def romfsOpenWith (s : Wofs) (path : List UInt8) (flags : OpenFlags) (stack : UInt8) (firstfree : Nat) :
    Wofs × List Action :=
  if s.numFd = 8 then s.respond (-1)
  else
    match romfsOpenFile dev s.flash path stack with
    | .lost => ({ s with stuck := true }, [])
    | .found h => s.openFound dev path flags stack (some h) firstfree
    | .ended i => s.openFound dev path flags stack none (dev.last i)

theorem romfsOpenWith_zero (s : Wofs) (path : List UInt8) (flags : OpenFlags) (stack : UInt8) :
    s.romfsOpenWith dev path flags stack 0 = s.romfsOpen dev path flags stack := rfl

def call (s : Wofs) : Call → Wofs × List Action
  | .open path flags stack firstfree => s.romfsOpenWith dev path flags stack firstfree
  | .write fd data => s.romfsWrite dev fd data
  | .read fd len => s.romfsRead dev fd len
  | .lseek fd off whence => s.romfsLseek fd off whence
  | .close fd => s.romfsClose dev fd
  | .format => s.wofsFormat dev

end Wofs

/-- The file system, for any order of calls. -/
def calls : Machine Wofs Call Action where
  step s c := if s.stuck then (s, []) else s.call dev c

/-! ### What a failed open should keep -/

/-- Every name leads to the file it led to before, with the same content, and the descriptors and the flag are
the same. -/
structure Unchanged (s s' : Wofs) : Prop where
  files : ∀ path stack, romfsOpenFile dev s'.flash path stack = romfsOpenFile dev s.flash path stack
  contents : ∀ path stack h, romfsOpenFile dev s.flash path stack = .found h →
    slice s'.flash h.baseaddr h.size = slice s.flash h.baseaddr h.size
  fdTable : s'.fdTable = s.fdTable
  numFd : s'.numFd = s.numFd
  writing : s'.writing = s.writing

/-- The call is no open that returns -1, or it changes nothing. -/
def FailureKeeps (s : Wofs) : Call → Prop
  | .open path flags stack firstfree =>
    .reply (.value (-1)) ∈ (calls dev).actions s (.open path flags stack firstfree) →
      Unchanged dev s ((calls dev).next s (.open path flags stack firstfree))
  | _ => True

/-! ### The opens that lose a file -/

/-- There is no room for the header of a file, or no descriptor. -/
def Full (s : Wofs) (path : List UInt8) (firstfree : Nat) : Prop :=
  wrap32 (sub32 dev.maxSize firstfree + 1) < path.length + 1 + 11 + 4 ∨ s.findEmptyFd = none

/-- The same at the end of the chain. -/
def FullAtEnd (s : Wofs) (path : List UInt8) (stack : UInt8) (firstfree : Nat) : Prop :=
  match romfsOpenFile dev s.flash [1] stack with
  | .lost => False
  | .found _ => Full dev s path firstfree
  | .ended i => Full dev s path (dev.last i)

/-- The flags ask for a file to be truncated and written, and no file is open for writing. -/
def Truncating (s : Wofs) (flags : OpenFlags) : Prop :=
  (flags.trunc && (flags.wronly || flags.rdwr)) = true ∧ (flags.creat && flags.excl) = false ∧ s.writing = false

/-- The file that an open goes on to replace. -/
def Truncates (s : Wofs) (path : List UInt8) (flags : OpenFlags) (stack : UInt8) (h : Header) : Prop :=
  s.stuck = false ∧ s.numFd ≠ 8 ∧ romfsOpenFile dev s.flash path stack = .found h ∧ Truncating s flags

/-- The call is no open that replaces a file for which there is then no room or no descriptor. -/
def Replaceable (s : Wofs) : Call → Prop
  | .open path flags stack firstfree =>
    ∀ h, Truncates dev s path flags stack h → ¬ FullAtEnd dev (s.invalidate dev (some h)).1 path stack firstfree
  | _ => True

/-- The deletion field of the file that an open replaces is erased. -/
def FieldErased (s : Wofs) : Call → Prop
  | .open path flags stack _ =>
    ∀ h, Truncates dev s path flags stack h → h.baseaddr - 8 < dev.flashSize ∧ s.flash (h.baseaddr - 8) = 0xFF
  | _ => True

variable {dev} {s : Wofs} {path : List UInt8} {flags : OpenFlags} {lflags : FileFlags} {stack : UInt8}
  {found : Option Header} {firstfree : Nat}

theorem Unchanged.refl (s : Wofs) : Unchanged dev s s := ⟨fun _ _ => rfl, fun _ _ _ _ => rfl, rfl, rfl, rfl⟩

/-! ### Creating a file -/

theorem install_reply (i : Fin 8) (fd : Fd) : .reply (.value (-1)) ∉ (s.install i fd).2 := by
  simp only [install, List.mem_singleton, Action.reply.injEq, Reply.value.injEq]
  omega

/-- A file is not created exactly where there is no room or no descriptor, and then nothing is done. -/
theorem createAt_fails_iff :
    .reply (.value (-1)) ∈ (s.createAt dev path lflags firstfree).2 ↔ Full dev s path firstfree := by
  unfold createAt Full
  by_cases hroom : wrap32 (sub32 dev.maxSize firstfree + 1) < path.length + 1 + 11 + 4
  · rw [if_pos hroom]
    exact iff_of_true List.mem_cons_self (.inl hroom)
  · rw [if_neg hroom]
    cases hfd : s.findEmptyFd with
    | none => exact iff_of_true List.mem_cons_self (.inr rfl)
    | some i =>
      refine iff_of_false ?_ ?_
      · dsimp only
        rw [List.mem_append]
        exact fun h => h.elim (program_no_reply _ _ _) (install_reply _ _)
      · rintro (hless | hnone)
        · exact hroom hless
        · cases hnone

theorem createAt_full (h : Full dev s path firstfree) : (s.createAt dev path lflags firstfree).1 = s := by
  unfold createAt
  by_cases hroom : wrap32 (sub32 dev.maxSize firstfree + 1) < path.length + 1 + 11 + 4
  · rw [if_pos hroom]
    rfl
  · rw [if_neg hroom, h.resolve_left hroom]
    rfl

theorem create_fails_iff :
    .reply (.value (-1)) ∈ (s.create dev path lflags stack found firstfree).2 ↔
      FullAtEnd dev (s.invalidate dev found).1 path stack firstfree := by
  have hmarked := @invalidate_no_reply dev s found (.value (-1))
  unfold create FullAtEnd
  dsimp only
  cases romfsOpenFile dev (s.invalidate dev found).1.flash [1] stack with
  | lost => exact iff_of_false hmarked id
  | found _ =>
    dsimp only
    rw [List.mem_append, createAt_fails_iff]
    exact ⟨fun h => h.resolve_left hmarked, .inr⟩
  | ended i =>
    dsimp only
    rw [List.mem_append, createAt_fails_iff]
    exact ⟨fun h => h.resolve_left hmarked, .inr⟩

/-- What is left of a file that could not be replaced. -/
theorem create_full (h : FullAtEnd dev (s.invalidate dev found).1 path stack firstfree) :
    (s.create dev path lflags stack found firstfree).1 = (s.invalidate dev found).1 := by
  unfold FullAtEnd at h
  unfold create
  dsimp only
  cases hscan : romfsOpenFile dev (s.invalidate dev found).1.flash [1] stack with
  | lost =>
    rw [hscan] at h
    exact h.elim
  | found _ =>
    rw [hscan] at h
    exact createAt_full h
  | ended i =>
    rw [hscan] at h
    exact createAt_full h

/-! ### Opening -/

theorem openExisting_fails (found : Option Header)
    (h : .reply (.value (-1)) ∈ (s.openExisting lflags found).2) : (s.openExisting lflags found).1 = s := by
  cases found with
  | none => rfl
  | some file =>
    unfold openExisting at h ⊢
    cases hfd : s.findEmptyFd with
    | none => rfl
    | some i =>
      rw [hfd] at h
      exact absurd h (install_reply _ _)

/-- A failed open of a name without a file. -/
theorem openFound_none_fails (h : .reply (.value (-1)) ∈ (s.openFound dev path flags stack none firstfree).2) :
    (s.openFound dev path flags stack none firstfree).1 = s := by
  unfold openFound at h ⊢
  dsimp only at h ⊢
  split_ifs at h ⊢
  · rfl
  · rfl
  · rfl
  · exact create_full (create_fails_iff.mp h)
  · exact openExisting_fails none h

theorem openFound_some_truncating (h : Truncating s flags) (file : Header) :
    s.openFound dev path flags stack (some file) firstfree =
      s.create dev path (.decode flags) stack (some file) firstfree := by
  obtain ⟨htrunc, hexcl, hwriting⟩ := h
  unfold openFound
  simp [htrunc, hexcl, hwriting]

/-- A failed open of a name with a file. -/
theorem openFound_some_fails {file : Header} (hflags : ¬ Truncating s flags)
    (h : .reply (.value (-1)) ∈ (s.openFound dev path flags stack (some file) firstfree).2) :
    (s.openFound dev path flags stack (some file) firstfree).1 = s := by
  unfold openFound at h ⊢
  dsimp only at h ⊢
  split_ifs at h ⊢ with hexcl hcreate hwriting hmust
  · rfl
  · rfl
  · rfl
  · refine absurd ⟨?_, ?_, ?_⟩ hflags
    · simpa using hmust
    · simpa using hexcl
    · have htrunc : (flags.wronly || flags.rdwr) = true := by
        have hboth : flags.trunc = true ∧ (flags.wronly || flags.rdwr) = true := by simpa using hmust
        exact hboth.2
      have hwrites : (FileFlags.decode flags).writes = true := by
        simp [FileFlags.writes, FileFlags.decode, htrunc]
      simpa [hwrites] using hwriting
  · exact openExisting_fails (some file) h

/-- A failed open leaves the state as it was, or it has marked a file that it could not replace. -/
theorem romfsOpenWith_fails (hstuck : s.stuck = false)
    (h : .reply (.value (-1)) ∈ (s.romfsOpenWith dev path flags stack firstfree).2) :
    (s.romfsOpenWith dev path flags stack firstfree).1 = s ∨
      ∃ file, Truncates dev s path flags stack file ∧
        FullAtEnd dev (s.invalidate dev (some file)).1 path stack firstfree := by
  unfold romfsOpenWith at h ⊢
  by_cases hfull : s.numFd = 8
  · rw [if_pos hfull]
    exact .inl rfl
  · rw [if_neg hfull] at h ⊢
    cases hscan : romfsOpenFile dev s.flash path stack with
    | lost =>
      rw [hscan] at h
      exact absurd h List.not_mem_nil
    | ended i =>
      rw [hscan] at h
      exact .inl (openFound_none_fails h)
    | found file =>
      rw [hscan] at h
      dsimp only at h ⊢
      by_cases hflags : Truncating s flags
      · rw [openFound_some_truncating hflags] at h
        exact .inr ⟨file, ⟨hstuck, hfull, hscan, hflags⟩, create_fails_iff.mp h⟩
      · exact .inl (openFound_some_fails hflags h)

/-- An open that cannot replace a file fails and leaves it marked. -/
theorem romfsOpenWith_full {file : Header} (h : Truncates dev s path flags stack file)
    (hfull : FullAtEnd dev (s.invalidate dev (some file)).1 path stack firstfree) :
    .reply (.value (-1)) ∈ (s.romfsOpenWith dev path flags stack firstfree).2 ∧
      (s.romfsOpenWith dev path flags stack firstfree).1 = (s.invalidate dev (some file)).1 := by
  obtain ⟨-, hnum, hscan, hflags⟩ := h
  have hopen : s.romfsOpenWith dev path flags stack firstfree =
      s.create dev path (.decode flags) stack (some file) firstfree := by
    unfold romfsOpenWith
    rw [if_neg hnum, hscan]
    exact openFound_some_truncating hflags file
  rw [hopen]
  exact ⟨create_fails_iff.mpr hfull, create_full hfull⟩

/-! ### Files that are lost -/

theorem search_found_header {f : Flash} {p : Header → Bool} {fuel i : Nat} {file : Header}
    (h : search (next dev f) p fuel i = .found file) :
    file = header f file.nameaddr ∧ file.nameaddr < dev.flashSize := by
  induction fuel generalizing i with
  | zero => cases h
  | succ fuel ih =>
    rw [search] at h
    cases hnext : next dev f i with
    | none =>
      rw [hnext] at h
      cases h
    | some step =>
      obtain ⟨file', j⟩ := step
      obtain ⟨⟨hlt, -⟩, rfl, -⟩ := next_eq_some_iff.mp hnext
      rw [hnext] at h
      dsimp only at h
      split_ifs at h
      · cases h
        exact ⟨rfl, hlt⟩
      · exact ih h

/-- A file whose erased field is marked is not found any more. -/
theorem invalidate_loses {f : Flash} {file : Header} (hscan : romfsOpenFile dev f path stack = .found file)
    (hfield : f (file.baseaddr - 8) = 0xFF) :
    romfsOpenFile dev (write f (file.baseaddr - 8) deletion) path stack ≠ .found file := by
  obtain ⟨hheader, hlt⟩ := search_found_header hscan
  intro hagain
  obtain ⟨hheader', -⟩ := search_found_header hagain
  have hlive : file.deleted = false := by
    have hfile := search_found hscan
    rw [isFile, Bool.and_eq_true, Bool.not_eq_true'] at hfile
    exact hfile.2
  have hmarked := @header_deletion f file.nameaddr (hlt.trans_le dev.flashSize_le) (by rwa [← hheader])
  rw [← hheader] at hmarked
  have hdeleted := congrArg Header.deleted (hheader'.trans hmarked)
  rw [hlive] at hdeleted
  cases hdeleted

/-- An open that cannot replace a file changes what its name leads to. -/
theorem not_unchanged_of_full {file : Header} (h : Truncates dev s path flags stack file)
    (hfull : FullAtEnd dev (s.invalidate dev (some file)).1 path stack firstfree)
    (herased : file.baseaddr - 8 < dev.flashSize ∧ s.flash (file.baseaddr - 8) = 0xFF) :
    ¬ Unchanged dev s (s.romfsOpenWith dev path flags stack firstfree).1 := by
  obtain ⟨-, hstate⟩ := romfsOpenWith_full h hfull
  have hflash : (s.invalidate dev (some file)).1.flash = write s.flash (file.baseaddr - 8) deletion := by
    change (s.program dev (file.baseaddr - 4 - 4) deletion).1.flash = _
    rw [program, Nat.sub_sub, if_neg (Nat.not_le.mpr herased.1)]
  intro hsame
  have hfiles := hsame.files path stack
  rw [hstate, hflash, h.2.2.1] at hfiles
  exact invalidate_loses h.2.2.1 herased.2 hfiles

theorem calls_open (hstuck : s.stuck = false) (path : List UInt8) (flags : OpenFlags) (stack : UInt8)
    (firstfree : Nat) : (calls dev).step s (.open path flags stack firstfree) =
      s.romfsOpenWith dev path flags stack firstfree := by
  unfold calls
  dsimp only
  rw [hstuck]
  rfl

theorem failureKeeps_of_replaceable (s : Wofs) (c : Call) (h : Replaceable dev s c) : FailureKeeps dev s c := by
  cases c with
  | «open» path flags stack firstfree =>
    intro hreply
    by_cases hstuck : s.stuck = true
    · have hstep : (calls dev).step s (.open path flags stack firstfree) = (s, []) := if_pos hstuck
      rw [Machine.actions, hstep] at hreply
      exact absurd hreply List.not_mem_nil
    · have hstuck' := Bool.eq_false_of_not_eq_true hstuck
      have hstep := @calls_open dev s hstuck' path flags stack firstfree
      rw [Machine.actions, hstep] at hreply
      rw [Machine.next, hstep]
      rcases romfsOpenWith_fails hstuck' hreply with hsame | ⟨file, hfile, hfull⟩
      · rw [hsame]
        exact .refl s
      · exact absurd hfull (h file hfile)
  | _ => trivial

theorem replaceable_of_failureKeeps (s : Wofs) (c : Call) (herased : FieldErased dev s c) (h : FailureKeeps dev s c) :
    Replaceable dev s c := by
  cases c with
  | «open» path flags stack firstfree =>
    intro file hfile hfull
    have hstep := @calls_open dev s hfile.1 path flags stack firstfree
    have hsame := h (by rw [Machine.actions, hstep]; exact (romfsOpenWith_full hfile hfull).1)
    rw [Machine.next, hstep] at hsame
    exact not_unchanged_of_full hfile hfull (herased file hfile) hsame
  | _ => trivial

/-- In every run, of calls with any names and flags from any state: if every open that goes on to replace a file
has room for it and a descriptor, all opens that return -1 change nothing. Where the deletion fields of the
files that are replaced are erased, that is necessary too. -/
theorem failed_opens_keep (dev : Device) (s : Wofs) (cs : List Call) :
    ((calls dev).Along (Replaceable dev) s cs → (calls dev).Along (FailureKeeps dev) s cs) ∧
      ((calls dev).Along (FieldErased dev) s cs → (calls dev).Along (FailureKeeps dev) s cs →
        (calls dev).Along (Replaceable dev) s cs) := by
  constructor
  · exact Machine.along_of_step (I := fun _ => True) (fun _ _ _ _ => trivial)
      (fun s c _ h => failureKeeps_of_replaceable s c h) trivial
  · intro herased hkeeps
    induction cs generalizing s with
    | nil => trivial
    | cons c cs ih =>
      exact ⟨replaceable_of_failureKeeps s c herased.1 hkeeps.1, ih _ herased.2 hkeeps.2⟩

/-- A file is created and completed. -/
def creating : List Call := [.open [97] (fsMode2flag "w") 0 0, .write 0 (List.replicate 8 7), .close 0]

theorem failed_opens_keep_creating :
    (calls tiny).Along (Replaceable tiny) (.init blank) creating ∧
      (calls tiny).Along (FailureKeeps tiny) (.init blank) creating := by
  have hblank : romfsOpenFile tiny blank [97] 0 = .ended 0 := rfl
  have hsafe : (calls tiny).Along (Replaceable tiny) (.init blank) creating := by
    refine ⟨fun h htruncates => ?_, trivial, trivial, trivial⟩
    have hfound : romfsOpenFile tiny blank [97] 0 = .found h := htruncates.2.2.1
    rw [hblank] at hfound
    cases hfound
  exact ⟨hsafe, (failed_opens_keep tiny (.init blank) creating).1 hsafe⟩

/-- There is no room to replace the file, and after the attempt its name leads to no file. -/
theorem file_lost :
    ¬ ∀ (dev : Device) (flash : Flash), Erased flash 0 dev.maxSize → ∀ cs : List Call,
      (calls dev).Along (FailureKeeps dev) (.init flash) cs := by
  intro hall
  have hkeeps := hall tiny blank (fun _ _ _ => rfl) (creating ++ [.open [97] (fsMode2flag "w") 0 0])
  have hunchanged := hkeeps.2.2.2.1 (by decide)
  have hbefore : romfsOpenFile tiny ((calls tiny).final (.init blank) creating).flash [97] 0 =
      .found ⟨0, [97], false, 12, 8⟩ := rfl
  have hafter : romfsOpenFile tiny ((calls tiny).final (.init blank)
      (creating ++ [.open [97] (fsMode2flag "w") 0 0])).flash [97] 0 = .ended 20 := rfl
  have hfiles := hunchanged.files [97] 0
  cases hafter.symm.trans (hfiles.trans hbefore)

end EspClock.Romfs
