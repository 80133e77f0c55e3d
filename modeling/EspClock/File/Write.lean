import Mathlib.Logic.Function.Basic
import EspClock.FileServer.Receive

/-!
# Writing a file from Lua

The functions of the module `file` that open, write and remove files, on a store of files by name with one file open at a
time. The calls of the file system succeed, unless a file is missing or is not open for writing.
-/

namespace EspClock.File

open Decimal FileServer

structure OpenFlags where
  writable : Bool
  create : Bool
  truncate : Bool
  append : Bool
  deriving DecidableEq

/-- `fs_mode2flag` -/
def fsMode2flag (mode : List UInt8) : OpenFlags :=
  if mode = ascii "w" then ⟨true, true, true, false⟩
  else if mode = ascii "a" then ⟨true, true, false, true⟩
  else if mode = ascii "r+" then ⟨true, false, false, false⟩
  else if mode = ascii "w+" then ⟨true, true, true, false⟩
  else if mode = ascii "a+" then ⟨true, true, false, true⟩
  else ⟨false, false, false, false⟩

/-- What `file_fd` stands for. -/
structure Handle where
  name : List UInt8
  offset : Nat
  flags : OpenFlags

structure Node where
  files : List UInt8 → Option (List UInt8)
  handle : Option Handle

def Node.empty : Node := ⟨fun _ => none, none⟩

namespace Node

/-! ### The file system -/

def fsOpen (n : Node) (name : List UInt8) (flags : OpenFlags) : Node :=
  match n.files name with
  | some content =>
    ⟨Function.update n.files name (some (if flags.truncate then [] else content)), some ⟨name, 0, flags⟩⟩
  | none =>
    if flags.create then ⟨Function.update n.files name (some []), some ⟨name, 0, flags⟩⟩ else { n with handle := none }

/-- How many bytes are written is returned. -/
def fsWrite (n : Node) (data : List UInt8) : Node × Nat :=
  match n.handle with
  | none => (n, 0)
  | some h =>
    match n.files h.name with
    | none => (n, 0)
    | some content =>
      if h.flags.writable then
        let offset := if h.flags.append then content.length else h.offset
        let written := content.take offset ++ data ++ content.drop (offset + data.length)
        (⟨Function.update n.files h.name (some written), some { h with offset := offset + data.length }⟩, data.length)
      else (n, 0)

/-! ### The Lua module -/

def fileClose (n : Node) : Node := { n with handle := none }

/-- The open file is closed even if the name is missing or too long. -/
def fileOpen (n : Node) : List (List UInt8) → Node
  | [] => n.fileClose
  | name :: more =>
    if fsNameMaxLength < name.length then n.fileClose
    else n.fileClose.fsOpen name (fsMode2flag (more.headD (ascii "r")))

def fileRemove (n : Node) : List (List UInt8) → Node
  | [] => n
  | name :: _ =>
    if fsNameMaxLength < name.length then n
    else { n.fileClose with files := Function.update n.files name none }

def fileWriteline (n : Node) : List (List UInt8) → Node
  | [] => n
  | s :: _ =>
    if n.handle.isNone then n
    else
      let (n, written) := n.fsWrite s
      if written = s.length then (n.fsWrite [10]).1 else n

end Node

/-- The functions of the module by their names, as far as they are modelled. -/
def fileMap (f : List UInt8) : Option (Node → List (List UInt8) → Node) :=
  if f = ascii "open" then some Node.fileOpen
  else if f = ascii "close" then some fun n _ => n.fileClose
  else if f = ascii "remove" then some Node.fileRemove
  else if f = ascii "flush" then some fun n _ => n
  else if f = ascii "writeline" then some Node.fileWriteline
  else none

/-! ### A file that is being written -/

/-- A file is open for writing, with everything in front of the offset. -/
structure Node.Writing (n : Node) (name content : List UInt8) : Prop where
  content_eq : n.files name = some content
  open_at : ∃ h, n.handle = some h ∧ h.name = name ∧ h.offset = content.length ∧ h.flags.writable = true

section Writing

variable {n : Node} {name content : List UInt8}

theorem Node.fsOpen_writing (n : Node) (name : List UInt8) {flags : OpenFlags} (hwritable : flags.writable = true)
    (hcreate : flags.create = true) (htruncate : flags.truncate = true) : (n.fsOpen name flags).Writing name [] := by
  rw [fsOpen]
  cases n.files name with
  | none =>
    rw [hcreate]
    exact ⟨Function.update_self .., _, rfl, rfl, rfl, hwritable⟩
  | some content =>
    rw [htruncate]
    exact ⟨Function.update_self .., _, rfl, rfl, rfl, hwritable⟩

theorem Node.Writing.fsWrite (h : n.Writing name content) (data : List UInt8) :
    (n.fsWrite data).1.Writing name (content ++ data) ∧ (n.fsWrite data).2 = data.length := by
  obtain ⟨handle, hopen, rfl, hoffset, hwritable⟩ := h.open_at
  have hat : (if handle.flags.append then content.length else handle.offset) = content.length := by
    rw [hoffset, ite_self]
  have hwritten : content.take content.length ++ data ++ content.drop (content.length + data.length) = content ++ data := by
    rw [List.take_length, List.drop_eq_nil_of_le (Nat.le_add_right _ _), List.append_nil]
  rw [Node.fsWrite, hopen]
  dsimp only
  rw [h.content_eq]
  dsimp only
  rw [if_pos hwritable, hat, hwritten]
  exact ⟨⟨Function.update_self .., _, rfl, rfl, List.length_append.symm, hwritable⟩, rfl⟩

/-- A line goes to the end of the file. -/
theorem Node.Writing.fileWriteline (h : n.Writing name content) (s : List UInt8) (more : List (List UInt8)) :
    (n.fileWriteline (s :: more)).Writing name (content ++ s ++ [10]) := by
  obtain ⟨handle, hopen, -⟩ := h.open_at
  obtain ⟨hwriting, hlength⟩ := h.fsWrite s
  rw [Node.fileWriteline, hopen, Option.isNone_some, if_neg Bool.false_ne_true]
  dsimp only
  rw [if_pos hlength]
  exact (hwriting.fsWrite [10]).1

end Writing

/-! ### A file that is not there -/

/-- There is no file of a name, and none is being written. -/
structure Node.Absent (n : Node) (name : List UInt8) : Prop where
  no_file : n.files name = none
  not_open : ∀ h, n.handle = some h → h.name ≠ name

section Absent

variable {n : Node} {name : List UInt8}

theorem Node.Absent.fileClose (h : n.Absent name) : n.fileClose.Absent name :=
  ⟨h.no_file, fun _ hopen => absurd hopen (by simp [Node.fileClose])⟩

theorem Node.Absent.fsOpen (h : n.Absent name) {other : List UInt8} (hother : other ≠ name) (flags : OpenFlags) :
    (n.fsOpen other flags).Absent name := by
  have hopen : ∀ h : Handle, some ⟨other, 0, flags⟩ = some h → h.name ≠ name := by
    rintro _ ⟨⟩
    exact hother
  have hfiles : ∀ content, Function.update n.files other content name = none := fun content =>
    (Function.update_of_ne hother.symm _ _).trans h.no_file
  rw [Node.fsOpen]
  cases n.files other with
  | some content => exact ⟨hfiles _, hopen⟩
  | none =>
    dsimp only
    split_ifs
    · exact ⟨hfiles _, hopen⟩
    · exact h.fileClose

theorem Node.Absent.fsWrite (h : n.Absent name) (data : List UInt8) : (n.fsWrite data).1.Absent name := by
  rw [Node.fsWrite]
  cases hopen : n.handle with
  | none => exact h
  | some handle =>
    have hother := h.not_open handle hopen
    dsimp only
    cases n.files handle.name with
    | none => exact h
    | some content =>
      dsimp only
      by_cases hwritable : handle.flags.writable = true
      · rw [if_pos hwritable]
        refine ⟨(Function.update_of_ne hother.symm _ _).trans h.no_file, ?_⟩
        rintro _ ⟨⟩
        exact hother
      · rw [if_neg hwritable]
        exact h

/-- Only `file.open` brings a file of a new name about. -/
theorem Node.Absent.run (h : n.Absent name) {f : List UInt8} {run : Node → List (List UInt8) → Node} (hrun : fileMap f = some run)
    {args : List (List UInt8)}
    (hopen : f = ascii "open" → ∀ a more, args = a :: more → a.length ≤ fsNameMaxLength → a ≠ name) :
    (run n args).Absent name := by
  rw [fileMap] at hrun
  split_ifs at hrun with hf
  · obtain rfl := Option.some.inj hrun
    cases args with
    | nil => exact h.fileClose
    | cons a more =>
      rw [Node.fileOpen]
      split_ifs with hlong
      · exact h.fileClose
      · exact h.fileClose.fsOpen (hopen hf a more rfl (not_lt.mp hlong)) _
  · obtain rfl := Option.some.inj hrun
    exact h.fileClose
  · obtain rfl := Option.some.inj hrun
    cases args with
    | nil => exact h
    | cons a more =>
      rw [Node.fileRemove]
      split_ifs
      · exact h
      · refine ⟨?_, fun _ hopen => absurd hopen (by simp [Node.fileClose])⟩
        by_cases hsame : name = a
        · rw [hsame]
          exact Function.update_self ..
        · exact (Function.update_of_ne hsame _ _).trans h.no_file
  · obtain rfl := Option.some.inj hrun
    exact h
  · obtain rfl := Option.some.inj hrun
    cases args with
    | nil => exact h
    | cons a more =>
      rw [Node.fileWriteline]
      dsimp only
      split_ifs
      · exact h
      · exact (h.fsWrite a).fsWrite [10]
      · exact h.fsWrite a

end Absent

end EspClock.File
