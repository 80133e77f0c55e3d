import EspClock.Romfs.Wofs

/-!
# A store of files

What the file system is for: a map from names to contents, and descriptors on contents. A file is written once,
from its beginning on, and has its content when it is closed; opening it anew removes it first, and descriptors
that read keep what they were opened on. Names that differ in the case of letters only are one name.

Space is never given back. A file takes the bytes of its name, of its fields and of its data, in multiples of
four, and a write keeps what there is space for.
-/

namespace EspClock.Romfs

/-! ### Names -/

def lower (b : UInt8) : UInt8 := if 65 ≤ b ∧ b ≤ 90 then b + 32 else b

/-- What `strncasecmp` compares. -/
def fold (name : List UInt8) : List UInt8 := name.map lower

/-! ### Contents -/

structure Descriptor where
  content : List UInt8
  offset : Nat
  flags : FileFlags
  deriving DecidableEq

/-- Files by a key, descriptors, the key of the file that is being written, and the space in front of the next
file or in front of the data of the one that is being written. -/
structure Store (κ : Type) where
  files : κ → Option (List UInt8)
  fds : Fin 8 → Option Descriptor
  writing : Option κ
  used : Nat

namespace Store

variable {κ : Type}

def empty : Store κ := ⟨fun _ => none, fun _ => none, none, 0⟩

def free (st : Store κ) : Option (Fin 8) := (List.finRange 8).find? fun i => (st.fds i).isNone

def install (st : Store κ) (i : Fin 8) (d : Option Descriptor) : Store κ :=
  { st with fds := Function.update st.fds i d }

def roundUp (n : Nat) : Nat := (n + 3) / 4 * 4

/-- Where the data of a file begin that is created with a name of some length. -/
def dataStart (st : Store κ) (length : Nat) : Nat := roundUp (st.used + length + 1) + 8

section

variable [DecidableEq κ]

def remove (st : Store κ) (key : κ) : Store κ := { st with files := Function.update st.files key none }

/-- A new file, which needs some space behind its fields too. -/
def create (capacity : Nat) (st : Store κ) (i : Fin 8) (key : κ) (length : Nat) (flags : FileFlags) :
    Store κ × List Reply :=
  if capacity < st.used + length + 15 then (st, [.value (-1)])
  else
    ({ st.install i (some ⟨[], 0, flags⟩) with writing := some key, used := st.dataStart length }, [.value i])

def «open» (capacity : Nat) (st : Store κ) (key : κ) (length : Nat) (flags : OpenFlags) : Store κ × List Reply :=
  match st.free with
  | none => (st, [.value (-1)])
  | some i =>
    if (FileFlags.decode flags).writes then
      if flags.creat && (flags.trunc || (st.files key).isNone) then
        (st.remove key).create capacity i key length (FileFlags.decode flags)
      else (st, [.value (-1)])
    else
      match st.files key with
      | none => (st, [.value (-1)])
      | some content => (st.install i (some ⟨content, 0, FileFlags.decode flags⟩), [.value i])

/-- The file that was being written has its content. -/
def finish (st : Store κ) (content : List UInt8) : Store κ :=
  match st.writing with
  | none => st
  | some key =>
    { st with
      files := Function.update st.files key (some content)
      writing := none
      used := roundUp (st.used + content.length) }

def close (st : Store κ) (i : Fin 8) (d : Descriptor) : Store κ × List Reply :=
  let st := if d.flags.writes then st.finish d.content else st
  (st.install i none, [.value 0])

end

def write (capacity : Nat) (st : Store κ) (i : Fin 8) (d : Descriptor) (data : List UInt8) :
    Store κ × List Reply :=
  if data = [] then (st, [.value 0])
  else if !d.flags.writes then (st, [.value (-1)])
  else if !d.flags.append ∧ d.offset ≠ d.content.length then (st, [.value 0])
  else
    let stored := data.take (capacity - 4 - (st.used + d.content.length))
    let content := d.content ++ stored
    (st.install i (some { d with content := content, offset := content.length }), [.value stored.length])

def read (st : Store κ) (i : Fin 8) (d : Descriptor) (len : Nat) : Store κ × List Reply :=
  if len = 0 then (st, [.value 0])
  else if !d.flags.read then (st, [.value (-1)])
  else
    let bytes := (d.content.drop d.offset).take len
    (st.install i (some { d with offset := d.offset + bytes.length }), [.bytes bytes])

def position (d : Descriptor) (off : Int) : Whence → Option Int
  | .set => some off
  | .cur => some (d.offset + off)
  | .end => some (d.content.length + off)
  | .other => none

def lseek (st : Store κ) (i : Fin 8) (d : Descriptor) (off : Int) (whence : Whence) : Store κ × List Reply :=
  match position d off whence with
  | none => (st, [.value (-1)])
  | some position =>
    if 0 ≤ position ∧ position ≤ d.content.length then
      (st.install i (some { d with offset := position.toNat }), [.value position])
    else (st, [.value (-1)])

/-- A call for a descriptor, if it is open. -/
def withFd (st : Store κ) (fd : Int) (call : Fin 8 → Descriptor → Store κ × List Reply) : Store κ × List Reply :=
  match Wofs.slot fd with
  | none => (st, [.value (-1)])
  | some i =>
    match st.fds i with
    | none => (st, [.value (-1)])
    | some d => call i d

def operate (capacity : Nat) (st : Store (List UInt8)) : Operation → Store (List UInt8) × List Reply
  | .open name mode _ => st.open capacity (fold name.bytes) name.bytes.length (fsMode2flag mode)
  | .write fd data => st.withFd fd fun i d => st.write capacity i d data
  | .read fd len => st.withFd fd fun i d => st.read i d len
  | .lseek fd off whence => st.withFd fd fun i d => st.lseek i d off whence
  | .close fd => st.withFd fd fun i d => st.close i d
  | .format => ({ empty with fds := st.fds }, [.value 1])

end Store

/-- The store, for any order of calls. -/
def store (capacity : Nat) : Machine (Store (List UInt8)) Operation Reply where
  step st o := st.operate capacity o

end EspClock.Romfs
