import EspClock.Lib.Memory
import EspClock.Lib.Nor
import EspClock.Lib.Run
import EspClock.Lib.Scan

/-!
# The write-once file system

`romfs.c`, as WOFS. The files lie one behind another in a region of NOR flash: a name with its 0, a field that
says whether the file is deleted, a field for the size and the data, the fields and the next name at multiples of
four. The end of the chain is an erased byte. Opening a file scans the chain from its start; a new file goes to
its end, and its size is written when it is closed.

The flash is written without faults. Addresses count from the start of the region.
-/

namespace EspClock.Romfs

open Mem Nor Chain

/-- The size of the region, and the size of the internal flash, which bounds the scan and every access. -/
structure Device where
  maxSize : Nat
  flashSize : Nat
  maxSize_pos : 0 < maxSize
  maxSize_mod : maxSize % 4 = 0
  maxSize_le : maxSize ≤ flashSize
  flashSize_le : flashSize ≤ 2 ^ 31

/-! ### Flags -/

/-- The flags of `open`. -/
structure OpenFlags where
  wronly : Bool
  rdwr : Bool
  append : Bool
  creat : Bool
  trunc : Bool
  excl : Bool
  deriving DecidableEq

def OpenFlags.rdonly : OpenFlags := ⟨false, false, false, false, false, false⟩

def fsMode2flag (mode : String) : OpenFlags :=
  if mode = "w" then { OpenFlags.rdonly with wronly := true, creat := true, trunc := true }
  else if mode = "r" then .rdonly
  else if mode = "a" then { OpenFlags.rdonly with wronly := true, creat := true, append := true }
  else if mode = "r+" then { OpenFlags.rdonly with rdwr := true }
  else if mode = "w+" then { OpenFlags.rdonly with rdwr := true, creat := true, trunc := true }
  else if mode = "a+" then { OpenFlags.rdonly with rdwr := true, creat := true, append := true }
  else .rdonly

/-- `ROMFS_FILE_FLAG_READ`, `ROMFS_FILE_FLAG_WRITE` and `ROMFS_FILE_FLAG_APPEND`. -/
structure FileFlags where
  read : Bool
  write : Bool
  append : Bool
  deriving DecidableEq

namespace FileFlags

/-- The access mode of the flags of `open`. -/
def decode (flags : OpenFlags) : FileFlags where
  read := !flags.wronly
  write := flags.wronly || flags.rdwr
  append := flags.append

def writes (flags : FileFlags) : Bool := flags.write || flags.append

end FileFlags

/-! ### State -/

structure Fd where
  baseaddr : Nat
  offset : Nat
  size : Nat
  flags : FileFlags
  deriving DecidableEq

namespace Fd

/-- What `romfs_close_fd` leaves. -/
def closed : Fd := ⟨0xFFFFFFFF, 0xFFFFFFFF, 0xFFFFFFFF, ⟨false, false, false⟩⟩

def unused (fd : Fd) : Bool := fd.baseaddr = 0xFFFFFFFF ∧ fd.offset = 0xFFFFFFFF ∧ fd.size = 0xFFFFFFFF

end Fd

structure Wofs where
  flash : Flash
  fdTable : Fin 8 → Fd
  numFd : Int
  /-- `ROMFS_FS_FLAG_WRITING` -/
  writing : Bool
  /-- Whether a scan never returned. -/
  stuck : Bool

/-- The file system after `romfs_init`. -/
def Wofs.init (flash : Flash) : Wofs := ⟨flash, fun _ => .closed, 0, false, false⟩

/-- A name that a program may give a file: not the name that asks for the end of the chain. -/
structure FileName where
  bytes : List UInt8
  bytes_ne : bytes ≠ []
  length_le : bytes.length ≤ 30
  zero_not_mem : 0 ∉ bytes
  head_ne : bytes.head? ≠ some 0xFF
  ne_one : bytes ≠ [1]

inductive Whence where
  | set
  | cur
  | «end»
  | other
  deriving DecidableEq

/-- The calls. `stack` is the byte that `fsname` ends with if nobody writes it. -/
inductive Operation where
  | «open» (name : FileName) (mode : String) (stack : UInt8)
  | write (fd : Int) (data : List UInt8)
  | read (fd : Int) (len : Nat)
  | lseek (fd : Int) (off : Int) (whence : Whence)
  | close (fd : Int)
  | format

inductive Reply where
  | value (n : Int)
  | bytes (content : List UInt8)
  deriving DecidableEq

inductive Action where
  | wrote (addr : Nat) (data : List UInt8)
  | erased (lo hi : Nat)
  | reply (r : Reply)
  deriving DecidableEq

/-! ### Headers -/

/-- `( n + ROMFS_ALIGN - 1 ) & ~( ROMFS_ALIGN - 1 )` -/
def align (n : Nat) : Nat := wrap32 (n + 3) / 4 * 4

/-- The bytes of a name before its 0, no more than a number of them. -/
def readName (f : Flash) : Nat → Nat → List UInt8
  | 0, _ => []
  | left + 1, i => if f i = 0 then [] else f i :: readName f left (i + 1)

/-- A word of four bytes, the lowest one first. -/
def word (f : Flash) (i : Nat) : Nat :=
  (f i).toNat + (f (i + 1)).toNat * 2 ^ 8 + (f (i + 2)).toNat * 2 ^ 16 + (f (i + 3)).toNat * 2 ^ 24

def wordBytes (n : Nat) : List UInt8 :=
  [UInt8.ofNat n, UInt8.ofNat (n / 2 ^ 8), UInt8.ofNat (n / 2 ^ 16), UInt8.ofNat (n / 2 ^ 24)]

structure Header where
  nameaddr : Nat
  name : List UInt8
  deleted : Bool
  baseaddr : Nat
  size : Nat
  deriving DecidableEq

def header (f : Flash) (i : Nat) : Header :=
  let name := readName f 30 i
  let j := align (i + name.length + 1)
  { nameaddr := i, name := name, deleted := f j = 0xAA, baseaddr := j + 8, size := word f (j + 4) }

/-- `!c_strncasecmp( fname, fsname, MAX_FNAME_LENGTH )`, where `c_strncasecmp` is `strcmp`. Nothing ends a name
in `fsname` that fills its 30 bytes but what the stack has behind them. -/
def sameName (fname : List UInt8) (stack : UInt8) (h : Header) : Bool :=
  fname ++ [0] = h.name ++ [if h.name.length < 30 then 0 else stack]

/-- The file that a name asks for. -/
def isFile (fname : List UInt8) (stack : UInt8) (h : Header) : Bool := sameName fname stack h && !h.deleted

variable (dev : Device)

/-- The scan from one header to the next. -/
def next (f : Flash) : Step Header := fun i =>
  if dev.flashSize ≤ i ∨ f i = 0xFF then none
  else
    let h := header f i
    some (h, align (wrap32 (h.baseaddr + h.size)))

/-- `romfs_open_file`. A scan that returns sees no more headers than the flash has bytes. -/
def romfsOpenFile (f : Flash) (fname : List UInt8) (stack : UInt8) : Search Header :=
  search (next dev f) (isFile fname stack) (dev.flashSize + 1) 0

/-- `*plast` for the address where a scan ends. -/
def Device.last (i : Nat) : Nat := if dev.flashSize ≤ i then dev.flashSize - 1 else i

/-- The headers of the chain. -/
def Wofs.chain (s : Wofs) : List Header := visited (next dev s.flash) (fun _ => false) (dev.flashSize + 1) 0

namespace Wofs

/-- `sim_wofs_write` -/
def program (s : Wofs) (addr : Nat) (data : List UInt8) : Wofs × List Action :=
  if dev.flashSize ≤ addr then (s, []) else ({ s with flash := Nor.write s.flash addr data }, [.wrote addr data])

def respond (s : Wofs) (n : Int) : Wofs × List Action := (s, [.reply (.value n)])

/-! ### Opening -/

def findEmptyFd (s : Wofs) : Option (Fin 8) := (List.finRange 8).find? fun i => (s.fdTable i).unused

/-- The end of `romfs_open`. -/
def install (s : Wofs) (i : Fin 8) (fd : Fd) : Wofs × List Action :=
  ({ s with fdTable := Function.update s.fdTable i fd, numFd := s.numFd + 1 }, [.reply (.value i)])

/-- The deletion mark of the file to be replaced. -/
def invalidate (s : Wofs) : Option Header → Wofs × List Action
  | some h => s.program dev (h.baseaddr - 4 - 4) [0xAA, 0xFF, 0xFF, 0xFF]
  | none => (s, [])

/-- The part of `romfs_open` from the check of the space on, for a new file at the end of the chain. -/
def createAt (s : Wofs) (path : List UInt8) (flags : FileFlags) (firstfree : Nat) : Wofs × List Action :=
  if wrap32 (sub32 dev.maxSize firstfree + 1) < path.length + 1 + 11 + 4 then s.respond (-1)
  else
    match s.findEmptyFd with
    | none => s.respond (-1)
    | some i =>
      let (s, named) := s.program dev firstfree (path ++ [0])
      let baseaddr := align (firstfree + (path.length + 1)) + 8
      let (s, opened) := { s with writing := true }.install i ⟨baseaddr, 0, 0, flags⟩
      (s, named ++ opened)

/-- A new file. A file with the name `"\1"` would leave `firstfree` as it was. -/
def create (s : Wofs) (path : List UInt8) (flags : FileFlags) (stack : UInt8) (found : Option Header)
    (firstfree : Nat) : Wofs × List Action :=
  let (s, marked) := s.invalidate dev found
  match romfsOpenFile dev s.flash [1] stack with
  | .lost => ({ s with stuck := true }, marked)
  | .found _ =>
    let (s, created) := s.createAt dev path flags firstfree
    (s, marked ++ created)
  | .ended i =>
    let (s, created) := s.createAt dev path flags (dev.last i)
    (s, marked ++ created)

/-- A file that is there. -/
def openExisting (s : Wofs) (flags : FileFlags) : Option Header → Wofs × List Action
  | none => s.respond (-1)
  | some h =>
    match s.findEmptyFd with
    | none => s.respond (-1)
    | some i => s.install i ⟨h.baseaddr, 0, h.size, flags⟩

/-- The part of `romfs_open` behind the search for the file. -/
def openFound (s : Wofs) (path : List UInt8) (flags : OpenFlags) (stack : UInt8) (found : Option Header)
    (firstfree : Nat) : Wofs × List Action :=
  let lflags := FileFlags.decode flags
  let mustCreate := flags.creat && !found.isSome || flags.trunc && (flags.wronly || flags.rdwr) && found.isSome
  if flags.creat && flags.excl && found.isSome then s.respond (-1)
  else if lflags.writes && !mustCreate then s.respond (-1)
  else if lflags.writes && s.writing then s.respond (-1)
  else if mustCreate then s.create dev path lflags stack found firstfree
  else s.openExisting lflags found

def romfsOpen (s : Wofs) (path : List UInt8) (flags : OpenFlags) (stack : UInt8) : Wofs × List Action :=
  if s.numFd = 8 then s.respond (-1)
  else
    match romfsOpenFile dev s.flash path stack with
    | .lost => ({ s with stuck := true }, [])
    | .found h => s.openFound dev path flags stack (some h) 0
    | .ended i => s.openFound dev path flags stack none (dev.last i)

/-! ### Open files -/

/-- A descriptor in the table. -/
def slot (fd : Int) : Option (Fin 8) := if h : 0 ≤ fd ∧ fd < 8 then some ⟨fd.toNat, by omega⟩ else none

def romfsClose (s : Wofs) (fd : Int) : Wofs × List Action :=
  match slot fd with
  | none => s.respond 0
  | some i =>
    let pfd := s.fdTable i
    let (s, written) :=
      if pfd.flags.writes then
        let (s, written) := s.program dev (pfd.baseaddr - 4) (wordBytes pfd.size)
        ({ s with writing := false }, written)
      else (s, [])
    ({ s with fdTable := Function.update s.fdTable i .closed, numFd := s.numFd - 1 },
      written ++ [.reply (.value 0)])

/-- How much of a number of bytes `romfs_write` keeps. -/
def clamp (pfd : Fd) (len : Nat) : Nat :=
  if sub32 dev.maxSize 4 < wrap32 (pfd.baseaddr + pfd.size + len) then
    sub32 (sub32 dev.maxSize (wrap32 (pfd.baseaddr + pfd.size))) 4
  else len

def romfsWrite (s : Wofs) (fd : Int) (data : List UInt8) : Wofs × List Action :=
  match slot fd with
  | none => s.respond (-1)
  | some i =>
    let pfd := s.fdTable i
    if data.length = 0 then s.respond 0
    else if !pfd.flags.writes then s.respond (-1)
    else
      let offset := if pfd.flags.append then pfd.size else pfd.offset
      if offset ≠ pfd.size then s.respond 0
      else
        let len := clamp dev pfd data.length
        let (s, written) := s.program dev (offset + pfd.baseaddr) (data.take len)
        ({ s with fdTable := Function.update s.fdTable i { pfd with offset := offset + len, size := pfd.size + len } },
          written ++ [.reply (.value len)])

def romfsRead (s : Wofs) (fd : Int) (len : Nat) : Wofs × List Action :=
  match slot fd with
  | none => s.respond (-1)
  | some i =>
    let pfd := s.fdTable i
    if len = 0 then s.respond 0
    else if !pfd.flags.read then s.respond (-1)
    else
      let actlen := min len (sub32 pfd.size pfd.offset)
      let content := if dev.flashSize ≤ pfd.offset + pfd.baseaddr then [] else slice s.flash (pfd.offset + pfd.baseaddr) actlen
      ({ s with fdTable := Function.update s.fdTable i { pfd with offset := pfd.offset + content.length } },
        [.reply (.bytes content)])

def romfsLseek (s : Wofs) (fd : Int) (off : Int) (whence : Whence) : Wofs × List Action :=
  match slot fd with
  | none => s.respond (-1)
  | some i =>
    let pfd := s.fdTable i
    let newpos : Option Nat :=
      match whence with
      | .set => some (word32 off)
      | .cur => some (word32 (pfd.offset + off))
      | .end => some (word32 (pfd.size + off))
      | .other => none
    match newpos with
    | none => s.respond (-1)
    | some newpos =>
      if pfd.size < newpos then s.respond (-1)
      else
        ({ s with fdTable := Function.update s.fdTable i { pfd with offset := newpos } },
          [.reply (.value newpos)])

/-! ### Formatting -/

/-- The sectors from the first one of the region to the one of an address. -/
def sectors (addr : Nat) : Nat := (addr / 4096 + 1) * 4096

/-- `wofs_format`, when no erasing fails. -/
def wofsFormat (s : Wofs) : Wofs × List Action :=
  match romfsOpenFile dev s.flash [1] 0 with
  | .lost => ({ s with stuck := true }, [])
  | .found _ => s.respond 1
  | .ended i =>
    ({ s with flash := erase s.flash 0 (sectors (dev.last i)) },
      [.erased 0 (sectors (dev.last i)), .reply (.value 1)])

def operate (s : Wofs) : Operation → Wofs × List Action
  | .open name mode stack => s.romfsOpen dev name.bytes (fsMode2flag mode) stack
  | .write fd data => s.romfsWrite dev fd data
  | .read fd len => s.romfsRead dev fd len
  | .lseek fd off whence => s.romfsLseek fd off whence
  | .close fd => s.romfsClose dev fd
  | .format => s.wofsFormat dev

end Wofs

/-- The file system, for any order of calls. -/
def wofs : Machine Wofs Operation Action where
  step s o := if s.stuck then (s, []) else s.operate dev o

end EspClock.Romfs
