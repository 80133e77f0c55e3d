import EspClock.Lib.Octets
import EspClock.Lib.Serial

/-!
# Precompiled chunks, written

`luaU_dump` of `ldump.c`, with which `node.compile` and `string.dump` save a function. Each of its functions is the list of
blocks it hands to `DumpBlock`, with the errors it records and the alignments in between; `Serial.exec` is what `DumpBlock` and
`Align4` do with such a list. The numbers of this build are doubles, kept as their 64 bits.
-/

namespace EspClock.Bytecode

open Octets Serial

/-! ### Functions -/

/-- The values a constant can have. -/
inductive TValue
  | nil
  | boolean (b : Bool)
  | number (n : UInt64)
  | string (s : List UInt8)
deriving DecidableEq

def TValue.string? : TValue → Option (List UInt8)
  | .string s => some s
  | _ => none

structure LocVar where
  varname : Option (List UInt8)
  startpc : Int
  endpc : Int
deriving DecidableEq

/-- A function prototype. A string may be a null pointer; its bytes stand for it, since strings are kept only once. -/
structure Proto where
  source : Option (List UInt8)
  linedefined : Int
  lastlinedefined : Int
  nups : UInt8
  numparams : UInt8
  isVararg : UInt8
  maxstacksize : UInt8
  code : List UInt32
  k : List TValue
  p : List Proto
  lineinfo : List Int
  locvars : List LocVar
  upvalues : List (Option (List UInt8))

/-- A property of a function and of all functions defined inside it. -/
inductive Proto.All (P : Proto → Prop) : Proto → Prop
  | intro {f : Proto} (here : P f) (inside : ∀ g ∈ f.p, All P g) : All P f

mutual

/-- How deep functions are defined inside each other. -/
def Proto.depth : Proto → Nat
  | { p, .. } => Proto.depths p + 1

def Proto.depths : List Proto → Nat
  | [] => 0
  | f :: fs => max f.depth (Proto.depths fs)

end

theorem Proto.depth_eq (f : Proto) : f.depth = Proto.depths f.p + 1 := by
  cases f
  rfl

theorem Proto.depth_lt {f g : Proto} (hg : g ∈ f.p) : g.depth < f.depth := by
  rw [f.depth_eq]
  suffices hle : ∀ fs : List Proto, g ∈ fs → g.depth ≤ Proto.depths fs from Nat.lt_succ_of_le (hle _ hg)
  intro fs hmem
  induction fs with
  | nil => cases hmem
  | cons h fs ih =>
    rw [Proto.depths]
    rcases List.mem_cons.mp hmem with rfl | hmem
    · exact Nat.le_max_left _ _
    · exact Nat.le_trans (ih hmem) (Nat.le_max_right _ _)

/-! ### Writing -/

/-- The machine a chunk is for. `lua_Number` is a double on it. -/
structure DumpTargetInfo where
  littleEndian : Bool
  sizeofInt : Nat
  sizeofStrsize : Nat

/-- The machine itself, which is little endian. -/
def DumpTargetInfo.native : DumpTargetInfo := ⟨true, 4, 4⟩

def luaErrCcIntoverflow : Int := 101

section Dump

variable (target : DumpTargetInfo) (strip : Bool)

def maybeByteSwap (number : List UInt8) : List UInt8 := if target.littleEndian then number else number.reverse

def dumpBlock (b : List UInt8) : List Op := [.block b]

def dumpChar (y : UInt8) : List Op := dumpBlock [y]

/-- A number out of range is an error, and is still handed over. -/
def overflowIf (outside : Bool) : List Op := if outside then [.fail luaErrCcIntoverflow] else []

def dumpIntWithSize (x : Int) (sizeofInt : Nat) : List Op :=
  match sizeofInt with
  | 1 => overflowIf (0x7F < x ∨ x < -0x80) ++ dumpChar (UInt8.ofNat (residue 1 x))
  | 2 => overflowIf (0x7FFF < x ∨ x < -0x8000) ++ dumpBlock (maybeByteSwap target (little 2 (residue 2 x)))
  | 4 => overflowIf (0x7FFFFFFE < x ∨ x < -0x7FFFFFFF) ++ dumpBlock (maybeByteSwap target (little 4 (residue 4 x)))
  | _ => []

def dumpInt (x : Int) : List Op := dumpIntWithSize target x target.sizeofInt

def dumpSize (x : Nat) : List Op :=
  match target.sizeofStrsize with
  | 1 => overflowIf (0xFF < x) ++ dumpChar (UInt8.ofNat x)
  | 2 => overflowIf (0xFFFF < x) ++ dumpBlock (maybeByteSwap target (little 2 x))
  | 4 => overflowIf (0xFFFFFFFE < x) ++ dumpBlock (maybeByteSwap target (little 4 x))
  | _ => []

def dumpNumber (x : UInt64) : List Op := dumpBlock (maybeByteSwap target (little 8 x.toNat))

def dumpInstruction (i : UInt32) : List Op := dumpBlock (maybeByteSwap target (little 4 i.toNat))

def dumpCode (f : Proto) : List Op :=
  dumpInt target f.code.length ++ (.align :: f.code.flatMap (dumpInstruction target))

/-- A string goes with the zero at its end. -/
def dumpString : Option (List UInt8) → List Op
  | none => dumpSize target 0
  | some s => dumpSize target (s.length + 1) ++ dumpBlock (s ++ [0])

/-- The tag of a value, `ttype`. -/
def ttype : TValue → UInt8
  | .nil => 0
  | .boolean _ => 1
  | .number _ => 5
  | .string _ => 6

def dumpConstant (o : TValue) : List Op :=
  dumpChar (ttype o) ++
    match o with
    | .nil => []
    | .boolean b => dumpChar (if b then 1 else 0)
    | .number n => dumpNumber target n
    | .string s => dumpString target (some s)

def dumpLocVar (v : LocVar) : List Op :=
  dumpString target v.varname ++ (dumpInt target v.startpc ++ dumpInt target v.endpc)

/-- The debug information, which a stripped chunk has none of. -/
def dumpDebug (f : Proto) : List Op :=
  let lineinfo := if strip then [] else f.lineinfo
  let locvars := if strip then [] else f.locvars
  let upvalues := if strip then [] else f.upvalues
  dumpInt target lineinfo.length ++ (.align :: lineinfo.flatMap (dumpInt target)) ++
    (dumpInt target locvars.length ++ locvars.flatMap (dumpLocVar target)) ++
    (dumpInt target upvalues.length ++ upvalues.flatMap (dumpString target))

/-- The part of a function before the functions inside it. -/
def dumpFront (f : Proto) (parent : Option (List UInt8)) : List Op :=
  dumpString target (if f.source = parent ∨ strip then none else f.source) ++
    (dumpInt target f.linedefined ++ dumpInt target f.lastlinedefined) ++
    (dumpChar f.nups ++ dumpChar f.numparams ++ dumpChar f.isVararg ++ dumpChar f.maxstacksize) ++
    dumpCode target f ++
    (dumpInt target f.k.length ++ f.k.flatMap (dumpConstant target)) ++
    dumpInt target f.p.length

mutual

def dumpFunction : Proto → Option (List UInt8) → List Op
  | f@{ source, p, .. }, parent => dumpFront target strip f parent ++ dumpFunctions p source ++ dumpDebug target strip f

def dumpFunctions : List Proto → Option (List UInt8) → List Op
  | [], _ => []
  | f :: fs, parent => dumpFunction f parent ++ dumpFunctions fs parent

end

def luaSignature : List UInt8 := [0x1B, 0x4C, 0x75, 0x61]

/-- The signature, the version, the format, the order of the bytes, the sizes of an `int`, of the size of a string, of an
instruction and of a number, and that numbers are no integers. -/
def dumpHeader : List Op :=
  dumpBlock (luaSignature ++ [0x51, 0, if target.littleEndian then 1 else 0, UInt8.ofNat target.sizeofInt,
    UInt8.ofNat target.sizeofStrsize, 4, 8, 0])

def dumpChunk (f : Proto) : List Op := dumpHeader target ++ dumpFunction target strip f none

/-- The state after a dump; `none` if it never returns. -/
def luaUDumpCrosscompile {σ : Type} (write : Writer σ) (data : σ) (f : Proto) : Option (Sink σ) :=
  exec 4 write (dumpChunk target strip f) ⟨0, 0, data⟩

end Dump

/-- A dump for the machine itself: the status and the data of the writer. -/
def luaUDump {σ : Type} (write : Writer σ) (data : σ) (strip : Bool) (f : Proto) : Option (Sink σ) :=
  luaUDumpCrosscompile .native strip write data f

theorem dumpFunctions_eq (target : DumpTargetInfo) (strip : Bool) (fs : List Proto) (parent : Option (List UInt8)) :
    dumpFunctions target strip fs parent = fs.flatMap (dumpFunction target strip · parent) := by
  induction fs with
  | nil => rfl
  | cons f fs ih => rw [dumpFunctions, ih, List.flatMap_cons]

theorem dumpFunction_eq (target : DumpTargetInfo) (strip : Bool) (f : Proto) (parent : Option (List UInt8)) :
    dumpFunction target strip f parent = dumpFront target strip f parent ++
      f.p.flatMap (dumpFunction target strip · f.source) ++ dumpDebug target strip f := by
  rw [← dumpFunctions_eq]
  cases f
  rfl

/-! ### What a chunk can hold -/

/-- A number that the loader takes for an `int`. -/
def IsIndex (x : Int) : Prop := 0 ≤ x ∧ x ≤ 0x7FFFFFFE

/-- A length with its zero that the loader takes for the size of a string. -/
def IsName (s : List UInt8) : Prop := s.length + 1 ≤ 0x7FFFFFFE

/-- The strings of a function. -/
def Proto.strings (f : Proto) : List (List UInt8) :=
  f.source.toList ++ f.k.filterMap TValue.string? ++
    f.locvars.filterMap LocVar.varname ++ f.upvalues.filterMap id

/-- A function as the compiler makes it: its numbers are those of an `int`, and its vectors fit into the address space. -/
structure Proto.Fits (f : Proto) : Prop where
  lines : IsIndex f.linedefined ∧ IsIndex f.lastlinedefined
  code : f.code.length < 0x40000000
  lineinfo : f.lineinfo.length < 0x40000000
  lengths : f.k.length ≤ 0x7FFFFFFE ∧ f.p.length ≤ 0x7FFFFFFE ∧ f.locvars.length ≤ 0x7FFFFFFE ∧ f.upvalues.length ≤ 0x7FFFFFFE
  strings : ∀ s ∈ f.strings, IsName s
  eachLine : ∀ x ∈ f.lineinfo, -0x7FFFFFFF ≤ x ∧ x ≤ 0x7FFFFFFE
  eachLocVar : ∀ v ∈ f.locvars, IsIndex v.startpc ∧ IsIndex v.endpc

/-- A target with the sizes of the machine itself, in either order of the bytes. -/
def DumpTargetInfo.Wide (target : DumpTargetInfo) : Prop := target.sizeofInt = 4 ∧ target.sizeofStrsize = 4

section Strings

variable {f : Proto} (hf : f.Fits)

include hf

theorem Proto.Fits.source : ∀ s ∈ f.source, IsName s := fun s hs =>
  hf.strings s (by simp [Proto.strings, Option.mem_def.mp hs])

theorem Proto.Fits.constant {o : TValue} (ho : o ∈ f.k) : ∀ s ∈ o.string?, IsName s := fun s hs =>
  hf.strings s (by simpa [Proto.strings] using .inr (.inl ⟨o, ho, hs⟩))

theorem Proto.Fits.varname {v : LocVar} (hv : v ∈ f.locvars) : ∀ s ∈ v.varname, IsName s := fun s hs =>
  hf.strings s (by simpa [Proto.strings] using .inr (.inr (.inl ⟨v, hv, hs⟩)))

theorem Proto.Fits.upvalue {u : Option (List UInt8)} (hu : u ∈ f.upvalues) : ∀ s ∈ u, IsName s := fun s hs =>
  hf.strings s (by simpa [Proto.strings, ← Option.mem_def.mp hs] using .inr (.inr (.inr hu)))

end Strings

section Fits

variable {target : DumpTargetInfo} (hwide : target.Wide) {strip : Bool} {f : Proto}

include hwide

theorem dumpInt_eq {x : Int} (hlow : -0x7FFFFFFF ≤ x) (hhigh : x ≤ 0x7FFFFFFE) :
    dumpInt target x = [.block (maybeByteSwap target (little 4 (residue 4 x)))] := by
  have hinside : ¬(0x7FFFFFFE < x ∨ x < -0x7FFFFFFF) := by omega
  rw [dumpInt, hwide.1]
  simp [dumpIntWithSize, overflowIf, hinside, dumpBlock]

theorem dumpSize_eq {x : Nat} (hx : x ≤ 0x7FFFFFFE) :
    dumpSize target x = [.block (maybeByteSwap target (little 4 x))] := by
  have hinside : ¬0xFFFFFFFE < x := by omega
  rw [dumpSize, hwide.2]
  simp [overflowIf, hinside, dumpBlock]

theorem noFail_dumpInt {x : Int} (hlow : -0x7FFFFFFF ≤ x) (hhigh : x ≤ 0x7FFFFFFE) : NoFail (dumpInt target x) := by
  rw [dumpInt_eq hwide hlow hhigh]
  simp

theorem noFail_dumpIndex {x : Int} (hx : IsIndex x) : NoFail (dumpInt target x) :=
  noFail_dumpInt hwide (Int.le_trans (by decide) hx.1) hx.2

theorem noFail_dumpLength {n : Nat} (hn : n ≤ 0x7FFFFFFE) : NoFail (dumpInt target n) :=
  noFail_dumpInt hwide (by omega) (by omega)

theorem noFail_dumpString {s : Option (List UInt8)} (hs : ∀ t ∈ s, IsName t) : NoFail (dumpString target s) := by
  cases s with
  | none =>
    rw [dumpString, dumpSize_eq hwide (by decide)]
    simp
  | some t =>
    rw [dumpString, dumpSize_eq hwide (hs t rfl)]
    simp [dumpBlock]

theorem noFail_dumpConstant {o : TValue} (ho : ∀ s ∈ o.string?, IsName s) : NoFail (dumpConstant target o) := by
  cases o with
  | nil => simp [dumpConstant, dumpChar, dumpBlock]
  | boolean b => simp [dumpConstant, dumpChar, dumpBlock]
  | number n => simp [dumpConstant, dumpChar, dumpNumber, dumpBlock]
  | string s =>
    have hstring := noFail_dumpString hwide (s := some s) ho
    simp [dumpConstant, dumpChar, dumpBlock, hstring]

theorem Proto.Fits.noFail_front (hf : f.Fits) (parent : Option (List UInt8)) : NoFail (dumpFront target strip f parent) := by
  have hsource : NoFail (dumpString target (if f.source = parent ∨ strip then none else f.source)) := by
    split
    · exact noFail_dumpString hwide (by simp)
    · exact noFail_dumpString hwide hf.source
  have hlines := And.intro (noFail_dumpIndex hwide hf.lines.1) (noFail_dumpIndex hwide hf.lines.2)
  have hchars : NoFail (dumpChar f.nups ++ dumpChar f.numparams ++ dumpChar f.isVararg ++ dumpChar f.maxstacksize) := by
    simp [dumpChar, dumpBlock]
  have hcode : NoFail (dumpCode target f) := by
    simp [dumpCode, dumpInstruction, dumpBlock, noFail_dumpLength hwide (Nat.le_trans (Nat.le_of_lt hf.code) (by decide))]
  have hk : NoFail (f.k.flatMap (dumpConstant target)) :=
    noFail_flatMap.mpr fun o ho => noFail_dumpConstant hwide (hf.constant ho)
  simp only [dumpFront, noFail_append] at hchars ⊢
  exact ⟨⟨⟨⟨⟨hsource, hlines⟩, hchars⟩, hcode⟩, noFail_dumpLength hwide hf.lengths.1, hk⟩,
    noFail_dumpLength hwide hf.lengths.2.1⟩

theorem Proto.Fits.noFail_debug (hf : f.Fits) : NoFail (dumpDebug target strip f) := by
  have hzero : NoFail (dumpInt target 0) := noFail_dumpIndex hwide ⟨by decide, by decide⟩
  cases strip with
  | true => simp [dumpDebug, hzero]
  | false =>
    have hlines : NoFail (f.lineinfo.flatMap (dumpInt target)) :=
      noFail_flatMap.mpr fun x hx => noFail_dumpInt hwide (hf.eachLine x hx).1 (hf.eachLine x hx).2
    have hlocvars : NoFail (f.locvars.flatMap (dumpLocVar target)) := by
      refine noFail_flatMap.mpr fun v hv => ?_
      simp only [dumpLocVar, noFail_append]
      exact ⟨noFail_dumpString hwide (hf.varname hv), noFail_dumpIndex hwide (hf.eachLocVar v hv).1,
        noFail_dumpIndex hwide (hf.eachLocVar v hv).2⟩
    have hupvalues : NoFail (f.upvalues.flatMap (dumpString target)) :=
      noFail_flatMap.mpr fun u hu => noFail_dumpString hwide (hf.upvalue hu)
    have hlengths := And.intro (noFail_dumpLength hwide (Nat.le_trans (Nat.le_of_lt hf.lineinfo) (by decide)))
      (And.intro (noFail_dumpLength hwide hf.lengths.2.2.1) (noFail_dumpLength hwide hf.lengths.2.2.2))
    simp only [dumpDebug, Bool.false_eq_true, if_false, noFail_append, noFail_align_cons]
    exact ⟨⟨⟨hlengths.1, hlines⟩, hlengths.2.1, hlocvars⟩, hlengths.2.2, hupvalues⟩

/-- The dump of what the compiler makes records no error of its own. -/
theorem noFail_dumpFunction (hf : f.All Proto.Fits) (parent : Option (List UInt8)) :
    NoFail (dumpFunction target strip f parent) := by
  induction hf generalizing parent with
  | intro here inside ih =>
    rw [dumpFunction_eq]
    simp only [noFail_append, noFail_flatMap]
    exact ⟨⟨here.noFail_front hwide parent, fun g hg => ih g hg _⟩, here.noFail_debug hwide⟩

theorem noFail_dumpChunk (hf : f.All Proto.Fits) : NoFail (dumpChunk target strip f) := by
  rw [dumpChunk, noFail_append]
  exact ⟨by simp [dumpHeader, dumpBlock], noFail_dumpFunction hwide hf none⟩

omit hwide

/-- A stripped chunk ends with two numbers behind its last alignment. -/
theorem dumpChunk_stripped (f : Proto) :
    ∃ ops, dumpChunk target true f = ops ++ .align :: (dumpInt target 0 ++ dumpInt target 0) := by
  refine ⟨dumpHeader target ++ (dumpFront target true f none ++
    f.p.flatMap (dumpFunction target true · f.source) ++ dumpInt target 0), ?_⟩
  rw [dumpChunk, dumpFunction_eq]
  simp [dumpDebug]

end Fits

end EspClock.Bytecode
