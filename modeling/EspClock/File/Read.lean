import Mathlib.Algebra.Ring.Int.Defs
import EspClock.Lib.Piece
import EspClock.Lib.Run

/-!
# Reading a file from Lua

`file.read` and `file.readline` get one byte after the other until the end character, until the buffer is full or until
the file ends. A byte travels as an integer beside the marker of the end, so no byte is taken for it. A `char` is
unsigned on the node.
-/

namespace EspClock.File

/-- `LUAL_BUFFERSIZE` -/
def lualBufferSize : Nat := 1024 * 4

/-- `EOF` -/
def endOfFile : Int := -1

/-! ### The file -/

/-- An open file, as the bytes it has and the offset of the next one. -/
structure OpenFile where
  content : List UInt8
  offset : Nat

/-- `myspiffs_getc` -/
def OpenFile.getc (f : OpenFile) : Int × OpenFile :=
  if f.offset = f.content.length then (endOfFile, f)
  else
    match f.content[f.offset]? with
    | some c => (c.toNat, { f with offset := f.offset + 1 })
    | none => (endOfFile, f)

/-! ### The Lua module -/

/-- The loop of `file_g_read`, with room for more bytes behind the next one. -/
def gReadLoop (ec : Int) : Nat → OpenFile → List UInt8 × OpenFile
  | 0, f =>
    let (c, f) := f.getc
    if c = endOfFile then ([], f) else ([UInt8.ofNat (c.toNat % 256)], f)
  | room + 1, f =>
    let (c, f) := f.getc
    if c = endOfFile then ([], f)
    else if c = ec then ([UInt8.ofNat (c.toNat % 256)], f)
    else
      let (rest, f) := gReadLoop ec room f
      (UInt8.ofNat (c.toNat % 256) :: rest, f)

/-- What is returned, if anything is, and the file afterwards. -/
def fileGRead (file : Option OpenFile) (n endChar : Int) : Except String (Option (List UInt8)) × Option OpenFile :=
  let n := if n < 0 ∨ lualBufferSize < n then (lualBufferSize : Int) else n
  let ec := if endChar < 0 ∨ 255 < endChar then endOfFile else endChar
  match file with
  | none => (.error "open a file first", none)
  | some f =>
    let (p, f) := gReadLoop ec (n.toNat - 1) f
    (.ok (if p = [] then none else some p), some f)

/-- The argument of `file.read`. -/
inductive ReadArg where
  | number (n : Int)
  | string (s : List UInt8)
  | other

def fileRead (file : Option OpenFile) : ReadArg → Except String (Option (List UInt8)) × Option OpenFile
  | .number n =>
    let needLen : Int := n % 2 ^ 32
    fileGRead file (if lualBufferSize < needLen then (lualBufferSize : Int) else needLen) endOfFile
  | .string [c] => fileGRead file lualBufferSize c.toNat
  | .string _ => (.error "wrong arg range", file)
  | .other => fileGRead file lualBufferSize endOfFile

def fileReadline (file : Option OpenFile) : Except String (Option (List UInt8)) × Option OpenFile :=
  fileGRead file lualBufferSize 10

/-! ### Sequences of calls -/

/-- A call that reads up to an end character. -/
inductive ReadCall where
  | readline
  | read (ch : UInt8)

def ReadCall.endChar : ReadCall → UInt8
  | .readline => 10
  | .read ch => ch

/-- The calls, each with what it returns. -/
def reading : Machine (Option OpenFile) ReadCall (Except String (Option (List UInt8))) :=
  ⟨fun file call =>
    let (result, file) := match call with
      | .readline => fileReadline file
      | .read ch => fileRead file (.string [ch])
    (file, [result])⟩

theorem getc_next (before rest : List UInt8) (c : UInt8) :
    (OpenFile.mk (before ++ c :: rest) before.length).getc = ((c.toNat : Int), ⟨before ++ c :: rest, before.length + 1⟩) := by
  rw [OpenFile.getc, if_neg (by simp), List.getElem?_append_right le_rfl, Nat.sub_self]
  rfl

theorem getc_end (content : List UInt8) : (OpenFile.mk content content.length).getc = (endOfFile, ⟨content, content.length⟩) :=
  if_pos rfl

/-- No byte is the marker of the end, and the conversion to `char` gives the byte back. -/
theorem byte_spec (c : UInt8) : ((c.toNat : Int) ≠ endOfFile) ∧ UInt8.ofNat ((c.toNat : Int).toNat % 256) = c := by
  refine ⟨fun heq => absurd (heq ▸ Int.natCast_nonneg c.toNat) (by decide), ?_⟩
  rw [Int.toNat_natCast, Nat.mod_eq_of_lt c.toNat_lt, UInt8.ofNat_toNat]

/-- The loop takes the first piece of what is left. -/
theorem gReadLoop_eq (ch : UInt8) (room : Nat) (before rest : List UInt8) :
    gReadLoop ch.toNat room ⟨before ++ rest, before.length⟩ =
      ((rest.splitPiece (· == ch) room).1, ⟨before ++ rest, before.length + (rest.splitPiece (· == ch) room).1.length⟩) := by
  induction rest generalizing room before with
  | nil =>
    have hend := getc_end before
    cases room with
    | zero => simp [gReadLoop, hend, List.splitPiece]
    | succ room => simp [gReadLoop, hend, List.splitPiece]
  | cons c rest ih =>
    have hnext := getc_next before rest c
    obtain ⟨hbyte, hchar⟩ := byte_spec c
    cases room with
    | zero =>
      rw [gReadLoop, hnext]
      dsimp only
      rw [if_neg hbyte, hchar]
      rfl
    | succ room =>
      rw [gReadLoop, hnext, List.splitPiece]
      dsimp only
      rw [if_neg hbyte, hchar]
      by_cases hends : c = ch
      · rw [if_pos (congrArg (fun c => (UInt8.toNat c : Int)) hends), if_pos (beq_iff_eq.mpr hends)]
        rfl
      · have hint : ¬ (c.toNat : Int) = ch.toNat := fun heq => hends (UInt8.toNat_inj.mp (Int.ofNat_inj.mp heq))
        have hrest := ih room (before ++ [c])
        rw [List.append_assoc, List.singleton_append, List.length_append, List.length_singleton] at hrest
        rw [if_neg hint, if_neg (fun h => hends (beq_iff_eq.mp h)), hrest, List.length_cons, Nat.add_assoc, Nat.add_comm 1]

/-- A call returns the first piece of what is left, or nothing at the end of the file. -/
theorem reading_step (call : ReadCall) (before rest : List UInt8) :
    reading.step (some ⟨before ++ rest, before.length⟩) call =
      (some ⟨before ++ rest, before.length + (rest.splitPiece (· == call.endChar) (lualBufferSize - 1)).1.length⟩,
        [.ok (if (rest.splitPiece (· == call.endChar) (lualBufferSize - 1)).1 = [] then none
          else some (rest.splitPiece (· == call.endChar) (lualBufferSize - 1)).1)]) := by
  have hread : ∀ ch : UInt8, fileGRead (some ⟨before ++ rest, before.length⟩) lualBufferSize ch.toNat =
      (.ok (if (rest.splitPiece (· == ch) (lualBufferSize - 1)).1 = [] then none
        else some (rest.splitPiece (· == ch) (lualBufferSize - 1)).1),
        some ⟨before ++ rest, before.length + (rest.splitPiece (· == ch) (lualBufferSize - 1)).1.length⟩) := by
    intro ch
    have hlt := ch.toNat_lt
    have hsize : ¬ ((lualBufferSize : Int) < 0 ∨ (lualBufferSize : Int) < lualBufferSize) := by decide
    have hbyte : ¬ ((ch.toNat : Int) < 0 ∨ 255 < (ch.toNat : Int)) := by omega
    have hroom : (lualBufferSize : Int).toNat - 1 = lualBufferSize - 1 := rfl
    rw [fileGRead, if_neg hsize, if_neg hbyte]
    dsimp only
    rw [hroom, gReadLoop_eq]
  cases call with
  | readline =>
    have hcall : fileReadline (some ⟨before ++ rest, before.length⟩) = _ := hread 10
    show (match fileReadline (some ⟨before ++ rest, before.length⟩) with | (result, file) => (file, [result])) = _
    rw [hcall]
    rfl
  | read ch =>
    have hcall : fileRead (some ⟨before ++ rest, before.length⟩) (.string [ch]) = _ := hread ch
    show (match fileRead (some ⟨before ++ rest, before.length⟩) (.string [ch]) with | (result, file) => (file, [result])) = _
    rw [hcall]
    rfl

/-- What calls return from some place of a file on until one returns nothing. -/
theorem reading_from (calls : Nat → ReadCall) (before rest : List UInt8) :
    ∃ pieces : List (List UInt8),
      reading.trace (some ⟨before ++ rest, before.length⟩) ((List.range (pieces.length + 1)).map calls) =
        pieces.map (fun p => .ok (some p)) ++ [.ok none] ∧
      pieces.flatten = rest ∧ (∀ p ∈ pieces, p ≠ []) ∧
      ∀ k p, pieces[k]? = some p → (calls k).endChar ∉ p.dropLast ∧
        (p.getLast? = some (calls k).endChar ∨ p.length = lualBufferSize ∨ k + 1 = pieces.length) := by
  induction hlength : rest.length using Nat.strong_induction_on generalizing calls before rest with
  | _ length ih =>
  subst hlength
  have hstep := reading_step (calls 0) before rest
  by_cases hempty : rest = []
  · subst hempty
    refine ⟨[], ?_, rfl, fun _ hp => absurd hp List.not_mem_nil, fun k p hp => absurd hp (by simp)⟩
    show (reading.step _ (calls 0)).2 ++ [] = _
    rw [hstep]
    rfl
  · have hnext := List.length_splitPiece_lt (· == (calls 0).endChar) (lualBufferSize - 1) hempty
    have hpiece := List.splitPiece_ne_nil (· == (calls 0).endChar) (lualBufferSize - 1) hempty
    have happend := List.splitPiece_append (· == (calls 0).endChar) (lualBufferSize - 1) rest
    have hfront := List.not_ends_of_mem_dropLast (· == (calls 0).endChar) (lualBufferSize - 1) rest
    have hlast := List.splitPiece_end (· == (calls 0).endChar) (lualBufferSize - 1) rest
    rw [if_neg hpiece] at hstep
    generalize (rest.splitPiece (· == (calls 0).endChar) (lualBufferSize - 1)).1 = piece at *
    generalize (rest.splitPiece (· == (calls 0).endChar) (lualBufferSize - 1)).2 = behind at *
    subst happend
    obtain ⟨pieces, htrace, hflatten, hne, hpieces⟩ := ih behind.length hnext (fun k => calls (k + 1)) (before ++ piece) behind rfl
    rw [List.append_assoc, List.length_append] at htrace
    refine ⟨piece :: pieces, ?_, congrArg (piece ++ ·) hflatten, List.forall_mem_cons.mpr ⟨hpiece, hne⟩, ?_⟩
    · have hcalls : (List.range ((piece :: pieces).length + 1)).map calls =
          calls 0 :: (List.range (pieces.length + 1)).map fun k => calls (k + 1) := by
        rw [List.length_cons, List.range_succ_eq_map, List.map_cons, List.map_map]
        rfl
      rw [hcalls, Machine.trace_cons, Machine.next, Machine.actions, hstep, htrace]
      rfl
    · intro k p hp
      cases k with
      | succ k =>
        obtain ⟨hnot, hend⟩ := hpieces k p hp
        exact ⟨hnot, hend.imp_right (Or.imp_right (congrArg (· + 1)))⟩
      | zero =>
        obtain rfl : piece = p := Option.some.inj hp
        refine ⟨fun hmem => absurd (hfront _ hmem) (by simp), ?_⟩
        obtain ⟨c, hc, hends⟩ | hfull | hnothing := hlast
        · exact Or.inl (Option.mem_def.mp hc ▸ congrArg some (beq_iff_eq.mp hends))
        · exact Or.inr (Or.inl hfull)
        · have hall := List.flatten_eq_nil_iff.mp (hflatten.trans hnothing)
          have hpieces : pieces = [] := List.eq_nil_iff_forall_not_mem.mpr fun q hq => hne q hq (hall q hq)
          exact Or.inr (Or.inr (congrArg (fun ps : List (List UInt8) => (piece :: ps).length) hpieces).symm)

/-- For every file and every sequence of calls from its start: some call returns nothing, and what the calls in front of
it return, none of it empty, makes up the file. The end character of a call is at most the last byte of its result, which
ends with it, or fills the buffer, or is the last one. -/
theorem reads_partition (content : List UInt8) (calls : Nat → ReadCall) :
    ∃ pieces : List (List UInt8),
      reading.trace (some ⟨content, 0⟩) ((List.range (pieces.length + 1)).map calls) =
        pieces.map (fun p => .ok (some p)) ++ [.ok none] ∧
      pieces.flatten = content ∧ (∀ p ∈ pieces, p ≠ []) ∧
      ∀ k p, pieces[k]? = some p → (calls k).endChar ∉ p.dropLast ∧
        (p.getLast? = some (calls k).endChar ∨ p.length = lualBufferSize ∨ k + 1 = pieces.length) :=
  reading_from calls [] content

end EspClock.File
