import EspClock.File.Write
import EspClock.Lua.Calls

/-!
# Uploading a file over the serial line

`transfer.py` sends one Lua statement after another: the file is opened, every line of the source is written as a long
string of a fixed level, and the file is closed. A statement that is no plain call of the module `file` is left to the rest
of the interpreter, which is a parameter.
-/

namespace EspClock.Upload

open Decimal Lua File

/-! ### The commands -/

/-- The lines of a file as an iteration gives them, each with its newline. -/
def fileLines : List UInt8 → List (List UInt8)
  | [] => []
  | c :: s =>
    if c = 10 then [c] :: fileLines s
    else
      match fileLines s with
      | [] => [[c]]
      | line :: lines => (c :: line) :: lines

/-- `rstrip('\n')` -/
def rstripNewline (line : List UInt8) : List UInt8 := (line.reverse.dropWhile (· = 10)).reverse

def openCommand (baseName mode : List UInt8) : List UInt8 :=
  ascii "file.open(\"" ++ baseName ++ (ascii "\", \"" ++ mode ++ ascii "\")")

def removeFileCommand (baseName : List UInt8) : List UInt8 := ascii "file.remove(\"" ++ baseName ++ ascii "\")"

def writelineCommand (line : List UInt8) : List UInt8 := ascii "file.writeline([=====[" ++ line ++ ascii "]=====])"

/-- The commands in front of the lines. -/
def openingCommands (baseName : List UInt8) : List (List UInt8) :=
  [openCommand baseName (ascii "w"), ascii "file.close()", removeFileCommand baseName, openCommand baseName (ascii "w+")]

/-- The commands of `transfer_file` up to the one that closes the file. -/
def transferCommands (baseName text : List UInt8) : List (List UInt8) :=
  openingCommands baseName ++ (fileLines text).map (fun line => writelineCommand (rstripNewline line)) ++
    [ascii "file.flush()", ascii "file.close()"]

/-! ### The node -/

/-- A statement on the node. What is no call of a function that is modelled is handed to `lua`. -/
def executeStatement (lua : List UInt8 → Node → Node) (n : Node) (statement : List UInt8) : Node :=
  match fileCall? statement with
  | some (f, args) =>
    match fileMap f with
    | some run => run n args
    | none => lua statement n
  | none => lua statement n

def transferFile (lua : List UInt8 → Node → Node) (n : Node) (baseName text : List UInt8) : Node :=
  (transferCommands baseName text).foldl (executeStatement lua) n

/-! ### Text files -/

/-- Printable ASCII characters and tabs. -/
def Printable (line : List UInt8) : Prop := ∀ c ∈ line, c = 9 ∨ 32 ≤ c ∧ c ≤ 126

instance (line : List UInt8) : Decidable (Printable line) := inferInstanceAs (Decidable (∀ c ∈ line, _))

/-- A text file by its lines, without their newlines. -/
structure TextFile where
  lines : List (List UInt8)
  printable : ∀ line ∈ lines, Printable line

def TextFile.text (f : TextFile) : List UInt8 := f.lines.flatMap (· ++ [10])

theorem fileLines_append {line : List UInt8} (hline : ∀ c ∈ line, c ≠ 10) (rest : List UInt8) :
    fileLines (line ++ 10 :: rest) = (line ++ [10]) :: fileLines rest := by
  induction line with
  | nil => rfl
  | cons c line ih =>
    obtain ⟨hc, hrest⟩ := List.forall_mem_cons.mp hline
    rw [List.cons_append, fileLines, if_neg hc, ih hrest]
    rfl

theorem rstripNewline_append {line : List UInt8} (hline : ∀ c ∈ line, c ≠ 10) : rstripNewline (line ++ [10]) = line := by
  have hkeep : line.reverse.dropWhile (· = 10) = line.reverse := by
    cases hreverse : line.reverse with
    | nil => rfl
    | cons c s =>
      have hc : c ≠ 10 := hline c (List.mem_reverse.mp (hreverse ▸ List.mem_cons_self))
      rw [List.dropWhile_cons_of_neg (by simpa using hc)]
  rw [rstripNewline, List.reverse_append, List.reverse_singleton, List.singleton_append,
    List.dropWhile_cons_of_pos (by decide), hkeep, List.reverse_reverse]

theorem Printable.isNewline {line : List UInt8} (h : Printable line) : ∀ c ∈ line, isNewline c = false := by
  intro c hc
  rw [Lua.isNewline, decide_eq_false_iff_not]
  rintro (rfl | rfl)
  · exact absurd (h 10 hc) (by decide)
  · exact absurd (h 13 hc) (by decide)

theorem Printable.ne_newline {line : List UInt8} (h : Printable line) : ∀ c ∈ line, c ≠ 10 := by
  rintro c hc rfl
  exact absurd (h 10 hc) (by decide)

theorem Printable.zero_not_mem {line : List UInt8} (h : Printable line) : 0 ∉ line := fun hc => absurd (h 0 hc) (by decide)

/-- The commands of a text file are those of its lines. -/
theorem transferCommands_text (baseName : List UInt8) {lines : List (List UInt8)} (h : ∀ line ∈ lines, Printable line) :
    transferCommands baseName (lines.flatMap (· ++ [10])) =
      openingCommands baseName ++ lines.map writelineCommand ++ [ascii "file.flush()", ascii "file.close()"] := by
  have hlines : (fileLines (lines.flatMap (· ++ [10]))).map (fun line => writelineCommand (rstripNewline line)) =
      lines.map writelineCommand := by
    induction lines with
    | nil => rfl
    | cons line lines ih =>
      obtain ⟨hline, hrest⟩ := List.forall_mem_cons.mp h
      rw [List.flatMap_cons, List.append_assoc, List.singleton_append, fileLines_append hline.ne_newline, List.map_cons,
        rstripNewline_append hline.ne_newline, ih hrest]
      rfl
  rw [transferCommands, hlines]

/-! ### The commands as statements -/

/-- A line is read up to the first closing bracket. -/
theorem fileCall?_writeline {line : List UInt8} (h : Printable line) :
    ∃ i ≤ line.length, (i = line.length ↔ Embeddable 5 line) ∧
      (∀ f args, fileCall? (writelineCommand line) = some (f, args) →
        f = ascii "writeline" ∧ ∃ more, args = line.take i :: more) ∧
      (i = line.length → fileCall? (writelineCommand line) = some (ascii "writeline", [line])) := by
  obtain ⟨i, hle, hfind, hwhole⟩ := findPlain_closer 5 line [41]
  have hcommand : writelineCommand line =
      ascii "file." ++ (ascii "writeline" ++ 40 :: (91 :: (List.replicate 5 61 ++ 91 :: (line ++ (closer 5 ++ [41]))))) := by
    rw [writelineCommand, List.append_assoc]
    rfl
  have hline : ∀ c ∈ line ++ (closer 5 ++ [41]), Lua.isNewline c = false := by
    intro c hc
    obtain hc | hc := List.mem_append.mp hc
    · exact h.isNewline c hc
    · exact (show ∀ c ∈ closer 5 ++ [41], Lua.isNewline c = false by decide +kernel) c hc
  have hlong := next_long (show 5 ≠ 0 by decide) (line ++ (closer 5 ++ [41])) hline
  rw [hfind, Option.map_some, List.take_append_of_le_length hle] at hlong
  refine ⟨i, hle, hwhole, fun f args hcall => ?_, fun hlength => ?_⟩
  · rw [hcommand] at hcall
    obtain ⟨rfl, ⟨rest, hargs⟩, -, -⟩ := fileCall?_inv (by decide) hcall
    exact ⟨rfl, funcargs_head hlong hargs⟩
  · subst hlength
    have hdrop : (line ++ (closer 5 ++ [41])).drop (line.length + (5 + 2)) = [41] := by
      rw [List.drop_length_add_append]
      rfl
    rw [hdrop, List.take_length] at hlong
    have hnewline : (91 :: (List.replicate 5 61 ++ 91 :: (line ++ (closer 5 ++ [41])))).any Lua.isNewline = false := by
      show (line ++ (closer 5 ++ [41])).any Lua.isNewline = false
      rw [List.any_eq_false]
      intro c hc
      rw [hline c hc]
      exact Bool.false_ne_true
    rw [hcommand]
    refine fileCall?_of_funcargs (by decide) [] hnewline ((funcargs_of_string hlong).trans (explist_last hlong rfl)) rfl ?_
    intro a ha
    rw [List.mem_singleton.mp ha]
    exact h.zero_not_mem

/-- A name that stands for itself between quotation marks, and that the file system has room for. -/
def PlainName (name : List UInt8) : Prop :=
  name.length ≤ FileServer.fsNameMaxLength ∧ ∀ c ∈ name, c ≠ 0 ∧ c ≠ 34 ∧ c ≠ 92 ∧ Lua.isNewline c = false

theorem openCommand_eq (baseName mode : List UInt8) :
    openCommand baseName mode =
      ascii "file." ++ (ascii "open" ++ 40 :: (34 :: (baseName ++ 34 :: (ascii ", \"" ++ mode ++ ascii "\")")))) := by
  rw [openCommand, List.append_assoc]
  rfl

section Names

variable {baseName : List UInt8}

theorem PlainName.next (h : PlainName baseName) (rest : List UInt8) :
    next (34 :: (baseName ++ 34 :: rest)) = some (.string baseName, rest) := by
  have hread := readString_plain (fun c hc => (h.2 c hc).2) rest
    (show baseName.length < (baseName ++ 34 :: rest).length + 1 by rw [List.length_append]; omega)
  rw [next_quote, hread]
  rfl

theorem PlainName.isNewline (h : PlainName baseName) {rest : List UInt8} (hrest : rest.any Lua.isNewline = false) :
    (34 :: (baseName ++ 34 :: rest)).any Lua.isNewline = false := by
  have hname : baseName.any Lua.isNewline = false :=
    List.any_eq_false.mpr fun c hc => by
      rw [(h.2 c hc).2.2.2]
      exact Bool.false_ne_true
  rw [List.any_cons, List.any_append, hname, List.any_cons, hrest]
  rfl

theorem PlainName.zero_not_mem (h : PlainName baseName) : 0 ∉ baseName := fun hc => (h.2 0 hc).1 rfl

theorem fileCall?_open (h : PlainName baseName) {mode : List UInt8} (hmode : mode = ascii "w" ∨ mode = ascii "w+") :
    fileCall? (openCommand baseName mode) = some (ascii "open", [baseName, mode]) := by
  have hzero : ∀ a ∈ [baseName, mode], 0 ∉ a := by
    refine List.forall_mem_cons.mpr ⟨h.zero_not_mem, List.forall_mem_singleton.mpr ?_⟩
    obtain rfl | rfl := hmode
    · decide
    · decide
  have hnext := h.next (ascii ", \"" ++ mode ++ ascii "\")")
  rw [openCommand_eq]
  refine fileCall?_of_funcargs (by decide) [] (h.isNewline ?_) ((funcargs_of_string hnext).trans ?_) rfl hzero
  · obtain rfl | rfl := hmode
    · rfl
    · rfl
  · obtain rfl | rfl := hmode
    · rw [explist_cons hnext rfl]
      rfl
    · rw [explist_cons hnext rfl]
      rfl

/-- Only a name that stands for itself is read between the quotation marks as what it is. -/
theorem fileCall?_open_inv {mode f : List UInt8} {args : List (List UInt8)}
    (h : fileCall? (openCommand baseName mode) = some (f, args)) :
    f = ascii "open" ∧ ∃ a more, args = a :: more ∧
      (a = baseName → ∀ c ∈ baseName, c ≠ 0 ∧ c ≠ 34 ∧ c ≠ 92 ∧ Lua.isNewline c = false) := by
  rw [openCommand_eq] at h
  obtain ⟨rfl, ⟨rest, hargs⟩, hzero, -⟩ := fileCall?_inv (by decide) h
  refine ⟨rfl, ?_⟩
  generalize ascii ", \"" ++ mode ++ ascii "\")" = t at hargs
  cases hread : readString 34 ((baseName ++ 34 :: t).length + 1) (baseName ++ 34 :: t) with
  | none =>
    have hnext : next (34 :: (baseName ++ 34 :: t)) = none := by
      rw [next_quote, hread]
      rfl
    rw [funcargs_of_none hnext] at hargs
    exact absurd hargs (by simp)
  | some p =>
    obtain ⟨text, behind⟩ := p
    have hnext : next (34 :: (baseName ++ 34 :: t)) = some (.string text, behind) := by
      rw [next_quote, hread]
      rfl
    obtain ⟨more, rfl⟩ := funcargs_head hnext hargs
    refine ⟨text, more, rfl, ?_⟩
    rintro rfl
    obtain ⟨raw, hraw, hlength, hquotes, hplain⟩ := readString_spec hread
    have hsame : text.length = raw.length := by
      obtain ⟨extra, rfl, hextra⟩ | ⟨extra, heq, hextra⟩ := List.append_eq_append_iff.mp hraw
      · cases extra with
        | nil => rw [List.append_nil]
        | cons c extra =>
          rw [(List.cons.inj hextra).1.symm, List.count_append, List.count_cons_self] at hquotes
          omega
      · rw [heq, List.length_append] at hlength ⊢
        omega
    intro c hc
    exact ⟨fun h => hzero text List.mem_cons_self (h ▸ hc), (hplain hsame).2 c hc⟩

end Names

/-! ### The file on the node -/

section Steps

variable {lua : List UInt8 → Node → Node} {n : Node} {baseName content : List UInt8}

theorem executeStatement_of_fileCall {statement f : List UInt8} {args : List (List UInt8)}
    (h : fileCall? statement = some (f, args)) {run : Node → List (List UInt8) → Node} (hrun : fileMap f = some run) :
    executeStatement lua n statement = run n args := by
  rw [executeStatement, h]
  dsimp only
  rw [hrun]

/-- Before the first line the file is empty, whatever the node had. -/
theorem opening_writing (lua : List UInt8 → Node → Node) (n : Node) (h : PlainName baseName) :
    ((openingCommands baseName).foldl (executeStatement lua) n).Writing baseName [] := by
  have hopen : ∀ n : Node, executeStatement lua n (openCommand baseName (ascii "w+")) = n.fileOpen [baseName, ascii "w+"] :=
    fun n => executeStatement_of_fileCall (fileCall?_open h (Or.inr rfl)) rfl
  rw [openingCommands, List.foldl_cons, List.foldl_cons, List.foldl_cons, List.foldl_cons, List.foldl_nil, hopen, Node.fileOpen,
    if_neg (not_lt.mpr h.1)]
  exact Node.fsOpen_writing _ _ rfl rfl rfl

/-- A line that can be embedded comes to the end of the file. -/
theorem executeStatement_writeline {line : List UInt8} (hline : Printable line) (hembed : Embeddable 5 line)
    (h : n.Writing baseName content) :
    (executeStatement lua n (writelineCommand line)).Writing baseName (content ++ (line ++ [10])) := by
  obtain ⟨i, -, hwhole, -, hcall⟩ := fileCall?_writeline hline
  rw [executeStatement_of_fileCall (hcall (hwhole.mpr hembed)) rfl, ← List.append_assoc]
  exact h.fileWriteline line []

theorem executeStatement_lines {lines : List (List UInt8)} (hlines : ∀ line ∈ lines, Printable line)
    (hembed : ∀ line ∈ lines, Embeddable 5 line) (h : n.Writing baseName content) :
    ((lines.map writelineCommand).foldl (executeStatement lua) n).Writing baseName (content ++ lines.flatMap (· ++ [10])) := by
  induction lines generalizing n content with
  | nil =>
    rw [List.flatMap_nil, List.append_nil]
    exact h
  | cons line lines ih =>
    obtain ⟨hline, hlines⟩ := List.forall_mem_cons.mp hlines
    obtain ⟨hfirst, hembed⟩ := List.forall_mem_cons.mp hembed
    rw [List.map_cons, List.foldl_cons, List.flatMap_cons, ← List.append_assoc]
    exact ih hlines hembed (executeStatement_writeline hline hfirst h)

/-- The last two commands leave the files as they are. -/
theorem closing_files (lua : List UInt8 → Node → Node) (n : Node) :
    ([ascii "file.flush()", ascii "file.close()"].foldl (executeStatement lua) n).files = n.files := rfl

/-- What the uploaded file has is what was written when the last line was executed. -/
theorem transferFile_files {lines : List (List UInt8)} (hlines : ∀ line ∈ lines, Printable line)
    (h : ((lines.map writelineCommand).foldl (executeStatement lua) ((openingCommands baseName).foldl (executeStatement lua) n)).Writing
      baseName content) :
    (transferFile lua n baseName (lines.flatMap (· ++ [10]))).files baseName = some content := by
  rw [transferFile, transferCommands_text baseName hlines, List.foldl_append, List.foldl_append, closing_files]
  exact h.content_eq

end Steps

/-! ### What goes wrong -/

/-- An interpreter that does nothing, as with a statement that is in error. -/
def quiet (_ : List UInt8) (n : Node) : Node := n

section Absent

variable {n : Node} {name : List UInt8}

theorem executeStatement_absent (h : n.Absent name) {statement : List UInt8}
    (hopen : ∀ f args, fileCall? statement = some (f, args) → f = ascii "open" → ∀ a more, args = a :: more →
      a.length ≤ FileServer.fsNameMaxLength → a ≠ name) : (executeStatement quiet n statement).Absent name := by
  rw [executeStatement]
  cases hcall : fileCall? statement with
  | none => exact h
  | some p =>
    dsimp only
    cases hrun : fileMap p.1 with
    | none => exact h
    | some run => exact h.run hrun (hopen p.1 p.2 hcall)

theorem foldl_absent (h : n.Absent name) {statements : List (List UInt8)}
    (hopen : ∀ statement ∈ statements, ∀ f args, fileCall? statement = some (f, args) → f = ascii "open" → ∀ a more,
      args = a :: more → a.length ≤ FileServer.fsNameMaxLength → a ≠ name) :
    (statements.foldl (executeStatement quiet) n).Absent name := by
  induction statements generalizing n with
  | nil => exact h
  | cons statement statements ih =>
    obtain ⟨hfirst, hrest⟩ := List.forall_mem_cons.mp hopen
    exact ih (executeStatement_absent h hfirst) hrest

end Absent

/-- A name that does not stand for itself is never the one of a file that is opened. -/
theorem not_opened {baseName : List UInt8} (hname : ¬ PlainName baseName) {mode f : List UInt8} {args : List (List UInt8)}
    (h : fileCall? (openCommand baseName mode) = some (f, args)) (a : List UInt8) (more : List (List UInt8))
    (hargs : args = a :: more) (hshort : a.length ≤ FileServer.fsNameMaxLength) : a ≠ baseName := by
  obtain ⟨-, a', more', hargs', hplain⟩ := fileCall?_open_inv h
  obtain ⟨rfl, -⟩ := List.cons.inj (hargs.symm.trans hargs')
  rintro rfl
  exact hname ⟨hshort, hplain rfl⟩

theorem transferFile_absent {baseName : List UInt8} (hname : ¬ PlainName baseName) {lines : List (List UInt8)}
    (hlines : ∀ line ∈ lines, Printable line) :
    (transferFile quiet .empty baseName (lines.flatMap (· ++ [10]))).files baseName = none := by
  have hother : ∀ f s : List UInt8, f ∈ ["close", "remove", "flush", "writeline"].map ascii →
      ∀ g args, fileCall? (ascii "file." ++ (f ++ 40 :: s)) = some (g, args) → g ≠ ascii "open" := by
    intro f s hf g args hcall
    obtain ⟨rfl, -⟩ := fileCall?_inv (List.mem_cons_of_mem _ hf) hcall
    rintro rfl
    exact absurd hf (by decide)
  have hempty : Node.empty.Absent baseName := ⟨rfl, fun _ hopen => absurd hopen (by simp [Node.empty])⟩
  rw [transferFile, transferCommands_text baseName hlines]
  refine (foldl_absent hempty ?_).no_file
  refine List.forall_mem_append.mpr ⟨List.forall_mem_append.mpr ⟨?_, ?_⟩, ?_⟩
  · refine List.forall_mem_cons.mpr ⟨fun f args hcall _ => not_opened hname hcall, ?_⟩
    refine List.forall_mem_cons.mpr ⟨fun f args hcall hf => ?_, ?_⟩
    · exact absurd hf (hother (ascii "close") [41] (by decide) f args hcall)
    refine List.forall_mem_cons.mpr ⟨fun f args hcall hf => ?_, ?_⟩
    · rw [removeFileCommand, List.append_assoc] at hcall
      exact absurd hf (hother (ascii "remove") (34 :: (baseName ++ ascii "\")")) (by decide) f args hcall)
    · exact List.forall_mem_singleton.mpr fun f args hcall _ => not_opened hname hcall
  · intro statement hstatement f args hcall hf
    obtain ⟨line, -, rfl⟩ := List.mem_map.mp hstatement
    rw [writelineCommand, List.append_assoc] at hcall
    exact absurd hf (hother (ascii "writeline") (ascii "[=====[" ++ (line ++ ascii "]=====])")) (by decide) f args hcall)
  · refine List.forall_mem_cons.mpr ⟨fun f args hcall hf => ?_, List.forall_mem_singleton.mpr fun f args hcall hf => ?_⟩
    · exact absurd hf (hother (ascii "flush") [41] (by decide) f args hcall)
    · exact absurd hf (hother (ascii "close") [41] (by decide) f args hcall)

section Short

variable {n : Node} {baseName content : List UInt8}

/-- A line that cannot be embedded comes to the file in part or not at all. -/
theorem executeStatement_writeline_length {line : List UInt8} (hline : Printable line) (h : n.Writing baseName content) :
    ∃ content', (executeStatement quiet n (writelineCommand line)).Writing baseName content' ∧
      content'.length ≤ content.length + (line ++ [10]).length ∧
      (¬ Embeddable 5 line → content'.length < content.length + (line ++ [10]).length) := by
  obtain ⟨i, hle, hwhole, hcall, -⟩ := fileCall?_writeline hline
  rw [List.length_append, List.length_singleton]
  cases hstatement : fileCall? (writelineCommand line) with
  | none =>
    have hexecute : executeStatement quiet n (writelineCommand line) = n := by
      rw [executeStatement, hstatement]
      rfl
    rw [hexecute]
    exact ⟨content, h, by omega, fun _ => by omega⟩
  | some p =>
    obtain ⟨f, args⟩ := p
    obtain ⟨rfl, more, rfl⟩ := hcall f args hstatement
    refine ⟨_, executeStatement_of_fileCall hstatement rfl ▸ h.fileWriteline (line.take i) more, ?_, fun hbad => ?_⟩
    · rw [List.length_append, List.length_append, List.length_take, List.length_singleton]
      omega
    · have hshort : i ≠ line.length := fun heq => hbad (hwhole.mp heq)
      rw [List.length_append, List.length_append, List.length_take, List.length_singleton]
      omega

theorem executeStatement_lines_length {lines : List (List UInt8)} (hlines : ∀ line ∈ lines, Printable line)
    (h : n.Writing baseName content) :
    ∃ content', ((lines.map writelineCommand).foldl (executeStatement quiet) n).Writing baseName content' ∧
      content'.length ≤ content.length + (lines.flatMap (· ++ [10])).length ∧
      ((∃ line ∈ lines, ¬ Embeddable 5 line) → content'.length < content.length + (lines.flatMap (· ++ [10])).length) := by
  induction lines generalizing n content with
  | nil => exact ⟨content, h, le_rfl, fun ⟨_, hline, _⟩ => absurd hline List.not_mem_nil⟩
  | cons line lines ih =>
    obtain ⟨hline, hlines⟩ := List.forall_mem_cons.mp hlines
    obtain ⟨content₁, hfirst, hle₁, hlt₁⟩ := executeStatement_writeline_length hline h
    obtain ⟨content₂, hrest, hle₂, hlt₂⟩ := ih hlines hfirst
    rw [List.flatMap_cons, List.length_append]
    refine ⟨content₂, hrest, by omega, ?_⟩
    rintro ⟨bad, hmem, hbad⟩
    obtain rfl | hmem := List.mem_cons.mp hmem
    · have := hlt₁ hbad
      omega
    · have := hlt₂ ⟨bad, hmem, hbad⟩
      omega

end Short

/-! ### When the file is reproduced -/

/-- The uploaded file is the source file, whatever the rest of the interpreter does and whatever the node had, exactly if
the name stands for itself and every line can be put between the long brackets. -/
theorem serial_upload_iff (baseName : List UInt8) (file : TextFile) :
    (∀ (lua : List UInt8 → Node → Node) (n : Node),
      (transferFile lua n baseName file.text).files baseName = some file.text) ↔
      PlainName baseName ∧ ∀ line ∈ file.lines, Embeddable 5 line := by
  constructor
  · intro h
    have hquiet := h quiet .empty
    have hname : PlainName baseName := by
      by_contra hname
      rw [TextFile.text, transferFile_absent hname file.printable] at hquiet
      exact absurd hquiet (by simp)
    refine ⟨hname, fun line hline => ?_⟩
    by_contra hbad
    obtain ⟨content, hwriting, -, hshort⟩ := executeStatement_lines_length file.printable (opening_writing quiet .empty hname)
    have hlength := hshort ⟨line, hline, hbad⟩
    rw [TextFile.text, transferFile_files file.printable hwriting] at hquiet
    rw [Option.some.inj hquiet, List.length_nil, Nat.zero_add] at hlength
    exact absurd hlength (lt_irrefl _)
  · rintro ⟨hname, hembed⟩ lua n
    exact transferFile_files file.printable (executeStatement_lines file.printable hembed (opening_writing lua n hname))

/-- The line `a]=====]) -- b`: its command writes `a`, and the rest of the line is a comment. -/
def commentedLine : TextFile where
  lines := [ascii "a]=====]) -- b"]
  printable := by decide +kernel

/-- Every command is short, and yet what arrives is another file. -/
theorem serial_upload_cut :
    (∀ command ∈ transferCommands (ascii "a.lua") commentedLine.text, command.length < 255) ∧
      ∀ (lua : List UInt8 → Node → Node) (n : Node),
        (transferFile lua n (ascii "a.lua") commentedLine.text).files (ascii "a.lua") = some (ascii "a\n") ∧
          ascii "a\n" ≠ commentedLine.text := by
  refine ⟨by decide +kernel, fun lua n => ⟨?_, by decide⟩⟩
  have hplain : PlainName (ascii "a.lua") := ⟨by decide, by decide +kernel⟩
  have hcall : fileCall? (writelineCommand (ascii "a]=====]) -- b")) = some (ascii "writeline", [ascii "a"]) := by
    decide +kernel
  have hlines : commentedLine.lines = [ascii "a]=====]) -- b"] := rfl
  refine transferFile_files commentedLine.printable ?_
  rw [hlines, List.map_singleton, List.foldl_cons, List.foldl_nil, executeStatement_of_fileCall hcall rfl]
  exact (opening_writing lua n hplain).fileWriteline (ascii "a") []

end EspClock.Upload
