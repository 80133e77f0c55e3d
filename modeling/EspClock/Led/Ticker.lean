import EspClock.Lib.Run
import EspClock.Led.Strip

/-!
# The ticker

`lpd_ticker.c`: a text of four columns a letter is kept in six rows of `m_Length` bytes in one buffer,
of which the first `m_Used` are filled; every tick of the scroll timer draws ten columns of it from
`m_Position` on, notices the end of the text, calls the scroll callback there and moves on by one
column. The callback is Lua code and may call any operation of the ticker.

The brightness is a floating-point factor; the ticker has it as the map from the byte in the buffer to
the unsigned word that goes to the strip. An error ends the operation it occurs in and keeps what was
done before it.
-/

namespace EspClock.Led

open Mem

structure Ticker where
  length : Nat
  used : Nat
  position : Nat
  buffer : List UInt8
  brightness : Nat → Nat
  callback : Bool

/-- Accesses to the ticker's buffer and to its strip, the values `m_Used` is given, the ends of the
scroll with whether the callback was called, and the counters an operation leaves. -/
inductive TickerAction where
  | strip (access : Access)
  | buffer (index : Nat)
  | used (value : Nat)
  | finished (called : Bool)
  | reached (used position : Nat)
  deriving DecidableEq

/-- A ticker, its strip and the font, with what memory has behind the font's table. -/
structure Scroll where
  ticker : Ticker
  strip : Strip
  font : Nat → Nat

/-! ### Letters -/

/-- The bit of a glyph at a row and a column, as `GET_LINE` and the loop of `add_letter` take it. -/
def glyphBit (mask row column : Nat) : Nat := (((mask >>> (20 - 4 * row)) % 16) >>> (3 - column)) % 2

/-- The cells of a block of columns: row, column and colour component. -/
def cells (columns : Nat) : List (Nat × Nat × Nat) :=
  (List.range 6).flatMap fun row => (List.range columns).flatMap fun column =>
    (List.range 3).map fun k => (row, column, k)

namespace Ticker

def index (t : Ticker) (used : Nat) (cell : Nat × Nat × Nat) : Nat :=
  wrap32 (used + t.length * cell.1 + cell.2.1 * 3 + cell.2.2)

/-- Stores to a block of columns from a point of the rows on. -/
def fill (t : Ticker) (used : Nat) (value : Nat × Nat × Nat → Nat) :
    List (Nat × Nat × Nat) → Ticker × List TickerAction
  | [] => (t, [])
  | cell :: rest =>
    let t' := { t with buffer := t.buffer.set (t.index used cell) (UInt8.ofNat (value cell)) }
    let (t'', a) := fill t' used value rest
    (t'', .buffer (t.index used cell) :: a)

/-- `add_letter` -/
def addLetter (t : Ticker) (mask r g b : Nat) : Ticker × List TickerAction :=
  let value := fun (cell : Nat × Nat × Nat) => glyphBit mask cell.1 cell.2.1 * [r, g, b].getD cell.2.2 0
  let (t', a) := t.fill t.used value (cells 4)
  ({ t' with used := wrap32 (t.used + 12) }, a ++ [.used (wrap32 (t.used + 12))])

def isFull (t : Ticker) : Prop := sub32 t.length t.used < 12

instance (t : Ticker) : Decidable t.isFull := inferInstanceAs (Decidable (_ < _))

def full : LuaError := .message "Ticker buffer is full."

/-- The loop of `ticker_add_text` over the glyph indices of a text; an element of a table that is no
integer has none. -/
def addLetters (font : Nat → Nat) (r g b : Nat) :
    List (Option Nat) → Ticker → Ticker × List TickerAction × Option LuaError
  | [], t => (t, [], none)
  | letter :: rest, t =>
    if t.isFull then (t, [], some full)
    else
      match letter with
      | none => (t, [], some (.notInteger (-1)))
      | some i =>
        let (t, a) := t.addLetter (font i) r g b
        let (t, b, e) := addLetters font r g b rest t
        (t, a ++ b, e)

end Ticker

/-! ### Operations -/

/-- The number of entries of `ascii_table`. -/
def fontSize : Nat := 127

/-- The glyph indices of a text argument. -/
def textLetters : LuaValue → Option (List (Option Nat))
  | .string text _ | .number text _ => some (text.map fun c => some c.toNat)
  | .table elements => some (elements.map fun v => v.integer?.map fun z => word32 z % fontSize)
  | .other => none

/-- The first byte of a string, its terminator if it has none. -/
def firstByte (text : List UInt8) : Nat := (text.headD 0).toNat

/-- The glyph index of a character argument. The branch for numbers is not reached, since
`lua_isstring` is true for them. -/
def charIndex (v : LuaValue) : Option Nat :=
  if v.isString then some (firstByte v.toText)
  else if v.isNumber then some (word32 v.toInteger % fontSize)
  else none

inductive Operation where
  | clear
  | addText (text r g b : LuaValue)
  | addLetter (letter r g b : LuaValue)
  | setText (text r g b : LuaValue)
  | setCharMask (char rows : LuaValue)
  | setBrightness (brightness : Nat → Nat)

/-- What an operation leaves: the state, its actions and the error it ended with. -/
structure Effect where
  state : Scroll
  actions : List TickerAction
  error : Option LuaError

namespace Scroll

def tickerClear (s : Scroll) : Effect :=
  let (strip, a) := s.strip.clear 0 0 0
  let (t, b) := { s.ticker with used := 0, position := 0 }.fill 0 (fun _ => 0) (cells 10)
  ⟨{ s with ticker := { t with used := 30 }, strip := strip },
    .used 0 :: (a ++ strip.update).map .strip ++ b ++ [.used 30], none⟩

/-- The three colour arguments. -/
def colorArguments (r g b : LuaValue) : Except LuaError (Nat × Nat × Nat) :=
  match r.integer?, g.integer?, b.integer? with
  | some r, some g, some b => .ok (word32 r, word32 g, word32 b)
  | none, _, _ => .error (.notInteger 3)
  | _, none, _ => .error (.notInteger 4)
  | _, _, none => .error (.notInteger 5)

def tickerAddText (s : Scroll) (text r g b : LuaValue) : Effect :=
  match colorArguments r g b with
  | .error e => ⟨s, [], some e⟩
  | .ok (r, g, b) =>
    match textLetters text with
    | none => ⟨s, [], some (.message "String or table argument expected.")⟩
    | some letters =>
      let (t, a, e) := Ticker.addLetters s.font r g b letters s.ticker
      ⟨{ s with ticker := t }, a, e⟩

def tickerAddLetter (s : Scroll) (letter r g b : LuaValue) : Effect :=
  if s.ticker.isFull then ⟨s, [], some Ticker.full⟩
  else
    match charIndex letter with
    | none => ⟨s, [], some (.message "String or numeric argument expected.")⟩
    | some i =>
      match colorArguments r g b with
      | .error e => ⟨s, [], some e⟩
      | .ok (r, g, b) =>
        let (t, a) := s.ticker.addLetter (s.font i) r g b
        ⟨{ s with ticker := t }, a, none⟩

def tickerSetText (s : Scroll) (text r g b : LuaValue) : Effect :=
  let cleared := s.tickerClear
  let added := cleared.state.tickerAddText text r g b
  ⟨added.state, cleared.actions ++ added.actions, added.error⟩

/-- The mask of six rows, the first in the lowest bits. -/
def composeMask (i mask : Nat) : List LuaValue → Option Nat
  | [] => some mask
  | v :: rest => v.integer?.bind fun z => composeMask (i + 1) (mask ||| word32 (z * 2 ^ (4 * i))) rest

def tickerSetCharMask (s : Scroll) (char rows : LuaValue) : Effect :=
  match charIndex char with
  | none => ⟨s, [], some (.message "String or numeric argument expected.")⟩
  | some i =>
    match rows with
    | .table elements =>
      if elements.length ≠ 6 then ⟨s, [], some (.message "Table with 6 rows exactly expected.")⟩
      else
        match composeMask 0 0 elements with
        | none => ⟨s, [], some (.notInteger (-1))⟩
        | some mask => ⟨{ s with font := fun j => if j = i then mask else s.font j }, [], none⟩
    | _ => ⟨s, [], some (.message "Table with 6 rows exactly expected.")⟩

def tickerSetBrightness (s : Scroll) (brightness : Nat → Nat) : Effect :=
  ⟨{ s with ticker := { s.ticker with brightness := brightness } }, [], none⟩

def operate (s : Scroll) : Operation → Effect
  | .clear => s.tickerClear
  | .addText text r g b => s.tickerAddText text r g b
  | .addLetter letter r g b => s.tickerAddLetter letter r g b
  | .setText text r g b => s.tickerSetText text r g b
  | .setCharMask char rows => s.tickerSetCharMask char rows
  | .setBrightness brightness => s.tickerSetBrightness brightness

/-- An operation, with the counters it leaves. -/
def perform (s : Scroll) (o : Operation) : Scroll × List TickerAction :=
  let effect := s.operate o
  (effect.state, effect.actions ++ [.reached effect.state.ticker.used effect.state.ticker.position])

def performAll (s : Scroll) : List Operation → Scroll × List TickerAction
  | [] => (s, [])
  | o :: os =>
    let (s, a) := s.perform o
    let (s, b) := performAll s os
    (s, a ++ b)

end Scroll

/-! ### Ticks -/

def ledMapping : List Nat :=
  [50, 51, 52, 53, 54, 55, 56, 57, 58, 59,
   49, 48, 47, 46, 45, 44, 43, 42, 41, 40,
   30, 31, 32, 33, 34, 35, 36, 37, 38, 39,
   29, 28, 27, 26, 25, 24, 23, 22, 21, 20,
   10, 11, 12, 13, 14, 15, 16, 17, 18, 19,
    9,  8,  7,  6,  5,  4,  3,  2,  1,  0]

namespace Ticker

/-- The index of the byte shown at a place of the display. -/
def shownIndex (t : Ticker) (row column k : Nat) : Nat :=
  wrap32 (wrap32 ((t.position + column) * 3 + k) % t.used + row * t.length)

/-- The component of the colour shown at a place of the display. -/
def shown (t : Ticker) (row column k : Nat) : Nat :=
  t.brightness (t.buffer.getD (t.shownIndex row column k) 0).toNat

def shownColor (t : Ticker) (row column : Nat) : Color :=
  ⟨ledMapping.getD (column + row * 10) 0, t.shown row column 0, t.shown row column 1, t.shown row column 2⟩

/-- The drawing loops, place by place. -/
def drawPlaces (t : Ticker) (s : Strip) : List (Nat × Nat) → Strip × List TickerAction
  | [] => (s, [])
  | (row, column) :: rest =>
    let (s, a) := s.setColor (t.shownColor row column)
    let (s, b) := drawPlaces t s rest
    (s, (List.range 3).map (fun k => .buffer (t.shownIndex row column k)) ++ a.map .strip ++ b)

def places : List (Nat × Nat) :=
  (List.range 6).flatMap fun row => (List.range 10).map fun column => (row, column)

/-- The part of a tick that shows the text. -/
def draw (t : Ticker) (s : Strip) : Strip × List TickerAction :=
  let (s, a) := t.drawPlaces s places
  (s, a ++ s.update.map .strip)

/-- The test for the end of the scroll. -/
def AtEnd (t : Ticker) : Prop := wrap32 (t.position * 3) = t.used

instance (t : Ticker) : Decidable t.AtEnd := inferInstanceAs (Decidable (_ = _))

end Ticker

namespace Scroll

/-- `ticker_scroll_cb`, with what the scroll callback does should it be called. -/
def tickerScrollCb (s : Scroll) (callback : List Operation) : Scroll × List TickerAction :=
  if s.ticker.used = 0 then (s, [])
  else
    let (strip, a) := s.ticker.draw s.strip
    let (s, b) :=
      if s.ticker.AtEnd then
        let (s', b) := { s with ticker := { s.ticker with position := 0 }, strip := strip }.performAll
          (if s.ticker.callback then callback else [])
        (s', .finished s.ticker.callback :: .reached s.ticker.used 0 :: b)
      else ({ s with strip := strip }, [])
    ({ s with ticker := { s.ticker with position := wrap32 (s.ticker.position + 1) } }, a ++ b)

end Scroll

inductive TickerEvent where
  | operation (o : Operation)
  | tick (callback : List Operation)

/-- A ticker under operations and ticks in any order. -/
def ticking : Machine Scroll TickerEvent TickerAction :=
  ⟨fun s e =>
    match e with
    | .operation o => s.perform o
    | .tick callback => s.tickerScrollCb callback⟩

theorem ticking_next_operation (s : Scroll) (o : Operation) :
    ticking.next s (.operation o) = (s.operate o).state := rfl

/-! ### Setup -/

def tickerSetup (board : Board) (length : LuaValue) (callback : Bool) : Except LuaError Ticker :=
  let length := wrap32 (length.wordOr 60 * 12)
  let size := wrap32 (length * 6)
  if !board.newuserdata then .error (.message "Out of memory (Ticker struct).")
  else if !board.zalloc size then .error (.message "Out of memory (data).")
  else .ok ⟨length, 0, 0, List.replicate size 0, id, callback⟩

/-! ### What an operation can do -/

namespace Ticker

variable (t : Ticker) (used : Nat) (value : Nat × Nat × Nat → Nat)

theorem fill_state (l : List (Nat × Nat × Nat)) :
    ∃ buffer, (t.fill used value l).1 = { t with buffer := buffer } ∧ buffer.length = t.buffer.length := by
  induction l generalizing t with
  | nil => exact ⟨t.buffer, rfl, rfl⟩
  | cons cell rest ih =>
    obtain ⟨buffer, hstate, hlength⟩ :=
      ih { t with buffer := t.buffer.set (t.index used cell) (UInt8.ofNat (value cell)) }
    refine ⟨buffer, ?_, by rw [hlength, List.length_set]⟩
    rw [fill]
    exact hstate

theorem fill_actions (l : List (Nat × Nat × Nat)) :
    (t.fill used value l).2 = l.map fun cell => .buffer (t.index used cell) := by
  induction l generalizing t with
  | nil => rfl
  | cons cell rest ih =>
    rw [fill, List.map_cons]
    exact congrArg (List.cons _) (ih _)

theorem addLetter_state (mask r g b : Nat) :
    ∃ buffer, (t.addLetter mask r g b).1 = { t with buffer := buffer, used := wrap32 (t.used + 12) } ∧
      buffer.length = t.buffer.length := by
  obtain ⟨buffer, hstate, hlength⟩ := t.fill_state t.used
    (fun cell => glyphBit mask cell.1 cell.2.1 * [r, g, b].getD cell.2.2 0) (cells 4)
  refine ⟨buffer, ?_, hlength⟩
  rw [addLetter]
  simp only [hstate]

theorem addLetter_actions (mask r g b : Nat) :
    (t.addLetter mask r g b).2 =
      ((cells 4).map fun cell => .buffer (t.index t.used cell)) ++ [.used (wrap32 (t.used + 12))] := by
  rw [addLetter]
  simp only [fill_actions]

end Ticker

theorem mem_cells {columns : Nat} {cell : Nat × Nat × Nat} :
    cell ∈ cells columns ↔ cell.1 < 6 ∧ cell.2.1 < columns ∧ cell.2.2 < 3 := by
  obtain ⟨row, column, k⟩ := cell
  simp only [cells, List.mem_flatMap, List.mem_map, List.mem_range, Prod.mk.injEq]
  constructor
  · rintro ⟨row, hrow, column, hcolumn, k, hk, rfl, rfl, rfl⟩
    exact ⟨hrow, hcolumn, hk⟩
  · rintro ⟨hrow, hcolumn, hk⟩
    exact ⟨row, hrow, column, hcolumn, k, hk, rfl, rfl, rfl⟩

theorem tickerClear_state (s : Scroll) :
    ∃ buffer, s.tickerClear.state.ticker = { s.ticker with buffer := buffer, used := 30, position := 0 } ∧
      buffer.length = s.ticker.buffer.length := by
  obtain ⟨buffer, hstate, hlength⟩ :=
    { s.ticker with used := 0, position := 0 }.fill_state 0 (fun _ => 0) (cells 10)
  refine ⟨buffer, ?_, hlength⟩
  rw [Scroll.tickerClear]
  simp only [hstate]

theorem tickerClear_actions (s : Scroll) :
    s.tickerClear.actions = .used 0 :: ((s.strip.clear 0 0 0).2 ++ (s.strip.clear 0 0 0).1.update).map .strip ++
      (cells 10).map (fun cell => .buffer (s.ticker.index 0 cell)) ++ [.used 30] := by
  rw [Scroll.tickerClear]
  simp only [Ticker.fill_actions]
  rfl

theorem tickerSetCharMask_kept (s : Scroll) (char rows : LuaValue) :
    (s.tickerSetCharMask char rows).state.ticker = s.ticker ∧ (s.tickerSetCharMask char rows).actions = [] := by
  unfold Scroll.tickerSetCharMask
  repeat' split
  all_goals exact ⟨rfl, rfl⟩

def Operation.Clears : Operation → Prop
  | .clear | .setText _ _ _ _ => True
  | _ => False

instance : DecidablePred Operation.Clears
  | .clear | .setText _ _ _ _ => instDecidableTrue
  | .addText _ _ _ _ | .addLetter _ _ _ _ | .setCharMask _ _ | .setBrightness _ => instDecidableFalse

section Rule

variable {I : Ticker → Prop} {Q : TickerAction → Prop}
  (hletter : ∀ t mask r g b, I t → ¬ t.isFull →
    I (t.addLetter mask r g b).1 ∧ ∀ a ∈ (t.addLetter mask r g b).2, Q a)
include hletter

theorem addLetters_rule (font : Nat → Nat) (r g b : Nat) (letters : List (Option Nat)) {t : Ticker} (h : I t) :
    I (Ticker.addLetters font r g b letters t).1 ∧
      ∀ a ∈ (Ticker.addLetters font r g b letters t).2.1, Q a := by
  induction letters generalizing t with
  | nil => exact ⟨h, fun _ ha => absurd ha List.not_mem_nil⟩
  | cons letter rest ih =>
    unfold Ticker.addLetters
    by_cases hfull : t.isFull
    · rw [if_pos hfull]
      exact ⟨h, fun _ ha => absurd ha List.not_mem_nil⟩
    · rw [if_neg hfull]
      cases letter with
      | none => exact ⟨h, fun _ ha => absurd ha List.not_mem_nil⟩
      | some i =>
        obtain ⟨hstate, hactions⟩ := hletter t (font i) r g b h hfull
        obtain ⟨hrest, hmore⟩ := ih hstate
        exact ⟨hrest, List.forall_mem_append.mpr ⟨hactions, hmore⟩⟩

theorem tickerAddText_rule (text r g b : LuaValue) {s : Scroll} (h : I s.ticker) :
    I (s.tickerAddText text r g b).state.ticker ∧ ∀ a ∈ (s.tickerAddText text r g b).actions, Q a := by
  unfold Scroll.tickerAddText
  split
  · exact ⟨h, fun _ ha => absurd ha List.not_mem_nil⟩
  · split
    · exact ⟨h, fun _ ha => absurd ha List.not_mem_nil⟩
    · exact addLetters_rule hletter _ _ _ _ _ h

theorem tickerAddLetter_rule (letter r g b : LuaValue) {s : Scroll} (h : I s.ticker) :
    I (s.tickerAddLetter letter r g b).state.ticker ∧ ∀ a ∈ (s.tickerAddLetter letter r g b).actions, Q a := by
  unfold Scroll.tickerAddLetter
  split
  · exact ⟨h, fun _ ha => absurd ha List.not_mem_nil⟩
  next hfull =>
    split
    · exact ⟨h, fun _ ha => absurd ha List.not_mem_nil⟩
    · split
      · exact ⟨h, fun _ ha => absurd ha List.not_mem_nil⟩
      · exact hletter _ _ _ _ _ h hfull

variable (hbrightness : ∀ t brightness, I t → I { t with brightness := brightness })
include hbrightness

/-- What letters, clears and changes of the brightness keep, every operation keeps. -/
theorem operate_rule (o : Operation) {s : Scroll}
    (hclear : o.Clears → I s.tickerClear.state.ticker ∧ ∀ a ∈ s.tickerClear.actions, Q a) (h : I s.ticker) :
    I (s.operate o).state.ticker ∧ ∀ a ∈ (s.operate o).actions, Q a := by
  cases o with
  | clear =>
    rw [Scroll.operate]
    exact hclear trivial
  | addText text r g b => exact tickerAddText_rule hletter text r g b h
  | addLetter letter r g b => exact tickerAddLetter_rule hletter letter r g b h
  | setText text r g b =>
    obtain ⟨hstate, hactions⟩ := hclear trivial
    obtain ⟨hadded, hmore⟩ := tickerAddText_rule hletter text r g b hstate
    rw [Scroll.operate, Scroll.tickerSetText]
    exact ⟨hadded, List.forall_mem_append.mpr ⟨hactions, hmore⟩⟩
  | setCharMask char rows =>
    rw [Scroll.operate, (tickerSetCharMask_kept s char rows).1, (tickerSetCharMask_kept s char rows).2]
    exact ⟨h, fun _ ha => absurd ha List.not_mem_nil⟩
  | setBrightness brightness => exact ⟨hbrightness _ _ h, fun _ ha => absurd ha List.not_mem_nil⟩

theorem performAll_rule (hreached : ∀ t, I t → Q (.reached t.used t.position)) (os : List Operation) {s : Scroll}
    (hclear : ∀ o ∈ os, o.Clears → ∀ s : Scroll, I s.ticker →
      I s.tickerClear.state.ticker ∧ ∀ a ∈ s.tickerClear.actions, Q a) (h : I s.ticker) :
    I (s.performAll os).1.ticker ∧ ∀ a ∈ (s.performAll os).2, Q a := by
  induction os generalizing s with
  | nil => exact ⟨h, fun _ ha => absurd ha List.not_mem_nil⟩
  | cons o os ih =>
    obtain ⟨hstate, hactions⟩ := operate_rule hletter hbrightness o
      (fun ho => hclear o List.mem_cons_self ho s h) h
    obtain ⟨hrest, hmore⟩ := ih (fun x hx => hclear x (List.mem_cons_of_mem o hx)) hstate
    refine ⟨hrest, List.forall_mem_append.mpr ⟨List.forall_mem_append.mpr ⟨hactions, ?_⟩, hmore⟩⟩
    exact List.forall_mem_singleton.mpr (hreached _ hstate)

end Rule

/-- The length and the callback are as the setup left them. -/
theorem operate_fixed (o : Operation) (s : Scroll) :
    (s.operate o).state.ticker.length = s.ticker.length ∧
      (s.operate o).state.ticker.callback = s.ticker.callback := by
  have hrule := operate_rule (I := fun t => t.length = s.ticker.length ∧ t.callback = s.ticker.callback)
    (Q := fun _ => True) (s := s) ?_ ?_ o ?_ ⟨rfl, rfl⟩
  · exact hrule.1
  · intro t mask r g b ht _
    obtain ⟨buffer, hstate, -⟩ := t.addLetter_state mask r g b
    rw [hstate]
    exact ⟨ht, fun _ _ => trivial⟩
  · exact fun _ _ ht => ht
  · intro _
    obtain ⟨buffer, hstate, -⟩ := tickerClear_state s
    rw [hstate]
    exact ⟨⟨rfl, rfl⟩, fun _ _ => trivial⟩

theorem performAll_fixed (os : List Operation) (s : Scroll) :
    (s.performAll os).1.ticker.length = s.ticker.length ∧
      (s.performAll os).1.ticker.callback = s.ticker.callback := by
  induction os generalizing s with
  | nil => exact ⟨rfl, rfl⟩
  | cons o os ih =>
    obtain ⟨hlength, hcallback⟩ := operate_fixed o s
    obtain ⟨hlength', hcallback'⟩ := ih (s.operate o).state
    exact ⟨hlength'.trans hlength, hcallback'.trans hcallback⟩

/-! ### What a tick can do -/

theorem mem_drawPlaces {t : Ticker} {s : Strip} {l : List (Nat × Nat)} {a : TickerAction}
    (ha : a ∈ (t.drawPlaces s l).2) :
    (∃ x, a = .strip x) ∨ ∃ place ∈ l, ∃ k < 3, a = .buffer (t.shownIndex place.1 place.2 k) := by
  induction l generalizing s with
  | nil => exact absurd ha List.not_mem_nil
  | cons place l ih =>
    obtain ⟨row, column⟩ := place
    rw [Ticker.drawPlaces, List.mem_append, List.mem_append] at ha
    rcases ha with (ha | ha) | ha
    · obtain ⟨k, hk, rfl⟩ := List.mem_map.mp ha
      exact Or.inr ⟨(row, column), List.mem_cons_self, k, List.mem_range.mp hk, rfl⟩
    · obtain ⟨x, -, rfl⟩ := List.mem_map.mp ha
      exact Or.inl ⟨x, rfl⟩
    · rcases ih ha with hstrip | ⟨place, hplace, hbuffer⟩
      · exact Or.inl hstrip
      · exact Or.inr ⟨place, List.mem_cons_of_mem _ hplace, hbuffer⟩

theorem mem_draw {t : Ticker} {s : Strip} {a : TickerAction} (ha : a ∈ (t.draw s).2) :
    (∃ x, a = .strip x) ∨
      ∃ row column k, row < 6 ∧ column < 10 ∧ k < 3 ∧ a = .buffer (t.shownIndex row column k) := by
  rw [Ticker.draw] at ha
  rcases List.mem_append.mp ha with ha | ha
  · rcases mem_drawPlaces ha with hstrip | ⟨⟨row, column⟩, hplace, k, hk, rfl⟩
    · exact Or.inl hstrip
    · simp only [Ticker.places, List.mem_flatMap, List.mem_map, List.mem_range, Prod.mk.injEq] at hplace
      obtain ⟨row', hrow, column', hcolumn, rfl, rfl⟩ := hplace
      exact Or.inr ⟨row', column', k, hrow, hcolumn, hk, rfl⟩
  · obtain ⟨x, -, rfl⟩ := List.mem_map.mp ha
    exact Or.inl ⟨x, rfl⟩

namespace Scroll

variable {s : Scroll} (callback : List Operation)

/-- The state in which the scroll callback starts. -/
def rewound (s : Scroll) : Scroll :=
  { s with ticker := { s.ticker with position := 0 }, strip := (s.ticker.draw s.strip).1 }

/-- The operations of the scroll callback, if there is one. -/
def called (s : Scroll) (callback : List Operation) : List Operation :=
  if s.ticker.callback then callback else []

def advance (s : Scroll) : Scroll :=
  { s with ticker := { s.ticker with position := wrap32 (s.ticker.position + 1) } }

theorem tickerScrollCb_empty (h : s.ticker.used = 0) : s.tickerScrollCb callback = (s, []) := by
  rw [tickerScrollCb, if_pos h]

theorem tickerScrollCb_within (h : s.ticker.used ≠ 0) (hend : ¬ s.ticker.AtEnd) :
    s.tickerScrollCb callback =
      ({ s with strip := (s.ticker.draw s.strip).1 }.advance, (s.ticker.draw s.strip).2) := by
  rw [tickerScrollCb, if_neg h]
  simp only [if_neg hend, List.append_nil]
  rfl

theorem tickerScrollCb_end (h : s.ticker.used ≠ 0) (hend : s.ticker.AtEnd) :
    s.tickerScrollCb callback =
      ((s.rewound.performAll (s.called callback)).1.advance,
        (s.ticker.draw s.strip).2 ++ .finished s.ticker.callback :: .reached s.ticker.used 0 ::
          (s.rewound.performAll (s.called callback)).2) := by
  rw [tickerScrollCb, if_neg h]
  simp only [if_pos hend]
  rfl

end Scroll

theorem ticking_fixed (s : Scroll) (e : TickerEvent) :
    (ticking.next s e).ticker.length = s.ticker.length ∧
      (ticking.next s e).ticker.callback = s.ticker.callback := by
  cases e with
  | operation o => exact operate_fixed o s
  | tick callback =>
    change (s.tickerScrollCb callback).1.ticker.length = _ ∧ (s.tickerScrollCb callback).1.ticker.callback = _
    by_cases hused : s.ticker.used = 0
    · rw [Scroll.tickerScrollCb_empty callback hused]
      exact ⟨rfl, rfl⟩
    · by_cases hend : s.ticker.AtEnd
      · rw [Scroll.tickerScrollCb_end callback hused hend]
        exact performAll_fixed (s.called callback) s.rewound
      · rw [Scroll.tickerScrollCb_within callback hused hend]
        exact ⟨rfl, rfl⟩

end EspClock.Led
