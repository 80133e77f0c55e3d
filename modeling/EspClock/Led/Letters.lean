import EspClock.Lib.Scatter
import EspClock.Led.TickerBounds

/-!
# Letters in the rows

The columns of a letter go to the same offset of all six rows, behind what is used, and nothing else of the buffer
changes. So a text fits exactly as far as there are twelve free bytes for each of its letters, and its letters
stand one behind another. The glyph of a letter comes out of `add_letter` the way round that `set_char_mask` packed
it: its last row is the first one shown, and the highest bit of a row the first column.

A ticker has the six rows of `m_Length` bytes that its setup allocates.
-/

namespace EspClock.Led

open Mem

/-- The six rows are in memory. -/
structure Ticker.Allocated (t : Ticker) : Prop where
  size : t.buffer.length = 6 * t.length
  addressable : 6 * t.length < 2 ^ 32

/-- The bytes of a letter at an offset of the rows. -/
def Ticker.HasLetter (t : Ticker) (offset mask r g b : Nat) : Prop :=
  ∀ row < 6, ∀ column < 4, ∀ k < 3,
    t.buffer[row * t.length + offset + column * 3 + k]? =
      some (UInt8.ofNat (glyphBit mask row column * [r, g, b].getD k 0))

/-- Only bytes from an offset of the rows up to another one differ. -/
def Ticker.ChangedWithin (t t' : Ticker) (lo hi : Nat) : Prop :=
  ∀ i, (∀ row < 6, i < row * t.length + lo ∨ row * t.length + hi ≤ i) → t'.buffer[i]? = t.buffer[i]?

namespace Ticker

variable {t t' t'' : Ticker} {lo hi mid : Nat}

theorem ChangedWithin.refl (t : Ticker) (lo hi : Nat) : t.ChangedWithin t lo hi := fun _ _ => rfl

theorem ChangedWithin.trans (hlength : t'.length = t.length) (hlo : lo ≤ mid) (hhi : mid ≤ hi)
    (h : t.ChangedWithin t' lo mid) (h' : t'.ChangedWithin t'' mid hi) : t.ChangedWithin t'' lo hi := by
  intro i hi'
  have hfirst : ∀ row < 6, i < row * t.length + lo ∨ row * t.length + mid ≤ i := by
    intro row hrow
    have hrow' := hi' row hrow
    omega
  have hsecond : ∀ row < 6, i < row * t'.length + mid ∨ row * t'.length + hi ≤ i := by
    intro row hrow
    have hrow' := hi' row hrow
    rw [hlength]
    omega
  rw [h' i hsecond, h i hfirst]

/-! ### One letter -/

/-- What a block of columns stores. -/
def fillStores (t : Ticker) (used : Nat) (value : Nat × Nat × Nat → Nat) (l : List (Nat × Nat × Nat)) :
    List (Nat × UInt8) :=
  l.map fun cell => (t.index used cell, UInt8.ofNat (value cell))

theorem fill_buffer (t : Ticker) (used : Nat) (value : Nat × Nat × Nat → Nat) (l : List (Nat × Nat × Nat)) :
    (t.fill used value l).1.buffer = scatter t.buffer (t.fillStores used value l) := by
  induction l generalizing t with
  | nil => rfl
  | cons cell rest ih =>
    rw [fill]
    exact ih { t with buffer := t.buffer.set (t.index used cell) (UInt8.ofNat (value cell)) }

/-- The indices of a block of columns inside the rows. -/
theorem index_eq (h : t.Allocated) {used : Nat} {cell : Nat × Nat × Nat} (hrow : cell.1 < 6)
    (hoffset : used + cell.2.1 * 3 + cell.2.2 < t.length) :
    t.index used cell = cell.1 * t.length + used + cell.2.1 * 3 + cell.2.2 := by
  have hlt := row_lt hrow hoffset
  have hsize := h.addressable
  rw [index, wrap32_of_lt (by omega), Nat.mul_comm t.length]
  omega

/-- An index determines its row and its offset. -/
theorem row_offset_injective {length row row' offset offset' : Nat} (hoffset : offset < length)
    (hoffset' : offset' < length) (heq : row * length + offset = row' * length + offset') :
    row = row' ∧ offset = offset' := by
  have hpos : 0 < length := by omega
  have hdiv := congrArg (· / length) heq
  have hmod := congrArg (· % length) heq
  simp only [Nat.mul_comm _ length, Nat.mul_add_div hpos, Nat.mul_add_mod, Nat.div_eq_of_lt, Nat.mod_eq_of_lt, hoffset,
    hoffset', Nat.add_zero] at hdiv hmod
  exact ⟨hdiv, hmod⟩

/-- No two cells of a letter have the same index. -/
theorem nodup_fillStores (h : t.Allocated) {used : Nat} (hroom : used + 12 ≤ t.length)
    (value : Nat × Nat × Nat → Nat) : ((t.fillStores used value (cells 4)).map Prod.fst).Nodup := by
  have hcells : (cells 4).Nodup := by decide
  have hfst : (t.fillStores used value (cells 4)).map Prod.fst = (cells 4).map (t.index used) := by
    rw [fillStores, List.map_map]
    rfl
  rw [hfst]
  refine hcells.map_on fun a ha b hb heq => ?_
  obtain ⟨harow, hacolumn, hak⟩ := mem_cells.mp ha
  obtain ⟨hbrow, hbcolumn, hbk⟩ := mem_cells.mp hb
  rw [index_eq h harow (by omega), index_eq h hbrow (by omega)] at heq
  obtain ⟨hrow, hoffset⟩ := @row_offset_injective t.length a.1 b.1 (used + a.2.1 * 3 + a.2.2) (used + b.2.1 * 3 + b.2.2)
    (by omega) (by omega) (by omega)
  exact Prod.ext hrow (Prod.ext (by omega) (by omega))

theorem not_isFull_iff (h : t.Allocated) (hused : t.used ≤ t.length) : ¬ t.isFull ↔ t.used + 12 ≤ t.length := by
  have hsize := h.addressable
  rw [isFull, sub32_of_le hused (by omega)]
  omega

/-- A block of four columns holds what it is filled with. -/
theorem fill_getElem? (h : t.Allocated) {used : Nat} (hroom : used + 12 ≤ t.length) (value : Nat × Nat × Nat → Nat)
    {row column k : Nat} (hrow : row < 6) (hcolumn : column < 4) (hk : k < 3) :
    (t.fill used value (cells 4)).1.buffer[row * t.length + used + column * 3 + k]? =
      some (UInt8.ofNat (value (row, column, k))) := by
  have hcell : (row, column, k) ∈ cells 4 := mem_cells.mpr ⟨hrow, hcolumn, hk⟩
  have hoffset : used + column * 3 + k < t.length := by omega
  have hindex : t.index used (row, column, k) = row * t.length + used + column * 3 + k :=
    @index_eq t h used (row, column, k) hrow hoffset
  have hlt : t.index used (row, column, k) < t.buffer.length := by
    rw [h.size]
    exact @index_of_lt t.length t used (row, column, k) h.addressable rfl hrow hoffset
  have hstore : (t.index used (row, column, k), UInt8.ofNat (value (row, column, k))) ∈
      t.fillStores used value (cells 4) := List.mem_map_of_mem hcell
  rw [fill_buffer, ← hindex]
  exact getElem?_scatter_of_mem (nodup_fillStores h hroom value) hstore hlt

/-- A block of four columns leaves the rest of the buffer alone. -/
theorem fill_changed (h : t.Allocated) {used : Nat} (hroom : used + 12 ≤ t.length) (value : Nat × Nat × Nat → Nat) :
    t.ChangedWithin (t.fill used value (cells 4)).1 used (used + 12) := by
  intro i hi
  rw [fill_buffer]
  refine getElem?_scatter_of_ne fun p hp => ?_
  obtain ⟨cell, hcell, rfl⟩ := List.mem_map.mp hp
  obtain ⟨hrow, hcolumn, hk⟩ := mem_cells.mp hcell
  have hrow' := hi cell.1 hrow
  show t.index used cell ≠ i
  rw [index_eq h hrow (by omega)]
  omega

/-- A letter goes to the first free bytes of the rows. -/
structure Lettered (t t' : Ticker) (mask r g b : Nat) : Prop where
  length : t'.length = t.length
  allocated : t'.Allocated
  used : t'.used = t.used + 12
  letter : t'.HasLetter t.used mask r g b
  changed : t.ChangedWithin t' t.used (t.used + 12)

theorem addLetter_buffer (t : Ticker) (mask r g b : Nat) :
    (t.addLetter mask r g b).1.buffer =
      (t.fill t.used (fun cell => glyphBit mask cell.1 cell.2.1 * [r, g, b].getD cell.2.2 0) (cells 4)).1.buffer := by
  rw [addLetter]

theorem addLetter_lettered (h : t.Allocated) (hroom : t.used + 12 ≤ t.length) (mask r g b : Nat) :
    t.Lettered (t.addLetter mask r g b).1 mask r g b := by
  have hsize := h.addressable
  obtain ⟨buffer, hstate, hbuffer⟩ := t.addLetter_state mask r g b
  have hlength : (t.addLetter mask r g b).1.length = t.length := by rw [hstate]
  refine ⟨hlength, ?_, ?_, ?_, ?_⟩
  · rw [hstate]
    exact ⟨hbuffer.trans h.size, hsize⟩
  · rw [hstate]
    exact wrap32_of_lt (by omega)
  · intro row hrow column hcolumn k hk
    rw [hlength, addLetter_buffer]
    exact fill_getElem? h hroom (fun cell => glyphBit mask cell.1 cell.2.1 * [r, g, b].getD cell.2.2 0) hrow hcolumn hk
  · intro i hi
    rw [addLetter_buffer]
    exact fill_changed h hroom (fun cell => glyphBit mask cell.1 cell.2.1 * [r, g, b].getD cell.2.2 0) i hi

/-! ### Texts -/

/-- A letter is not touched by changes behind it. -/
theorem HasLetter.of_changed {offset mask r g b : Nat} (h : t.HasLetter offset mask r g b) (hlength : t'.length = t.length)
    (hchanged : t.ChangedWithin t' lo hi) (hlo : offset + 12 ≤ lo) (hhi : hi ≤ t.length) :
    t'.HasLetter offset mask r g b := by
  intro row hrow column hcolumn k hk
  rw [hlength, ← h row hrow column hcolumn k hk]
  refine hchanged _ fun row' _ => ?_
  rcases lt_trichotomy row row' with hlt | rfl | hlt
  · have hle : row * t.length + t.length ≤ row' * t.length := by
      rw [← Nat.succ_mul]
      exact Nat.mul_le_mul_right _ hlt
    omega
  · omega
  · have hle : row' * t.length + t.length ≤ row * t.length := by
      rw [← Nat.succ_mul]
      exact Nat.mul_le_mul_right _ hlt
    omega

/-- As many letters as fit, one behind another. -/
structure Texted (font : Nat → Nat) (r g b : Nat) (letters : List Nat) (t t' : Ticker) : Prop where
  length : t'.length = t.length
  used : t'.used = t.used + 12 * min letters.length ((t.length - t.used) / 12)
  letter : ∀ i c, letters[i]? = some c → i < (t.length - t.used) / 12 →
    t'.HasLetter (t.used + 12 * i) (font c) r g b
  changed : t.ChangedWithin t' t.used t'.used

/-- The loop stops at the first letter that does not fit. -/
theorem addLetters_texted (font : Nat → Nat) (r g b : Nat) (letters : List Nat) (h : t.Allocated)
    (hused : t.used ≤ t.length) :
    Texted font r g b letters t (addLetters font r g b (letters.map some) t).1 ∧
      (addLetters font r g b (letters.map some) t).2.2 =
        if 12 * letters.length ≤ t.length - t.used then none else some full := by
  induction letters generalizing t with
  | nil =>
    refine ⟨⟨rfl, ?_, fun i c hc => absurd hc (by simp), ChangedWithin.refl t _ _⟩, (if_pos (Nat.zero_le _)).symm⟩
    rw [List.length_nil, Nat.zero_min]
    rfl
  | cons c rest ih =>
    have hfits := not_isFull_iff h hused
    rw [List.map_cons, addLetters]
    by_cases hfull : t.isFull
    · have hshort : t.length - t.used < 12 := by
        by_contra hroom
        exact hfits.mpr (by omega) hfull
      rw [if_pos hfull, if_neg (by rw [List.length_cons]; omega)]
      refine ⟨⟨rfl, ?_, fun i c _ hi => ?_, ChangedWithin.refl t _ _⟩, rfl⟩
      · rw [Nat.div_eq_of_lt hshort, Nat.min_zero]
        rfl
      · rw [Nat.div_eq_of_lt hshort] at hi
        exact absurd hi (Nat.not_lt_zero i)
    · have hroom := hfits.mp hfull
      have hletter := addLetter_lettered h hroom (font c) r g b
      rw [if_neg hfull]
      dsimp only
      set t' := (t.addLetter (font c) r g b).1 with ht'
      have hused' : t'.used ≤ t'.length := by
        rw [hletter.used, hletter.length]
        exact hroom
      obtain ⟨htext, herror⟩ := ih hletter.allocated hused'
      have hfree : (t'.length - t'.used) / 12 + 1 = (t.length - t.used) / 12 := by
        rw [hletter.used, hletter.length]
        omega
      have hend : (addLetters font r g b (rest.map some) t').1.used ≤ t'.length := by
        rw [htext.used]
        omega
      have hstart : t'.used ≤ (addLetters font r g b (rest.map some) t').1.used := by
        rw [htext.used]
        exact Nat.le_add_right _ _
      refine ⟨⟨htext.length.trans hletter.length, ?_, fun i x hx hi => ?_, ?_⟩, ?_⟩
      · have hsum := htext.used
        have hfirst := hletter.used
        rw [List.length_cons]
        omega
      · cases i with
        | zero =>
          obtain rfl : c = x := Option.some.inj hx
          exact hletter.letter.of_changed htext.length htext.changed hletter.used.ge hend
        | succ i =>
          have hrest := htext.letter i x hx (by omega)
          rw [hletter.used] at hrest
          rwa [show t.used + 12 + 12 * i = t.used + 12 * (i + 1) by omega] at hrest
      · refine hletter.changed.trans hletter.length (Nat.le_add_right _ _) (hletter.used.ge.trans hstart) ?_
        rw [← hletter.used]
        exact htext.changed
      · rw [herror, hletter.used, hletter.length]
        refine if_congr ?_ rfl rfl
        rw [List.length_cons]
        omega

end Ticker

/-- What `ticker_add_text` does with a text. -/
structure TextAdded (s : Scroll) (text : List UInt8) (r g b : Nat) (e : Effect) : Prop where
  succeeds_iff : e.error = none ↔ 12 * text.length ≤ s.ticker.length - s.ticker.used
  fails : e.error ≠ none → e.error = some Ticker.full
  all_letters : e.error = none → e.state.ticker.used = s.ticker.used + 12 * text.length
  some_letters : e.error = some Ticker.full →
    e.state.ticker.used = s.ticker.used + 12 * ((s.ticker.length - s.ticker.used) / 12)
  letter : ∀ i c, text[i]? = some c → s.ticker.used + 12 * (i + 1) ≤ e.state.ticker.used →
    e.state.ticker.HasLetter (s.ticker.used + 12 * i) (s.font c.toNat) r g b
  changed : s.ticker.ChangedWithin e.state.ticker s.ticker.used e.state.ticker.used

/-- A text fits exactly when there are twelve free bytes for each letter, and as much of it as fits is appended. -/
theorem tickerAddText_exact (s : Scroll) (hmemory : s.ticker.Allocated) (hused : s.ticker.used ≤ s.ticker.length)
    (text : List UInt8) (integer : Option Int) (r g b : LuaValue) (color : Nat × Nat × Nat)
    (hcolor : Scroll.colorArguments r g b = .ok color) :
    TextAdded s text color.1 color.2.1 color.2.2 (s.tickerAddText (.string text integer) r g b) := by
  obtain ⟨cr, cg, cb⟩ := color
  have hletters : textLetters (.string text integer) = some ((text.map UInt8.toNat).map some) := by
    rw [List.map_map]
    rfl
  obtain ⟨htext, herror⟩ := Ticker.addLetters_texted s.font cr cg cb (text.map UInt8.toNat) hmemory hused
  have heffect : s.tickerAddText (.string text integer) r g b =
      ⟨{ s with ticker := (Ticker.addLetters s.font cr cg cb ((text.map UInt8.toNat).map some) s.ticker).1 },
        (Ticker.addLetters s.font cr cg cb ((text.map UInt8.toNat).map some) s.ticker).2.1,
        (Ticker.addLetters s.font cr cg cb ((text.map UInt8.toNat).map some) s.ticker).2.2⟩ := by
    rw [Scroll.tickerAddText, hcolor, hletters]
  have hlength : (text.map UInt8.toNat).length = text.length := List.length_map _
  have htotal := htext.used
  rw [hlength] at herror htotal
  rw [heffect]
  refine ⟨?_, ?_, ?_, ?_, fun i c hc hi => ?_, htext.changed⟩
  · dsimp only
    rw [herror]
    split_ifs with hfits
    · exact iff_of_true rfl hfits
    · exact iff_of_false (fun h => nomatch h) hfits
  · dsimp only
    rw [herror]
    split_ifs with hfits
    · exact fun h => absurd rfl h
    · exact fun _ => rfl
  · dsimp only
    rw [herror, htotal]
    split_ifs with hfits
    · intro _
      omega
    · exact fun h => nomatch h
  · dsimp only
    rw [herror, htotal]
    split_ifs with hfits
    · exact fun h => nomatch h
    · intro _
      omega
  · have hi' : i < (s.ticker.length - s.ticker.used) / 12 := by
      dsimp only at hi
      omega
    refine htext.letter i c.toNat ?_ hi'
    rw [List.getElem?_map, hc]
    rfl

/-- A ticker with room for two letters. -/
def Ticker.twoLetters : Ticker := ⟨24, 0, 0, List.replicate 144 0, id, false⟩

theorem tickerAddText_exact_two_of_three :
    TextAdded ⟨.twoLetters, .single, fun _ => 0xF6F999⟩ [97, 98, 99] 1 2 3
      (Scroll.tickerAddText ⟨.twoLetters, .single, fun _ => 0xF6F999⟩ (.string [97, 98, 99] none)
        (.number [49] 1) (.number [50] 2) (.number [51] 3)) :=
  tickerAddText_exact ⟨.twoLetters, .single, fun _ => 0xF6F999⟩ ⟨List.length_replicate, by decide⟩ (by decide) [97, 98, 99] none
    (.number [49] 1) (.number [50] 2) (.number [51] 3) (1, 2, 3) rfl

/-! ### Glyphs -/

/-- A bit of a glyph is a bit of its mask. -/
theorem glyphBit_eq (mask : Nat) {row column : Nat} (hrow : row < 6) (hcolumn : column < 4) :
    glyphBit mask row column = (mask.testBit (4 * (5 - row) + (3 - column))).toNat := by
  have hnibble : ((mask >>> (20 - 4 * row)) % 2 ^ 4).testBit (3 - column) =
      mask.testBit (4 * (5 - row) + (3 - column)) := by
    rw [Nat.testBit_mod_two_pow, Nat.testBit_shiftRight, decide_eq_true (by omega), Bool.true_and]
    congr 1
    omega
  rw [← hnibble, Nat.toNat_testBit, glyphBit, Nat.shiftRight_eq_div_pow _ (3 - column)]
  rfl

/-- The rows of a table argument. -/
def IsRows (elements : List LuaValue) (rows : List Nat) : Prop :=
  elements.map LuaValue.integer? = rows.map fun n : Nat => some (n : Int)

/-- Every row has four bits of the mask. -/
theorem composeMask_spec {elements : List LuaValue} {rows : List Nat} (hrows : IsRows elements rows)
    (hnibbles : ∀ n ∈ rows, n < 16) {i : Nat} (hroom : i + rows.length ≤ 8) (mask : Nat) :
    ∃ mask', Scroll.composeMask i mask elements = some mask' ∧
      ∀ j q, q < 4 → mask'.testBit (4 * j + q) =
        (mask.testBit (4 * j + q) || (decide (i ≤ j) && (rows.getD (j - i) 0).testBit q)) := by
  induction elements generalizing rows i mask with
  | nil =>
    cases rows with
    | nil => exact ⟨mask, rfl, fun j q _ => by simp⟩
    | cons n rows => exact nomatch hrows
  | cons v elements ih =>
    cases rows with
    | nil => exact nomatch hrows
    | cons n rows =>
      obtain ⟨hv, hrest⟩ := List.cons.inj hrows
      obtain ⟨hn, hnibbles⟩ := List.forall_mem_cons.mp hnibbles
      rw [List.length_cons] at hroom
      obtain ⟨mask', hmask, hbits⟩ := @ih rows hrest hnibbles (i + 1) (by omega) (mask ||| word32 (n * 2 ^ (4 * i)))
      refine ⟨mask', ?_, fun j q hq => ?_⟩
      · rw [Scroll.composeMask, hv]
        exact hmask
      · have hword : word32 ((n : Int) * 2 ^ (4 * i)) = n * 2 ^ (4 * i) := by
          have hlt : n * 2 ^ (4 * i) < 2 ^ 32 := by
            calc n * 2 ^ (4 * i) < 2 ^ 4 * 2 ^ (4 * i) := Nat.mul_lt_mul_of_pos_right hn (Nat.two_pow_pos _)
              _ = 2 ^ (4 + 4 * i) := (Nat.pow_add 2 4 (4 * i)).symm
              _ ≤ 2 ^ 32 := Nat.pow_le_pow_right (by decide) (by omega)
          rw [word32, show (n : Int) * 2 ^ (4 * i) = ((n * 2 ^ (4 * i) : Nat) : Int) by push_cast; rfl]
          omega
        rw [hbits j q hq, hword, Nat.testBit_or, Nat.testBit_mul_two_pow]
        rw [Bool.or_assoc]
        congr 1
        rcases lt_trichotomy j i with hlt | rfl | hlt
        · rw [decide_eq_false (by omega), decide_eq_false (by omega), decide_eq_false (by omega), Bool.false_and,
            Bool.false_and, Bool.false_and, Bool.or_false]
        · rw [decide_eq_true (by omega), decide_eq_false (by omega), decide_eq_true (by omega), Bool.true_and,
            Bool.false_and, Bool.true_and, Bool.or_false, Nat.add_sub_cancel_left, Nat.sub_self, List.getD_cons_zero]
        · have hsmall : n.testBit (4 * j + q - 4 * i) = false :=
            Nat.testBit_lt_two_pow (hn.trans_le (Nat.pow_le_pow_right Nat.two_pos (show 4 ≤ 4 * j + q - 4 * i by omega)))
          rw [hsmall, Bool.and_false, Bool.false_or, decide_eq_true (by omega), decide_eq_true (by omega), Bool.true_and,
            Bool.true_and, show j - i = j - (i + 1) + 1 by omega, List.getD_cons_succ]

/-- The bytes of a glyph of six rows at an offset of the rows of the ticker. -/
def Ticker.HasGlyph (t : Ticker) (offset : Nat) (rows : List Nat) (r g b : Int) : Prop :=
  ∀ row < 6, ∀ column < 4, ∀ k < 3,
    t.buffer[row * t.length + offset + column * 3 + k]? =
      some (if (rows.getD (5 - row) 0).testBit (3 - column) then UInt8.ofNat ([r, g, b].getD k 0 % 256).toNat else 0)

/-- What a definition of a glyph and a letter with it leave. -/
structure Drawn (s : Scroll) (c : UInt8) (rows : List Nat) (r g b : Int) (e e' : Effect) : Prop where
  defined : e.error = none
  added : e'.error = none
  used : e'.state.ticker.used = s.ticker.used + 12
  glyph : e'.state.ticker.HasGlyph s.ticker.used rows r g b
  changed : s.ticker.ChangedWithin e'.state.ticker s.ticker.used (s.ticker.used + 12)
  font : ∀ j, j ≠ c.toNat → e'.state.font j = s.font j

/-- A letter is drawn as its glyph was defined. -/
theorem glyph_drawn (s : Scroll) (hmemory : s.ticker.Allocated) (hroom : s.ticker.used + 12 ≤ s.ticker.length) (c : UInt8)
    (char : Option Int) (elements : List LuaValue) (rows : List Nat) (hsix : rows.length = 6)
    (hrows : IsRows elements rows) (hnibbles : ∀ n ∈ rows, n < 16) (r g b : LuaValue) (cr cg cb : Int)
    (hr : r.integer? = some cr) (hg : g.integer? = some cg) (hb : b.integer? = some cb) :
    Drawn s c rows cr cg cb (s.tickerSetCharMask (.string [c] char) (.table elements))
      ((s.tickerSetCharMask (.string [c] char) (.table elements)).state.tickerAddLetter (.string [c] char) r g b) := by
  have hlength : elements.length = 6 := by
    have hboth := congrArg List.length hrows
    rw [List.length_map, List.length_map, hsix] at hboth
    exact hboth
  obtain ⟨mask, hmask, hbits⟩ := @composeMask_spec elements rows hrows hnibbles 0 (by omega) 0
  have hdefine : s.tickerSetCharMask (.string [c] char) (.table elements) =
      ⟨{ s with font := fun j => if j = c.toNat then mask else s.font j }, [], none⟩ := by
    have hindex : charIndex (.string [c] char) = some c.toNat := rfl
    rw [Scroll.tickerSetCharMask, hindex]
    dsimp only
    rw [if_neg (not_not.mpr hlength), hmask]
  have hcolor : Scroll.colorArguments r g b = .ok (word32 cr, word32 cg, word32 cb) := by
    rw [Scroll.colorArguments, hr, hg, hb]
  set t' := (s.ticker.addLetter mask (word32 cr) (word32 cg) (word32 cb)).1 with ht'
  have hadd : ∃ actions, Scroll.tickerAddLetter { s with font := fun j => if j = c.toNat then mask else s.font j }
      (.string [c] char) r g b =
        ⟨{ s with ticker := t', font := fun j => if j = c.toNat then mask else s.font j }, actions, none⟩ := by
    have hfull := (Ticker.not_isFull_iff hmemory (by omega)).mpr hroom
    have hindex : charIndex (.string [c] char) = some c.toNat := rfl
    rw [Scroll.tickerAddLetter, if_neg hfull, hindex, hcolor]
    dsimp only
    rw [if_pos rfl]
    exact ⟨_, rfl⟩
  obtain ⟨actions, hadd⟩ := hadd
  have hletter := Ticker.addLetter_lettered hmemory hroom mask (word32 cr) (word32 cg) (word32 cb)
  rw [hdefine, hadd]
  refine ⟨rfl, rfl, hletter.used, ?_, hletter.changed, fun j hj => if_neg hj⟩
  intro row hrow column hcolumn k hk
  have hbit : mask.testBit (4 * (5 - row) + (3 - column)) = (rows.getD (5 - row) 0).testBit (3 - column) := by
    rw [hbits (5 - row) (3 - column) (by omega), Nat.zero_testBit, Bool.false_or, decide_eq_true (Nat.zero_le _),
      Bool.true_and, Nat.sub_zero]
  have hword : [word32 cr, word32 cg, word32 cb].getD k 0 = word32 ([cr, cg, cb].getD k 0) := by
    obtain rfl | rfl | rfl : k = 0 ∨ k = 1 ∨ k = 2 := by omega
    · rfl
    · rfl
    · rfl
  have hbyte : ∀ z : Int, UInt8.ofNat (word32 z) = UInt8.ofNat (z % 256).toNat := by
    intro z
    apply UInt8.toNat_inj.mp
    rw [UInt8.toNat_ofNat', UInt8.toNat_ofNat', word32]
    omega
  rw [hletter.letter row hrow column hcolumn k hk, glyphBit_eq mask hrow hcolumn, hbit, hword]
  cases (rows.getD (5 - row) 0).testBit (3 - column) with
  | false => rw [Bool.toNat_false, Nat.zero_mul, if_neg Bool.false_ne_true]; rfl
  | true => rw [Bool.toNat_true, Nat.one_mul, if_pos rfl, hbyte]

/-- The letter `L`, in the lowest three columns. -/
theorem glyph_drawn_corner :
    Drawn ⟨.twoLetters, .single, fun _ => 0⟩ 76 [7, 4, 4, 4, 4, 0] (-1) 256 3
      (Scroll.tickerSetCharMask ⟨.twoLetters, .single, fun _ => 0⟩ (.string [76] none)
        (.table [.number [] 7, .number [] 4, .number [] 4, .number [] 4, .number [] 4, .number [] 0]))
      (Scroll.tickerAddLetter
        (Scroll.tickerSetCharMask ⟨.twoLetters, .single, fun _ => 0⟩ (.string [76] none)
          (.table [.number [] 7, .number [] 4, .number [] 4, .number [] 4, .number [] 4, .number [] 0])).state
        (.string [76] none) (.number [] (-1)) (.number [] 256) (.number [] 3)) :=
  glyph_drawn ⟨.twoLetters, .single, fun _ => 0⟩ ⟨List.length_replicate, by decide⟩ (by decide) 76 none
    [.number [] 7, .number [] 4, .number [] 4, .number [] 4, .number [] 4, .number [] 0] [7, 4, 4, 4, 4, 0] rfl rfl
    (by decide) (.number [] (-1)) (.number [] 256) (.number [] 3) (-1) 256 3 rfl rfl rfl

end EspClock.Led
