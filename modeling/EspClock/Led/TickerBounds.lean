import EspClock.Led.Ticker

/-!
# The bounds of the ticker's buffer

The six rows share one allocation of `6 * m_Length` bytes. A letter is added only where `m_Length` still
has room for it and a tick reads below `m_Used`, so both stay inside their row; `ticker_clear` fills 30
bytes of every row without looking at `m_Length`. As long as the size of the allocation does not
overflow, a run stays inside the buffer exactly when it never clears a ticker of less than 30 bytes a row.
-/

namespace EspClock.Led

open Mem

/-- An index into the ticker's buffer is below the number of bytes allocated. -/
def TickerAction.InBounds (size : Nat) : TickerAction → Prop
  | .buffer i => i < size
  | _ => True

/-- A ticker of less than 30 bytes a row is not cleared, nor is it by the callback of a tick. -/
def NoShortClear (s : Scroll) (e : TickerEvent) : Prop :=
  s.ticker.length < 30 →
    match e with
    | .operation o => ¬ o.Clears
    | .tick callback => s.ticker.used ≠ 0 → s.ticker.AtEnd → ∀ o ∈ s.called callback, ¬ o.Clears

variable {n : Nat}

/-! ### Accesses inside the rows -/

/-- Bytes below `n` of the six rows of `n` bytes. -/
theorem row_lt {row offset : Nat} (hrow : row < 6) (hoffset : offset < n) : offset + n * row < 6 * n := by
  have hle : n * row ≤ n * 5 := Nat.mul_le_mul_left n (by omega)
  omega

theorem index_of_lt {t : Ticker} {used : Nat} {cell : Nat × Nat × Nat} (hsize : 6 * n < 2 ^ 32)
    (hlength : t.length = n) (hrow : cell.1 < 6) (hoffset : used + cell.2.1 * 3 + cell.2.2 < n) :
    t.index used cell < 6 * n := by
  have hlt := row_lt hrow hoffset
  rw [Ticker.index, hlength, show used + n * cell.1 + cell.2.1 * 3 + cell.2.2 =
    used + cell.2.1 * 3 + cell.2.2 + n * cell.1 by omega, wrap32_of_lt (by omega)]
  exact hlt

/-- A ticker of `n` bytes a row that is filled within them. -/
def Within (n : Nat) (t : Ticker) : Prop := t.length = n ∧ t.used ≤ n

theorem addLetter_within (hsize : 6 * n < 2 ^ 32) (t : Ticker) (mask r g b : Nat) (h : Within n t)
    (hroom : ¬ t.isFull) :
    Within n (t.addLetter mask r g b).1 ∧ ∀ a ∈ (t.addLetter mask r g b).2, a.InBounds (6 * n) := by
  obtain ⟨hlength, hused⟩ := h
  have hfree : t.used + 12 ≤ n := by
    rw [Ticker.isFull, hlength, sub32_of_le hused (by omega)] at hroom
    omega
  have hwrap : wrap32 (t.used + 12) = t.used + 12 := wrap32_of_lt (by omega)
  obtain ⟨buffer, hstate, -⟩ := t.addLetter_state mask r g b
  rw [hstate, hwrap, t.addLetter_actions]
  refine ⟨⟨hlength, hfree⟩, ?_⟩
  intro a ha
  rcases List.mem_append.mp ha with ha | ha
  · obtain ⟨cell, hcell, rfl⟩ := List.mem_map.mp ha
    obtain ⟨hrow, hcolumn, hk⟩ := mem_cells.mp hcell
    exact index_of_lt hsize hlength hrow (by omega)
  · rw [List.mem_singleton.mp ha]
    trivial

theorem tickerClear_within (hsize : 6 * n < 2 ^ 32) (hlong : 30 ≤ n) (s : Scroll) (h : Within n s.ticker) :
    Within n s.tickerClear.state.ticker ∧ ∀ a ∈ s.tickerClear.actions, a.InBounds (6 * n) := by
  obtain ⟨buffer, hstate, -⟩ := tickerClear_state s
  rw [hstate, tickerClear_actions]
  refine ⟨⟨h.1, hlong⟩, ?_⟩
  intro a ha
  simp only [List.mem_append, List.mem_cons, List.mem_map, List.not_mem_nil, or_false] at ha
  rcases ha with ((rfl | ⟨x, -, rfl⟩) | ⟨cell, hcell, rfl⟩) | rfl
  · trivial
  · trivial
  · obtain ⟨hrow, hcolumn, hk⟩ := mem_cells.mp hcell
    exact index_of_lt hsize h.1 hrow (by omega)
  · trivial

theorem draw_inBounds (hsize : 6 * n < 2 ^ 32) {t : Ticker} (strip : Strip) (h : Within n t) (hused : t.used ≠ 0) :
    ∀ a ∈ (t.draw strip).2, a.InBounds (6 * n) := by
  intro a ha
  rcases mem_draw ha with ⟨x, rfl⟩ | ⟨row, column, k, hrow, -, -, rfl⟩
  · trivial
  · have hmod : wrap32 ((t.position + column) * 3 + k) % t.used < t.used := Nat.mod_lt _ (by omega)
    have hlt := row_lt hrow (lt_of_lt_of_le hmod h.2)
    change t.shownIndex row column k < 6 * n
    rw [Ticker.shownIndex, h.1, Nat.mul_comm row n, wrap32_of_lt (by omega)]
    exact hlt

/-! ### One event -/

variable {s : Scroll}

theorem operate_within (hsize : 6 * n < 2 ^ 32) (o : Operation) (h : Within n s.ticker)
    (hok : n < 30 → ¬ o.Clears) :
    Within n (s.operate o).state.ticker ∧ ∀ a ∈ (s.operate o).actions, a.InBounds (6 * n) := by
  apply operate_rule (addLetter_within hsize) (fun _ _ ht => ht) o
  · intro hclears
    have hlong : 30 ≤ n := by
      by_contra hshort
      exact hok (by omega) hclears
    exact tickerClear_within hsize hlong s h
  · exact h

theorem performAll_within (hsize : 6 * n < 2 ^ 32) (os : List Operation) (h : Within n s.ticker)
    (hok : n < 30 → ∀ o ∈ os, ¬ o.Clears) :
    Within n (s.performAll os).1.ticker ∧ ∀ a ∈ (s.performAll os).2, a.InBounds (6 * n) := by
  apply performAll_rule (addLetter_within hsize) (fun _ _ ht => ht) (fun _ _ => trivial) os
  · intro o ho hclears
    have hlong : 30 ≤ n := by
      by_contra hshort
      exact hok (by omega) o ho hclears
    exact tickerClear_within hsize hlong
  · exact h

theorem ticking_within (hsize : 6 * n < 2 ^ 32) (e : TickerEvent) (h : Within n s.ticker)
    (hok : NoShortClear s e) :
    Within n (ticking.next s e).ticker ∧ ∀ a ∈ ticking.actions s e, a.InBounds (6 * n) := by
  unfold NoShortClear at hok
  rw [h.1] at hok
  cases e with
  | operation o =>
    obtain ⟨hstate, hactions⟩ := operate_within hsize o h hok
    refine ⟨hstate, ?_⟩
    change ∀ a ∈ (s.perform o).2, a.InBounds (6 * n)
    rw [Scroll.perform, List.forall_mem_append]
    exact ⟨hactions, List.forall_mem_singleton.mpr trivial⟩
  | tick callback =>
    change Within n (s.tickerScrollCb callback).1.ticker ∧ ∀ a ∈ (s.tickerScrollCb callback).2, a.InBounds (6 * n)
    by_cases hused : s.ticker.used = 0
    · rw [Scroll.tickerScrollCb_empty callback hused]
      exact ⟨h, fun _ ha => absurd ha List.not_mem_nil⟩
    · have hdraw := draw_inBounds hsize s.strip h hused
      by_cases hend : s.ticker.AtEnd
      · rw [Scroll.tickerScrollCb_end callback hused hend]
        obtain ⟨hstate, hactions⟩ := performAll_within (s := s.rewound) hsize (s.called callback) h
          fun hshort => hok hshort hused hend
        refine ⟨hstate, ?_⟩
        simp only [List.forall_mem_append, List.forall_mem_cons]
        exact ⟨hdraw, trivial, trivial, hactions⟩
      · rw [Scroll.tickerScrollCb_within callback hused hend]
        exact ⟨h, hdraw⟩

/-- A clear ends 30 bytes into the last row. -/
theorem operate_clears {o : Operation} (ho : o.Clears) (h : s.ticker.length = n) :
    TickerAction.buffer (wrap32 (n * 5 + 29)) ∈ (s.operate o).actions := by
  have hclear : TickerAction.buffer (wrap32 (n * 5 + 29)) ∈ s.tickerClear.actions := by
    rw [tickerClear_actions]
    apply List.mem_append_left
    apply List.mem_append_right
    refine List.mem_map.mpr ⟨(5, 9, 2), mem_cells.mpr ⟨by decide, by decide, by decide⟩, ?_⟩
    rw [Ticker.index, h]
    congr 2
    show 0 + n * 5 + 9 * 3 + 2 = n * 5 + 29
    omega
  cases o with
  | clear => exact hclear
  | setText text r g b =>
    rw [Scroll.operate, Scroll.tickerSetText]
    exact List.mem_append_left _ hclear
  | _ => exact ho.elim

theorem performAll_clears {os : List Operation} {o : Operation} (hmem : o ∈ os) (ho : o.Clears)
    (h : s.ticker.length = n) : TickerAction.buffer (wrap32 (n * 5 + 29)) ∈ (s.performAll os).2 := by
  induction os generalizing s with
  | nil => exact absurd hmem List.not_mem_nil
  | cons x os ih =>
    rw [Scroll.performAll]
    rcases List.mem_cons.mp hmem with rfl | hmem
    · exact List.mem_append_left _ (List.mem_append_left _ (operate_clears ho h))
    · exact List.mem_append_right _ (ih hmem ((operate_fixed x s).1.trans h))

theorem noShortClear_of_inBounds (hsize : 6 * n < 2 ^ 32) (e : TickerEvent) (h : s.ticker.length = n)
    (hactions : ∀ a ∈ ticking.actions s e, a.InBounds (6 * n)) : NoShortClear s e := by
  intro hshort
  rw [h] at hshort
  have hout : ¬ (TickerAction.buffer (wrap32 (n * 5 + 29))).InBounds (6 * n) := by
    rw [TickerAction.InBounds, wrap32_of_lt (by omega)]
    omega
  cases e with
  | operation o =>
    intro ho
    exact hout (hactions _ (List.mem_append_left _ (operate_clears ho h)))
  | tick callback =>
    intro hused hend o hmem ho
    apply hout
    apply hactions
    change _ ∈ (s.tickerScrollCb callback).2
    rw [Scroll.tickerScrollCb_end callback hused hend]
    apply List.mem_append_right
    apply List.mem_cons_of_mem
    apply List.mem_cons_of_mem
    exact performAll_clears (s := s.rewound) hmem ho h

/-! ### Runs -/

theorem tickerSetup_spec {board : Board} {length : LuaValue} {callback : Bool} {t : Ticker}
    (h : tickerSetup board length callback = .ok t) :
    t.used = 0 ∧ t.position = 0 ∧ t.buffer.length = wrap32 (t.length * 6) ∧ t.callback = callback := by
  unfold tickerSetup at h
  dsimp only at h
  split_ifs at h
  cases h
  exact ⟨rfl, rfl, List.length_replicate, rfl⟩

/-- For a ticker whose allocation does not overflow and any operations and ticks, also inside the
scroll callback: what is used stays within the length and every index within the allocation exactly
when no ticker of less than 30 bytes a row is cleared. -/
theorem ticker_bounds_iff (board : Board) (length : LuaValue) (callback : Bool) (t : Ticker) (strip : Strip)
    (font : Nat → Nat) (events : List TickerEvent) (hsetup : tickerSetup board length callback = .ok t)
    (hsize : 6 * t.length < 2 ^ 32) :
    (ticking.Always (fun s => s.ticker.used ≤ s.ticker.length) ⟨t, strip, font⟩ events ∧
      ∀ a ∈ ticking.trace ⟨t, strip, font⟩ events, a.InBounds t.buffer.length) ↔
    ticking.Along NoShortClear ⟨t, strip, font⟩ events := by
  obtain ⟨hused, -, hbuffer, -⟩ := tickerSetup_spec hsetup
  rw [hbuffer, wrap32_of_lt (by omega), Nat.mul_comm, Machine.forall_trace_iff]
  apply Machine.always_and_along_iff (I := fun s => s.ticker.length = t.length) (fun s e h => (ticking_fixed s e).1.trans h)
  · intro s e hlength hle
    have hwithin : Within t.length s.ticker := ⟨hlength, hlength ▸ hle⟩
    constructor
    · rintro ⟨-, hactions⟩
      exact noShortClear_of_inBounds hsize e hlength hactions
    · intro hok
      obtain ⟨⟨hlength', hused'⟩, hactions⟩ := ticking_within hsize e hwithin hok
      exact ⟨hlength'.symm ▸ hused', hactions⟩
  · rfl
  · change t.used ≤ t.length
    omega

/-- A board on which every pin exists and every allocation succeeds. -/
def Board.roomy : Board := ⟨fun _ => true, fun _ => 0, true, fun _ => true⟩

def Strip.single : Strip := ⟨3, 4, 1, 0, 2, [128, 128, 128]⟩

/-- A ticker of three letters that is cleared. -/
theorem ticker_bounds_iff_three_letters :
    ∃ t, tickerSetup .roomy (.number [51] 3) false = .ok t ∧ 6 * t.length < 2 ^ 32 ∧
      ∀ a ∈ ticking.trace ⟨t, .single, fun _ => 0⟩ [.operation .clear, .tick []], a.InBounds t.buffer.length := by
  refine ⟨_, rfl, by decide, ?_⟩
  apply ((ticker_bounds_iff .roomy (.number [51] 3) false _ .single (fun _ => 0) [.operation .clear, .tick []]
    rfl (by decide)).mpr ?_).2
  refine ⟨fun hshort => absurd hshort (by decide), fun hshort => ?_, trivial⟩
  rw [(ticking_fixed _ _).1] at hshort
  exact absurd hshort (by decide)

/-- A ticker of one letter, cleared: 30 bytes are used of 12. -/
theorem cleared_beyond_length :
    ¬ ∀ (length : LuaValue) (t : Ticker) (events : List TickerEvent),
      tickerSetup .roomy length false = .ok t →
      ticking.Always (fun s => s.ticker.used ≤ s.ticker.length) ⟨t, .single, fun _ => 0⟩ events ∧
        ∀ a ∈ ticking.trace ⟨t, .single, fun _ => 0⟩ events, a.InBounds t.buffer.length := by
  intro hall
  obtain ⟨t, ht⟩ : ∃ t, tickerSetup .roomy (.number [49] 1) false = .ok t := ⟨_, rfl⟩
  have hcleared := (hall _ t [.operation .clear] ht).1.2.head
  obtain ⟨buffer, hstate, -⟩ := tickerClear_state ⟨t, .single, fun _ => 0⟩
  rw [ticking_next_operation, Scroll.operate, hstate] at hcleared
  have hlength : t.length = 12 := by cases ht; rfl
  change 30 ≤ t.length at hcleared
  omega

end EspClock.Led
