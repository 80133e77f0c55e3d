import EspClock.Led.TickerBounds

/-!
# The end of the scroll

A tick notices the end of the text by the equality of `3 * m_Position` and `m_Used`. The counters keep
`3 ∣ m_Used` and `3 * m_Position ≤ m_Used` under every operation, also under those of the scroll
callback, which runs between the reset of the position and its increment; so the equality cannot be
stepped over. While `m_Used` is not written, the position goes through `1, ..., m_Used / 3` in turn and
the end is noticed once in every round.
-/

namespace EspClock.Led

open Mem

def Aligned (used position : Nat) : Prop := 3 ∣ used ∧ 3 * position ≤ used ∧ (used = 0 → position = 0)

/-- The counters that an operation leaves, inside the callback or not, are aligned. -/
def TickerAction.Aligned : TickerAction → Prop
  | .reached u p => Led.Aligned u p
  | _ => True

/-- A ticker of `n` bytes a row between two operations. -/
structure Scrolling (n : Nat) (t : Ticker) : Prop where
  within : Within n t
  dvd : 3 ∣ t.used
  le : 3 * t.position ≤ t.used

variable {n : Nat}

theorem Scrolling.aligned {t : Ticker} (h : Scrolling n t) : Aligned t.used t.position := by
  have hle := h.le
  exact ⟨h.dvd, hle, by omega⟩

/-! ### Operations -/

theorem addLetter_scrolling (hsize : 6 * n < 2 ^ 32) (t : Ticker) (mask r g b : Nat) (h : Scrolling n t)
    (hroom : ¬ t.isFull) :
    Scrolling n (t.addLetter mask r g b).1 ∧ ∀ a ∈ (t.addLetter mask r g b).2, a.Aligned := by
  have hwithin := (addLetter_within hsize t mask r g b h.within hroom).1
  obtain ⟨buffer, hstate, -⟩ := t.addLetter_state mask r g b
  have hdvd := h.dvd
  have hle := h.le
  have hused := h.within.2
  have hwrap : wrap32 (t.used + 12) = t.used + 12 := wrap32_of_lt (by omega)
  rw [hstate, hwrap] at hwithin ⊢
  refine ⟨⟨hwithin, ?_, ?_⟩, ?_⟩
  · show 3 ∣ t.used + 12
    omega
  · show 3 * t.position ≤ t.used + 12
    omega
  · rw [t.addLetter_actions]
    intro a ha
    rcases List.mem_append.mp ha with ha | ha
    · obtain ⟨cell, -, rfl⟩ := List.mem_map.mp ha
      trivial
    · rw [List.mem_singleton.mp ha]
      trivial

theorem tickerClear_scrolling (hlong : 30 ≤ n) (s : Scroll) (h : s.ticker.length = n) :
    Scrolling n s.tickerClear.state.ticker ∧ s.tickerClear.state.ticker.position = 0 ∧
      0 < s.tickerClear.state.ticker.used := by
  obtain ⟨buffer, hstate, -⟩ := tickerClear_state s
  rw [hstate]
  exact ⟨⟨⟨h, hlong⟩, (by decide : 3 ∣ 30), Nat.zero_le 30⟩, rfl, Nat.succ_pos 29⟩

theorem tickerClear_aligned (s : Scroll) : ∀ a ∈ s.tickerClear.actions, a.Aligned := by
  rw [tickerClear_actions]
  intro a ha
  simp only [List.mem_append, List.mem_cons, List.mem_map, List.not_mem_nil, or_false] at ha
  rcases ha with ((rfl | ⟨x, -, rfl⟩) | ⟨cell, -, rfl⟩) | rfl <;> trivial

theorem operate_scrolling (hsize : 6 * n < 2 ^ 32) (hlong : 30 ≤ n) (o : Operation) {s : Scroll}
    (h : Scrolling n s.ticker) :
    Scrolling n (s.operate o).state.ticker ∧ ∀ a ∈ (s.operate o).actions, a.Aligned := by
  apply operate_rule (addLetter_scrolling hsize) (fun _ _ ht => ⟨⟨ht.1.1, ht.1.2⟩, ht.2, ht.3⟩) o
  · exact fun _ => ⟨(tickerClear_scrolling hlong s h.within.1).1, tickerClear_aligned s⟩
  · exact h

/-- The operations of a callback, which starts with the position at zero. -/
theorem performAll_scrolling (hsize : 6 * n < 2 ^ 32) (hlong : 30 ≤ n) (os : List Operation) {s : Scroll}
    (h : Scrolling n s.ticker ∧ s.ticker.position = 0 ∧ 0 < s.ticker.used) :
    (Scrolling n (s.performAll os).1.ticker ∧ (s.performAll os).1.ticker.position = 0 ∧
      0 < (s.performAll os).1.ticker.used) ∧ ∀ a ∈ (s.performAll os).2, a.Aligned := by
  apply performAll_rule (I := fun t => Scrolling n t ∧ t.position = 0 ∧ 0 < t.used)
  · intro t mask r g b ht hroom
    obtain ⟨hscrolling, hactions⟩ := addLetter_scrolling hsize t mask r g b ht.1 hroom
    refine ⟨⟨hscrolling, ?_⟩, hactions⟩
    obtain ⟨buffer, hstate, -⟩ := t.addLetter_state mask r g b
    have hused := ht.1.within.2
    rw [hstate, wrap32_of_lt (by omega)]
    exact ⟨ht.2.1, Nat.succ_pos _⟩
  · exact fun _ _ ht => ⟨⟨⟨ht.1.1.1, ht.1.1.2⟩, ht.1.2, ht.1.3⟩, ht.2⟩
  · exact fun _ ht => ht.1.aligned
  · exact fun _ _ _ s hs => ⟨tickerClear_scrolling hlong s hs.1.within.1, tickerClear_aligned s⟩
  · exact h

/-! ### Ticks -/

theorem draw_aligned (t : Ticker) (strip : Strip) : ∀ a ∈ (t.draw strip).2, a.Aligned := by
  intro a ha
  rcases mem_draw ha with ⟨x, rfl⟩ | ⟨row, column, k, -, -, -, rfl⟩ <;> trivial

theorem Scrolling.atEnd_iff {t : Ticker} (hsize : 6 * n < 2 ^ 32) (h : Scrolling n t) :
    t.AtEnd ↔ 3 * t.position = t.used := by
  have hused := h.within.2
  have hle := h.le
  rw [Ticker.AtEnd, wrap32_of_lt (by omega), Nat.mul_comm]

theorem Scrolling.rewound {s : Scroll} (h : Scrolling n s.ticker) (hused : s.ticker.used ≠ 0) :
    Scrolling n s.rewound.ticker ∧ s.rewound.ticker.position = 0 ∧ 0 < s.rewound.ticker.used :=
  ⟨⟨⟨h.within.1, h.within.2⟩, h.dvd, Nat.zero_le _⟩, rfl, Nat.pos_of_ne_zero hused⟩

theorem Scrolling.advance {s : Scroll} (hsize : 6 * n < 2 ^ 32) (h : Scrolling n s.ticker)
    (hlt : 3 * s.ticker.position < s.ticker.used) :
    Scrolling n s.advance.ticker ∧ s.advance.ticker.position = s.ticker.position + 1 := by
  have hused := h.within.2
  have hdvd := h.dvd
  have hposition : s.advance.ticker.position = s.ticker.position + 1 := wrap32_of_lt (by omega)
  refine ⟨⟨⟨h.within.1, h.within.2⟩, h.dvd, ?_⟩, hposition⟩
  rw [hposition]
  show 3 * (s.ticker.position + 1) ≤ s.ticker.used
  omega

/-- Every operation and every tick keeps the counters aligned, at every operation of the callback, too. -/
theorem ticking_scrolling (hsize : 6 * n < 2 ^ 32) (hlong : 30 ≤ n) (s : Scroll) (e : TickerEvent)
    (h : Scrolling n s.ticker) :
    Scrolling n (ticking.next s e).ticker ∧ ∀ a ∈ ticking.actions s e, a.Aligned := by
  cases e with
  | operation o =>
    obtain ⟨hstate, hactions⟩ := operate_scrolling hsize hlong o h
    refine ⟨hstate, ?_⟩
    change ∀ a ∈ (s.perform o).2, a.Aligned
    rw [Scroll.perform, List.forall_mem_append]
    exact ⟨hactions, List.forall_mem_singleton.mpr hstate.aligned⟩
  | tick callback =>
    change Scrolling n (s.tickerScrollCb callback).1.ticker ∧ ∀ a ∈ (s.tickerScrollCb callback).2, a.Aligned
    by_cases hused : s.ticker.used = 0
    · rw [Scroll.tickerScrollCb_empty callback hused]
      exact ⟨h, fun _ ha => absurd ha List.not_mem_nil⟩
    · have hdraw := draw_aligned s.ticker s.strip
      by_cases hend : s.ticker.AtEnd
      · rw [Scroll.tickerScrollCb_end callback hused hend]
        obtain ⟨⟨hstate, hzero, hpos⟩, hactions⟩ :=
          performAll_scrolling hsize hlong (s.called callback) (h.rewound hused)
        have hdvd := hstate.dvd
        refine ⟨(hstate.advance hsize (by omega)).1, ?_⟩
        simp only [List.forall_mem_append, List.forall_mem_cons]
        exact ⟨hdraw, trivial, (h.rewound hused).1.aligned, hactions⟩
      · rw [Scroll.tickerScrollCb_within callback hused hend]
        rw [h.atEnd_iff hsize] at hend
        have hdrawn : Scrolling n { s with strip := (s.ticker.draw s.strip).1 }.ticker := h
        exact ⟨(hdrawn.advance hsize (lt_of_le_of_ne h.le hend)).1, hdraw⟩

/-! ### Operations that leave `m_Used` alone -/

/-- `m_Used` is given no value but `u`. -/
def Steady (u : Nat) (actions : List TickerAction) : Prop := ∀ v, TickerAction.used v ∈ actions → v = u

theorem steady_append {u : Nat} {a b : List TickerAction} : Steady u (a ++ b) ↔ Steady u a ∧ Steady u b := by
  constructor
  · intro h
    exact ⟨fun v hv => h v (List.mem_append_left b hv), fun v hv => h v (List.mem_append_right a hv)⟩
  · intro h v hv
    rcases List.mem_append.mp hv with hv | hv
    · exact h.1 v hv
    · exact h.2 v hv

/-- Any letter gives `m_Used` a new value. -/
theorem not_steady_addLetter {t : Ticker} (hroom : t.used + 12 < 2 ^ 32) (mask r g b : Nat) :
    ¬ Steady t.used (t.addLetter mask r g b).2 := by
  intro hsteady
  have hvalue := hsteady (wrap32 (t.used + 12)) (by rw [t.addLetter_actions]; simp)
  rw [wrap32_of_lt hroom] at hvalue
  omega

theorem not_steady_tickerClear {s : Scroll} (hused : s.ticker.used ≠ 0) :
    ¬ Steady s.ticker.used s.tickerClear.actions := by
  intro hsteady
  have hvalue := hsteady 0 (by rw [tickerClear_actions]; simp)
  omega

theorem addLetters_steady (font : Nat → Nat) (r g b : Nat) (letters : List (Option Nat)) {t : Ticker}
    (hroom : t.used + 12 < 2 ^ 32) (h : Steady t.used (Ticker.addLetters font r g b letters t).2.1) :
    (Ticker.addLetters font r g b letters t).1 = t := by
  cases letters with
  | nil => rfl
  | cons letter rest =>
    unfold Ticker.addLetters at h ⊢
    by_cases hfull : t.isFull
    · rw [if_pos hfull]
    · rw [if_neg hfull] at h ⊢
      cases letter with
      | none => rfl
      | some i => exact absurd (steady_append.mp h).1 (not_steady_addLetter hroom _ _ _ _)

/-- An operation that does not change `m_Used` changes neither counter. -/
theorem operate_steady (o : Operation) {s : Scroll} (hused : s.ticker.used ≠ 0)
    (hroom : s.ticker.used + 12 < 2 ^ 32) (h : Steady s.ticker.used (s.operate o).actions) :
    (s.operate o).state.ticker.used = s.ticker.used ∧
      (s.operate o).state.ticker.position = s.ticker.position := by
  cases o with
  | clear =>
    rw [Scroll.operate] at h
    exact absurd h (not_steady_tickerClear hused)
  | addText text r g b =>
    rw [Scroll.operate] at h ⊢
    unfold Scroll.tickerAddText at h ⊢
    split at h
    · exact ⟨rfl, rfl⟩
    · split at h
      · exact ⟨rfl, rfl⟩
      · have hkept := addLetters_steady _ _ _ _ _ hroom h
        simp only [hkept, and_self]
  | addLetter letter r g b =>
    rw [Scroll.operate] at h ⊢
    unfold Scroll.tickerAddLetter at h ⊢
    by_cases hfull : s.ticker.isFull
    · rw [if_pos hfull]
      exact ⟨rfl, rfl⟩
    · rw [if_neg hfull] at h ⊢
      split at h
      · exact ⟨rfl, rfl⟩
      · split at h
        · exact ⟨rfl, rfl⟩
        · exact absurd h (not_steady_addLetter hroom _ _ _ _)
  | setText text r g b =>
    rw [Scroll.operate, Scroll.tickerSetText] at h
    exact absurd (steady_append.mp h).1 (not_steady_tickerClear hused)
  | setCharMask char rows =>
    rw [Scroll.operate, (tickerSetCharMask_kept s char rows).1]
    exact ⟨rfl, rfl⟩
  | setBrightness brightness => exact ⟨rfl, rfl⟩

theorem performAll_steady (os : List Operation) {s : Scroll} (hused : s.ticker.used ≠ 0)
    (hroom : s.ticker.used + 12 < 2 ^ 32) (h : Steady s.ticker.used (s.performAll os).2) :
    (s.performAll os).1.ticker.used = s.ticker.used ∧
      (s.performAll os).1.ticker.position = s.ticker.position := by
  induction os generalizing s with
  | nil => exact ⟨rfl, rfl⟩
  | cons o os ih =>
    rw [Scroll.performAll] at h ⊢
    obtain ⟨hfirst, hrest⟩ := steady_append.mp h
    rw [Scroll.perform] at hfirst
    obtain ⟨hkept, hposition⟩ := operate_steady o hused hroom (steady_append.mp hfirst).1
    have hnext : (s.perform o).1.ticker.used = s.ticker.used := hkept
    have ih := ih (hnext ▸ hused) (hnext ▸ hroom) (hnext.symm ▸ hrest)
    exact ⟨ih.1.trans hkept, ih.2.trans hposition⟩

/-- Only ticks notice the end. -/
theorem performAll_count_finished (os : List Operation) (s : Scroll) (called : Bool) :
    (s.performAll os).2.count (.finished called) = 0 := by
  rw [List.count_eq_zero]
  have hrule := performAll_rule (I := fun _ => True) (Q := fun a => a ≠ .finished called) ?_ ?_ ?_ os
    (s := s) ?_ trivial
  · exact fun hmem => hrule.2 _ hmem rfl
  · intro t mask r g b _ _
    refine ⟨trivial, fun a ha => ?_⟩
    rw [t.addLetter_actions] at ha
    rcases List.mem_append.mp ha with ha | ha
    · obtain ⟨cell, -, rfl⟩ := List.mem_map.mp ha
      exact TickerAction.noConfusion
    · rw [List.mem_singleton.mp ha]
      exact TickerAction.noConfusion
  · exact fun _ _ _ => trivial
  · exact fun _ _ => TickerAction.noConfusion
  · intro _ _ _ s _
    refine ⟨trivial, fun a ha => ?_⟩
    rw [tickerClear_actions] at ha
    simp only [List.mem_append, List.mem_cons, List.mem_map, List.not_mem_nil, or_false] at ha
    rcases ha with ((rfl | ⟨x, -, rfl⟩) | ⟨cell, -, rfl⟩) | rfl <;> exact TickerAction.noConfusion

theorem draw_count_finished (t : Ticker) (strip : Strip) (called : Bool) :
    (t.draw strip).2.count (.finished called) = 0 := by
  rw [List.count_eq_zero]
  intro hmem
  rcases mem_draw hmem with ⟨x, hx⟩ | ⟨row, column, k, -, -, -, hx⟩ <;> cases hx

/-! ### Rounds -/

/-- A ticker whose `m_Used` stays at `u`. -/
structure Rolling (n u : Nat) (called : Bool) (s : Scroll) : Prop where
  scrolling : Scrolling n s.ticker
  used_eq : s.ticker.used = u
  callback_eq : s.ticker.callback = called

section Rounds

variable {u : Nat} {called : Bool} {s : Scroll} (hsize : 6 * n < 2 ^ 32) (hlong : 30 ≤ n) (hu : 0 < u)
include hsize hlong hu

theorem rolling_operation (o : Operation) (h : Rolling n u called s)
    (hsteady : Steady u (ticking.actions s (.operation o))) :
    Rolling n u called (ticking.next s (.operation o)) ∧
      (ticking.next s (.operation o)).ticker.position = s.ticker.position ∧
      (ticking.actions s (.operation o)).count (.finished called) = 0 := by
  have hle := h.scrolling.within.2
  have hused := h.used_eq
  have hactions : ticking.actions s (.operation o) = (s.performAll [o]).2 :=
    (List.append_nil (s.perform o).2).symm
  have hcount := performAll_count_finished [o] s called
  rw [hactions] at hsteady ⊢
  obtain ⟨hkept, hposition⟩ := performAll_steady [o] (by omega) (by omega) (hused.symm ▸ hsteady)
  refine ⟨⟨(ticking_scrolling hsize hlong s (.operation o) h.scrolling).1, ?_, ?_⟩, hposition, hcount⟩
  · exact hkept.trans hused
  · exact (ticking_fixed s (.operation o)).2.trans h.callback_eq

/-- A tick at the end starts the next round; any other moves on by one column. -/
theorem rolling_tick (callback : List Operation) (h : Rolling n u called s)
    (hsteady : Steady u (ticking.actions s (.tick callback))) :
    Rolling n u called (ticking.next s (.tick callback)) ∧
      ((ticking.next s (.tick callback)).ticker.position,
        (ticking.actions s (.tick callback)).count (.finished called)) =
        if 3 * s.ticker.position = u then (1, 1) else (s.ticker.position + 1, 0) := by
  have hle := h.scrolling.within.2
  have hused := h.used_eq
  have hne : s.ticker.used ≠ 0 := by omega
  have hdraw := draw_count_finished s.ticker s.strip called
  have hscrolling := (ticking_scrolling hsize hlong s (.tick callback) h.scrolling).1
  have hcallback := (ticking_fixed s (.tick callback)).2.trans h.callback_eq
  change Steady u (s.tickerScrollCb callback).2 at hsteady
  change Scrolling n (s.tickerScrollCb callback).1.ticker at hscrolling
  change (s.tickerScrollCb callback).1.ticker.callback = called at hcallback
  change Rolling n u called (s.tickerScrollCb callback).1 ∧
    ((s.tickerScrollCb callback).1.ticker.position, (s.tickerScrollCb callback).2.count (.finished called)) = _
  by_cases hend : s.ticker.AtEnd
  · have hat := (h.scrolling.atEnd_iff hsize).mp hend
    rw [Scroll.tickerScrollCb_end callback hne hend] at hsteady hscrolling hcallback ⊢
    have hops : Steady s.rewound.ticker.used (s.rewound.performAll (s.called callback)).2 := by
      intro v hv
      rw [show s.rewound.ticker.used = u from hused]
      apply hsteady
      apply List.mem_append_right
      exact List.mem_cons_of_mem _ (List.mem_cons_of_mem _ hv)
    have hrewound := h.scrolling.rewound hne
    obtain ⟨hkept, hposition⟩ := performAll_steady (s.called callback) (Nat.ne_of_gt hrewound.2.2)
      (show s.ticker.used + 12 < 2 ^ 32 by omega) hops
    have hcount := performAll_count_finished (s.called callback) s.rewound called
    refine ⟨⟨hscrolling, hkept.trans hused, hcallback⟩, ?_⟩
    rw [if_pos (hat.trans hused), List.count_append, List.count_cons, List.count_cons, hdraw, hcount,
      h.callback_eq]
    refine Prod.ext ?_ (by simp)
    show wrap32 ((s.rewound.performAll (s.called callback)).1.ticker.position + 1) = 1
    rw [hposition, hrewound.2.1]
    rfl
  · have hat : ¬ 3 * s.ticker.position = u := fun heq => hend ((h.scrolling.atEnd_iff hsize).mpr (heq.trans hused.symm))
    have hpos := h.scrolling.le
    rw [Scroll.tickerScrollCb_within callback hne hend] at hscrolling hcallback ⊢
    refine ⟨⟨hscrolling, hused, hcallback⟩, ?_⟩
    rw [if_neg hat, hdraw]
    refine Prod.ext ?_ rfl
    show wrap32 (s.ticker.position + 1) = s.ticker.position + 1
    exact wrap32_of_lt (by omega)

end Rounds

def ticks : List TickerEvent → Nat
  | [] => 0
  | .tick _ :: events => ticks events + 1
  | .operation _ :: events => ticks events

section Runs

variable {u : Nat} {called : Bool} {s : Scroll} (hsize : 6 * n < 2 ^ 32) (hlong : 30 ≤ n) (hu : 0 < u)
include hsize hlong hu

theorem Rolling.final (h : Rolling n u called s) {events : List TickerEvent}
    (hsteady : Steady u (ticking.trace s events)) : Rolling n u called (ticking.final s events) := by
  induction events generalizing s with
  | nil => exact h
  | cons e events ih =>
    obtain ⟨hfirst, hrest⟩ := steady_append.mp hsteady
    cases e with
    | operation o => exact ih (rolling_operation hsize hlong hu o h hfirst).1 hrest
    | tick callback => exact ih (rolling_tick hsize hlong hu callback h hfirst).1 hrest

/-- Inside the rounds, the ends that are noticed are the multiples of the length of a round. -/
theorem count_finished (h : Rolling n u called s) {events : List TickerEvent}
    (hsteady : Steady u (ticking.trace s events)) (hposition : 1 ≤ s.ticker.position) :
    (ticking.trace s events).count (.finished called) = (s.ticker.position - 1 + ticks events) / (u / 3) := by
  have hdvd := h.scrolling.dvd
  have hle := h.scrolling.le
  rw [h.used_eq] at hdvd hle
  induction events generalizing s with
  | nil =>
    rw [Machine.trace_nil, List.count_nil, ticks, Nat.div_eq_of_lt (by omega)]
  | cons e events ih =>
    obtain ⟨hfirst, hrest⟩ := steady_append.mp hsteady
    rw [Machine.trace_cons, List.count_append]
    cases e with
    | operation o =>
      obtain ⟨hnext, hsame, hcount⟩ := rolling_operation hsize hlong hu o h hfirst
      rw [hcount, Nat.zero_add, ih hnext hrest (hsame.symm ▸ hposition) (hsame.symm ▸ hle), hsame, ticks]
    | tick callback =>
      obtain ⟨hnext, hmoved⟩ := rolling_tick hsize hlong hu callback h hfirst
      by_cases hend : 3 * s.ticker.position = u
      · rw [if_pos hend, Prod.mk.injEq] at hmoved
        obtain ⟨hone, hcount⟩ := hmoved
        have hround : s.ticker.position - 1 + (ticks events + 1) = ticks events + u / 3 := by omega
        rw [hcount, ih hnext hrest (hone.symm ▸ le_rfl) (by omega), hone, ticks, hround,
          Nat.add_div_right _ (by omega), Nat.sub_self, Nat.zero_add, Nat.add_comm]
      · rw [if_neg hend, Prod.mk.injEq] at hmoved
        obtain ⟨hsucc, hcount⟩ := hmoved
        rw [hcount, ih hnext hrest (by omega) (by omega), hsucc, ticks, Nat.zero_add]
        congr 1
        omega

/-- Once an end has been noticed the position is inside a round. -/
theorem one_le_position (h : Rolling n u called s) {events : List TickerEvent}
    (hsteady : Steady u (ticking.trace s events))
    (hfinished : 1 ≤ s.ticker.position ∨ TickerAction.finished called ∈ ticking.trace s events) :
    1 ≤ (ticking.final s events).ticker.position := by
  induction events generalizing s with
  | nil =>
    apply hfinished.resolve_right
    exact List.not_mem_nil
  | cons e events ih =>
    obtain ⟨hfirst, hrest⟩ := steady_append.mp hsteady
    rw [Machine.trace_cons, List.mem_append] at hfinished
    cases e with
    | operation o =>
      obtain ⟨hnext, hsame, hcount⟩ := rolling_operation hsize hlong hu o h hfirst
      apply ih hnext hrest
      rw [hsame]
      exact hfinished.imp_right fun hmem => hmem.resolve_left (List.count_eq_zero.mp hcount)
    | tick callback =>
      obtain ⟨hnext, hmoved⟩ := rolling_tick hsize hlong hu callback h hfirst
      apply ih hnext hrest
      left
      split_ifs at hmoved with hend
      · rw [Prod.mk.injEq] at hmoved
        exact hmoved.1.ge
      · rw [Prod.mk.injEq] at hmoved
        omega

/-- A round and one more tick notice an end. -/
theorem finished_mem (h : Rolling n u called s) {events : List TickerEvent}
    (hsteady : Steady u (ticking.trace s events)) (hticks : u / 3 + 1 ≤ ticks events) :
    TickerAction.finished called ∈ ticking.trace s events := by
  have hdvd := h.scrolling.dvd
  rw [h.used_eq] at hdvd
  rw [← List.count_pos_iff]
  by_cases hposition : 1 ≤ s.ticker.position
  · rw [count_finished hsize hlong hu h hsteady hposition]
    exact Nat.div_pos (by omega) (by omega)
  · induction events generalizing s with
    | nil => exact absurd hticks (Nat.not_succ_le_zero _)
    | cons e events ih =>
      obtain ⟨hfirst, hrest⟩ := steady_append.mp hsteady
      rw [Machine.trace_cons, List.count_append]
      cases e with
      | operation o =>
        obtain ⟨hnext, hsame, -⟩ := rolling_operation hsize hlong hu o h hfirst
        exact Nat.add_pos_right _ (ih hnext hrest hticks (hsame.symm ▸ hposition))
      | tick callback =>
        obtain ⟨hnext, hmoved⟩ := rolling_tick hsize hlong hu callback h hfirst
        rw [if_neg (by omega), Prod.mk.injEq] at hmoved
        rw [count_finished hsize hlong hu hnext hrest (by omega), hmoved.1]
        apply Nat.add_pos_right
        rw [ticks] at hticks
        exact Nat.div_pos (by omega) (by omega)

end Runs

/-- For any operations and ticks, also inside the scroll callback, of a ticker of at least 30 bytes a row
whose allocation does not overflow: the counters are aligned in every state, and from any of them on,
while `m_Used` keeps a value `u`, the end of the scroll is noticed and the callback called within
`u / 3 + 1` ticks and then once in every `u / 3` consecutive ticks. -/
theorem scroll_end_noticed (board : Board) (length : LuaValue) (callback : Bool) (t : Ticker) (strip : Strip)
    (font : Nat → Nat) (events : List TickerEvent) (hsetup : tickerSetup board length callback = .ok t)
    (hlong : 30 ≤ t.length) (hsize : 6 * t.length < 2 ^ 32) :
    (ticking.Always (fun s => Aligned s.ticker.used s.ticker.position) ⟨t, strip, font⟩ events ∧
      ∀ a ∈ ticking.trace ⟨t, strip, font⟩ events, a.Aligned) ∧
    ∀ (u : Nat) (more : List TickerEvent), (ticking.final ⟨t, strip, font⟩ events).ticker.used = u → 0 < u →
      Steady u (ticking.trace (ticking.final ⟨t, strip, font⟩ events) more) →
      (u / 3 + 1 ≤ ticks more →
        TickerAction.finished callback ∈ ticking.trace (ticking.final ⟨t, strip, font⟩ events) more) ∧
      ∀ first window, more = first ++ window →
        TickerAction.finished callback ∈ ticking.trace (ticking.final ⟨t, strip, font⟩ events) first →
        ticks window = u / 3 →
        (ticking.trace (ticking.final (ticking.final ⟨t, strip, font⟩ events) first) window).count
          (.finished callback) = 1 := by
  obtain ⟨hused, hposition, -, hcallback⟩ := tickerSetup_spec hsetup
  have hinit : Scrolling t.length (Scroll.mk t strip font).ticker := by
    refine ⟨⟨rfl, ?_⟩, ?_, ?_⟩
    · show t.used ≤ t.length
      omega
    · show 3 ∣ t.used
      rw [hused]
      exact Nat.dvd_zero 3
    · show 3 * t.position ≤ t.used
      omega
  have hstep : ∀ (s : Scroll) (e : TickerEvent), Scrolling t.length s.ticker →
      Scrolling t.length (ticking.next s e).ticker := fun s e h => (ticking_scrolling hsize hlong s e h).1
  have halways := Machine.always_of_forall_step hstep hinit events
  refine ⟨⟨halways.mono fun s h => h.aligned, ?_⟩, ?_⟩
  · exact Machine.forall_trace_of_step hstep (fun s e h => (ticking_scrolling hsize hlong s e h).2) hinit events
  · intro u more hu hpos hsteady
    have hfixed : ticking.Always (fun s => s.ticker.callback = callback) ⟨t, strip, font⟩ events :=
      Machine.always_of_forall_step (fun s e h => (ticking_fixed s e).2.trans h) hcallback events
    have hrolling : Rolling t.length u callback (ticking.final ⟨t, strip, font⟩ events) :=
      ⟨halways.last, hu, hfixed.last⟩
    refine ⟨finished_mem hsize hlong hpos hrolling hsteady, ?_⟩
    intro first window hsplit hfinished hticks
    subst hsplit
    rw [Machine.trace_append, steady_append] at hsteady
    obtain ⟨hfirst, hwindow⟩ := hsteady
    have hfinal := hrolling.final hsize hlong hpos hfirst
    have hone := one_le_position hsize hlong hpos hrolling hfirst (Or.inr hfinished)
    have hdvd := hfinal.scrolling.dvd
    have hle := hfinal.scrolling.le
    rw [hfinal.used_eq] at hdvd hle
    rw [count_finished hsize hlong hpos hfinal hwindow hone, hticks, Nat.add_div_right _ (by omega),
      Nat.div_eq_of_lt (by omega)]

/-- Ticks whose callback does nothing leave `m_Used` alone. -/
theorem steady_ticks (u k : Nat) (s : Scroll) : Steady u (ticking.trace s (List.replicate k (.tick []))) := by
  induction k generalizing s with
  | zero => exact fun _ hv => absurd hv List.not_mem_nil
  | succ k ih =>
    rw [List.replicate_succ, Machine.trace_cons, steady_append]
    refine ⟨fun v hv => ?_, ih _⟩
    change TickerAction.used v ∈ (s.tickerScrollCb []).2 at hv
    have hdraw : ∀ t : Ticker, TickerAction.used v ∉ (t.draw s.strip).2 := by
      intro t hmem
      rcases mem_draw hmem with ⟨x, hx⟩ | ⟨row, column, k, -, -, -, hx⟩ <;> cases hx
    by_cases hused : s.ticker.used = 0
    · rw [Scroll.tickerScrollCb_empty [] hused] at hv
      exact absurd hv List.not_mem_nil
    · by_cases hend : s.ticker.AtEnd
      · have hcalled : s.called [] = [] := ite_self []
        rw [Scroll.tickerScrollCb_end [] hused hend, hcalled] at hv
        rcases List.mem_append.mp hv with hv | hv
        · exact absurd hv (hdraw s.ticker)
        · simp [Scroll.performAll] at hv
      · rw [Scroll.tickerScrollCb_within [] hused hend] at hv
        exact absurd hv (hdraw s.ticker)

/-- A cleared ticker notices the end within eleven ticks. -/
theorem scroll_end_noticed_cleared :
    ∃ t, tickerSetup .roomy (.number [53] 5) true = .ok t ∧ 30 ≤ t.length ∧ 6 * t.length < 2 ^ 32 ∧
      TickerAction.finished true ∈
        ticking.trace (ticking.final ⟨t, .single, fun _ => 0⟩ [.operation .clear]) (List.replicate 11 (.tick [])) := by
  obtain ⟨t, ht⟩ : ∃ t, tickerSetup .roomy (.number [53] 5) true = .ok t := ⟨_, rfl⟩
  have hlong : 30 ≤ t.length := by cases ht; decide
  have hsize : 6 * t.length < 2 ^ 32 := by cases ht; decide
  have hused : (ticking.final ⟨t, .single, fun _ => 0⟩ [.operation .clear]).ticker.used = 30 := by
    obtain ⟨buffer, hstate, -⟩ := tickerClear_state ⟨t, .single, fun _ => 0⟩
    rw [Machine.final_cons, Machine.final_nil, ticking_next_operation, Scroll.operate, hstate]
  refine ⟨t, ht, hlong, hsize, ?_⟩
  apply ((scroll_end_noticed .roomy (.number [53] 5) true t .single (fun _ => 0) [.operation .clear] ht hlong
    hsize).2 30 _ hused (by decide) (steady_ticks 30 11 _)).1
  decide

end EspClock.Led
