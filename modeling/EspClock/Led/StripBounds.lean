import EspClock.Led.TickerBounds

/-!
# The bounds of the strip

Colours and lengths reach the gamma table and the strip's buffer as the words Lua's integers convert
to. The index of an LED is reduced modulo the length of the strip, so it stays inside the buffer once
the allocation of three bytes an LED does not overflow; the setup touches every LED, so it does not go
unnoticed if it does. What is left is the modulo by the length of an empty strip and the colours, those
of a ticker after its brightness has scaled them.

The ticker that draws is part of the event: any ticker, with any contents, position and brightness.
-/

namespace EspClock.Led

open Mem

inductive StripEvent where
  | setColor (index r g b : LuaValue)
  | clear (r g b : LuaValue)
  | update
  | tickerClear
  | tick (t : Ticker)

/-- A strip under its own operations, the clears of tickers and their ticks. -/
def stripping : Machine Strip StripEvent TickerAction :=
  ⟨fun s e =>
    match e with
    | .setColor index r g b =>
      let (s, a, _) := lpdSetColor s index r g b
      (s, a.map .strip)
    | .clear r g b =>
      let (s, a) := lpdClear s r g b
      (s, a.map .strip)
    | .update => (s, s.update.map .strip)
    | .tickerClear =>
      let (s, a) := s.clear 0 0 0
      (s, (a ++ s.update).map .strip)
    | .tick t => if t.used = 0 then (s, []) else t.draw s⟩

def Access.Safe (size : Nat) : Access → Prop
  | .gamma index => index ≤ 255
  | .modulo divisor => divisor ≠ 0
  | .buffer index => index < size
  | .transfer _ => True

/-- An access to the strip is safe for a buffer of a size. -/
def TickerAction.StripSafe (size : Nat) : TickerAction → Prop
  | .strip access => access.Safe size
  | _ => True

def Color.InTable (c : Color) : Prop := c.r ≤ 255 ∧ c.g ≤ 255 ∧ c.b ≤ 255

/-- LEDs are set on a strip that has some, and to colours that the gamma table has. -/
def Harmless (s : Strip) : StripEvent → Prop
  | .setColor index r g b => ∀ c ∈ (setColorCalls index r g b).1, s.length ≠ 0 ∧ c.InTable
  | .clear r g b => s.length ≠ 0 → Color.InTable ⟨0, r.wordOr 0, g.wordOr 0, b.wordOr 0⟩
  | .update | .tickerClear => True
  | .tick t => t.used ≠ 0 → s.length ≠ 0 ∧ ∀ place ∈ Ticker.places, (t.shownColor place.1 place.2).InTable

/-! ### Accesses -/

/-- The accesses of a `set_color` on a strip of a length. -/
def colorAccesses (length : Nat) (c : Color) : List Access :=
  [.modulo length, .gamma c.r, .gamma c.g, .gamma c.b, .buffer (wrap32 (3 * (c.index % length))),
    .buffer (wrap32 (3 * (c.index % length) + 1)), .buffer (wrap32 (3 * (c.index % length) + 2))]

theorem setColors_actions (s : Strip) (cs : List Color) :
    (s.setColors cs).2 = cs.flatMap (colorAccesses s.length) := by
  induction cs generalizing s with
  | nil => rfl
  | cons c cs ih =>
    rw [Strip.setColors, List.flatMap_cons]
    exact congrArg (colorAccesses s.length c ++ ·) (ih (s.setColor c).1)

theorem colorAccesses_safe_iff {length : Nat} (hsize : 3 * length < 2 ^ 32) (c : Color) :
    (∀ a ∈ colorAccesses length c, a.Safe (3 * length)) ↔ length ≠ 0 ∧ c.InTable := by
  simp only [colorAccesses, List.forall_mem_cons, Access.Safe, Color.InTable]
  constructor
  · intro h
    exact ⟨h.1, h.2.1, h.2.2.1, h.2.2.2.1⟩
  · intro h
    have hlt : c.index % length < length := Nat.mod_lt _ (Nat.pos_of_ne_zero h.1)
    rw [wrap32_of_lt (by omega), wrap32_of_lt (by omega), wrap32_of_lt (by omega)]
    refine ⟨h.1, h.2.1, h.2.2.1, h.2.2.2, ?_, ?_, ?_, fun a ha => absurd ha List.not_mem_nil⟩ <;> omega

theorem update_safe (s : Strip) {size : Nat} (hsize : wrap32 (s.length * 3) ≤ size) :
    ∀ a ∈ s.update, a.Safe size := by
  intro a ha
  rcases List.mem_append.mp ha with ha | ha
  · obtain ⟨i, hi, ha⟩ := List.mem_flatMap.mp ha
    have hi := List.mem_range.mp hi
    have hle := Nat.mod_le (wrap32 (s.length * 3)) (2 ^ 16)
    rcases List.mem_cons.mp ha with rfl | ha
    · show i < size
      omega
    · rw [List.mem_singleton.mp ha]
      trivial
  · rw [List.eq_of_mem_replicate ha]
    trivial

theorem forall_strip_iff {size : Nat} (l : List Access) :
    (∀ a ∈ l.map TickerAction.strip, a.StripSafe size) ↔ ∀ a ∈ l, a.Safe size := by
  rw [List.forall_mem_map]
  rfl

/-! ### One event -/

section Step

variable {n : Nat} {s : Strip}

theorem setColors_safe_iff (hsize : 3 * n < 2 ^ 32) (h : s.length = n) (cs : List Color) :
    (∀ a ∈ (s.setColors cs).2, a.Safe (3 * n)) ↔ ∀ c ∈ cs, n ≠ 0 ∧ c.InTable := by
  rw [setColors_actions, h]
  simp only [List.mem_flatMap, forall_exists_index, and_imp]
  constructor
  · intro hall c hc
    exact (colorAccesses_safe_iff hsize c).mp fun a ha => hall a c hc ha
  · intro hall a c hc ha
    exact (colorAccesses_safe_iff hsize c).mpr (hall c hc) a ha

theorem clear_safe_iff (hsize : 3 * n < 2 ^ 32) (h : s.length = n) (r g b : Nat) :
    (∀ a ∈ (s.clear r g b).2, a.Safe (3 * n)) ↔ (n ≠ 0 → Color.InTable ⟨0, r, g, b⟩) := by
  rw [Strip.clear, setColors_safe_iff hsize h, List.forall_mem_map, h]
  constructor
  · intro hall hn
    exact (hall 0 (List.mem_range.mpr (Nat.pos_of_ne_zero hn))).2
  · intro hall i hi
    have hn : n ≠ 0 := Nat.ne_of_gt (Nat.lt_of_le_of_lt (Nat.zero_le i) (List.mem_range.mp hi))
    exact ⟨hn, hall hn⟩

theorem drawPlaces_safe_iff (hsize : 3 * n < 2 ^ 32) (h : s.length = n) (t : Ticker) (l : List (Nat × Nat)) :
    (∀ a ∈ (t.drawPlaces s l).2, a.StripSafe (3 * n)) ↔
      ∀ place ∈ l, n ≠ 0 ∧ (t.shownColor place.1 place.2).InTable := by
  induction l generalizing s with
  | nil => simp [Ticker.drawPlaces]
  | cons place l ih =>
    obtain ⟨row, column⟩ := place
    have hreads : ∀ a ∈ (List.range 3).map (fun k => TickerAction.buffer (t.shownIndex row column k)),
        a.StripSafe (3 * n) := by
      intro a ha
      obtain ⟨k, -, rfl⟩ := List.mem_map.mp ha
      trivial
    have hcolor : (∀ a ∈ (s.setColor (t.shownColor row column)).2, a.Safe (3 * n)) ↔
        n ≠ 0 ∧ (t.shownColor row column).InTable := by
      rw [← colorAccesses_safe_iff hsize, ← h]
      rfl
    have hrest := ih (s := (s.setColor (t.shownColor row column)).1) h
    rw [Ticker.drawPlaces]
    simp only [List.forall_mem_append, List.forall_mem_cons, forall_strip_iff, hcolor, hrest]
    rw [and_iff_right hreads]

theorem drawPlaces_length (t : Ticker) (l : List (Nat × Nat)) :
    (t.drawPlaces s l).1.length = s.length ∧ (t.drawPlaces s l).1.buffer.length = s.buffer.length := by
  induction l generalizing s with
  | nil => exact ⟨rfl, rfl⟩
  | cons place l ih =>
    obtain ⟨hlength, hbuffer⟩ := ih (s := (s.setColor (t.shownColor place.1 place.2)).1)
    exact ⟨hlength, hbuffer.trans (s.setColor_buffer_length _)⟩

/-- Every event keeps the length of the strip. -/
theorem stripping_length (s : Strip) (e : StripEvent) : (stripping.next s e).length = s.length := by
  cases e with
  | setColor index r g b => exact s.setColors_length _
  | clear r g b => exact s.clear_length _ _ _
  | update => rfl
  | tickerClear => exact s.clear_length _ _ _
  | tick t =>
    change (if t.used = 0 then (s, []) else t.draw s).1.length = s.length
    split
    · rfl
    · have hlength := (drawPlaces_length (s := s) t Ticker.places).1
      unfold Ticker.draw
      generalize t.drawPlaces s Ticker.places = drawn at hlength ⊢
      exact hlength

theorem stripping_safe_iff (hsize : 3 * n < 2 ^ 32) (s : Strip) (e : StripEvent) (h : s.length = n) :
    (∀ a ∈ stripping.actions s e, a.StripSafe (3 * n)) ↔ Harmless s e := by
  have hupdate : ∀ s' : Strip, s'.length = n → ∀ a ∈ s'.update, a.Safe (3 * n) := by
    intro s' h'
    apply update_safe
    rw [h', Nat.mul_comm, wrap32_of_lt hsize]
  cases e with
  | setColor index r g b =>
    change (∀ a ∈ (s.setColors (setColorCalls index r g b).1).2.map TickerAction.strip, a.StripSafe (3 * n)) ↔ _
    rw [forall_strip_iff, setColors_safe_iff hsize h, Harmless, h]
  | clear r g b =>
    change (∀ a ∈ ((s.clear (r.wordOr 0) (g.wordOr 0) (b.wordOr 0)).2 ++
      (s.clear (r.wordOr 0) (g.wordOr 0) (b.wordOr 0)).1.update).map TickerAction.strip, a.StripSafe (3 * n)) ↔ _
    rw [forall_strip_iff, List.forall_mem_append, clear_safe_iff hsize h, Harmless, h]
    exact and_iff_left (hupdate _ ((s.clear_length _ _ _).trans h))
  | update =>
    refine iff_of_true ?_ trivial
    change ∀ a ∈ s.update.map TickerAction.strip, a.StripSafe (3 * n)
    rw [forall_strip_iff]
    exact hupdate s h
  | tickerClear =>
    refine iff_of_true ?_ trivial
    change ∀ a ∈ ((s.clear 0 0 0).2 ++ (s.clear 0 0 0).1.update).map TickerAction.strip, a.StripSafe (3 * n)
    rw [forall_strip_iff, List.forall_mem_append, clear_safe_iff hsize h]
    exact ⟨fun _ => ⟨by decide, by decide, by decide⟩, hupdate _ ((s.clear_length _ _ _).trans h)⟩
  | tick t =>
    change (∀ a ∈ (if t.used = 0 then (s, []) else t.draw s).2, a.StripSafe (3 * n)) ↔ _
    by_cases hused : t.used = 0
    · rw [if_pos hused]
      exact iff_of_true (fun _ ha => absurd ha List.not_mem_nil) fun hne => absurd hused hne
    · rw [if_neg hused, Ticker.draw, List.forall_mem_append, drawPlaces_safe_iff hsize h, forall_strip_iff,
        and_iff_left (hupdate _ ((drawPlaces_length t Ticker.places).1.trans h)), Harmless, h]
      constructor
      · intro hall _
        exact ⟨(hall (0, 0) (by decide)).1, fun place hplace => (hall place hplace).2⟩
      · intro hall place hplace
        exact ⟨(hall hused).1, (hall hused).2 place hplace⟩

end Step

/-! ### Setup and runs -/

theorem lpdSetup_spec {board : Board} {mosi clk length type delay : LuaValue} {s : Strip} {a : List Access}
    (h : lpdSetup board mosi clk length type delay = .ok (s, a)) :
    ∃ s₀ : Strip, s₀.buffer.length = wrap32 (s₀.length * 3) ∧ s = (s₀.clear 0 0 0).1 ∧
      a = (s₀.clear 0 0 0).2 ++ (s₀.clear 0 0 0).1.update := by
  unfold lpdSetup at h
  split at h
  · dsimp only at h
    split_ifs at h
    have hpair := Except.ok.inj h
    rw [Prod.mk.injEq] at hpair
    exact ⟨_, List.length_replicate, hpair.1.symm, hpair.2.symm⟩
  · cases h
  · cases h
  · cases h

/-- On a strip whose allocation overflows, the clear of the setup reaches the last word there is. -/
theorem clear_overflow {s : Strip} (hsize : 2 ^ 32 ≤ 3 * s.length) :
    Access.buffer (2 ^ 32 - 1) ∈ (s.clear 0 0 0).2 := by
  have hindex : 1431655765 < s.length := by omega
  rw [Strip.clear, setColors_actions]
  apply List.mem_flatMap.mpr
  refine ⟨⟨1431655765, 0, 0, 0⟩, List.mem_map.mpr ⟨1431655765, List.mem_range.mpr hindex, rfl⟩, ?_⟩
  have hword : wrap32 (3 * (1431655765 % s.length)) = 2 ^ 32 - 1 := by
    rw [Nat.mod_eq_of_lt hindex]
    rfl
  rw [colorAccesses, hword]
  simp

/-- For every strip that the setup accepts and any operations and ticks: no index leaves the gamma table
or the strip's buffer and no modulo is by zero exactly when the size of the buffer does not overflow
and every LED that is set is one of a strip that has some and gets a colour that the gamma table has. -/
theorem strip_safe_iff (board : Board) (mosi clk length type delay : LuaValue) (s : Strip) (a : List Access)
    (events : List StripEvent) (hsetup : lpdSetup board mosi clk length type delay = .ok (s, a)) :
    ((∀ x ∈ a, x.Safe s.buffer.length) ∧ ∀ x ∈ stripping.trace s events, x.StripSafe s.buffer.length) ↔
      3 * s.length < 2 ^ 32 ∧ stripping.Along Harmless s events := by
  obtain ⟨s₀, hbuffer, rfl, rfl⟩ := lpdSetup_spec hsetup
  rw [s₀.clear_buffer_length, s₀.clear_length, hbuffer]
  by_cases hsize : 3 * s₀.length < 2 ^ 32
  · have hwrap : wrap32 (s₀.length * 3) = 3 * s₀.length := by rw [Nat.mul_comm, wrap32_of_lt hsize]
    have hclear : ∀ x ∈ (s₀.clear 0 0 0).2 ++ (s₀.clear 0 0 0).1.update, x.Safe (3 * s₀.length) := by
      rw [List.forall_mem_append, clear_safe_iff hsize rfl]
      refine ⟨fun _ => ⟨by decide, by decide, by decide⟩, update_safe _ ?_⟩
      rw [s₀.clear_length, hwrap]
    rw [hwrap, and_iff_right hclear, and_iff_right hsize, Machine.forall_trace_iff]
    exact Machine.along_iff_of_step (I := fun s => s.length = s₀.length)
      (fun s e h => (stripping_length s e).trans h) (stripping_safe_iff hsize) (s₀.clear_length 0 0 0) events
  · refine iff_of_false (fun hsafe => ?_) fun hok => hsize hok.1
    have hlast := hsafe.1 _ (List.mem_append_left _ (clear_overflow (Nat.le_of_not_lt hsize)))
    have hlt := wrap32_lt (s₀.length * 3)
    change 2 ^ 32 - 1 < wrap32 (s₀.length * 3) at hlast
    omega

/-- A strip of two LEDs, set and updated. -/
theorem strip_safe_iff_two_leds :
    ∃ s a, lpdSetup .roomy (.number [51] 3) (.number [52] 4) (.number [50] 2) .other .other = .ok (s, a) ∧
      (∀ x ∈ a, x.Safe s.buffer.length) ∧
      ∀ x ∈ stripping.trace s [.setColor (.number [45, 49] (-1)) (.number [57] 9) (.number [48] 0) (.number [48] 0),
        .update], x.StripSafe s.buffer.length := by
  refine ⟨_, _, rfl, ?_⟩
  apply (strip_safe_iff .roomy (.number [51] 3) (.number [52] 4) (.number [50] 2) .other .other _ _ _ rfl).mpr
  refine ⟨by decide, ?_, trivial, trivial⟩
  intro c hc
  rw [show (setColorCalls (.number [45, 49] (-1)) (.number [57] 9) (.number [48] 0) (.number [48] 0)).1 =
    [⟨2 ^ 32 - 1, 9, 0, 0⟩] from rfl, List.mem_singleton] at hc
  subst hc
  exact ⟨by decide, by decide, by decide, by decide⟩

/-- A colour of 256 is behind the gamma table. -/
theorem color_beyond_gamma :
    ¬ ∀ (length : LuaValue) (s : Strip) (a : List Access) (events : List StripEvent),
      lpdSetup .roomy (.number [51] 3) (.number [52] 4) length .other .other = .ok (s, a) →
      (∀ x ∈ a, x.Safe s.buffer.length) ∧ ∀ x ∈ stripping.trace s events, x.StripSafe s.buffer.length := by
  intro hall
  have hsafe : 256 ≤ 255 := (hall (.number [49] 1) _ _ [.setColor (.number [48] 0) (.number [50, 53, 54] 256)
    (.number [48] 0) (.number [48] 0)] rfl).2 (.strip (.gamma 256)) (by decide)
  omega

end EspClock.Led
