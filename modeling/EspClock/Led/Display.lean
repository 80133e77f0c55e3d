import EspClock.Led.Letters

/-!
# What a tick shows

The display shows ten columns of the text from the position on, going round at its end. Every LED of the display is
set once, so its bytes are those of its own place whatever the snake of the LEDs, and the LEDs behind the display
keep theirs.
-/

namespace EspClock.Led

open Mem

/-! ### The bytes of the strip -/

namespace Strip

/-- The three bytes of an LED. -/
def led (s : Strip) (i : Nat) : List (Option UInt8) := [s.buffer[3 * i]?, s.buffer[3 * i + 1]?, s.buffer[3 * i + 2]?]

/-- What `set_color` stores for a colour. -/
def ledBytes (r g b : Nat) : List UInt8 :=
  [UInt8.ofNat (gammaTable.getD g 0 ||| 0x80), UInt8.ofNat (gammaTable.getD r 0 ||| 0x80),
    UInt8.ofNat (gammaTable.getD b 0 ||| 0x80)]

/-- The stores of a `set_color` to an LED of the strip. -/
def colorStores (c : Color) : List (Nat × UInt8) :=
  [(3 * c.index, UInt8.ofNat (gammaTable.getD c.g 0 ||| 0x80)),
    (3 * c.index + 1, UInt8.ofNat (gammaTable.getD c.r 0 ||| 0x80)),
    (3 * c.index + 2, UInt8.ofNat (gammaTable.getD c.b 0 ||| 0x80))]

variable {s : Strip} {cs : List Color}

theorem setColors_buffer (hindex : ∀ c ∈ cs, c.index < s.length ∧ c.index < 60) :
    (s.setColors cs).1.buffer = scatter s.buffer (cs.flatMap colorStores) := by
  induction cs generalizing s with
  | nil => rfl
  | cons c cs ih =>
    obtain ⟨⟨hlt, hsmall⟩, hrest⟩ := List.forall_mem_cons.mp hindex
    have hfirst : (s.setColor c).1.buffer = scatter s.buffer (colorStores c) := by
      rw [setColor, Nat.mod_eq_of_lt hlt, wrap32_of_lt (by omega), wrap32_of_lt (by omega), wrap32_of_lt (by omega)]
      rfl
    rw [setColors, List.flatMap_cons, scatter_append, ← hfirst]
    exact ih hrest

/-- Different LEDs have different bytes. -/
theorem nodup_colorStores (hnodup : (cs.map Color.index).Nodup) : ((cs.flatMap colorStores).map Prod.fst).Nodup := by
  induction cs with
  | nil => exact List.nodup_nil
  | cons c cs ih =>
    rw [List.map_cons, List.nodup_cons] at hnodup
    obtain ⟨hfresh, hnodup⟩ := hnodup
    rw [List.flatMap_cons, List.map_append]
    refine List.nodup_append.mpr ⟨by simp [colorStores], ih hnodup, fun i hi j hj hij => ?_⟩
    obtain ⟨p, hp, rfl⟩ := List.mem_map.mp hi
    obtain ⟨q, hq, rfl⟩ := List.mem_map.mp hj
    obtain ⟨c', hc', hq⟩ := List.mem_flatMap.mp hq
    have hne : c'.index ≠ c.index := fun heq => hfresh (List.mem_map.mpr ⟨c', hc', heq⟩)
    simp only [colorStores, List.mem_cons, List.not_mem_nil, or_false] at hp hq
    rcases hp with rfl | rfl | rfl <;> rcases hq with rfl | rfl | rfl <;> dsimp only at hij <;> omega

/-- An LED that is set once has its colour. -/
theorem led_setColors (hindex : ∀ c ∈ cs, c.index < s.length ∧ c.index < 60) (hnodup : (cs.map Color.index).Nodup)
    (hbuffer : s.buffer.length = 3 * s.length) {c : Color} (hc : c ∈ cs) :
    (s.setColors cs).1.led c.index = (ledBytes c.r c.g c.b).map some := by
  obtain ⟨hlt, -⟩ := hindex c hc
  have hbyte : ∀ p ∈ colorStores c, (s.setColors cs).1.buffer[p.1]? = some p.2 := by
    intro p hp
    rw [setColors_buffer hindex]
    refine getElem?_scatter_of_mem (nodup_colorStores hnodup) (List.mem_flatMap.mpr ⟨c, hc, hp⟩) ?_
    simp only [colorStores, List.mem_cons, List.not_mem_nil, or_false] at hp
    rcases hp with rfl | rfl | rfl <;> dsimp only <;> omega
  simp only [colorStores, List.forall_mem_cons] at hbyte
  rw [led, hbyte.1, hbyte.2.1, hbyte.2.2.1]
  rfl

/-- An LED that is not set keeps its colour. -/
theorem led_setColors_of_ne (hindex : ∀ c ∈ cs, c.index < s.length ∧ c.index < 60) {i : Nat}
    (hi : ∀ c ∈ cs, c.index ≠ i) : (s.setColors cs).1.led i = s.led i := by
  have hbyte : ∀ k < 3, (s.setColors cs).1.buffer[3 * i + k]? = s.buffer[3 * i + k]? := by
    intro k hk
    rw [setColors_buffer hindex]
    refine getElem?_scatter_of_ne fun p hp => ?_
    obtain ⟨c, hc, hp⟩ := List.mem_flatMap.mp hp
    have hne := hi c hc
    simp only [colorStores, List.mem_cons, List.not_mem_nil, or_false] at hp
    rcases hp with rfl | rfl | rfl <;> dsimp only <;> omega
  rw [led, led, hbyte 1 (by decide), hbyte 2 (by decide)]
  have hfirst := hbyte 0 (by decide)
  rw [Nat.add_zero] at hfirst
  rw [hfirst]

end Strip

/-! ### The display -/

/-- The component of the colour stored for a column of the text in a row. -/
def Ticker.stored (t : Ticker) (row column k : Nat) : Nat := (t.buffer.getD (row * t.length + column * 3 + k) 0).toNat

variable {t : Ticker} {s : Strip}

theorem drawPlaces_strip (l : List (Nat × Nat)) :
    (t.drawPlaces s l).1 = (s.setColors (l.map fun place => t.shownColor place.1 place.2)).1 := by
  induction l generalizing s with
  | nil => rfl
  | cons place l ih =>
    obtain ⟨row, column⟩ := place
    exact ih

theorem draw_strip (t : Ticker) (s : Strip) : (t.draw s).1 = (t.drawPlaces s Ticker.places).1 := by
  unfold Ticker.draw
  generalize t.drawPlaces s Ticker.places = drawn
  rfl

/-- The byte offset goes round where the text does. -/
theorem shownIndex_eq (hmemory : t.Allocated) (hpos : 0 < t.used) (hdvd : 3 ∣ t.used) (hused : t.used ≤ t.length)
    (hposition : 3 * t.position ≤ t.used) {row column k : Nat} (hrow : row < 6) (hcolumn : column < 10) (hk : k < 3) :
    t.shownIndex row column k = row * t.length + (t.position + column) % (t.used / 3) * 3 + k := by
  obtain ⟨m, hm⟩ := hdvd
  have hsize := hmemory.addressable
  have hcolumns : t.used / 3 = m := by omega
  have hround : ((t.position + column) * 3 + k) % t.used = (t.position + column) % m * 3 + k := by
    rw [hm, Nat.mod_mul, show ((t.position + column) * 3 + k) % 3 = k by omega,
      show ((t.position + column) * 3 + k) / 3 = t.position + column by omega]
    omega
  have hmod : ((t.position + column) * 3 + k) % t.used < t.used := Nat.mod_lt _ hpos
  have hlt := row_lt hrow (hmod.trans_le hused)
  rw [Ticker.shownIndex, wrap32_of_lt (show (t.position + column) * 3 + k < 2 ^ 32 by omega), Nat.mul_comm row,
    wrap32_of_lt (by omega), hround, hcolumns]
  omega

theorem places_index : ∀ row < 6, ∀ column < 10, (row, column) ∈ Ticker.places := by decide

/-- The LEDs of the display. -/
def displayed : List Nat := Ticker.places.map fun place => ledMapping.getD (place.2 + place.1 * 10) 0

theorem displayed_nodup : displayed.Nodup := by decide +kernel

theorem displayed_lt : ∀ i ∈ displayed, i < 60 := by decide

/-- What the strip is after a tick has drawn. -/
structure Displays (t : Ticker) (s s' : Strip) : Prop where
  pixel : ∀ row < 6, ∀ column < 10, ∀ i ∈ ledMapping[10 * row + column]?,
    s'.led i = (Strip.ledBytes (t.stored row ((t.position + column) % (t.used / 3)) 0)
      (t.stored row ((t.position + column) % (t.used / 3)) 1)
      (t.stored row ((t.position + column) % (t.used / 3)) 2)).map some
  behind : ∀ i, 60 ≤ i → s'.led i = s.led i

/-- At full brightness every LED of the display shows its column of the text, and no other LED changes. -/
theorem draw_displays (t : Ticker) (s : Strip) (hmemory : t.Allocated) (hpos : 0 < t.used) (hdvd : 3 ∣ t.used)
    (hused : t.used ≤ t.length) (hposition : 3 * t.position ≤ t.used) (hbright : ∀ b < 256, t.brightness b = b)
    (hstrip : 60 ≤ s.length) (hbuffer : s.buffer.length = 3 * s.length) : Displays t s (t.draw s).1 := by
  set cs := Ticker.places.map fun place => t.shownColor place.1 place.2 with hcs
  have hdraw : (t.draw s).1 = (s.setColors cs).1 := by
    rw [draw_strip, drawPlaces_strip]
  have hleds : cs.map Color.index = displayed := by
    rw [hcs, List.map_map]
    rfl
  have hindex : ∀ c ∈ cs, c.index < s.length ∧ c.index < 60 := by
    intro c hc
    have hlt := displayed_lt c.index (hleds ▸ List.mem_map_of_mem hc)
    exact ⟨hlt.trans_le hstrip, hlt⟩
  have hnodup : (cs.map Color.index).Nodup := hleds ▸ displayed_nodup
  rw [hdraw]
  refine ⟨fun row hrow column hcolumn i hi => ?_, fun i hi => ?_⟩
  · have hmem : t.shownColor row column ∈ cs := List.mem_map.mpr ⟨(row, column), places_index row hrow column hcolumn, rfl⟩
    have hled : (t.shownColor row column).index = i := by
      show ledMapping.getD (column + row * 10) 0 = i
      rw [List.getD_eq_getElem?_getD, show column + row * 10 = 10 * row + column by omega, Option.mem_def.mp hi]
      rfl
    have hshown : ∀ k < 3, t.shown row column k = t.stored row ((t.position + column) % (t.used / 3)) k := by
      intro k hk
      rw [Ticker.shown, hbright _ (UInt8.toNat_lt _), shownIndex_eq hmemory hpos hdvd hused hposition hrow hcolumn hk]
      rfl
    have hcolor := Strip.led_setColors hindex hnodup hbuffer hmem
    rw [hled] at hcolor
    rw [hcolor, ← hshown 0 (by decide), ← hshown 1 (by decide), ← hshown 2 (by decide)]
    rfl
  · refine Strip.led_setColors_of_ne hindex fun c hc heq => ?_
    have hlt := (hindex c hc).2
    omega

/-- A text of one column on a strip of 61 LEDs. -/
theorem draw_displays_column :
    Displays ⟨24, 3, 1, List.replicate 144 9, id, false⟩ ⟨3, 4, 61, 0, 2, List.replicate 183 128⟩
      (Ticker.draw ⟨24, 3, 1, List.replicate 144 9, id, false⟩ ⟨3, 4, 61, 0, 2, List.replicate 183 128⟩).1 :=
  draw_displays ⟨24, 3, 1, List.replicate 144 9, id, false⟩ ⟨3, 4, 61, 0, 2, List.replicate 183 128⟩
    ⟨List.length_replicate, by decide⟩ (by decide) (by decide) (by decide) (by decide) (fun _ _ => rfl) (by decide)
    List.length_replicate

end EspClock.Led
