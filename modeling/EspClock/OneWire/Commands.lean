import EspClock.OneWire.Bits

/-!
# Bytes on the bus

A byte is taken by every slave that listens. The slaves that have been reset take the command, and the code of a selection
leaves the slave with this code selected and all the others idle.
-/

namespace EspClock.OneWire

open Mem

variable {σ : Type} {w : Wire σ} {slaves : List (Slave σ)}

namespace Slave

/-- What a slave makes of the levels it takes in successive slots. -/
def takes (bits : List Bool) (s : Slave σ) : Slave σ := bits.foldl slot s

/-- The slave does not send a zero in the next `n` slots, whatever it takes in them. -/
def Listens : Nat → Slave σ → Prop
  | 0, _ => True
  | n + 1, s => s.sendsZero = false ∧ ∀ level, Listens n (s.slot level)

theorem takes_append (a b : List Bool) (s : Slave σ) : s.takes (a ++ b) = (s.takes a).takes b := List.foldl_append

theorem Listens.mono {m n : Nat} {s : Slave σ} (h : s.Listens n) (hmn : m ≤ n) : s.Listens m := by
  induction m generalizing n s with
  | zero => trivial
  | succ m ih =>
    obtain ⟨n, rfl⟩ : ∃ k, n = k + 1 := ⟨n - 1, by omega⟩
    exact ⟨h.1, fun level => ih (h.2 level) (Nat.le_of_succ_le_succ hmn)⟩

theorem listens_add {m n : Nat} {s : Slave σ} (hm : s.Listens m)
    (hn : ∀ bits : List Bool, bits.length = m → (s.takes bits).Listens n) : s.Listens (m + n) := by
  induction m generalizing s with
  | zero =>
    rw [Nat.zero_add]
    exact hn [] rfl
  | succ m ih =>
    rw [show m + 1 + n = m + n + 1 by omega]
    refine ⟨hm.1, fun level => ih (hm.2 level) fun bits hbits => ?_⟩
    exact hn (level :: bits) (by rw [List.length_cons, hbits])

theorem listens_idle (s : Slave σ) (n : Nat) : (s.enter .idle).Listens n := by
  induction n with
  | zero => trivial
  | succ n ih => exact ⟨rfl, fun level => ih⟩

theorem listens_command (s : Slave σ) {n : Nat} {received : List Bool} (h : received.length + n = 8) :
    (s.enter (.command received)).Listens n := by
  induction n generalizing received with
  | zero => trivial
  | succ n ih =>
    refine ⟨rfl, fun level => ?_⟩
    show Listens n (s.enter (if (received ++ [level]).length = 8 then _ else _))
    cases n with
    | zero => trivial
    | succ n =>
      have hlength : (received ++ [level]).length = received.length + 1 := List.length_append
      rw [if_neg (by omega)]
      exact ih (by omega)

/-- Eight bits are a command. -/
theorem takes_command (s : Slave σ) {received bits : List Bool} (h : received.length + bits.length = 8)
    (hne : bits ≠ []) :
    (s.enter (.command received)).takes bits = s.enter (s.order (byteOf (received ++ bits))) := by
  induction bits generalizing received with
  | nil => exact absurd rfl hne
  | cons b bits ih =>
    have hlength : (received ++ [b]).length = received.length + 1 := List.length_append
    rw [List.length_cons] at h
    show Slave.takes bits (s.enter (if (received ++ [b]).length = 8 then _ else _)) = _
    cases bits with
    | nil =>
      rw [if_pos (by rw [hlength]; exact h)]
      rfl
    | cons c bits =>
      rw [List.length_cons] at h
      rw [if_neg (by omega), ih (by rw [hlength, List.length_cons]; omega) (List.cons_ne_nil c bits), List.append_assoc]
      rfl

/-- A slave that never sends a zero once it is selected. -/
theorem listens_selected (s : Slave σ) (h : ∀ state, s.app.sends state = true) (state : σ) (n : Nat) :
    (s.enter (.selected state)).Listens n := by
  induction n generalizing state with
  | zero => trivial
  | succ n ih =>
    refine ⟨?_, fun level => ih (s.app.slot state level)⟩
    show (!s.app.sends state) = false
    rw [h]
    rfl

theorem takes_idle (s : Slave σ) (bits : List Bool) : (s.enter .idle).takes bits = s.enter .idle := by
  induction bits with
  | nil => rfl
  | cons b bits ih => exact ih

theorem takes_byte (s : Slave σ) (v : UInt8) : (s.enter (.command [])).takes (lsbFirst v) = s.enter (s.order v) := by
  have hne : lsbFirst v ≠ [] := List.ne_nil_of_length_eq_add_one (length_lsbFirst v)
  rw [takes_command s (by rw [length_lsbFirst]; rfl) hne, List.nil_append, byteOf_lsbFirst]

theorem listens_matching (s : Slave σ) {n i : Nat} (h : i + n = 64) : (s.enter (.matching i)).Listens n := by
  induction n generalizing i with
  | zero => trivial
  | succ n ih =>
    refine ⟨rfl, fun level => ?_⟩
    show Listens n (s.enter (if level = s.rom.bit i then _ else _))
    split
    · cases n with
      | zero => trivial
      | succ n =>
        rw [if_pos (by omega)]
        exact ih (by omega)
    · exact listens_idle s n

/-- The bits of a code select the slave that has it. -/
theorem takes_matching (s : Slave σ) {i : Nat} {bits : List Bool} (h : i + bits.length = 64) (hne : bits ≠ []) :
    (s.enter (.matching i)).takes bits =
      s.enter (if bits = s.rom.bits.drop i then .selected s.app.start else .idle) := by
  induction bits generalizing i with
  | nil => exact absurd rfl hne
  | cons b bits ih =>
    rw [List.length_cons] at h
    have hi : i < 64 := by omega
    have hdrop : s.rom.bits.drop i = s.rom.bit i :: s.rom.bits.drop (i + 1) := by
      rw [List.drop_eq_getElem_cons (by rw [Rom.length_bits]; exact hi)]
      congr 1
      exact Option.some.inj ((List.getElem?_eq_getElem (by rw [Rom.length_bits]; exact hi)).symm.trans (s.rom.getElem?_bits hi))
    have hcond : b :: bits = s.rom.bits.drop i ↔ b = s.rom.bit i ∧ bits = s.rom.bits.drop (i + 1) := by
      rw [hdrop, List.cons.injEq]
    show Slave.takes bits (s.enter (if b = s.rom.bit i then _ else _)) = _
    by_cases hb : b = s.rom.bit i
    · rw [if_pos hb]
      cases bits with
      | nil =>
        have hlast : s.rom.bits.drop (i + 1) = [] := List.drop_eq_nil_of_le (by rw [Rom.length_bits]; exact Nat.le_of_eq h.symm)
        rw [if_neg (by rw [List.length_nil] at h; omega), if_pos (hcond.mpr ⟨hb, hlast.symm⟩)]
        rfl
      | cons c bits =>
        rw [List.length_cons] at h
        rw [if_pos (by omega), ih (by rw [List.length_cons]; omega) (List.cons_ne_nil c bits)]
        by_cases hrest : c :: bits = s.rom.bits.drop (i + 1)
        · rw [if_pos hrest, if_pos (hcond.mpr ⟨hb, hrest⟩)]
        · rw [if_neg hrest, if_neg fun heq => hrest (hcond.mp heq).2]
    · rw [if_neg hb, if_neg fun heq => hb (hcond.mp heq).1]
      exact takes_idle s bits

end Slave

/-! ### Writing -/

theorem writeBits_eq (v : UInt8) (w : Wire σ) : writeBits v w = (lsbFirst v).foldl (fun w b => writeBit b w) w := by
  have hmasks : ∀ m < 8, (maskAt m &&& v != 0) = v.toNat.testBit m := by
    intro m hm
    rw [UInt8.and_comm, and_maskAt_ne_zero v hm]
  have hbits : bitMasks.map (fun bitMask => bitMask &&& v != 0) = lsbFirst v := by
    show [maskAt 0 &&& v != 0, maskAt 1 &&& v != 0, maskAt 2 &&& v != 0, maskAt 3 &&& v != 0, maskAt 4 &&& v != 0,
      maskAt 5 &&& v != 0, maskAt 6 &&& v != 0, maskAt 7 &&& v != 0] = _
    simp only [hmasks 0 (by decide), hmasks 1 (by decide), hmasks 2 (by decide), hmasks 3 (by decide), hmasks 4 (by decide),
      hmasks 5 (by decide), hmasks 6 (by decide), hmasks 7 (by decide)]
    rfl
  rw [writeBits, ← hbits, List.foldl_map]

theorem silent_of_listens {n : Nat} (h : ∀ s ∈ slaves, s.Listens (n + 1)) : Silent slaves := fun s hs => (h s hs).1

theorem foldl_writeBit_wrote {bits : List Bool} (hready : w.Ready) (h : ∀ s ∈ w.content, s.Listens bits.length) :
    Wrote (bits.foldl (fun w b => writeBit b w) w) (w.content.map (·.takes bits)) := by
  induction bits generalizing w with
  | nil => exact ⟨hready, (List.map_id' w.content).symm⟩
  | cons b bits ih =>
    obtain ⟨hready', hcontent⟩ := writeBit_wrote hready (silent_of_listens h) b
    have hrest := ih hready' (by
      rw [hcontent]
      intro s hs
      obtain ⟨s, hmem, rfl⟩ := List.mem_map.mp hs
      exact (h s hmem).2 b)
    rw [hcontent, List.map_map] at hrest
    exact hrest

/-- A written bit leaves a line that comes up by itself. -/
theorem level_release_writeBit (h : w.Ready) (v : Bool) : (writeBit v w).release.level = true := by
  rw [writeBit_eq h]
  refine level_released fun s _ => ?_
  have hhold := s.timing.hold_bounds
  cases v
  · show s.holds 65 5 = false
    rw [holds_slot s (by decide), decide_eq_false (by omega), Bool.and_false]
  · show s.holds 10 55 = false
    rw [holds_slot s (by decide), decide_eq_false (by omega), Bool.and_false]

/-- A line that the master holds up and that would come up by itself. -/
structure Held (w' : Wire σ) (slaves : List (Slave σ)) : Prop extends Wrote w' slaves where
  drive_eq : w'.drive = .high
  up : w'.release.level = true

theorem foldl_writeBit_held {bits : List Bool} (hne : bits ≠ []) (hready : w.Ready)
    (h : ∀ s ∈ w.content, s.Listens bits.length) :
    Held (bits.foldl (fun w b => writeBit b w) w) (w.content.map (·.takes bits)) := by
  have hbefore : ∀ s ∈ w.content, s.Listens bits.dropLast.length := by
    intro s hs
    refine (h s hs).mono ?_
    rw [List.length_dropLast]
    omega
  have hfirst := foldl_writeBit_wrote hready hbefore
  have hlast : bits.foldl (fun w b => writeBit b w) w =
      writeBit (bits.getLast hne) (bits.dropLast.foldl (fun w b => writeBit b w) w) := by
    conv_lhs => rw [← List.dropLast_append_getLast hne]
    rw [List.foldl_append, List.foldl_cons, List.foldl_nil]
  refine ⟨foldl_writeBit_wrote hready h, ?_, ?_⟩
  · rw [hlast, writeBit_eq hfirst.ready]
  · rw [hlast]
    exact level_release_writeBit hfirst.ready _

/-- The end of a write without power: the driver lets go of the line and pulls it down at once. -/
theorem Held.finish {w' : Wire σ} (h : Held w' slaves) : w'.release.driveLow = begun slaves := by
  have hdrive : w'.drive ≠ .low := by
    rw [h.drive_eq]
    exact Drive.noConfusion
  have hcontent : w'.release.content = w'.content := by
    rw [Wire.content, Wire.content, if_neg hdrive]
    exact if_neg (show w'.release.drive ≠ .low from Drive.noConfusion)
  rw [driveLow_eq (Or.inr ⟨Drive.noConfusion, h.up⟩), hcontent, h.content_eq]

theorem wrote_begun (slaves : List (Slave σ)) : Wrote (begun slaves) slaves := ⟨ready_begun slaves, content_begun slaves⟩

theorem Held.ended {w' : Wire σ} (h : Held w' slaves) (power : Bool) :
    Wrote (if power then w' else w'.release.driveLow) slaves := by
  cases power
  · rw [if_neg Bool.false_ne_true, h.finish]
    exact wrote_begun slaves
  · exact h.toWrote

theorem writeBits_held (hready : w.Ready) (h : ∀ s ∈ w.content, s.Listens 8) (v : UInt8) :
    Held (writeBits v w) (w.content.map (·.takes (lsbFirst v))) := by
  have hne : lsbFirst v ≠ [] := List.ne_nil_of_length_eq_add_one (length_lsbFirst v)
  rw [writeBits_eq]
  exact foldl_writeBit_held hne hready (by rw [length_lsbFirst]; exact h)

/-- Without power a write leaves the line pulled down. -/
theorem write_eq_begun (hready : w.Ready) (h : ∀ s ∈ w.content, s.Listens 8) (v : UInt8) :
    write v false w = begun (w.content.map (·.takes (lsbFirst v))) := (writeBits_held hready h v).finish

/-- A byte is taken by all slaves when all of them listen. -/
theorem write_wrote (hready : w.Ready) (h : ∀ s ∈ w.content, s.Listens 8) (v : UInt8) (power : Bool) :
    Wrote (write v power w) (w.content.map (·.takes (lsbFirst v))) := (writeBits_held hready h v).ended power

theorem Slave.Listens.takes {n : Nat} {bits : List Bool} {s : Slave σ} (h : s.Listens (bits.length + n)) :
    (s.takes bits).Listens n := by
  induction bits generalizing s with
  | nil => rwa [List.length_nil, Nat.zero_add] at h
  | cons b bits ih =>
    rw [List.length_cons, show bits.length + 1 + n = bits.length + n + 1 by omega] at h
    exact ih (h.2 b)

theorem foldl_write_begun {buf : List UInt8} (h : ∀ s ∈ slaves, s.Listens (8 * buf.length)) :
    buf.foldl (fun w v => write v false w) (begun slaves) = begun (slaves.map (·.takes (buf.flatMap lsbFirst))) := by
  induction buf generalizing slaves with
  | nil => exact congrArg begun (List.map_id' slaves).symm
  | cons v buf ih =>
    rw [List.length_cons] at h
    have hfirst : write v false (begun slaves) = begun (slaves.map (·.takes (lsbFirst v))) := by
      have hwrite := write_eq_begun (ready_begun slaves) (by
        rw [content_begun]
        exact fun s hs => (h s hs).mono (by omega)) v
      rwa [content_begun] at hwrite
    have hrest : ∀ s ∈ slaves.map (·.takes (lsbFirst v)), s.Listens (8 * buf.length) := by
      intro s hs
      obtain ⟨s, hmem, rfl⟩ := List.mem_map.mp hs
      refine Slave.Listens.takes ?_
      rw [length_lsbFirst, show 8 + 8 * buf.length = 8 * (buf.length + 1) by omega]
      exact h s hmem
    rw [List.foldl_cons, hfirst, ih hrest, List.map_map, List.flatMap_cons]
    refine congrArg begun (List.map_congr_left fun s _ => ?_)
    exact (s.takes_append _ _).symm

/-- A command right behind a reset is taken by all slaves. -/
theorem write_order (hready : w.Ready) (hcontent : w.content = slaves.map (·.enter (.command []))) (v : UInt8) (power : Bool) :
    Wrote (write v power w) (slaves.map fun s => s.enter (s.order v)) := by
  have hlistens : ∀ s ∈ w.content, s.Listens 8 := by
    rw [hcontent]
    intro s hs
    obtain ⟨s, -, rfl⟩ := List.mem_map.mp hs
    exact s.listens_command rfl
  have hwrote := write_wrote hready hlistens v power
  rw [hcontent, List.map_map] at hwrote
  refine ⟨hwrote.ready, hwrote.content_eq.trans (List.map_congr_left fun s _ => ?_)⟩
  rw [Function.comp_apply, Slave.takes_byte]

/-- A selection leaves the slave with the code selected and the others idle, and the line pulled down. -/
theorem select_eq_begun (hready : w.Ready) (hcontent : w.content = slaves.map (·.enter (.command []))) (rom : Rom) :
    select rom w = begun (slaves.map fun s => s.enter (if s.rom = rom then .selected s.app.start else .idle)) := by
  have hlistens : ∀ s ∈ w.content, s.Listens 8 := by
    rw [hcontent]
    intro s hs
    obtain ⟨s, -, rfl⟩ := List.mem_map.mp hs
    exact s.listens_command rfl
  have horder : write 0x55 false w = begun (slaves.map fun s => s.enter (.matching 0)) := by
    rw [write_eq_begun hready hlistens, hcontent, List.map_map]
    refine congrArg begun (List.map_congr_left fun s _ => ?_)
    rw [Function.comp_apply, Slave.takes_byte]
    rfl
  have hmatching : ∀ s ∈ slaves.map (fun s : Slave σ => s.enter (.matching 0)), s.Listens (8 * rom.cells.length) := by
    intro s hs
    obtain ⟨s, -, rfl⟩ := List.mem_map.mp hs
    rw [rom.size_eq]
    exact s.listens_matching rfl
  rw [select, horder, foldl_write_begun hmatching, List.map_map, ← Rom.bits_eq]
  refine congrArg begun (List.map_congr_left fun s _ => ?_)
  have hne : rom.bits ≠ [] := List.ne_nil_of_length_eq_add_one rom.length_bits
  have heq : (rom.bits = s.rom.bits) ↔ s.rom = rom := ⟨fun h => (Rom.bits_injective h).symm, fun h => by rw [h]⟩
  rw [Function.comp_apply, s.takes_matching (by rw [Rom.length_bits]) hne, List.drop_zero]
  by_cases hrom : s.rom = rom
  · rw [if_pos (heq.mpr hrom), if_pos hrom]
  · rw [if_neg fun h => hrom (heq.mp h), if_neg hrom]

/-! ### A late byte -/

/-- A bit whose slot began earlier, when the driver left the line pulled down: a one is taken only by the slaves that look at
the line late enough. -/
theorem writeBit_late {gap : Nat} (hgap : gap ≤ 55) (hsilent : Silent slaves) (b : Bool) :
    Wrote (writeBit b ⟨.low, gap, 0, slaves⟩) (slaves.map fun s => s.slot (b && decide (gap + 10 ≤ s.timing.sample))) := by
  have heq : writeBit b ⟨.low, gap, 0, slaves⟩ = ⟨.high, gap + if b then 10 else 65, if b then 55 else 5, slaves⟩ := by
    cases b <;> rfl
  rw [heq]
  refine ⟨Or.inr ⟨Drive.noConfusion, rfl⟩, ?_⟩
  have hcontent : Wire.content ⟨.high, gap + if b then 10 else 65, if b then 55 else 5, slaves⟩ =
      slaves.map fun s => s.pulse (max (gap + if b then 10 else 65) (Wire.holdTime slaves)) := rfl
  rw [hcontent, holdTime_eq_zero hsilent, Nat.max_zero]
  refine List.map_congr_left fun s _ => ?_
  have hsample := s.timing.sample_bounds
  cases b
  · show s.pulse (gap + 65) = _
    rw [pulse_of_short s (by omega) (by omega), decide_eq_false (by omega), Bool.false_and]
  · show s.pulse (gap + 10) = _
    rw [pulse_of_short s (by omega) (by omega), Bool.true_and]

theorem lsbFirst_clear (v : UInt8) : lsbFirst (v &&& 0xFE) = false :: (lsbFirst v).tail := by
  have hmask : ∀ i < 8, (0xFE : UInt8).toNat.testBit i = !decide (i = 0) := by decide
  have hbit : ∀ i < 8, (v &&& 0xFE).toNat.testBit i = (!decide (i = 0) && v.toNat.testBit i) := by
    intro i hi
    rw [UInt8.toNat_and, Nat.testBit_and, hmask i hi, Bool.and_comm]
  show (List.range 8).map _ = false :: ((List.range 8).map _).tail
  rw [List.map_congr_left fun i hi => hbit i (List.mem_range.mp hi)]
  rfl

/-- A byte that comes a while after a write without power, as every call of the module does after a selection: a slave takes
it as it is if it looks at the line late enough, and else with the first bit cleared. -/
theorem write_late {gap : Nat} (hgap : gap ≤ 55) (hlistens : ∀ s ∈ slaves, s.Listens 8) (v : UInt8) (power : Bool) :
    Wrote (write v power ((begun slaves).delay gap))
      (slaves.map fun s => s.takes (lsbFirst (if gap + 10 ≤ s.timing.sample then v else v &&& 0xFE))) := by
  obtain ⟨b, bits, hbits⟩ : ∃ b bits, lsbFirst v = b :: bits :=
    List.exists_cons_of_ne_nil (List.ne_nil_of_length_eq_add_one (length_lsbFirst v))
  have hlength : bits.length = 7 := by
    have h8 := length_lsbFirst v
    rw [hbits, List.length_cons] at h8
    omega
  have hdelay : (begun slaves).delay gap = ⟨.low, gap, 0, slaves⟩ := by
    rw [begun, Wire.delay, if_pos rfl, Nat.zero_add]
  have hlate := writeBit_late hgap (fun s hs => (hlistens s hs).1) b
  have hne : bits ≠ [] := List.ne_nil_of_length_eq_add_one hlength
  have hheld := foldl_writeBit_held hne hlate.ready (by
    rw [hlate.content_eq, hlength]
    intro s hs
    obtain ⟨s, hmem, rfl⟩ := List.mem_map.mp hs
    exact (hlistens s hmem).2 _)
  rw [hlate.content_eq, List.map_map] at hheld
  rw [write, writeBits_eq, hbits, List.foldl_cons, hdelay]
  have hwrote : Wrote (if power then _ else _) _ := hheld.ended power
  refine ⟨hwrote.ready, hwrote.content_eq.trans (List.map_congr_left fun s _ => ?_)⟩
  show (s.slot (b && decide (gap + 10 ≤ s.timing.sample))).takes bits = _
  by_cases hsample : gap + 10 ≤ s.timing.sample
  · rw [if_pos hsample, hbits, decide_eq_true hsample, Bool.and_true]
    rfl
  · rw [if_neg hsample, lsbFirst_clear, hbits, decide_eq_false hsample, Bool.and_false]
    rfl

/-- A reset, a selection and a write that comes `gap` microseconds later: the slave with the code, and no other, takes the
byte, with its first bit cleared if the slave looks at the line too early. -/
theorem write_after_select (hcalm : w.Calm) {gap : Nat} (hgap : gap ≤ 55)
    (hlistens : ∀ s ∈ w.slaves, (s.enter (.selected s.app.start)).Listens 8) (rom : Rom) (v : UInt8) (power : Bool) :
    Wrote (write v power ((select rom (reset w).2).delay gap))
      (w.slaves.map fun s =>
        if s.rom = rom then
          (s.enter (.selected s.app.start)).takes (lsbFirst (if gap + 10 ≤ s.timing.sample then v else v &&& 0xFE))
        else s.enter .idle) := by
  obtain ⟨-, hreset⟩ := reset_eq hcalm
  have hlistens' : ∀ s ∈ w.slaves.map (fun s => s.enter (if s.rom = rom then .selected s.app.start else .idle)),
      s.Listens 8 := by
    intro s hs
    obtain ⟨s, hmem, rfl⟩ := List.mem_map.mp hs
    split
    · exact hlistens s hmem
    · exact s.listens_idle 8
  have hwrote := write_late hgap hlistens' v power
  rw [select_eq_begun hreset.ready hreset.content_eq rom]
  refine ⟨hwrote.ready, hwrote.content_eq.trans ?_⟩
  rw [List.map_map]
  refine List.map_congr_left fun s _ => ?_
  rw [Function.comp_apply]
  split
  · rfl
  · exact s.takes_idle _

/-- A slave that records what it takes once it is selected. -/
def recorder (rom : Rom) : Slave (List Bool) where
  rom := rom
  timing := Timing.typical
  app := ⟨[], fun _ => true, fun taken level => taken ++ [level]⟩
  phase := .idle

/-- Forty microseconds behind the selection a slave that looks at the line after thirty takes 0x45 for 0x44. -/
theorem write_after_select_recorder :
    (write 0x45 true ((select ⟨[0x28, 1, 2, 3, 4, 5, 6, 7], rfl⟩
      (reset ⟨.released, 0, 100, [recorder ⟨[0x28, 1, 2, 3, 4, 5, 6, 7], rfl⟩, recorder (Block.fill 8 1)]⟩).2).delay 40)).content.map
        (fun s => match s.phase with | .selected taken => some (byteOf taken) | _ => none) = [some 0x44, none] := by
  have hwrote := write_after_select
    (w := ⟨.released, 0, 100, [recorder ⟨[0x28, 1, 2, 3, 4, 5, 6, 7], rfl⟩, recorder (Block.fill 8 1)]⟩)
    (Or.inr (by decide)) (show 40 ≤ 55 by decide) (by
      intro s hs
      rcases List.mem_cons.mp hs with rfl | hs
      · exact (recorder _).listens_selected (fun _ => rfl) _ 8
      · obtain rfl := List.mem_singleton.mp hs
        exact (recorder _).listens_selected (fun _ => rfl) _ 8) ⟨[0x28, 1, 2, 3, 4, 5, 6, 7], rfl⟩ 0x45 true
  rw [hwrote.content_eq]
  decide +kernel

end EspClock.OneWire
