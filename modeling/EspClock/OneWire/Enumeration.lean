import EspClock.OneWire.Search
import EspClock.Lib.Run

/-!
# The enumeration of a bus

Any calls of the module, one after another, on one pin. Between the searches the bus may be used in any way: every search
begins with a reset, and all it keeps from the one before is its search state.
-/

namespace EspClock.OneWire

open Mem Branching

variable {σ : Type}

/-! ### Calls -/

/-- The calls of the module `ow` that use the driver. -/
inductive Call where
  | reset
  | skip
  | select (rom : Rom)
  | write (v : UInt8) (power : Bool)
  | writeBytes (buf : List UInt8) (power : Bool)
  | read
  | readBytes (count : Nat)
  | depower
  | search
  | resetSearch
  | targetSearch (familyCode : UInt8)

/-- The search state and the line of a pin. -/
structure Pin (σ : Type) where
  state : SearchState
  wire : Wire σ

/-- `ow_search`: the code of the slave that was found, or `nil`. -/
def Pin.search (pin : Pin σ) : Pin σ × Option Rom :=
  let (found, newAddr, state, wire) := OneWire.search pin.state pin.wire
  (⟨state, wire⟩, if found then newAddr else none)

/-- A call, and what the searches answer. -/
def perform (pin : Pin σ) : Call → Pin σ × List (Option Rom)
  | .reset => ({ pin with wire := (reset pin.wire).2 }, [])
  | .skip => ({ pin with wire := skip pin.wire }, [])
  | .select rom => ({ pin with wire := select rom pin.wire }, [])
  | .write v power => ({ pin with wire := write v power pin.wire }, [])
  | .writeBytes buf power => ({ pin with wire := writeBytes buf power pin.wire }, [])
  | .read => ({ pin with wire := (read pin.wire).2 }, [])
  | .readBytes count => ({ pin with wire := (readBytes count pin.wire).2 }, [])
  | .depower => ({ pin with wire := depower pin.wire }, [])
  | .search => (pin.search.1, [pin.search.2])
  | .resetSearch => ({ pin with state := resetSearch pin.state }, [])
  | .targetSearch familyCode => ({ pin with state := targetSearch familyCode pin.state }, [])

/-- Calls with the time that passes until the next one, in microseconds. -/
def machine (σ : Type) : Machine (Pin σ) (Call × Nat) (Option Rom) where
  step pin e :=
    let called := perform pin e.1
    ({ called.1 with wire := called.1.wire.delay e.2 }, called.2)

/-! ### What no call changes -/

/-- The slaves on the line have the given codes, and a line that is pulled down has not been up in this pulse. -/
structure Wire.Steady (roms : List Rom) (w : Wire σ) : Prop where
  roms_eq : w.slaves.map (·.rom) = roms
  high_eq : w.drive = .low → w.high = 0

section Steady

variable {w : Wire σ} {roms : List Rom}

theorem roms_settled (w : Wire σ) : w.settled.map (·.rom) = w.slaves.map (·.rom) := by
  rw [Wire.settled, List.map_map]
  exact List.map_congr_left fun s _ => s.rom_pulse _

theorem roms_content (w : Wire σ) : w.content.map (·.rom) = w.slaves.map (·.rom) := by
  rw [Wire.content]
  split
  · rfl
  · exact roms_settled w

theorem Wire.Steady.driveLow (h : w.Steady roms) : w.driveLow.Steady roms := by
  rw [Wire.driveLow]
  split
  · exact h
  · split
    · exact ⟨(roms_settled w).trans h.roms_eq, fun _ => rfl⟩
    · exact ⟨h.roms_eq, fun _ => rfl⟩

theorem Wire.Steady.driveHigh (h : w.Steady roms) : w.driveHigh.Steady roms := ⟨h.roms_eq, Drive.noConfusion⟩

theorem Wire.Steady.release (h : w.Steady roms) : w.release.Steady roms := ⟨h.roms_eq, Drive.noConfusion⟩

theorem Wire.Steady.delay (h : w.Steady roms) (n : Nat) : (w.delay n).Steady roms := by
  rw [Wire.delay]
  split
  · exact ⟨h.roms_eq, h.high_eq⟩
  · rename_i hdrive
    exact ⟨h.roms_eq, fun hlow => absurd hlow hdrive⟩

theorem Wire.Steady.writeBit (h : w.Steady roms) (v : Bool) : (writeBit v w).Steady roms := by
  rw [OneWire.writeBit]
  split
  · exact ((h.driveLow.delay 10).driveHigh).delay 55
  · exact ((h.driveLow.delay 65).driveHigh).delay 5

theorem Wire.Steady.readBit (h : w.Steady roms) : (readBit w).2.Steady roms :=
  ((((h.driveLow).delay 3).release).delay 10).delay 53

theorem foldl_steady {α : Type} {f : Wire σ → α → Wire σ} (hf : ∀ w x, w.Steady roms → (f w x).Steady roms) (xs : List α)
    (h : w.Steady roms) : (xs.foldl f w).Steady roms := by
  induction xs generalizing w with
  | nil => exact h
  | cons x xs ih => exact ih (hf w x h)

theorem Wire.Steady.write (h : w.Steady roms) (v : UInt8) (power : Bool) : (write v power w).Steady roms := by
  have hbits : (writeBits v w).Steady roms := foldl_steady (fun w bitMask h => h.writeBit (bitMask &&& v != 0)) bitMasks h
  cases power
  · exact hbits.release.driveLow
  · exact hbits

theorem Wire.Steady.writeBytes (h : w.Steady roms) (buf : List UInt8) (power : Bool) :
    (writeBytes buf power w).Steady roms := by
  have hbytes := foldl_steady (fun w v h => Wire.Steady.write h v false) buf h
  cases power
  · exact hbytes.release.driveLow
  · exact hbytes

theorem Wire.Steady.select (h : w.Steady roms) (rom : Rom) : (select rom w).Steady roms :=
  foldl_steady (fun _ v h => Wire.Steady.write h v false) rom.cells (h.write 0x55 false)

theorem Wire.Steady.skip (h : w.Steady roms) : (skip w).Steady roms := by
  rw [OneWire.skip]
  exact h.write 0xCC false

theorem Wire.Steady.read (h : w.Steady roms) : (read w).2.Steady roms := by
  have hfold : ∀ (masks : List UInt8) (r : UInt8) (w : Wire σ), w.Steady roms →
      (masks.foldl (fun p bitMask => let bit := OneWire.readBit p.2; (if bit.1 then p.1 ||| bitMask else p.1, bit.2)) (r, w)).2.Steady
        roms := by
    intro masks
    induction masks with
    | nil => exact fun _ _ h => h
    | cons m masks ih => exact fun r w h => ih _ _ h.readBit
  exact hfold bitMasks 0 w h

theorem Wire.Steady.readBytes (h : w.Steady roms) (count : Nat) : (readBytes count w).2.Steady roms := by
  induction count generalizing w with
  | zero => exact h
  | succ count ih => exact ih h.read

theorem waitHigh_steady (h : w.Steady roms) (retries : Nat) : (waitHigh retries w).2.Steady roms := by
  induction retries generalizing w with
  | zero => exact h
  | succ retries ih =>
    rw [waitHigh]
    split
    · exact h.delay 2
    · exact ih (h.delay 2)

theorem Wire.Steady.reset (h : w.Steady roms) : (reset w).2.Steady roms := by
  have hwait := waitHigh_steady h.release 124
  rw [OneWire.reset]
  dsimp only
  split
  · exact (((hwait.driveLow.delay 480).release).delay 70).delay 410
  · exact hwait

theorem Wrote.steady {w' : Wire σ} {slaves : List (Slave σ)} (h : Wrote w' slaves) (hroms : slaves.map (·.rom) = roms) :
    w'.Steady roms := by
  refine ⟨by rw [← roms_content, h.content_eq, hroms], fun hlow => ?_⟩
  rcases h.ready with ⟨-, -, hhigh⟩ | ⟨hdrive, -⟩
  · exact hhigh
  · exact absurd hlow hdrive

/-- A while after a call the line is about to come up. -/
theorem Wire.Steady.calm (h : w.Steady roms) {gap : Nat} (hgap : 52 ≤ gap) : (w.delay gap).Calm := by
  rw [Wire.delay]
  split
  · rename_i hdrive
    exact Or.inl ⟨hdrive, h.high_eq hdrive⟩
  · exact Or.inr (Nat.le_trans hgap (Nat.le_add_left gap w.high))

end Steady

/-! ### One search -/

/-- A search goes where the walk with its search state goes. -/
theorem search_eq {s : SearchState} {w : Wire σ} (hcalm : w.Calm) (hflag : s.lastDeviceFlag = false) (hne : w.slaves ≠ [])
    (hfamily : ∀ x ∈ w.slaves, x.rom.get 0 ≠ 0) :
    ∃ s' w', search s w = (true, some s'.romNo, s', w') ∧
      s'.romNo.bits = (walk s.lastDiscrepancy 64 1 s.romNo.bits (codes w.slaves)).1 ∧
      s'.lastDiscrepancy = lastZero 1 (codes w.slaves) s'.romNo.bits ∧
      s'.lastDeviceFlag = (s'.lastDiscrepancy == 0) ∧ Wrote w' (w.slaves.map (·.enter .idle)) := by
  obtain ⟨hpresent, hreset⟩ := reset_eq hcalm
  have hpresent : (reset w).1 = true := by
    rw [hpresent, Bool.not_eq_true', List.isEmpty_eq_false_iff]
    exact hne
  have hcommand := write_order hreset.ready hreset.content_eq 0xF0 false
  have hcodes : codes w.slaves ≠ [] := fun h => hne (List.map_eq_nil_iff.mp h)
  have hunderway : Underway w.slaves [] s.romNo.bits s ⟨1, 0, 0, 1⟩ (write 0xF0 false (reset w).2) :=
    ⟨⟨rfl, rfl, rfl⟩, rfl, hcommand.ready, hcommand.content_eq, hcodes⟩
  have hbits : s.romNo.bits ≠ [] := List.ne_nil_of_length_eq_add_one s.romNo.length_bits
  obtain ⟨s', p', w', hloop, hnumber, hwalk, hzero, hflag', hwrote⟩ := searchLoop_eq hbits hunderway
  rw [Rom.length_bits] at hloop hwalk hzero
  have hwalk : s'.romNo.bits = (walk s.lastDiscrepancy 64 1 s.romNo.bits (codes w.slaves)).1 := hwalk
  have hzero : p'.lastZero = lastZero 1 (codes w.slaves) s'.romNo.bits := by
    rw [hzero, hwalk, ← walk_snd]
    dsimp only
    split
    · rename_i h
      exact h.symm
    · rfl
  obtain ⟨x, hx, hrom⟩ : ∃ x ∈ w.slaves, x.rom = s'.romNo := by
    have hmem : s'.romNo.bits ∈ codes w.slaves := by
      rw [hwalk]
      exact walk_mem (uniform_codes w.slaves) hcodes
    obtain ⟨x, hx, hbits⟩ := List.mem_map.mp hmem
    exact ⟨x, hx, Rom.bits_injective hbits⟩
  have hfirst : (s'.romNo.get 0 == 0) = false := by
    rw [beq_eq_false_iff_ne, ← hrom]
    exact hfamily x hx
  refine ⟨{ s' with lastDiscrepancy := p'.lastZero, lastDeviceFlag := s'.lastDeviceFlag || p'.lastZero == 0 }, w', ?_, hwalk,
    hzero, ?_, hwrote⟩
  · rw [search, hflag, if_neg Bool.false_ne_true]
    dsimp only
    rw [if_pos hpresent, hloop, hnumber]
    have hthrough : (!decide (65 < 65)) = true := rfl
    rw [hthrough, if_pos rfl]
    dsimp only
    rw [hfirst]
    rfl
  · rw [hflag', hflag, Bool.false_or]

/-- On a bus without slaves a search finds nothing and starts over. -/
theorem search_eq_of_empty {s : SearchState} {w : Wire σ} (hcalm : w.Calm) (hflag : s.lastDeviceFlag = false)
    (hempty : w.slaves = []) : search s w = (false, none, s.restart, (reset w).2) := by
  obtain ⟨hpresent, -⟩ := reset_eq hcalm
  rw [hempty] at hpresent
  rw [search, hflag, if_neg Bool.false_ne_true]
  dsimp only
  rw [hpresent]
  rfl

/-- A search behind the one that has found the last slave starts over. -/
theorem search_eq_of_last {s : SearchState} {w : Wire σ} (hflag : s.lastDeviceFlag = true) :
    search s w = (false, some s.romNo, s.restart, w) := by
  rw [search, hflag, if_pos rfl]

end EspClock.OneWire
