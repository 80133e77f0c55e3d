import EspClock.OneWire.Checksum
import EspClock.OneWire.Enumeration
import Mathlib.Data.List.Range

/-!
# Rounds of searches

The searches on a bus go around the codes of its slaves in the order of their bits, with one answer `nil` at the end of every
round. A search for a family begins at the first code of this family.
-/

namespace EspClock.OneWire

open Mem Branching

variable {σ : Type}

/-! ### Rounds -/

/-- The codes of a bus in the order of their bits. -/
def ordered (roms : List Rom) : List Rom := (inOrder 64 (roms.map Rom.bits)).map Rom.ofBits

/-- Searches go around a list, with one answer `nil` behind its last element. The position is that of the next answer. -/
def rounds (l : List Rom) : Machine Nat (Call × Nat) (Option Rom) where
  step k e :=
    match e.1 with
    | .search => (if k < l.length then k + 1 else 0, [l[k]?])
    | .resetSearch => (0, [])
    | _ => (k, [])

/-- The call is a search. -/
def Call.isSearch : Call → Bool
  | .search => true
  | _ => false

/-- The call starts the search anew. -/
def Call.restarts : Call → Bool
  | .resetSearch => true
  | .targetSearch _ => true
  | _ => false

/-- The answers of a run without a restart. -/
theorem trace_rounds (l : List Rom) {calls : List (Call × Nat)} (h : ∀ e ∈ calls, e.1.restarts = false) {k : Nat}
    (hk : k ≤ l.length) :
    (rounds l).trace k calls =
      (List.range (calls.countP (·.1.isSearch))).map fun i => l[(k + i) % (l.length + 1)]? := by
  induction calls generalizing k with
  | nil => rfl
  | cons e calls ih =>
    obtain ⟨he, hcalls⟩ := List.forall_mem_cons.mp h
    obtain ⟨call, gap⟩ := e
    rw [Machine.trace_cons]
    cases call with
    | search =>
      have hnext : (rounds l).next k (.search, gap) = (k + 1) % (l.length + 1) := by
        show (if k < l.length then k + 1 else 0) = _
        split
        · rw [Nat.mod_eq_of_lt (by omega)]
        · rw [show k + 1 = l.length + 1 by omega, Nat.mod_self]
      have hcount : List.countP (fun e : Call × Nat => e.1.isSearch) ((.search, gap) :: calls) =
          List.countP (fun e => e.1.isSearch) calls + 1 := List.countP_cons_of_pos rfl
      have hfirst : (k + 0) % (l.length + 1) = k := Nat.mod_eq_of_lt (by omega)
      rw [hnext, ih hcalls (Nat.le_of_lt_succ (Nat.mod_lt _ (Nat.succ_pos _))), hcount, List.range_succ_eq_map, List.map_cons,
        List.map_map, hfirst]
      show l[k]? :: _ = _
      congr 1
      refine List.map_congr_left fun i _ => ?_
      rw [Function.comp_apply, Nat.mod_add_mod, show k + 1 + i = k + i.succ by omega]
    | resetSearch => cases he
    | targetSearch => cases he
    | _ => exact ih hcalls hk

/-! ### The position of the search state -/

section Position

variable {roms : List Rom} {k : Nat}

theorem uniform_bits (roms : List Rom) : Uniform 64 (roms.map Rom.bits) := by
  intro bits hbits
  obtain ⟨rom, -, rfl⟩ := List.mem_map.mp hbits
  exact rom.length_bits

theorem length_ordered (roms : List Rom) : (ordered roms).length = (inOrder 64 (roms.map Rom.bits)).length := List.length_map _

theorem ordered_perm (h : roms.Nodup) : (ordered roms).Perm roms := by
  have hnodup : (roms.map Rom.bits).Nodup := h.map fun _ _ heq => Rom.bits_injective heq
  have hperm := (inOrder_perm (uniform_bits roms) hnodup).map Rom.ofBits
  rw [List.map_map] at hperm
  have hid : roms.map (Rom.ofBits ∘ Rom.bits) = roms :=
    (List.map_congr_left fun rom _ => rom.ofBits_bits).trans (List.map_id' roms)
  rwa [hid] at hperm

theorem ordered_pairwise (roms : List Rom) : (ordered roms).Pairwise fun a b => Before a.bits b.bits := by
  rw [ordered, List.pairwise_map]
  refine (pairwise_inOrder 64 (roms.map Rom.bits)).imp_of_mem fun {v w} hv hw hlt => ?_
  obtain ⟨a, -, rfl⟩ := List.mem_map.mp ((mem_inOrder (uniform_bits roms)).mp hv)
  obtain ⟨b, -, rfl⟩ := List.mem_map.mp ((mem_inOrder (uniform_bits roms)).mp hw)
  rwa [Rom.ofBits_bits, Rom.ofBits_bits]

theorem getElem?_ordered {rom : Rom} (h : (inOrder 64 (roms.map Rom.bits))[k]? = some rom.bits) :
    (ordered roms)[k]? = some rom := by
  rw [ordered, List.getElem?_map, h, Option.map_some, Rom.ofBits_bits]

/-- Where the search state stands: in front of the first code, behind one that was found, or in front of the first code of a
family that is looked for. -/
inductive Position (roms : List Rom) (s : SearchState) : Nat → Prop
  | start (flag_eq : s.lastDeviceFlag = false) (last_eq : s.lastDiscrepancy = 0) : Position roms s 0
  | found {k : Nat} (get_eq : (inOrder 64 (roms.map Rom.bits))[k]? = some s.romNo.bits)
      (last_eq : s.lastDiscrepancy = lastZero 1 (roms.map Rom.bits) s.romNo.bits)
      (flag_eq : s.lastDeviceFlag = (s.lastDiscrepancy == 0)) : Position roms s (k + 1)
  | target {k : Nat} {familyCode : UInt8} {rom : Rom} (state_eq : s = targetSearch familyCode s)
      (decided : LastDecided (roms.map Rom.bits)) (get_eq : (inOrder 64 (roms.map Rom.bits))[k]? = some rom.bits)
      (family_eq : rom.get 0 = familyCode) (first : ∀ r ∈ roms, r.get 0 = familyCode → ¬ Before r.bits rom.bits) :
      Position roms s k

theorem mem_inOrder_bits {bits : List Bool} : bits ∈ inOrder 64 (roms.map Rom.bits) ↔ bits ∈ roms.map Rom.bits :=
  mem_inOrder (uniform_bits roms)

/-- The bits of the code that a search for a family starts from. -/
theorem bits_targetSearch (familyCode : UInt8) (s : SearchState) :
    (targetSearch familyCode s).romNo.bits = lsbFirst familyCode ++ List.replicate 56 false := by
  rw [Rom.bits_eq]
  have hcells : (targetSearch familyCode s).romNo.cells = familyCode :: List.replicate 7 0 := rfl
  have hzeros : (List.replicate 7 (0 : UInt8)).flatMap lsbFirst = List.replicate 56 false := by decide +kernel
  rw [hcells, List.flatMap_cons, hzeros]

/-- The walk of a search for a family ends at the first code of the family. -/
theorem walk_targetSearch {familyCode : UInt8} {s : SearchState} {rom : Rom} (hdecided : LastDecided (roms.map Rom.bits))
    (hmem : rom ∈ roms) (hfamily : rom.get 0 = familyCode)
    (hfirst : ∀ r ∈ roms, r.get 0 = familyCode → ¬ Before r.bits rom.bits) :
    (walk 64 64 1 (targetSearch familyCode s).romNo.bits (roms.map Rom.bits)).1 = rom.bits := by
  have huniform := uniform_bits roms
  have hbits : rom.bits ∈ roms.map Rom.bits := List.mem_map_of_mem hmem
  have htake : rom.bits.take 8 = lsbFirst familyCode := by rw [Rom.take_bits, hfamily]
  have hlength : (lsbFirst familyCode).length = 8 := length_lsbFirst familyCode
  rw [bits_targetSearch]
  have hfound : (walk 64 64 1 (lsbFirst familyCode ++ List.replicate 56 false) (roms.map Rom.bits)).1 ∈ roms.map Rom.bits :=
    walk_mem huniform (List.ne_nil_of_mem hbits)
  have hfront : (lsbFirst familyCode ++ List.replicate 56 false).take 8 = lsbFirst familyCode := by
    rw [← hlength, List.take_left]
  have hbegins : (walk 64 64 1 (lsbFirst familyCode ++ List.replicate 56 false) (roms.map Rom.bits)).1.take 8 =
      (lsbFirst familyCode ++ List.replicate 56 false).take 8 := walk_take (by decide)
    (by rw [List.length_append, hlength]; omega) huniform ⟨rom.bits, hbits, htake.trans hfront.symm⟩
  have hleast := walk_target (i := 1) (p := lsbFirst familyCode) (k := 56) (n := 64) (by decide) (by rw [hlength]) hdecided
    huniform rom.bits hbits (by rw [hlength]; exact htake)
  obtain ⟨r, hr, heq⟩ := List.mem_map.mp hfound
  rw [← heq] at hbegins hleast ⊢
  have hr0 : r.get 0 = familyCode := by
    rw [hfront, Rom.take_bits] at hbegins
    rw [← byteOf_lsbFirst (r.get 0), hbegins, byteOf_lsbFirst]
  exact eq_of_not_before (by rw [Rom.length_bits, Rom.length_bits]) (hfirst r hr hr0) hleast

/-- A search answers with the code at the present position and goes on to the next one. -/
theorem search_position {s : SearchState} {w : Wire σ} (hpos : Position roms s k) (hsteady : w.Steady roms) (hcalm : w.Calm)
    (hfamily : ∀ rom ∈ roms, rom.get 0 ≠ 0) :
    (if (search s w).1 then (search s w).2.1 else none) = (ordered roms)[k]? ∧
      Position roms (search s w).2.2.1 (if k < (ordered roms).length then k + 1 else 0) ∧
      (search s w).2.2.2.Steady roms := by
  have hcodes : codes w.slaves = roms.map Rom.bits := by
    rw [← hsteady.roms_eq, List.map_map]
    rfl
  have hslaves : ∀ x ∈ w.slaves, x.rom.get 0 ≠ 0 := by
    intro x hx
    exact hfamily x.rom (hsteady.roms_eq ▸ List.mem_map_of_mem hx)
  -- a search that ends at the code with index `k`
  have hfound : ∀ {k : Nat}, s.lastDeviceFlag = false → w.slaves ≠ [] →
      (inOrder 64 (roms.map Rom.bits))[k]? = some (walk s.lastDiscrepancy 64 1 s.romNo.bits (roms.map Rom.bits)).1 →
      (if (search s w).1 then (search s w).2.1 else none) = (ordered roms)[k]? ∧
        Position roms (search s w).2.2.1 (if k < (ordered roms).length then k + 1 else 0) ∧
        (search s w).2.2.2.Steady roms := by
    intro k hflag hne hget
    obtain ⟨s', w', hsearch, hbits, hlast, hflag', hwrote⟩ := search_eq hcalm hflag hne hslaves
    rw [hcodes] at hbits hlast
    rw [← hbits] at hget
    have hk : k < (ordered roms).length := by
      rw [length_ordered]
      exact (List.getElem?_eq_some_iff.mp hget).1
    rw [hsearch, if_pos hk]
    refine ⟨(getElem?_ordered hget).symm, .found hget hlast hflag', hwrote.steady ?_⟩
    rw [List.map_map]
    exact hsteady.roms_eq
  have hnonempty : roms ≠ [] → w.slaves ≠ [] := by
    intro hne hnil
    have hroms := hsteady.roms_eq
    rw [hnil] at hroms
    exact hne hroms.symm
  have hpairwise := pairwise_inOrder 64 (roms.map Rom.bits)
  cases hpos with
  | start hflag hlast =>
    by_cases hroms : roms = []
    · subst hroms
      have hempty : w.slaves = [] := List.map_eq_nil_iff.mp hsteady.roms_eq
      have hnone : ordered [] = [] := by
        rw [ordered, List.map_nil, inOrder_nil]
        rfl
      rw [search_eq_of_empty hcalm hflag hempty, hnone]
      exact ⟨rfl, .start rfl rfl, hsteady.reset⟩
    · have hne : roms.map Rom.bits ≠ [] := fun h => hroms (List.map_eq_nil_iff.mp h)
      refine hfound hflag (hnonempty hroms) (getElem?_zero_of_least hpairwise ?_ ?_)
      · exact mem_inOrder_bits.mpr (walk_mem (uniform_bits roms) hne)
      · intro u hu
        rw [hlast]
        exact walk_least (by decide) (uniform_bits roms) u (mem_inOrder_bits.mp hu)
  | @found k hget hlast hflag =>
    have hmem : s.romNo.bits ∈ roms.map Rom.bits := mem_inOrder_bits.mp (List.mem_of_getElem? hget)
    have huniform : Uniform s.romNo.bits.length (roms.map Rom.bits) := by
      rw [Rom.length_bits]
      exact uniform_bits roms
    by_cases hzero : s.lastDiscrepancy = 0
    · have hflag : s.lastDeviceFlag = true := by rw [hflag, hzero]; rfl
      have hno := (lastZero_eq_zero_iff (by decide) huniform hmem).mp (hlast.symm.trans hzero)
      have hlength : (ordered roms).length = k + 1 := by
        rw [length_ordered]
        exact length_eq_of_last hpairwise hget fun u hu => hno u (mem_inOrder_bits.mp hu)
      rw [search_eq_of_last hflag, List.getElem?_eq_none (Nat.le_of_eq hlength), if_neg (Nat.not_lt.mpr (Nat.le_of_eq hlength))]
      exact ⟨rfl, .start rfl rfl, hsteady⟩
    · have hflag : s.lastDeviceFlag = false := by
        rw [hflag]
        exact beq_eq_false_iff_ne.mpr hzero
      have hroms : roms ≠ [] := by
        rintro rfl
        cases hmem
      have hne : roms.map Rom.bits ≠ [] := List.ne_nil_of_mem hmem
      obtain ⟨hlt, hnext⟩ := walk_next huniform hmem (hlast ▸ hzero)
      rw [← hlast, Rom.length_bits] at hlt hnext
      refine hfound hflag (hnonempty hroms) (getElem?_succ_of_next hpairwise hget ?_ hlt ?_)
      · exact mem_inOrder_bits.mpr (walk_mem (uniform_bits roms) hne)
      · exact fun u hu => hnext u (mem_inOrder_bits.mp hu)
  | @target k familyCode rom hstate hdecided hget hcode hfirst =>
    have hmem : rom ∈ roms := by
      obtain ⟨r, hr, heq⟩ := List.mem_map.mp (mem_inOrder_bits.mp (List.mem_of_getElem? hget))
      rwa [← Rom.bits_injective heq]
    have hroms : roms ≠ [] := List.ne_nil_of_mem hmem
    have hwalk := walk_targetSearch (s := s) hdecided hmem hcode hfirst
    have hlast : s.lastDiscrepancy = 64 := by rw [hstate]; rfl
    have hflag : s.lastDeviceFlag = false := by rw [hstate]; rfl
    refine hfound hflag (hnonempty hroms) ?_
    rw [hlast, hstate, hwalk]
    exact hget

end Position

/-! ### Runs -/

section Runs

variable {roms : List Rom} {pin : Pin σ} {calls : List (Call × Nat)}

/-- The pin between two calls, with the position of its search state. -/
structure Follows (roms : List Rom) (pin : Pin σ) (k : Nat) : Prop where
  position : Position roms pin.state k
  steady : pin.wire.Steady roms
  calm : pin.wire.Calm

/-- A call that does not look for a family, and a while until the next one. -/
def Plain (e : Call × Nat) : Prop := (∀ familyCode, e.1 ≠ .targetSearch familyCode) ∧ 52 ≤ e.2

theorem follows_next (hfamily : ∀ rom ∈ roms, rom.get 0 ≠ 0) {k : Nat} {e : Call × Nat} (h : Follows roms pin k)
    (he : Plain e) :
    Follows roms ((machine σ).next pin e) ((rounds (ordered roms)).next k e) ∧
      ((machine σ).actions pin e).filterMap some = (rounds (ordered roms)).actions k e := by
  obtain ⟨call, gap⟩ := e
  obtain ⟨hcall, hgap⟩ := he
  have hgap : 52 ≤ gap := hgap
  have hsteady := h.steady
  -- a call that only uses the line leaves the position alone
  have hwire : ∀ w : Wire σ, perform pin call = ({ pin with wire := w }, []) → w.Steady roms →
      Follows roms ((machine σ).next pin (call, gap)) k ∧ ((machine σ).actions pin (call, gap)).filterMap some = [] := by
    intro w hperform hw
    have hstep : (machine σ).step pin (call, gap) = (⟨pin.state, w.delay gap⟩, []) := by
      show (let called := perform pin call; ({ called.1 with wire := called.1.wire.delay gap }, called.2)) = _
      rw [hperform]
    rw [Machine.next, Machine.actions, hstep]
    exact ⟨⟨h.position, hw.delay gap, hw.calm hgap⟩, rfl⟩
  cases call with
  | search =>
    obtain ⟨hanswer, hnext, hsearched⟩ := search_position h.position h.steady h.calm hfamily
    refine ⟨⟨hnext, hsearched.delay gap, hsearched.calm hgap⟩, ?_⟩
    show [_] = [_]
    rw [← hanswer]
    rfl
  | resetSearch => exact ⟨⟨.start rfl rfl, hsteady.delay gap, hsteady.calm hgap⟩, rfl⟩
  | targetSearch familyCode => exact absurd rfl (hcall familyCode)
  | reset => exact hwire (reset pin.wire).2 rfl hsteady.reset
  | skip => exact hwire (skip pin.wire) rfl hsteady.skip
  | select rom => exact hwire (select rom pin.wire) rfl (hsteady.select rom)
  | write v power => exact hwire (write v power pin.wire) rfl (hsteady.write v power)
  | writeBytes buf power => exact hwire (writeBytes buf power pin.wire) rfl (hsteady.writeBytes buf power)
  | read => exact hwire (read pin.wire).2 rfl hsteady.read
  | readBytes count => exact hwire (readBytes count pin.wire).2 rfl (hsteady.readBytes count)
  | depower => exact hwire (depower pin.wire) rfl hsteady.release

/-- Whatever is done on the bus, the searches of a run go around the codes from the position they start at. -/
theorem trace_eq_rounds (hfamily : ∀ rom ∈ roms, rom.get 0 ≠ 0) {k : Nat} (h : Follows roms pin k)
    (hplain : ∀ e ∈ calls, Plain e) : (machine σ).trace pin calls = (rounds (ordered roms)).trace k calls := by
  have halong : (machine σ).Along (fun _ e => Plain e) pin calls := by
    have hall : ∀ (es : List (Call × Nat)) (pin : Pin σ), (∀ e ∈ es, Plain e) → (machine σ).Along (fun _ e => Plain e) pin es := by
      intro es
      induction es with
      | nil => exact fun _ _ => trivial
      | cons e es ih => exact fun pin h => ⟨h e List.mem_cons_self, ih _ fun x hx => h x (List.mem_cons_of_mem e hx)⟩
    exact hall calls pin hplain
  have htrace := Machine.trace_eq_of_simulation (N := rounds (ordered roms)) (R := Follows roms)
    (fun pin k e hk he => follows_next hfamily hk he) h halong
  rwa [List.filterMap_some] at htrace

theorem plain_of_no_restart (hrestart : ∀ e ∈ calls, e.1.restarts = false) (hgap : ∀ e ∈ calls, 52 ≤ e.2) :
    ∀ e ∈ calls, Plain e := by
  intro e he
  refine ⟨fun familyCode heq => ?_, hgap e he⟩
  have hno := hrestart e he
  rw [heq] at hno
  cases hno

/-- After a reset of the search, the searches of a run find every slave of the bus once, in the order of the bits of their
codes, then find nothing once, and then begin again, whatever else is done on the bus between them. -/
theorem searches_go_around (hnodup : roms.Nodup) (hfamily : ∀ rom ∈ roms, rom.get 0 ≠ 0) (hsteady : pin.wire.Steady roms)
    (hcalm : pin.wire.Calm) (hrestart : ∀ e ∈ calls, e.1.restarts = false) (hgap : ∀ e ∈ calls, 52 ≤ e.2) :
    (ordered roms).Perm roms ∧ (ordered roms).Pairwise (fun a b => Before a.bits b.bits) ∧
      (machine σ).trace { pin with state := resetSearch pin.state } calls =
        (List.range (calls.countP (·.1.isSearch))).map fun i => (ordered roms)[i % (roms.length + 1)]? := by
  have hperm := ordered_perm hnodup
  refine ⟨hperm, ordered_pairwise roms, ?_⟩
  have hfollows : Follows roms { pin with state := resetSearch pin.state } 0 := ⟨.start rfl rfl, hsteady, hcalm⟩
  rw [trace_eq_rounds hfamily hfollows (plain_of_no_restart hrestart hgap), trace_rounds _ hrestart (Nat.zero_le _),
    hperm.length_eq]
  simp only [Nat.zero_add]

/-- Two thermometers of one family, with the same times, on an idle line. -/
def thermometers : List Rom := [⟨[0x28, 0xFF, 0x64, 0x1E, 0x0F, 0x2C, 0x16, 248], rfl⟩, ⟨[0x28, 0x61, 0x64, 0x12, 0x3C, 0x7F, 0x2F, 114], rfl⟩]

def thermometerBus : Pin Unit where
  state := ⟨Block.fill 8 0, 0, 0, false⟩
  wire :=
    { drive := .released, low := 0, high := 100
      slaves := thermometers.map fun rom =>
        { rom := rom
          timing := Timing.typical
          app := ⟨(), fun _ => true, fun _ _ => ()⟩
          phase := .idle } }

theorem steady_thermometerBus : thermometerBus.wire.Steady thermometers := ⟨rfl, by decide⟩

theorem calm_thermometerBus : thermometerBus.wire.Calm := Or.inr (by decide)

theorem searches_go_around_two_thermometers :
    (machine Unit).trace { thermometerBus with state := resetSearch thermometerBus.state }
        [(.search, 60), (.skip, 60), (.search, 500), (.search, 60), (.search, 60)] =
      [some ⟨[0x28, 0x61, 0x64, 0x12, 0x3C, 0x7F, 0x2F, 114], rfl⟩, some ⟨[0x28, 0xFF, 0x64, 0x1E, 0x0F, 0x2C, 0x16, 248], rfl⟩,
        none, some ⟨[0x28, 0x61, 0x64, 0x12, 0x3C, 0x7F, 0x2F, 114], rfl⟩] :=
  (searches_go_around (by decide) (by decide) steady_thermometerBus calm_thermometerBus (by decide) (by decide)).2.2.trans
    (by decide +kernel)

/-! ### The search for a family -/

/-- The last byte is the checksum of the others. -/
def Rom.Valid (rom : Rom) : Prop := crc8 (rom.cells.take 7) = rom.get 7

/-- Codes whose checksums are right do not differ in the last bit only. -/
theorem lastDecided_of_valid (h : ∀ rom ∈ roms, rom.Valid) : LastDecided (roms.map Rom.bits) := by
  intro v hv w hw heq
  obtain ⟨a, ha, rfl⟩ := List.mem_map.mp hv
  obtain ⟨b, hb, rfl⟩ := List.mem_map.mp hw
  have hseven : ∀ rom : Rom, (rom.cells.take 7).flatMap lsbFirst = rom.bits.dropLast.take 56 ∧
      rom.cells = rom.cells.take 7 ++ [rom.get 7] := by
    rintro ⟨cells, hsize⟩
    match cells, hsize with
    | [c0, c1, c2, c3, c4, c5, c6, c7], _ => exact ⟨rfl, rfl⟩
  have hlength : (a.cells.take 7).length = (b.cells.take 7).length := by
    rw [List.length_take, List.length_take, a.size_eq, b.size_eq]
  have hfirst : a.cells.take 7 = b.cells.take 7 := by
    refine flatMap_lsbFirst_injective hlength ?_
    rw [(hseven a).1, (hseven b).1, heq]
  have hlast : a.get 7 = b.get 7 := by rw [← h a ha, ← h b hb, hfirst]
  rw [Rom.bits_eq, Rom.bits_eq, (hseven a).2, (hseven b).2, hfirst, hlast]

/-- The codes of a family on a bus, in order. -/
def family (familyCode : UInt8) (roms : List Rom) : List Rom := (ordered roms).filter fun rom => rom.get 0 == familyCode

theorem exists_family (familyCode : UInt8) (roms : List Rom) :
    ∃ front back, ordered roms = front ++ family familyCode roms ++ back := by
  obtain ⟨front, back, heq, -⟩ := exists_block (p := fun rom : Rom => rom.get 0 == familyCode) (ordered_pairwise roms) (by
    intro a b c hab hbc ha hc
    rw [beq_iff_eq] at ha hc ⊢
    have htake := take_eq_of_between (m := 8) hab hbc (by rw [Rom.take_bits, Rom.take_bits, ha, hc])
    rw [Rom.take_bits, Rom.take_bits] at htake
    rw [← byteOf_lsbFirst (b.get 0), htake, byteOf_lsbFirst, ha])
  exact ⟨front, back, heq⟩

/-- A search for a family begins with the codes of this family, all of them and in order, when all checksums are right. -/
theorem searches_of_family (hnodup : roms.Nodup) (hfamily : ∀ rom ∈ roms, rom.get 0 ≠ 0) (hvalid : ∀ rom ∈ roms, rom.Valid)
    (hsteady : pin.wire.Steady roms) (hcalm : pin.wire.Calm) (hrestart : ∀ e ∈ calls, e.1.restarts = false)
    (hgap : ∀ e ∈ calls, 52 ≤ e.2) (familyCode : UInt8) (hpresent : ∃ rom ∈ roms, rom.get 0 = familyCode)
    (hsearches : (family familyCode roms).length ≤ calls.countP (·.1.isSearch)) :
    ((machine σ).trace { pin with state := targetSearch familyCode pin.state } calls).take (family familyCode roms).length =
      (family familyCode roms).map some := by
  obtain ⟨front, back, heq⟩ := exists_family familyCode roms
  have hperm := ordered_perm hnodup
  have hmem : ∀ rom, rom ∈ family familyCode roms ↔ rom ∈ roms ∧ rom.get 0 = familyCode := by
    intro rom
    rw [family, List.mem_filter, hperm.mem_iff, beq_iff_eq]
  have hblock : (family familyCode roms).Pairwise fun a b => Before a.bits b.bits := (ordered_pairwise roms).filter _
  obtain ⟨rom, rest, hcons⟩ : ∃ rom rest, family familyCode roms = rom :: rest := by
    obtain ⟨rom, hrom, hcode⟩ := hpresent
    exact List.exists_cons_of_ne_nil (List.ne_nil_of_mem ((hmem rom).mpr ⟨hrom, hcode⟩))
  have hrom := (hmem rom).mp (hcons ▸ List.mem_cons_self)
  have hfirst : ∀ r ∈ roms, r.get 0 = familyCode → ¬ Before r.bits rom.bits := by
    intro r hr hcode hlt
    have hrmem := (hmem r).mpr ⟨hr, hcode⟩
    rw [hcons] at hrmem hblock
    rcases List.mem_cons.mp hrmem with rfl | hrest
    · exact Before.irrefl _ hlt
    · exact ((List.pairwise_cons.mp hblock).1 r hrest).asymm hlt
  have hget : ∀ i < (family familyCode roms).length, (ordered roms)[front.length + i]? = (family familyCode roms)[i]? := by
    intro i hi
    rw [heq, List.append_assoc, List.getElem?_append_right (Nat.le_add_right _ _), Nat.add_sub_cancel_left,
      List.getElem?_append_left hi]
  have hposition : (inOrder 64 (roms.map Rom.bits))[front.length]? = some rom.bits := by
    have hat := hget 0 (by rw [hcons]; exact Nat.succ_pos _)
    rw [hcons, Nat.add_zero, List.getElem?_cons_zero, ordered, List.getElem?_map] at hat
    cases hbits : (inOrder 64 (roms.map Rom.bits))[front.length]? with
    | none =>
      rw [hbits] at hat
      cases hat
    | some bits =>
      rw [hbits, Option.map_some, Option.some.injEq] at hat
      obtain ⟨r, -, rfl⟩ := List.mem_map.mp (mem_inOrder_bits.mp (List.mem_of_getElem? hbits))
      rw [← hat, Rom.ofBits_bits]
  have hfollows : Follows roms { pin with state := targetSearch familyCode pin.state } front.length :=
    ⟨.target rfl (lastDecided_of_valid hvalid) hposition hrom.2 hfirst, hsteady, hcalm⟩
  have hlength : (ordered roms).length = front.length + (family familyCode roms).length + back.length := by
    rw [heq, List.length_append, List.length_append]
  rw [trace_eq_rounds hfamily hfollows (plain_of_no_restart hrestart hgap), trace_rounds _ hrestart (by omega)]
  apply List.ext_getElem?
  intro i
  by_cases hi : i < (family familyCode roms).length
  · rw [List.getElem?_take_of_lt hi, List.getElem?_map, List.getElem?_range (by omega), Option.map_some,
      Nat.mod_eq_of_lt (by omega), hget i hi, List.getElem?_map, List.getElem?_eq_getElem hi]
    rfl
  · rw [List.getElem?_eq_none (by rw [List.length_take]; omega), List.getElem?_eq_none (by rw [List.length_map]; omega)]

theorem searches_of_family_two_thermometers :
    ((machine Unit).trace { thermometerBus with state := targetSearch 0x28 thermometerBus.state }
        [(.search, 60), (.search, 60)]).take 2 =
      [some ⟨[0x28, 0x61, 0x64, 0x12, 0x3C, 0x7F, 0x2F, 114], rfl⟩, some ⟨[0x28, 0xFF, 0x64, 0x1E, 0x0F, 0x2C, 0x16, 248], rfl⟩] := by
  have hlength : (family 0x28 thermometers).length = 2 := by decide +kernel
  have hrestart : ∀ e ∈ [((.search, 60) : Call × Nat), (.search, 60)], e.1.restarts = false := by decide
  have hfound := searches_of_family (by decide) (by decide) (by unfold Rom.Valid; decide +kernel) steady_thermometerBus
    calm_thermometerBus hrestart (by decide) 0x28 (by decide) (by decide +kernel)
  rw [hlength] at hfound
  exact hfound.trans (by decide +kernel)

end Runs

end EspClock.OneWire
