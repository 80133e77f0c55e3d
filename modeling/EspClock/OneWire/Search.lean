import EspClock.OneWire.Commands
import EspClock.Lib.Branching

/-!
# The search

Every round of the search loop reads a bit and its complement from the slaves that are left, and so learns which of the two
bits their codes go on with. What the loop does with this is a walk along the tree of all codes on the bus.
-/

namespace EspClock.OneWire

open Mem Branching

variable {σ : Type} {w : Wire σ} {slaves : List (Slave σ)} {path old : List Bool}

/-- The codes on a bus. -/
def codes (slaves : List (Slave σ)) : List (List Bool) := slaves.map (·.rom.bits)

theorem uniform_codes (slaves : List (Slave σ)) : Uniform 64 (codes slaves) := by
  intro bits hbits
  obtain ⟨s, -, rfl⟩ := List.mem_map.mp hbits
  exact s.rom.length_bits

/-- A slave once the search has gone along a path: in the search still if its code begins with the path. -/
def turned (path : List Bool) (turn : Turn) (s : Slave σ) : Slave σ :=
  s.enter (if s.rom.bits.take path.length = path then .search path.length turn else .idle)

theorem slot_turned_bit (path : List Bool) (s : Slave σ) (level : Bool) :
    (turned path .bit s).slot level = turned path .complement s := by
  rw [turned, turned]
  split <;> rfl

theorem slot_turned_complement (path : List Bool) (s : Slave σ) (level : Bool) :
    (turned path .complement s).slot level = turned path .direction s := by
  rw [turned, turned]
  split <;> rfl

theorem take_succ_eq_iff (s : Slave σ) (hpath : path.length < 64) (b : Bool) :
    s.rom.bits.take (path ++ [b]).length = path ++ [b] ↔ s.rom.bits.take path.length = path ∧ s.rom.bit path.length = b := by
  have hlength : (path ++ [b]).length = path.length + 1 := List.length_append
  rw [hlength, List.take_add_one, s.rom.getElem?_bits hpath, Option.toList_some]
  constructor
  · intro h
    have hsame : (s.rom.bits.take path.length).length = path.length := by
      rw [List.length_take, Rom.length_bits, Nat.min_eq_left (Nat.le_of_lt hpath)]
    obtain ⟨htake, hbit⟩ := List.append_inj h hsame
    exact ⟨htake, List.head_eq_of_cons_eq hbit⟩
  · rintro ⟨htake, hbit⟩
    rw [htake, hbit]

/-- The direction that the master writes leaves the slaves in the search whose code goes that way. -/
theorem slot_turned_direction (s : Slave σ) (hpath : path.length + 1 < 64) (b : Bool) :
    (turned path .direction s).slot b = turned (path ++ [b]) .bit s := by
  have hiff := take_succ_eq_iff s (Nat.lt_of_succ_lt hpath) b
  have hlength : (path ++ [b]).length = path.length + 1 := List.length_append
  rw [turned, turned]
  by_cases htake : s.rom.bits.take path.length = path
  · rw [if_pos htake]
    show s.enter (if b = s.rom.bit path.length ∧ path.length + 1 < 64 then _ else _) = _
    by_cases hbit : s.rom.bit path.length = b
    · rw [if_pos ⟨hbit.symm, hpath⟩, if_pos (hiff.mpr ⟨htake, hbit⟩), hlength]
    · rw [if_neg fun h => hbit h.1.symm, if_neg fun h => hbit (hiff.mp h).2]
  · rw [if_neg htake, if_neg fun h => htake (hiff.mp h).1]
    rfl

/-- With the last direction the search is over for every slave. -/
theorem slot_turned_last (s : Slave σ) (hpath : path.length + 1 = 64) (b : Bool) :
    (turned path .direction s).slot b = s.enter .idle := by
  rw [turned]
  split
  · show s.enter (if b = s.rom.bit path.length ∧ path.length + 1 < 64 then _ else _) = _
    rw [if_neg fun h => by omega]
  · rfl

/-! ### What the two reads tell -/

/-- The slave is on the path, and its code goes on with the given bit. -/
def GoesOn (path : List Bool) (b : Bool) (s : Slave σ) : Prop :=
  s.rom.bits.take path.length = path ∧ s.rom.bit path.length = b

theorem exists_goesOn (hpath : path.length < 64) (b : Bool) :
    (∃ s ∈ slaves, GoesOn path b s) ↔ after b (descend path (codes slaves)) ≠ [] := by
  constructor
  · rintro ⟨s, hs, hgoes⟩
    obtain ⟨rest, hrest⟩ : path ++ [b] <+: s.rom.bits :=
      List.prefix_iff_eq_take.mpr ((take_succ_eq_iff s hpath b).mpr hgoes).symm
    rw [← List.append_cons] at hrest
    have hmem : path ++ b :: rest ∈ codes slaves := by
      rw [hrest]
      exact List.mem_map_of_mem hs
    exact List.ne_nil_of_mem (mem_after.mpr (mem_descend.mpr hmem))
  · intro hne
    obtain ⟨rest, hrest⟩ := List.exists_mem_of_ne_nil _ hne
    obtain ⟨s, hs, hbits⟩ := List.mem_map.mp (mem_descend.mp (mem_after.mp hrest))
    have hbits : s.rom.bits = (path ++ [b]) ++ rest := by
      rw [List.append_assoc]
      exact hbits
    exact ⟨s, hs, (take_succ_eq_iff s hpath b).mp (by rw [hbits, List.take_left])⟩

theorem sendsZero_turned_bit (path : List Bool) (s : Slave σ) :
    (turned path .bit s).sendsZero = true ↔ GoesOn path false s := by
  rw [turned, GoesOn]
  by_cases htake : s.rom.bits.take path.length = path
  · rw [if_pos htake]
    have hsends : (s.enter (.search path.length .bit)).sendsZero = !s.rom.bit path.length := rfl
    rw [hsends, Bool.not_eq_true']
    exact ⟨fun hbit => ⟨htake, hbit⟩, And.right⟩
  · rw [if_neg htake]
    exact iff_of_false Bool.false_ne_true fun h => htake h.1

theorem sendsZero_turned_complement (path : List Bool) (s : Slave σ) :
    (turned path .complement s).sendsZero = true ↔ GoesOn path true s := by
  rw [turned, GoesOn]
  by_cases htake : s.rom.bits.take path.length = path
  · rw [if_pos htake]
    have hsends : (s.enter (.search path.length .complement)).sendsZero = s.rom.bit path.length := rfl
    rw [hsends]
    exact ⟨fun hbit => ⟨htake, hbit⟩, And.right⟩
  · rw [if_neg htake]
    exact iff_of_false Bool.false_ne_true fun h => htake h.1

/-- A read finds a zero when some slave on the path goes on with the bit that makes it send one. -/
theorem readBit_turned (hready : w.Ready) (hpath : path.length < 64) {turn : Turn} {b : Bool}
    (hcontent : w.content = slaves.map (turned path turn))
    (hsends : ∀ s : Slave σ, (turned path turn s).sendsZero = true ↔ GoesOn path b s) :
    (readBit w).1 = true ↔ after b (descend path (codes slaves)) = [] := by
  rw [readBit_fst hready, hcontent, Bool.not_eq_true', Bool.eq_false_iff, ← not_iff_not, not_not,
    ← Ne.eq_def (after b _), ← exists_goesOn hpath b, List.any_map, List.any_eq_true]
  exact exists_congr fun s => and_congr_right fun _ => hsends s

/-! ### A round of the loop -/

/-- What a round of the loop reads, and where it leaves the slaves. -/
theorem reads_eq (hready : w.Ready) (hpath : path.length < 64) (hcontent : w.content = slaves.map (turned path .bit)) :
    ((readBit w).1 = true ↔ after false (descend path (codes slaves)) = []) ∧
      ((readBit (readBit w).2).1 = true ↔ after true (descend path (codes slaves)) = []) ∧
      Wrote (readBit (readBit w).2).2 (slaves.map (turned path .direction)) := by
  obtain ⟨t, -, -, hready1, hcontent1⟩ := readBit_wrote hready
  have hcontent1 : (readBit w).2.content = slaves.map (turned path .complement) := by
    rw [hcontent1, hcontent, List.map_map]
    exact List.map_congr_left fun s _ => slot_turned_bit path s _
  obtain ⟨t', -, -, hready2, hcontent2⟩ := readBit_wrote hready1
  refine ⟨readBit_turned hready hpath hcontent (sendsZero_turned_bit path),
    readBit_turned hready1 hpath hcontent1 (sendsZero_turned_complement path), hready2, ?_⟩
  rw [hcontent2, hcontent1, List.map_map]
  exact List.map_congr_left fun s _ => slot_turned_complement path s _

/-- Nobody sends while the master writes the direction. -/
theorem silent_turned_direction (path : List Bool) (slaves : List (Slave σ)) : Silent (slaves.map (turned path .direction)) := by
  intro s hs
  obtain ⟨s, -, rfl⟩ := List.mem_map.mp hs
  rw [turned]
  split <;> rfl

/-- The direction of the loop is the one of the walk. -/
theorem searchDirection_eq {s : SearchState} {p : Progress} {ws : List (List Bool)} {i : Nat} {idBit cmpIdBit b : Bool}
    (hat : At i p) (hbit : s.romNo.bit i = b) (hid : idBit = true ↔ after false ws = [])
    (hcmp : cmpIdBit = true ↔ after true ws = []) (hnot : ¬ (idBit = true ∧ cmpIdBit = true)) :
    searchDirection s p idBit cmpIdBit = direction s.lastDiscrepancy (i + 1) b ws ∧
      (idBit = cmpIdBit ↔ Splits ws) := by
  rw [searchDirection, direction, bit_eq_of_at hat, hbit, hat.idBitNumber_eq]
  cases idBit <;> cases cmpIdBit
  · have hsplits : Splits ws := ⟨fun h => Bool.false_ne_true (hid.mpr h), fun h => Bool.false_ne_true (hcmp.mpr h)⟩
    rw [if_neg (fun h => h rfl), if_pos hsplits]
    exact ⟨rfl, iff_of_true rfl hsplits⟩
  · have hones : after true ws = [] := hcmp.mp rfl
    have hsplits : ¬ Splits ws := fun h => h.2 hones
    rw [if_pos Bool.false_ne_true, if_neg hsplits, hones]
    exact ⟨rfl, iff_of_false Bool.false_ne_true hsplits⟩
  · have hzeros : after false ws = [] := hid.mp rfl
    have hones : after true ws ≠ [] := fun h => Bool.false_ne_true (hcmp.mpr h)
    have hsplits : ¬ Splits ws := fun h => h.1 hzeros
    rw [if_pos (Ne.symm Bool.false_ne_true), if_neg hsplits]
    exact ⟨(bne_iff_ne.mpr hones).symm, iff_of_false (Ne.symm Bool.false_ne_true) hsplits⟩
  · exact absurd ⟨rfl, rfl⟩ hnot

/-- The loop as it starts a round: the path is stored and nobody has left it that did not have to. -/
structure Underway (slaves : List (Slave σ)) (path old : List Bool) (s : SearchState) (p : Progress) (w : Wire σ) : Prop where
  at_path : At path.length p
  bits_eq : s.romNo.bits = path ++ old
  ready : w.Ready
  content_eq : w.content = slaves.map (turned path .bit)
  some_left : descend path (codes slaves) ≠ []

/-- The state and the progress once a zero picked at a discrepancy is recorded. -/
def recorded (s : SearchState) (p : Progress) (picked : Prop) [Decidable picked] : SearchState × Progress :=
  if picked then recordZero s p else (s, p)

section Recorded

variable {s : SearchState} {p : Progress} {picked : Prop} [Decidable picked]

theorem recorded_fst : (recorded s p picked).1.romNo = s.romNo ∧
    (recorded s p picked).1.lastDiscrepancy = s.lastDiscrepancy ∧
    (recorded s p picked).1.lastDeviceFlag = s.lastDeviceFlag := by
  rw [recorded]
  split
  · rw [recordZero]
    split <;> exact ⟨rfl, rfl, rfl⟩
  · exact ⟨rfl, rfl, rfl⟩

theorem recorded_at {i : Nat} (h : At i p) : At i (recorded s p picked).2 := by
  rw [recorded]
  split
  · exact ⟨h.idBitNumber_eq, h.romByteNumber_eq, h.romByteMask_eq⟩
  · exact h

theorem recorded_lastZero {i : Nat} (h : At i p) :
    (recorded s p picked).2.lastZero = if picked then i + 1 else p.lastZero := by
  rw [recorded]
  split
  · exact h.idBitNumber_eq
  · rfl

end Recorded

/-- What a round leaves: the direction of the walk is stored and written, and a zero picked at a branching is recorded. -/
structure Stepped (slaves : List (Slave σ)) (path old : List Bool) (s : SearchState) (p : Progress) (d : Bool)
    (s' : SearchState) (p' : Progress) (w' : Wire σ) : Prop where
  at_next : At (path.length + 1) p'
  bits_eq : s'.romNo.bits = (path ++ [d]) ++ old
  last_eq : s'.lastDiscrepancy = s.lastDiscrepancy
  flag_eq : s'.lastDeviceFlag = s.lastDeviceFlag
  zero_eq : p'.lastZero = if Splits (descend path (codes slaves)) ∧ d = false then path.length + 1 else p.lastZero
  wrote : Wrote w' (slaves.map fun s => (turned path .direction s).slot d)

theorem searchLoop_succ {s : SearchState} {p : Progress} {b : Bool} (h : Underway slaves path (b :: old) s p w) (n : Nat) :
    ∃ s' p' w', Stepped slaves path old s p
        (direction s.lastDiscrepancy (path.length + 1) b (descend path (codes slaves))) s' p' w' ∧
      searchLoop (n + 1) s p w = if p'.romByteNumber < 8 then searchLoop n s' p' w' else (s', p', w') := by
  have hpath : path.length + (old.length + 1) = 64 := by
    rw [← List.length_cons (a := b), ← List.length_append, ← h.bits_eq, Rom.length_bits]
  obtain ⟨hid, hcmp, hready, hcontent⟩ := reads_eq h.ready (by omega) h.content_eq
  have hnot : ¬ ((readBit w).1 = true ∧ (readBit (readBit w).2).1 = true) := by
    rintro ⟨hone, hother⟩
    have huniform : Uniform (old.length + 1) (descend path (codes slaves)) := by
      intro bits hbits
      have hlength := uniform_codes slaves _ (mem_descend.mp hbits)
      rw [List.length_append] at hlength
      omega
    exact (exists_after_ne_nil huniform h.some_left).elim (fun hne => hne (hid.mp hone)) fun hne => hne (hcmp.mp hother)
  have hbit : s.romNo.bit path.length = b := by
    have hget := s.romNo.getElem?_bits (i := path.length) (by omega)
    rw [h.bits_eq, List.getElem?_append_right (Nat.le_refl _), Nat.sub_self] at hget
    exact (Option.some.inj hget).symm
  obtain ⟨hdir, hsplits⟩ := searchDirection_eq h.at_path hbit hid hcmp hnot
  let picked := (readBit w).1 = (readBit (readBit w).2).1 ∧
    direction s.lastDiscrepancy (path.length + 1) b (descend path (codes slaves)) = false
  let r := recorded s p picked
  let d := direction s.lastDiscrepancy (path.length + 1) b (descend path (codes slaves))
  refine ⟨storeBit r.1 r.2 d, r.2.next, writeBit d (readBit (readBit w).2).2, ?_, ?_⟩
  · have hrecorded : r.1.romNo.bits = path ++ b :: old := by
      rw [recorded_fst.1]
      exact h.bits_eq
    have hat : At path.length r.2 := recorded_at h.at_path
    refine ⟨hat.next, bits_storeBit hat r.1 hrecorded d, recorded_fst.2.1, recorded_fst.2.2, ?_, ?_⟩
    · rw [lastZero_next, recorded_lastZero h.at_path]
      exact ite_congr (propext (and_congr hsplits Iff.rfl)) (fun _ => rfl) fun _ => rfl
    · have hwrote := writeBit_wrote hready (hcontent ▸ silent_turned_direction path slaves) d
      rw [hcontent, List.map_map] at hwrote
      exact hwrote
  · rw [searchLoop]
    dsimp only
    rw [if_neg hnot, hdir]
    rfl

/-- The zero recorded last is the one of the later rounds, if they have recorded any. -/
theorem lastZero_combine {i z old : Nat} {picked : Prop} [Decidable picked] :
    (if z = 0 then if picked then i + 1 else old else z) =
      if (if z = 0 ∧ picked then i + 1 else z) = 0 then old else if z = 0 ∧ picked then i + 1 else z := by
  by_cases hboth : z = 0 ∧ picked
  · rw [if_pos hboth.1, if_pos hboth.2, if_pos hboth, if_neg (Nat.succ_ne_zero i)]
  · rw [if_neg hboth]
    by_cases hz : z = 0
    · rw [if_pos hz, if_pos hz, if_neg fun hpicked => hboth ⟨hz, hpicked⟩]
    · rw [if_neg hz, if_neg hz]

/-- The loop is a walk along the tree of the codes: it goes through all bits, the code it stores is where the walk ends, and
the last zero is the one the walk records. All slaves are idle behind it. -/
theorem searchLoop_eq {s : SearchState} {p : Progress} (hne : old ≠ []) (h : Underway slaves path old s p w) :
    ∃ s' p' w', searchLoop old.length s p w = (s', p', w') ∧ p'.idBitNumber = 65 ∧
      s'.romNo.bits = path ++ (walk s.lastDiscrepancy old.length (path.length + 1) old (descend path (codes slaves))).1 ∧
      p'.lastZero = (let z := (walk s.lastDiscrepancy old.length (path.length + 1) old (descend path (codes slaves))).2
        if z = 0 then p.lastZero else z) ∧
      s'.lastDeviceFlag = s.lastDeviceFlag ∧ Wrote w' (slaves.map (·.enter .idle)) := by
  induction old generalizing path s p w with
  | nil => exact absurd rfl hne
  | cons b old ih =>
    have hlength : path.length + (old.length + 1) = 64 := by
      rw [← List.length_cons (a := b), ← List.length_append, ← h.bits_eq, Rom.length_bits]
    obtain ⟨s', p', w', hstep, hloop⟩ := searchLoop_succ h old.length
    rw [List.length_cons, walk_succ, hloop, hstep.at_next.romByteNumber_eq]
    dsimp only [List.headD_cons, List.tail_cons]
    generalize hd : direction s.lastDiscrepancy (path.length + 1) b (descend path (codes slaves)) = d at hstep ⊢
    cases old with
    | nil =>
      rw [List.length_nil] at hlength
      refine ⟨s', p', w', if_neg (by omega), ?_, hstep.bits_eq.trans (List.append_nil _), ?_, hstep.flag_eq, ?_⟩
      · rw [hstep.at_next.idBitNumber_eq]
        omega
      · rw [hstep.zero_eq]
        exact lastZero_combine (z := 0)
      · refine ⟨hstep.wrote.ready, hstep.wrote.content_eq.trans (List.map_congr_left fun s _ => ?_)⟩
        exact slot_turned_last s hlength d
    | cons c old =>
      rw [List.length_cons] at hlength
      have huniform : Uniform (old.length + 2) (descend path (codes slaves)) := by
        intro bits hbits
        have hbits := uniform_codes slaves _ (mem_descend.mp hbits)
        rw [List.length_append] at hbits
        omega
      have hpathlength : (path ++ [d]).length = path.length + 1 := List.length_append
      have hnext : Underway slaves (path ++ [d]) (c :: old) s' p' w' := by
        refine ⟨by rw [hpathlength]; exact hstep.at_next, hstep.bits_eq, hstep.wrote.ready, ?_, ?_⟩
        · rw [hstep.wrote.content_eq]
          exact List.map_congr_left fun s _ => slot_turned_direction s (by omega) d
        · rw [descend_snoc, ← hd]
          exact after_direction_ne_nil huniform h.some_left b
      obtain ⟨s'', p'', w'', heq, hnumber, hbits, hzero, hflag, hwrote⟩ := ih (List.cons_ne_nil c old) hnext
      rw [hpathlength, descend_snoc, hstep.last_eq] at hbits hzero
      refine ⟨s'', p'', w'', ?_, hnumber, ?_, ?_, hflag.trans hstep.flag_eq, hwrote⟩
      · rw [if_pos (by omega)]
        exact heq
      · rw [hbits, List.append_assoc]
        rfl
      · rw [hzero, hstep.zero_eq]
        exact lastZero_combine

end EspClock.OneWire
