import EspClock.Romfs.Writing

/-!
# The end of the scans

The size in a header leads to the next one, modulo 2^32. A damaged size can lead the scan of `romfs_open_file` and
the enumeration by `romfs_next_file` back to where they have been, and then they may never end. They go upwards,
and end, exactly if no header that they pass has such a size.
-/

namespace EspClock.Romfs

open Mem Nor Chain

variable (dev : Device)

/-! ### The enumeration -/

/-- The header that `romfs_next_file` reads, into a buffer of `len` bytes. -/
def headerWithin (f : Flash) (len i : Nat) : Header :=
  let name := readName f (min len 30) i
  let j := align (i + name.length + 1)
  { nameaddr := i, name := name, deleted := f j = 0xAA, baseaddr := j + 8, size := word f (j + 4) }

/-- What `romfs_next_file` returns, whether it is `FS_FILE_OK`, and leaves behind its pointers. -/
structure NextFile where
  ok : Bool
  start : Nat
  fname : List UInt8
  actLen : Nat

def romfsNextFile (f : Flash) (start len : Nat) : NextFile :=
  if dev.flashSize ≤ start ∨ f start = 0xFF then ⟨false, dev.last start, [], 0⟩
  else
    let h := headerWithin f len start
    { ok := true
      start := align (wrap32 (h.baseaddr + h.size))
      fname := h.name ++ if h.name.length < min len 30 then [0] else []
      actLen := if h.deleted then 0 else h.name.length }

/-- The calls of an enumeration: where each starts, what it finds, and whether the last one has found nothing. -/
structure Listing where
  starts : List Nat
  files : List (List UInt8 × Nat)
  ended : Bool

/-- The loop of `file_list` over `romfs_next_file`. -/
def fileList (f : Flash) (len : Nat) : Nat → Nat → Listing
  | 0, _ => ⟨[], [], false⟩
  | fuel + 1, start =>
    let next := romfsNextFile dev f start len
    if next.ok then
      let rest := fileList f len fuel next.start
      ⟨start :: rest.starts, (next.fname, next.actLen) :: rest.files, rest.ended⟩
    else ⟨[start], [], true⟩

/-- From one header to the next, with names of no more than `len` bytes. -/
def nextWithin (len : Nat) (f : Flash) : Chain.Step Header := fun i =>
  if dev.flashSize ≤ i ∨ f i = 0xFF then none
  else
    let h := headerWithin f len i
    some (h, align (wrap32 (h.baseaddr + h.size)))

theorem nextWithin_30 (f : Flash) : nextWithin dev 30 f = next dev f := rfl

/-! ### Scans that end -/

/-- The loop of `romfs_open_file` ends, and looks at ever higher offsets. -/
structure OpenEnds (f : Flash) (fname : List UInt8) (stack : UInt8) : Prop where
  returns : ∃ fuel, search (next dev f) (isFile fname stack) fuel 0 ≠ .lost
  ascending : ∀ fuel, (offsets (next dev f) (isFile fname stack) fuel 0).IsChain (· < ·)

/-- The enumeration ends, and goes on at ever higher offsets. -/
structure ListEnds (f : Flash) (len : Nat) : Prop where
  returns : ∃ fuel, (fileList dev f len fuel 0).ended = true
  ascending : ∀ fuel, (fileList dev f len fuel 0).starts.IsChain (· < ·)

/-- The size leads to an address below 2^32, or past 2^32 and again behind the start of the header. -/
def Header.LeadsOn (h : Header) : Prop :=
  h.baseaddr + h.size + 3 < 2 ^ 32 ∨ 2 ^ 32 + h.nameaddr < h.baseaddr + h.size

/-- Every header that a scan passes leads on. -/
def SizesLeadOn (f : Flash) (len : Nat) (p : Header → Bool) : Prop :=
  ∀ i, Relation.ReflTransGen (LeadsTo (nextWithin dev len f) p) 0 i → i < dev.flashSize → f i ≠ 0xFF →
    p (headerWithin f len i) = false → (headerWithin f len i).LeadsOn

variable {dev} {f : Flash} {fname : List UInt8} {stack : UInt8} {len i j : Nat} {p : Header → Bool}

theorem nextWithin_eq_some_iff {h : Header} :
    nextWithin dev len f i = some (h, j) ↔
      (i < dev.flashSize ∧ f i ≠ 0xFF) ∧ h = headerWithin f len i ∧ j = align (wrap32 (h.baseaddr + h.size)) := by
  rw [nextWithin, Option.ite_none_left_eq_some, not_or, Nat.not_le]
  dsimp only
  rw [Option.some_inj, Prod.mk.injEq]
  exact and_congr_right fun _ => ⟨fun ⟨hh, hj⟩ => ⟨hh.symm, hh ▸ hj.symm⟩, fun ⟨hh, hj⟩ => ⟨hh.symm, hh ▸ hj.symm⟩⟩

theorem leadsTo_iff :
    LeadsTo (nextWithin dev len f) p i j ↔
      (i < dev.flashSize ∧ f i ≠ 0xFF) ∧ p (headerWithin f len i) = false ∧
        j = align (wrap32 ((headerWithin f len i).baseaddr + (headerWithin f len i).size)) := by
  constructor
  · rintro ⟨h, hstep, hp⟩
    obtain ⟨hlt, rfl, rfl⟩ := nextWithin_eq_some_iff.mp hstep
    exact ⟨hlt, Bool.eq_false_of_not_eq_true hp, rfl⟩
  · rintro ⟨hlt, hp, rfl⟩
    exact ⟨_, nextWithin_eq_some_iff.mpr ⟨hlt, rfl, rfl⟩, by rw [hp]; exact Bool.false_ne_true⟩

/-! ### One header -/

theorem align_mod (n : Nat) : align n % 4 = 0 := Nat.mul_mod_left _ 4

theorem word_lt (f : Flash) (i : Nat) : word f i < 2 ^ 32 := by
  have hbyte : ∀ b : UInt8, b.toNat < 2 ^ 8 := UInt8.toNat_lt
  have h0 := hbyte (f i)
  have h1 := hbyte (f (i + 1))
  have h2 := hbyte (f (i + 2))
  have h3 := hbyte (f (i + 3))
  unfold word
  omega

theorem headerWithin_spec (f : Flash) (len : Nat) (hi : i < 2 ^ 31) :
    (headerWithin f len i).nameaddr = i ∧ i < (headerWithin f len i).baseaddr ∧
      (headerWithin f len i).baseaddr < i + 43 ∧ (headerWithin f len i).size < 2 ^ 32 := by
  have hlength : (readName f (min len 30) i).length ≤ 30 := (length_readName_le f _ i).trans (Nat.min_le_right _ _)
  obtain ⟨hle, hlt, -⟩ := @align_spec (i + (readName f (min len 30) i).length + 1) (by omega)
  refine ⟨rfl, ?_, ?_, word_lt f _⟩
  · show i < align (i + (readName f (min len 30) i).length + 1) + 8
    omega
  · show align (i + (readName f (min len 30) i).length + 1) + 8 < i + 43
    omega

/-- The next header is behind this one exactly if the size leads on. -/
theorem lt_next_iff (hi : i < 2 ^ 31) (hmod : i % 4 = 0) :
    i < align (wrap32 ((headerWithin f len i).baseaddr + (headerWithin f len i).size)) ↔
      (headerWithin f len i).LeadsOn := by
  obtain ⟨hname, hbase, hbound, hsize⟩ := @headerWithin_spec i f len hi
  unfold Header.LeadsOn align wrap32
  omega

/-! ### Whole scans -/

/-- Every header is at a multiple of four. -/
theorem mod_of_reaches (h : Relation.ReflTransGen (LeadsTo (nextWithin dev len f) p) 0 i) : i % 4 = 0 := by
  cases h with
  | refl => rfl
  | tail _ hmoves =>
    obtain ⟨-, -, rfl⟩ := leadsTo_iff.mp hmoves
    exact align_mod _

theorem ascends_iff_sizes : Ascends (nextWithin dev len f) p 0 ↔ SizesLeadOn dev f len p := by
  constructor
  · intro h i hreach hlt hne hp
    rw [← lt_next_iff (hlt.trans_le dev.flashSize_le) (mod_of_reaches hreach)]
    exact h i _ hreach (leadsTo_iff.mpr ⟨⟨hlt, hne⟩, hp, rfl⟩)
  · intro h i j hreach hmoves
    obtain ⟨⟨hlt, hne⟩, hp, rfl⟩ := leadsTo_iff.mp hmoves
    rw [lt_next_iff (hlt.trans_le dev.flashSize_le) (mod_of_reaches hreach)]
    exact h i hreach hlt hne hp

theorem search_ends (h : Ascends (nextWithin dev len f) p 0) :
    search (nextWithin dev len f) p (dev.flashSize + 1) 0 ≠ .lost := by
  have hbound : ∀ j, dev.flashSize ≤ j → nextWithin dev len f j = none := fun j hj => if_pos (.inl hj)
  exact h.search_ne_lost hbound (by omega) (Nat.succ_pos _)

/-- The enumeration is a search for no header. -/
theorem fileList_eq (f : Flash) (len fuel i : Nat) :
    (fileList dev f len fuel i).starts = offsets (nextWithin dev len f) (fun _ => false) fuel i ∧
      ((fileList dev f len fuel i).ended = true ↔
        search (nextWithin dev len f) (fun _ => false) fuel i ≠ .lost) := by
  induction fuel generalizing i with
  | zero => exact ⟨rfl, fun h => absurd h Bool.false_ne_true, fun h => absurd rfl h⟩
  | succ fuel ih =>
    by_cases hend : dev.flashSize ≤ i ∨ f i = 0xFF
    · have hfile : (romfsNextFile dev f i len).ok = false := by rw [romfsNextFile, if_pos hend]
      have hnext : nextWithin dev len f i = none := if_pos hend
      rw [fileList, offsets, search, hnext]
      dsimp only
      rw [hfile, if_neg Bool.false_ne_true]
      exact ⟨rfl, fun _ => ended_ne_lost i, fun _ => rfl⟩
    · have hfile : romfsNextFile dev f i len = _ := if_neg hend
      have hnext : nextWithin dev len f i = some (headerWithin f len i, _) := if_neg hend
      obtain ⟨hstarts, hended⟩ :=
        ih (align (wrap32 ((headerWithin f len i).baseaddr + (headerWithin f len i).size)))
      rw [fileList, offsets, search, hnext, hfile]
      dsimp only
      rw [if_pos rfl, if_neg Bool.false_ne_true, if_neg Bool.false_ne_true, hstarts]
      exact ⟨rfl, hended⟩

theorem openEnds_iff : OpenEnds dev f fname stack ↔ SizesLeadOn dev f 30 (isFile fname stack) := by
  rw [← ascends_iff_sizes, nextWithin_30]
  constructor
  · exact fun h => ascends_iff.mpr h.ascending
  · exact fun h => ⟨⟨_, @search_ends dev f 30 _ h⟩, h.isChain⟩

theorem listEnds_iff : ListEnds dev f len ↔ SizesLeadOn dev f len (fun _ => false) := by
  have hstarts := fun fuel => (@fileList_eq dev f len fuel 0).1
  have hended := fun fuel => (@fileList_eq dev f len fuel 0).2
  rw [← ascends_iff_sizes]
  constructor
  · intro h
    rw [ascends_iff]
    intro fuel
    rw [← hstarts]
    exact h.ascending fuel
  · intro h
    refine ⟨⟨_, (hended _).mpr (search_ends h)⟩, fun fuel => ?_⟩
    rw [hstarts]
    exact h.isChain fuel

/-! ### Complete files -/

theorem Entry.leadsOn {h : Header} (hentry : Entry dev f h) : h.LeadsOn := by
  have hbound := hentry.bound
  have hsize := dev.maxSize_le
  have hflash := dev.flashSize_le
  exact .inl (by omega)

/-- Among complete files every header leads on. -/
theorem Laid.sizesLeadOn {hs : List Header} {e : Nat} (h : Laid dev f 0 hs e) (hend : f e = 0xFF)
    (p : Header → Bool) : SizesLeadOn dev f 30 p := by
  intro i hreach hlt hne _
  obtain ⟨rest, hpath, hsub⟩ := h.path.of_reaches (next_eq_none hend) hreach
  have hstep : next dev f i = some (header f i, _) := next_eq_some_iff.mpr ⟨⟨hlt, hne⟩, rfl, rfl⟩
  cases hpath with
  | nil => exact absurd hend hne
  | cons hstep' _ =>
    obtain ⟨rfl, -⟩ := Prod.mk.inj (Option.some.inj (hstep'.symm.trans hstep))
    exact (h.entry _ (hsub _ List.mem_cons_self)).leadsOn

/-- On what the calls themselves leave behind, with no file open for writing, both scans end. -/
theorem Idle.scans_end {s : Wofs} {hs : List Header} {e : Nat} (h : Idle dev s hs e) (fname : List UInt8)
    (stack : UInt8) : OpenEnds dev s.flash fname stack ∧ ListEnds dev s.flash 30 := by
  have hroom := h.room
  have hend : s.flash e = 0xFF := h.tail e le_rfl (by omega)
  exact ⟨openEnds_iff.mpr (h.laid.sizesLeadOn hend _), listEnds_iff.mpr (h.laid.sizesLeadOn hend _)⟩

/-! ### Any content -/

/-- For every content of the flash and every name, the scan of `romfs_open_file` and the enumeration end, at ever
higher offsets, exactly if the sizes of all headers that they pass lead on. -/
theorem scans_end_iff (dev : Device) (f : Flash) (fname : List UInt8) (stack : UInt8) (len : Nat) :
    OpenEnds dev f fname stack ∧ ListEnds dev f len ↔
      SizesLeadOn dev f 30 (isFile fname stack) ∧ SizesLeadOn dev f len (fun _ => false) :=
  and_congr openEnds_iff listEnds_iff

/-- A header whose size, half written, leads back to it. -/
def selfFlash : Flash := fun i => [97, 0, 0xFF, 0xFF, 0xFF, 0xFF, 0xFF, 0xFF, 0xF4].getD i 0xFF

/-- The scan for another name and the enumeration stay at the header for ever. -/
theorem size_leads_back :
    ¬ ∀ (dev : Device) (f : Flash) (fname : List UInt8) (stack : UInt8) (len : Nat),
      OpenEnds dev f fname stack ∧ ListEnds dev f len := by
  intro hall
  have hdev : ∃ dev : Device, dev.flashSize = 4096 :=
    ⟨⟨4096, 4096, by decide, by decide, le_rfl, by decide⟩, rfl⟩
  obtain ⟨dev, hsize⟩ := hdev
  obtain ⟨⟨⟨fuel, hreturns⟩, -⟩, -⟩ := hall dev selfFlash [98] 0 30
  have hmoves : LeadsTo (nextWithin dev 30 selfFlash) (isFile [98] 0) 0 0 :=
    leadsTo_iff.mpr ⟨⟨by rw [hsize]; decide, by decide⟩, by decide, by decide⟩
  exact hreturns (search_self hmoves fuel)

end EspClock.Romfs
