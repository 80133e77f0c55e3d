import EspClock.Romfs.Wofs
import Mathlib.Data.List.Pairwise

/-!
# The layout of the region

Complete files lie one behind another from the start of the region, each with a name, its fields and its data at
multiples of four, and none of them reaches the last four bytes. The header of a file depends on the bytes of the
header only, so neither a write behind the last file nor a deletion mark in another header changes it.
-/

namespace EspClock.Romfs

open Mem Nor Chain

/-! ### Alignment -/

theorem align_spec {n : Nat} (hn : n + 3 < 2 ^ 32) : n ≤ align n ∧ align n < n + 4 ∧ align n % 4 = 0 := by
  rw [align, wrap32_of_lt hn]
  omega

/-! ### Names -/

variable {f g : Flash} {i : Nat}

theorem length_readName_le (f : Flash) (n i : Nat) : (readName f n i).length ≤ n := by
  induction n generalizing i with
  | zero => exact le_rfl
  | succ n ih =>
    rw [readName]
    split_ifs
    · exact Nat.zero_le _
    · exact Nat.succ_le_succ (ih (i + 1))

theorem readName_of_slice {name : List UInt8} {n : Nat} (hzero : 0 ∉ name) (hlength : name.length ≤ n)
    (hslice : slice f i (name.length + 1) = name ++ [0]) : readName f n i = name := by
  induction name generalizing n i with
  | nil =>
    have hf : f i = 0 := (List.cons.inj hslice).1
    cases n with
    | zero => rfl
    | succ n => rw [readName, if_pos hf]
  | cons b bs ih =>
    obtain ⟨hb, hbs⟩ := not_or.mp (List.mem_cons.not.mp hzero)
    obtain ⟨hf, hrest⟩ := List.cons.inj hslice
    cases n with
    | zero => exact absurd hlength (Nat.not_succ_le_zero _)
    | succ n =>
      rw [readName, if_neg (by rw [hf]; exact fun h => hb h.symm), hf,
        ih hbs (Nat.le_of_succ_le_succ hlength) hrest]

theorem readName_congr {n : Nat} (h : AgreeOn f g i (i + (readName f n i).length + 1)) :
    readName g n i = readName f n i := by
  induction n generalizing i with
  | zero => rfl
  | succ n ih =>
    have hhead : f i = g i := h i le_rfl (by omega)
    rw [readName] at h
    rw [readName, readName, ← hhead]
    split_ifs with hzero
    · rfl
    · rw [if_neg hzero, List.length_cons] at h
      have hrest : AgreeOn f g (i + 1) (i + 1 + (readName f n (i + 1)).length + 1) := h.mono (Nat.le_succ i) (by omega)
      rw [ih hrest]

/-! ### Sizes -/

theorem word_congr (h : AgreeOn f g i (i + 4)) : word g i = word f i := by
  have hbyte : ∀ k < 4, g (i + k) = f (i + k) := fun k hk => (h (i + k) (by omega) (by omega)).symm
  have hfirst := hbyte 0 (by decide)
  rw [Nat.add_zero] at hfirst
  rw [word, word, hfirst, hbyte 1 (by decide), hbyte 2 (by decide), hbyte 3 (by decide)]

theorem word_of_slice {n : Nat} (hn : n < 2 ^ 32) (h : slice f i 4 = wordBytes n) : word f i = n := by
  obtain ⟨h0, h⟩ := List.cons.inj h
  obtain ⟨h1, h⟩ := List.cons.inj h
  obtain ⟨h2, h⟩ := List.cons.inj h
  obtain ⟨h3, -⟩ := List.cons.inj h
  rw [word, h0, h1, show i + 2 = i + 1 + 1 from rfl, h2, show i + 3 = i + 1 + 1 + 1 from rfl, h3]
  simp only [UInt8.toNat_ofNat']
  omega

theorem word_of_erased (h : Erased f i (i + 4)) : word f i = 2 ^ 32 - 1 := by
  have hbyte : ∀ k < 4, f (i + k) = 0xFF := fun k hk => h (i + k) (by omega) (by omega)
  have hfirst := hbyte 0 (by decide)
  rw [Nat.add_zero] at hfirst
  rw [word, hfirst, hbyte 1 (by decide), hbyte 2 (by decide), hbyte 3 (by decide)]
  decide

/-! ### Headers -/

/-- Where the fields of a header are. -/
theorem header_spec (f : Flash) (hi : i < 2 ^ 31) :
    i + (header f i).name.length + 9 ≤ (header f i).baseaddr ∧
      (header f i).baseaddr < i + (header f i).name.length + 13 ∧ (header f i).baseaddr % 4 = 0 := by
  have hlength := length_readName_le f 30 i
  obtain ⟨hle, hlt, hmod⟩ := @align_spec (i + (readName f 30 i).length + 1) (by omega)
  show i + (readName f 30 i).length + 9 ≤ align (i + (readName f 30 i).length + 1) + 8 ∧
    align (i + (readName f 30 i).length + 1) + 8 < i + (readName f 30 i).length + 13 ∧
    (align (i + (readName f 30 i).length + 1) + 8) % 4 = 0
  omega

theorem header_congr (hi : i < 2 ^ 31) (h : AgreeOn f g i (header f i).baseaddr) : header g i = header f i := by
  obtain ⟨hle, -, -⟩ := header_spec f hi
  have hname : readName g 30 i = readName f 30 i := readName_congr (h.mono le_rfl (by
    show i + (header f i).name.length + 1 ≤ _
    omega))
  set j := align (i + (readName f 30 i).length + 1) with hj
  have hbase : (header f i).baseaddr = j + 8 := rfl
  have hij : i ≤ j := by
    show i ≤ j
    have hname' : (header f i).name = readName f 30 i := rfl
    omega
  have hfield : f j = g j := h j hij (by omega)
  have hsize : word g (j + 4) = word f (j + 4) := word_congr (h.mono (by omega) (by omega))
  unfold header
  dsimp only
  rw [hname, ← hj, ← hfield, hsize]

/-- The header of a file that was created under a name. -/
theorem header_named {name : List UInt8} (hzero : 0 ∉ name) (hlength : name.length ≤ 30)
    (hslice : slice f i (name.length + 1) = name ++ [0]) :
    header f i =
      { nameaddr := i
        name := name
        deleted := f (align (i + name.length + 1)) = 0xAA
        baseaddr := align (i + name.length + 1) + 8
        size := word f (align (i + name.length + 1) + 4) } := by
  rw [header, readName_of_slice hzero hlength hslice]

theorem sameName_iff {fname : List UInt8} {stack : UInt8} {h : Header} :
    sameName fname stack h = true ↔ h.name = fname ∧ (30 ≤ h.name.length → stack = 0) := by
  rw [sameName, decide_eq_true_iff]
  constructor
  · intro heq
    obtain ⟨hname, hlast⟩ := List.append_inj' heq rfl
    refine ⟨hname.symm, fun hlength => ?_⟩
    rw [if_neg (Nat.not_lt.mpr hlength)] at hlast
    exact (List.cons.inj hlast).1.symm
  · rintro ⟨rfl, hstack⟩
    split_ifs with hlength
    · rfl
    · rw [hstack (Nat.not_lt.mp hlength)]

/-! ### Complete files -/

/-- A complete file: its deletion field is erased or marked, and it leaves the last bytes free. -/
structure Entry (dev : Device) (f : Flash) (h : Header) : Prop where
  live : h.deleted = false → f (h.baseaddr - 8) = 0xFF
  bound : h.baseaddr + h.size + 4 ≤ dev.maxSize
  name_ne : h.name ≠ [1]

/-- Complete files, and nothing else, from one address to another. -/
structure Laid (dev : Device) (f : Flash) (i : Nat) (hs : List Header) (e : Nat) : Prop where
  path : Path (next dev f) i hs e
  entry : ∀ h ∈ hs, Entry dev f h

/-- A file between two addresses. -/
structure Header.Within (h : Header) (lo hi : Nat) : Prop where
  start : lo ≤ h.nameaddr
  fields : h.nameaddr + 9 ≤ h.baseaddr
  baseaddr_mod : h.baseaddr % 4 = 0
  stop : h.baseaddr + h.size ≤ hi

variable {dev : Device} {hs hs' : List Header} {h : Header} {j e : Nat}

theorem Header.Within.mono {lo hi lo' hi' : Nat} (hw : h.Within lo hi) (hlo : lo' ≤ lo) (hhi : hi ≤ hi') :
    h.Within lo' hi' :=
  ⟨hlo.trans hw.start, hw.fields, hw.baseaddr_mod, hw.stop.trans hhi⟩

theorem next_eq_some_iff :
    next dev f i = some (h, j) ↔
      (i < dev.flashSize ∧ f i ≠ 0xFF) ∧ h = header f i ∧ j = align (wrap32 (h.baseaddr + h.size)) := by
  rw [next]
  constructor
  · intro heq
    split_ifs at heq with hstop
    obtain ⟨rfl, rfl⟩ := Prod.mk.inj (Option.some.inj heq)
    obtain ⟨hlt, hne⟩ := not_or.mp hstop
    exact ⟨⟨Nat.not_le.mp hlt, hne⟩, rfl, rfl⟩
  · rintro ⟨⟨hlt, hne⟩, rfl, rfl⟩
    rw [if_neg (not_or.mpr ⟨Nat.not_le.mpr hlt, hne⟩)]

theorem next_eq_none (hf : f i = 0xFF) : next dev f i = none := if_pos (.inr hf)

/-- The address behind a complete file. -/
theorem Entry.align_spec (hentry : Entry dev f h) :
    align (wrap32 (h.baseaddr + h.size)) = align (h.baseaddr + h.size) ∧
      h.baseaddr + h.size ≤ align (h.baseaddr + h.size) ∧ align (h.baseaddr + h.size) % 4 = 0 ∧
      align (h.baseaddr + h.size) + 4 ≤ dev.maxSize := by
  have hbound := hentry.bound
  have hsize := dev.maxSize_le
  have hflash := dev.flashSize_le
  have hmod := dev.maxSize_mod
  obtain ⟨hle, hlt, halign⟩ := @Romfs.align_spec (h.baseaddr + h.size) (by omega)
  rw [wrap32_of_lt (by omega)]
  omega

namespace Laid

theorem nil (i : Nat) : Laid dev f i [] i := ⟨.nil i, List.forall_mem_nil _⟩

theorem cons (hi : i < dev.flashSize) (hne : f i ≠ 0xFF) (hentry : Entry dev f (header f i))
    (hrest : Laid dev f (align ((header f i).baseaddr + (header f i).size)) hs e) :
    Laid dev f i (header f i :: hs) e := by
  refine ⟨.cons (next_eq_some_iff.mpr ⟨⟨hi, hne⟩, rfl, rfl⟩) ?_, List.forall_mem_cons.mpr ⟨hentry, hrest.entry⟩⟩
  rw [hentry.align_spec.1]
  exact hrest.path

theorem append (hl : Laid dev f i hs j) (hl' : Laid dev f j hs' e) : Laid dev f i (hs ++ hs') e :=
  ⟨hl.path.append hl'.path, List.forall_mem_append.mpr ⟨hl.entry, hl'.entry⟩⟩

theorem uncons (hl : Laid dev f i (h :: hs) e) :
    (i < dev.flashSize ∧ f i ≠ 0xFF ∧ h = header f i) ∧ Entry dev f h ∧
      Laid dev f (align (h.baseaddr + h.size)) hs e := by
  obtain ⟨hpath, hentries⟩ := hl
  obtain ⟨hentry, hrest⟩ := List.forall_mem_cons.mp hentries
  cases hpath with
  | cons hstep hpath =>
    obtain ⟨⟨hi, hne⟩, hheader, rfl⟩ := next_eq_some_iff.mp hstep
    rw [hentry.align_spec.1] at hpath
    exact ⟨⟨hi, hne, hheader⟩, hentry, hpath, hrest⟩

/-- Every file takes some room, and all of it lies between the two addresses. -/
theorem bounds (hl : Laid dev f i hs e) (hi : i % 4 = 0) :
    i + hs.length ≤ e ∧ e % 4 = 0 ∧ ∀ h ∈ hs, h.Within i e := by
  induction hs generalizing i with
  | nil =>
    cases hl.path
    exact ⟨le_rfl, hi, List.forall_mem_nil _⟩
  | cons h hs ih =>
    obtain ⟨⟨hlt, -, rfl⟩, hentry, hrest⟩ := hl.uncons
    obtain ⟨hfield, -, hmod⟩ := header_spec f (hlt.trans_le dev.flashSize_le)
    obtain ⟨-, hle, halign, -⟩ := hentry.align_spec
    obtain ⟨hlength, hemod, hwithin⟩ := ih hrest halign
    have hname : (header f i).nameaddr = i := rfl
    refine ⟨by rw [List.length_cons]; omega, hemod, List.forall_mem_cons.mpr ⟨⟨le_rfl, ?_, hmod, by omega⟩, ?_⟩⟩
    · omega
    · exact fun x hx => (hwithin x hx).mono (by omega) le_rfl

theorem pairwise (hl : Laid dev f i hs e) (hi : i % 4 = 0) :
    hs.Pairwise fun a b => a.baseaddr + a.size ≤ b.nameaddr := by
  induction hs generalizing i with
  | nil => exact List.Pairwise.nil
  | cons h hs ih =>
    obtain ⟨-, hentry, hrest⟩ := hl.uncons
    obtain ⟨-, hle, halign, -⟩ := hentry.align_spec
    exact List.pairwise_cons.mpr
      ⟨fun x hx => hle.trans ((hrest.bounds halign).2.2 x hx).start, ih hrest halign⟩

/-- Two files have no byte in common. -/
theorem apart (hl : Laid dev f i hs e) (hi : i % 4 = 0) {a b : Header} (ha : a ∈ hs) (hb : b ∈ hs) (hne : a ≠ b) :
    a.baseaddr + a.size ≤ b.nameaddr ∨ b.baseaddr + b.size ≤ a.nameaddr := by
  have hpairwise : hs.Pairwise fun a b => a.baseaddr + a.size ≤ b.nameaddr ∨ b.baseaddr + b.size ≤ a.nameaddr :=
    (hl.pairwise hi).imp .inl
  have hsymm : Std.Symm fun a b : Header => a.baseaddr + a.size ≤ b.nameaddr ∨ b.baseaddr + b.size ≤ a.nameaddr :=
    ⟨fun _ _ h => h.symm⟩
  exact hpairwise.forall ha hb hne

/-- Only the bytes between the two addresses count. -/
theorem congr (hl : Laid dev f i hs e) (hi : i % 4 = 0) (h : AgreeOn f g i e) : Laid dev g i hs e := by
  induction hs generalizing i with
  | nil =>
    cases hl.path
    exact nil _
  | cons x hs ih =>
    have hwithin := (hl.bounds hi).2.2 x List.mem_cons_self
    obtain ⟨⟨hlt, hne, rfl⟩, hentry, hrest⟩ := hl.uncons
    obtain ⟨-, hle, halign, -⟩ := hentry.align_spec
    have hname : (header f i).nameaddr = i := rfl
    have hfields := hwithin.fields
    have hstop := hwithin.stop
    have hheader : header g i = header f i :=
      header_congr (hlt.trans_le dev.flashSize_le) (h.mono le_rfl (by omega))
    have hentry' : Entry dev g (header g i) := by
      rw [hheader]
      refine ⟨fun hlive => ?_, hentry.bound, hentry.name_ne⟩
      rw [← h _ (by omega) (by omega)]
      exact hentry.live hlive
    rw [← hheader]
    refine cons hlt ?_ hentry' ?_
    · rw [← h i le_rfl (by omega)]
      exact hne
    · rw [hheader]
      exact ih hrest halign (h.mono (by omega) le_rfl)

end Laid

/-! ### Deletion -/

/-- A header once a file is deleted. -/
def Header.mark (h x : Header) : Header := if x.nameaddr = h.nameaddr then { x with deleted := true } else x

/-- What `romfs_open` writes into the deletion field. -/
def deletion : List UInt8 := [0xAA, 0xFF, 0xFF, 0xFF]

theorem header_deletion (hi : i < 2 ^ 31) (hlive : f ((header f i).baseaddr - 8) = 0xFF) :
    header (write f ((header f i).baseaddr - 8) deletion) i = { header f i with deleted := true } := by
  obtain ⟨hle, -, -⟩ := header_spec f hi
  set j := align (i + (readName f 30 i).length + 1) with hj
  have hbase : (header f i).baseaddr - 8 = j := rfl
  have hlength : (header f i).name.length = (readName f 30 i).length := rfl
  rw [hbase] at hlive ⊢
  have hname : readName (write f j deletion) 30 i = readName f 30 i := by
    refine readName_congr (agreeOn_write f deletion (.inl ?_))
    rw [← hbase]
    omega
  have hsize : word (write f j deletion) (j + 4) = word f (j + 4) :=
    word_congr (agreeOn_write f deletion (.inr le_rfl))
  have hfield : write f j deletion j = 0xAA := write_erased hlive (List.cons_ne_nil _ _)
  unfold header
  dsimp only
  rw [hname, ← hj, hsize, hfield]
  rfl

namespace Laid

theorem mark (hl : Laid dev f i hs e) (hi : i % 4 = 0) (hmem : h ∈ hs) (hlive : h.deleted = false) :
    Laid dev (write f (h.baseaddr - 8) deletion) i (hs.map h.mark) e := by
  induction hs generalizing i with
  | nil => exact absurd hmem List.not_mem_nil
  | cons x hs ih =>
    have hpairwise := (List.pairwise_cons.mp (hl.pairwise hi)).1
    have hwithin := (hl.bounds hi).2.2
    obtain ⟨hx, -⟩ := List.forall_mem_cons.mp hwithin
    obtain ⟨⟨hlt, hne, rfl⟩, hentry, hrest⟩ := hl.uncons
    obtain ⟨-, hle, halign, -⟩ := hentry.align_spec
    have hi' : i < 2 ^ 31 := hlt.trans_le dev.flashSize_le
    have hname : (header f i).nameaddr = i := rfl
    have hfields := hx.fields
    have hbehind := (hrest.bounds halign).2.2
    rcases List.mem_cons.mp hmem with rfl | hmem
    · set g := write f ((header f i).baseaddr - 8) deletion with hg
      have hheader : header g i = { header f i with deleted := true } :=
        header_deletion hi' (hentry.live hlive)
      have hother : hs.map (header f i).mark = hs := by
        conv_rhs => rw [← List.map_id hs]
        refine List.map_congr_left fun y hy => if_neg ?_
        have hstart := hpairwise y hy
        omega
      have hmarked : (header f i).mark (header f i) = header g i := (if_pos rfl).trans hheader.symm
      rw [List.map_cons, hother, hmarked]
      refine cons hlt ?_ ?_ ?_
      · rw [hg, write_of_outside f deletion (by omega)]
        exact hne
      · rw [hheader]
        exact ⟨fun h => absurd h Bool.noConfusion, hentry.bound, hentry.name_ne⟩
      · rw [hheader]
        refine hrest.congr halign (agreeOn_write f deletion (.inr ?_))
        show (header f i).baseaddr - 8 + 4 ≤ _
        omega
    · have hstart := (hbehind h hmem).start
      have hfields' := (hbehind h hmem).fields
      set g := write f (h.baseaddr - 8) deletion with hg
      have hagree : AgreeOn f g i (header f i).baseaddr := agreeOn_write f deletion (.inl (by omega))
      have hheader : header g i = header f i := header_congr hi' hagree
      have hother : h.mark (header f i) = header g i := by
        rw [hheader]
        refine if_neg ?_
        omega
      have hfield : g ((header f i).baseaddr - 8) = f ((header f i).baseaddr - 8) :=
        (hagree _ (by omega) (by omega)).symm
      rw [List.map_cons, hother]
      refine cons hlt ?_ ?_ ?_
      · rw [← hagree i le_rfl (by omega)]
        exact hne
      · rw [hheader]
        exact ⟨fun hlive' => hfield.trans (hentry.live hlive'), hentry.bound, hentry.name_ne⟩
      · rw [hheader]
        exact ih hrest halign hmem

end Laid

/-! ### Scans -/

theorem last_of_lt (he : e < dev.flashSize) : dev.last e = e := if_neg (Nat.not_le.mpr he)

/-- A scan goes through the complete files and, if it finds none, on behind them. -/
theorem Laid.openFile_eq (hl : Laid dev f 0 hs e) (he : e < dev.flashSize) (fname : List UInt8) (stack : UInt8) :
    romfsOpenFile dev f fname stack =
      (hs.find? (isFile fname stack)).elim
        (search (next dev f) (isFile fname stack) (dev.flashSize - hs.length + 1) e) .found := by
  have hlength := (hl.bounds rfl).1
  rw [romfsOpenFile, show dev.flashSize + 1 = hs.length + (dev.flashSize - hs.length + 1) by omega]
  exact hl.path.search_eq _

theorem Laid.openFile (hl : Laid dev f 0 hs e) (he : e < dev.flashSize) (hend : f e = 0xFF) (fname : List UInt8)
    (stack : UInt8) :
    romfsOpenFile dev f fname stack = (hs.find? (isFile fname stack)).elim (.ended e) .found := by
  rw [hl.openFile_eq he, search_end (next_eq_none hend)]

/-- No file has the name that the end of the chain is searched with. -/
theorem Laid.find?_one (hl : Laid dev f i hs e) (stack : UInt8) : hs.find? (isFile [1] stack) = none := by
  rw [List.find?_eq_none]
  intro h hh hfile
  rw [isFile, Bool.and_eq_true, sameName_iff] at hfile
  exact (hl.entry h hh).name_ne hfile.1.1

theorem Laid.openFile_one (hl : Laid dev f 0 hs e) (he : e < dev.flashSize) (hend : f e = 0xFF) (stack : UInt8) :
    romfsOpenFile dev f [1] stack = .ended e := by
  rw [hl.openFile he hend, hl.find?_one, Option.elim_none]

end EspClock.Romfs
