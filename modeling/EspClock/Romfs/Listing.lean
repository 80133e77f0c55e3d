import EspClock.Romfs.Refinement
import EspClock.Romfs.ScanEnds

/-!
# The enumeration of the files

`romfs_next_file` goes through all headers and says of a deleted file that its name has length 0. The names that it
gives with a length are those of the store, each once: a file that was replaced is not given again.
-/

namespace EspClock.Romfs

open Mem Nor Chain

/-- The names in front of the lengths, of the files that are not given with length 0. -/
def Listing.present (l : Listing) : List (List UInt8) :=
  (l.files.filter fun x => 0 < x.2).map fun x => x.1.take x.2

/-- The enumeration ends, and the names with a length are those of the files, each once. -/
structure Lists (dev : Device) (f : Flash) (files : List UInt8 → Option (List UInt8)) : Prop where
  ended : (fileList dev f 30 (dev.flashSize + 1) 0).ended = true
  nodup : ((fileList dev f 30 (dev.flashSize + 1) 0).present.map fold).Nodup
  mem_iff : ∀ key, key ∈ (fileList dev f 30 (dev.flashSize + 1) 0).present.map fold ↔ files key ≠ none

variable {dev : Device} {f : Flash} {i e : Nat} {hs : List Header} {s : Wofs} {st : Store (List UInt8)}
  {files : List UInt8 → Option (List UInt8)}

/-! ### Complete files -/

/-- What `romfs_next_file` says of a header. -/
def Header.listed (h : Header) : List UInt8 × Nat :=
  (h.name ++ if h.name.length < 30 then [0] else [], if h.deleted then 0 else h.name.length)

theorem romfsNextFile_eq (hi : i < dev.flashSize) (hne : f i ≠ 0xFF) (hentry : Entry dev f (header f i)) :
    romfsNextFile dev f i 30 =
      ⟨true, align ((header f i).baseaddr + (header f i).size), (header f i).listed.1, (header f i).listed.2⟩ := by
  have hheader : headerWithin f 30 i = header f i := rfl
  rw [romfsNextFile, if_neg (not_or.mpr ⟨Nat.not_le.mpr hi, hne⟩), hheader, Nat.min_self]
  dsimp only
  rw [hentry.align_spec.1, Header.listed]

namespace Laid

theorem fileList_eq (hl : Laid dev f i hs e) (hend : f e = 0xFF) (fuel : Nat) :
    (fileList dev f 30 (hs.length + (fuel + 1)) i).files = hs.map Header.listed ∧
      (fileList dev f 30 (hs.length + (fuel + 1)) i).ended = true := by
  induction hs generalizing i with
  | nil =>
    cases hl.path
    have hnone : (romfsNextFile dev f e 30).ok = false := by rw [romfsNextFile, if_pos (.inr hend)]
    rw [List.length_nil, Nat.zero_add, fileList, hnone]
    exact ⟨rfl, rfl⟩
  | cons x hs ih =>
    obtain ⟨⟨hlt, hne, rfl⟩, hentry, hrest⟩ := hl.uncons
    obtain ⟨hfiles, hended⟩ := ih hrest
    rw [List.length_cons, Nat.add_right_comm, fileList, romfsNextFile_eq hlt hne hentry]
    dsimp only
    rw [if_pos rfl, hfiles]
    exact ⟨rfl, hended⟩

theorem nodup (hl : Laid dev f i hs e) (hi : i % 4 = 0) : hs.Nodup := by
  refine (hl.pairwise hi).imp_of_mem fun {a b} ha _ hle heq => ?_
  have hfields := ((hl.bounds hi).2.2 a ha).fields
  subst heq
  omega

end Laid

/-- The name of a file that is not deleted comes out of the buffer. -/
theorem present_listed {l : Listing} (hl : l.files = hs.map Header.listed)
    (hname : ∀ h ∈ hs, h.deleted = false → h.name ≠ []) :
    l.present = (hs.filter fun h => !h.deleted).map Header.name := by
  have htake : ∀ h : Header, h.deleted = false → h.listed.1.take h.listed.2 = h.name := by
    intro h hlive
    rw [Header.listed, hlive]
    exact List.take_left
  rw [Listing.present, hl, List.filter_map, List.map_map]
  have hfilter : hs.filter ((fun x : List UInt8 × Nat => decide (0 < x.2)) ∘ Header.listed) =
      hs.filter fun h => !h.deleted := by
    refine List.filter_congr fun h hh => ?_
    show decide (0 < if h.deleted then 0 else h.name.length) = !h.deleted
    cases hdel : h.deleted with
    | true => rfl
    | false => exact decide_eq_true (List.length_pos_iff.mpr (hname h hh hdel))
  rw [hfilter]
  refine List.map_congr_left fun h hh => htake h ?_
  exact (Bool.not_eq_true' _).mp (List.mem_filter.mp hh).2

namespace FilesOk

/-- Files that are not deleted have a name if no file of the store is without one. -/
theorem name_ne (h : FilesOk f hs files) (hnone : files [] = none) : ∀ x ∈ hs, x.deleted = false → x.name ≠ [] := by
  intro x hx hlive hname
  rw [h.content, Option.map_eq_none_iff] at hnone
  exact List.find?_eq_none.mp hnone x hx (isKept_iff.mpr ⟨hlive, by rw [hname]; rfl⟩)

theorem nodup (h : FilesOk f hs files) (hnodup : hs.Nodup) :
    (((hs.filter fun x => !x.deleted).map Header.name).map fold).Nodup := by
  rw [List.map_map]
  refine (hnodup.filter _).map_on fun a ha b hb heq => ?_
  obtain ⟨ha, halive⟩ := List.mem_filter.mp ha
  obtain ⟨hb, hblive⟩ := List.mem_filter.mp hb
  exact h.unique a ha b hb ((Bool.not_eq_true' _).mp halive) ((Bool.not_eq_true' _).mp hblive) heq

theorem mem_iff (h : FilesOk f hs files) (key : List UInt8) :
    key ∈ ((hs.filter fun x => !x.deleted).map Header.name).map fold ↔ files key ≠ none := by
  rw [h.content, Ne, Option.map_eq_none_iff, List.find?_eq_none, List.map_map, List.mem_map]
  constructor
  · rintro ⟨x, hx, hfold⟩ hnone
    obtain ⟨hx, hlive⟩ := List.mem_filter.mp hx
    exact hnone x hx (isKept_iff.mpr ⟨(Bool.not_eq_true' _).mp hlive, hfold⟩)
  · intro hsome
    by_contra hnot
    refine hsome fun x hx hkept => hnot ⟨x, ?_, (isKept_iff.mp hkept).2⟩
    exact List.mem_filter.mpr ⟨hx, (Bool.not_eq_true' _).mpr (isKept_iff.mp hkept).1⟩

end FilesOk

/-! ### Names of the store -/

/-- No file of the store is without a name. -/
structure Named (st : Store (List UInt8)) : Prop where
  files : st.files [] = none
  writing : st.writing ≠ some []

theorem fold_ne (name : FileName) : fold name.bytes ≠ [] := by
  rw [fold, Ne, List.map_eq_nil_iff]
  exact name.bytes_ne

namespace Named

theorem of_eq {st' : Store (List UInt8)} (h : Named st) (hfiles : st'.files = st.files) (hwriting : st'.writing = st.writing) :
    Named st' :=
  ⟨by rw [hfiles]; exact h.files, by rw [hwriting]; exact h.writing⟩

theorem remove (h : Named st) (key : List UInt8) : Named (st.remove key) := by
  refine ⟨?_, h.writing⟩
  show Function.update st.files key none [] = none
  rw [Function.update_apply, h.files, ite_self]

theorem finish (h : Named st) (content : List UInt8) : Named (st.finish content) := by
  rw [Store.finish]
  cases hwriting : st.writing with
  | none => exact h
  | some key =>
    have hkey : [] ≠ key := fun heq => h.writing (by rw [hwriting, heq])
    refine ⟨?_, (Option.some_ne_none _).symm⟩
    show Function.update st.files key (some content) [] = none
    rw [Function.update_of_ne hkey]
    exact h.files

theorem «open» (h : Named st) (capacity : Nat) (name : FileName) (flags : OpenFlags) :
    Named (st.open capacity (fold name.bytes) name.bytes.length flags).1 := by
  rw [Store.open]
  cases st.free with
  | none => exact h
  | some i =>
    dsimp only
    split_ifs with hwrites hcreates
    · rw [Store.create]
      split_ifs
      · exact h.remove _
      · exact ⟨(h.remove _).files, fun heq => fold_ne name (Option.some.inj heq)⟩
    · exact h
    · cases st.files (fold name.bytes) with
      | none => exact h
      | some content => exact h.of_eq rfl rfl

theorem withFd (h : Named st) (fd : Int) {call : Fin 8 → Descriptor → Store (List UInt8) × List Reply}
    (hcall : ∀ i d, Named (call i d).1) : Named (st.withFd fd call).1 := by
  rw [Store.withFd]
  cases Wofs.slot fd with
  | none => exact h
  | some i =>
    dsimp only
    cases st.fds i with
    | none => exact h
    | some d => exact hcall i d

theorem operate (h : Named st) (capacity : Nat) (o : Operation) : Named (st.operate capacity o).1 := by
  cases o with
  | «open» name mode _ => exact h.open capacity name _
  | write fd data =>
    refine h.withFd fd fun i d => ?_
    rw [Store.write]
    split_ifs
    · exact h
    · exact h
    · exact h
    · exact h.of_eq rfl rfl
  | read fd len =>
    refine h.withFd fd fun i d => ?_
    rw [Store.read]
    split_ifs
    · exact h
    · exact h
    · exact h.of_eq rfl rfl
  | lseek fd off whence =>
    refine h.withFd fd fun i d => ?_
    rw [Store.lseek]
    cases Store.position d off whence with
    | none => exact h
    | some position =>
      dsimp only
      split_ifs
      · exact h.of_eq rfl rfl
      · exact h
  | close fd =>
    refine h.withFd fd fun i d => ?_
    rw [Store.close]
    split_ifs
    · exact (h.finish d.content).of_eq rfl rfl
    · exact h.of_eq rfl rfl
  | format => exact ⟨rfl, (Option.some_ne_none _).symm⟩

end Named

/-! ### Runs -/

namespace Rel

theorem lists (h : Rel dev s st) (hnamed : Named st) (hwriting : st.writing = none) : Lists dev s.flash st.files := by
  cases h with
  | busy hs e name w hbusy hshared hwriting' => exact nomatch hwriting.symm.trans hwriting'
  | idle hs e hidle hshared =>
    have hlength := (hidle.laid.bounds rfl).1
    have hlt := hidle.lt_flash
    obtain ⟨hfiles, hended⟩ := hidle.laid.fileList_eq hidle.atEnd (dev.flashSize - hs.length)
    rw [show hs.length + (dev.flashSize - hs.length + 1) = dev.flashSize + 1 by omega] at hfiles hended
    have hpresent := present_listed hfiles (hshared.files.name_ne hnamed.files)
    refine ⟨hended, ?_, fun key => ?_⟩
    · rw [hpresent]
      exact hshared.files.nodup (hidle.laid.nodup rfl)
    · rw [hpresent]
      exact hshared.files.mem_iff key

theorem final (h : Rel dev s st) (hnamed : Named st) {os : List Operation}
    (hok : (wofs dev).Along (fun s o => Valid s o ∧ Told dev s o) s os) :
    Rel dev ((wofs dev).final s os) ((store dev.maxSize).final st os) ∧ Named ((store dev.maxSize).final st os) := by
  induction os generalizing s st with
  | nil => exact ⟨h, hnamed⟩
  | cons o os ih =>
    obtain ⟨hs, hshared⟩ := h.shared
    have hagrees := h.operate hok.1.1 hok.1.2
    refine ih ?_ (hnamed.operate dev.maxSize o) hok.2
    rw [Machine.next, step_eq hshared.returned]
    exact hagrees.rel

end Rel

/-- From an erased region on, whenever no file is being written, the enumeration gives the files of the store. -/
theorem lists_of_store (dev : Device) (flash : Flash) (herased : Erased flash 0 dev.maxSize) (os : List Operation)
    (hok : (wofs dev).Along (fun s o => Valid s o ∧ Told dev s o) (.init flash) os)
    (hwriting : ((store dev.maxSize).final .empty os).writing = none) :
    Lists dev ((wofs dev).final (.init flash) os).flash ((store dev.maxSize).final .empty os).files := by
  obtain ⟨hrel, hnamed⟩ := (Rel.init herased).final ⟨rfl, (Option.some_ne_none _).symm⟩ hok
  exact hrel.lists hnamed hwriting

/-- A file is written, and written anew. -/
def rewriting : List Operation :=
  [.open nameA "w" 0, .write 0 [1, 2], .close 0, .open nameA "w" 0, .close 0]

theorem lists_of_store_rewriting :
    Lists tiny ((wofs tiny).final (.init blank) rewriting).flash ((store tiny.maxSize).final .empty rewriting).files := by
  refine lists_of_store tiny blank (fun _ _ _ => rfl) rewriting ⟨⟨?_, ?_⟩, ⟨⟨0, rfl, rfl⟩, ?_⟩, ⟨⟨0, rfl, rfl⟩, trivial⟩,
    ⟨?_, ?_⟩, ⟨⟨0, rfl, rfl⟩, trivial⟩, trivial⟩ rfl
  · show ¬ Wofs.IsWriting _
    decide
  · intro _ h hh
    have hnone : (Wofs.init blank).files tiny = [] := by decide
    rw [hnone] at hh
    exact absurd hh List.not_mem_nil
  · intro i hi _ _
    obtain rfl : (0 : Fin 8) = i := Option.some.inj hi
    left
    decide
  · show ¬ Wofs.IsWriting _
    decide
  · intro _ h hh _ _
    have hname : ∀ h ∈ ((wofs tiny).final (.init blank) (rewriting.take 3)).files tiny, h.name = [97] := by decide
    exact ⟨hname h hh, fun hlength => absurd hlength (by decide)⟩

/-- The file that was replaced is given with length 0. -/
example : (fileList tiny ((wofs tiny).final (.init blank) rewriting).flash 30 33 0).files = [([97, 0], 0), ([97, 0], 1)] := by
  decide +kernel

end EspClock.Romfs
