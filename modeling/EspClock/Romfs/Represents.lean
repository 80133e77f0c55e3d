import EspClock.Romfs.Files
import EspClock.Romfs.Room
import Mathlib.Data.Fintype.Card
import Mathlib.Data.List.Find

/-!
# What the region represents

The region and the descriptors represent a store of files: the complete files that are not deleted are its files,
and the data that a descriptor leads to are its content.
-/

namespace EspClock.Romfs

open Mem Nor Chain

/-! ### Files -/

def Header.content (f : Flash) (h : Header) : List UInt8 := slice f h.baseaddr h.size

/-- A file that is there under a key. -/
def isKept (key : List UInt8) (h : Header) : Bool := !h.deleted && fold h.name = key

theorem isKept_iff {key : List UInt8} {h : Header} : isKept key h = true ↔ h.deleted = false ∧ fold h.name = key := by
  rw [isKept, Bool.and_eq_true, Bool.not_eq_true', decide_eq_true_iff]

/-- The complete files are those of the store, and no two have one key. -/
structure FilesOk (f : Flash) (hs : List Header) (files : List UInt8 → Option (List UInt8)) : Prop where
  content : ∀ key, files key = (hs.find? (isKept key)).map (Header.content f)
  unique : ∀ a ∈ hs, ∀ b ∈ hs, a.deleted = false → b.deleted = false → fold a.name = fold b.name → a = b

variable {dev : Device} {f f' : Flash} {hs hs' : List Header} {files : List UInt8 → Option (List UInt8)}
  {s s' : Wofs} {st : Store (List UInt8)} {e : Nat} {name : FileName} {w i : Fin 8} {x : Header}

theorem Header.content_congr {lo hi : Nat} (hx : x.Within lo hi) (h : AgreeOn f f' 0 hi) : x.content f' = x.content f :=
  (slice_congr (h.mono (Nat.zero_le _) hx.stop)).symm

namespace FilesOk

theorem reflash (h : FilesOk f hs files) (hcontent : ∀ x ∈ hs, x.content f' = x.content f) : FilesOk f' hs files := by
  refine ⟨fun key => ?_, h.unique⟩
  rw [h.content key]
  cases hfind : hs.find? (isKept key) with
  | none => rfl
  | some x => exact congrArg some (hcontent x (List.mem_of_find?_eq_some hfind)).symm

/-- A new file under a key that no file has. -/
theorem append (h : FilesOk f hs files) (hlive : x.deleted = false) (hnone : files (fold x.name) = none) :
    FilesOk f (hs ++ [x]) (Function.update files (fold x.name) (some (x.content f))) := by
  have hfree : hs.find? (isKept (fold x.name)) = none := by
    rw [h.content, Option.map_eq_none_iff] at hnone
    exact hnone
  have hother : ∀ y ∈ hs, y.deleted = false → fold y.name ≠ fold x.name := by
    intro y hy hylive heq
    exact List.find?_eq_none.mp hfree y hy (isKept_iff.mpr ⟨hylive, heq⟩)
  refine ⟨fun key => ?_, ?_⟩
  · rw [List.find?_append]
    by_cases hkey : key = fold x.name
    · subst hkey
      rw [Function.update_self, hfree, List.find?_cons_of_pos (isKept_iff.mpr ⟨hlive, rfl⟩)]
      rfl
    · have hnot : ¬ isKept key x = true := fun hkept => hkey (isKept_iff.mp hkept).2.symm
      rw [Function.update_of_ne hkey, h.content, List.find?_cons_of_neg hnot, List.find?_nil, Option.or_none]
  · intro a ha b hb halive hblive heq
    rcases List.mem_append.mp ha with ha | ha <;> rcases List.mem_append.mp hb with hb | hb
    · exact h.unique a ha b hb halive hblive heq
    · rw [List.mem_singleton.mp hb] at heq
      exact absurd heq (hother a ha halive)
    · rw [List.mem_singleton.mp ha] at heq
      exact absurd heq.symm (hother b hb hblive)
    · rw [List.mem_singleton.mp ha, List.mem_singleton.mp hb]

/-- A file is deleted. -/
theorem mark (h : FilesOk f hs files) (hx : x ∈ hs) (hlive : x.deleted = false)
    (haddr : ∀ y ∈ hs, y.nameaddr = x.nameaddr → y = x) (hcontent : ∀ y ∈ hs, y.content f' = y.content f) :
    FilesOk f' (hs.map x.mark) (Function.update files (fold x.name) none) := by
  have hmark : ∀ y ∈ hs, y ≠ x → x.mark y = y := fun y hy hne => if_neg fun heq => hne (haddr y hy heq)
  have hself : (x.mark x).deleted = true := by
    rw [Header.mark, if_pos rfl]
  refine ⟨fun key => ?_, ?_⟩
  · by_cases hkey : key = fold x.name
    · subst hkey
      have hnone : (hs.map x.mark).find? (isKept (fold x.name)) = none := by
        rw [List.find?_eq_none]
        intro z hz hkept
        obtain ⟨y, hy, rfl⟩ := List.mem_map.mp hz
        obtain ⟨hylive, hfold⟩ := isKept_iff.mp hkept
        by_cases hyx : y = x
        · subst hyx
          exact Bool.false_ne_true (hylive.symm.trans hself)
        · rw [hmark y hy hyx] at hylive hfold
          exact hyx (h.unique y hy x hx hylive hlive hfold)
      rw [Function.update_self, hnone]
      rfl
    · have hx' : ¬ isKept key x = true := fun hkept => hkey (isKept_iff.mp hkept).2.symm
      have hmarked : ¬ isKept key (x.mark x) = true := fun hkept =>
        Bool.false_ne_true ((isKept_iff.mp hkept).1.symm.trans hself)
      have hkept : ∀ y ∈ hs, (isKept key ∘ x.mark) y = isKept key y := by
        intro y hy
        by_cases hyx : y = x
        · subst hyx
          exact (Bool.eq_false_iff.mpr hmarked).trans (Bool.eq_false_iff.mpr hx').symm
        · exact congrArg (isKept key) (hmark y hy hyx)
      have hfind : (hs.map x.mark).find? (isKept key) = hs.find? (isKept key) := by
        rw [List.find?_map, List.find?_congr hkept]
        cases hy : hs.find? (isKept key) with
        | none => rfl
        | some y =>
          have hyx : y ≠ x := by
            rintro rfl
            exact hx' (List.find?_some hy)
          exact congrArg some (hmark y (List.mem_of_find?_eq_some hy) hyx)
      rw [Function.update_of_ne hkey, hfind]
      exact (h.reflash hcontent).content key
  · intro a ha b hb halive hblive heq
    obtain ⟨y, hy, rfl⟩ := List.mem_map.mp ha
    obtain ⟨z, hz, rfl⟩ := List.mem_map.mp hb
    have hy' : y ≠ x := by
      rintro rfl
      exact Bool.false_ne_true (halive.symm.trans hself)
    have hz' : z ≠ x := by
      rintro rfl
      exact Bool.false_ne_true (hblive.symm.trans hself)
    rw [hmark y hy hy'] at halive heq ⊢
    rw [hmark z hz hz'] at hblive heq ⊢
    exact h.unique y hy z hz halive hblive heq

end FilesOk

/-! ### Descriptors -/

/-- A descriptor of the table leads to a content; one that reads leads to a file. -/
structure Represents (f : Flash) (hs : List Header) (fd : Fd) (d : Descriptor) : Prop where
  flags : fd.flags = d.flags
  offset : fd.offset = d.offset
  offset_le : fd.offset ≤ fd.size
  content : slice f fd.baseaddr fd.size = d.content
  isOpen : fd.isOpen = true
  reads : fd.flags.writes = false → ∃ h ∈ hs, fd.baseaddr = h.baseaddr ∧ fd.size = h.size

theorem Represents.length {fd : Fd} {d : Descriptor} (h : Represents f hs fd d) : d.content.length = fd.size := by
  rw [← h.content, length_slice]

structure FdsOk (f : Flash) (hs : List Header) (table : Fin 8 → Fd) (fds : Fin 8 → Option Descriptor) : Prop where
  closed : ∀ i, fds i = none → table i = .closed
  opened : ∀ i d, fds i = some d → Represents f hs (table i) d

variable {table : Fin 8 → Fd} {fds : Fin 8 → Option Descriptor} {fd : Fd} {d d' : Descriptor}

namespace FdsOk

theorem set (h : FdsOk f hs table fds) (i : Fin 8) {o : Option Descriptor} (hclosed : o = none → fd = .closed)
    (hopened : ∀ d, o = some d → Represents f hs fd d) :
    FdsOk f hs (Function.update table i fd) (Function.update fds i o) := by
  refine ⟨fun j hj => ?_, fun j d' hj => ?_⟩
  · by_cases hji : j = i
    · subst hji
      rw [Function.update_self] at hj ⊢
      exact hclosed hj
    · rw [Function.update_of_ne hji] at hj ⊢
      exact h.closed j hj
  · by_cases hji : j = i
    · subst hji
      rw [Function.update_self] at hj ⊢
      exact hopened d' hj
    · rw [Function.update_of_ne hji] at hj ⊢
      exact h.opened j d' hj

theorem update (h : FdsOk f hs table fds) (i : Fin 8) (hr : Represents f hs fd d) :
    FdsOk f hs (Function.update table i fd) (Function.update fds i (some d)) :=
  h.set i (fun hnone => absurd hnone (Option.some_ne_none d)) fun _ hd => Option.some.inj hd ▸ hr

theorem release (h : FdsOk f hs table fds) (i : Fin 8) :
    FdsOk f hs (Function.update table i .closed) (Function.update fds i none) :=
  h.set i (fun _ => rfl) fun d hd => absurd hd.symm (Option.some_ne_none d)

/-- Descriptors that read follow their files. -/
theorem reflash (h : FdsOk f hs table fds) (hreads : ∀ i, (table i).flags.writes = false)
    (hfiles : ∀ x ∈ hs, x.content f' = x.content f ∧ ∃ y ∈ hs', y.baseaddr = x.baseaddr ∧ y.size = x.size) :
    FdsOk f' hs' table fds := by
  refine ⟨h.closed, fun i d hi => ?_⟩
  have hr := h.opened i d hi
  obtain ⟨x, hx, hbase, hsize⟩ := hr.reads (hreads i)
  obtain ⟨hcontent, y, hy, hbase', hsize'⟩ := hfiles x hx
  refine ⟨hr.flags, hr.offset, hr.offset_le, ?_, hr.isOpen, fun _ => ⟨y, hy, hbase.trans hbase'.symm, hsize.trans hsize'.symm⟩⟩
  rw [← hr.content, hbase, hsize]
  exact hcontent

/-- The descriptor that writes is given back, and the others follow their files. -/
theorem finish (h : FdsOk f hs table fds) (hreads : ∀ i, i ≠ w → (table i).flags.writes = false)
    (hfiles : ∀ x ∈ hs, x.content f' = x.content f ∧ ∃ y ∈ hs', y.baseaddr = x.baseaddr ∧ y.size = x.size) :
    FdsOk f' hs' (Function.update table w .closed) (Function.update fds w none) := by
  refine (h.release w).reflash (fun i => ?_) hfiles
  by_cases hi : i = w
  · subst hi
    rw [Function.update_self]
    rfl
  · rw [Function.update_of_ne hi]
    exact hreads i hi

/-- The descriptor that writes gets a new content. -/
theorem rewrite (h : FdsOk f hs table fds) (hreads : ∀ i, i ≠ w → (table i).flags.writes = false)
    (hfiles : ∀ x ∈ hs, x.content f' = x.content f ∧ ∃ y ∈ hs', y.baseaddr = x.baseaddr ∧ y.size = x.size)
    (hr : Represents f' hs' fd d) :
    FdsOk f' hs' (Function.update table w fd) (Function.update fds w (some d)) := by
  have hupdate := (h.finish hreads hfiles).update w hr
  rwa [Function.update_idem, Function.update_idem] at hupdate

theorem isOpen_iff (h : FdsOk f hs table fds) (i : Fin 8) : (table i).isOpen = true ↔ ∃ d, fds i = some d := by
  cases hi : fds i with
  | none =>
    rw [h.closed i hi]
    exact iff_of_false Bool.false_ne_true fun ⟨_, hd⟩ => nomatch hd
  | some d => exact iff_of_true (h.opened i d hi).isOpen ⟨d, rfl⟩

end FdsOk

/-- The number of open descriptors. -/
def count (fds : Fin 8 → Option Descriptor) : Nat := (Finset.univ.filter fun i => (fds i).isSome = true).card

theorem count_install (hi : fds i = none) (d : Descriptor) : count (Function.update fds i (some d)) = count fds + 1 := by
  have hfilter : (Finset.univ.filter fun j => (Function.update fds i (some d) j).isSome = true) =
      insert i (Finset.univ.filter fun j => (fds j).isSome = true) := by
    ext j
    rw [Finset.mem_insert, Finset.mem_filter, Finset.mem_filter]
    by_cases hj : j = i
    · subst hj
      simp
    · simp [hj]
  have hnot : i ∉ Finset.univ.filter fun j => (fds j).isSome = true := by
    simp [hi]
  rw [count, hfilter, Finset.card_insert_of_notMem hnot, count]

theorem count_release (hi : fds i = some d) : count fds = count (Function.update fds i none) + 1 := by
  have hback : Function.update (Function.update fds i none) i (some d) = fds := by
    rw [Function.update_idem, ← hi, Function.update_eq_self]
  have hinstall := @count_install i (Function.update fds i none) (Function.update_self ..) d
  rwa [hback] at hinstall

theorem count_move (hi : fds i = some d) (d' : Descriptor) : count (Function.update fds i (some d')) = count fds := by
  have hinstall := @count_install i (Function.update fds i none) (Function.update_self ..) d'
  rw [Function.update_idem] at hinstall
  rw [hinstall, count_release hi]

theorem count_eq_iff : count fds = 8 ↔ ∀ i, fds i ≠ none := by
  have hcard : (Finset.univ.filter fun i => (fds i).isSome = true).card = (Finset.univ : Finset (Fin 8)).card ↔
      (Finset.univ.filter fun i => (fds i).isSome = true) = Finset.univ :=
    ⟨fun h => Finset.eq_univ_of_card _ (h.trans (Finset.card_univ)), fun h => by rw [h]⟩
  have height : (Finset.univ : Finset (Fin 8)).card = 8 := rfl
  rw [height] at hcard
  rw [count, hcard, Finset.filter_eq_self]
  simp [Option.isSome_iff_ne_none]

/-! ### The relation -/

structure Shared (s : Wofs) (st : Store (List UInt8)) (hs : List Header) : Prop where
  files : FilesOk s.flash hs st.files
  fds : FdsOk s.flash hs s.fdTable st.fds
  numFd : s.numFd = count st.fds
  returned : s.stuck = false

/-- The file system represents the store. -/
inductive Rel (dev : Device) (s : Wofs) (st : Store (List UInt8)) : Prop
  | idle (hs : List Header) (e : Nat) (hidle : Idle dev s hs e) (hshared : Shared s st hs) (hwriting : st.writing = none)
      (hused : st.used = e)
  | busy (hs : List Header) (e : Nat) (name : FileName) (w : Fin 8) (hbusy : Busy dev s hs e name w)
      (hshared : Shared s st hs) (hwriting : st.writing = some (fold name.bytes))
      (hused : st.used = (s.fdTable w).baseaddr) (hfree : st.files (fold name.bytes) = none)

namespace Rel

theorem shared (h : Rel dev s st) : ∃ hs, Shared s st hs := by
  cases h with
  | idle hs e hidle hshared => exact ⟨hs, hshared⟩
  | busy hs e name w hbusy hshared => exact ⟨hs, hshared⟩

/-- The data of an open descriptor lie in the region. -/
theorem bound (h : Rel dev s st) (hi : st.fds i = some d) :
    (s.fdTable i).baseaddr + (s.fdTable i).size + 4 ≤ dev.maxSize := by
  have hfile : ∀ {hs e}, Laid dev s.flash 0 hs e → Shared s st hs → (s.fdTable i).flags.writes = false →
      (s.fdTable i).baseaddr + (s.fdTable i).size + 4 ≤ dev.maxSize := by
    intro hs e hlaid hshared hreads
    obtain ⟨x, hx, hbase, hsize⟩ := (hshared.fds.opened i d hi).reads hreads
    rw [hbase, hsize]
    exact (hlaid.entry x hx).bound
  cases h with
  | idle hs e hidle hshared => exact hfile hidle.laid hshared (hidle.closed i)
  | busy hs e name w hbusy hshared =>
    by_cases hiw : i = w
    · subst hiw
      exact hbusy.room
    · exact hfile hbusy.laid hshared (hbusy.other hiw)

/-- A descriptor moves. -/
theorem moved (h : Rel dev s st) (hi : st.fds i = some d) {offset : Nat} (hoffset : offset ≤ (s.fdTable i).size) :
    Rel dev (s.moved i offset) (st.install i (some { d with offset := offset })) := by
  have hshared : ∀ {hs}, Shared s st hs → Shared (s.moved i offset) (st.install i (some { d with offset := offset })) hs := by
    intro hs hshared
    have hr := hshared.fds.opened i d hi
    refine ⟨hshared.files, hshared.fds.update i ?_, ?_, hshared.returned⟩
    · exact ⟨hr.flags, rfl, hoffset, hr.content, hr.isOpen, hr.reads⟩
    · exact hshared.numFd.trans (congrArg _ (count_move hi _).symm)
  have hmoves : Moves s (s.moved i offset, [.reply (.value 0)]) := ⟨_, rfl, .inr ⟨i, offset, rfl⟩⟩
  cases h with
  | idle hs e hidle hshared' hwriting hused => exact .idle hs e (hidle.moved hmoves) (hshared hshared') hwriting hused
  | busy hs e name w hbusy hshared' hwriting hused hfree =>
    exact .busy hs e name w (hbusy.moved hmoves) (hshared hshared') hwriting
      (hused.trans (moved_fd s i w offset).1.symm) hfree

/-- What a call for an open descriptor finds. -/
theorem withFd (h : Rel dev s st) {fd : Int} (hvalid : ∃ i, Wofs.slot fd = some i ∧ (s.fdTable i).isOpen = true)
    (call : Fin 8 → Descriptor → Store (List UInt8) × List Reply) :
    ∃ i d hs, Wofs.slot fd = some i ∧ st.fds i = some d ∧ Represents s.flash hs (s.fdTable i) d ∧
      st.withFd fd call = call i d := by
  obtain ⟨i, hslot, hopen⟩ := hvalid
  obtain ⟨hs, hshared⟩ := h.shared
  obtain ⟨d, hd⟩ := (hshared.fds.isOpen_iff i).mp hopen
  refine ⟨i, d, hs, hslot, hd, hshared.fds.opened i d hd, ?_⟩
  rw [Store.withFd, hslot]
  dsimp only
  rw [hd]

end Rel

end EspClock.Romfs
