import EspClock.Romfs.Writing
import Mathlib.Data.List.TakeWhile

/-!
# Up to the end of the region

Whatever the calls, files begin and end before the last four bytes of the region, a write touches nothing but the
file that it is for, and between files the chain leads to an erased byte. No file is opened and the region is not
formatted while a file is being written, and no write is of 2^31 bytes or more.
-/

namespace EspClock.Romfs

open Mem Nor Chain

def Fd.isOpen (fd : Fd) : Bool := fd.flags.read || fd.flags.writes

/-- Some file is open for writing. -/
def Wofs.IsWriting (s : Wofs) : Prop := ∃ i, (s.fdTable i).flags.writes = true

instance (s : Wofs) : Decidable s.IsWriting := inferInstanceAs (Decidable (∃ _, _))

variable (dev : Device)

/-- The complete files: those in front of the file that is being written. -/
def Wofs.files (s : Wofs) : List Header :=
  (s.chain dev).takeWhile fun h => ∀ i, (s.fdTable i).flags.writes = true → h.baseaddr ≠ (s.fdTable i).baseaddr

/-- What holds of the files, the descriptors and the chain between two calls. -/
structure Sound (s : Wofs) : Prop where
  returned : s.stuck = false
  descriptors : ∀ i, (s.fdTable i).isOpen = true →
    (s.fdTable i).baseaddr + 4 ≤ dev.maxSize ∧ (s.fdTable i).baseaddr + (s.fdTable i).size + 4 ≤ dev.maxSize
  files : ∀ h ∈ s.files dev, h.baseaddr + 4 ≤ dev.maxSize ∧ h.baseaddr + h.size + 4 ≤ dev.maxSize
  chain : ¬ s.IsWriting →
    ∃ e, Path (next dev s.flash) 0 (s.files dev) e ∧ s.flash e = 0xFF ∧ e % 4 = 0 ∧ e < dev.maxSize

/-- A write is the deletion of the file that a call replaces. -/
def Replaces (o : Operation) (h : Header) (addr : Nat) (data : List UInt8) : Prop :=
  (∃ name mode stack, o = .open name mode stack ∧ h.name = name.bytes) ∧ h.deleted = false ∧
    addr + 8 = h.baseaddr ∧ data.length = 4

/-- A write stays in front of the last four bytes of the region and away from every complete file but the one
that the call replaces. -/
def Harmless (s : Wofs) (o : Operation) : Action → Prop
  | .wrote addr data =>
    addr + data.length + 4 ≤ dev.maxSize ∧
      ∀ h ∈ s.files dev,
        addr + data.length ≤ h.nameaddr ∨ h.baseaddr + h.size ≤ addr ∨ Replaces o h addr data
  | _ => True

/-- The subtractions of the clamp do not wrap, and it keeps no more than there is. -/
def ClampFits (s : Wofs) : Operation → Prop
  | .write fd data => ∀ i, Wofs.slot fd = some i → (s.fdTable i).flags.writes = true →
      (s.fdTable i).baseaddr + (s.fdTable i).size + 4 ≤ dev.maxSize ∧
        Wofs.clamp dev (s.fdTable i) data.length ≤ data.length
  | _ => True

/-- What a call does to the region. -/
def Keeps (s : Wofs) (o : Operation) : Prop :=
  (∀ a ∈ (wofs dev).actions s o, Harmless dev s o a) ∧ ClampFits dev s o

def Orderly (s : Wofs) : Operation → Prop
  | .open _ _ _ => ¬ s.IsWriting
  | .write _ data => data.length < 2 ^ 31
  | .format => ¬ s.IsWriting
  | _ => True

variable {dev} {s s' : Wofs} {hs : List Header} {e : Nat} {name : FileName} {w : Fin 8}

/-! ### The complete files -/

theorem Idle.not_isWriting (h : Idle dev s hs e) : ¬ s.IsWriting := by
  rintro ⟨i, hi⟩
  exact Bool.false_ne_true ((h.closed i).symm.trans hi)

theorem Laid.visited_eq {f : Flash} (hl : Laid dev f 0 hs e) (he : e < dev.flashSize) :
    visited (next dev f) (fun _ => false) (dev.flashSize + 1) 0 =
      hs ++ visited (next dev f) (fun _ => false) (dev.flashSize - hs.length + 1) e := by
  have hlength := (hl.bounds rfl).1
  rw [show dev.flashSize + 1 = hs.length + (dev.flashSize - hs.length + 1) by omega]
  exact hl.path.visited_eq_of_none (List.find?_eq_none.mpr fun _ _ => Bool.false_ne_true) _

theorem Idle.files (h : Idle dev s hs e) : s.files dev = hs := by
  have hchain : s.chain dev = hs := by
    rw [Wofs.chain, h.laid.visited_eq h.lt_flash, visited_end (next_eq_none h.atEnd), List.append_nil]
  rw [Wofs.files, hchain, List.takeWhile_eq_self_iff]
  intro x _
  rw [decide_eq_true_iff]
  intro i hi
  exact absurd ⟨i, hi⟩ h.not_isWriting

/-- The header of the file that is being written, as a scan finds it. -/
theorem Busy.header_baseaddr (h : Busy dev s hs e name w) :
    (header s.flash e).nameaddr = e ∧ (header s.flash e).name = name.bytes ∧
      (header s.flash e).baseaddr = (s.fdTable w).baseaddr := by
  rw [header_named name.zero_not_mem name.length_le h.named]
  exact ⟨rfl, rfl, h.baseaddr.symm⟩

theorem Busy.chain_eq (h : Busy dev s hs e name w) :
    ∃ rest, s.chain dev = hs ++ header s.flash e :: rest := by
  have hnext : next dev s.flash e = some (header s.flash e, _) :=
    next_eq_some_iff.mpr ⟨⟨h.lt_flash, h.start⟩, rfl, rfl⟩
  rw [Wofs.chain, h.laid.visited_eq h.lt_flash, visited, hnext]
  exact ⟨_, rfl⟩

theorem Busy.files (h : Busy dev s hs e name w) : s.files dev = hs := by
  obtain ⟨rest, hchain⟩ := h.chain_eq
  obtain ⟨hge, -⟩ := h.baseaddr_spec
  rw [Wofs.files, hchain]
  have hfront : ∀ x ∈ hs, decide (∀ i, (s.fdTable i).flags.writes = true → x.baseaddr ≠ (s.fdTable i).baseaddr) = true := by
    intro x hx
    have hstop := ((h.laid.bounds rfl).2.2 x hx).stop
    rw [decide_eq_true_iff]
    intro i hi
    rw [h.only i hi]
    omega
  rw [List.takeWhile_append_of_pos hfront, List.takeWhile_cons_of_neg, List.append_nil]
  rw [decide_eq_true_iff]
  exact fun hall => hall w h.writes h.header_baseaddr.2.2

/-! ### The invariant -/

/-- The region is idle or busy. -/
def Region (dev : Device) (s : Wofs) : Prop := ∃ hs e, Idle dev s hs e ∨ ∃ name w, Busy dev s hs e name w

/-- Open descriptors stay inside of the region. -/
def Bounded (dev : Device) (s : Wofs) : Prop :=
  ∀ i, (s.fdTable i).isOpen = true → (s.fdTable i).baseaddr + (s.fdTable i).size + 4 ≤ dev.maxSize

structure Inv (dev : Device) (s : Wofs) : Prop where
  region : Region dev s
  bounded : Bounded dev s
  returned : s.stuck = false

theorem Inv.sound (h : Inv dev s) : Sound dev s := by
  obtain ⟨hs, e, hstate⟩ := h.region
  have hlaid : Laid dev s.flash 0 hs e ∧ s.files dev = hs := by
    rcases hstate with hidle | ⟨name, w, hbusy⟩
    · exact ⟨hidle.laid, hidle.files⟩
    · exact ⟨hbusy.laid, hbusy.files⟩
  refine ⟨h.returned, fun i hi => ?_, fun x hx => ?_, fun hwriting => ?_⟩
  · have hbound := h.bounded i hi
    exact ⟨by omega, hbound⟩
  · rw [hlaid.2] at hx
    have hbound := (hlaid.1.entry x hx).bound
    exact ⟨by omega, hbound⟩
  · rw [hlaid.2]
    rcases hstate with hidle | ⟨name, w, hbusy⟩
    · have hroom := hidle.room
      exact ⟨e, hidle.laid.path, hidle.atEnd, hidle.mod, by omega⟩
    · exact absurd ⟨w, hbusy.writes⟩ hwriting

theorem Fd.isOpen_of_writes {fd : Fd} (h : fd.flags.writes = true) : fd.isOpen = true := by
  rw [isOpen, h, Bool.or_true]

/-! ### The calls -/

/-- What a call does: it keeps the invariant, and its writes are harmless. -/
structure Step (dev : Device) (s : Wofs) (o : Operation) (r : Wofs × List Action) : Prop where
  region : Region dev r.1
  bounded : Bounded dev s → Bounded dev r.1
  returned : r.1.stuck = s.stuck
  harmless : ∀ a ∈ r.2, Harmless dev s o a

variable {o : Operation}

theorem harmless_reply (r : Reply) : ∀ a ∈ [Action.reply r], Harmless dev s o a :=
  List.forall_mem_singleton.mpr trivial

namespace Region

theorem reply (h : Region dev s) (r : Reply) : Step dev s o (s, [.reply r]) := ⟨h, id, rfl, harmless_reply r⟩

/-- A call that replies and at most moves a descriptor. -/
theorem moved (h : Region dev s) {r : Wofs × List Action} (hr : Moves s r) : Step dev s o r := by
  obtain ⟨reply, hactions, hmoved⟩ := id hr
  refine ⟨?_, fun hbounded => ?_, ?_, hactions ▸ harmless_reply reply⟩
  · obtain ⟨hs, e, hidle | ⟨name, w, hbusy⟩⟩ := h
    · exact ⟨hs, e, .inl (hidle.moved hr)⟩
    · exact ⟨hs, e, .inr ⟨name, w, hbusy.moved hr⟩⟩
  · rcases hmoved with heq | ⟨i, offset, heq⟩
    · exact heq ▸ hbounded
    · intro j
      obtain ⟨hbase, hsize, hflags⟩ := moved_fd s i j offset
      rw [heq, hbase, hsize, Fd.isOpen, hflags]
      exact hbounded j
  · rcases hmoved with heq | ⟨i, offset, heq⟩
    · rw [heq]
    · rw [heq]
      rfl

/-- In a state with a descriptor that writes, the file is that of the busy region. -/
theorem busy (h : Region dev s) {i : Fin 8} (hi : (s.fdTable i).flags.writes = true) :
    ∃ hs e name, Busy dev s hs e name i := by
  obtain ⟨hs, e, hidle | ⟨name, w, hbusy⟩⟩ := h
  · exact absurd ⟨i, hi⟩ hidle.not_isWriting
  · obtain rfl := hbusy.only i hi
    exact ⟨hs, e, name, hbusy⟩

theorem idle (h : Region dev s) (hwriting : ¬ s.IsWriting) : ∃ hs e, Idle dev s hs e := by
  obtain ⟨hs, e, hidle | ⟨name, w, hbusy⟩⟩ := h
  · exact ⟨hs, e, hidle⟩
  · exact absurd ⟨w, hbusy.writes⟩ hwriting

end Region

theorem Bounded.released (h : Bounded dev s) (i : Fin 8) : Bounded dev (s.released i) := by
  intro j
  by_cases hj : j = i
  · subst hj
    rw [s.released_self]
    exact fun hopen => absurd hopen (by decide)
  · rw [s.released_of_ne hj]
    exact h j

/-- A write behind the header of the file that is being written. -/
theorem Busy.harmless (h : Busy dev s hs e name w) {addr : Nat} {data : List UInt8} (haddr : e ≤ addr)
    (hroom : addr + data.length + 4 ≤ dev.maxSize) : Harmless dev s o (.wrote addr data) := by
  refine ⟨hroom, fun x hx => .inr (.inl ?_)⟩
  rw [h.files] at hx
  exact (((h.laid.bounds rfl).2.2 x hx).stop).trans haddr

/-- What the clamp keeps of the data for the file that is being written. -/
theorem Busy.clamp_eq (h : Busy dev s hs e name w) {len : Nat} (hlen : len < 2 ^ 31) :
    Wofs.clamp dev (s.fdTable w) len = min len (dev.maxSize - 4 - ((s.fdTable w).baseaddr + (s.fdTable w).size)) := by
  have hroom := h.room
  have hle := dev.maxSize_le
  have hflash := dev.flashSize_le
  exact Romfs.clamp_eq hroom (.inl (by omega))

namespace Region

theorem close (h : Region dev s) (fd : Int) : Step dev s (.close fd) (s.romfsClose dev fd) := by
  cases hslot : Wofs.slot fd with
  | none =>
    rw [Wofs.romfsClose, hslot]
    exact h.reply _
  | some i =>
    cases hflags : (s.fdTable i).flags.writes with
    | false =>
      rw [romfsClose_reads hslot hflags]
      refine ⟨?_, fun hbounded => hbounded.released i, rfl, harmless_reply _⟩
      obtain ⟨hs, e, hidle | ⟨name, w, hbusy⟩⟩ := h
      · exact ⟨hs, e, .inl (hidle.released i)⟩
      · refine ⟨hs, e, .inr ⟨name, w, hbusy.released ?_⟩⟩
        rintro rfl
        exact Bool.false_ne_true (hflags.symm.trans hbusy.writes)
    | true =>
      obtain ⟨hs, e, name, hbusy⟩ := h.busy hflags
      obtain ⟨hge, -⟩ := hbusy.baseaddr_spec
      have hroom := hbusy.room
      have hle := dev.maxSize_le
      rw [romfsClose_writes hslot hflags (by omega)]
      refine ⟨⟨_, _, .inl hbusy.finished⟩, fun hbounded => hbounded.released i, rfl, ?_⟩
      refine List.forall_mem_cons.mpr ⟨hbusy.harmless (by omega) ?_, harmless_reply _⟩
      rw [length_wordBytes]
      omega

theorem write (h : Region dev s) (fd : Int) {data : List UInt8} (hdata : data.length < 2 ^ 31) :
    Step dev s (.write fd data) (s.romfsWrite dev fd data) := by
  rcases @romfsWrite_cases dev s fd data with ⟨reply, heq⟩ | ⟨i, ⟨-, hwrites⟩, heq⟩
  · rw [heq]
    exact h.reply reply
  · obtain ⟨hs, e, name, hbusy⟩ := h.busy hwrites
    obtain ⟨hge, -⟩ := hbusy.baseaddr_spec
    have hroom := hbusy.room
    have hclamp := hbusy.clamp_eq hdata
    have hle := dev.maxSize_le
    have hkept : Wofs.clamp dev (s.fdTable i) data.length ≤ data.length := hclamp ▸ Nat.min_le_left _ _
    have hlength : (data.take (Wofs.clamp dev (s.fdTable i) data.length)).length =
        Wofs.clamp dev (s.fdTable i) data.length := List.length_take_of_le hkept
    rw [heq (by omega) hkept]
    have hfits : (s.fdTable i).baseaddr + (s.fdTable i).size +
        (data.take (Wofs.clamp dev (s.fdTable i) data.length)).length + 4 ≤ dev.maxSize := by omega
    have hextended := hbusy.extended hfits
    refine ⟨⟨hs, e, .inr ⟨name, i, hextended⟩⟩, fun hbounded j => ?_, rfl, ?_⟩
    · by_cases hj : j = i
      · subst hj
        exact fun _ => hextended.room
      · rw [s.extended_of_ne hj]
        exact hbounded j
    · exact List.forall_mem_cons.mpr ⟨hbusy.harmless (by omega) hfits, harmless_reply _⟩

end Region

/-- Deleting the file that a call replaces. -/
theorem Idle.harmless_invalidate (h : Idle dev s hs e) {mode : String} {stack : UInt8} :
    ∀ a ∈ (s.invalidate dev (hs.find? (isFile name.bytes stack))).2, Harmless dev s (.open name mode stack) a := by
  cases hfound : hs.find? (isFile name.bytes stack) with
  | none => exact List.forall_mem_nil _
  | some x =>
    obtain ⟨hmem, hlive, hname⟩ := isFile_find? hfound
    have hwithin := (h.laid.bounds rfl).2.2
    have hfields := (hwithin x hmem).fields
    have hstop := (hwithin x hmem).stop
    have hroom := h.room
    rw [h.invalidate_eq hmem]
    refine List.forall_mem_singleton.mpr ⟨?_, fun y hy => ?_⟩
    · show x.baseaddr - 8 + 4 + 4 ≤ dev.maxSize
      omega
    · rw [h.files] at hy
      by_cases hyx : y = x
      · subst hyx
        exact .inr (.inr ⟨⟨name, mode, stack, rfl, hname⟩, hlive, by omega, rfl⟩)
      · have hy' := (hwithin y hy).fields
        rcases h.laid.apart rfl hy hmem hyx with hbefore | hbehind
        · exact .inr (.inl (by omega))
        · refine .inl ?_
          show x.baseaddr - 8 + 4 ≤ y.nameaddr
          omega

theorem Idle.openExisting (h : Idle dev s hs e) {flags : FileFlags} (hflags : flags.writes = false)
    {found : Option Header} (hfound : ∀ x ∈ found, x ∈ hs) : Step dev s o (s.openExisting flags found) := by
  have hregion : Region dev s := ⟨hs, e, .inl h⟩
  cases found with
  | none => exact hregion.reply _
  | some x =>
    unfold Wofs.openExisting
    cases s.findEmptyFd with
    | none => exact hregion.reply _
    | some i =>
      have hbound := (h.laid.entry x (hfound x rfl)).bound
      refine ⟨⟨hs, e, .inl (h.install i hflags)⟩, fun hbounded j => ?_, rfl, harmless_reply _⟩
      · by_cases hj : j = i
        · subst hj
          rw [s.install_self]
          exact fun _ => hbound
        · rw [s.install_of_ne hj]
          exact hbounded j

theorem Idle.open (h : Idle dev s hs e) (name : FileName) (mode : String) (stack : UInt8) :
    Step dev s (.open name mode stack) (s.romfsOpen dev name.bytes (fsMode2flag mode) stack) := by
  have hregion : Region dev s := ⟨hs, e, .inl h⟩
  have hle := dev.maxSize_le
  have hharmless := @Idle.harmless_invalidate dev s hs e name h mode stack
  have hinvalid := @Idle.invalidate dev s hs e h (hs.find? (isFile name.bytes stack)) fun x hx =>
    ⟨(isFile_find? hx).1, (isFile_find? hx).2.1⟩
  rw [h.open_eq]
  split_ifs with hfull hwrites hcreates
  · exact hregion.reply _
  · generalize hs.find? (isFile name.bytes stack) = found at hharmless hinvalid
    have hsame := @invalidate_flash dev s found
    have hfds : (s.invalidate dev found).1.fdTable = s.fdTable := by rw [hsame]
    have hstuck : (s.invalidate dev found).1.stuck = s.stuck := by rw [hsame]
    have hbounded : Bounded dev s → Bounded dev (s.invalidate dev found).1 := by
      unfold Bounded
      rw [hfds]
      exact id
    dsimp only
    rcases createAt_cases hinvalid.room name.bytes (FileFlags.decode (fsMode2flag mode)) with
      ⟨heq, -⟩ | ⟨w, ⟨hspace, -⟩, heq⟩
    · rw [heq]
      exact ⟨⟨_, e, .inl hinvalid⟩, hbounded, hstuck, List.forall_mem_append.mpr ⟨hharmless, harmless_reply _⟩⟩
    · have hcreated := hinvalid.created hspace hwrites w
      rw [heq]
      refine ⟨⟨_, e, .inr ⟨name, w, hcreated⟩⟩, fun hb j => ?_, hstuck,
        List.forall_mem_append.mpr ⟨hharmless, List.forall_mem_cons.mpr ⟨⟨?_, fun x hx => ?_⟩, harmless_reply _⟩⟩⟩
      · by_cases hj : j = w
        · subst hj
          exact fun _ => hcreated.room
        · rw [Wofs.created_of_ne _ _ _ _ hj]
          exact hbounded hb j
      · rw [List.length_append, List.length_singleton]
        omega
      · rw [h.files] at hx
        exact .inr (.inl ((h.laid.bounds rfl).2.2 x hx).stop)
  · exact hregion.reply _
  · exact h.openExisting (Bool.not_eq_true _ ▸ hwrites) fun x hx => (isFile_find? hx).1

/-- Formatting an idle region erases all of it. -/
theorem Idle.format (h : Idle dev s hs e) : Step dev s .format (s.wofsFormat dev) := by
  have hroom := h.room
  have hscan := h.laid.openFile_one h.lt_flash h.atEnd 0
  have herased : Erased (erase s.flash 0 (Wofs.sectors e)) 0 dev.maxSize := by
    intro a _ ha
    by_cases hsector : a < Wofs.sectors e
    · exact if_pos ⟨Nat.zero_le a, hsector⟩
    · have hbehind : e ≤ a := by
        have hle : e ≤ Wofs.sectors e := by
          unfold Wofs.sectors
          omega
        omega
      rw [erase, if_neg (by omega)]
      exact h.tail a hbehind ha
  unfold Wofs.wofsFormat
  rw [hscan]
  dsimp only
  rw [last_of_lt h.lt_flash]
  refine ⟨⟨[], 0, .inl ⟨Laid.nil 0, by omega, herased, h.closed, h.writing⟩⟩, id, rfl, ?_⟩
  exact List.forall_mem_cons.mpr ⟨trivial, harmless_reply _⟩

theorem operate_step (h : Region dev s) (hok : Orderly s o) : Step dev s o (s.operate dev o) := by
  cases o with
  | «open» name mode stack =>
    obtain ⟨hs, e, hidle⟩ := h.idle hok
    exact hidle.open name mode stack
  | write fd data => exact h.write fd hok
  | read fd len => exact h.moved (romfsRead_moves s fd len)
  | lseek fd off whence => exact h.moved (romfsLseek_moves s fd off whence)
  | close fd => exact h.close fd
  | format =>
    obtain ⟨hs, e, hidle⟩ := h.idle hok
    exact hidle.format

/-! ### Runs -/

theorem step_eq (h : s.stuck = false) : (wofs dev).step s o = s.operate dev o := by
  refine if_neg ?_
  rw [h]
  exact Bool.false_ne_true

theorem Inv.step (h : Inv dev s) (hok : Orderly s o) : Inv dev ((wofs dev).next s o) := by
  have hstep := operate_step h.region hok
  rw [Machine.next, step_eq h.returned]
  exact ⟨hstep.region, hstep.bounded h.bounded, hstep.returned.trans h.returned⟩

theorem Inv.keeps (h : Inv dev s) (hok : Orderly s o) : Keeps dev s o := by
  refine ⟨?_, ?_⟩
  · rw [Machine.actions, step_eq h.returned]
    exact (operate_step h.region hok).harmless
  · cases o with
    | write fd data =>
      intro i _ hwrites
      obtain ⟨hs, e, name, hbusy⟩ := h.region.busy hwrites
      exact ⟨hbusy.room, hbusy.clamp_eq hok ▸ Nat.min_le_left _ _⟩
    | _ => trivial

theorem Inv.init {flash : Flash} (herased : Erased flash 0 dev.maxSize) : Inv dev (.init flash) := by
  have hpos := dev.maxSize_pos
  have hmod := dev.maxSize_mod
  exact ⟨⟨[], 0, .inl ⟨Laid.nil 0, by omega, herased, fun _ => rfl, rfl⟩⟩, fun _ hi => absurd hi Bool.false_ne_true, rfl⟩

/-- A region of 32 bytes. -/
def tiny : Device := ⟨32, 32, by decide, by decide, by decide, by decide⟩

def blank : Flash := fun _ => 0xFF

/-- The name `a`. -/
def nameA : FileName := ⟨[97], by decide, by decide, by decide, by decide, by decide⟩

/-- A file that fills the region, and attempts to replace it and to read it. -/
def filling : List Operation :=
  [.open nameA "w" 0, .write 0 (List.replicate 20 7), .close 0, .open nameA "w+" 0, .open nameA "r" 0]

end EspClock.Romfs
