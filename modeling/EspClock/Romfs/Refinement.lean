import EspClock.Romfs.Represents

/-!
# The file system and the store of files

A call replies what the store replies, as long as the scan finds the files that a comparison without regard to case
would find: `c_strncasecmp` is `strcmp`, and behind a name of 30 bytes it compares a byte that nobody has written.
-/

namespace EspClock.Romfs

open Mem Nor Chain

def Action.reply? : Action → Option Reply
  | reply r => some r
  | _ => none

/-- The calls in question: no file is opened while one is being written, and the others are for open
descriptors. -/
def Valid (s : Wofs) : Operation → Prop
  | .open _ _ _ => ¬ s.IsWriting
  | .write fd _ | .read fd _ | .close fd => ∃ i, Wofs.slot fd = some i ∧ (s.fdTable i).isOpen = true
  | .lseek fd off _ =>
    (∃ i, Wofs.slot fd = some i ∧ (s.fdTable i).isOpen = true) ∧ -2 ^ 31 ≤ off ∧ off < 2 ^ 31
  | .format => False

/-- What the results depend on. A scan finds what a comparison without regard to case would find: no file has the
name with other letters only, and behind a name of 30 bytes that a file has the stack has a 0. The end of a write
does not wrap into the region. -/
def Told (dev : Device) (s : Wofs) : Operation → Prop
  | .open name _ stack => s.numFd ≠ 8 →
    ∀ h ∈ s.files dev, h.deleted = false → fold h.name = fold name.bytes →
      h.name = name.bytes ∧ (30 ≤ name.bytes.length → stack = 0)
  | .write fd data => ∀ i, Wofs.slot fd = some i → (s.fdTable i).flags.writes = true →
      ((s.fdTable i).flags.append = true ∨ (s.fdTable i).offset = (s.fdTable i).size) →
        (s.fdTable i).baseaddr + (s.fdTable i).size + data.length < 2 ^ 32 ∨
          sub32 dev.maxSize 4 < wrap32 ((s.fdTable i).baseaddr + (s.fdTable i).size + data.length)
  | _ => True

variable {dev : Device} {hs : List Header} {s : Wofs} {st : Store (List UInt8)} {e : Nat} {name : FileName}
  {i : Fin 8} {d : Descriptor} {x : Header}

/-- A call and a call of the store lead to related states and reply the same. -/
structure Agrees (dev : Device) (r : Wofs × List Action) (t : Store (List UInt8) × List Reply) : Prop where
  rel : Rel dev r.1 t.1
  replies : r.2.filterMap Action.reply? = t.2

namespace Rel

theorem respond (h : Rel dev s st) (r : Reply) : Agrees dev (s, [.reply r]) (st, [r]) := ⟨h, rfl⟩

/-! ### Reading and seeking -/

theorem read (h : Rel dev s st) {fd : Int} {len : Nat} (hvalid : Valid s (.read fd len)) :
    Agrees dev (s.romfsRead dev fd len) (st.operate dev.maxSize (.read fd len)) := by
  obtain ⟨i, d, hs, hslot, hd, hr, hcall⟩ := h.withFd hvalid fun i d => st.read i d len
  have hbound := h.bound hd
  have hoffset := hr.offset_le
  have hlength := hr.length
  have hle := dev.maxSize_le
  have hflash := dev.flashSize_le
  have hagrees : Agrees dev (s.romfsRead dev fd len) (st.read i d len) := by
    unfold Wofs.romfsRead Store.read
    rw [hslot]
    dsimp only
    rw [congrArg FileFlags.read hr.flags]
    split_ifs with hlen hread hfar
    · exact h.respond _
    · exact h.respond _
    · omega
    · have hbytes : slice s.flash ((s.fdTable i).offset + (s.fdTable i).baseaddr)
          (min len (sub32 (s.fdTable i).size (s.fdTable i).offset)) = (d.content.drop d.offset).take len := by
        rw [sub32_of_le hoffset (by omega), ← hr.content, ← hr.offset, Nat.add_comm (s.fdTable i).offset,
          ← take_drop_slice s.flash (s.fdTable i).baseaddr (n := (s.fdTable i).size) (by omega)]
        rw [← List.take_take, List.take_of_length_le (l := List.drop _ _)]
        rw [List.length_drop, length_slice]
      have hcount : ((d.content.drop d.offset).take len).length ≤ (s.fdTable i).size - (s.fdTable i).offset := by
        rw [List.length_take, List.length_drop, hlength, hr.offset]
        exact Nat.min_le_right _ _
      rw [hbytes]
      have hinside : (s.fdTable i).offset + ((d.content.drop d.offset).take len).length ≤ (s.fdTable i).size := by omega
      have hmoved := h.moved hd hinside
      rw [hr.offset] at hmoved
      rw [hr.offset]
      exact ⟨hmoved, rfl⟩
  show Agrees dev _ (st.withFd fd fun i d => st.read i d len)
  rw [hcall]
  exact hagrees

theorem lseek (h : Rel dev s st) {fd off : Int} {whence : Whence} (hvalid : Valid s (.lseek fd off whence)) :
    Agrees dev (s.romfsLseek fd off whence) (st.operate dev.maxSize (.lseek fd off whence)) := by
  obtain ⟨hopen, hmin, hmax⟩ := hvalid
  obtain ⟨i, d, hs, hslot, hd, hr, hcall⟩ := h.withFd hopen fun i d => st.lseek i d off whence
  have hbound := h.bound hd
  have hoffset := hr.offset_le
  have hlength := hr.length
  have hle := dev.maxSize_le
  have hflash := dev.flashSize_le
  have hseek : ∀ position : Int, -2 ^ 31 ≤ position → position < 2 ^ 32 →
      Agrees dev
        (if (s.fdTable i).size < word32 position then s.respond (-1)
          else (s.moved i (word32 position), [.reply (.value (word32 position))]))
        (if 0 ≤ position ∧ position ≤ d.content.length then
          (st.install i (some { d with offset := position.toNat }), [.value position])
        else (st, [.value (-1)])) := by
    intro position hlow hhigh
    by_cases hinside : 0 ≤ position ∧ position ≤ d.content.length
    · have hword : word32 position = position.toNat := by
        unfold word32
        omega
      rw [if_neg (by omega), if_pos hinside, hword]
      refine ⟨h.moved hd (by omega), ?_⟩
      show [Reply.value ((position.toNat : Nat) : Int)] = [.value position]
      rw [Int.toNat_of_nonneg hinside.1]
    · have hword : (s.fdTable i).size < word32 position := by
        unfold word32
        omega
      rw [if_pos hword, if_neg hinside]
      exact h.respond _
  have hagrees : Agrees dev (s.romfsLseek fd off whence) (st.lseek i d off whence) := by
    unfold Wofs.romfsLseek Store.lseek
    rw [hslot]
    cases whence with
    | set => exact hseek off hmin (by omega)
    | cur =>
      have hcur := hseek (d.offset + off) (by omega) (by rw [← hr.offset]; omega)
      rw [← hr.offset] at hcur
      rw [Store.position, ← hr.offset]
      exact hcur
    | «end» =>
      have hend := hseek (d.content.length + off) (by omega) (by omega)
      rw [hlength] at hend
      rw [Store.position, hlength]
      exact hend
    | other => exact h.respond _
  show Agrees dev _ (st.withFd fd fun i d => st.lseek i d off whence)
  rw [hcall]
  exact hagrees

/-! ### Writing -/

theorem take_clamp (data : List UInt8) (room : Nat) : data.take (min data.length room) = data.take room := by
  rw [← List.take_take, List.take_of_length_le]
  exact List.length_take_le' room data

/-- The files while data are written behind them. -/
theorem content_extended {w : Fin 8} (h : Busy dev s hs e name w) (data : List UInt8) :
    ∀ x ∈ hs, x.content (s.extended w data).flash = x.content s.flash := by
  intro x hx
  obtain ⟨hge, -⟩ := h.baseaddr_spec
  have hwithin := ((h.laid.bounds rfl).2.2 x hx).mono le_rfl (show e ≤ (s.fdTable w).baseaddr + (s.fdTable w).size by omega)
  exact Header.content_congr hwithin (agreeOn_write s.flash data (.inl le_rfl))

theorem extended {w : Fin 8} (h : Busy dev s hs e name w) (hshared : Shared s st hs) (hd : st.fds w = some d)
    (hwriting : st.writing = some (fold name.bytes)) (hused : st.used = (s.fdTable w).baseaddr)
    (hfree : st.files (fold name.bytes) = none) {data : List UInt8}
    (hroom : (s.fdTable w).baseaddr + (s.fdTable w).size + data.length + 4 ≤ dev.maxSize) :
    Rel dev (s.extended w data)
      (st.install w (some { d with content := d.content ++ data, offset := (d.content ++ data).length })) := by
  have hr := hshared.fds.opened w d hd
  have hcontent := content_extended h data
  have hlength : (d.content ++ data).length = (s.fdTable w).size + data.length := by
    rw [List.length_append, hr.length]
  refine .busy hs e name w (h.extended hroom) ⟨hshared.files.reflash hcontent, ?_, ?_, hshared.returned⟩ hwriting ?_ hfree
  · refine hshared.fds.rewrite (fun i hi => h.other hi) (fun x hx => ⟨hcontent x hx, x, hx, rfl, rfl⟩) ?_
    refine ⟨hr.flags, hlength.symm, le_rfl, ?_, hr.isOpen, fun hreads => ?_⟩
    · have hfront : slice (s.extended w data).flash (s.fdTable w).baseaddr (s.fdTable w).size = d.content := by
        rw [← hr.content]
        exact (slice_congr (agreeOn_write s.flash data (.inl le_rfl))).symm
      have hback : slice (s.extended w data).flash ((s.fdTable w).baseaddr + (s.fdTable w).size) data.length = data :=
        slice_write (h.tail.mono le_rfl (by omega))
      show slice (s.extended w data).flash (s.fdTable w).baseaddr ((s.fdTable w).size + data.length) = _
      rw [slice_add, hfront, hback]
    · exact absurd hreads (by rw [h.writes]; exact Bool.noConfusion)
  · exact hshared.numFd.trans (congrArg _ (count_move hd _).symm)
  · rw [s.extended_self]
    exact hused

theorem write (h : Rel dev s st) {fd : Int} {data : List UInt8} (hvalid : Valid s (.write fd data))
    (htold : Told dev s (.write fd data)) :
    Agrees dev (s.romfsWrite dev fd data) (st.operate dev.maxSize (.write fd data)) := by
  obtain ⟨i, d, hs, hslot, hd, hr, hcall⟩ := h.withFd hvalid fun i d => st.write dev.maxSize i d data
  have hlength := hr.length
  have hagrees : Agrees dev (s.romfsWrite dev fd data) (st.write dev.maxSize i d data) := by
    unfold Store.write
    by_cases hempty : data = []
    · rw [if_pos hempty, Wofs.romfsWrite, hslot]
      dsimp only
      rw [if_pos (List.length_eq_zero_iff.mpr hempty)]
      exact h.respond _
    rw [if_neg hempty]
    cases hwrites : d.flags.writes with
    | false =>
      rw [if_pos (by decide), Wofs.romfsWrite, hslot]
      dsimp only
      rw [if_neg (List.length_eq_zero_iff.not.mpr hempty), hr.flags, hwrites, if_pos (by decide)]
      exact h.respond _
    | true =>
      rw [if_neg (by decide)]
      have hwrites' : (s.fdTable i).flags.writes = true := by rw [hr.flags, hwrites]
      have hend : (if (s.fdTable i).flags.append = true then (s.fdTable i).size else (s.fdTable i).offset) ≠
          (s.fdTable i).size ↔ (!d.flags.append) = true ∧ d.offset ≠ d.content.length := by
        rw [hr.flags, hr.offset, hlength]
        cases d.flags.append <;> simp
      by_cases hbehind : (!d.flags.append) = true ∧ d.offset ≠ d.content.length
      · rw [if_pos hbehind, Wofs.romfsWrite, hslot]
        dsimp only
        rw [if_neg (List.length_eq_zero_iff.not.mpr hempty), hwrites', if_neg (by decide), if_pos (hend.mpr hbehind)]
        exact h.respond _
      · have hatend : (s.fdTable i).flags.append = true ∨ (s.fdTable i).offset = (s.fdTable i).size := by
          rw [hr.flags, hr.offset, ← hlength]
          by_contra hneither
          obtain ⟨hplain, hoffset⟩ := not_or.mp hneither
          exact hbehind ⟨(Bool.not_eq_true' _).mpr (Bool.eq_false_iff.mpr hplain), hoffset⟩
        rw [if_neg hbehind]
        cases h with
        | idle hs e hidle hshared => exact absurd ⟨i, hwrites'⟩ hidle.not_isWriting
        | busy hs e name w hbusy hshared hwriting hused hfree =>
          obtain rfl := hbusy.only i hwrites'
          have hroom := hbusy.room
          have hle := dev.maxSize_le
          have hclamp := clamp_eq hroom (htold i hslot hwrites' hatend)
          have hstored : data.take (Wofs.clamp dev (s.fdTable i) data.length) =
              data.take (dev.maxSize - 4 - (st.used + d.content.length)) := by
            rw [hclamp, take_clamp, hused, hlength]
          have hcount : Wofs.clamp dev (s.fdTable i) data.length =
              (data.take (dev.maxSize - 4 - (st.used + d.content.length))).length := by
            rw [hclamp, List.length_take, hused, hlength, Nat.min_comm]
          rw [romfsWrite_eq hslot (List.length_eq_zero_iff.not.mpr hempty) hwrites' (not_not.mp (hend.not.mpr hbehind))
            (by omega) (by omega), hstored, hcount]
          refine ⟨extended hbusy hshared hd hwriting hused hfree ?_, rfl⟩
          rw [← hcount]
          omega
  show Agrees dev _ (st.withFd fd fun i d => st.write dev.maxSize i d data)
  rw [hcall]
  exact hagrees

/-! ### Closing -/

theorem released (h : Rel dev s st) (hd : st.fds i = some d) (hreads : d.flags.writes = false) :
    Rel dev (s.released i) (st.install i none) := by
  have hshared : ∀ {hs}, Shared s st hs → Shared (s.released i) (st.install i none) hs := by
    intro hs hshared
    refine ⟨hshared.files, hshared.fds.release i, ?_, hshared.returned⟩
    have hnum := hshared.numFd
    rw [count_release hd] at hnum
    show s.numFd - 1 = (count (Function.update st.fds i none) : Int)
    omega
  cases h with
  | idle hs e hidle hshared' hwriting hused => exact .idle hs e (hidle.released i) (hshared hshared') hwriting hused
  | busy hs e name w hbusy hshared' hwriting hused hfree =>
    have hiw : i ≠ w := by
      rintro rfl
      have hwrites := hbusy.writes
      rw [(hshared'.fds.opened i d hd).flags, hreads] at hwrites
      exact Bool.false_ne_true hwrites
    refine .busy hs e name w (hbusy.released hiw) (hshared hshared') hwriting ?_ hfree
    rw [s.released_of_ne hiw.symm]
    exact hused

theorem finished {w : Fin 8} (h : Busy dev s hs e name w) (hshared : Shared s st hs) (hd : st.fds w = some d)
    (hwriting : st.writing = some (fold name.bytes)) (hused : st.used = (s.fdTable w).baseaddr)
    (hfree : st.files (fold name.bytes) = none) :
    Rel dev (s.finished w) ((st.finish d.content).install w none) := by
  obtain ⟨hge, -⟩ := h.baseaddr_spec
  have hroom := h.room
  have hle := dev.maxSize_le
  have hflash := dev.flashSize_le
  have hr := hshared.fds.opened w d hd
  have hcontent : ∀ x ∈ hs, x.content (s.finished w).flash = x.content s.flash := by
    intro x hx
    have hwithin := ((h.laid.bounds rfl).2.2 x hx).mono le_rfl (show e ≤ (s.fdTable w).baseaddr - 4 by omega)
    exact Header.content_congr hwithin (agreeOn_write s.flash _ (.inl le_rfl))
  have hdata : (s.completed e name w).content (s.finished w).flash = d.content := by
    rw [← hr.content]
    refine (slice_congr (agreeOn_write s.flash _ (.inr ?_))).symm
    show (s.fdTable w).baseaddr - 4 + 4 ≤ (s.fdTable w).baseaddr
    omega
  have hround : st.used + d.content.length = (s.fdTable w).baseaddr + (s.fdTable w).size := by
    rw [hused, hr.length]
  rw [Store.finish, hwriting]
  refine .idle _ _ h.finished ⟨?_, ?_, ?_, hshared.returned⟩ rfl ?_
  · have happend := (hshared.files.reflash hcontent).append (x := s.completed e name w) rfl hfree
    rw [hdata] at happend
    exact happend
  · refine hshared.fds.finish (fun i hi => h.other hi) fun x hx => ⟨hcontent x hx, x, ?_, rfl, rfl⟩
    exact List.mem_append_left _ hx
  · have hnum := hshared.numFd
    rw [count_release hd] at hnum
    show s.numFd - 1 = (count (Function.update st.fds w none) : Int)
    omega
  · show Store.roundUp (st.used + d.content.length) = _
    rw [hround, align, wrap32_of_lt (by omega)]
    rfl

theorem close (h : Rel dev s st) {fd : Int} (hvalid : Valid s (.close fd)) :
    Agrees dev (s.romfsClose dev fd) (st.operate dev.maxSize (.close fd)) := by
  obtain ⟨i, d, hs, hslot, hd, hr, hcall⟩ := h.withFd hvalid fun i d => st.close i d
  have hagrees : Agrees dev (s.romfsClose dev fd) (st.close i d) := by
    unfold Store.close
    cases hwrites : d.flags.writes with
    | false =>
      rw [romfsClose_reads hslot (by rw [hr.flags, hwrites])]
      exact ⟨h.released hd hwrites, rfl⟩
    | true =>
      have hwrites' : (s.fdTable i).flags.writes = true := by rw [hr.flags, hwrites]
      cases h with
      | idle hs e hidle hshared => exact absurd ⟨i, hwrites'⟩ hidle.not_isWriting
      | busy hs e name w hbusy hshared hwriting hused hfree =>
        obtain rfl := hbusy.only i hwrites'
        have hroom := hbusy.room
        have hle := dev.maxSize_le
        rw [romfsClose_writes hslot hwrites' (by omega)]
        exact ⟨finished hbusy hshared hd hwriting hused hfree, rfl⟩
  show Agrees dev _ (st.withFd fd fun i d => st.close i d)
  rw [hcall]
  exact hagrees

/-! ### Opening -/

/-- A scan finds the file of the store. -/
theorem find?_isFile {stack : UInt8}
    (htold : ∀ h ∈ hs, h.deleted = false → fold h.name = fold name.bytes →
      h.name = name.bytes ∧ (30 ≤ name.bytes.length → stack = 0)) :
    hs.find? (isFile name.bytes stack) = hs.find? (isKept (fold name.bytes)) := by
  refine List.find?_congr fun x hx => Bool.eq_iff_iff.mpr ?_
  rw [isKept_iff, isFile, Bool.and_eq_true, Bool.not_eq_true', sameName_iff]
  constructor
  · rintro ⟨⟨hname, -⟩, hlive⟩
    exact ⟨hlive, congrArg fold hname⟩
  · rintro ⟨hlive, hfold⟩
    obtain ⟨hname, hstack⟩ := htold x hx hlive hfold
    exact ⟨⟨hname, hname ▸ hstack⟩, hlive⟩

theorem findEmptyFd (h : Rel dev s st) : s.findEmptyFd = st.free := by
  obtain ⟨hs, hshared⟩ := h.shared
  have hle := dev.maxSize_le
  have hflash := dev.flashSize_le
  refine List.find?_congr fun i _ => ?_
  cases hi : st.fds i with
  | none =>
    rw [hshared.fds.closed i hi]
    rfl
  | some d =>
    have hbound := h.bound hi
    refine decide_eq_false fun hunused => ?_
    have hbase := hunused.1
    omega

/-- The table is full when the store has no free descriptor. -/
theorem full_iff (h : Rel dev s st) : s.numFd = 8 ↔ st.free = none := by
  obtain ⟨hs, hshared⟩ := h.shared
  have hcount : s.numFd = 8 ↔ count st.fds = 8 := by
    rw [hshared.numFd]
    omega
  rw [hcount, count_eq_iff, Store.free, List.find?_eq_none]
  simp [Option.isNone_iff_eq_none]

theorem free_spec (h : st.free = some i) : st.fds i = none := by
  rw [Store.free] at h
  have hnone := List.find?_some h
  exact Option.isNone_iff_eq_none.mp hnone

/-- A file that is there is opened for reading. -/
theorem installed (hidle : Idle dev s hs e) (hshared : Shared s st hs) (hwriting : st.writing = none) (hused : st.used = e)
    (hi : st.fds i = none) (hx : x ∈ hs) {flags : FileFlags} (hflags : flags.writes = false) (hread : flags.read = true) :
    Rel dev (s.install i ⟨x.baseaddr, 0, x.size, flags⟩).1
      (st.install i (some ⟨x.content s.flash, 0, flags⟩)) := by
  refine .idle hs e (hidle.install i hflags) ⟨hshared.files, ?_, ?_, hshared.returned⟩ hwriting hused
  · refine hshared.fds.update i ⟨rfl, rfl, Nat.zero_le _, rfl, ?_, fun _ => ⟨x, hx, rfl, rfl⟩⟩
    rw [Fd.isOpen, hread, Bool.true_or]
  · have hnum := hshared.numFd
    have hcount := count_install hi ⟨x.content s.flash, 0, flags⟩
    show s.numFd + 1 = (count (Function.update st.fds i _) : Int)
    rw [hcount]
    omega

/-- Deleting a file leaves all contents. -/
theorem content_deletion (hidle : Idle dev s hs e) (hx : x ∈ hs) :
    ∀ y ∈ hs, y.content (Nor.write s.flash (x.baseaddr - 8) deletion) = y.content s.flash := by
  intro y hy
  have hwithin := (hidle.laid.bounds rfl).2.2
  have hxfields := (hwithin x hx).fields
  have hyfields := (hwithin y hy).fields
  have hlength : deletion.length = 4 := rfl
  refine (slice_congr (agreeOn_write s.flash deletion ?_)).symm
  by_cases hyx : y = x
  · subst hyx
    exact .inr (by omega)
  · rcases hidle.laid.apart rfl hy hx hyx with hbefore | hbehind
    · exact .inl (by omega)
    · exact .inr (by omega)

/-- The file that is replaced is removed. -/
theorem removed (hidle : Idle dev s hs e) (hshared : Shared s st hs) (key : List UInt8) :
    Shared (s.invalidate dev (hs.find? (isKept key))).1 (st.remove key) (replaced (hs.find? (isKept key)) hs) := by
  have hkey := hshared.files.content key
  cases hfound : hs.find? (isKept key) with
  | none =>
    rw [hfound] at hkey
    have hnone : st.files key = none := hkey
    have hsame : st.remove key = st := by
      rw [Store.remove, ← hnone, Function.update_eq_self]
    rw [hsame]
    exact hshared
  | some x =>
    have hx := List.mem_of_find?_eq_some hfound
    obtain ⟨hlive, rfl⟩ := isKept_iff.mp (List.find?_some hfound)
    have hwithin := (hidle.laid.bounds rfl).2.2
    have hcontent := content_deletion hidle hx
    have haddr : ∀ y ∈ hs, y.nameaddr = x.nameaddr → y = x := by
      intro y hy hname
      by_contra hyx
      have hxfields := (hwithin x hx).fields
      have hyfields := (hwithin y hy).fields
      rcases hidle.laid.apart rfl hy hx hyx with hbefore | hbehind
      · omega
      · omega
    rw [hidle.invalidate_eq hx]
    refine ⟨hshared.files.mark hx hlive haddr hcontent, ?_, hshared.numFd, hshared.returned⟩
    refine hshared.fds.reflash hidle.closed fun y hy => ⟨hcontent y hy, x.mark y, List.mem_map_of_mem hy, ?_⟩
    unfold Header.mark
    split_ifs
    · exact ⟨rfl, rfl⟩
    · exact ⟨rfl, rfl⟩

/-- A file is created. -/
theorem created (hidle : Idle dev s hs e) (hshared : Shared s st hs) (hused : st.used = e)
    (hfree : st.files (fold name.bytes) = none) (hi : st.fds i = none)
    (hspace : e + name.bytes.length + 15 ≤ dev.maxSize) {flags : FileFlags} (hwrites : flags.writes = true) :
    Rel dev (s.created name.bytes flags e i)
      { st.install i (some ⟨[], 0, flags⟩) with
        writing := some (fold name.bytes), used := st.dataStart name.bytes.length } := by
  have hle := dev.maxSize_le
  have hflash := dev.flashSize_le
  have hcontent : ∀ x ∈ hs, x.content (s.created name.bytes flags e i).flash = x.content s.flash := by
    intro x hx
    exact Header.content_congr ((hidle.laid.bounds rfl).2.2 x hx) (agreeOn_write s.flash _ (.inl le_rfl))
  refine .busy hs e name i (hidle.created hspace hwrites i) ⟨hshared.files.reflash hcontent, ?_, ?_, hshared.returned⟩
    rfl ?_ hfree
  · have hfds := hshared.fds.reflash hidle.closed fun x hx => ⟨hcontent x hx, x, hx, rfl, rfl⟩
    refine hfds.update i ⟨rfl, rfl, le_rfl, rfl, Fd.isOpen_of_writes hwrites, fun hreads => ?_⟩
    exact absurd (hreads.symm.trans hwrites) Bool.false_ne_true
  · have hnum := hshared.numFd
    have hcount := count_install hi ⟨[], 0, flags⟩
    show s.numFd + 1 = (count (Function.update st.fds i _) : Int)
    rw [hcount]
    omega
  · rw [s.created_self]
    show Store.roundUp (st.used + name.bytes.length + 1) + 8 = align (e + (name.bytes.length + 1)) + 8
    rw [hused, align, wrap32_of_lt (by omega)]
    rfl

theorem invalidate_replies (s : Wofs) (found : Option Header) :
    (s.invalidate dev found).2.filterMap Action.reply? = [] := by
  rw [List.filterMap_eq_nil_iff]
  intro a ha
  cases a with
  | reply r => exact absurd ha (invalidate_no_reply found r)
  | wrote _ _ | erased _ _ => rfl

/-- A new file takes the place of the one with its name. -/
theorem replace (hidle : Idle dev s hs e) (hshared : Shared s st hs) (hwriting : st.writing = none) (hused : st.used = e)
    (hi : st.fds i = none) (hempty : s.findEmptyFd = some i) {flags : FileFlags} (hwrites : flags.writes = true) :
    let r := s.invalidate dev (hs.find? (isKept (fold name.bytes)))
    let r' := r.1.createAt dev name.bytes flags e
    Agrees dev (r'.1, r.2 ++ r'.2)
      ((st.remove (fold name.bytes)).create dev.maxSize i (fold name.bytes) name.bytes.length flags) := by
  have hreplies := @invalidate_replies dev s (hs.find? (isKept (fold name.bytes)))
  have hshared' := removed hidle hshared (fold name.bytes)
  have hidle' := @Idle.invalidate dev s hs e hidle (hs.find? (isKept (fold name.bytes))) fun x hx =>
    ⟨List.mem_of_find?_eq_some hx, (isKept_iff.mp (List.find?_some hx)).1⟩
  have hempty' : (s.invalidate dev (hs.find? (isKept (fold name.bytes)))).1.findEmptyFd = some i := by
    rw [invalidate_flash]
    exact hempty
  have hfree : (st.remove (fold name.bytes)).files (fold name.bytes) = none := Function.update_self ..
  dsimp only
  rcases createAt_cases hidle'.room name.bytes flags with ⟨heq, hno⟩ | ⟨w, ⟨hspace, hw⟩, heq⟩
  · have hspace : dev.maxSize < (st.remove (fold name.bytes)).used + name.bytes.length + 15 := by
      show dev.maxSize < st.used + name.bytes.length + 15
      rcases hno with hno | hno
      · omega
      · exact nomatch hempty'.symm.trans hno
    rw [heq, Store.create, if_pos hspace]
    refine ⟨.idle _ e hidle' hshared' hwriting hused, ?_⟩
    rw [List.filterMap_append, hreplies]
    rfl
  · obtain rfl : i = w := Option.some.inj (hempty'.symm.trans hw)
    have hspace' : ¬ dev.maxSize < (st.remove (fold name.bytes)).used + name.bytes.length + 15 := by
      show ¬ dev.maxSize < st.used + name.bytes.length + 15
      omega
    rw [heq, Store.create, if_neg hspace']
    refine ⟨created hidle' hshared' hused hfree hi hspace hwrites, ?_⟩
    rw [List.filterMap_append, hreplies]
    rfl

theorem «open» (h : Rel dev s st) {mode : String} {stack : UInt8} (hvalid : Valid s (.open name mode stack))
    (htold : Told dev s (.open name mode stack)) :
    Agrees dev (s.romfsOpen dev name.bytes (fsMode2flag mode) stack)
      (st.operate dev.maxSize (.open name mode stack)) := by
  have hfull := h.full_iff
  have hempty := h.findEmptyFd
  cases h with
  | busy hs e _ w hbusy => exact absurd ⟨w, hbusy.writes⟩ hvalid
  | idle hs e hidle hshared hwriting hused =>
    have hrel : Rel dev s st := .idle hs e hidle hshared hwriting hused
    show Agrees dev _ (st.open dev.maxSize (fold name.bytes) name.bytes.length (fsMode2flag mode))
    rw [hidle.open_eq, Store.open]
    cases hi : st.free with
    | none =>
      rw [if_pos (hfull.mpr hi)]
      exact hrel.respond _
    | some i =>
      have hroom : s.numFd ≠ 8 := fun hnum => nomatch hi.symm.trans (hfull.mp hnum)
      have hnone := free_spec hi
      have hfound := find?_isFile (hidle.files ▸ htold hroom)
      have hkey := hshared.files.content (fold name.bytes)
      rw [if_neg hroom, hfound]
      dsimp only
      cases hwrites : (FileFlags.decode (fsMode2flag mode)).writes with
      | false =>
        rw [if_neg Bool.false_ne_true, if_neg Bool.false_ne_true, Wofs.openExisting.eq_def, hkey]
        cases hx : hs.find? (isKept (fold name.bytes)) with
        | none => exact hrel.respond _
        | some x =>
          have hread : (FileFlags.decode (fsMode2flag mode)).read = true := by
            unfold FileFlags.writes FileFlags.decode at *
            simp_all
          dsimp only
          rw [hempty, hi]
          exact ⟨installed hidle hshared hwriting hused hnone (List.mem_of_find?_eq_some hx) hwrites hread, rfl⟩
      | true =>
        have hcreates : creates mode (hs.find? (isKept (fold name.bytes))) =
            ((fsMode2flag mode).creat && ((fsMode2flag mode).trunc || (st.files (fold name.bytes)).isNone)) := by
          rw [creates, hkey, Option.isNone_map, Option.not_isSome]
        rw [if_pos rfl, if_pos rfl, hcreates]
        split_ifs with hcreate
        · exact replace hidle hshared hwriting hused hnone (hempty.trans hi) hwrites
        · exact hrel.respond _

/-! ### Runs -/

theorem operate (h : Rel dev s st) {o : Operation} (hvalid : Valid s o) (htold : Told dev s o) :
    Agrees dev (s.operate dev o) (st.operate dev.maxSize o) := by
  cases o with
  | «open» name mode stack => exact h.open hvalid htold
  | write fd data => exact h.write hvalid htold
  | read fd len => exact h.read hvalid
  | lseek fd off whence => exact h.lseek hvalid
  | close fd => exact h.close hvalid
  | format => exact hvalid.elim

theorem init {flash : Flash} (herased : Erased flash 0 dev.maxSize) : Rel dev (.init flash) .empty := by
  have hpos := dev.maxSize_pos
  have hmod := dev.maxSize_mod
  have hfiles : FilesOk flash [] fun _ => none := ⟨fun _ => rfl, fun _ ha => absurd ha List.not_mem_nil⟩
  have hfds : FdsOk flash [] (fun _ => .closed) fun _ => none := ⟨fun _ _ => rfl, fun _ _ hd => nomatch hd⟩
  exact .idle [] 0 ⟨Laid.nil 0, by omega, herased, fun _ => rfl, rfl⟩ ⟨hfiles, hfds, rfl, rfl⟩ rfl rfl

end Rel

/-- From an erased region, the file system replies what the store of files replies. -/
theorem replies_of_store (dev : Device) (flash : Flash) (herased : Erased flash 0 dev.maxSize) (os : List Operation)
    (hok : (wofs dev).Along (fun s o => Valid s o ∧ Told dev s o) (.init flash) os) :
    ((wofs dev).trace (.init flash) os).filterMap Action.reply? = (store dev.maxSize).trace .empty os := by
  refine Machine.trace_eq_of_simulation (fun s st o h hok => ?_) (Rel.init herased) hok
  obtain ⟨hs, hshared⟩ := h.shared
  have hagrees := h.operate hok.1 hok.2
  rw [Machine.next, Machine.actions, step_eq hshared.returned]
  exact ⟨hagrees.rel, hagrees.replies⟩

/-- A file of two bytes, which is read. -/
def twoBytes : List Operation :=
  [.open nameA "w" 0, .write 0 [1, 2], .close 0, .open nameA "r" 0, .read 0 8]

theorem replies_of_store_twoBytes :
    ((wofs tiny).trace (.init blank) twoBytes).filterMap Action.reply? = (store tiny.maxSize).trace .empty twoBytes := by
  refine replies_of_store tiny blank (fun _ _ _ => rfl) twoBytes ⟨⟨?_, ?_⟩, ⟨⟨0, rfl, rfl⟩, ?_⟩, ⟨⟨0, rfl, rfl⟩, trivial⟩,
    ⟨?_, ?_⟩, ⟨⟨0, rfl, rfl⟩, trivial⟩, trivial⟩
  · show ¬ Wofs.IsWriting _
    decide
  · intro _ h hh
    have hnone : (Wofs.init blank).files tiny = [] := by decide
    rw [hnone] at hh
    exact absurd hh List.not_mem_nil
  · intro i hi _ _
    obtain rfl : (0 : Fin 8) = i := Option.some.inj hi
    left
    decide
  · show ¬ Wofs.IsWriting _
    decide
  · intro _ h hh _ _
    have hname : ∀ h ∈ ((wofs tiny).final (.init blank) (twoBytes.take 3)).files tiny, h.name = [97] := by decide
    exact ⟨hname h hh, fun hlength => absurd hlength (by decide)⟩

/-- The name `A`. -/
def nameUpperA : FileName := ⟨[65], by decide, by decide, by decide, by decide, by decide⟩

/-- A file is not found under its name in other letters. -/
theorem case_not_folded :
    ¬ ∀ (dev : Device) (flash : Flash), Erased flash 0 dev.maxSize → ∀ os : List Operation,
      (wofs dev).Along Valid (.init flash) os →
        ((wofs dev).trace (.init flash) os).filterMap Action.reply? = (store dev.maxSize).trace .empty os := by
  intro h
  have hrun := h tiny blank (fun _ _ _ => rfl)
    [.open nameA "w" 0, .write 0 [1, 2], .close 0, .open nameUpperA "r" 0]
    ⟨by show ¬ Wofs.IsWriting _; decide, ⟨0, rfl, rfl⟩, ⟨0, rfl, rfl⟩, by show ¬ Wofs.IsWriting _; decide, trivial⟩
  revert hrun
  decide +kernel

end EspClock.Romfs
