import EspClock.Romfs.Layout

/-!
# One file at a time

Between two calls the region is in one of two states. When it is idle, complete files lie from its start on and
every byte behind them is erased. When it is busy, the name of one more file follows them, with erased fields, the
data that have been written so far and nothing but erased bytes behind. A new file begins at the end of the
complete ones, and it is complete when its size is written.

The check for free space at creation, the alignment of the fields and the clamp of the writes fit together: the
data of a file begin and end before the last four bytes of the region.
-/

namespace EspClock.Romfs

open Mem Nor Chain

/-! ### The two states -/

structure Idle (dev : Device) (s : Wofs) (hs : List Header) (e : Nat) : Prop where
  laid : Laid dev s.flash 0 hs e
  room : e + 4 ≤ dev.maxSize
  tail : Erased s.flash e dev.maxSize
  closed : ∀ i, (s.fdTable i).flags.writes = false
  writing : s.writing = false

structure Busy (dev : Device) (s : Wofs) (hs : List Header) (e : Nat) (name : FileName) (w : Fin 8) : Prop where
  laid : Laid dev s.flash 0 hs e
  space : e + name.bytes.length + 15 ≤ dev.maxSize
  named : slice s.flash e (name.bytes.length + 1) = name.bytes ++ [0]
  baseaddr : (s.fdTable w).baseaddr = align (e + name.bytes.length + 1) + 8
  fields : Erased s.flash (e + name.bytes.length + 1) (s.fdTable w).baseaddr
  room : (s.fdTable w).baseaddr + (s.fdTable w).size + 4 ≤ dev.maxSize
  tail : Erased s.flash ((s.fdTable w).baseaddr + (s.fdTable w).size) dev.maxSize
  writes : (s.fdTable w).flags.writes = true
  only : ∀ i, (s.fdTable i).flags.writes = true → i = w
  writing : s.writing = true

variable {dev : Device} {s s' : Wofs} {hs : List Header} {e : Nat} {name : FileName} {w : Fin 8}

namespace Idle

theorem mod (h : Idle dev s hs e) : e % 4 = 0 := (h.laid.bounds rfl).2.1

theorem lt_flash (h : Idle dev s hs e) : e < dev.flashSize := by
  have hroom := h.room
  have hle := dev.maxSize_le
  omega

theorem atEnd (h : Idle dev s hs e) : s.flash e = 0xFF := by
  have hroom := h.room
  exact h.tail e le_rfl (by omega)

/-- The descriptors that read do not count. -/
theorem of_fds (h : Idle dev s hs e) (hflash : s'.flash = s.flash) (hwriting : s'.writing = s.writing)
    (hclosed : ∀ i, (s'.fdTable i).flags.writes = false) : Idle dev s' hs e :=
  ⟨hflash ▸ h.laid, h.room, hflash ▸ h.tail, hclosed, hwriting.trans h.writing⟩

end Idle

namespace Busy

theorem baseaddr_spec (h : Busy dev s hs e name w) :
    e + name.bytes.length + 9 ≤ (s.fdTable w).baseaddr ∧ (s.fdTable w).baseaddr % 4 = 0 := by
  have hspace := h.space
  have hle := dev.maxSize_le
  have hflash := dev.flashSize_le
  have hbase := h.baseaddr
  obtain ⟨hge, -, halign⟩ := @align_spec (e + name.bytes.length + 1) (by omega)
  omega

/-- The other descriptors read. -/
theorem other (h : Busy dev s hs e name w) {i : Fin 8} (hi : i ≠ w) : (s.fdTable i).flags.writes = false := by
  by_contra hwrites
  exact hi (h.only i (Bool.not_eq_false _ ▸ hwrites))

theorem lt_flash (h : Busy dev s hs e name w) : e < dev.flashSize := by
  have hspace := h.space
  have hle := dev.maxSize_le
  omega

theorem of_fds (h : Busy dev s hs e name w) (hflash : s'.flash = s.flash) (hwriting : s'.writing = s.writing)
    (hbase : (s'.fdTable w).baseaddr = (s.fdTable w).baseaddr) (hsize : (s'.fdTable w).size = (s.fdTable w).size)
    (hflags : (s'.fdTable w).flags = (s.fdTable w).flags)
    (hother : ∀ i, i ≠ w → (s'.fdTable i).flags.writes = false) : Busy dev s' hs e name w where
  laid := hflash ▸ h.laid
  space := h.space
  named := hflash ▸ h.named
  baseaddr := hbase.trans h.baseaddr
  fields := hflash ▸ hbase ▸ h.fields
  room := hbase ▸ hsize ▸ h.room
  tail := hflash ▸ hbase ▸ hsize ▸ h.tail
  writes := hflags ▸ h.writes
  only i hi := by
    by_contra hne
    exact Bool.false_ne_true ((hother i hne).symm.trans hi)
  writing := hwriting.trans h.writing

end Busy

/-! ### Opening -/

/-- The modes have no `O_EXCL`, ask for a file to be created only with write access, and for an empty one only if
it is created. -/
theorem fsMode2flag_spec (mode : String) :
    (fsMode2flag mode).excl = false ∧
      ((fsMode2flag mode).creat = true → (FileFlags.decode (fsMode2flag mode)).writes = true) ∧
      ((fsMode2flag mode).trunc = true →
        (fsMode2flag mode).creat = true ∧ ((fsMode2flag mode).wronly || (fsMode2flag mode).rdwr) = true) := by
  unfold fsMode2flag
  split_ifs <;> decide

/-- Whether a mode makes a new file. -/
def creates (mode : String) (found : Option Header) : Bool :=
  (fsMode2flag mode).creat && ((fsMode2flag mode).trunc || !found.isSome)

theorem openFound_eq (path : List UInt8) (mode : String) (stack : UInt8) (found : Option Header) (firstfree : Nat) :
    s.openFound dev path (fsMode2flag mode) stack found firstfree =
      if (FileFlags.decode (fsMode2flag mode)).writes then
        if creates mode found && !s.writing then
          s.create dev path (FileFlags.decode (fsMode2flag mode)) stack found firstfree
        else s.respond (-1)
      else s.openExisting (FileFlags.decode (fsMode2flag mode)) found := by
  obtain ⟨hexcl, hcreat, htrunc⟩ := fsMode2flag_spec mode
  unfold Wofs.openFound creates
  cases hwrites : (FileFlags.decode (fsMode2flag mode)).writes with
  | false =>
    have hnocreat : (fsMode2flag mode).creat = false := by
      by_contra h
      exact Bool.false_ne_true (hwrites.symm.trans (hcreat (Bool.not_eq_false _ ▸ h)))
    have hnotrunc : (fsMode2flag mode).trunc = false := by
      by_contra h
      exact Bool.false_ne_true (hnocreat.symm.trans (htrunc (Bool.not_eq_false _ ▸ h)).1)
    simp [hwrites, hexcl, hnocreat, hnotrunc]
  | true =>
    cases htruncates : (fsMode2flag mode).trunc with
    | false =>
      cases hc : (fsMode2flag mode).creat <;> cases hf : found.isSome <;> cases hw : s.writing <;>
        simp [hwrites, hexcl]
    | true =>
      obtain ⟨hc, hwr⟩ := htrunc htruncates
      cases hf : found.isSome <;> cases hw : s.writing <;> simp [hwrites, hexcl, hc, hwr]

@[simp] theorem Wofs.install_self (s : Wofs) (i : Fin 8) (fd : Fd) : (s.install i fd).1.fdTable i = fd :=
  Function.update_self ..

theorem Wofs.install_of_ne (s : Wofs) {i j : Fin 8} (h : j ≠ i) (fd : Fd) :
    (s.install i fd).1.fdTable j = s.fdTable j := Function.update_of_ne h ..

theorem program_eq {addr : Nat} (h : addr < dev.flashSize) (data : List UInt8) :
    s.program dev addr data = ({ s with flash := Nor.write s.flash addr data }, [.wrote addr data]) :=
  if_neg (Nat.not_le.mpr h)

theorem program_no_reply (addr : Nat) (data : List UInt8) (r : Reply) : .reply r ∉ (s.program dev addr data).2 := by
  unfold Wofs.program
  split_ifs <;> simp

/-- The state in which a new file is open. -/
def Wofs.created (s : Wofs) (path : List UInt8) (flags : FileFlags) (e : Nat) (w : Fin 8) : Wofs :=
  { s with
    flash := Nor.write s.flash e (path ++ [0])
    fdTable := Function.update s.fdTable w ⟨align (e + (path.length + 1)) + 8, 0, 0, flags⟩
    numFd := s.numFd + 1
    writing := true }

@[simp] theorem Wofs.created_self (s : Wofs) (path : List UInt8) (flags : FileFlags) (e : Nat) (w : Fin 8) :
    (s.created path flags e w).fdTable w = ⟨align (e + (path.length + 1)) + 8, 0, 0, flags⟩ := Function.update_self ..

theorem Wofs.created_of_ne (s : Wofs) (path : List UInt8) (flags : FileFlags) (e : Nat) {w i : Fin 8} (h : i ≠ w) :
    (s.created path flags e w).fdTable i = s.fdTable i := Function.update_of_ne h ..

/-- A new file needs room for its header and a descriptor. -/
theorem createAt_cases (hroom : e + 4 ≤ dev.maxSize) (path : List UInt8) (flags : FileFlags) :
    (s.createAt dev path flags e = s.respond (-1) ∧
        (dev.maxSize < e + path.length + 15 ∨ s.findEmptyFd = none)) ∨
      ∃ w, (e + path.length + 15 ≤ dev.maxSize ∧ s.findEmptyFd = some w) ∧
        s.createAt dev path flags e =
          (s.created path flags e w, [.wrote e (path ++ [0]), .reply (.value w)]) := by
  have hle := dev.maxSize_le
  have hflash := dev.flashSize_le
  have hfree : wrap32 (sub32 dev.maxSize e + 1) = dev.maxSize - e + 1 := by
    rw [sub32_of_le (by omega) (by omega), wrap32_of_lt (by omega)]
  unfold Wofs.createAt
  rw [hfree]
  split_ifs with hspace
  · exact .inl ⟨rfl, .inl (by omega)⟩
  · cases hempty : s.findEmptyFd with
    | none => exact .inl ⟨rfl, .inr rfl⟩
    | some w =>
      refine .inr ⟨w, ⟨by omega, rfl⟩, ?_⟩
      dsimp only
      rw [program_eq (by omega)]
      rfl

/-- A new file at the end of the complete ones. -/
theorem Idle.created (h : Idle dev s hs e) (hspace : e + name.bytes.length + 15 ≤ dev.maxSize) {flags : FileFlags}
    (hwrites : flags.writes = true) (w : Fin 8) : Busy dev (s.created name.bytes flags e w) hs e name w := by
  have hle := dev.maxSize_le
  have hflash := dev.flashSize_le
  have hmaxmod := dev.maxSize_mod
  have hlength : (name.bytes ++ [0]).length = name.bytes.length + 1 := List.length_append
  obtain ⟨hge, hlt, halign⟩ := @align_spec (e + name.bytes.length + 1) (by omega)
  have hfd := s.created_self name.bytes flags e w
  rw [← Nat.add_assoc] at hfd
  have hbehind : Erased (s.created name.bytes flags e w).flash (e + name.bytes.length + 1) dev.maxSize := by
    have hagree : AgreeOn s.flash (s.created name.bytes flags e w).flash (e + name.bytes.length + 1) dev.maxSize :=
      agreeOn_write s.flash _ (.inr (by omega))
    exact hagree.erased (h.tail.mono (by omega) le_rfl)
  refine ⟨h.laid.congr rfl (agreeOn_write _ _ (.inl le_rfl)), hspace, ?_, ?_, ?_, ?_, ?_, ?_, ?_, rfl⟩
  · rw [← hlength]
    exact slice_write (h.tail.mono le_rfl (by omega))
  · rw [hfd]
  · rw [hfd]
    refine hbehind.mono le_rfl ?_
    dsimp only
    omega
  · rw [hfd]
    dsimp only
    omega
  · rw [hfd]
    refine hbehind.mono ?_ le_rfl
    dsimp only
    omega
  · rw [hfd]
    exact hwrites
  · intro i hi
    by_contra hne
    rw [s.created_of_ne name.bytes flags e hne, h.closed i] at hi
    exact Bool.false_ne_true hi

/-- The headers once the file that is replaced is deleted. -/
def replaced (found : Option Header) (hs : List Header) : List Header :=
  found.elim hs fun h => hs.map h.mark

theorem Idle.invalidate (h : Idle dev s hs e) {found : Option Header} (hfound : ∀ x ∈ found, x ∈ hs ∧ x.deleted = false) :
    Idle dev (s.invalidate dev found).1 (replaced found hs) e := by
  cases found with
  | none => exact h
  | some x =>
    obtain ⟨hmem, hlive⟩ := hfound x rfl
    have hwithin := (h.laid.bounds rfl).2.2 x hmem
    have hfields := hwithin.fields
    have hstop := hwithin.stop
    have hlt := h.lt_flash
    rw [Wofs.invalidate, program_eq (by omega)]
    refine ⟨h.laid.mark rfl hmem hlive, h.room, ?_, h.closed, h.writing⟩
    refine AgreeOn.erased (agreeOn_write s.flash _ (.inr ?_)) h.tail
    show x.baseaddr - 8 + 4 ≤ e
    omega

/-- Deleting a file changes the flash only. -/
theorem invalidate_flash (s : Wofs) (found : Option Header) :
    (s.invalidate dev found).1 = { s with flash := (s.invalidate dev found).1.flash } := by
  cases found with
  | none => rfl
  | some x =>
    rw [Wofs.invalidate, Wofs.program]
    split_ifs
    · rfl
    · rfl

/-- Deleting a file replies nothing. -/
theorem invalidate_no_reply (found : Option Header) (r : Reply) : .reply r ∉ (s.invalidate dev found).2 := by
  cases found with
  | none => exact List.not_mem_nil
  | some h => exact program_no_reply _ _ r

/-- What is written to delete a file. -/
theorem Idle.invalidate_eq (h : Idle dev s hs e) {x : Header} (hmem : x ∈ hs) :
    s.invalidate dev (some x) =
      ({ s with flash := Nor.write s.flash (x.baseaddr - 8) deletion }, [.wrote (x.baseaddr - 8) deletion]) := by
  have hwithin := (h.laid.bounds rfl).2.2 x hmem
  have hfields := hwithin.fields
  have hstop := hwithin.stop
  have hlt := h.lt_flash
  rw [Wofs.invalidate, program_eq (by omega)]
  rfl

theorem isFile_find? {fname : List UInt8} {stack : UInt8} {x : Header} (h : hs.find? (isFile fname stack) = some x) :
    x ∈ hs ∧ x.deleted = false ∧ x.name = fname := by
  have hfile := List.find?_some h
  rw [isFile, Bool.and_eq_true, sameName_iff, Bool.not_eq_true'] at hfile
  exact ⟨List.mem_of_find?_eq_some h, hfile.2, hfile.1.1⟩

/-- What opening a file comes to while none is being written. -/
theorem Idle.open_eq (h : Idle dev s hs e) (path : List UInt8) (mode : String) (stack : UInt8) :
    s.romfsOpen dev path (fsMode2flag mode) stack =
      if s.numFd = 8 then s.respond (-1)
      else if (FileFlags.decode (fsMode2flag mode)).writes then
        if creates mode (hs.find? (isFile path stack)) then
          let r := s.invalidate dev (hs.find? (isFile path stack))
          let r' := r.1.createAt dev path (FileFlags.decode (fsMode2flag mode)) e
          (r'.1, r.2 ++ r'.2)
        else s.respond (-1)
      else s.openExisting (FileFlags.decode (fsMode2flag mode)) (hs.find? (isFile path stack)) := by
  have hopen : ∀ found firstfree, (∀ x ∈ found, x ∈ hs ∧ x.deleted = false) →
      s.openFound dev path (fsMode2flag mode) stack found firstfree =
        if (FileFlags.decode (fsMode2flag mode)).writes then
          if creates mode found then
            let r := s.invalidate dev found
            let r' := r.1.createAt dev path (FileFlags.decode (fsMode2flag mode)) e
            (r'.1, r.2 ++ r'.2)
          else s.respond (-1)
        else s.openExisting (FileFlags.decode (fsMode2flag mode)) found := by
    intro found firstfree hfound
    have hidle := h.invalidate hfound
    rw [openFound_eq, h.writing, Bool.not_false, Bool.and_true]
    unfold Wofs.create
    dsimp only
    rw [hidle.laid.openFile_one hidle.lt_flash hidle.atEnd]
    dsimp only
    rw [last_of_lt hidle.lt_flash]
  unfold Wofs.romfsOpen
  refine if_congr Iff.rfl rfl ?_
  rw [h.laid.openFile h.lt_flash h.atEnd]
  cases hfound : hs.find? (isFile path stack) with
  | none => exact hopen none _ fun _ hx => nomatch hx
  | some x =>
    obtain ⟨hmem, hlive, -⟩ := isFile_find? hfound
    refine hopen (some x) 0 ?_
    rintro y ⟨⟩
    exact ⟨hmem, hlive⟩

/-! ### Open files -/

/-- A descriptor moves. -/
def Wofs.moved (s : Wofs) (i : Fin 8) (offset : Nat) : Wofs :=
  { s with fdTable := Function.update s.fdTable i { s.fdTable i with offset := offset } }

@[simp] theorem Wofs.moved_self (s : Wofs) (i : Fin 8) (offset : Nat) :
    (s.moved i offset).fdTable i = { s.fdTable i with offset := offset } := Function.update_self ..

theorem Wofs.moved_of_ne (s : Wofs) {i j : Fin 8} (h : j ≠ i) (offset : Nat) :
    (s.moved i offset).fdTable j = s.fdTable j := Function.update_of_ne h ..

/-- A call that replies and at most moves a descriptor. -/
def Moves (s : Wofs) (r : Wofs × List Action) : Prop :=
  ∃ reply, r.2 = [.reply reply] ∧ (r.1 = s ∨ ∃ i offset, r.1 = s.moved i offset)

theorem Moves.refl (s : Wofs) (n : Int) : Moves s (s.respond n) := ⟨_, rfl, .inl rfl⟩

theorem romfsRead_moves (s : Wofs) (fd : Int) (len : Nat) : Moves s (s.romfsRead dev fd len) := by
  unfold Wofs.romfsRead
  cases Wofs.slot fd with
  | none => exact .refl s _
  | some i =>
    dsimp only
    split_ifs
    · exact .refl s _
    · exact .refl s _
    · exact ⟨_, rfl, .inr ⟨i, _, rfl⟩⟩
    · exact ⟨_, rfl, .inr ⟨i, _, rfl⟩⟩

theorem romfsLseek_moves (s : Wofs) (fd off : Int) (whence : Whence) : Moves s (s.romfsLseek fd off whence) := by
  have hseek : ∀ i newpos, Moves s (if (s.fdTable i).size < newpos then s.respond (-1)
      else (s.moved i newpos, [.reply (.value newpos)])) := by
    intro i newpos
    split_ifs
    · exact .refl s _
    · exact ⟨_, rfl, .inr ⟨i, newpos, rfl⟩⟩
  unfold Wofs.romfsLseek
  cases Wofs.slot fd with
  | none => exact .refl s _
  | some i =>
    cases whence with
    | other => exact .refl s _
    | _ => exact hseek i _

/-- A descriptor is given back. -/
def Wofs.released (s : Wofs) (i : Fin 8) : Wofs :=
  { s with fdTable := Function.update s.fdTable i .closed, numFd := s.numFd - 1 }

@[simp] theorem Wofs.released_self (s : Wofs) (i : Fin 8) : (s.released i).fdTable i = .closed := Function.update_self ..

theorem Wofs.released_of_ne (s : Wofs) {i j : Fin 8} (h : j ≠ i) : (s.released i).fdTable j = s.fdTable j :=
  Function.update_of_ne h ..

theorem moved_fd (s : Wofs) (i j : Fin 8) (offset : Nat) :
    ((s.moved i offset).fdTable j).baseaddr = (s.fdTable j).baseaddr ∧
      ((s.moved i offset).fdTable j).size = (s.fdTable j).size ∧
      ((s.moved i offset).fdTable j).flags = (s.fdTable j).flags := by
  by_cases hj : j = i
  · subst hj
    rw [s.moved_self]
    exact ⟨rfl, rfl, rfl⟩
  · rw [s.moved_of_ne hj]
    exact ⟨rfl, rfl, rfl⟩

theorem Idle.install (h : Idle dev s hs e) (i : Fin 8) {fd : Fd} (hfd : fd.flags.writes = false) :
    Idle dev (s.install i fd).1 hs e := by
  refine h.of_fds rfl rfl fun j => ?_
  by_cases hj : j = i
  · subst hj
    rw [s.install_self]
    exact hfd
  · rw [s.install_of_ne hj]
    exact h.closed j

theorem Idle.moved (h : Idle dev s hs e) {r : Wofs × List Action} (hr : Moves s r) : Idle dev r.1 hs e := by
  obtain ⟨-, -, heq | ⟨i, offset, heq⟩⟩ := hr
  · exact heq ▸ h
  · rw [heq]
    refine h.of_fds rfl rfl fun j => ?_
    rw [(moved_fd s i j offset).2.2]
    exact h.closed j

theorem Busy.moved (h : Busy dev s hs e name w) {r : Wofs × List Action} (hr : Moves s r) :
    Busy dev r.1 hs e name w := by
  obtain ⟨-, -, heq | ⟨i, offset, heq⟩⟩ := hr
  · exact heq ▸ h
  · rw [heq]
    obtain ⟨hbase, hsize, hflags⟩ := moved_fd s i w offset
    refine h.of_fds rfl rfl hbase hsize hflags fun j hj => ?_
    rw [(moved_fd s i j offset).2.2]
    exact h.other hj

theorem Idle.released (h : Idle dev s hs e) (i : Fin 8) : Idle dev (s.released i) hs e := by
  refine h.of_fds rfl rfl fun j => ?_
  by_cases hj : j = i
  · subst hj
    rw [s.released_self]
    rfl
  · rw [s.released_of_ne hj]
    exact h.closed j

theorem Busy.released (h : Busy dev s hs e name w) {i : Fin 8} (hi : i ≠ w) : Busy dev (s.released i) hs e name w := by
  have hfd : (s.released i).fdTable w = s.fdTable w := s.released_of_ne hi.symm
  refine h.of_fds rfl rfl (by rw [hfd]) (by rw [hfd]) (by rw [hfd]) fun j hj => ?_
  by_cases hji : j = i
  · subst hji
    rw [s.released_self]
    rfl
  · rw [s.released_of_ne hji]
    exact h.other hj

/-! ### The file that is written -/

/-- The clamp leaves what there is room for, when the end of the write does not wrap into the region. -/
theorem clamp_eq {pfd : Fd} {len : Nat} (hroom : pfd.baseaddr + pfd.size + 4 ≤ dev.maxSize)
    (hlen : pfd.baseaddr + pfd.size + len < 2 ^ 32 ∨
      sub32 dev.maxSize 4 < wrap32 (pfd.baseaddr + pfd.size + len)) :
    Wofs.clamp dev pfd len = min len (dev.maxSize - 4 - (pfd.baseaddr + pfd.size)) := by
  have hle := dev.maxSize_le
  have hflash := dev.flashSize_le
  have hlimit : sub32 dev.maxSize 4 = dev.maxSize - 4 := sub32_of_le (by omega) (by omega)
  have hrest : sub32 dev.maxSize (pfd.baseaddr + pfd.size) = dev.maxSize - (pfd.baseaddr + pfd.size) :=
    sub32_of_le (by omega) (by omega)
  have hlast : sub32 (dev.maxSize - (pfd.baseaddr + pfd.size)) 4 = dev.maxSize - (pfd.baseaddr + pfd.size) - 4 :=
    sub32_of_le (by omega) (by omega)
  have hend : wrap32 (pfd.baseaddr + pfd.size) = pfd.baseaddr + pfd.size := wrap32_of_lt (by omega)
  rw [Wofs.clamp, hend, hrest, hlast]
  by_cases hfits : pfd.baseaddr + pfd.size + len < 2 ^ 32
  · rw [wrap32_of_lt hfits, hlimit]
    split_ifs with hover
    · omega
    · omega
  · rw [if_pos (hlen.resolve_left hfits)]
    omega

/-- Data are written behind those that are there. -/
def Wofs.extended (s : Wofs) (w : Fin 8) (data : List UInt8) : Wofs :=
  { s with
    flash := Nor.write s.flash ((s.fdTable w).baseaddr + (s.fdTable w).size) data
    fdTable := Function.update s.fdTable w
      { s.fdTable w with offset := (s.fdTable w).size + data.length, size := (s.fdTable w).size + data.length } }

@[simp] theorem Wofs.extended_self (s : Wofs) (w : Fin 8) (data : List UInt8) :
    (s.extended w data).fdTable w =
      { s.fdTable w with offset := (s.fdTable w).size + data.length, size := (s.fdTable w).size + data.length } :=
  Function.update_self ..

theorem Wofs.extended_of_ne (s : Wofs) {w i : Fin 8} (h : i ≠ w) (data : List UInt8) :
    (s.extended w data).fdTable i = s.fdTable i := Function.update_of_ne h ..

theorem Busy.extended (h : Busy dev s hs e name w) {data : List UInt8}
    (hroom : (s.fdTable w).baseaddr + (s.fdTable w).size + data.length + 4 ≤ dev.maxSize) :
    Busy dev (s.extended w data) hs e name w := by
  obtain ⟨hge, -⟩ := h.baseaddr_spec
  have hfd := s.extended_self w data
  have hbefore : AgreeOn s.flash (s.extended w data).flash 0 ((s.fdTable w).baseaddr + (s.fdTable w).size) :=
    agreeOn_write s.flash data (.inl le_rfl)
  have hbehind : AgreeOn s.flash (s.extended w data).flash
      ((s.fdTable w).baseaddr + (s.fdTable w).size + data.length) dev.maxSize :=
    agreeOn_write s.flash data (.inr le_rfl)
  refine ⟨h.laid.congr rfl (hbefore.mono le_rfl (by omega)), h.space, ?_, ?_, ?_, ?_, ?_, ?_, ?_, h.writing⟩
  · rw [← slice_congr (hbefore.mono (Nat.zero_le _) (by omega))]
    exact h.named
  · rw [hfd]
    exact h.baseaddr
  · rw [hfd]
    exact AgreeOn.erased (hbefore.mono (Nat.zero_le _) (Nat.le_add_right _ _)) h.fields
  · rw [hfd]
    dsimp only
    omega
  · rw [hfd]
    refine (hbehind.erased (h.tail.mono (by omega) le_rfl)).mono ?_ le_rfl
    dsimp only
    omega
  · rw [hfd]
    exact h.writes
  · intro i hi
    by_contra hne
    rw [s.extended_of_ne hne] at hi
    exact hne (h.only i hi)

/-- A write at the end of a file that is written. -/
theorem romfsWrite_eq {fd : Int} {i : Fin 8} {data : List UInt8} (hslot : Wofs.slot fd = some i)
    (hdata : data.length ≠ 0) (hwrites : (s.fdTable i).flags.writes = true)
    (hend : (if (s.fdTable i).flags.append = true then (s.fdTable i).size else (s.fdTable i).offset) =
      (s.fdTable i).size)
    (hflash : (s.fdTable i).baseaddr + (s.fdTable i).size < dev.flashSize)
    (hclamp : Wofs.clamp dev (s.fdTable i) data.length ≤ data.length) :
    s.romfsWrite dev fd data =
      (s.extended i (data.take (Wofs.clamp dev (s.fdTable i) data.length)),
        [.wrote ((s.fdTable i).baseaddr + (s.fdTable i).size)
            (data.take (Wofs.clamp dev (s.fdTable i) data.length)),
          .reply (.value (Wofs.clamp dev (s.fdTable i) data.length))]) := by
  unfold Wofs.romfsWrite
  rw [hslot]
  dsimp only
  rw [if_neg hdata, hwrites, if_neg (by decide), hend, if_neg (not_not.mpr rfl),
    Nat.add_comm (s.fdTable i).size (s.fdTable i).baseaddr, program_eq hflash]
  unfold Wofs.extended
  rw [List.length_take_of_le hclamp]
  rfl

/-- A write goes to the end of the one file that is written, or nowhere. -/
theorem romfsWrite_cases (s : Wofs) (fd : Int) (data : List UInt8) :
    (∃ reply, s.romfsWrite dev fd data = (s, [.reply reply])) ∨
      ∃ i, (Wofs.slot fd = some i ∧ (s.fdTable i).flags.writes = true) ∧
        ((s.fdTable i).baseaddr + (s.fdTable i).size < dev.flashSize →
          Wofs.clamp dev (s.fdTable i) data.length ≤ data.length →
            s.romfsWrite dev fd data =
              (s.extended i (data.take (Wofs.clamp dev (s.fdTable i) data.length)),
                [.wrote ((s.fdTable i).baseaddr + (s.fdTable i).size)
                    (data.take (Wofs.clamp dev (s.fdTable i) data.length)),
                  .reply (.value (Wofs.clamp dev (s.fdTable i) data.length))])) := by
  cases hslot : Wofs.slot fd with
  | none =>
    refine .inl ⟨.value (-1), ?_⟩
    rw [Wofs.romfsWrite, hslot]
    rfl
  | some i =>
    by_cases hempty : data.length = 0
    · refine .inl ⟨.value 0, ?_⟩
      rw [Wofs.romfsWrite, hslot]
      exact if_pos hempty
    cases hwrites : (s.fdTable i).flags.writes with
    | false =>
      refine .inl ⟨.value (-1), ?_⟩
      rw [Wofs.romfsWrite, hslot]
      dsimp only
      rw [if_neg hempty, hwrites]
      rfl
    | true =>
      by_cases hend : (if (s.fdTable i).flags.append = true then (s.fdTable i).size else (s.fdTable i).offset) =
          (s.fdTable i).size
      · exact .inr ⟨i, ⟨rfl, hwrites⟩, romfsWrite_eq hslot hempty hwrites hend⟩
      · refine .inl ⟨.value 0, ?_⟩
        rw [Wofs.romfsWrite, hslot]
        dsimp only
        rw [if_neg hempty, hwrites, if_neg (by decide), if_pos hend]
        rfl

/-- The size is written and the descriptor given back. -/
def Wofs.finished (s : Wofs) (w : Fin 8) : Wofs :=
  { s.released w with
    flash := Nor.write s.flash ((s.fdTable w).baseaddr - 4) (wordBytes (s.fdTable w).size)
    writing := false }

theorem romfsClose_reads {fd : Int} {i : Fin 8} (hslot : Wofs.slot fd = some i)
    (hreads : (s.fdTable i).flags.writes = false) : s.romfsClose dev fd = (s.released i, [.reply (.value 0)]) := by
  unfold Wofs.romfsClose
  rw [hslot]
  dsimp only
  rw [hreads]
  rfl

theorem romfsClose_writes {fd : Int} {i : Fin 8} (hslot : Wofs.slot fd = some i)
    (hwrites : (s.fdTable i).flags.writes = true) (hflash : (s.fdTable i).baseaddr - 4 < dev.flashSize) :
    s.romfsClose dev fd =
      (s.finished i, [.wrote ((s.fdTable i).baseaddr - 4) (wordBytes (s.fdTable i).size), .reply (.value 0)]) := by
  unfold Wofs.romfsClose
  rw [hslot]
  dsimp only
  rw [if_pos hwrites, program_eq hflash]
  rfl

/-- The header of the file that is being written, once it is complete. -/
def Wofs.completed (s : Wofs) (e : Nat) (name : FileName) (w : Fin 8) : Header where
  nameaddr := e
  name := name.bytes
  deleted := false
  baseaddr := (s.fdTable w).baseaddr
  size := (s.fdTable w).size

theorem length_wordBytes (n : Nat) : (wordBytes n).length = 4 := rfl

/-- The first byte of a name is not that of the end of the chain. -/
theorem Busy.start (h : Busy dev s hs e name w) : s.flash e ≠ 0xFF := by
  have hhead := name.head_ne
  have hnamed := h.named
  cases hbytes : name.bytes with
  | nil => exact absurd hbytes name.bytes_ne
  | cons b bs =>
    rw [hbytes, List.length_cons, slice_succ, List.cons_append] at hnamed
    rw [hbytes, List.head?_cons] at hhead
    rw [(List.cons.inj hnamed).1]
    exact fun hb => hhead (congrArg some hb)

theorem Busy.laid_finished (h : Busy dev s hs e name w) :
    Laid dev (s.finished w).flash 0 (hs ++ [s.completed e name w])
      (align ((s.fdTable w).baseaddr + (s.fdTable w).size)) := by
  obtain ⟨hge, -⟩ := h.baseaddr_spec
  have hroom := h.room
  have hle := dev.maxSize_le
  have hflash := dev.flashSize_le
  have hbase := h.baseaddr
  have hbase' : align (e + name.bytes.length + 1) = (s.fdTable w).baseaddr - 8 := by omega
  have hbefore : AgreeOn s.flash (s.finished w).flash 0 ((s.fdTable w).baseaddr - 4) :=
    agreeOn_write s.flash _ (.inl le_rfl)
  have hheader : header (s.finished w).flash e = s.completed e name w := by
    have hnamed : slice (s.finished w).flash e (name.bytes.length + 1) = name.bytes ++ [0] := by
      rw [← slice_congr (hbefore.mono (Nat.zero_le _) (by omega))]
      exact h.named
    have hlive : (s.finished w).flash (align (e + name.bytes.length + 1)) = 0xFF := by
      rw [hbase', ← hbefore _ (Nat.zero_le _) (by omega)]
      exact h.fields _ (by omega) (by omega)
    have hsize : word (s.finished w).flash (align (e + name.bytes.length + 1) + 4) = (s.fdTable w).size := by
      refine word_of_slice (by omega) ?_
      rw [hbase', show (s.fdTable w).baseaddr - 8 + 4 = (s.fdTable w).baseaddr - 4 by omega]
      refine slice_write (h.fields.mono (by omega) ?_)
      rw [length_wordBytes]
      omega
    rw [header_named name.zero_not_mem name.length_le hnamed, hlive, hsize, ← hbase]
    rfl
  have hentry : Entry dev (s.finished w).flash (header (s.finished w).flash e) := by
    rw [hheader]
    refine ⟨fun _ => ?_, hroom, name.ne_one⟩
    show (s.finished w).flash ((s.fdTable w).baseaddr - 8) = 0xFF
    rw [← hbefore _ (Nat.zero_le _) (by omega)]
    exact h.fields _ (by omega) (by omega)
  refine (h.laid.congr rfl (hbefore.mono le_rfl (by omega))).append ?_
  rw [← hheader]
  refine Laid.cons h.lt_flash ?_ hentry ?_
  · rw [← hbefore e (Nat.zero_le _) (by omega)]
    exact h.start
  · rw [hheader]
    exact Laid.nil _

theorem Busy.finished (h : Busy dev s hs e name w) :
    Idle dev (s.finished w) (hs ++ [s.completed e name w]) (align ((s.fdTable w).baseaddr + (s.fdTable w).size)) := by
  obtain ⟨hge, hmod⟩ := h.baseaddr_spec
  have hroom := h.room
  have hle := dev.maxSize_le
  have hflash := dev.flashSize_le
  have hmaxmod := dev.maxSize_mod
  obtain ⟨hend, -, halign⟩ := @align_spec ((s.fdTable w).baseaddr + (s.fdTable w).size) (by omega)
  obtain ⟨-, hlt, -⟩ := @align_spec ((s.fdTable w).baseaddr + (s.fdTable w).size) (by omega)
  refine ⟨h.laid_finished, by omega, ?_, fun i => ?_, rfl⟩
  · refine AgreeOn.erased (agreeOn_write s.flash _ (.inr ?_)) (h.tail.mono hend le_rfl)
    rw [length_wordBytes]
    omega
  · show ((s.released w).fdTable i).flags.writes = false
    by_cases hi : i = w
    · subst hi
      rw [s.released_self]
      rfl
    · rw [s.released_of_ne hi]
      exact h.other hi

end EspClock.Romfs
