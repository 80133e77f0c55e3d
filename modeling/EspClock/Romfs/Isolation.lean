import EspClock.Romfs.Room

/-!
# Opening files while one is written

The size of a file that is being written is still erased, and a scan takes it for 2^32 - 1: the sum with the
address of the data wraps around to the byte before them, and the next header is looked for in the data. So
what a program has written decides what another one finds, unless the scan ends before. A name that no complete
file has is safe only while the data are empty or begin with the byte that ends the chain.
-/

namespace EspClock.Romfs

open Mem Nor Chain

/-- The calls of a program at any time. Only formatting waits until no file is being written. -/
def Allowed (s : Wofs) : Operation → Prop
  | .write _ data => data.length < 2 ^ 31
  | .format => ¬ s.IsWriting
  | _ => True

variable (dev : Device)

/-- The complete files of a name that are not deleted. -/
def Wofs.versions (s : Wofs) (name : FileName) : List Header :=
  (s.files dev).filter fun h => h.name = name.bytes && !h.deleted

/-- The header of the file that is being written. -/
def Wofs.unfinished (s : Wofs) : Option Header := (s.chain dev)[(s.files dev).length]?

/-- The headers that are read to open a file. -/
def Wofs.scanned (s : Wofs) (name : FileName) (stack : UInt8) : List Header :=
  if s.numFd = 8 then [] else visited (next dev s.flash) (isFile name.bytes stack) (dev.flashSize + 1) 0

/-- Opening a file to read it gives a descriptor on a complete file of the name, or fails if there is none, and
reads no header in the data of the file that is being written. -/
structure Isolated (s : Wofs) (w : Fin 8) (name : FileName) (mode : String) (stack : UInt8) : Prop where
  present : s.versions dev name ≠ [] →
    ∃ h ∈ s.versions dev name, ∃ i : Fin 8,
      (s.operate dev (.open name mode stack)).2 = [.reply (.value i)] ∧
        (s.operate dev (.open name mode stack)).1.fdTable i = ⟨h.baseaddr, 0, h.size, ⟨true, false, false⟩⟩
  absent : s.versions dev name = [] → (s.operate dev (.open name mode stack)).2 = [.reply (.value (-1))]
  scanned : ∀ h ∈ s.scanned dev name stack, h.nameaddr < (s.fdTable w).baseaddr

/-- A name that a complete file has is found, in a table with a free descriptor. For any other name the table is
full or the scan ends: it does not take the file that is being written, and that has no data or data that begin
with the byte that ends the chain. -/
def Sheltered (s : Wofs) (w : Fin 8) (name : FileName) (stack : UInt8) : Prop :=
  if s.versions dev name = [] then
    s.numFd = 8 ∨
      if ∃ h ∈ s.unfinished dev, sameName name.bytes stack h = true then s.findEmptyFd = none
      else s.flash (s.fdTable w).baseaddr = 0xFF
  else (30 ≤ name.bytes.length → stack = 0) ∧ s.numFd ≠ 8 ∧ s.findEmptyFd ≠ none

variable {dev} {s : Wofs} {hs : List Header} {e : Nat} {name wname : FileName} {w : Fin 8}

/-! ### Reachable states -/

theorem findEmptyFd_unused {i : Fin 8} (h : s.findEmptyFd = some i) : (s.fdTable i).unused = true :=
  @List.find?_some _ (fun i => (s.fdTable i).unused) _ _ h

namespace Busy

/-- A descriptor that is free is not the one that writes. -/
theorem ne_of_empty (h : Busy dev s hs e wname w) {i : Fin 8} (hi : s.findEmptyFd = some i) : i ≠ w := by
  rintro rfl
  have hunused := findEmptyFd_unused hi
  have hroom := h.room
  have hle := dev.maxSize_le
  have hflash := dev.flashSize_le
  rw [Fd.unused, decide_eq_true_iff] at hunused
  omega

theorem openExisting (h : Busy dev s hs e wname w) {flags : FileFlags} (hflags : flags.writes = false)
    (found : Option Header) : Busy dev (s.openExisting flags found).1 hs e wname w := by
  cases found with
  | none => exact h
  | some x =>
    unfold Wofs.openExisting
    cases hempty : s.findEmptyFd with
    | none => exact h
    | some i =>
      have hne := h.ne_of_empty hempty
      have hw := s.install_of_ne hne.symm ⟨x.baseaddr, 0, x.size, flags⟩
      refine h.of_fds rfl rfl (by rw [hw]) (by rw [hw]) (by rw [hw]) fun j hj => ?_
      by_cases hji : j = i
      · subst hji
        rw [s.install_self]
        exact hflags
      · rw [s.install_of_ne hji]
        exact h.other hj

/-- While a file is being written, opening another one does not touch it. -/
theorem open_busy (h : Busy dev s hs e wname w) (path : List UInt8) (mode : String) (stack : UInt8) :
    Busy dev (s.romfsOpen dev path (fsMode2flag mode) stack).1 hs e wname w := by
  have hfound : ∀ found firstfree,
      Busy dev (s.openFound dev path (fsMode2flag mode) stack found firstfree).1 hs e wname w := by
    intro found firstfree
    rw [openFound_eq, h.writing, Bool.not_true, Bool.and_false, if_neg Bool.false_ne_true]
    split_ifs with hwrites
    · exact h
    · exact h.openExisting (Bool.not_eq_true _ ▸ hwrites) found
  unfold Wofs.romfsOpen
  split_ifs
  · exact h
  · cases romfsOpenFile dev s.flash path stack with
    | lost => exact h.of_fds rfl rfl rfl rfl rfl fun j hj => h.other hj
    | found x => exact hfound (some x) 0
    | ended i => exact hfound none _

end Busy

theorem Region.next (h : Region dev s) {o : Operation} (hok : Allowed s o) : Region dev ((wofs dev).next s o) := by
  unfold Machine.next wofs
  dsimp only
  split_ifs
  · exact h
  · cases o with
    | «open» name mode stack =>
      obtain ⟨hs, e, hidle | ⟨wname, w, hbusy⟩⟩ := h
      · exact (hidle.open name mode stack).region
      · exact ⟨hs, e, .inr ⟨wname, w, hbusy.open_busy name.bytes mode stack⟩⟩
    | write fd data => exact (operate_step h (o := .write fd data) hok).region
    | read fd len => exact (operate_step h (o := .read fd len) trivial).region
    | lseek fd off whence => exact (operate_step h (o := .lseek fd off whence) trivial).region
    | close fd => exact (operate_step h (o := .close fd) trivial).region
    | format => exact (operate_step h (o := .format) hok).region

/-! ### Scans of a busy region -/

theorem mem_versions {x : Header} :
    x ∈ s.versions dev name ↔ x ∈ s.files dev ∧ x.name = name.bytes ∧ x.deleted = false := by
  rw [Wofs.versions, List.mem_filter, Bool.and_eq_true, decide_eq_true_iff, Bool.not_eq_true']

theorem isFile_iff {fname : List UInt8} {stack : UInt8} {x : Header} :
    isFile fname stack x = true ↔
      (x.name = fname ∧ (30 ≤ x.name.length → stack = 0)) ∧ x.deleted = false := by
  rw [isFile, Bool.and_eq_true, sameName_iff, Bool.not_eq_true']

namespace Busy

/-- A scan goes on from the header of the file that is being written to the data. -/
theorem next_eq (h : Busy dev s hs e wname w) :
    next dev s.flash e = some (header s.flash e, (s.fdTable w).baseaddr) ∧ (header s.flash e).deleted = false := by
  obtain ⟨hge, hmod⟩ := h.baseaddr_spec
  have hroom := h.room
  have hle := dev.maxSize_le
  have hflash := dev.flashSize_le
  have hbase : align (e + wname.bytes.length + 1) + 8 = (s.fdTable w).baseaddr := h.baseaddr.symm
  have hheader := header_named wname.zero_not_mem wname.length_le h.named
  have hsize : word s.flash (align (e + wname.bytes.length + 1) + 4) = 2 ^ 32 - 1 :=
    word_of_erased (h.fields.mono (by omega) (by omega))
  have hlive : s.flash (align (e + wname.bytes.length + 1)) = 0xFF := h.fields _ (by omega) (by omega)
  rw [hbase, hsize, hlive] at hheader
  have hwrap : wrap32 ((s.fdTable w).baseaddr + (2 ^ 32 - 1)) = (s.fdTable w).baseaddr - 1 := by
    unfold wrap32
    omega
  have halign : align ((s.fdTable w).baseaddr - 1) = (s.fdTable w).baseaddr := by
    obtain ⟨hle', hlt, hmod'⟩ := @align_spec ((s.fdTable w).baseaddr - 1) (by omega)
    omega
  refine ⟨next_eq_some_iff.mpr ⟨⟨h.lt_flash, h.start⟩, rfl, ?_⟩, by rw [hheader]; rfl⟩
  rw [hheader]
  dsimp only
  rw [hwrap, halign]

/-- What a scan that finds no complete file comes to. -/
theorem scan_eq (h : Busy dev s hs e wname w) {fname : List UInt8} {stack : UInt8}
    (hnone : hs.find? (isFile fname stack) = none) :
    ∃ fuel,
      romfsOpenFile dev s.flash fname stack =
          (if isFile fname stack (header s.flash e) = true then .found (header s.flash e)
          else search (next dev s.flash) (isFile fname stack) (fuel + 1) (s.fdTable w).baseaddr) ∧
        visited (next dev s.flash) (isFile fname stack) (dev.flashSize + 1) 0 =
          hs ++ (if isFile fname stack (header s.flash e) = true then [header s.flash e]
          else header s.flash e :: visited (next dev s.flash) (isFile fname stack) (fuel + 1) (s.fdTable w).baseaddr) := by
  obtain ⟨hnext, -⟩ := h.next_eq
  have hlength := (h.laid.bounds rfl).1
  have hlt := h.lt_flash
  obtain ⟨fuel, hfuel⟩ : ∃ fuel, dev.flashSize - hs.length = fuel + 1 := ⟨dev.flashSize - hs.length - 1, by omega⟩
  refine ⟨fuel, ?_, ?_⟩
  · rw [h.laid.openFile_eq h.lt_flash, hnone, Option.elim_none, hfuel, search, hnext]
  · rw [show dev.flashSize + 1 = hs.length + (fuel + 1 + 1) by omega, h.laid.path.visited_eq_of_none hnone, visited,
      hnext]

theorem versions_eq (h : Busy dev s hs e wname w) {x : Header} :
    x ∈ s.versions dev name ↔ x ∈ hs ∧ x.name = name.bytes ∧ x.deleted = false := by
  rw [mem_versions, h.files]

theorem unfinished_eq (h : Busy dev s hs e wname w) : s.unfinished dev = some (header s.flash e) := by
  obtain ⟨rest, hchain⟩ := h.chain_eq
  rw [Wofs.unfinished, h.files, hchain, List.getElem?_append_right le_rfl, Nat.sub_self]
  rfl

/-- The headers of the complete files and of the one that is being written lie in front of its data. -/
theorem nameaddr_lt (h : Busy dev s hs e wname w) {x : Header} (hx : x ∈ hs ∨ x = header s.flash e) :
    x.nameaddr < (s.fdTable w).baseaddr := by
  obtain ⟨hge, -⟩ := h.baseaddr_spec
  rcases hx with hx | rfl
  · have hwithin := (h.laid.bounds rfl).2.2 x hx
    have hfields := hwithin.fields
    have hstop := hwithin.stop
    omega
  · rw [h.header_baseaddr.1]
    omega

end Busy

/-- Opening a file to read it. -/
theorem operate_open_eq {mode : String} (hmode : fsMode2flag mode = .rdonly) (stack : UInt8) :
    s.operate dev (.open name mode stack) =
      if s.numFd = 8 then s.respond (-1)
      else
        match romfsOpenFile dev s.flash name.bytes stack with
        | .lost => ({ s with stuck := true }, [])
        | .found h => s.openExisting ⟨true, false, false⟩ (some h)
        | .ended _ => s.respond (-1) := by
  have hopen : ∀ found firstfree, s.openFound dev name.bytes (fsMode2flag mode) stack found firstfree =
      s.openExisting ⟨true, false, false⟩ found := by
    intro found firstfree
    rw [openFound_eq, hmode]
    rfl
  show s.romfsOpen dev name.bytes (fsMode2flag mode) stack = _
  unfold Wofs.romfsOpen
  refine if_congr Iff.rfl rfl ?_
  cases romfsOpenFile dev s.flash name.bytes stack with
  | lost => rfl
  | found h => exact hopen (some h) 0
  | ended i => exact hopen none _

theorem openExisting_none {flags : FileFlags} {x : Header} (hempty : s.findEmptyFd = none) :
    s.openExisting flags (some x) = s.respond (-1) := by
  rw [Wofs.openExisting, hempty]

theorem openExisting_some {flags : FileFlags} {x : Header} {i : Fin 8} (hempty : s.findEmptyFd = some i) :
    s.openExisting flags (some x) = s.install i ⟨x.baseaddr, 0, x.size, flags⟩ := by
  rw [Wofs.openExisting, hempty]

theorem not_isolated_of_refused {mode : String} {stack : UInt8} (hversions : s.versions dev name ≠ [])
    (hreplies : ∀ i : Fin 8, (s.operate dev (.open name mode stack)).2 ≠ [.reply (.value i)]) :
    ¬ Isolated dev s w name mode stack := by
  intro hisolated
  obtain ⟨_, _, i, hreply, _⟩ := hisolated.present hversions
  exact hreplies i hreply

theorem refused_ne (i : Fin 8) : [Action.reply (.value (-1))] ≠ [.reply (.value i)] := by
  intro h
  have hvalue : (-1 : Int) = (i : Fin 8) := Reply.value.inj (Action.reply.inj (List.cons.inj h).1)
  omega

variable {mode : String} {stack : UInt8}

/-- A full table. -/
theorem isolated_iff_of_full (hmode : fsMode2flag mode = .rdonly) (hfull : s.numFd = 8) :
    Isolated dev s w name mode stack ↔ Sheltered dev s w name stack := by
  have hrefused : (s.operate dev (.open name mode stack)).2 = [.reply (.value (-1))] := by
    rw [operate_open_eq hmode, if_pos hfull]
    rfl
  have hscanned : s.scanned dev name stack = [] := if_pos hfull
  rw [Sheltered]
  by_cases hversions : s.versions dev name = []
  · rw [if_pos hversions]
    refine iff_of_true ⟨fun hne => absurd hversions hne, fun _ => hrefused, ?_⟩ (.inl hfull)
    rw [hscanned]
    exact List.forall_mem_nil _
  · rw [if_neg hversions]
    refine iff_of_false (not_isolated_of_refused hversions fun i => ?_) fun hsheltered => hsheltered.2.1 hfull
    rw [hrefused]
    exact refused_ne i

namespace Busy

/-- No complete file has the name. -/
theorem isolated_iff_of_absent (h : Busy dev s hs e wname w) (hmode : fsMode2flag mode = .rdonly)
    (hfull : s.numFd ≠ 8) (hversions : s.versions dev name = []) :
    Isolated dev s w name mode stack ↔ Sheltered dev s w name stack := by
  have hnone : hs.find? (isFile name.bytes stack) = none := by
    rw [List.find?_eq_none]
    intro x hx hfile
    obtain ⟨⟨hname, -⟩, hlive⟩ := isFile_iff.mp hfile
    have hmem : x ∈ s.versions dev name := h.versions_eq.mpr ⟨hx, hname, hlive⟩
    rw [hversions] at hmem
    exact absurd hmem List.not_mem_nil
  obtain ⟨fuel, hscan, hvisited⟩ := h.scan_eq hnone
  obtain ⟨-, hlive⟩ := h.next_eq
  have hoperate := @operate_open_eq dev s name mode hmode stack
  rw [if_neg hfull, hscan] at hoperate
  have hscanned : s.scanned dev name stack = _ := (if_neg hfull).trans hvisited
  have hsame : (∃ x ∈ s.unfinished dev, sameName name.bytes stack x = true) ↔
      isFile name.bytes stack (header s.flash e) = true := by
    rw [h.unfinished_eq, isFile, hlive, Bool.not_false, Bool.and_true]
    simp
  rw [Sheltered, if_pos hversions, or_iff_right hfull]
  by_cases hfile : isFile name.bytes stack (header s.flash e) = true
  · rw [if_pos (hsame.mpr hfile)]
    rw [if_pos hfile] at hoperate hscanned
    have hfront : ∀ x ∈ s.scanned dev name stack, x.nameaddr < (s.fdTable w).baseaddr := by
      rw [hscanned]
      intro x hx
      exact h.nameaddr_lt ((List.mem_append.mp hx).imp id List.mem_singleton.mp)
    cases hempty : s.findEmptyFd with
    | none =>
      refine iff_of_true ⟨fun hne => absurd hversions hne, fun _ => ?_, hfront⟩ rfl
      rw [hoperate]
      dsimp only
      rw [openExisting_none hempty]
      rfl
    | some i =>
      refine iff_of_false (fun hisolated => ?_) fun h => by cases h
      have habsent := hisolated.absent hversions
      rw [hoperate] at habsent
      dsimp only at habsent
      rw [openExisting_some hempty] at habsent
      exact refused_ne i habsent.symm
  · rw [if_neg fun hunfinished => hfile (hsame.mp hunfinished)]
    rw [if_neg hfile] at hoperate hscanned
    by_cases hend : s.flash (s.fdTable w).baseaddr = 0xFF
    · refine iff_of_true ⟨fun hne => absurd hversions hne, fun _ => ?_, ?_⟩ hend
      · rw [hoperate, search_end (next_eq_none hend)]
        rfl
      · rw [hscanned, visited_end (next_eq_none hend)]
        intro x hx
        exact h.nameaddr_lt ((List.mem_append.mp hx).imp id List.mem_singleton.mp)
    · refine iff_of_false (fun hisolated => ?_) hend
      have hroom := h.room
      have hle := dev.maxSize_le
      have hnext : next dev s.flash (s.fdTable w).baseaddr = some (header s.flash (s.fdTable w).baseaddr, _) :=
        next_eq_some_iff.mpr ⟨⟨by omega, hend⟩, rfl, rfl⟩
      have hread : header s.flash (s.fdTable w).baseaddr ∈ s.scanned dev name stack := by
        rw [hscanned, visited, hnext]
        refine List.mem_append_right _ (List.mem_cons_of_mem _ ?_)
        dsimp only
        split_ifs
        · exact List.mem_singleton_self _
        · exact List.mem_cons_self
      exact lt_irrefl _ (hisolated.scanned _ hread)

/-- A complete file has the name. -/
theorem isolated_iff_of_present (h : Busy dev s hs e wname w) (hmode : fsMode2flag mode = .rdonly)
    (hfull : s.numFd ≠ 8) (hversions : s.versions dev name ≠ []) :
    Isolated dev s w name mode stack ↔ Sheltered dev s w name stack := by
  have hoperate := @operate_open_eq dev s name mode hmode stack
  rw [if_neg hfull] at hoperate
  rw [Sheltered, if_neg hversions]
  by_cases hstack : 30 ≤ name.bytes.length → stack = 0
  · obtain ⟨x₀, hx₀⟩ := List.exists_mem_of_ne_nil _ hversions
    obtain ⟨hmem, hname, hlive⟩ := h.versions_eq.mp hx₀
    have hsome : (hs.find? (isFile name.bytes stack)).isSome = true :=
      List.find?_isSome.mpr ⟨x₀, hmem, isFile_iff.mpr ⟨⟨hname, hname ▸ hstack⟩, hlive⟩⟩
    obtain ⟨x, hx⟩ := Option.isSome_iff_exists.mp hsome
    obtain ⟨hmem, hlive, hname⟩ := isFile_find? hx
    rw [h.laid.openFile_eq h.lt_flash, hx, Option.elim_some] at hoperate
    dsimp only at hoperate
    cases hempty : s.findEmptyFd with
    | none =>
      refine iff_of_false (not_isolated_of_refused hversions fun i => ?_) fun hsheltered => hsheltered.2.2 rfl
      rw [hoperate, openExisting_none hempty]
      exact refused_ne i
    | some i =>
      rw [openExisting_some hempty] at hoperate
      refine iff_of_true ⟨fun _ => ⟨x, h.versions_eq.mpr ⟨hmem, hname, hlive⟩, i, ?_, ?_⟩,
        fun hnil => absurd hnil hversions, ?_⟩ ⟨hstack, hfull, fun h => by cases h⟩
      · rw [hoperate]
        rfl
      · rw [hoperate]
        exact s.install_self i _
      · have hlength := (h.laid.bounds rfl).1
        have hlt := h.lt_flash
        rw [Wofs.scanned, if_neg hfull, show dev.flashSize + 1 = hs.length + (dev.flashSize - hs.length + 1) by omega]
        exact fun y hy => h.nameaddr_lt (.inl (h.laid.path.visited_subset hsome _ y hy))
  · refine iff_of_false (not_isolated_of_refused hversions fun i => ?_) fun hsheltered => hstack hsheltered.1
    rw [hoperate]
    cases hscan : romfsOpenFile dev s.flash name.bytes stack with
    | lost => exact fun hnil => by cases hnil
    | ended j => exact refused_ne i
    | found x =>
      obtain ⟨⟨hname, hzero⟩, -⟩ := isFile_iff.mp (search_found hscan)
      exact absurd (hname ▸ hzero) hstack

end Busy

/-- In every state that calls reach in which a file is open for writing, opening a file to read it is isolated from
the data written so far exactly if the name and the state are sheltered. -/
theorem isolated_iff (dev : Device) (flash : Flash) (herased : Erased flash 0 dev.maxSize) (os : List Operation)
    (hok : (wofs dev).Along Allowed (.init flash) os) (w : Fin 8)
    (hwrites : (((wofs dev).final (.init flash) os).fdTable w).flags.writes = true) (name : FileName) (mode : String)
    (hmode : fsMode2flag mode = .rdonly) (stack : UInt8) :
    Isolated dev ((wofs dev).final (.init flash) os) w name mode stack ↔
      Sheltered dev ((wofs dev).final (.init flash) os) w name stack := by
  have hregion : Region dev ((wofs dev).final (.init flash) os) :=
    (Machine.always_of_along (fun _ _ h hok => h.next hok) (Inv.init herased).region hok).last
  obtain ⟨hs, e, wname, hbusy⟩ := hregion.busy hwrites
  by_cases hfull : ((wofs dev).final (.init flash) os).numFd = 8
  · exact isolated_iff_of_full hmode hfull
  · by_cases hversions : ((wofs dev).final (.init flash) os).versions dev name = []
    · exact hbusy.isolated_iff_of_absent hmode hfull hversions
    · exact hbusy.isolated_iff_of_present hmode hfull hversions

/-- The name `b`. -/
def nameB : FileName := ⟨[98], by decide, by decide, by decide, by decide, by decide⟩

/-- A file whose data look like a file. -/
def forging : List Operation := [.open nameA "w" 0, .write 0 [98, 0, 255, 255, 255, 255, 255, 255, 1, 0, 0, 0, 120]]

theorem forging_allowed : (wofs tiny).Along Allowed (.init blank) forging := by
  refine ⟨trivial, ?_, trivial⟩
  show [98, 0, 255, 255, 255, 255, 255, 255, 1, 0, 0, 0, 120].length < 2 ^ 31
  decide

theorem isolated_iff_forging :
    Isolated tiny ((wofs tiny).final (.init blank) forging) 0 nameA "r" 0 ↔
      Sheltered tiny ((wofs tiny).final (.init blank) forging) 0 nameA 0 :=
  isolated_iff tiny blank (fun _ _ _ => rfl) forging forging_allowed 0 (by decide) nameA "r" (by decide) 0

/-- Bytes that are being written are opened as a file. -/
theorem forged_file_opened :
    ¬ ∀ (dev : Device) (flash : Flash), Erased flash 0 dev.maxSize → ∀ os : List Operation,
      (wofs dev).Along Allowed (.init flash) os → ∀ w : Fin 8,
      (((wofs dev).final (.init flash) os).fdTable w).flags.writes = true → ∀ (name : FileName) (mode : String),
      fsMode2flag mode = .rdonly → ∀ stack : UInt8,
      Isolated dev ((wofs dev).final (.init flash) os) w name mode stack := by
  intro hall
  have hisolated := hall tiny blank (fun _ _ _ => rfl) forging forging_allowed 0 (by decide) nameB "r" (by decide) 0
  exact absurd (hisolated.absent (by decide)) (by decide)

end EspClock.Romfs
