import EspClock.Flash.Access

/-!
# Failures of the flash

`platform_s_flash_write` and `platform_s_flash_read` return 0 for an operation that has failed.
`platform_flash_write` and `platform_flash_read` do not look at what they return and return the size whatever has
happened, and `my_spiffs_write` and `my_spiffs_read` return `SPIFFS_OK`. So a failure is never reported, and a word
that could not be read is programmed all the same.
-/

namespace EspClock.Flash

open Mem Nor

/-! ### The functions of `spiffs.c` -/

/-- `SPIFFS_OK` -/
def spiffsOk : Int := 0

namespace Access

variable (chip : Chip) (s : Access)

def mySpiffsWrite (tmpdata addr pfrom : Nat) (data : List UInt8) : Access × Int :=
  ((s.platformFlashWrite chip tmpdata pfrom data addr).1, spiffsOk)

/-- `my_spiffs_read`, with the bytes that it leaves behind `dst`. -/
def mySpiffsRead (addr size : Nat) : Access × Int × List UInt8 :=
  let r := s.platformFlashRead chip addr size
  (r.1, spiffsOk, r.2.2)

/-! ### What should be reported -/

/-- The operations since an access. -/
def since (s s' : Access) : List (Operation × Bool) := s'.log.drop s.log.length

/-- An operation since an access has failed. -/
def Fails (s s' : Access) : Prop := ∃ op ∈ s.since s', op.2 = false

/-- A word could not be read, and then it is programmed. -/
def ProgramsUnread (a b : Operation × Bool) : Prop :=
  ∃ addr size data, a = (.read addr size, false) ∧ b.1 = .write addr data

/-- A call that leads from one access to another, with the size that it is asked for, what it returns, and what
SPIFFS gets. -/
structure Reports (s s' : Access) (size ret : Nat) (res : Int) : Prop where
  ret_ne : s.Fails s' → ret ≠ size
  res_ne : s.Fails s' → res ≠ spiffsOk
  unread : (s.since s').Pairwise fun a b => ¬ ProgramsUnread a b

def WriteReports (tmpdata pfrom : Nat) (data : List UInt8) (addr : Nat) : Prop :=
  let r := s.platformFlashWrite chip tmpdata pfrom data addr
  s.Reports r.1 data.length r.2 (s.mySpiffsWrite chip tmpdata addr pfrom data).2

def ReadReports (addr size : Nat) : Prop :=
  let r := s.platformFlashRead chip addr size
  s.Reports r.1 size r.2.1 (s.mySpiffsRead chip addr size).2.1

end Access

/-! ### The number of operations -/

/-- A write takes another operation if it has to copy the data first. -/
def writeCost (pfrom : Nat) : Nat := if pfrom % 4 = 0 then 1 else 2

def alignedWriteCost (tmpdata pfrom size : Nat) : Nat :=
  (if size / 4 * 4 = 0 then 0 else writeCost pfrom) + if size % 4 = 0 then 0 else 1 + writeCost tmpdata

/-- The operations of `platform_flash_write`, if they all succeed. -/
def flashWriteCost (tmpdata pfrom size addr : Nat) : Nat :=
  if addr % 4 = 0 then alignedWriteCost tmpdata pfrom size
  else
    1 + writeCost tmpdata +
      if size ≤ 4 - addr % 4 then 0 else alignedWriteCost tmpdata (pfrom + (4 - addr % 4)) (size - (4 - addr % 4))

def alignedReadCost (size : Nat) : Nat := (if size / 4 * 4 = 0 then 0 else 1) + if size % 4 = 0 then 0 else 1

/-- The operations of `platform_flash_read`, if they all succeed. -/
def flashReadCost (addr size : Nat) : Nat :=
  if addr % 4 = 0 then alignedReadCost size
  else 1 + if size ≤ 4 - addr % 4 then 0 else alignedReadCost (size - (4 - addr % 4))

/-- A number of operations of the chip succeed, from one on. -/
def Chip.Succeeds (chip : Chip) (start count : Nat) : Prop := ∀ k < count, chip.ok (start + k) = true

namespace Access

/-- One access follows another. All operations in between succeed exactly if so many operations of the chip do, and
then they are so many. -/
def Takes (chip : Chip) (s s' : Access) (count : Nat) : Prop :=
  ∃ ops, s'.log = s.log ++ ops ∧ ((∀ op ∈ ops, op.2 = true) ↔ chip.Succeeds s.log.length count) ∧
    (chip.Succeeds s.log.length count → ops.length = count)

variable {chip : Chip} {s s' s'' : Access} {m n addr size pfrom tmpdata : Nat} {data : List UInt8}

theorem succeeds_add {start : Nat} :
    chip.Succeeds start (m + n) ↔ chip.Succeeds start m ∧ chip.Succeeds (start + m) n := by
  constructor
  · exact fun h => ⟨fun k hk => h k (by omega), fun k hk => Nat.add_assoc start m k ▸ h (m + k) (by omega)⟩
  · rintro ⟨h, h'⟩ k hk
    by_cases hlt : k < m
    · exact h k hlt
    · have hrest := h' (k - m) (by omega)
      rwa [show start + m + (k - m) = start + k by omega] at hrest

namespace Takes

theorem refl (chip : Chip) (s : Access) : Takes chip s s 0 :=
  ⟨[], (List.append_nil _).symm, ⟨fun _ k hk => absurd hk (Nat.not_lt_zero k), fun _ => List.forall_mem_nil _⟩,
    fun _ => rfl⟩

theorem trans (h : Takes chip s s' m) (h' : Takes chip s' s'' n) : Takes chip s s'' (m + n) := by
  obtain ⟨ops, hlog, hops, hlength⟩ := h
  obtain ⟨ops', hlog', hops', hlength'⟩ := h'
  -- The operations that follow are the next ones of the chip if those before have succeeded.
  have hstart : chip.Succeeds s.log.length m → s'.log.length = s.log.length + m := fun hm => by
    rw [hlog, List.length_append, hlength hm]
  refine ⟨ops ++ ops', by rw [hlog', hlog, List.append_assoc], ?_, fun hall => ?_⟩
  · rw [List.forall_mem_append, hops, hops', succeeds_add]
    exact and_congr_right fun hm => by rw [hstart hm]
  · obtain ⟨hm, hn⟩ := succeeds_add.mp hall
    rw [← hstart hm] at hn
    rw [List.length_append, hlength hm, hlength' hn]

/-- The next operation of the chip. -/
theorem one (op : Operation) (hlog : s'.log = s.log ++ [(op, chip.ok s.log.length)]) : Takes chip s s' 1 := by
  refine ⟨_, hlog, ?_, fun _ => rfl⟩
  rw [List.forall_mem_singleton]
  constructor
  · intro h k hk
    rw [Nat.lt_one_iff.mp hk]
    exact h
  · exact fun h => h 0 Nat.one_pos

/-- An operation fails, or all succeed. -/
theorem fails_iff (h : Takes chip s s' n) : s.Fails s' ↔ ¬ chip.Succeeds s.log.length n := by
  obtain ⟨ops, hlog, hops, -⟩ := h
  rw [← hops, Fails, since, hlog, List.drop_left]
  constructor
  · rintro ⟨op, hop, hfalse⟩ hall
    rw [hall op hop] at hfalse
    cases hfalse
  · intro hall
    by_contra hnone
    exact hall fun op hop => Bool.eq_true_of_not_eq_false fun hfalse => hnone ⟨op, hop, hfalse⟩

/-- A call that returns the size and `SPIFFS_OK` is right if there is nothing to report. -/
theorem reports_iff (h : Takes chip s s' n) (size : Nat) :
    s.Reports s' size size spiffsOk ↔ chip.Succeeds s.log.length n := by
  constructor
  · intro hreports
    by_contra hfails
    exact hreports.ret_ne (h.fails_iff.mpr hfails) rfl
  · intro hok
    have hnone : ¬ s.Fails s' := fun hfails => h.fails_iff.mp hfails hok
    refine ⟨fun hfails => absurd hfails hnone, fun hfails => absurd hfails hnone, ?_⟩
    refine List.pairwise_of_forall_mem_list fun a ha b _ => ?_
    rintro ⟨addr, size, data, rfl, -⟩
    exact hnone ⟨_, ha, rfl⟩

end Takes

/-! ### The operations of a call -/

theorem flashRead_takes (chip : Chip) (s : Access) (src size : Nat) : Takes chip s (s.flashRead chip src size).1 1 :=
  .one _ rfl

theorem flashWrite_takes (chip : Chip) (s : Access) (dst : Nat) (data : List UInt8) :
    Takes chip s (s.flashWrite chip dst data).1 1 := .one _ rfl

theorem cMalloc_takes (chip : Chip) (s : Access) (size : Nat) : Takes chip s (s.cMalloc chip size).1 1 := .one _ rfl

theorem platformSFlashRead_takes (chip : Chip) (s : Access) (addr size : Nat) :
    Takes chip s (s.platformSFlashRead chip addr size).1 1 := flashRead_takes chip s _ size

/-- Without the memory for a copy there is no write, and one operation is all there is; but that one has failed. -/
theorem cMalloc_fails (hbuf : ¬ chip.ok s.log.length = true) (size n : Nat) :
    Takes chip s (s.cMalloc chip size).1 (n + 1) := by
  have hfails : ¬ chip.Succeeds s.log.length (n + 1) := fun h => hbuf (h 0 (Nat.succ_pos n))
  refine ⟨_, rfl, ?_, fun h => absurd h hfails⟩
  rw [List.forall_mem_singleton]
  exact ⟨fun h => absurd h hbuf, fun h => absurd h hfails⟩

theorem platformSFlashWrite_takes (chip : Chip) (s : Access) (pfrom addr : Nat) (data : List UInt8) :
    Takes chip s (s.platformSFlashWrite chip pfrom data addr).1 (writeCost pfrom) := by
  rw [platformSFlashWrite_fst, writeCost]
  split_ifs with hpfrom hbuf
  · exact flashWrite_takes chip s _ data
  · exact (cMalloc_takes chip s data.length).trans (flashWrite_takes chip _ _ data)
  · exact cMalloc_fails hbuf data.length 1

theorem writeAligned_takes (chip : Chip) (s : Access) (tmpdata pfrom addr : Nat) (data : List UInt8) :
    Takes chip s (s.writeAligned chip tmpdata pfrom data addr) (alignedWriteCost tmpdata pfrom data.length) := by
  have hblocks : Takes chip s
      (if data.length / 4 * 4 = 0 then s else
        (s.platformSFlashWrite chip pfrom (data.take (data.length / 4 * 4)) addr).1)
      (if data.length / 4 * 4 = 0 then 0 else writeCost pfrom) := by
    split_ifs
    · exact .refl chip s
    · exact platformSFlashWrite_takes chip s pfrom addr _
  unfold writeAligned alignedWriteCost
  dsimp only
  by_cases hrest : data.length % 4 = 0
  · rw [if_pos hrest, if_pos hrest]
    exact hblocks
  · rw [if_neg hrest, if_neg hrest]
    exact hblocks.trans ((platformSFlashRead_takes chip _ _ 4).trans (platformSFlashWrite_takes chip _ tmpdata _ _))

theorem platformFlashWrite_takes (chip : Chip) (s : Access) (tmpdata pfrom addr : Nat) (data : List UInt8) :
    Takes chip s (s.platformFlashWrite chip tmpdata pfrom data addr).1
        (flashWriteCost tmpdata pfrom data.length addr) ∧
      (s.platformFlashWrite chip tmpdata pfrom data addr).2 = data.length := by
  unfold platformFlashWrite flashWriteCost
  by_cases hmod : addr % 4 = 0
  · dsimp only
    rw [if_pos hmod, if_pos hmod]
    exact ⟨writeAligned_takes chip s tmpdata pfrom addr data, rfl⟩
  · have hleft : ∀ word, (fillWord 4 (addr % 4) word data).2 = data.drop (4 - addr % 4) := fun word =>
      congrArg Prod.snd (fillWord_eq 4 (addr % 4) word data)
    have hword := fun word => (platformSFlashRead_takes chip s (addr / 4 * 4) 4).trans
      (platformSFlashWrite_takes chip _ tmpdata (addr / 4 * 4) word)
    dsimp only
    rw [if_neg hmod, if_neg hmod, hleft]
    by_cases hnil : data.drop (4 - addr % 4) = []
    · rw [if_pos hnil, if_pos (List.drop_eq_nil_iff.mp hnil)]
      exact ⟨hword _, rfl⟩
    · have hlong : ¬ data.length ≤ 4 - addr % 4 := fun hle => hnil (List.drop_eq_nil_iff.mpr hle)
      have hlength : data.length - (data.drop (4 - addr % 4)).length = 4 - addr % 4 := by
        rw [List.length_drop]
        omega
      have hrest := fun b => writeAligned_takes chip b tmpdata (pfrom + (4 - addr % 4)) (wrap32 (addr / 4 * 4 + 4))
        (data.drop (4 - addr % 4))
      rw [List.length_drop] at hrest
      rw [if_neg hnil, if_neg hlong, hlength]
      exact ⟨(hword _).trans (hrest _), rfl⟩

theorem readAligned_takes (chip : Chip) (s : Access) (addr size : Nat) :
    Takes chip s (s.readAligned chip addr size).1 (alignedReadCost size) := by
  unfold readAligned alignedReadCost
  set b : Access × List UInt8 := if size / 4 * 4 = 0 then (s, []) else
    ((s.platformSFlashRead chip addr (size / 4 * 4)).1, (s.platformSFlashRead chip addr (size / 4 * 4)).2.2) with hb
  have hblocks : Takes chip s b.1 (if size / 4 * 4 = 0 then 0 else 1) := by
    rw [hb]
    split_ifs
    · exact .refl chip s
    · exact platformSFlashRead_takes chip s addr _
  by_cases hrest : size % 4 = 0
  · dsimp only
    rw [if_pos hrest, if_pos hrest]
    exact hblocks
  · dsimp only
    rw [if_neg hrest, if_neg hrest]
    exact hblocks.trans (platformSFlashRead_takes chip b.1 _ 4)

/-- The number of bytes that are left does not depend on the word. -/
theorem takeWord_snd (bound : Nat) (word : List UInt8) (i size : Nat) :
    (takeWord bound word i size).2 = size - (bound - i) := by
  induction size generalizing i with
  | zero => rw [takeWord, Nat.zero_sub]
  | succ size ih =>
    rw [takeWord]
    split_ifs with hi
    · rw [ih]
      omega
    · omega

theorem platformFlashRead_takes (chip : Chip) (s : Access) (addr size : Nat) :
    Takes chip s (s.platformFlashRead chip addr size).1 (flashReadCost addr size) ∧
      (s.platformFlashRead chip addr size).2.1 = size := by
  unfold platformFlashRead flashReadCost
  by_cases hmod : addr % 4 = 0
  · dsimp only
    rw [if_pos hmod, if_pos hmod]
    exact ⟨readAligned_takes chip s addr size, rfl⟩
  · have hword := platformSFlashRead_takes chip s (addr / 4 * 4) 4
    dsimp only
    rw [if_neg hmod, if_neg hmod, takeWord_snd]
    by_cases hzero : size ≤ 4 - addr % 4
    · rw [if_pos (Nat.sub_eq_zero_of_le hzero), if_pos hzero]
      exact ⟨hword, rfl⟩
    · rw [if_neg (by omega), if_neg hzero]
      exact ⟨hword.trans (readAligned_takes chip _ _ _), rfl⟩

/-! ### Failures that are reported -/

theorem writeReports_iff (chip : Chip) (s : Access) (tmpdata pfrom addr : Nat) (data : List UInt8) :
    s.WriteReports chip tmpdata pfrom data addr ↔
      chip.Succeeds s.log.length (flashWriteCost tmpdata pfrom data.length addr) := by
  obtain ⟨htakes, hsize⟩ := platformFlashWrite_takes chip s tmpdata pfrom addr data
  unfold WriteReports mySpiffsWrite
  dsimp only
  rw [hsize, htakes.reports_iff]

theorem readReports_iff (chip : Chip) (s : Access) (addr size : Nat) :
    s.ReadReports chip addr size ↔ chip.Succeeds s.log.length (flashReadCost addr size) := by
  obtain ⟨htakes, hsize⟩ := platformFlashRead_takes chip s addr size
  unfold ReadReports mySpiffsRead
  dsimp only
  rw [hsize, htakes.reports_iff]

/-- For every address, size, data and pattern of failures, the calls report what they should exactly if there is
nothing to report: if as many operations succeed as the call takes for its address, its size and the addresses in
memory. -/
theorem flash_reports_iff (chip : Chip) (s : Access) (addr : Nat) :
    (∀ tmpdata pfrom data, s.WriteReports chip tmpdata pfrom data addr ↔
        chip.Succeeds s.log.length (flashWriteCost tmpdata pfrom data.length addr)) ∧
      ∀ size, s.ReadReports chip addr size ↔ chip.Succeeds s.log.length (flashReadCost addr size) :=
  ⟨fun tmpdata pfrom data => writeReports_iff chip s tmpdata pfrom addr data,
    fun size => readReports_iff chip s addr size⟩

/-- A chip that fails once, at the first operation. -/
def failingChip : Chip := ⟨fun n => n ≠ 0, fun _ _ => 0, fun _ f => f⟩

/-- One byte is written to erased flash, and the word cannot be read. Zeros are programmed around the byte, and both
callers are told that all is well. -/
theorem unread_word_programmed :
    (¬ ∀ (chip : Chip) (s : Access) (tmpdata pfrom : Nat) (data : List UInt8) (addr : Nat),
        s.WriteReports chip tmpdata pfrom data addr) ∧
      (Access.platformFlashWrite failingChip ⟨fun _ => 0xFF, []⟩ 0 0 [0x55] (startAddress + 1)).1.flash 0 = 0 := by
  refine ⟨fun hall => ?_, by decide +kernel⟩
  have h := hall failingChip ⟨fun _ => 0xFF, []⟩ 0 0 [0x55] (startAddress + 1)
  have hfails : Access.Fails ⟨fun _ => 0xFF, []⟩
      (Access.platformFlashWrite failingChip ⟨fun _ => 0xFF, []⟩ 0 0 [0x55] (startAddress + 1)).1 :=
    ⟨(.read 0 4, false), by decide +kernel, rfl⟩
  exact h.ret_ne hfails rfl

end Access

end EspClock.Flash
