import EspClock.Smart.Bounds

/-!
# What the check accepts

`smart_check` walks back over the nibbles, compares each with the check codes on both sides of it and fills in the bytes,
then looks for bytes that are not printable. It accepts two bytes or more exactly if all codes match and all bytes are
printable. A single byte has a branch of its own, whose comparison is read in another way than it is written.
-/

namespace EspClock.Smart

open Mem

namespace Received

variable {n : Nat}

/-- The byte of two nibbles, as a number. -/
def assembled (r : Received n) (j : Nat) : Nat :=
  (r.nibble.get (2 * j)).toNat % 16 * 16 + (r.nibble.get (2 * j + 1)).toNat % 16

/-- The nibbles of `k` printable bytes with their check codes. -/
def Valid (r : Received n) (k : Nat) : Prop :=
  (∀ i, i + 1 < 2 * k → (r.nibble.get (i + 1)).toNat / 16 = (r.nibble.get i).toNat % 16 ^^^ (i + 1) % 16) ∧
    ∀ j < k, 0x20 ≤ r.assembled j ∧ r.assembled j ≤ 0x7E

/-- `smart_check` accepts `k` bytes exactly if they are valid, leaves them in `dst` then, and otherwise takes a nibble
out that was there. -/
def ChecksValid (r : Received n) (k : Nat) : Prop :=
  let result := r.smartCheck (2 * k)
  (result.1 = true ↔ r.Valid k) ∧
    (result.1 = true → ∀ j < k, (result.2.1.dst.get j).toNat = r.assembled j) ∧
    (result.1 = false → (∀ i < 2 * k, r.HasGot i) → ∃ i < 2 * k, ¬ result.2.1.HasGot i)

/-- A single byte that the branch for it judges right: neither taken for valid by chance nor valid. -/
def SingleFits (r : Received n) : Prop :=
  let first := (r.nibble.get 0).toNat
  let second := (r.nibble.get 1).toNat
  ¬ (second / 16 = 15 ∧ first ≤ 15 ∧ first % 2 = 0) ∧
    ¬ (second / 16 = first % 16 ^^^ 1 ∧ 0x20 ≤ first % 16 * 16 + second % 16 ∧ first % 16 * 16 + second % 16 ≤ 0x7E)

/-! ### Nibbles as numbers -/

theorem low_toNat (x : UInt8) : (x &&& 0xF).toNat = x.toNat % 16 := by
  rw [UInt8.toNat_and]
  exact Nat.and_two_pow_sub_one_eq_mod x.toNat 4

theorem byte_toNat (r : Received n) (j : Nat) : (r.byte j).toNat = r.assembled j := by
  have hshift : ((r.nibble.get (2 * j) &&& 0xF) <<< 4).toNat = (r.nibble.get (2 * j)).toNat % 16 * 16 := by
    rw [UInt8.toNat_shiftLeft, low_toNat]
    show _ <<< 4 % 2 ^ 8 = _
    rw [Nat.shiftLeft_eq]
    omega
  rw [byte, UInt8.toNat_add, hshift, low_toNat, assembled]
  omega

theorem chained_iff (r : Received n) (i : Nat) :
    r.Chained i ↔ (r.nibble.get (i + 1)).toNat / 16 = (r.nibble.get i).toNat % 16 ^^^ (i + 1) % 16 := by
  rw [Chained, low_toNat, show (i + 1) &&& 0xF = (i + 1) % 16 from Nat.and_two_pow_sub_one_eq_mod (i + 1) 4]
  exact eq_comm

/-! ### Bits that are cleared -/

/-- A mask on a byte of the received bits takes bits out and puts none in. -/
theorem hasGot_and (r : Received n) {k : Nat} (hk : k < 2 * n / 8) (mask : UInt8) (nibble : Block UInt8 (2 * n))
    (dst : Block UInt8 n) {i : Nat} (h : HasGot ⟨nibble, r.got.set k (r.got.get k &&& mask), dst⟩ i) :
    r.HasGot i ∧ (k = i / 8 → mask.toNat.testBit (i % 8) = true) := by
  rw [HasGot] at h
  by_cases heq : k = i / 8
  · subst heq
    rw [Block.get_set _ _ hk, UInt8.toNat_and, Nat.testBit_and, Bool.and_eq_true] at h
    exact ⟨h.1, fun _ => h.2⟩
  · rw [Block.get_set_ne _ _ heq] at h
    exact ⟨h, fun h => absurd h heq⟩

theorem testBit_mask (i : Nat) :
    (~~~(1 <<< UInt8.ofNat (i % 8)) : UInt8).toNat.testBit (i % 8) = false ∧
      (~~~(3 <<< UInt8.ofNat (i % 8)) : UInt8).toNat.testBit (i % 8) = false := by
  have hall : ∀ b ∈ List.range 8, (~~~(1 <<< UInt8.ofNat b) : UInt8).toNat.testBit b = false ∧
      (~~~(3 <<< UInt8.ofNat b) : UInt8).toNat.testBit b = false := by decide
  exact hall (i % 8) (List.mem_range.mpr (Nat.mod_lt i (by decide)))

section Cleared

variable (hn : n % 4 = 0)
include hn

theorem forget_cleared (r : Received n) {i : Nat} (hi : i < 2 * n) :
    ¬ (r.forget i).1.HasGot i ∧ ∀ m, (r.forget i).1.HasGot m → r.HasGot m := by
  refine ⟨fun h => ?_, fun m h => (hasGot_and r (got_lt hn hi) _ _ _ h).1⟩
  have hbit := (hasGot_and r (got_lt hn hi) _ _ _ h).2 rfl
  rw [(testBit_mask i).1] at hbit
  exact Bool.false_ne_true hbit

/-! ### The loop over the nibbles -/

omit hn in
theorem checkNibbles_iff (r : Received n) (i : Nat) :
    (r.checkNibbles i).1 = true ↔ ∀ m < i, r.Chained (m + 1) ∧ r.Chained m := by
  induction i generalizing r with
  | zero => exact iff_of_true rfl fun _ hm => absurd hm (Nat.not_lt_zero _)
  | succ i ih =>
    rw [checkNibbles]
    by_cases hwrong : ¬ r.Chained (i + 1) ∨ ¬ r.Chained i
    · rw [if_pos hwrong]
      refine iff_of_false Bool.false_ne_true fun hall => ?_
      obtain ⟨hforward, hback⟩ := hall i (Nat.lt_succ_self i)
      exact hwrong.elim (fun h => h hforward) (fun h => h hback)
    · rw [if_neg hwrong]
      rw [not_or, not_not, not_not] at hwrong
      rw [Nat.forall_lt_succ_right]
      split_ifs
      · exact (ih _).trans (iff_self_and.mpr fun _ => hwrong)
      · exact (ih _).trans (iff_self_and.mpr fun _ => hwrong)

/-- Where all codes match, the nibbles stay and the bytes but the first one are filled in. -/
theorem checkNibbles_kept (r : Received n) {i : Nat} (hi : i + 1 < 2 * n) (hok : (r.checkNibbles i).1 = true) :
    (r.checkNibbles i).2.1.nibble = r.nibble ∧
      ∀ j, (r.checkNibbles i).2.1.dst.get j = if 1 ≤ j ∧ 2 * j ≤ i then r.byte j else r.dst.get j := by
  induction i generalizing r with
  | zero => exact ⟨rfl, fun j => (if_neg (by omega)).symm⟩
  | succ i ih =>
    rw [checkNibbles] at hok ⊢
    by_cases hwrong : ¬ r.Chained (i + 1) ∨ ¬ r.Chained i
    · rw [if_pos hwrong] at hok
      exact absurd hok Bool.false_ne_true
    · rw [if_neg hwrong] at hok ⊢
      by_cases heven : (i + 1) % 2 = 0
      · rw [if_pos heven] at hok ⊢
        obtain ⟨hnibble, hdst⟩ := ih { r with dst := r.dst.set ((i + 1) / 2) (r.byte ((i + 1) / 2)) } (by omega) hok
        refine ⟨hnibble, fun j => (hdst j).trans ?_⟩
        by_cases heq : (i + 1) / 2 = j
        · rw [if_neg (by omega), if_pos (by omega), ← heq, Block.get_set _ _ (by omega)]
        · rw [Block.get_set_ne _ _ heq]
          exact if_congr (by omega) rfl rfl
      · rw [if_neg heven] at hok ⊢
        obtain ⟨hnibble, hdst⟩ := ih r (by omega) hok
        exact ⟨hnibble, fun j => (hdst j).trans (if_congr (by omega) rfl rfl)⟩

/-- A code that does not match takes nibbles out. -/
theorem checkNibbles_cleared (r : Received n) {i : Nat} (hi : i + 1 < 2 * n) (hok : (r.checkNibbles i).1 = false) :
    ∃ m ≤ i, ¬ (r.checkNibbles i).2.1.HasGot m := by
  induction i generalizing r with
  | zero => exact absurd hok.symm Bool.false_ne_true
  | succ i ih =>
    rw [checkNibbles] at hok ⊢
    by_cases hwrong : ¬ r.Chained (i + 1) ∨ ¬ r.Chained i
    · rw [if_pos hwrong] at hok ⊢
      refine ⟨i, Nat.le_succ i, fun h => (forget_cleared hn r (i := i) (by omega)).1 ?_⟩
      exact (forget_cleared hn _ (i := i + 1) (by omega)).2 i ((forget_cleared hn _ hi).2 i h)
    · rw [if_neg hwrong] at hok ⊢
      by_cases heven : (i + 1) % 2 = 0
      · rw [if_pos heven] at hok ⊢
        obtain ⟨m, hm, hcleared⟩ := ih _ (by omega) hok
        exact ⟨m, Nat.le_succ_of_le hm, hcleared⟩
      · rw [if_neg heven] at hok ⊢
        obtain ⟨m, hm, hcleared⟩ := ih _ (by omega) hok
        exact ⟨m, Nat.le_succ_of_le hm, hcleared⟩

/-! ### The loop over the bytes -/

omit hn in
theorem checkBytes_iff (r : Received n) (i count : Nat) :
    (r.checkBytes i count).1 = true ↔ ∀ j, i ≤ j → j < i + count → 0x20 ≤ (r.dst.get j).toNat ∧ (r.dst.get j).toNat ≤ 0x7E := by
  induction count generalizing r i with
  | zero => exact iff_of_true rfl fun j hle hlt => absurd hlt hle.not_gt
  | succ count ih =>
    rw [checkBytes]
    have hprintable : r.dst.get i < 0x20 ∨ 0x7F ≤ r.dst.get i ↔ ¬ (0x20 ≤ (r.dst.get i).toNat ∧ (r.dst.get i).toNat ≤ 0x7E) := by
      rw [UInt8.lt_iff_toNat_lt, UInt8.le_iff_toNat_le]
      show (r.dst.get i).toNat < 32 ∨ 127 ≤ (r.dst.get i).toNat ↔ _
      omega
    by_cases hbad : r.dst.get i < 0x20 ∨ 0x7F ≤ r.dst.get i
    · rw [if_pos hbad]
      exact iff_of_false Bool.false_ne_true fun hall => hprintable.mp hbad (hall i le_rfl (by omega))
    · rw [if_neg hbad]
      have hgood := not_not.mp (mt hprintable.mpr hbad)
      refine (ih r (i + 1)).trans ⟨fun hall j hle hlt => ?_, fun hall j hle hlt => hall j (by omega) (by omega)⟩
      obtain rfl | hlater := hle.eq_or_lt
      · exact hgood
      · exact hall j hlater (by omega)

omit hn in
/-- Where all bytes are printable, nothing changes. -/
theorem checkBytes_kept (r : Received n) (i count : Nat) (hok : (r.checkBytes i count).1 = true) :
    (r.checkBytes i count).2.1 = r := by
  induction count generalizing r i with
  | zero => rfl
  | succ count ih =>
    rw [checkBytes] at hok ⊢
    by_cases hbad : r.dst.get i < 0x20 ∨ 0x7F ≤ r.dst.get i
    · rw [if_pos hbad] at hok
      exact absurd hok Bool.false_ne_true
    · rw [if_neg hbad] at hok ⊢
      exact ih r (i + 1) hok

theorem checkBytes_mono (r : Received n) {i count : Nat} (hcount : i + count ≤ n) {m : Nat}
    (h : (r.checkBytes i count).2.1.HasGot m) : r.HasGot m := by
  induction count generalizing r i with
  | zero => exact h
  | succ count ih =>
    rw [checkBytes] at h
    split_ifs at h
    · exact (hasGot_and r (by omega) _ _ _ (ih _ (by omega) h)).1
    · exact ih r (by omega) h

/-- A byte that is not printable takes its nibbles out. -/
theorem checkBytes_cleared (r : Received n) {i count : Nat} (hcount : i + count ≤ n) (hok : (r.checkBytes i count).1 = false) :
    ∃ j < i + count, ¬ (r.checkBytes i count).2.1.HasGot (2 * j) := by
  induction count generalizing r i with
  | zero => exact absurd hok.symm Bool.false_ne_true
  | succ count ih =>
    rw [checkBytes] at hok ⊢
    by_cases hbad : r.dst.get i < 0x20 ∨ 0x7F ≤ r.dst.get i
    · rw [if_pos hbad]
      refine ⟨i, by omega, fun h => ?_⟩
      have hbit := (hasGot_and r (by omega) _ _ _ (checkBytes_mono hn _ (by omega) h)).2 rfl
      rw [(testBit_mask (2 * i)).2] at hbit
      exact Bool.false_ne_true hbit
    · rw [if_neg hbad] at hok ⊢
      obtain ⟨j, hj, hcleared⟩ := ih r (i := i + 1) (by omega) hok
      exact ⟨j, by omega, hcleared⟩

/-! ### The whole check -/

omit hn in
theorem chained_all_iff (r : Received n) {k : Nat} (hk : 2 ≤ k) :
    (∀ m < 2 * k - 2, r.Chained (m + 1) ∧ r.Chained m) ↔
      ∀ i, i + 1 < 2 * k → (r.nibble.get (i + 1)).toNat / 16 = (r.nibble.get i).toNat % 16 ^^^ (i + 1) % 16 := by
  constructor
  · intro hall i hi
    refine (r.chained_iff i).mp ?_
    cases i with
    | zero => exact (hall 0 (by omega)).2
    | succ i => exact (hall i (by omega)).1
  · exact fun hall m hm => ⟨(r.chained_iff (m + 1)).mpr (hall (m + 1) (by omega)), (r.chained_iff m).mpr (hall m (by omega))⟩

/-- The bytes are cleared first. -/
def clearDst (r : Received n) (k : Nat) : Received n := { r with dst := r.dst.store 0 (List.replicate k 0) }

/-- The first byte is filled in last. -/
def fillFirst (r : Received n) : Received n := { r with dst := r.dst.set 0 (r.byte 0) }

omit hn in
/-- From two bytes on the check is the walk over the nibbles, and then the search for bytes that are not printable. -/
theorem smartCheck_many (r : Received n) {k : Nat} (hmany : 2 ≤ k) :
    let walk := (r.clearDst k).checkNibbles (2 * k - 2)
    (r.smartCheck (2 * k)).1 = (walk.1 && (walk.2.1.fillFirst.checkBytes 0 k).1) ∧
      (r.smartCheck (2 * k)).2.1 = if walk.1 then (walk.2.1.fillFirst.checkBytes 0 k).2.1 else walk.2.1 := by
  have hhalf : 2 * k / 2 = k := by omega
  rw [smartCheck, if_neg (by omega)]
  dsimp only
  rw [if_neg (by omega), if_neg (by omega), hhalf]
  change (if ((r.clearDst k).checkNibbles (2 * k - 2)).1 then _ else _ : Bool × Received n × List Access).1 = _ ∧
    (if ((r.clearDst k).checkNibbles (2 * k - 2)).1 then _ else _ : Bool × Received n × List Access).2.1 = _
  cases hwalk : ((r.clearDst k).checkNibbles (2 * k - 2)).1 with
  | true => exact ⟨rfl, rfl⟩
  | false => exact ⟨rfl, rfl⟩

theorem checksValid_many (r : Received n) {k : Nat} (hmany : 2 ≤ k) (hk : k ≤ n) : r.ChecksValid k := by
  obtain ⟨hok, hreceived⟩ := r.smartCheck_many hmany
  have hindex : 2 * k - 2 + 1 < 2 * n := by omega
  have hcodes : _ ↔ _ := (checkNibbles_iff (r.clearDst k) (2 * k - 2)).trans ((r.clearDst k).chained_all_iff hmany)
  have hkept := (r.clearDst k).checkNibbles_kept hn hindex
  have hcleared := (r.clearDst k).checkNibbles_cleared hn hindex
  rw [ChecksValid, hok, hreceived]
  generalize (r.clearDst k).checkNibbles (2 * k - 2) = walk at hcodes hkept hcleared ⊢
  cases hwalk : walk.1 with
  | false =>
    obtain ⟨m, hm, hgot⟩ := hcleared hwalk
    rw [Bool.false_and, if_neg Bool.false_ne_true]
    refine ⟨iff_of_false Bool.false_ne_true fun hvalid => ?_, fun h => absurd h Bool.false_ne_true, fun _ _ => ⟨m, by omega, hgot⟩⟩
    exact Bool.false_ne_true (hwalk.symm.trans (hcodes.mpr hvalid.1))
  | true =>
    obtain ⟨hnibble, hdst⟩ := hkept hwalk
    have hbyte : ∀ j, walk.2.1.byte j = r.byte j := fun j => by rw [byte, byte, hnibble]; rfl
    have hfilled : ∀ j < k, (walk.2.1.fillFirst.dst.get j).toNat = r.assembled j := fun j hj => by
      rw [← byte_toNat, fillFirst]
      obtain rfl | hpos := Nat.eq_zero_or_pos j
      · rw [Block.get_set _ _ (by omega), hbyte]
      · rw [Block.get_set_ne _ _ (by omega), hdst, if_pos (by omega)]
        rfl
    have hbytes := walk.2.1.fillFirst.checkBytes_iff 0 k
    rw [Bool.true_and, if_pos rfl]
    refine ⟨hbytes.trans ⟨fun hall => ⟨hcodes.mp hwalk, fun j hj => ?_⟩, fun hvalid j _ hj => ?_⟩, fun h j hj => ?_, fun h _ => ?_⟩
    · exact hfilled j hj ▸ hall j (Nat.zero_le j) (by omega)
    · have hj : j < k := by omega
      rw [hfilled j hj]
      exact hvalid.2 j hj
    · rw [checkBytes_kept _ _ _ h]
      exact hfilled j hj
    · obtain ⟨j, hj, hgot⟩ := checkBytes_cleared hn _ (by omega) h
      exact ⟨2 * j, by omega, hgot⟩

/-! ### A single byte -/

omit hn in
/-- The comparison as it is read. -/
theorem mistaken_iff (x y : UInt8) :
    x ≤ 0xF ∧ (x ^^^ 1) &&& (if 0xF = y.toNat / 16 then 1 else 0) ≠ 0 ↔ y.toNat / 16 = 15 ∧ x.toNat ≤ 15 ∧ x.toNat % 2 = 0 := by
  have hall : ∀ m ∈ List.range 256, ((UInt8.ofNat m ^^^ 1) &&& 1 ≠ 0 ↔ m % 2 = 0) := by decide +kernel
  have heven := hall x.toNat (List.mem_range.mpr x.toNat_lt)
  rw [UInt8.ofNat_toNat] at heven
  rw [UInt8.le_iff_toNat_le]
  by_cases htop : y.toNat / 16 = 15
  · rw [if_pos htop.symm, heven]
    exact (and_iff_right htop).symm
  · rw [if_neg (Ne.symm htop), UInt8.and_zero]
    exact iff_of_false (fun h => h.2 rfl) fun h => htop h.1

theorem checkOne_spec (r : Received n) (hpos : 0 < n) :
    (r.checkOne.1 = true ↔ (r.nibble.get 1).toNat / 16 = 15 ∧ (r.nibble.get 0).toNat ≤ 15 ∧ (r.nibble.get 0).toNat % 2 = 0) ∧
      (r.checkOne.1 = true → (r.checkOne.2.1.dst.get 0).toNat = r.assembled 0) ∧
      (r.checkOne.1 = false → ¬ r.checkOne.2.1.HasGot 0) := by
  rw [← mistaken_iff, checkOne]
  by_cases hmistaken : r.nibble.get 0 ≤ 0xF ∧ (r.nibble.get 0 ^^^ 1) &&& (if 0xF = (r.nibble.get 1).toNat / 16 then 1 else 0) ≠ 0
  · rw [if_pos hmistaken]
    refine ⟨iff_of_true rfl hmistaken, fun _ => ?_, fun h => absurd h.symm Bool.false_ne_true⟩
    exact (congrArg UInt8.toNat (Block.get_set r.dst _ hpos)).trans (byte_toNat r 0)
  · rw [if_neg hmistaken]
    refine ⟨iff_of_false Bool.false_ne_true hmistaken, fun h => absurd h Bool.false_ne_true, fun _ h => ?_⟩
    exact absurd ((hasGot_and r (k := 0) (by omega) _ _ _ h).2 rfl) (by decide)

omit hn in
theorem valid_one_iff (r : Received n) :
    r.Valid 1 ↔ (r.nibble.get 1).toNat / 16 = (r.nibble.get 0).toNat % 16 ^^^ 1 ∧ 0x20 ≤ r.assembled 0 ∧ r.assembled 0 ≤ 0x7E := by
  constructor
  · exact fun hvalid => ⟨hvalid.1 0 (by omega), hvalid.2 0 Nat.zero_lt_one⟩
  · rintro ⟨hcode, hprintable⟩
    refine ⟨fun i hi => ?_, fun j hj => ?_⟩
    · obtain rfl : i = 0 := by omega
      exact hcode
    · obtain rfl : j = 0 := by omega
      exact hprintable

theorem checksValid_one_iff (r : Received n) (hpos : 0 < n) : r.ChecksValid 1 ↔ r.SingleFits := by
  obtain ⟨hok, hdst, hcleared⟩ := checkOne_spec hn (r.clearDst 1) hpos
  have hcheck : (r.smartCheck (2 * 1)).1 = (checkOne (r.clearDst 1)).1 ∧
      (r.smartCheck (2 * 1)).2.1 = (checkOne (r.clearDst 1)).2.1 := ⟨rfl, rfl⟩
  have hrest : ((r.smartCheck (2 * 1)).1 = true → ∀ j < 1, ((r.smartCheck (2 * 1)).2.1.dst.get j).toNat = r.assembled j) ∧
      ((r.smartCheck (2 * 1)).1 = false → (∀ i < 2 * 1, r.HasGot i) → ∃ i < 2 * 1, ¬ (r.smartCheck (2 * 1)).2.1.HasGot i) := by
    rw [hcheck.1, hcheck.2]
    refine ⟨fun h j hj => ?_, fun h _ => ⟨0, by omega, hcleared h⟩⟩
    obtain rfl : j = 0 := by omega
    exact hdst h
  -- a byte that the branch accepts starts with the nibble 14, if its code is right, and is not printable
  have hdisjoint : ¬ ((r.nibble.get 1).toNat / 16 = 15 ∧ r.Valid 1) := by
    rintro ⟨htop, hvalid⟩
    obtain ⟨hcode, -, hprintable⟩ := (valid_one_iff r).mp hvalid
    have hall : ∀ m ∈ List.range 16, 15 = m ^^^ 1 → m = 14 := by decide
    have hfirst := hall _ (List.mem_range.mpr (Nat.mod_lt (r.nibble.get 0).toNat (by decide))) (htop.symm.trans hcode)
    rw [assembled, hfirst] at hprintable
    omega
  have hfits : r.SingleFits ↔ ¬ ((r.nibble.get 1).toNat / 16 = 15 ∧ (r.nibble.get 0).toNat ≤ 15 ∧ (r.nibble.get 0).toNat % 2 = 0) ∧
      ¬ r.Valid 1 := and_congr_right fun _ => not_congr (valid_one_iff r).symm
  rw [hfits]
  constructor
  · rintro ⟨haccepts, -⟩
    rw [hcheck.1, hok] at haccepts
    exact ⟨fun hmistaken => hdisjoint ⟨hmistaken.1, haccepts.mp hmistaken⟩,
      fun hvalid => hdisjoint ⟨(haccepts.mpr hvalid).1, hvalid⟩⟩
  · rintro ⟨hrefused, hinvalid⟩
    exact ⟨iff_of_false (fun h => hrefused (hok.mp (hcheck.1 ▸ h))) hinvalid, hrest⟩

end Cleared

/-- For nibbles of any number of bytes in buffers of any size: the check does what it should if and only if there is not
just one byte, or the branch for it judges that one right. -/
theorem checksValid_iff (hn : n % 4 = 0) (r : Received n) {k : Nat} (hpos : 1 ≤ k) (hk : k ≤ n) :
    r.ChecksValid k ↔ k ≠ 1 ∨ r.SingleFits := by
  obtain rfl | hmany := hpos.eq_or_lt
  · rw [checksValid_one_iff hn r (by omega), or_iff_right (not_not.mpr rfl)]
  · exact iff_of_true (checksValid_many hn r hmany hk) (Or.inl (by omega))

/-- Nibbles at the front of the buffers of a name, all received. -/
def ofNibbles (nibbles : List UInt8) : Received 32 :=
  ⟨(Block.fill 64 0).store 0 nibbles, Block.fill 8 0xFF, Block.fill 32 0⟩

/-- The name `ab`. -/
theorem checksValid_two_bytes : (ofNibbles [0x6, 0x71, 0x36, 0x52]).ChecksValid 2 :=
  (checksValid_iff (by decide) (ofNibbles [0x6, 0x71, 0x36, 0x52]) (by decide) (by decide)).mpr (Or.inl (by decide))

/-- The name `a` is valid and refused. -/
theorem single_refused : (ofNibbles [0x6, 0x71]).Valid 1 ∧ ((ofNibbles [0x6, 0x71]).smartCheck 2).1 = false ∧
    ¬ (ofNibbles [0x6, 0x71]).ChecksValid 1 := by
  have hvalid : (ofNibbles [0x6, 0x71]).Valid 1 := (valid_one_iff _).mpr (by decide)
  have hrefused : ((ofNibbles [0x6, 0x71]).smartCheck 2).1 = false := by decide
  exact ⟨hvalid, hrefused, fun hchecks => Bool.false_ne_true (hrefused.symm.trans (hchecks.1.mpr hvalid))⟩

end Received

end EspClock.Smart
