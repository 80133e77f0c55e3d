import EspClock.Smart.Detect

/-!
# Indices of the decoder

The lengths of the name and of the password that a round starts with bound every index that `detect` and `smart_check`
use. A length is checked when it is learned first; one that replaces another is not, and lengths above 32 and 64 lead
out of the buffers.
-/

namespace EspClock.Smart

open Mem

def Access.InBounds (n : Nat) : Access → Prop
  | .nibble i => i < 2 * n
  | .got i => i < 2 * n / 8
  | .dst i => i < n

def SmartAccess.InBounds : SmartAccess → Prop
  | .ssid a => a.InBounds 32
  | .password a => a.InBounds 64

instance (n : Nat) : DecidablePred (Access.InBounds n)
  | .nibble _ | .got _ | .dst _ => inferInstanceAs (Decidable (_ < _))

instance : DecidablePred SmartAccess.InBounds
  | .ssid a => inferInstanceAs (Decidable (a.InBounds 32))
  | .password a => inferInstanceAs (Decidable (a.InBounds 64))

/-- Lengths of a name and a password that fit. -/
def AddrMap.Fits (a : AddrMap) : Prop := a.ssidLen ≤ 32 ∧ a.pwdLen ≤ 64

/-- A length that replaces another one fits, once it is stored. -/
def AddrMap.RelearnsFitting (a : AddrMap) (f : Frame) : Prop :=
  a.baseSeqValid = true → a.seqDelta f.seq ≤ a.roundEnd →
    (a.seqDelta f.seq = 1 → a.ssidLen ≠ 0 → int8 (int16 (f.body - lFlag)) ≤ 32) ∧
      (a.seqDelta f.seq = a.ssidEnd + 1 + 1 → a.pwdLen ≠ 0 → int8 (int16 (f.body - lFlag)) ≤ 64)

instance (a : AddrMap) (f : Frame) : Decidable (a.RelearnsFitting f) := inferInstanceAs (Decidable (_ → _ → _))

/-- No frame of the matched pair replaces a length by one that does not fit. -/
def Fitting (s : Decoder) : SmartEvent → Prop
  | .frame f =>
    match s.matched with
    | none => True
    | some k =>
      s.running = true → f.Accepted → (s.am.getD k .reset).addr = f.addr → (s.am.getD k .reset).RelearnsFitting f
  | _ => True

instance (s : Decoder) : DecidablePred (Fitting s)
  | .frame f => by
    unfold Fitting
    cases s.matched with
    | none => exact instDecidableTrue
    | some k => exact inferInstanceAs (Decidable (_ → _ → _ → _))
  | .nextChannel | .begin _ | .end => instDecidableTrue

/-! ### Nibbles -/

namespace Received

variable {n : Nat} (hn : n % 4 = 0)

include hn in
theorem got_lt {i : Nat} (hi : i < 2 * n) : i / 8 < 2 * n / 8 := by omega

include hn in
theorem keep_in_bounds (r : Received n) {i : Nat} (hi : i < 2 * n) (c : UInt8) : ∀ a ∈ (r.keep i c).2, a.InBounds n := by
  have hgot : (Access.got (i / 8)).InBounds n := got_lt hn hi
  rw [keep]
  split_ifs
  · exact List.forall_mem_singleton.mpr hgot
  · exact List.forall_mem_cons.mpr ⟨hgot, List.forall_mem_singleton.mpr hi⟩

include hn in
theorem forget_in_bounds (r : Received n) {i : Nat} (hi : i < 2 * n) : ∀ a ∈ (r.forget i).2, a.InBounds n := by
  have hgot : (Access.got (i / 8)).InBounds n := got_lt hn hi
  exact List.forall_mem_cons.mpr ⟨hi, List.forall_mem_singleton.mpr hgot⟩

include hn in
theorem complete_in_bounds (r : Received n) {i count : Nat} (hcount : i + count ≤ 2 * n) :
    ∀ a ∈ (r.complete i count).2, a.InBounds n := by
  induction count generalizing i with
  | zero => exact fun _ ha => absurd ha List.not_mem_nil
  | succ count ih =>
    have hgot : (Access.got (i / 8)).InBounds n := got_lt hn (by omega)
    rw [complete]
    split_ifs
    · exact List.forall_mem_cons.mpr ⟨hgot, ih (by omega)⟩
    · exact List.forall_mem_singleton.mpr hgot

/-! ### `smart_check` -/

include hn in
theorem checkNibbles_in_bounds (r : Received n) {i : Nat} (hi : i + 1 < 2 * n) :
    ∀ a ∈ (r.checkNibbles i).2.2, a.InBounds n := by
  induction i generalizing r with
  | zero => exact fun _ ha => absurd ha List.not_mem_nil
  | succ i ih =>
    have hreads : ∀ a ∈ ([.nibble (i + 1), .nibble (i + 2), .nibble i] : List Access), a.InBounds n := by
      simp only [List.forall_mem_cons, Access.InBounds]
      exact ⟨by omega, by omega, by omega, fun _ ha => absurd ha List.not_mem_nil⟩
    rw [checkNibbles]
    split_ifs
    · simp only [List.forall_mem_append]
      exact ⟨⟨⟨hreads, forget_in_bounds hn _ (by omega)⟩, forget_in_bounds hn _ (by omega)⟩, forget_in_bounds hn _ hi⟩
    · have hdst : (Access.dst ((i + 1) / 2)).InBounds n := by
        rw [Access.InBounds]
        omega
      exact List.forall_mem_append.mpr ⟨hreads, List.forall_mem_cons.mpr ⟨hdst, ih _ (by omega)⟩⟩
    · exact List.forall_mem_append.mpr ⟨hreads, ih _ (by omega)⟩

include hn in
theorem checkBytes_in_bounds (r : Received n) {i count : Nat} (hcount : i + count ≤ n) :
    ∀ a ∈ (r.checkBytes i count).2.2, a.InBounds n := by
  induction count generalizing r i with
  | zero => exact fun _ ha => absurd ha List.not_mem_nil
  | succ count ih =>
    have hdst : (Access.dst i).InBounds n := by
      rw [Access.InBounds]
      omega
    rw [checkBytes]
    split_ifs
    · have haccesses : ∀ a ∈ ([.dst i, .nibble (2 * i), .nibble (2 * i + 1), .got (2 * i / 8)] : List Access),
          a.InBounds n := by
        simp only [List.forall_mem_cons, Access.InBounds]
        exact ⟨by omega, by omega, by omega, by omega, fun _ ha => absurd ha List.not_mem_nil⟩
      exact List.forall_mem_append.mpr ⟨haccesses, ih _ (by omega)⟩
    · exact List.forall_mem_cons.mpr ⟨hdst, ih _ (by omega)⟩

include hn in
theorem checkOne_in_bounds (r : Received n) (hpos : 0 < n) : ∀ a ∈ r.checkOne.2.2, a.InBounds n := by
  have hreads : ∀ a ∈ ([.nibble 0, .nibble 1] : List Access), a.InBounds n := by
    simp only [List.forall_mem_cons, Access.InBounds]
    exact ⟨by omega, by omega, fun _ ha => absurd ha List.not_mem_nil⟩
  have hgot : (Access.got 0).InBounds n := by
    rw [Access.InBounds]
    omega
  rw [checkOne]
  generalize (if 0xF = (r.nibble.get 1).toNat / 16 then (1 : UInt8) else 0) = top
  split_ifs
  · exact List.forall_mem_append.mpr ⟨hreads, List.forall_mem_singleton.mpr hpos⟩
  · exact List.forall_mem_append.mpr ⟨hreads, List.forall_mem_singleton.mpr hgot⟩

include hn in
theorem smartCheck_in_bounds (r : Received n) {len : Nat} (hlen : len ≤ 2 * n) :
    ∀ a ∈ (r.smartCheck len).2.2, a.InBounds n := by
  have hcleared : ∀ a ∈ (List.range (len / 2)).map Access.dst, a.InBounds n := by
    intro a ha
    obtain ⟨i, hi, rfl⟩ := List.mem_map.mp ha
    have hlt := List.mem_range.mp hi
    rw [Access.InBounds]
    omega
  by_cases hzero : len = 0
  · rw [smartCheck, if_pos hzero]
    exact fun _ ha => absurd ha List.not_mem_nil
  rw [smartCheck, if_neg hzero]
  dsimp only
  split_ifs with hodd htwo hok
  · exact hcleared
  · exact List.forall_mem_append.mpr ⟨hcleared, checkOne_in_bounds hn _ (by omega)⟩
  · have hbyte : ∀ a ∈ ([.nibble 0, .nibble 1, .dst 0] : List Access), a.InBounds n := by
      simp only [List.forall_mem_cons, Access.InBounds]
      exact ⟨by omega, by omega, by omega, fun _ ha => absurd ha List.not_mem_nil⟩
    simp only [List.forall_mem_append]
    exact ⟨⟨⟨hcleared, checkNibbles_in_bounds hn _ (by omega)⟩, hbyte⟩, checkBytes_in_bounds hn _ (by omega)⟩
  · exact List.forall_mem_append.mpr ⟨hcleared, checkNibbles_in_bounds hn _ (by omega)⟩

end Received

/-! ### The matched pair -/

variable {n : Nat} {a : AddrMap} {b : Buffers} {f : Frame}

theorem AddrMap.Fits.invalid (h : a.Fits) : a.invalid.Fits := h

theorem AddrMap.Fits.base (h : a.Fits) (seq : Int) : (a.base seq).Fits := h

theorem AddrMap.Fits.expect (h : a.Fits) (length : Int) : (a.expect f length).Fits := by
  rw [AddrMap.expect]
  split_ifs
  · exact h
  · exact h

theorem learnSsidLen_fits (h : a.Fits) (hfit : a.ssidLen ≠ 0 → int8 (int16 (f.body - lFlag)) ≤ 32) :
    (a.learnSsidLen f).Fits := by
  rw [AddrMap.learnSsidLen]
  dsimp only
  split_ifs with hunknown hlen
  · exact ⟨hlen.1, h.2⟩
  · exact h
  · exact ⟨hfit hunknown, h.2⟩
  · exact h

theorem learnPwdLen_fits (h : a.Fits) (hfit : a.pwdLen ≠ 0 → int8 (int16 (f.body - lFlag)) ≤ 64) :
    (a.learnPwdLen f).Fits := by
  rw [AddrMap.learnPwdLen]
  dsimp only
  split_ifs with hunknown hlen
  · exact ⟨h.1, hlen.1⟩
  · exact h
  · exact ⟨h.1, hfit hunknown⟩
  · exact h

theorem content_fits (h : a.Fits) (r : Received n) (offset : Int) : (a.content r f offset).2.1.Fits := by
  rw [AddrMap.content]
  dsimp only
  split_ifs
  · exact h
  · exact h
  · exact h
  · exact h
  · exact h

/-- The nibble that a frame stands for is one of those that the length announces. -/
theorem uint16_tdiv_lt {offset len : Int} (hlow : -2 ≤ offset) (hhigh : offset ≤ 6 * len - 1) (hlen : len ≤ n)
    (hn : n < 2 ^ 8) (hm : uint16 (offset.tmod 3) = 0) : uint16 (offset.tdiv 3) < 2 * n := by
  obtain rfl | rfl | hpos : offset = -2 ∨ offset = -1 ∨ 0 ≤ offset := by omega
  · exact absurd hm (by decide)
  · exact absurd hm (by decide)
  · rw [uint16, Int.tdiv_eq_ediv_of_nonneg hpos]
    omega

theorem content_in_bounds (hn : n % 4 = 0) (hsmall : n < 2 ^ 8) (r : Received n) (offset len : Int) (hlow : -2 ≤ offset)
    (hhigh : offset ≤ 6 * len - 1) (hlen : len ≤ n) : ∀ x ∈ (a.content r f offset).2.2.2, x.InBounds n := by
  rw [AddrMap.content]
  dsimp only
  split_ifs with hm
  · exact List.forall_mem_nil _
  · exact r.keep_in_bounds hn (uint16_tdiv_lt hlow hhigh hlen hsmall hm) _
  · exact List.forall_mem_nil _
  · exact List.forall_mem_nil _
  · exact List.forall_mem_nil _

theorem forall_ssid {accesses : List Access} (h : ∀ x ∈ accesses, x.InBounds 32) :
    ∀ x ∈ accesses.map SmartAccess.ssid, x.InBounds := by
  intro x hx
  obtain ⟨y, hy, rfl⟩ := List.mem_map.mp hx
  exact h y hy

theorem forall_password {accesses : List Access} (h : ∀ x ∈ accesses, x.InBounds 64) :
    ∀ x ∈ accesses.map SmartAccess.password, x.InBounds := by
  intro x hx
  obtain ⟨y, hy, rfl⟩ := List.mem_map.mp hx
  exact h y hy

theorem finish_in_bounds (h : a.Fits) : ∀ x ∈ (a.finish b).2.2, x.InBounds := by
  obtain ⟨hssid, hpwd⟩ := h
  have hssidNibbles : (2 * a.ssidLen).toNat ≤ 2 * 32 := by omega
  have hpwdNibbles : (2 * a.pwdLen).toNat ≤ 2 * 64 := by omega
  have hreads : ∀ x ∈ (b.ssid.complete 0 (2 * a.ssidLen).toNat).2.map SmartAccess.ssid ++
      (b.password.complete 0 (2 * a.pwdLen).toNat).2.map SmartAccess.password, x.InBounds :=
    List.forall_mem_append.mpr ⟨forall_ssid (b.ssid.complete_in_bounds rfl (by omega)),
      forall_password (b.password.complete_in_bounds rfl (by omega))⟩
  have hssidCheck := forall_ssid (b.ssid.smartCheck_in_bounds rfl hssidNibbles)
  have hpwdCheck := forall_password (b.password.smartCheck_in_bounds rfl hpwdNibbles)
  rw [AddrMap.finish]
  dsimp only
  split_ifs
  · exact List.forall_mem_append.mpr ⟨List.forall_mem_append.mpr ⟨hreads, hssidCheck⟩, hpwdCheck⟩
  · exact List.forall_mem_append.mpr ⟨hreads, hssidCheck⟩
  · exact hreads

/-- A frame behind those that every round starts with, in front of the round's end. -/
theorem collect_spec (h : a.Fits) {seqDelta : Int} (hlow : 4 ≤ seqDelta) (hhigh : seqDelta ≤ a.roundEnd)
    (hflag : seqDelta ≠ a.ssidEnd + 1) (hlen : seqDelta ≠ a.ssidEnd + 1 + 1) :
    (a.collect b f seqDelta).2.1.Fits ∧ ∀ x ∈ (a.collect b f seqDelta).2.2.2, x.InBounds := by
  obtain ⟨hssid, hpwd⟩ := h
  rw [AddrMap.roundEnd] at hhigh
  rw [AddrMap.collect]
  by_cases hzone : seqDelta ≤ a.ssidEnd
  · rw [if_pos hzone]
    rw [AddrMap.ssidEnd] at hzone
    have hfits := content_fits (a := a) (f := f) ⟨hssid, hpwd⟩ b.ssid (seqDelta - 1 - 2 - 1)
    have hcontent := forall_ssid (content_in_bounds (a := a) (f := f) rfl (by decide) b.ssid
      (seqDelta - 1 - 2 - 1) a.ssidLen (by omega) (by omega) hssid)
    dsimp only
    split_ifs
    · exact ⟨hfits, List.forall_mem_append.mpr ⟨hcontent, finish_in_bounds hfits⟩⟩
    · exact ⟨hfits, hcontent⟩
  · rw [if_neg hzone]
    rw [AddrMap.ssidEnd] at hzone hhigh hflag hlen
    have hfits := content_fits (a := a) (f := f) ⟨hssid, hpwd⟩ b.password (seqDelta - 1 - a.ssidEnd - 2 - 2)
    have hcontent := forall_password (content_in_bounds (a := a) (f := f) rfl (by decide) b.password
      (seqDelta - 1 - a.ssidEnd - 2 - 2) a.pwdLen (by rw [AddrMap.ssidEnd]; omega)
      (by rw [AddrMap.ssidEnd]; omega) hpwd)
    dsimp only
    split_ifs
    · exact ⟨hfits, List.forall_mem_append.mpr ⟨hcontent, finish_in_bounds hfits⟩⟩
    · exact ⟨hfits, hcontent⟩

theorem detect_spec (h : a.Fits) (hfit : a.RelearnsFitting f) :
    (a.detect b f).2.1.Fits ∧ ∀ x ∈ (a.detect b f).2.2.2, x.InBounds := by
  rw [AddrMap.detect]
  by_cases hvalid : a.baseSeqValid = false
  · rw [if_pos hvalid]
    refine ⟨?_, List.forall_mem_nil _⟩
    dsimp only
    split_ifs
    · exact h
    · exact h
  rw [if_neg hvalid]
  by_cases hnegative : a.seqDelta f.seq < 0
  · rw [if_pos hnegative]
    exact ⟨h, List.forall_mem_nil _⟩
  rw [if_neg hnegative]
  by_cases hzero : a.seqDelta f.seq = 0
  · rw [if_pos hzero]
    refine ⟨?_, List.forall_mem_nil _⟩
    dsimp only
    split_ifs
    · exact h
    · exact h
  rw [if_neg hzero]
  by_cases hround : a.roundEnd < a.seqDelta f.seq
  · rw [if_pos hround]
    refine ⟨?_, List.forall_mem_nil _⟩
    dsimp only
    split_ifs
    · exact h
    · exact h
  rw [if_neg hround]
  obtain ⟨hssidLen, hpwdLen⟩ := hfit (Bool.eq_true_of_not_eq_false hvalid) (not_lt.mp hround)
  by_cases hone : a.seqDelta f.seq = 1
  · rw [if_pos hone]
    exact ⟨learnSsidLen_fits h (hssidLen hone), List.forall_mem_nil _⟩
  rw [if_neg hone]
  by_cases hsep : a.seqDelta f.seq = 2 ∨ a.seqDelta f.seq = 3
  · rw [if_pos hsep]
    exact ⟨h.expect _, List.forall_mem_nil _⟩
  rw [if_neg hsep]
  by_cases hflag : a.seqDelta f.seq = a.ssidEnd + 1
  · rw [if_pos hflag]
    exact ⟨h.expect _, List.forall_mem_nil _⟩
  rw [if_neg hflag]
  by_cases hlen : a.seqDelta f.seq = a.ssidEnd + 1 + 1
  · rw [if_pos hlen]
    exact ⟨learnPwdLen_fits h (hpwdLen hlen), List.forall_mem_nil _⟩
  rw [if_neg hlen]
  exact collect_spec h (by omega) (not_lt.mp hround) hflag hlen

/-! ### Runs -/

theorem look_fits (h : a.Fits) : (a.look f).1.Fits := by
  rw [AddrMap.look]
  dsimp only
  split_ifs <;> exact h

theorem search_fits {am : List AddrMap} (h : ∀ a ∈ am, a.Fits) : ∀ a ∈ (search f am).1, a.Fits := by
  induction am with
  | nil => exact h
  | cons a rest ih =>
    obtain ⟨ha, hrest⟩ := List.forall_mem_cons.mp h
    rw [search]
    by_cases hnew : a.flagMatchNum = 0
    · rw [if_pos hnew]
      refine List.forall_mem_cons.mpr ⟨?_, hrest⟩
      split_ifs
      · exact ha
      · exact ha
    · rw [if_neg hnew]
      by_cases haddr : a.addr = f.addr
      · rw [if_pos haddr]
        exact List.forall_mem_cons.mpr ⟨look_fits ha, hrest⟩
      · rw [if_neg haddr]
        exact List.forall_mem_cons.mpr ⟨ha, ih hrest⟩

theorem reset_fits : AddrMap.reset.Fits := ⟨by decide, by decide⟩

theorem resetMap_fits : ∀ a ∈ resetMap, a.Fits := fun _ ha => (List.eq_of_mem_replicate ha) ▸ reset_fits

theorem getD_fits {am : List AddrMap} (h : ∀ a ∈ am, a.Fits) (k : Nat) : (am.getD k .reset).Fits := by
  rw [List.getD_eq_getElem?_getD]
  cases hk : am[k]? with
  | none => exact reset_fits
  | some a => exact h a (List.mem_of_getElem? hk)

/-- The lengths of all pairs fit. -/
def Decoder.Fits (s : Decoder) : Prop := ∀ a ∈ s.am, a.Fits

theorem frame_spec {s : Decoder} (h : s.Fits) (hrunning : s.running = true) (hfit : Fitting s (.frame f)) :
    (s.detect f).1.Fits ∧ ∀ x ∈ (s.detect f).2, x.InBounds := by
  rw [Decoder.detect]
  by_cases haccepted : f.Accepted
  · rw [if_neg (not_not.mpr haccepted)]
    rw [Fitting] at hfit
    cases hmatched : s.matched with
    | none => exact ⟨search_fits h, List.forall_mem_nil _⟩
    | some k =>
      rw [hmatched] at hfit
      dsimp only at hfit ⊢
      by_cases haddr : (s.am.getD k .reset).addr = f.addr
      · rw [if_neg (not_not.mpr haddr)]
        obtain ⟨hfits, haccesses⟩ := detect_spec (b := s.buffers) (getD_fits h k) (hfit hrunning haccepted haddr)
        refine ⟨?_, haccesses⟩
        dsimp only
        split_ifs
        · exact resetMap_fits
        · intro a ha
          rcases List.mem_or_eq_of_mem_set ha with hmem | rfl
          · exact h a hmem
          · exact hfits
      · rw [if_pos haddr]
        exact ⟨h, List.forall_mem_nil _⟩
  · rw [if_pos haccepted]
    exact ⟨h, List.forall_mem_nil _⟩

theorem step_spec (s : Decoder) (e : SmartEvent) (h : s.Fits) (hfit : Fitting s e) :
    (smart.next s e).Fits ∧ ∀ x ∈ smart.actions s e, x.InBounds := by
  cases e with
  | frame f =>
    by_cases hrunning : s.running = true
    · have hstep : smart.step s (.frame f) = s.detect f := if_pos hrunning
      rw [Machine.next, Machine.actions, hstep]
      exact frame_spec h hrunning hfit
    · have hstep : smart.step s (.frame f) = (s, []) := if_neg hrunning
      rw [Machine.next, Machine.actions, hstep]
      exact ⟨h, List.forall_mem_nil _⟩
  | nextChannel =>
    by_cases hfires : s.running = true ∧ s.timer = true
    · have hstep : smart.step s .nextChannel = ({ s with am := resetMap, buffers := .empty }, []) := if_pos hfires
      rw [Machine.next, Machine.actions, hstep]
      exact ⟨resetMap_fits, List.forall_mem_nil _⟩
    · have hstep : smart.step s .nextChannel = (s, []) := if_neg hfires
      rw [Machine.next, Machine.actions, hstep]
      exact ⟨h, List.forall_mem_nil _⟩
  | begin memory =>
    refine ⟨?_, ?_⟩
    · show (smart.step s (.begin memory)).1.Fits
      dsimp only [smart]
      split_ifs
      · exact resetMap_fits
      · exact resetMap_fits
      · exact resetMap_fits
    · show ∀ x ∈ (smart.step s (.begin memory)).2, x.InBounds
      dsimp only [smart]
      split_ifs
      · exact List.forall_mem_nil _
      · exact List.forall_mem_nil _
      · exact List.forall_mem_nil _
  | «end» => exact ⟨resetMap_fits, List.forall_mem_nil _⟩

/-- As long as the lengths that replace others fit, every index that `detect` and `smart_check` use is in bounds. -/
theorem smart_in_bounds (es : List SmartEvent) (hok : smart.Along Fitting .off es) :
    ∀ x ∈ smart.trace .off es, x.InBounds := by
  rw [Machine.forall_trace_iff]
  exact Machine.along_of_step (fun s e h hok => (step_spec s e h hok).1) (fun s e h hok => (step_spec s e h hok).2)
    resetMap_fits hok

/-- A data frame with a sequence number and a length. -/
def frameOf (seq len : Nat) : SmartEvent :=
  .frame ⟨⟨[0x88, 0x41] ++ List.replicate 20 0 ++ [UInt8.ofNat (seq % 16 * 16), UInt8.ofNat (seq / 16)], by simp⟩,
    UInt16.ofNat (82 + len)⟩

/-- The frames up to the first round of a matched pair whose name has five bytes. -/
def matchedPair : List SmartEvent :=
  [.begin true, frameOf 0 1399, frameOf 1 0, frameOf 2 3, frameOf 10 1399, frameOf 11 (28 + 5)]

/-- The first nibble of a name. -/
theorem smart_in_bounds_first_nibble :
    .ssid (.nibble 0) ∈ smart.trace .off (matchedPair ++ [frameOf 12 3, frameOf 13 23, frameOf 14 (593 + 6)]) ∧
      ∀ x ∈ smart.trace .off (matchedPair ++ [frameOf 12 3, frameOf 13 23, frameOf 14 (593 + 6)]), x.InBounds :=
  ⟨by decide +kernel, smart_in_bounds _ (by decide +kernel)⟩

/-- After a length of 100 in place of the first one, the 65th nibble lies behind the buffer. -/
theorem smart_out_of_bounds : ¬ ∀ (es : List SmartEvent), ∀ x ∈ smart.trace .off es, x.InBounds := by
  intro hall
  have hbound := hall (matchedPair ++ [frameOf 11 (28 + 100), frameOf 10 1399, frameOf 206 593]) (.ssid (.nibble 64))
    (by decide +kernel)
  exact absurd hbound (by decide)

end EspClock.Smart
