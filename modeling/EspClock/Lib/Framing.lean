import Mathlib.Data.List.Basic
import Mathlib.Tactic.Linarith

/-!
# Frames cut out of a stream through a bounded buffer

A framing says how long the frame at the head of a sequence is, as soon as enough of it is there.
`absorb` is what a receiver with a buffer of `cap` cells does with a chunk of a stream: fill the
buffer, hand over the frame at its head if that frame is complete, and go on as long as some of the
chunk is left. A frame that is complete when the chunk runs out is handed over, a second one behind
it stays in the buffer.

Three facts about it are used: on a stream of frames that fit the buffer nothing is lost, the number
of frames handed over is a function of lengths alone, and a frame that fills the buffer exactly is
handed over exactly when the unread bytes start with whole frames of which the last is such a frame.
-/

/-- A rule that reads off the length of the frame at the head of a sequence. -/
structure Framing (α : Type) where
  size : List α → Option Nat
  size_append : ∀ {t n} (u), size t = some n → size (t ++ u) = some n
  size_pos : ∀ {t n}, size t = some n → 0 < n
  size_take : ∀ {t n}, size t = some n → n ≤ t.length → size (t.take n) = some n

namespace Framing

variable {α : Type} (F : Framing α) (cap : Nat)

/-- A sequence that is one whole frame. -/
def Whole (f : List α) : Prop := F.size f = some f.length

variable {F} in
theorem Whole.ne_nil {f : List α} (h : F.Whole f) : f ≠ [] := by
  rintro rfl
  exact absurd (F.size_pos h) (lt_irrefl 0)

variable {F} in
theorem Whole.size_of_start {f t : List α} (h : F.Whole f) (hp : f <+: t) :
    F.size t = some f.length := by
  obtain ⟨u, rfl⟩ := hp
  exact F.size_append u h

variable {F} in
theorem Whole.size_within {f t : List α} {n : Nat} (h : F.Whole f) (hp : t <+: f)
    (hn : F.size t = some n) : n = f.length := by
  obtain ⟨u, rfl⟩ := hp
  exact Option.some.inj ((F.size_append u hn).symm.trans h)

/-- What is left in the buffer, what was handed over, and whether a byte was refused because the
buffer had no room for it. -/
structure Absorbed (α : Type) where
  pending : List α
  frames : List (List α)
  refused : Bool

/-- One chunk of a stream taken in through a buffer of `cap` cells. -/
def absorb (pending data : List α) : Absorbed α :=
  if min data.length (cap - pending.length) = 0 then ⟨pending, [], true⟩
  else
    let filled := pending ++ data.take (cap - pending.length)
    let rest := data.drop (cap - pending.length)
    match F.size filled with
    | none => ⟨filled, [], false⟩
    | some n =>
      if n ≤ filled.length then
        if rest = [] then ⟨filled.drop n, [filled.take n], false⟩
        else
          let next := absorb (filled.drop n) rest
          ⟨next.pending, filled.take n :: next.frames, next.refused⟩
      else if rest = [] then ⟨filled, [], false⟩ else absorb filled rest
termination_by data.length
decreasing_by all_goals (simp only [List.length_drop]; omega)

section Unfolding

variable {F cap} {pending data filled rest : List α} {n : Nat}

theorem absorb_stuck (h : min data.length (cap - pending.length) = 0) :
    F.absorb cap pending data = ⟨pending, [], true⟩ := by
  rw [absorb, if_pos h]

theorem absorb_undetermined (h : min data.length (cap - pending.length) ≠ 0)
    (hfilled : filled = pending ++ data.take (cap - pending.length)) (hsize : F.size filled = none) :
    F.absorb cap pending data = ⟨filled, [], false⟩ := by
  subst hfilled
  rw [absorb, if_neg h]
  simp only [hsize]

theorem absorb_complete_last (h : min data.length (cap - pending.length) ≠ 0)
    (hfilled : filled = pending ++ data.take (cap - pending.length)) (hsize : F.size filled = some n)
    (hn : n ≤ filled.length) (hrest : data.drop (cap - pending.length) = []) :
    F.absorb cap pending data = ⟨filled.drop n, [filled.take n], false⟩ := by
  subst hfilled
  rw [absorb, if_neg h]
  simp only [hsize, if_pos hn, if_pos hrest]

theorem absorb_complete (h : min data.length (cap - pending.length) ≠ 0)
    (hfilled : filled = pending ++ data.take (cap - pending.length)) (hsize : F.size filled = some n)
    (hn : n ≤ filled.length) (hrest : rest = data.drop (cap - pending.length)) (hne : rest ≠ []) :
    F.absorb cap pending data =
      ⟨(F.absorb cap (filled.drop n) rest).pending,
        filled.take n :: (F.absorb cap (filled.drop n) rest).frames,
        (F.absorb cap (filled.drop n) rest).refused⟩ := by
  subst hfilled hrest
  rw [absorb, if_neg h]
  simp only [hsize, if_pos hn, if_neg hne]

theorem absorb_partial_last (h : min data.length (cap - pending.length) ≠ 0)
    (hfilled : filled = pending ++ data.take (cap - pending.length)) (hsize : F.size filled = some n)
    (hn : filled.length < n) (hrest : data.drop (cap - pending.length) = []) :
    F.absorb cap pending data = ⟨filled, [], false⟩ := by
  subst hfilled
  rw [absorb, if_neg h]
  simp only [hsize, if_neg (Nat.not_le.mpr hn), if_pos hrest]

/-- A frame longer than the full buffer is never handed over: what is left of the chunk is lost. -/
theorem absorb_overlong (h : min data.length (cap - pending.length) ≠ 0)
    (hpending : pending.length ≤ cap)
    (hfilled : filled = pending ++ data.take (cap - pending.length)) (hsize : F.size filled = some n)
    (hn : filled.length < n) :
    F.absorb cap pending data = ⟨filled, [], data.drop (cap - pending.length) ≠ []⟩ := by
  by_cases hrest : data.drop (cap - pending.length) = []
  · rw [absorb_partial_last h hfilled hsize hn hrest]
    simp [hrest]
  · have hlong : cap - pending.length < data.length := by
      by_contra hle
      exact hrest (List.drop_of_length_le (by omega))
    have hfull : filled.length = cap := by
      rw [hfilled, List.length_append, List.length_take]
      omega
    rw [absorb, if_neg h]
    subst hfilled
    simp only [hsize, if_neg (Nat.not_le.mpr hn), if_neg hrest]
    rw [absorb_stuck (by rw [hfull]; omega)]
    simp [hrest]

/-- Nothing is handed over while the full buffer does not hold a whole frame. -/
theorem absorb_blocked (h : min data.length (cap - pending.length) ≠ 0) (hpending : pending.length ≤ cap)
    (hfilled : filled = pending ++ data.take (cap - pending.length))
    (hblocked : ∀ n, F.size filled = some n → filled.length < n) :
    ∃ refused, F.absorb cap pending data = ⟨filled, [], refused⟩ := by
  cases hsize : F.size filled with
  | none => exact ⟨_, absorb_undetermined h hfilled hsize⟩
  | some n => exact ⟨_, absorb_overlong h hpending hfilled hsize (hblocked n hsize)⟩

end Unfolding

/-- Behind a header that declares more than a buffer nothing is handed over, and the header stays where
it is, even when bytes behind it are lost. -/
theorem absorb_overlong_head {pending data later head : List α} {n : Nat} (hpending : pending.length ≤ cap)
    (hshort : head.length ≤ cap) (hsize : F.size head = some n) (hn : cap < n)
    (hstart : head <+: pending ++ (data ++ later)) :
    (F.absorb cap pending data).frames = [] ∧ head <+: (F.absorb cap pending data).pending ++ later := by
  by_cases hcopy : min data.length (cap - pending.length) = 0
  · rw [absorb_stuck hcopy]
    refine ⟨rfl, ?_⟩
    rcases Nat.lt_or_ge pending.length cap with hlt | hfull
    · obtain rfl : data = [] := List.length_eq_zero_iff.mp (by omega)
      exact hstart
    · exact (List.prefix_of_prefix_length_le hstart (List.prefix_append _ _) (by omega)).trans
        (List.prefix_append _ _)
  · obtain ⟨filled, hfilled⟩ : ∃ filled, filled = pending ++ data.take (cap - pending.length) := ⟨_, rfl⟩
    have hsplit : pending ++ (data ++ later) = filled ++ (data.drop (cap - pending.length) ++ later) := by
      rw [hfilled, List.append_assoc, ← List.append_assoc (data.take _), List.take_append_drop]
    have hlength : filled.length = min (pending.length + data.length) cap := by
      rw [hfilled, List.length_append, List.length_take]
      omega
    have hblocked : ∀ m, F.size filled = some m → filled.length < m := by
      intro m hm
      obtain ⟨u, hu⟩ := hstart
      have hsame : m = n :=
        Option.some.inj ((F.size_append _ hm).symm.trans (hsplit ▸ hu ▸ F.size_append u hsize))
      omega
    obtain ⟨refused, habsorb⟩ := absorb_blocked hcopy hpending hfilled hblocked
    rw [habsorb]
    refine ⟨rfl, ?_⟩
    rw [hsplit] at hstart
    rcases Nat.lt_or_ge filled.length cap with hlt | hfull
    · rwa [List.drop_of_length_le (by omega), List.nil_append] at hstart
    · exact (List.prefix_of_prefix_length_le hstart (List.prefix_append _ _) (by omega)).trans
        (List.prefix_append _ _)

/-! ### Frames that fit the buffer -/

/-- Every frame is whole and leaves at least one cell of the buffer free. -/
def Fits (frames : List (List α)) : Prop := ∀ f ∈ frames, F.Whole f ∧ f.length < cap

variable {F cap}

theorem Fits.tail {f : List α} {frames : List (List α)} (h : F.Fits cap (f :: frames)) :
    F.Fits cap frames := fun g hg => h g (List.mem_cons_of_mem f hg)

/-- How many of the frames a receiver hands over that finds `total` bytes of them: it stops at the
first frame it meets with the rest of the bytes in the buffer. -/
def handedOver (cap : Nat) : List Nat → Nat → Nat
  | [], _ => 0
  | l :: ls, total =>
    if total < l then 0 else if total ≤ cap then 1 else handedOver cap ls (total - l) + 1

/-- How many of the frames are complete in the first `total` bytes of them. -/
def completed : List Nat → Nat → Nat
  | [], _ => 0
  | l :: ls, total => if total < l then 0 else completed ls (total - l) + 1

theorem handedOver_le_length (cap : Nat) (lens : List Nat) (total : Nat) :
    handedOver cap lens total ≤ lens.length := by
  induction lens generalizing total with
  | nil => exact le_rfl
  | cons l ls ih =>
    rw [handedOver, List.length_cons]
    have := ih (total - l)
    split_ifs <;> omega

theorem completed_le_length (lens : List Nat) (total : Nat) :
    completed lens total ≤ lens.length := by
  induction lens generalizing total with
  | nil => exact le_rfl
  | cons l ls ih =>
    rw [completed, List.length_cons]
    have := ih (total - l)
    split_ifs <;> omega

/-- The state of the buffer after a chunk of a stream of frames that fit: the frames handed over are
the first ones, and what remains is in the buffer. -/
theorem absorb_fits {frames : List (List α)} (hfits : F.Fits cap frames)
    {pending data : List α} (hpending : pending.length < cap) (hdata : data ≠ [])
    (hstream : pending ++ data <+: frames.flatten) :
    (F.absorb cap pending data).frames =
        frames.take (handedOver cap (frames.map List.length) (pending.length + data.length)) ∧
      pending ++ data =
        (F.absorb cap pending data).frames.flatten ++ (F.absorb cap pending data).pending ∧
      (F.absorb cap pending data).pending.length < cap ∧
      (F.absorb cap pending data).refused = false := by
  induction hlen : data.length using Nat.strong_induction_on generalizing pending data frames with
  | _ len ih =>
  subst hlen
  have hpos : 0 < data.length := List.length_pos_iff.mpr hdata
  have hcopy : min data.length (cap - pending.length) ≠ 0 := by omega
  obtain ⟨filled, hfilled⟩ : ∃ filled, filled = pending ++ data.take (cap - pending.length) := ⟨_, rfl⟩
  have hsplit : pending ++ data = filled ++ data.drop (cap - pending.length) := by
    rw [hfilled, List.append_assoc, List.take_append_drop]
  have hfilledlen : filled.length = min (pending.length + data.length) cap := by
    rw [hfilled, List.length_append, List.length_take]
    omega
  have hstart : filled <+: frames.flatten :=
    (List.prefix_append filled _).trans (hsplit ▸ hstream)
  cases frames with
  | nil =>
    have hnil := List.prefix_nil.mp hstream
    exact absurd (List.append_eq_nil_iff.mp hnil).2 hdata
  | cons f frames =>
    obtain ⟨hwhole, hshort⟩ := hfits f List.mem_cons_self
    rw [List.flatten_cons] at hstart hstream
    by_cases hcomplete : f.length ≤ filled.length
    · have hhead : f <+: filled := List.prefix_of_prefix_length_le (List.prefix_append f _) hstart hcomplete
      have hsize := hwhole.size_of_start hhead
      obtain ⟨u, hu⟩ := hhead
      have htake : filled.take f.length = f := by rw [← hu]; exact List.take_left' rfl
      have hdrop : filled.drop f.length = u := by rw [← hu]; exact List.drop_left' rfl
      have hflen : 0 < f.length := List.length_pos_iff.mpr hwhole.ne_nil
      have hulen : u.length + f.length = filled.length := by rw [← hu, List.length_append]; omega
      have hnotlt : ¬ pending.length + data.length < f.length := by omega
      by_cases hrest : data.drop (cap - pending.length) = []
      · have hle : pending.length + data.length ≤ cap := by
          have := List.drop_eq_nil_iff.mp hrest
          omega
        rw [absorb_complete_last hcopy hfilled hsize hcomplete hrest, htake, hdrop, List.map_cons,
          handedOver, if_neg hnotlt, if_pos hle]
        refine ⟨rfl, ?_, by simp only; omega, rfl⟩
        rw [hsplit, hrest, ← hu]
        simp
      · have hlong : cap < pending.length + data.length := by
          by_contra hle
          exact hrest (List.drop_of_length_le (by omega))
        have hrestlen : (data.drop (cap - pending.length)).length < data.length := by
          rw [List.length_drop]
          omega
        have hstream' : u ++ data.drop (cap - pending.length) <+: frames.flatten := by
          rw [hsplit, ← hu, List.append_assoc] at hstream
          exact (List.prefix_append_right_inj f).mp hstream
        obtain ⟨hframes, hbytes, hroom, hrefused⟩ := ih _ hrestlen hfits.tail (by omega) hrest hstream' rfl
        have htotal : u.length + (data.drop (cap - pending.length)).length =
            pending.length + data.length - f.length := by
          rw [List.length_drop]
          omega
        rw [htotal] at hframes
        rw [absorb_complete hcopy hfilled hsize hcomplete rfl hrest, htake, hdrop, List.map_cons,
          handedOver, if_neg hnotlt, if_neg (by omega), List.take_succ_cons]
        refine ⟨by rw [hframes], ?_, hroom, hrefused⟩
        rw [hsplit, ← hu, List.flatten_cons, List.append_assoc, hbytes, List.append_assoc]
    · have hfitsAll : pending.length + data.length ≤ cap := by omega
      have hrest : data.drop (cap - pending.length) = [] := List.drop_of_length_le (by omega)
      have hpart : filled <+: f :=
        List.prefix_of_prefix_length_le hstart (List.prefix_append f _) (by omega)
      have habsorb : F.absorb cap pending data = ⟨filled, [], false⟩ := by
        cases hsize : F.size filled with
        | none => exact absorb_undetermined hcopy hfilled hsize
        | some n =>
          have hn := hwhole.size_within hpart hsize
          exact absorb_partial_last hcopy hfilled hsize (by omega) hrest
      rw [habsorb, List.map_cons, handedOver, if_pos (by omega), hsplit, hrest, List.append_nil]
      exact ⟨rfl, rfl, by simp only; omega, rfl⟩

/-! ### When every complete frame is handed over -/

private theorem completed_eq_zero_iff (ls : List Nat) (total : Nat) :
    completed ls total = 0 ↔ ∀ l ∈ ls.head?, total < l := by
  cases ls with
  | nil => simp [completed]
  | cons l ls =>
    rw [completed]
    split_ifs with h <;> simp [h]

/-- The receiver hands over every complete frame of a chunk exactly when, for any two consecutive
complete frames, more than a buffer of bytes was received from the start of the first one on. -/
theorem handedOver_eq_completed_iff (cap : Nat) (lens : List Nat) (total : Nat) :
    handedOver cap lens total = completed lens total ↔
      ∀ i, i + 1 < lens.length → (lens.take (i + 2)).sum ≤ total →
        cap < total - (lens.take i).sum := by
  induction lens generalizing total with
  | nil => simp [handedOver, completed]
  | cons l ls ih =>
    rw [handedOver, completed]
    by_cases hl : total < l
    · rw [if_pos hl, if_pos hl]
      refine ⟨fun _ i _ hi => ?_, fun _ => rfl⟩
      rw [List.take_succ_cons, List.sum_cons] at hi
      omega
    · rw [if_neg hl, if_neg hl]
      by_cases hcap : total ≤ cap
      · rw [if_pos hcap]
        have hone : 1 = completed ls (total - l) + 1 ↔ ∀ m ∈ ls.head?, total - l < m := by
          rw [← completed_eq_zero_iff]
          omega
        rw [hone]
        constructor
        · intro hhead i hi hsum
          cases ls with
          | nil => simp at hi
          | cons m ls =>
            have hm := hhead m rfl
            rw [List.take_succ_cons, List.take_succ_cons, List.sum_cons, List.sum_cons] at hsum
            omega
        · intro hall m hm
          cases ls with
          | nil => simp at hm
          | cons m' ls =>
            obtain rfl : m' = m := by simpa using hm
            by_contra hle
            have := hall 0 (by simp) (by simp; omega)
            simp at this
            omega
      · rw [if_neg hcap, Nat.add_right_cancel_iff, ih (total - l)]
        constructor
        · intro hall i hi hsum
          cases i with
          | zero => simpa using hcap
          | succ i =>
            rw [List.length_cons] at hi
            rw [List.take_succ_cons, List.sum_cons] at hsum ⊢
            have := hall i (by omega) (by omega)
            omega
        · intro hall i hi hsum
          have := hall (i + 1) (by rw [List.length_cons]; omega)
            (by rw [List.take_succ_cons, List.sum_cons]; omega)
          rw [List.take_succ_cons, List.sum_cons] at this
          omega

theorem sum_take_completed_le (lens : List Nat) (total : Nat) :
    (lens.take (completed lens total)).sum ≤ total := by
  induction lens generalizing total with
  | nil => simp
  | cons l ls ih =>
    rw [completed]
    split_ifs with h
    · simp
    · rw [List.take_succ_cons, List.sum_cons]
      have := ih (total - l)
      omega

theorem lt_completed_iff (lens : List Nat) (total i : Nat) (hi : i < lens.length) :
    i < completed lens total ↔ (lens.take (i + 1)).sum ≤ total := by
  induction lens generalizing total i with
  | nil => simp at hi
  | cons l ls ih =>
    rw [completed, List.take_succ_cons, List.sum_cons]
    split_ifs with h
    · constructor <;> intro <;> omega
    · cases i with
      | zero => simp; omega
      | succ i =>
        have := ih (total - l) i (by simpa using hi)
        omega

theorem completed_drop (lens : List Nat) (total k : Nat) (hk : k ≤ completed lens total) :
    completed lens total = k + completed (lens.drop k) (total - (lens.take k).sum) := by
  induction k generalizing lens total with
  | zero => simp
  | succ k ih =>
    cases lens with
    | nil => simp [completed] at hk
    | cons l ls =>
      rw [completed] at hk ⊢
      split_ifs at hk ⊢ with h
      · omega
      · rw [List.drop_succ_cons, List.take_succ_cons, List.sum_cons, ih ls (total - l) (by omega),
          Nat.sub_sub]
        omega

/-! ### Frames that fill the buffer -/

variable (F cap) in
/-- The bytes start with whole frames that fit the full buffer, the last of which fills it. -/
def Fills (u : List α) : Prop :=
  ∃ (frames : List (List α)) (last rest : List α), u = frames.flatten ++ (last ++ rest) ∧
    (∀ f ∈ frames, F.Whole f ∧ f.length ≤ cap) ∧ F.Whole last ∧ last.length = cap

theorem Fills.length_le {u : List α} (h : F.Fills cap u) : cap ≤ u.length := by
  obtain ⟨frames, last, rest, rfl, -, -, hlast⟩ := h
  rw [List.length_append, List.length_append]
  omega

/-- The frame at the head of bytes with a full frame further on fits the buffer. -/
theorem Fills.head {u : List α} (h : F.Fills cap u) :
    ∃ f, f <+: u ∧ F.Whole f ∧ f.length ≤ cap := by
  obtain ⟨frames, last, rest, rfl, hframes, hlast, hlen⟩ := h
  cases frames with
  | nil => exact ⟨last, List.prefix_append last rest, hlast, hlen.le⟩
  | cons f frames =>
    obtain ⟨hwhole, hle⟩ := hframes f List.mem_cons_self
    refine ⟨f, ?_, hwhole, hle⟩
    rw [List.flatten_cons, List.append_assoc]
    exact List.prefix_append f _

theorem fills_iff_of_head {f u : List α} (hwhole : F.Whole f) (hlt : f.length < cap) :
    F.Fills cap (f ++ u) ↔ F.Fills cap u := by
  constructor
  · rintro ⟨frames, last, rest, hsplit, hframes, hlast, hlen⟩
    have hsize : F.size (f ++ u) = some f.length := F.size_append u hwhole
    cases frames with
    | nil =>
      rw [hsplit, List.flatten_nil, List.nil_append, F.size_append rest hlast] at hsize
      have := Option.some.inj hsize
      omega
    | cons g frames =>
      obtain ⟨hg, -⟩ := hframes g List.mem_cons_self
      rw [List.flatten_cons, List.append_assoc] at hsplit
      rw [hsplit, F.size_append _ hg] at hsize
      obtain ⟨rfl, hu⟩ := List.append_inj hsplit (Option.some.inj hsize).symm
      exact ⟨frames, last, rest, hu, fun x hx => hframes x (List.mem_cons_of_mem _ hx), hlast, hlen⟩
  · rintro ⟨frames, last, rest, rfl, hframes, hlast, hlen⟩
    refine ⟨f :: frames, last, rest, by rw [List.flatten_cons, List.append_assoc], ?_, hlast, hlen⟩
    rintro g hg
    rcases List.mem_cons.mp hg with rfl | hg
    · exact ⟨hwhole, hlt.le⟩
    · exact hframes g hg

/-- A frame at the head fills the buffer, or what is behind it decides. -/
theorem fills_append_iff {f u : List α} (hwhole : F.Whole f) (hle : f.length ≤ cap) :
    F.Fills cap (f ++ u) ↔ f.length = cap ∨ F.Fills cap u := by
  obtain hlt | hcap := Nat.lt_or_eq_of_le hle
  · rw [fills_iff_of_head hwhole hlt, or_iff_right (Nat.ne_of_lt hlt)]
  · exact iff_of_true ⟨[], f, u, rfl, by simp, hwhole, hcap⟩ (Or.inl hcap)

/-- A full buffer holds no complete frame. -/
def Settled (F : Framing α) (cap : Nat) (pending : List α) : Prop :=
  pending.length < cap ∨ pending.length = cap ∧ ∀ n, F.size pending = some n → cap < n

theorem Settled.length_le {pending : List α} (h : F.Settled cap pending) : pending.length ≤ cap := by
  rcases h with h | h <;> omega

theorem not_fills_of_lt {u : List α} (h : u.length < cap) : ¬ F.Fills cap u :=
  fun hfills => absurd hfills.length_le (by omega)

/-- No frame of these bytes is ever complete in the buffer. -/
private theorem not_fills_of_blocked {filled rest : List α} (hlen : filled.length ≤ cap)
    (hrest : filled.length < cap → rest = []) (hsize : ∀ n, F.size filled = some n → filled.length < n) :
    ¬ F.Fills cap (filled ++ rest) := by
  intro hfills
  obtain ⟨f, hstart, hwhole, hle⟩ := hfills.head
  have hshort : f.length ≤ filled.length := by
    rcases Nat.lt_or_ge filled.length cap with h | h
    · rw [hrest h, List.append_nil] at hstart
      exact hstart.length_le
    · omega
  have := hsize f.length
    (hwhole.size_of_start (List.prefix_of_prefix_length_le hstart (List.prefix_append _ _) hshort))
  omega

/-- A chunk hands over a frame that fills the buffer exactly when the unread bytes start with whole
frames of which the last fills it. The buffer is again settled behind the chunk. -/
theorem absorb_fills (pending data : List α) (hsettled : F.Settled cap pending) :
    ((∃ f ∈ (F.absorb cap pending data).frames, f.length = cap) ↔ F.Fills cap (pending ++ data)) ∧
      F.Settled cap (F.absorb cap pending data).pending := by
  induction hlen : data.length using Nat.strong_induction_on generalizing pending data with
  | _ len ih =>
  subst hlen
  have hpending := hsettled.length_le
  by_cases hcopy : min data.length (cap - pending.length) = 0
  · rw [absorb_stuck hcopy]
    refine ⟨iff_of_false (by simp) ?_, hsettled⟩
    rcases hsettled with hlt | ⟨hfull, hsize⟩
    · obtain rfl : data = [] := List.length_eq_zero_iff.mp (by omega)
      rw [List.append_nil]
      exact not_fills_of_lt hlt
    · exact not_fills_of_blocked hpending (by omega) (fun n hn => by have := hsize n hn; omega)
  · obtain ⟨filled, hfilled⟩ : ∃ filled, filled = pending ++ data.take (cap - pending.length) := ⟨_, rfl⟩
    obtain ⟨rest, hrest⟩ : ∃ rest, rest = data.drop (cap - pending.length) := ⟨_, rfl⟩
    have hsplit : pending ++ data = filled ++ rest := by
      rw [hfilled, hrest, List.append_assoc, List.take_append_drop]
    have hfilledlen : filled.length = min (pending.length + data.length) cap := by
      rw [hfilled, List.length_append, List.length_take]
      omega
    have hnone : filled.length < cap → rest = [] := fun h => by
      rw [hrest]
      exact List.drop_of_length_le (by omega)
    rw [hsplit]
    by_cases hblocked : ∀ n, F.size filled = some n → filled.length < n
    · obtain ⟨refused, habsorb⟩ := absorb_blocked hcopy hpending hfilled hblocked
      rw [habsorb]
      refine ⟨iff_of_false (by simp) (not_fills_of_blocked (by omega) hnone hblocked), ?_⟩
      rcases Nat.lt_or_ge filled.length cap with h | h
      · exact Or.inl h
      · exact Or.inr ⟨by simp only; omega, fun n hn => by have := hblocked n hn; omega⟩
    · simp only [not_forall, not_lt] at hblocked
      obtain ⟨n, hsize, hn⟩ := hblocked
      have hpos := F.size_pos hsize
      have hwhole : F.Whole (filled.take n) := by
        rw [Whole, F.size_take hsize hn, List.length_take, Nat.min_eq_left hn]
      have hheadlen : (filled.take n).length = n := by rw [List.length_take, Nat.min_eq_left hn]
      have hbytes : filled ++ rest = filled.take n ++ (filled.drop n ++ rest) := by
        rw [← List.append_assoc, List.take_append_drop]
      have hdroplen : (filled.drop n).length < cap := by rw [List.length_drop]; omega
      rw [hbytes, fills_append_iff hwhole (by omega), hheadlen]
      by_cases hnil : rest = []
      · rw [absorb_complete_last hcopy hfilled hsize hn (hrest ▸ hnil), hnil, List.append_nil,
          or_iff_left (not_fills_of_lt hdroplen)]
        refine ⟨?_, Or.inl hdroplen⟩
        simp only [List.mem_singleton, exists_eq_left, hheadlen]
      · rw [absorb_complete hcopy hfilled hsize hn hrest hnil]
        have hshort : rest.length < data.length := by rw [hrest, List.length_drop]; omega
        obtain ⟨hiff, hnext⟩ := ih _ hshort (filled.drop n) rest (Or.inl hdroplen) rfl
        refine ⟨?_, hnext⟩
        simp only [List.mem_cons, exists_eq_or_imp, hheadlen, hiff]

end Framing
