import Mathlib.Data.List.Basic

/-!
# Streams of blocks with alignment

A program that writes a stream hands blocks of bytes to a writer, which may refuse one; from the first refusal on
nothing more is written. Between the blocks it fills up with single zeros until the number of bytes is a multiple of the
alignment. `exec` runs such a program and is `none` where a filling loop never ends; `blocks` and `layout` say what a
writer that takes everything gets.

The second half is about reading. `Codes` relates a program to a parser: behind a state that holds the bytes of the
program the parser gives the value and leaves what follows, and in front of a proper part of the bytes it fails for want
of input. The rules follow the parser's own shape: return, sequence, repetition and alignment.
-/

namespace Serial

inductive Op
  | block (bytes : List UInt8)
  | fail (status : Int)
  | align
deriving DecidableEq

/-- A writer takes a block and answers with a status, which is zero if it took the block. -/
abbrev Writer (σ : Type) := List UInt8 → σ → Int × σ

structure Sink (σ : Type) where
  status : Int
  wrote : Nat
  data : σ

section Writing

variable {σ : Type} (u : Nat) (write : Writer σ)

/-- A block goes to the writer unless there was an error. -/
def put (D : Sink σ) (b : List UInt8) : Sink σ :=
  if D.status = 0 then ⟨(write b D.data).1, D.wrote + b.length, (write b D.data).2⟩ else D

/-- The loop that fills up with zeros. Its first argument bounds the turns; `none` stands for no end. -/
def fill : Nat → Sink σ → Option (Sink σ)
  | 0, D => if D.wrote % u = 0 then some D else none
  | turns + 1, D => if D.wrote % u = 0 then some D else fill turns (put write D [0])

def exec : List Op → Sink σ → Option (Sink σ)
  | [], D => some D
  | .block b :: ops, D => exec ops (put write D b)
  | .fail status :: ops, D => exec ops { D with status }
  | .align :: ops, D => (fill u write u D).bind (exec ops)

/-- The writer gets one block after another. -/
def feed (D : Sink σ) (bs : List (List UInt8)) : Sink σ := bs.foldl (put write) D

/-- The number of zeros up to the next multiple. -/
def padding (w : Nat) : Nat := (u - w % u) % u

/-- The blocks of a program from a certain offset on. -/
def blocks : Nat → List Op → List (List UInt8)
  | _, [] => []
  | w, .block b :: ops => b :: blocks (w + b.length) ops
  | w, .fail _ :: ops => blocks w ops
  | w, .align :: ops => List.replicate (padding u w) [0] ++ blocks (w + padding u w) ops

def layout (w : Nat) (ops : List Op) : List UInt8 := (blocks u w ops).flatten

/-- A program that records no error of its own. -/
def NoFail (ops : List Op) : Prop := ∀ status, Op.fail status ∉ ops

@[simp] theorem noFail_nil : NoFail [] := fun _ => List.not_mem_nil

@[simp] theorem noFail_block_cons {b : List UInt8} {ops : List Op} : NoFail (.block b :: ops) ↔ NoFail ops := by
  simp [NoFail]

@[simp] theorem noFail_align_cons {ops : List Op} : NoFail (.align :: ops) ↔ NoFail ops := by simp [NoFail]

@[simp] theorem noFail_append {ops ops' : List Op} : NoFail (ops ++ ops') ↔ NoFail ops ∧ NoFail ops' := by
  simp [NoFail, forall_and]

@[simp] theorem noFail_flatMap {ι : Type} {is : List ι} {ops : ι → List Op} :
    NoFail (is.flatMap ops) ↔ ∀ i ∈ is, NoFail (ops i) := by
  simp only [NoFail, List.mem_flatMap, not_exists, not_and]
  exact ⟨fun h i hi status => h status i hi, fun h status i hi => h i hi status⟩

@[simp] theorem feed_nil (D : Sink σ) : feed write D [] = D := rfl

@[simp] theorem feed_cons (D : Sink σ) (b : List UInt8) (bs : List (List UInt8)) :
    feed write D (b :: bs) = feed write (put write D b) bs := rfl

theorem feed_append (D : Sink σ) (bs cs : List (List UInt8)) :
    feed write D (bs ++ cs) = feed write (feed write D bs) cs := List.foldl_append

theorem put_of_status {D : Sink σ} (hD : D.status ≠ 0) (b : List UInt8) : put write D b = D := if_neg hD

theorem feed_of_status {D : Sink σ} (hD : D.status ≠ 0) (bs : List (List UInt8)) : feed write D bs = D := by
  induction bs with
  | nil => rfl
  | cons b bs ih => rw [feed_cons, put_of_status write hD, ih]

/-! ### Layout -/

section Layout

variable {u}

theorem padding_of_aligned {w : Nat} (hw : w % u = 0) : padding u w = 0 := by simp [padding, hw]

theorem padding_succ {w : Nat} (hu : 0 < u) (hw : w % u ≠ 0) : padding u w = padding u (w + 1) + 1 := by
  have hlt := Nat.mod_lt w hu
  have hsucc : (w + 1) % u = (w % u + 1) % u := by simp [Nat.add_mod]
  rw [padding, padding, hsucc, Nat.mod_eq_of_lt (by omega : u - w % u < u)]
  rcases Nat.lt_or_ge (w % u + 1) u with hlast | hlast
  · rw [Nat.mod_eq_of_lt hlast, Nat.mod_eq_of_lt (by omega : u - (w % u + 1) < u)]
    omega
  · have hend : w % u + 1 = u := by omega
    rw [hend]
    simp only [Nat.mod_self, Nat.sub_zero]
    omega

theorem add_padding_mod {w : Nat} (hu : 0 < u) : (w + padding u w) % u = 0 := by
  have hlt := Nat.mod_lt w hu
  rw [padding, Nat.add_mod, Nat.mod_mod, ← Nat.add_mod, Nat.add_mod]
  rcases Nat.eq_zero_or_pos (w % u) with hzero | hpos
  · simp [hzero]
  · rw [Nat.mod_eq_of_lt (by omega : u - w % u < u), Nat.add_sub_cancel' (Nat.le_of_lt hlt), Nat.mod_self]

theorem padding_le {w : Nat} (hu : 0 < u) : padding u w ≤ u := Nat.le_of_lt (Nat.mod_lt _ hu)

@[simp] theorem layout_nil (w : Nat) : layout u w [] = [] := rfl

theorem layout_block (w : Nat) (b : List UInt8) : layout u w [.block b] = b := by simp [layout, blocks]

theorem layout_align (w : Nat) : layout u w [.align] = List.replicate (padding u w) 0 := by
  simp [layout, blocks, List.flatten_replicate_singleton]

theorem blocks_append (w : Nat) (ops ops' : List Op) :
    blocks u w (ops ++ ops') = blocks u w ops ++ blocks u (w + (layout u w ops).length) ops' := by
  induction ops generalizing w with
  | nil => rfl
  | cons op ops ih =>
    cases op with
    | block b => simp [blocks, layout, ih, Nat.add_assoc]
    | fail status => simpa [blocks, layout] using ih w
    | align => simp [blocks, layout, ih, Nat.add_assoc, List.flatten_replicate_singleton]

theorem layout_append (w : Nat) (ops ops' : List Op) :
    layout u w (ops ++ ops') = layout u w ops ++ layout u (w + (layout u w ops).length) ops' := by
  rw [layout, blocks_append, List.flatten_append]
  rfl

/-- Blocks in a row are as good as one. -/
theorem layout_flatMap_block {ι : Type} (w : Nat) (is : List ι) (f : ι → List UInt8) :
    layout u w (is.flatMap fun i => [.block (f i)]) = is.flatMap f := by
  induction is generalizing w with
  | nil => rfl
  | cons i is ih => rw [List.flatMap_cons, List.flatMap_cons, layout_append, layout_block, ih]

/-- Only the offset within the alignment matters. -/
theorem blocks_congr {w w' : Nat} (hw : w % u = w' % u) (ops : List Op) : blocks u w ops = blocks u w' ops := by
  induction ops generalizing w w' with
  | nil => rfl
  | cons op ops ih =>
    cases op with
    | block b =>
      show b :: _ = b :: _
      rw [ih]
      rw [Nat.add_mod, hw, ← Nat.add_mod]
    | fail status => exact ih hw
    | align =>
      have hpad : padding u w = padding u w' := by rw [padding, padding, hw]
      show _ ++ _ = _ ++ _
      rw [hpad, ih]
      rw [Nat.add_mod, hw, ← Nat.add_mod]

end Layout

/-! ### Runs -/

section Runs

variable {u write}

theorem status_of_feed {D : Sink σ} {bs : List (List UInt8)} (h : (feed write D bs).status = 0) : D.status = 0 := by
  by_contra hD
  rw [feed_of_status write hD] at h
  exact hD h

/-- As long as nothing is refused, every byte counts. -/
theorem wrote_of_feed {D : Sink σ} {bs : List (List UInt8)} (h : (feed write D bs).status = 0) :
    (feed write D bs).wrote = D.wrote + bs.flatten.length := by
  induction bs generalizing D with
  | nil => rfl
  | cons b bs ih =>
    have hput := ih h
    have hD := status_of_feed h
    rw [feed_cons, hput, put, if_pos hD, List.flatten_cons, List.length_append, Nat.add_assoc]

theorem feed_blocks_offset {E : Sink σ} {w : Nat} (h : E.status = 0 → E.wrote = w) {ops : List Op} :
    feed write E (blocks u E.wrote ops) = feed write E (blocks u w ops) := by
  by_cases hE : E.status = 0
  · rw [h hE]
  · rw [feed_of_status write hE, feed_of_status write hE]

theorem exec_append (ops ops' : List Op) (D : Sink σ) :
    exec u write (ops ++ ops') D = (exec u write ops D).bind (exec u write ops') := by
  induction ops generalizing D with
  | nil => rfl
  | cons op ops ih =>
    cases op with
    | block b => exact ih _
    | fail status => exact ih _
    | align =>
      rw [List.cons_append, exec, exec, Option.bind_assoc]
      congr 1
      funext E
      exact ih E

theorem fill_aligned {turns : Nat} {D D' : Sink σ} (h : fill u write turns D = some D') : D'.wrote % u = 0 := by
  induction turns generalizing D with
  | zero =>
    rw [fill] at h
    split at h
    · cases h
      assumption
    · cases h
  | succ turns ih =>
    rw [fill] at h
    split at h
    · cases h
      assumption
    · exact ih h

/-- Blocks of whole multiples leave the number of bytes a multiple. -/
theorem exec_aligned {tail : List Op} {D D' : Sink σ} (hD : D.wrote % u = 0)
    (htail : ∀ op ∈ tail, ∃ b : List UInt8, op = .block b ∧ b.length % u = 0) (h : exec u write tail D = some D') :
    D'.wrote % u = 0 := by
  induction tail generalizing D with
  | nil =>
    cases h
    exact hD
  | cons op tail ih =>
    obtain ⟨b, rfl, hb⟩ := htail op List.mem_cons_self
    refine ih ?_ (fun op hop => htail op (List.mem_cons_of_mem _ hop)) h
    rw [put]
    split
    · simp [Nat.add_mod, hD, hb]
    · exact hD

theorem fill_of_status {D : Sink σ} (hD : D.status ≠ 0) (turns : Nat) :
    fill u write turns D = if D.wrote % u = 0 then some D else none := by
  induction turns with
  | zero => rfl
  | succ turns ih =>
    rw [fill, put_of_status write hD, ih]
    split <;> rfl

variable (hu : 0 < u)

include hu

/-- The loop hands out the zeros that are missing. It ends unless one of them, or a block before, was refused and left the
number of bytes between two multiples. -/
theorem fill_eq {turns : Nat} {D : Sink σ} (hturns : padding u D.wrote ≤ turns) :
    fill u write turns D =
      if (feed write D (List.replicate (padding u D.wrote) [0])).wrote % u = 0 then
        some (feed write D (List.replicate (padding u D.wrote) [0])) else none := by
  induction turns generalizing D with
  | zero =>
    have hzero : padding u D.wrote = 0 := Nat.le_zero.mp hturns
    rw [hzero]
    rfl
  | succ turns ih =>
    by_cases hD : D.wrote % u = 0
    · rw [padding_of_aligned hD, fill, if_pos hD, List.replicate_zero, feed_nil, if_pos hD]
    · rw [fill, if_neg hD]
      by_cases hstatus : D.status = 0
      · have hnext : (put write D [0]).wrote = D.wrote + 1 := by simp [put, hstatus]
        have hpad := padding_succ hu hD
        rw [hpad, List.replicate_succ, feed_cons, ← hnext]
        apply ih
        rw [hnext]
        omega
      · rw [put_of_status write hstatus, fill_of_status hstatus, feed_of_status write hstatus]

/-- Where the loop has no end, the state stays as it is after some turns and its number of bytes is no multiple. -/
theorem fill_eq_none {D : Sink σ} (h : fill u write u D = none) :
    (feed write D (List.replicate (padding u D.wrote) [0])).status ≠ 0 ∧
      (feed write D (List.replicate (padding u D.wrote) [0])).wrote % u ≠ 0 := by
  rw [fill_eq hu (padding_le hu)] at h
  have hwrote : (feed write D (List.replicate (padding u D.wrote) [0])).wrote % u ≠ 0 := by
    intro hzero
    rw [if_pos hzero] at h
    cases h
  refine ⟨?_, hwrote⟩
  intro hstatus
  apply hwrote
  rw [wrote_of_feed hstatus, List.flatten_replicate_singleton, List.length_replicate]
  exact add_padding_mod hu

/-- A run hands the writer the blocks of the program in order. It has an end unless a block was refused and left the number
of bytes between two multiples. -/
theorem exec_spec {ops : List Op} (hops : NoFail ops) (D : Sink σ) :
    exec u write ops D = some (feed write D (blocks u D.wrote ops)) ∨
      exec u write ops D = none ∧ (feed write D (blocks u D.wrote ops)).status ≠ 0 ∧
        (feed write D (blocks u D.wrote ops)).wrote % u ≠ 0 := by
  induction ops generalizing D with
  | nil => exact .inl rfl
  | cons op ops ih =>
    have hrest : NoFail ops := fun status hmem => hops status (List.mem_cons_of_mem _ hmem)
    cases op with
    | block b =>
      have hstep := ih hrest (put write D b)
      have hput : (put write D b).status = 0 → (put write D b).wrote = D.wrote + b.length := by
        intro hstatus
        have hone : (feed write D [b]).status = 0 := hstatus
        simpa using wrote_of_feed hone
      rw [feed_blocks_offset hput] at hstep
      exact hstep
    | fail status => exact absurd List.mem_cons_self (hops status)
    | align =>
      rw [exec, blocks, feed_append]
      have hfill := @fill_eq _ _ write hu u D (padding_le hu)
      by_cases haligned : (feed write D (List.replicate (padding u D.wrote) [0])).wrote % u = 0
      · rw [hfill, if_pos haligned, Option.bind_some]
        have hstep := ih hrest (feed write D (List.replicate (padding u D.wrote) [0]))
        rw [feed_blocks_offset] at hstep
        · exact hstep
        · intro hstatus
          rw [wrote_of_feed hstatus, List.flatten_replicate_singleton, List.length_replicate]
      · rw [hfill, if_neg haligned, Option.bind_none]
        obtain ⟨hstatus, -⟩ := fill_eq_none hu (hfill.trans (if_neg haligned))
        rw [feed_of_status write hstatus]
        exact .inr ⟨rfl, hstatus, haligned⟩

/-- A writer that takes every block of the program makes the run end. -/
theorem exec_of_taken {ops : List Op} (hops : NoFail ops) {D : Sink σ}
    (htaken : (feed write D (blocks u D.wrote ops)).status = 0) :
    exec u write ops D = some (feed write D (blocks u D.wrote ops)) := by
  rcases exec_spec hu hops D with h | ⟨-, hstatus, -⟩
  · exact h
  · exact absurd htaken hstatus

/-- A program that ends aligned runs on for ever exactly if the first refused block ends between two multiples. -/
theorem exec_eq_none_iff {ops tail : List Op} (hops : NoFail (ops ++ .align :: tail))
    (htail : ∀ op ∈ tail, ∃ b : List UInt8, op = .block b ∧ b.length % u = 0) (D : Sink σ) :
    exec u write (ops ++ .align :: tail) D = none ↔
      (feed write D (blocks u D.wrote (ops ++ .align :: tail))).wrote % u ≠ 0 := by
  constructor
  · intro hnone
    rcases exec_spec hu hops D with h | ⟨-, -, hwrote⟩
    · rw [hnone] at h
      cases h
    · exact hwrote
  · intro hwrote
    rcases exec_spec hu hops D with h | ⟨h, -, -⟩
    · exfalso
      apply hwrote
      rw [exec_append] at h
      obtain ⟨E, -, hE⟩ := Option.bind_eq_some_iff.mp h
      obtain ⟨F, hF, hlast⟩ := Option.bind_eq_some_iff.mp hE
      exact exec_aligned (fill_aligned hF) htail hlast
    · exact h

omit hu

/-- The writer that takes everything. -/
def gather : Writer (List UInt8) := fun b d => (0, d ++ b)

theorem feed_gather (w : Nat) (d : List UInt8) (bs : List (List UInt8)) :
    feed gather ⟨0, w, d⟩ bs = ⟨0, w + bs.flatten.length, d ++ bs.flatten⟩ := by
  induction bs generalizing w d with
  | nil => simp
  | cons b bs ih =>
    rw [feed_cons]
    show feed gather ⟨0, w + b.length, d ++ b⟩ bs = _
    rw [ih, List.flatten_cons, List.length_append, Nat.add_assoc, List.append_assoc]

/-- A writer into a file whose contents grow by a leading part of the block, by all of it where the block is taken. -/
def Appends (write : Writer σ) (contents : σ → List UInt8) : Prop :=
  ∀ b d, ∃ t, t <+: b ∧ contents (write b d).2 = contents d ++ t ∧ ((write b d).1 = 0 → t = b)

/-- What such a file gets is a leading part of all blocks. -/
theorem feed_appends {contents : σ → List UInt8} (hwrite : Appends write contents) (D : Sink σ) (bs : List (List UInt8)) :
    ∃ t, t <+: bs.flatten ∧ contents (feed write D bs).data = contents D.data ++ t ∧
      ((feed write D bs).status = 0 → t = bs.flatten) := by
  induction bs generalizing D with
  | nil => exact ⟨[], List.nil_prefix, by simp, fun _ => rfl⟩
  | cons b bs ih =>
    by_cases hD : D.status = 0
    · obtain ⟨t, ht, hcontents, htaken⟩ := hwrite b D.data
      rw [feed_cons]
      by_cases hput : (put write D b).status = 0
      · have hb := htaken (by simpa [put, hD] using hput)
        obtain ⟨t', ht', hcontents', htaken'⟩ := ih (put write D b)
        refine ⟨b ++ t', ?_, ?_, ?_⟩
        · rw [List.flatten_cons]
          exact (List.prefix_append_right_inj b).mpr ht'
        · rw [hcontents', put, if_pos hD, hcontents, hb, List.append_assoc]
        · intro hstatus
          rw [htaken' hstatus, List.flatten_cons]
      · refine ⟨t, ?_, ?_, ?_⟩
        · exact ht.trans (List.prefix_append b _)
        · rw [feed_of_status write hput, put, if_pos hD, hcontents]
        · intro hstatus
          exact absurd (status_of_feed hstatus) hput
    · refine ⟨[], List.nil_prefix, ?_, ?_⟩
      · rw [feed_of_status write hD, List.append_nil]
      · intro hstatus
        exact absurd (status_of_feed hstatus) hD

end Runs

end Writing

section Reading

/-- How a state holds an input, and how many bytes were taken before. -/
structure View (S : Type) where
  holds : S → List UInt8 → Prop
  offset : S → Nat

variable {ε S : Type} {α β : Type}

/-- The parser reads back what the program writes. -/
structure Codes (u : Nat) (V : View S) (short : ε) (ops : List Op) (p : StateT S (Except ε) α) (a : α) : Prop where
  whole : ∀ {x s}, V.holds x (layout u (V.offset x) ops ++ s) → ∃ y, p x = .ok (a, y) ∧ V.holds y s ∧
    V.offset y = V.offset x + (layout u (V.offset x) ops).length
  cut : ∀ {x t}, V.holds x t → t <+: layout u (V.offset x) ops → t ≠ layout u (V.offset x) ops → p x = .error short

/-- A parser over and over, and the values it gives. -/
def times (p : StateT S (Except ε) α) : Nat → StateT S (Except ε) (List α)
  | 0 => pure []
  | n + 1 => do
    let a ← p
    let as ← times p n
    return a :: as

/-- Single bytes up to the next multiple of the alignment. -/
def skip (u : Nat) (offset : S → Nat) (p : StateT S (Except ε) α) : Nat → StateT S (Except ε) Unit
  | 0 => pure ()
  | turns + 1 => do
    let st ← get
    if offset st % u = 0 then pure ()
    else
      let _ ← p
      skip u offset p turns

theorem skip_of_aligned {u : Nat} {offset : S → Nat} {p : StateT S (Except ε) α} {st : S} (h : offset st % u = 0)
    (turns : Nat) : skip u offset p (turns + 1) st = .ok ((), st) := by
  show (if offset st % u = 0 then Pure.pure () else _ : StateT S (Except ε) Unit) st = _
  rw [if_pos h]
  rfl

theorem skip_of_not_aligned {u : Nat} {offset : S → Nat} {p : StateT S (Except ε) α} {st : S} (h : offset st % u ≠ 0)
    (turns : Nat) : skip u offset p (turns + 1) st = (p st >>= fun r => skip u offset p turns r.2) := by
  show (if offset st % u = 0 then _ else _ : StateT S (Except ε) Unit) st = _
  rw [if_neg h]
  rfl

namespace Codes

variable {u : Nat} {V : View S} {short : ε}

theorem pure (a : α) : Codes u V short [] (Pure.pure a) a where
  whole h := ⟨_, rfl, h, rfl⟩
  cut _ ht hne := absurd (List.prefix_nil.mp ht) hne

theorem bind {ops ops' : List Op} {p : StateT S (Except ε) α} {q : α → StateT S (Except ε) β} {a : α} {b : β}
    (hp : Codes u V short ops p a) (hq : Codes u V short ops' (q a) b) :
    Codes u V short (ops ++ ops') (p >>= q) b where
  whole {st s} h := by
    rw [layout_append, List.append_assoc] at h
    obtain ⟨st₁, hrun, hrest, hoffset⟩ := hp.whole h
    rw [← hoffset] at hrest
    obtain ⟨st₂, hrun', hrest', hoffset'⟩ := hq.whole hrest
    refine ⟨st₂, ?_, hrest', ?_⟩
    · show (p st >>= fun r => q r.1 r.2) = _
      rw [hrun]
      exact hrun'
    · rw [hoffset', hoffset, layout_append, List.length_append, Nat.add_assoc]
  cut {st t} h ht hne := by
    show (p st >>= fun r => q r.1 r.2) = _
    rw [layout_append] at ht hne
    rcases Nat.lt_or_ge t.length (layout u (V.offset st) ops).length with hshort | hlong
    · have hfirst : t <+: layout u (V.offset st) ops :=
        List.prefix_of_prefix_length_le ht (List.prefix_append _ _) (Nat.le_of_lt hshort)
      rw [hp.cut h hfirst (fun heq => absurd hshort (by simp [heq]))]
      rfl
    · obtain ⟨t', rfl⟩ := List.prefix_of_prefix_length_le (List.prefix_append _ _) ht hlong
      obtain ⟨st₁, hrun, hrest, hoffset⟩ := hp.whole h
      rw [hrun]
      refine hq.cut hrest ?_ ?_
      · rw [hoffset]
        exact (List.prefix_append_right_inj _).mp ht
      · rw [hoffset]
        intro heq
        exact hne (congrArg _ heq)

theorem map (f : α → β) {ops : List Op} {p : StateT S (Except ε) α} {a : α} (hp : Codes u V short ops p a) :
    Codes u V short ops (f <$> p) (f a) := by
  have hmap := hp.bind (q := fun a => Pure.pure (f a)) (pure (f a))
  rw [List.append_nil] at hmap
  exact hmap

/-- Only the bytes of a program matter. -/
theorem congr {ops ops' : List Op} (hops : ∀ w, layout u w ops = layout u w ops') {p : StateT S (Except ε) α} {a : α}
    (hp : Codes u V short ops p a) : Codes u V short ops' p a where
  whole {st s} h := by
    rw [← hops] at h ⊢
    exact hp.whole h
  cut {st t} h ht hne := by
    rw [← hops] at ht hne
    exact hp.cut h ht hne

theorem times {ι : Type} {ops : ι → List Op} {p : StateT S (Except ε) α} {v : ι → α} (is : List ι)
    (hp : ∀ i ∈ is, Codes u V short (ops i) p (v i)) :
    Codes u V short (is.flatMap ops) (times p is.length) (is.map v) := by
  induction is with
  | nil => exact pure []
  | cons i is ih =>
    have hrest := ih (fun i hi => hp i (List.mem_cons_of_mem _ hi))
    have hboth := hrest.bind (q := fun as => Pure.pure (v i :: as)) (pure (v i :: is.map v))
    rw [List.append_nil] at hboth
    exact (hp i List.mem_cons_self).bind hboth

theorem skip {p : StateT S (Except ε) α} {a : α} (hu : 0 < u) (hp : Codes u V short [.block [0]] p a) :
    Codes u V short [.align] (skip u V.offset p u) () := by
  suffices hturns : ∀ turns, ∀ st : S, padding u (V.offset st) ≤ turns →
      (∀ s, V.holds st (List.replicate (padding u (V.offset st)) 0 ++ s) → ∃ st', Serial.skip u V.offset p turns st = .ok ((), st') ∧
        V.holds st' s ∧ V.offset st' = V.offset st + padding u (V.offset st)) ∧
      ∀ n < padding u (V.offset st), V.holds st (List.replicate n 0) → Serial.skip u V.offset p turns st = .error short by
    constructor
    · intro st s h
      rw [layout_align] at h ⊢
      rw [List.length_replicate]
      exact (hturns u st (padding_le hu)).1 s h
    · intro st t h ht hne
      rw [layout_align] at ht hne
      have hzeros := List.eq_replicate_iff.mpr ⟨rfl, fun b hb => List.eq_of_mem_replicate (ht.subset hb)⟩
      have hlt : t.length < padding u (V.offset st) := by
        have hle := ht.length_le
        rw [List.length_replicate] at hle
        refine Nat.lt_of_le_of_ne hle ?_
        intro heq
        rw [heq] at hzeros
        exact hne hzeros
      rw [hzeros] at h
      exact (hturns u st (padding_le hu)).2 _ hlt h
  intro turns
  induction turns with
  | zero =>
    intro st hzero
    rw [Nat.le_zero.mp hzero]
    exact ⟨fun s h => ⟨st, rfl, h, rfl⟩, fun n hn => absurd hn (Nat.not_lt_zero n)⟩
  | succ turns ih =>
    intro st hpad
    by_cases haligned : V.offset st % u = 0
    · rw [padding_of_aligned haligned, skip_of_aligned haligned]
      exact ⟨fun s h => ⟨st, rfl, h, rfl⟩, fun n hn => absurd hn (Nat.not_lt_zero n)⟩
    · have hsucc := padding_succ hu haligned
      have hbyte : layout u (V.offset st) [.block [0]] = [0] := layout_block _ _
      have hnext : ∀ s, V.holds st (0 :: s) → ∃ st₁, p st = .ok (a, st₁) ∧ V.holds st₁ s ∧
          V.offset st₁ = V.offset st + 1 := by
        intro s h
        have hwhole := hp.whole (x := st) (s := s) (by rw [hbyte]; exact h)
        rw [hbyte] at hwhole
        exact hwhole
      rw [hsucc] at hpad
      rw [skip_of_not_aligned haligned, hsucc]
      constructor
      · intro s h
        obtain ⟨st₁, hp₁, hrest, hoffset⟩ := hnext _ h
        rw [← hoffset] at hrest hpad ⊢
        obtain ⟨st', hrun', hs, hoffset'⟩ := (ih st₁ (by omega)).1 s hrest
        refine ⟨st', ?_, hs, by rw [hoffset', hoffset]; omega⟩
        rw [hp₁]
        exact hrun'
      · intro n hn h
        cases n with
        | zero =>
          rw [hp.cut h List.nil_prefix (by rw [hbyte]; exact List.cons_ne_nil _ _ ∘ Eq.symm)]
          rfl
        | succ n =>
          obtain ⟨st₁, hp₁, hrest, hoffset⟩ := hnext _ h
          rw [← hoffset] at hn hpad
          rw [hp₁]
          exact (ih st₁ (by omega)).2 n (by omega) hrest

end Codes

end Reading

end Serial
