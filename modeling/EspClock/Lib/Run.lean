import Mathlib.Data.List.Basic
import Mathlib.Order.Nat

/-!
# Runs of a machine

A machine takes one event at a time and leaves a list of actions behind. A property of a run is
stated about the states it goes through, about the steps it takes or about the actions it leaves;
the rules below reduce all three to one step.
-/

/-- A deterministic machine: an event changes the state and leaves a list of actions. -/
structure Machine (S E A : Type) where
  step : S → E → S × List A

namespace Machine

variable {S E A : Type} (M : Machine S E A)

def next (s : S) (e : E) : S := (M.step s e).1

def actions (s : S) (e : E) : List A := (M.step s e).2

/-- The state after a sequence of events. -/
def final (s : S) : List E → S
  | [] => s
  | e :: es => final (M.next s e) es

/-- All actions of a sequence of events. -/
def trace (s : S) : List E → List A
  | [] => []
  | e :: es => M.actions s e ++ trace (M.next s e) es

/-- Every step of the run meets a condition on the state before it and its event. -/
def Along (ok : S → E → Prop) (s : S) : List E → Prop
  | [] => True
  | e :: es => ok s e ∧ Along ok (M.next s e) es

instance decidableAlong {ok : S → E → Prop} [∀ s e, Decidable (ok s e)] : ∀ (s : S) (es : List E), Decidable (M.Along ok s es)
  | _, [] => instDecidableTrue
  | s, e :: es => @instDecidableAnd _ _ _ (decidableAlong (M.next s e) es)

/-- Every state of the run, the first and the last included, has a property. -/
def Always (P : S → Prop) (s : S) : List E → Prop
  | [] => P s
  | e :: es => P s ∧ Always P (M.next s e) es

@[simp] theorem final_nil (s : S) : M.final s [] = s := rfl

@[simp] theorem final_cons (s : S) (e : E) (es : List E) :
    M.final s (e :: es) = M.final (M.next s e) es := rfl

@[simp] theorem trace_nil (s : S) : M.trace s [] = [] := rfl

@[simp] theorem trace_cons (s : S) (e : E) (es : List E) :
    M.trace s (e :: es) = M.actions s e ++ M.trace (M.next s e) es := rfl

theorem final_append (s : S) (es fs : List E) :
    M.final s (es ++ fs) = M.final (M.final s es) fs := by
  induction es generalizing s with
  | nil => rfl
  | cons e es ih => exact ih _

theorem trace_append (s : S) (es fs : List E) :
    M.trace s (es ++ fs) = M.trace s es ++ M.trace (M.final s es) fs := by
  induction es generalizing s with
  | nil => rfl
  | cons e es ih => rw [List.cons_append, trace_cons, ih, trace_cons, List.append_assoc, final_cons]

variable {M}

theorem Always.head {P : S → Prop} {s : S} {es : List E} (h : M.Always P s es) : P s := by
  cases es with
  | nil => exact h
  | cons e es => exact h.1

theorem Always.last {P : S → Prop} {s : S} {es : List E} (h : M.Always P s es) : P (M.final s es) := by
  induction es generalizing s with
  | nil => exact h
  | cons e es ih => exact ih h.2

theorem Always.mono {P Q : S → Prop} (hPQ : ∀ s, P s → Q s) {s : S} {es : List E}
    (h : M.Always P s es) : M.Always Q s es := by
  induction es generalizing s with
  | nil => exact hPQ s h
  | cons e es ih => exact ⟨hPQ s h.1, ih h.2⟩

/-- A step within a condition is good in the states of an invariant, so a run within it is good at
every step. -/
theorem along_of_step {I : S → Prop} {ok good : S → E → Prop}
    (hstep : ∀ s e, I s → ok s e → I (M.next s e)) (hgood : ∀ s e, I s → ok s e → good s e)
    {s : S} {es : List E} (hs : I s) (hok : M.Along ok s es) : M.Along good s es := by
  induction es generalizing s with
  | nil => trivial
  | cons e es ih => exact ⟨hgood s e hs hok.1, ih (hstep s e hs hok.1) hok.2⟩

theorem Along.and_forall {Q : E → Prop} {ok : S → E → Prop} {s : S} {es : List E}
    (hok : M.Along ok s es) (hQ : ∀ e ∈ es, Q e) : M.Along (fun s e => Q e ∧ ok s e) s es := by
  induction es generalizing s with
  | nil => trivial
  | cons e es ih =>
    exact ⟨⟨hQ e List.mem_cons_self, hok.1⟩, ih hok.2 fun x hx => hQ x (List.mem_cons_of_mem e hx)⟩

/-- An invariant that every step keeps holds all along every run. -/
theorem always_of_forall_step {I : S → Prop} (hstep : ∀ s e, I s → I (M.next s e)) {s : S} (hs : I s)
    (es : List E) : M.Always I s es := by
  induction es generalizing s with
  | nil => exact hs
  | cons e es ih => exact ⟨hs, ih (hstep s e hs)⟩

/-- A run within a condition goes through states of an invariant that its steps keep. -/
theorem always_of_along {I : S → Prop} {ok : S → E → Prop}
    (hstep : ∀ s e, I s → ok s e → I (M.next s e)) {s : S} {es : List E} (hs : I s) (hok : M.Along ok s es) :
    M.Always I s es := by
  induction es generalizing s with
  | nil => exact hs
  | cons e es ih => exact ⟨hs, ih (hstep s e hs hok.1) hok.2⟩

/-- When steps within a condition keep a relation to the states of a second machine that takes the same events, and
leave the actions of its steps, runs do. -/
theorem trace_eq_of_simulation {T B : Type} {N : Machine T E B} {R : S → T → Prop} {ok : S → E → Prop}
    {f : A → Option B}
    (hstep : ∀ s t e, R s t → ok s e → R (M.next s e) (N.next t e) ∧ (M.actions s e).filterMap f = N.actions t e)
    {s : S} {t : T} {es : List E} (hR : R s t) (hok : M.Along ok s es) :
    (M.trace s es).filterMap f = N.trace t es := by
  induction es generalizing s t with
  | nil => rfl
  | cons e es ih =>
    obtain ⟨hnext, hactions⟩ := hstep s t e hR hok.1
    rw [trace_cons, trace_cons, List.filterMap_append, hactions, ih hnext hok.2]

/-- The same when all actions are looked at, with the relation between the states at the end, and with the condition on the
states of the second machine. -/
theorem refines_of_step {T : Type} {N : Machine T E A} {R : S → T → Prop} {ok : T → E → Prop}
    (hstep : ∀ s t e, R s t → ok t e → R (M.next s e) (N.next t e) ∧ M.actions s e = N.actions t e)
    {s : S} {t : T} {es : List E} (hR : R s t) (hok : N.Along ok t es) :
    M.trace s es = N.trace t es ∧ R (M.final s es) (N.final t es) := by
  induction es generalizing s t with
  | nil => exact ⟨rfl, hR⟩
  | cons e es ih =>
    obtain ⟨hnext, hactions⟩ := hstep s t e hR hok.1
    obtain ⟨htrace, hfinal⟩ := ih hnext hok.2
    refine ⟨?_, hfinal⟩
    rw [trace_cons, trace_cons, hactions, htrace]

/-- Unwinding: when steps on the same event keep a relation between two states and look the same in a
view of the actions, runs from related states look the same. -/
theorem view_trace_eq_of_related {B : Type} {R : S → S → Prop} {view : List A → List B}
    (happend : ∀ as bs, view (as ++ bs) = view as ++ view bs)
    (hstep : ∀ s t e, R s t → R (M.next s e) (M.next t e) ∧ view (M.actions s e) = view (M.actions t e))
    {s t : S} (hR : R s t) (es : List E) : view (M.trace s es) = view (M.trace t es) := by
  induction es generalizing s t with
  | nil => rfl
  | cons e es ih =>
    obtain ⟨hnext, hactions⟩ := hstep s t e hR
    rw [trace_cons, trace_cons, happend, happend, hactions, ih hnext]

/-- When, in the states of an invariant, a step is good exactly if it meets a condition, and keeps the invariant then, a
run is good at every step exactly if it meets the condition at every step. -/
theorem along_iff_of_along {I : S → Prop} {good ok : S → E → Prop}
    (hkeep : ∀ s e, I s → ok s e → I (M.next s e)) (hiff : ∀ s e, I s → (good s e ↔ ok s e))
    {s : S} (hs : I s) (es : List E) : M.Along good s es ↔ M.Along ok s es := by
  induction es generalizing s with
  | nil => exact Iff.rfl
  | cons e es ih =>
    constructor
    · rintro ⟨hgood, hrest⟩
      have hok : ok s e := (hiff s e hs).mp hgood
      exact ⟨hok, (ih (hkeep s e hs hok)).mp hrest⟩
    · rintro ⟨hok, hrest⟩
      exact ⟨(hiff s e hs).mpr hok, (ih (hkeep s e hs hok)).mpr hrest⟩

/-- The same when every step keeps the invariant. -/
theorem along_iff_of_step {I : S → Prop} {good ok : S → E → Prop}
    (hkeep : ∀ s e, I s → I (M.next s e)) (hiff : ∀ s e, I s → (good s e ↔ ok s e))
    {s : S} (hs : I s) (es : List E) : M.Along good s es ↔ M.Along ok s es :=
  along_iff_of_along (fun s e h _ => hkeep s e h) hiff hs es

/-- When, from the good states of an invariant, a step is good and leads to a good state exactly if it
meets a condition, a run from a good state is good throughout exactly if it meets the condition. -/
theorem always_and_along_iff {I P : S → Prop} {good ok : S → E → Prop}
    (hkeep : ∀ s e, I s → I (M.next s e))
    (hiff : ∀ s e, I s → P s → (P (M.next s e) ∧ good s e ↔ ok s e))
    {s : S} (hs : I s) (hP : P s) (es : List E) :
    M.Always P s es ∧ M.Along good s es ↔ M.Along ok s es := by
  induction es generalizing s with
  | nil => exact iff_of_true ⟨hP, trivial⟩ trivial
  | cons e es ih =>
    constructor
    · rintro ⟨⟨-, halways⟩, hgood, halong⟩
      exact ⟨(hiff s e hs hP).mp ⟨halways.head, hgood⟩, (ih (hkeep s e hs) halways.head).mp ⟨halways, halong⟩⟩
    · rintro ⟨hok, hrest⟩
      obtain ⟨hnext, hgood⟩ := (hiff s e hs hP).mpr hok
      obtain ⟨halways, halong⟩ := (ih (hkeep s e hs) hnext).mpr hrest
      exact ⟨⟨hP, halways⟩, hgood, halong⟩

/-- A property of single actions holds of the whole trace exactly if every step leaves such
actions only. -/
theorem forall_trace_iff (P : A → Prop) (s : S) (es : List E) :
    (∀ a ∈ M.trace s es, P a) ↔ M.Along (fun s e => ∀ a ∈ M.actions s e, P a) s es := by
  induction es generalizing s with
  | nil => simp [Along]
  | cons e es ih => rw [trace_cons, List.forall_mem_append, ih]; rfl

/-- What the actions of a step have in the states of an invariant, all actions of a run have. -/
theorem forall_trace_of_step {I : S → Prop} {P : A → Prop} (hstep : ∀ s e, I s → I (M.next s e))
    (hactions : ∀ s e, I s → ∀ a ∈ M.actions s e, P a) {s : S} (hs : I s) (es : List E) :
    ∀ a ∈ M.trace s es, P a := by
  induction es generalizing s with
  | nil => exact fun _ ha => absurd ha List.not_mem_nil
  | cons e es ih => exact List.forall_mem_append.mpr ⟨hactions s e hs, ih (hstep s e hs)⟩

/-- A relation between the state and the actions so far that every step keeps holds at the end of every
run. -/
theorem final_trace_of_step {I : S → List A → Prop}
    (hstep : ∀ s e as, I s as → I (M.next s e) (as ++ M.actions s e)) {s : S} {as : List A} (hs : I s as)
    (es : List E) : I (M.final s es) (as ++ M.trace s es) := by
  induction es generalizing s as with
  | nil =>
    rw [final_nil, trace_nil, List.append_nil]
    exact hs
  | cons e es ih =>
    rw [final_cons, trace_cons, ← List.append_assoc]
    exact ih (hstep s e as hs)

/-- The same for a run within a condition. -/
theorem final_append_trace_of_along {I : S → List A → Prop} {ok : S → E → Prop}
    (hstep : ∀ s e as, I s as → ok s e → I (M.next s e) (as ++ M.actions s e)) {s : S} {as : List A} (hs : I s as)
    {es : List E} (hok : M.Along ok s es) : I (M.final s es) (as ++ M.trace s es) := by
  induction es generalizing s as with
  | nil =>
    rw [final_nil, trace_nil, List.append_nil]
    exact hs
  | cons e es ih =>
    rw [final_cons, trace_cons, ← List.append_assoc]
    exact ih (hstep s e as hs hok.1) hok.2

/-! ### Actions and the actions before them -/

/-- Every action has a property that may depend on the actions before it. -/
def Justified (R : List A → A → Prop) (before : List A) : List A → Prop
  | [] => True
  | a :: as => R before a ∧ Justified R (before ++ [a]) as

theorem justified_append (R : List A → A → Prop) (before as bs : List A) :
    Justified R before (as ++ bs) ↔ Justified R before as ∧ Justified R (before ++ as) bs := by
  induction as generalizing before with
  | nil => simp [Justified]
  | cons a as ih =>
    rw [List.cons_append, Justified, Justified, ih, List.append_assoc, List.singleton_append, and_assoc]

/-- When a relation between the state and the actions so far is kept, and the actions of a step are
justified exactly if it meets a condition, those of a run are exactly if it meets the condition. -/
theorem justified_trace_iff {I : S → List A → Prop} {R : List A → A → Prop} {ok : S → E → Prop}
    (hkeep : ∀ s e as, I s as → I (M.next s e) (as ++ M.actions s e))
    (hiff : ∀ s e as, I s as → (Justified R as (M.actions s e) ↔ ok s e))
    {s : S} {as : List A} (hs : I s as) (es : List E) :
    Justified R as (M.trace s es) ↔ M.Along ok s es := by
  induction es generalizing s as with
  | nil => exact Iff.rfl
  | cons e es ih =>
    rw [trace_cons, justified_append]
    exact and_congr (hiff s e as hs) (ih (hkeep s e as hs))

/-! ### Initial parts of a run -/

/-- A property of all initial parts of a run, read from the last event. -/
theorem forall_take_concat {Q : List E → Prop} (es : List E) (e : E) :
    (∀ n ≤ (es ++ [e]).length, Q ((es ++ [e]).take n)) ↔ (∀ n ≤ es.length, Q (es.take n)) ∧ Q (es ++ [e]) := by
  have hlength : (es ++ [e]).length = es.length + 1 := by simp
  have htake : ∀ n ≤ es.length, (es ++ [e]).take n = es.take n := fun n hn => List.take_append_of_le_length hn
  have hall : (es ++ [e]).take (es.length + 1) = es ++ [e] := List.take_of_length_le hlength.le
  constructor
  · intro h
    refine ⟨fun n hn => htake n hn ▸ h n (by omega), ?_⟩
    have hlast := h (es.length + 1) hlength.ge
    rwa [hall] at hlast
  · rintro ⟨hinit, hlast⟩ n hn
    obtain hlt | rfl : n ≤ es.length ∨ n = es.length + 1 := by omega
    · rw [htake n hlt]
      exact hinit n hlt
    · rw [hall]
      exact hlast

/-- A relation between all initial parts of a run that are one event apart. -/
theorem forall_take_succ_concat {R : List E → List E → Prop} (es : List E) (e : E) :
    (∀ n < (es ++ [e]).length, R ((es ++ [e]).take n) ((es ++ [e]).take (n + 1))) ↔
      (∀ n < es.length, R (es.take n) (es.take (n + 1))) ∧ R es (es ++ [e]) := by
  have hlength : (es ++ [e]).length = es.length + 1 := by simp
  have htake : ∀ n ≤ es.length, (es ++ [e]).take n = es.take n := fun n hn => List.take_append_of_le_length hn
  have hall : (es ++ [e]).take (es.length + 1) = es ++ [e] := List.take_of_length_le hlength.le
  constructor
  · intro h
    refine ⟨fun n hn => ?_, ?_⟩
    · have hn' := h n (by omega)
      rwa [htake n hn.le, htake (n + 1) hn] at hn'
    · have hlast := h es.length (by omega)
      rwa [htake _ le_rfl, hall, List.take_length] at hlast
  · rintro ⟨hinit, hlast⟩ n hn
    obtain hlt | rfl : n < es.length ∨ n = es.length := by omega
    · rw [htake n hlt.le, htake (n + 1) hlt]
      exact hinit n hlt
    · rw [htake _ le_rfl, hall, List.take_length]
      exact hlast

end Machine
