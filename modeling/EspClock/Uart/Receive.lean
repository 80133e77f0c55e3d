import EspClock.Lib.RingBuffer
import EspClock.Lib.Run
import Mathlib.Data.List.Induction

/-!
# The receive buffer of the UART

`uart0_rx_intr_handler` writes the bytes of the hardware FIFO into a ring and `uart_getc` reads them from it. The
handler may run between the two parts of `uart_getc`: the test for an empty ring and the read with interrupts locked.
-/

namespace EspClock.Uart

/-- `RX_BUFF_SIZE`. The last position is this far from the first one, so the ring has one cell more. -/
def rxBuffSize : Nat := 256

abbrev RcvMsgBuff := RingBuffer UInt8 rxBuffSize

/-- Whether a call of `uart_getc` has passed its test and not read yet. -/
structure State where
  rcvBuff : RcvMsgBuff
  reading : Bool

/-- What happens: the handler finds bytes in the hardware FIFO, or `uart_getc` does its next part. -/
inductive Event where
  | rxIntr (fifo : List UInt8)
  | getc

/-- A received byte with the unread one that the read position was pushed over, and the results of `uart_getc`. -/
inductive Action where
  | received (c : UInt8) (dropped : Option UInt8)
  | returned (c : UInt8)
  | returnedFalse

/-- One turn of the loop of `uart0_rx_intr_handler`. -/
def receive (rx : RcvMsgBuff) (c : UInt8) : RcvMsgBuff × Action :=
  let dropped := if RingBuffer.advance rx.write = rx.read then some (rx.cells rx.read) else none
  (rx.push c, .received c dropped)

def uart0RxIntrHandler (rx : RcvMsgBuff) : List UInt8 → RcvMsgBuff × List Action
  | [] => (rx, [])
  | c :: fifo =>
    let (rx, action) := receive rx c
    let (rx, actions) := uart0RxIntrHandler rx fifo
    (rx, action :: actions)

def uartGetc (s : State) : State × List Action :=
  if s.reading then
    let (c, rx) := s.rcvBuff.pop
    (⟨rx, false⟩, [.returned c])
  else if s.rcvBuff.write = s.rcvBuff.read then (s, [.returnedFalse])
  else ({ s with reading := true }, [])

def step (s : State) : Event → State × List Action
  | .rxIntr fifo =>
    let (rx, actions) := uart0RxIntrHandler s.rcvBuff fifo
    ({ s with rcvBuff := rx }, actions)
  | .getc => uartGetc s

def machine : Machine State Event Action := ⟨step⟩

/-- Both positions are at the base of the buffer. -/
def initial (cells : Fin (rxBuffSize + 1) → UInt8) : State := ⟨⟨cells, 0, 0⟩, false⟩

/-! ### The ring as a queue -/

/-- While there is room, bytes come behind the unread ones. -/
theorem uart0RxIntrHandler_contents {rx : RcvMsgBuff} {fifo : List UInt8}
    (hroom : rx.contents.length + fifo.length ≤ rxBuffSize) :
    (uart0RxIntrHandler rx fifo).1.contents = rx.contents ++ fifo := by
  induction fifo generalizing rx with
  | nil => exact (List.append_nil _).symm
  | cons c fifo ih =>
    rw [List.length_cons] at hroom
    have hpush : (rx.push c).contents = rx.contents ++ [c] := by
      rw [RingBuffer.contents_push, pushLossy, if_pos (by omega)]
    have hrest := @ih (rx.push c) (by rw [hpush, List.length_append, List.length_singleton]; omega)
    rw [hpush, List.append_assoc, List.singleton_append] at hrest
    exact hrest

/-- A part of `uart_getc` returns the oldest unread byte, or returns false when nothing is unread, or has found that
something is. -/
theorem uartGetc_cases (s : State) (hreads : s.reading = true → s.rcvBuff.contents ≠ []) :
    (s.reading = true ∧ (uartGetc s).2 = [.returned s.rcvBuff.pop.1] ∧ (uartGetc s).1.reading = false ∧
        s.rcvBuff.contents = s.rcvBuff.pop.1 :: (uartGetc s).1.rcvBuff.contents) ∨
      (s.rcvBuff.contents = [] ∧ uartGetc s = (s, [.returnedFalse])) ∨
      (s.reading = false ∧ s.rcvBuff.contents ≠ [] ∧ uartGetc s = ({ s with reading := true }, [])) := by
  rw [uartGetc]
  split_ifs with hreading hempty
  · exact Or.inl ⟨hreading, rfl, rfl, s.rcvBuff.contents_pop (hreads hreading)⟩
  · exact Or.inr (Or.inl ⟨s.rcvBuff.contents_eq_nil.mpr hempty, rfl⟩)
  · refine Or.inr (Or.inr ⟨Bool.eq_false_iff.mpr hreading, fun hnil => hempty ?_, rfl⟩)
    exact s.rcvBuff.contents_eq_nil.mp hnil

/-! ### The queue of unread bytes -/

/-- The unread bytes after an action. -/
def Action.apply (unread : List UInt8) : Action → List UInt8
  | .received c none => unread ++ [c]
  | .received c (some _) => unread.tail ++ [c]
  | .returned _ => unread.tail
  | .returnedFalse => unread

def Action.received? : Action → Option UInt8
  | .received c _ => some c
  | _ => none

def Action.returned? : Action → Option UInt8
  | .returned c => some c
  | _ => none

/-- The byte that is no longer unread after an action. -/
def Action.departed? : Action → Option UInt8
  | .received _ dropped => dropped
  | .returned c => some c
  | .returnedFalse => none

def unread (log : List Action) : List UInt8 := log.foldl Action.apply []

/-- A lossy queue drops or returns the oldest unread byte only, drops it only when `RX_BUFF_SIZE` bytes are unread and
another one arrives, and has nothing to return only when nothing is unread. -/
def Lossy (before : List Action) : Action → Prop
  | .received _ none => (unread before).length < rxBuffSize
  | .received _ (some dropped) => (unread before).length = rxBuffSize ∧ (unread before).head? = some dropped
  | .returned c => (unread before).head? = some c
  | .returnedFalse => unread before = []

theorem unread_concat (log : List Action) (a : Action) : unread (log ++ [a]) = a.apply (unread log) := by
  rw [unread, List.foldl_append]
  rfl

/-- A byte leaves at the head or stays. -/
theorem departed_apply {before : List Action} {a : Action} (h : Lossy before a) :
    a.departed?.toList ++ a.apply (unread before) = unread before ++ a.received?.toList := by
  have hhead : ∀ c, (unread before).head? = some c → c :: (unread before).tail = unread before := fun c =>
    List.cons_head?_tail
  match a, h with
  | .received c none, _ => rfl
  | .received c (some dropped), h => exact congrArg (· ++ [c]) (hhead dropped h.2)
  | .returned c, h => exact (hhead c h).trans (List.append_nil _).symm
  | .returnedFalse, _ => exact (List.append_nil _).symm

theorem filterMap_concat {α β : Type} (f : α → Option β) (log : List α) (a : α) :
    (log ++ [a]).filterMap f = log.filterMap f ++ (f a).toList := by
  rw [List.filterMap_append]
  cases h : f a with
  | none => rw [List.filterMap_cons_none h]; rfl
  | some b => rw [List.filterMap_cons_some h]; rfl

theorem departed_append_unread {log : List Action} (h : Machine.Justified Lossy [] log) :
    log.filterMap Action.departed? ++ unread log = log.filterMap Action.received? := by
  induction log using List.reverseRecOn with
  | nil => rfl
  | append_singleton log a ih =>
    obtain ⟨hlog, ha, -⟩ := (Machine.justified_append _ _ _ _).mp h
    rw [List.nil_append] at ha
    rw [filterMap_concat, filterMap_concat, unread_concat, List.append_assoc, departed_apply ha, ← List.append_assoc,
      ih hlog]

theorem returned_sublist_departed (log : List Action) :
    (log.filterMap Action.returned?).Sublist (log.filterMap Action.departed?) := by
  induction log with
  | nil => exact List.Sublist.refl _
  | cons a log ih =>
    cases a with
    | received c dropped =>
      cases dropped with
      | none => exact ih
      | some d => exact ih.cons d
    | returned c => exact ih.cons_cons c
    | returnedFalse => exact ih

/-! ### The ring implements it -/

structure Matches (s : State) (log : List Action) : Prop where
  contents : s.rcvBuff.contents = unread log
  reads : s.reading = true → unread log ≠ []
  lossy : Machine.Justified Lossy [] log

theorem unread_length_le {s : State} {log : List Action} (h : Matches s log) : (unread log).length ≤ rxBuffSize := by
  rw [← h.contents]
  exact s.rcvBuff.length_contents_le

theorem receive_matches {s : State} {log : List Action} (h : Matches s log) (c : UInt8) :
    Matches { s with rcvBuff := (receive s.rcvBuff c).1 } (log ++ [(receive s.rcvBuff c).2]) := by
  have hcontents : (s.rcvBuff.push c).contents = pushLossy rxBuffSize (unread log) c := by
    rw [RingBuffer.contents_push, h.contents]
  have hfull : RingBuffer.advance s.rcvBuff.write = s.rcvBuff.read ↔ (unread log).length = rxBuffSize := by
    rw [RingBuffer.advance_eq, RingBuffer.write_add_one_eq_read_iff, ← h.contents, RingBuffer.length_contents]
  have happly : Lossy log (receive s.rcvBuff c).2 ∧
      (receive s.rcvBuff c).2.apply (unread log) = pushLossy rxBuffSize (unread log) c := by
    by_cases hmeet : RingBuffer.advance s.rcvBuff.write = s.rcvBuff.read
    · have hlength := hfull.mp hmeet
      have hne : s.rcvBuff.contents ≠ [] := by
        rw [h.contents]
        exact fun hnil => absurd (hnil ▸ hlength) (by decide)
      have hhead : (unread log).head? = some (s.rcvBuff.cells s.rcvBuff.read) := by
        rw [← h.contents, RingBuffer.contents_pop _ hne]
        rfl
      have hdropped : (receive s.rcvBuff c).2 = .received c (some (s.rcvBuff.cells s.rcvBuff.read)) :=
        congrArg (Action.received c) (if_pos hmeet)
      rw [hdropped, pushLossy_full (by decide) hlength]
      exact ⟨⟨hlength, hhead⟩, rfl⟩
    · have hroom : (unread log).length < rxBuffSize := lt_of_le_of_ne (unread_length_le h) fun heq => hmeet (hfull.mpr heq)
      have hdropped : (receive s.rcvBuff c).2 = .received c none := congrArg (Action.received c) (if_neg hmeet)
      rw [hdropped, pushLossy, if_pos hroom]
      exact ⟨hroom, rfl⟩
  refine ⟨?_, ?_, ?_⟩
  · rw [unread_concat, happly.2]
    exact hcontents
  · intro _
    rw [unread_concat, happly.2]
    exact pushLossy_ne_nil (by decide) _ c
  · exact (Machine.justified_append _ _ _ _).mpr ⟨h.lossy, happly.1, trivial⟩

theorem uart0RxIntrHandler_matches {s : State} {log : List Action} (h : Matches s log) (fifo : List UInt8) :
    Matches { s with rcvBuff := (uart0RxIntrHandler s.rcvBuff fifo).1 }
      (log ++ (uart0RxIntrHandler s.rcvBuff fifo).2) := by
  induction fifo generalizing s log with
  | nil =>
    rw [uart0RxIntrHandler, List.append_nil]
    exact h
  | cons c fifo ih =>
    have hrest := ih (receive_matches h c)
    rw [List.append_assoc, List.singleton_append] at hrest
    exact hrest

theorem uartGetc_matches {s : State} {log : List Action} (h : Matches s log) :
    Matches (uartGetc s).1 (log ++ (uartGetc s).2) := by
  obtain ⟨-, hresult, hdone, hpop⟩ | ⟨hnil, hresult⟩ | ⟨-, hne, hresult⟩ :=
    uartGetc_cases s fun hreading => h.contents.symm ▸ h.reads hreading
  · rw [h.contents] at hpop
    have hhead : (unread log).head? = some s.rcvBuff.pop.1 := by
      rw [hpop]
      rfl
    refine ⟨?_, fun hread => absurd hread (by rw [hdone]; decide), ?_⟩
    · rw [hresult, unread_concat]
      exact (congrArg List.tail hpop).symm
    · rw [hresult]
      exact (Machine.justified_append _ _ _ _).mpr ⟨h.lossy, hhead, trivial⟩
  · have hunread : unread log = [] := h.contents ▸ hnil
    rw [hresult]
    refine ⟨?_, fun hread => ?_, ?_⟩
    · rw [unread_concat]
      exact h.contents
    · rw [unread_concat]
      exact h.reads hread
    · exact (Machine.justified_append _ _ _ _).mpr ⟨h.lossy, hunread, trivial⟩
  · rw [hresult, List.append_nil]
    exact ⟨h.contents, fun _ => h.contents ▸ hne, h.lossy⟩

theorem step_matches (s : State) (e : Event) (log : List Action) (h : Matches s log) :
    Matches (machine.next s e) (log ++ machine.actions s e) := by
  cases e with
  | rxIntr fifo => exact uart0RxIntrHandler_matches h fifo
  | getc => exact uartGetc_matches h

theorem initial_matches (cells : Fin (rxBuffSize + 1) → UInt8) : Matches (initial cells) [] :=
  ⟨(RingBuffer.contents_eq_nil _).mpr rfl, fun hreading => absurd hreading (by simp [initial]), trivial⟩

/-- In every order of the handler and the parts of `uart_getc`, the bytes leave the ring in the order of their arrival,
each of them once, and those that `uart_getc` did not return were the oldest when a full ring received another one. -/
theorem uartGetc_lossy (cells : Fin (rxBuffSize + 1) → UInt8) (es : List Event) :
    let log := machine.trace (initial cells) es
    Machine.Justified Lossy [] log ∧
      log.filterMap Action.departed? ++ unread log = log.filterMap Action.received? ∧
      (log.filterMap Action.returned?).Sublist (log.filterMap Action.departed?) ∧
      (log.filterMap Action.returned?).Sublist (log.filterMap Action.received?) := by
  intro log
  have hmatches : Matches (machine.final (initial cells) es) log :=
    Machine.final_trace_of_step step_matches (initial_matches cells) es
  have hdeparted := departed_append_unread hmatches.lossy
  have hreturned := returned_sublist_departed log
  refine ⟨hmatches.lossy, hdeparted, hreturned, hreturned.trans ?_⟩
  rw [← hdeparted]
  exact List.sublist_append_left _ _

end EspClock.Uart
