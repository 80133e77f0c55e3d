import EspClock.Uart.Receive

/-!
# Bounds of the receive buffer

The positions are compared with the end of the buffer before they move, so they reach `RX_BUFF_SIZE` itself, one byte
behind the buffer, before they start over. The first byte that is written there is the one behind the first
`RX_BUFF_SIZE` bytes that are received.
-/

namespace EspClock.Uart

/-- A write through `pWritePos` or a read through `pReadPos`, by its offset from `pRcvMsgBuff`. -/
inductive Access where
  | write (offset : Nat)
  | read (offset : Nat)

def Access.offset : Access → Nat
  | .write offset => offset
  | .read offset => offset

/-- What the loop of `uart0_rx_intr_handler` writes. -/
def rxIntrAccesses (rx : RcvMsgBuff) : List UInt8 → List Access
  | [] => []
  | c :: fifo => .write rx.write :: rxIntrAccesses (receive rx c).1 fifo

/-- What the next part of `uart_getc` reads. -/
def getcAccesses (s : State) : List Access := if s.reading then [.read s.rcvBuff.read] else []

/-- The steps of `machine` with their accesses. -/
def accesses : Machine State Event Access :=
  ⟨fun s e =>
    ((step s e).1,
      match e with
      | .rxIntr fifo => rxIntrAccesses s.rcvBuff fifo
      | .getc => getcAccesses s)⟩

/-- The bytes that an event brings. -/
def Event.received : Event → List UInt8
  | .rxIntr fifo => fifo
  | .getc => []

/-! ### Before the positions wrap -/

/-- `k` bytes were received and the read position is not past the write position. -/
structure Unwrapped (k : Nat) (s : State) : Prop where
  write : s.rcvBuff.write.val = k
  read : s.rcvBuff.read.val ≤ k
  reading : s.reading = true → s.rcvBuff.read.val < k

theorem initial_unwrapped (cells : Fin (rxBuffSize + 1) → UInt8) : Unwrapped 0 (initial cells) :=
  ⟨rfl, le_rfl, fun hreading => absurd hreading Bool.false_ne_true⟩

theorem receive_unwrapped {k : Nat} {s : State} (h : Unwrapped k s) (hroom : k < rxBuffSize) (c : UInt8) :
    Unwrapped (k + 1) { s with rcvBuff := (receive s.rcvBuff c).1 } := by
  have hwrite : (RingBuffer.advance s.rcvBuff.write).val = k + 1 := by
    rw [RingBuffer.advance_eq, RingBuffer.val_add_one_of_lt (h.write ▸ hroom), h.write]
  have hread : (s.rcvBuff.push c).read = s.rcvBuff.read := by
    apply if_neg
    intro hmeet
    have hle := h.read
    rw [← hmeet, hwrite] at hle
    exact Nat.not_succ_le_self k hle
  refine ⟨hwrite, ?_, fun hreading => ?_⟩
  · show (s.rcvBuff.push c).read.val ≤ k + 1
    rw [hread]
    exact h.read.trans (Nat.le_succ k)
  · show (s.rcvBuff.push c).read.val < k + 1
    rw [hread]
    exact Nat.lt_succ_of_le h.read

/-- The bytes that still fit are written inside of the buffer, and one more is not. -/
theorem rxIntr_bounds {k : Nat} {s : State} (h : Unwrapped k s) (hk : k ≤ rxBuffSize) (fifo : List UInt8) :
    ((∀ a ∈ rxIntrAccesses s.rcvBuff fifo, a.offset < rxBuffSize) ↔ k + fifo.length ≤ rxBuffSize) ∧
      (k + fifo.length ≤ rxBuffSize → Unwrapped (k + fifo.length) (accesses.next s (.rxIntr fifo))) := by
  induction fifo generalizing k s with
  | nil => exact ⟨iff_of_true (fun _ ha => absurd ha List.not_mem_nil) hk, fun _ => h⟩
  | cons c fifo ih =>
    have hfirst : (Access.write s.rcvBuff.write.val).offset = k := h.write
    have hlength : k + (c :: fifo).length = k + 1 + fifo.length := by rw [List.length_cons, Nat.add_right_comm, Nat.add_assoc]
    rw [rxIntrAccesses, List.forall_mem_cons, hfirst, hlength]
    obtain hroom | rfl := hk.lt_or_eq
    · obtain ⟨hbounds, hnext⟩ := ih (receive_unwrapped h hroom c) hroom
      exact ⟨(and_iff_right hroom).trans hbounds, hnext⟩
    · have hfull : ¬ rxBuffSize + 1 + fifo.length ≤ rxBuffSize := by omega
      exact ⟨iff_of_false (fun hbounds => lt_irrefl _ hbounds.1) hfull, fun hle => absurd hle hfull⟩

theorem getc_bounds {k : Nat} {s : State} (h : Unwrapped k s) (hk : k ≤ rxBuffSize) :
    (∀ a ∈ getcAccesses s, a.offset < rxBuffSize) ∧ Unwrapped k (accesses.next s .getc) := by
  have hnext : accesses.next s .getc = (uartGetc s).1 := rfl
  rw [hnext, getcAccesses, uartGetc]
  split_ifs with hreading hempty
  · have hlt := h.reading hreading
    refine ⟨fun a ha => ?_, h.write, ?_, fun hdone => absurd hdone Bool.false_ne_true⟩
    · rw [List.mem_singleton.mp ha]
      exact hlt.trans_le hk
    · show (RingBuffer.advance s.rcvBuff.read).val ≤ k
      rw [RingBuffer.advance_eq, RingBuffer.val_add_one_of_lt (hlt.trans_le hk)]
      exact hlt
  · exact ⟨fun _ ha => absurd ha List.not_mem_nil, h⟩
  · refine ⟨fun _ ha => absurd ha List.not_mem_nil, h.write, h.read, fun _ => ?_⟩
    exact lt_of_le_of_ne h.read fun heq => hempty (Fin.ext (h.write.trans heq.symm))

theorem unwrapped_bounds {k : Nat} {s : State} (h : Unwrapped k s) (hk : k ≤ rxBuffSize) (es : List Event) :
    (∀ a ∈ accesses.trace s es, a.offset < rxBuffSize) ↔ k + (es.flatMap Event.received).length ≤ rxBuffSize := by
  induction es generalizing k s with
  | nil => exact iff_of_true (fun _ ha => absurd ha List.not_mem_nil) hk
  | cons e es ih =>
    rw [Machine.trace_cons, List.forall_mem_append, List.flatMap_cons, List.length_append, ← Nat.add_assoc]
    cases e with
    | rxIntr fifo =>
      obtain ⟨hbounds, hnext⟩ := rxIntr_bounds h hk fifo
      constructor
      · rintro ⟨hhandler, hrest⟩
        have hle := hbounds.mp hhandler
        exact (ih (hnext hle) hle).mp hrest
      · intro hle
        have hfits : k + fifo.length ≤ rxBuffSize := (Nat.le_add_right _ _).trans hle
        exact ⟨hbounds.mpr hfits, (ih (hnext hfits) hfits).mpr hle⟩
    | getc =>
      obtain ⟨hbounds, hnext⟩ := getc_bounds h hk
      exact (and_iff_right hbounds).trans (ih hnext hk)

/-- In every order of the handler and the parts of `uart_getc`, all accesses are inside of the buffer exactly while no
more than `RX_BUFF_SIZE` bytes were received. -/
theorem ring_bounds (cells : Fin (rxBuffSize + 1) → UInt8) (es : List Event) :
    (∀ a ∈ accesses.trace (initial cells) es, a.offset < rxBuffSize) ↔ (es.flatMap Event.received).length ≤ rxBuffSize := by
  have hbounds := unwrapped_bounds (initial_unwrapped cells) (Nat.zero_le _) es
  rwa [Nat.zero_add] at hbounds

/-- Two full hardware FIFOs fill the buffer, and one more byte is written behind it. -/
theorem write_behind_buffer : ¬ ∀ a ∈ accesses.trace (initial fun _ => 0)
    [.rxIntr (List.replicate 128 0), .rxIntr (List.replicate 128 0), .rxIntr [0]], a.offset < rxBuffSize := by
  intro hinside
  have hlength := (unwrapped_bounds (initial_unwrapped fun _ => 0) (Nat.zero_le _) _).mp hinside
  exact absurd hlength (by decide +kernel)

end EspClock.Uart
