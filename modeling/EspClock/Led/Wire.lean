import EspClock.Lib.Bits
import EspClock.Lib.Run
import EspClock.Led.Strip

/-!
# The strip on the wire

`transfer_byte` writes the levels of two pins, in an order that depends on the mode of the clock. A receiver that watches
the two lines takes a bit at one of the edges of the clock: the leading one when the phase is 0, the trailing one when it
is 1.
-/

namespace EspClock.Led

open Mem

inductive PinAction where
  | write (pin : Nat) (level : Bool)
  | delay (us : Nat)

/-! ### Shifting out -/

/-- `CPOL0_CPHA1` -/
def cpol0Cpha1 : Nat := 0

/-- `CPOL0_CPHA0` -/
def cpol0Cpha0 : Nat := 1

/-- `CPOL1_CPHA0` -/
def cpol1Cpha0 : Nat := 2

/-- `CPOL1_CPHA1` -/
def cpol1Cpha1 : Nat := 3

namespace Strip

/-- One round of the loop of `transfer_byte`. -/
def transferBit (s : Strip) (level : Bool) : List PinAction :=
  .write s.mosi level ::
    if s.type = cpol0Cpha0 then
      [.delay s.delay, .write s.clk true, .delay s.delay, .write s.clk false]
    else if s.type = cpol0Cpha1 then
      [.write s.clk true, .delay s.delay, .write s.clk false, .delay s.delay]
    else if s.type = cpol1Cpha0 then
      [.delay s.delay, .write s.clk false, .delay s.delay, .write s.clk true]
    else if s.type = cpol1Cpha1 then
      [.write s.clk false, .delay s.delay, .write s.clk true, .delay s.delay]
    else []

end Strip

/-- The masks of the loop of `transfer_byte`. -/
def bitMasks : List UInt8 := [0x80, 0x40, 0x20, 0x10, 0x08, 0x04, 0x02, 0x01]

/-- The levels for a byte, the most significant bit first. -/
def levels (byte : UInt8) : List Bool := bitMasks.map fun bit => byte &&& bit != 0

namespace Strip

def transferByte (s : Strip) (byte : UInt8) : List PinAction :=
  .write s.clk (s.type != cpol0Cpha0 && s.type != cpol0Cpha1) :: (levels byte).flatMap s.transferBit

/-- What `update` does to the pins. -/
def updatePins (s : Strip) : List PinAction :=
  s.update.flatMap fun
    | .transfer byte => s.transferByte byte
    | _ => []

end Strip

/-! ### The receiver -/

/-- The levels of the two lines. -/
structure Line where
  clk : Bool
  mosi : Bool

/-- An edge of the clock: the level that follows and the level of the data line. -/
structure Edge where
  level : Bool
  data : Bool
  deriving DecidableEq

/-- The lines as pins are written; an edge is left behind when the level of the clock changes. -/
def line (mosi clk : Nat) : Machine Line PinAction Edge :=
  ⟨fun l a =>
    match a with
    | .delay _ => (l, [])
    | .write pin level =>
      if pin = mosi then ({ l with mosi := level }, [])
      else if pin = clk then ({ l with clk := level }, if level = l.clk then [] else [⟨level, l.mosi⟩])
      else (l, [])⟩

/-- The idle level of the clock. -/
def cpol (type : Nat) : Bool := type == cpol1Cpha0 || type == cpol1Cpha1

/-- Data are taken at the trailing edge. -/
def cpha (type : Nat) : Bool := type == cpol0Cpha1 || type == cpol1Cpha1

/-- The level after the edge that data are taken at. -/
def samplingLevel (type : Nat) : Bool := if cpha type then cpol type else !cpol type

def sampled (type : Nat) (edges : List Edge) : List Bool :=
  (edges.filter fun e => e.level == samplingLevel type).map Edge.data

/-- The levels are the bits of the byte, the most significant one first. -/
theorem levels_eq (byte : UInt8) : levels byte = Bits.ofByte byte := by
  have hbytes : ∀ n : Fin 256, levels (UInt8.ofNat n) = Bits.ofByte (UInt8.ofNat n) := by decide +kernel
  have hbyte := hbytes ⟨byte.toNat, byte.toNat_lt⟩
  simpa using hbyte

/-! ### The lines -/

/-- The edges of a stream of bits. -/
def clocked (idle : Bool) (bits : List Bool) : List Edge := bits.flatMap fun b => [⟨!idle, b⟩, ⟨idle, b⟩]

theorem length_clocked (idle : Bool) (bits : List Bool) : (clocked idle bits).length = 2 * bits.length := by
  simp [clocked, mul_comm]

/-- Either edge has the bit on the data line. -/
theorem sampled_clocked (type : Nat) (bits : List Bool) : sampled type (clocked (cpol type) bits) = bits := by
  induction bits with
  | nil => simp [sampled, clocked]
  | cons b bits ih =>
    have hcons : clocked (cpol type) (b :: bits) = [⟨!cpol type, b⟩, ⟨cpol type, b⟩] ++ clocked (cpol type) bits := by
      simp [clocked]
    rw [sampled] at ih ⊢
    rw [hcons, List.filter_append, List.map_append, ih]
    cases hpha : cpha type <;> cases hpol : cpol type <;> simp [samplingLevel, hpha, hpol]

variable {s : Strip}

theorem transferBit_line (hpins : s.mosi ≠ s.clk) (htype : s.type < 4) (data bit : Bool) :
    (line s.mosi s.clk).final ⟨cpol s.type, data⟩ (s.transferBit bit) = ⟨cpol s.type, bit⟩ ∧
      (line s.mosi s.clk).trace ⟨cpol s.type, data⟩ (s.transferBit bit) = clocked (cpol s.type) [bit] := by
  have hcases : s.type = 0 ∨ s.type = 1 ∨ s.type = 2 ∨ s.type = 3 := by omega
  rcases hcases with h | h | h | h <;>
    simp [Strip.transferBit, h, cpol, clocked, cpol0Cpha0, cpol0Cpha1, cpol1Cpha0, cpol1Cpha1, Machine.next,
      Machine.actions, line, hpins.symm]

theorem transferBits_line (hpins : s.mosi ≠ s.clk) (htype : s.type < 4) (data : Bool) (bits : List Bool) :
    ((line s.mosi s.clk).final ⟨cpol s.type, data⟩ (bits.flatMap s.transferBit)).clk = cpol s.type ∧
      (line s.mosi s.clk).trace ⟨cpol s.type, data⟩ (bits.flatMap s.transferBit) = clocked (cpol s.type) bits := by
  induction bits generalizing data with
  | nil => simp [clocked]
  | cons bit bits ih =>
    obtain ⟨hfinal, htrace⟩ := transferBit_line hpins htype data bit
    obtain ⟨hclk, hrest⟩ := ih bit
    rw [List.flatMap_cons, Machine.final_append, Machine.trace_append, hfinal, htrace, hrest]
    refine ⟨hclk, ?_⟩
    simp [clocked]

/-- The write of the idle level in front of every byte makes no edge. -/
theorem transferByte_line (hpins : s.mosi ≠ s.clk) (htype : s.type < 4) (data : Bool) (byte : UInt8) :
    ((line s.mosi s.clk).final ⟨cpol s.type, data⟩ (s.transferByte byte)).clk = cpol s.type ∧
      (line s.mosi s.clk).trace ⟨cpol s.type, data⟩ (s.transferByte byte) = clocked (cpol s.type) (Bits.ofByte byte) := by
  have hidle : (s.type != cpol0Cpha0 && s.type != cpol0Cpha1) = cpol s.type := by
    have hcases : s.type = 0 ∨ s.type = 1 ∨ s.type = 2 ∨ s.type = 3 := by omega
    rcases hcases with h | h | h | h <;> simp [h, cpol, cpol0Cpha0, cpol0Cpha1, cpol1Cpha0, cpol1Cpha1]
  have hstep : (line s.mosi s.clk).step ⟨cpol s.type, data⟩ (.write s.clk (cpol s.type)) = (⟨cpol s.type, data⟩, []) := by
    simp [line, hpins.symm]
  rw [Strip.transferByte, hidle, Machine.final_cons, Machine.trace_cons, Machine.next, Machine.actions, hstep]
  rw [levels_eq]
  exact transferBits_line hpins htype data (Bits.ofByte byte)

theorem transferBytes_line (hpins : s.mosi ≠ s.clk) (htype : s.type < 4) (data : Bool) (bytes : List UInt8) :
    ((line s.mosi s.clk).final ⟨cpol s.type, data⟩ (bytes.flatMap s.transferByte)).clk = cpol s.type ∧
      (line s.mosi s.clk).trace ⟨cpol s.type, data⟩ (bytes.flatMap s.transferByte) =
        clocked (cpol s.type) (bytes.flatMap Bits.ofByte) := by
  induction bytes generalizing data with
  | nil => simp [clocked]
  | cons byte bytes ih =>
    obtain ⟨hfinal, htrace⟩ := transferByte_line hpins htype data byte
    rw [List.flatMap_cons, Machine.final_append, Machine.trace_append, htrace]
    generalize (line s.mosi s.clk).final ⟨cpol s.type, data⟩ (s.transferByte byte) = l at hfinal ⊢
    obtain ⟨clk, mosi⟩ := l
    obtain rfl : clk = cpol s.type := hfinal
    obtain ⟨hclk, hrest⟩ := ih mosi
    rw [hrest]
    refine ⟨hclk, ?_⟩
    simp [clocked]

/-! ### Updates -/

/-- The counters of `update` hold up to 21845 lamps. -/
theorem updatePins_eq (hlength : s.length ≤ 21845) (hbuffer : s.buffer.length = 3 * s.length) :
    s.updatePins = (s.buffer ++ List.replicate (3 * ((s.length + 31) / 32)) 0).flatMap s.transferByte := by
  have hbytes : wrap32 (s.length * 3) % 2 ^ 16 = s.buffer.length := by
    rw [wrap32]
    omega
  have hlatch : wrap32 (wrap32 (s.length + 31) / 32 * 3) % 2 ^ 16 = 3 * ((s.length + 31) / 32) := by
    simp only [wrap32]
    omega
  have hbuffer : s.buffer = (List.range s.buffer.length).map fun i => s.buffer.getD i 0 := by
    apply List.ext_getElem
    · simp
    · intro i hi _
      simp [hi]
  rw [Strip.updatePins, Strip.update, hbytes, hlatch, List.flatMap_append, List.flatMap_append, List.flatMap_assoc]
  congr 1
  · conv_rhs => rw [hbuffer, List.flatMap_map]
    simp
  · rw [List.flatMap_replicate, List.flatMap_replicate]

/-- A receiver that knows the mode gets the buffer and the latch bytes, from as many edges as it takes, and finds the clock
idle. -/
theorem update_received (s : Strip) (hlength : s.length ≤ 21845) (hbuffer : s.buffer.length = 3 * s.length)
    (hpins : s.mosi ≠ s.clk) (htype : s.type < 4) (data : Bool) :
    let bytes := s.buffer ++ List.replicate (3 * ((s.length + 31) / 32)) 0
    let edges := (line s.mosi s.clk).trace ⟨cpol s.type, data⟩ s.updatePins
    Bits.pack (sampled s.type edges) = bytes ∧ edges.length = 2 * (8 * bytes.length) ∧
      ((line s.mosi s.clk).final ⟨cpol s.type, data⟩ s.updatePins).clk = cpol s.type := by
  intro bytes edges
  obtain ⟨hclk, hedges⟩ := transferBytes_line hpins htype data bytes
  rw [← updatePins_eq hlength hbuffer] at hclk hedges
  refine ⟨?_, ?_, hclk⟩
  · show Bits.pack (sampled s.type edges) = bytes
    rw [show edges = _ from hedges, sampled_clocked, Bits.pack_flatMap_ofByte]
  · rw [show edges = _ from hedges, length_clocked, Bits.length_flatMap_ofByte]

/-- Two lamps on the pins 6 and 7. -/
theorem update_received_two_lamps :
    let s : Strip := ⟨6, 7, 2, 3, 1, [1, 2, 3, 4, 5, 6]⟩
    let bytes := s.buffer ++ List.replicate (3 * ((s.length + 31) / 32)) 0
    let edges := (line s.mosi s.clk).trace ⟨cpol s.type, false⟩ s.updatePins
    Bits.pack (sampled s.type edges) = bytes ∧ edges.length = 2 * (8 * bytes.length) ∧
      ((line s.mosi s.clk).final ⟨cpol s.type, false⟩ s.updatePins).clk = cpol s.type :=
  update_received ⟨6, 7, 2, 3, 1, [1, 2, 3, 4, 5, 6]⟩ (by decide) (by decide) (by decide) (by decide) false

end EspClock.Led
