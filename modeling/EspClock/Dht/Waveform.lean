import EspClock.Lib.Bits
import EspClock.Dht.Readings

/-!
# Waveforms

The sensor answers with a low and a high run for each bit, and a long high run stands for a one. A change of the pin is
seen by one read and its new level is taken by another, so two samples of every run but the first are not counted. From
the fifth run on every second one is a bit, and behind forty bits the pin stays high until the counter ends the loop.
-/

namespace EspClock.Dht

open Mem

/-! ### Runs of samples -/

/-- Samples of runs of the given widths, the levels alternating. -/
def runs : Bool → List Nat → List Bool
  | _, [] => []
  | level, n :: ns => List.replicate n level ++ runs (!level) ns

/-- What a sensor puts on the line: the widths of the initial high run, of the response, of a low and a high run for every
bit and of the final low run. -/
structure Signal where
  initial : Nat
  responseLow : Nat
  responseHigh : Nat
  bits : List (Nat × Nat)
  finalLow : Nat

namespace Signal

def widths (s : Signal) : List Nat :=
  s.initial :: s.responseLow :: s.responseHigh :: (s.bits.flatMap fun b => [b.1, b.2]) ++ [s.finalLow]

/-- The samples, high for ever behind the last run. -/
def wave (s : Signal) : Wave := fun k => (runs true s.widths).getD k true

/-- The bits that the high runs stand for. -/
def received (s : Signal) (count : Nat) : List Bool := s.bits.map fun b => decide (count + 2 < b.2)

end Signal

/-- The signal is one of the five bytes, for a sensor with the given threshold. -/
structure Transmits (count : Nat) (bytes : List UInt8) (s : Signal) : Prop where
  initial_lt : s.initial < 255
  width_bounds : ∀ n ∈ s.widths.tail, 2 ≤ n ∧ n < 255
  received_eq : s.received count = bytes.flatMap Bits.ofByte

theorem runs_getD_of_lt {level : Bool} {m : Nat} {widths : List Nat} {k : Nat} (hk : k < m) :
    (runs level (m :: widths)).getD k true = level := by
  rw [runs, List.getD_append _ _ _ _ (by simpa using hk), List.getD_replicate _ hk]

theorem runs_getD_add (level : Bool) (m : Nat) (widths : List Nat) (k : Nat) :
    (runs level (m :: widths)).getD (m + k) true = (runs (!level) widths).getD k true := by
  rw [runs, List.getD_append_right _ _ _ _ (by simp)]
  simp

/-! ### Pulses -/

theorem waitChange_run {wave : Wave} {level : Bool} {n left : Nat} (counter position : Nat) (hleft : n < left)
    (hrun : ∀ k < n, wave (position + k) = level) (hend : wave (position + n) ≠ level) :
    waitChange wave level left counter position = (counter + n, position + n + 1) := by
  induction n generalizing left counter position with
  | zero =>
    obtain ⟨left, rfl⟩ : ∃ l, left = l + 1 := ⟨left - 1, by omega⟩
    rw [Nat.add_zero] at hend
    rw [waitChange, if_neg hend]
    simp
  | succ n ih =>
    obtain ⟨left, rfl⟩ : ∃ l, left = l + 1 := ⟨left - 1, by omega⟩
    have hrest : ∀ k < n, wave (position + 1 + k) = level := by
      intro k hk
      rw [Nat.add_assoc, Nat.add_comm 1]
      exact hrun (k + 1) (by omega)
    have hend' : wave (position + 1 + n) ≠ level := by
      rwa [Nat.add_assoc, Nat.add_comm 1]
    have hfirst : wave position = level := hrun 0 (by omega)
    rw [waitChange, if_pos hfirst, ih (counter + 1) (position + 1) (by omega) hrest hend']
    congr 1 <;> omega

/-- A line that does not change any more. -/
theorem waitChange_steady {wave : Wave} {level : Bool} {position : Nat} (hsteady : ∀ k, wave (position + k) = level)
    (left counter : Nat) : (waitChange wave level left counter position).1 = counter + left := by
  induction left generalizing counter position with
  | zero => rfl
  | succ left ih =>
    have hrest : ∀ k, wave (position + 1 + k) = level := by
      intro k
      rw [Nat.add_assoc]
      exact hsteady _
    have hfirst : wave position = level := hsteady 0
    rw [waitChange, if_pos hfirst, ih hrest]
    omega

theorem pulses_steady {wave : Wave} {level : Bool} {position : Nat} (hsteady : ∀ k, wave (position + k) = level)
    (left : Nat) : pulses wave left level position = [] := by
  cases left with
  | zero => rfl
  | succ left =>
    rw [pulses, if_pos]
    exact (waitChange_steady hsteady 255 0).trans (Nat.zero_add 255)

/-- From inside of a run with `m` samples to go, the pulses have its `m` samples and two samples less than the width of
every other run. -/
theorem pulses_runs {wave : Wave} {level : Bool} {m left position : Nat} {widths : List Nat} (hleft : widths.length < left)
    (hwave : ∀ k, wave (position + k) = (runs level (m :: widths)).getD k true) (hm : m < 255)
    (hwidths : ∀ n ∈ widths, 2 ≤ n ∧ n < 255) (hlast : level = decide (widths.length % 2 = 1)) :
    pulses wave left level position = m :: widths.map (· - 2) := by
  induction widths generalizing level m left position with
  | nil =>
    obtain ⟨left, rfl⟩ : ∃ l, left = l + 1 := ⟨left - 1, by omega⟩
    obtain rfl : level = false := hlast
    have hhigh : ∀ k, wave (position + m + k) = true := by
      intro k
      rw [Nat.add_assoc, hwave, runs_getD_add]
      simp [runs]
    have hrun : ∀ k < m, wave (position + k) = false := fun k hk => (hwave k).trans (runs_getD_of_lt hk)
    have hwait : waitChange wave false 255 0 position = (m, position + m + 1) := by
      rw [waitChange_run 0 position hm hrun (by simpa using hhigh 0), Nat.zero_add]
    have hsteady : ∀ k, wave (position + m + 1 + 1 + k) = true := by
      intro k
      have hk := hhigh (2 + k)
      rwa [show position + m + 1 + 1 + k = position + m + (2 + k) by omega]
    rw [pulses, hwait]
    dsimp only
    rw [if_neg (by omega), hhigh 1, pulses_steady hsteady, List.map_nil]
  | cons n widths ih =>
    obtain ⟨left, rfl⟩ : ∃ l, left = l + 1 := ⟨left - 1, by omega⟩
    obtain ⟨⟨hlow, hhigh⟩, hrest⟩ := List.forall_mem_cons.mp hwidths
    rw [List.length_cons] at hleft hlast
    have hnext : ∀ k < n, wave (position + m + k) = !level := by
      intro k hk
      rw [Nat.add_assoc, hwave, runs_getD_add, runs_getD_of_lt hk]
    have hrun : ∀ k < m, wave (position + k) = level := fun k hk => (hwave k).trans (runs_getD_of_lt hk)
    have hend : wave (position + m) ≠ level := by
      have hfirst := hnext 0 (by omega)
      rw [Nat.add_zero] at hfirst
      simp [hfirst]
    have hwait : waitChange wave level 255 0 position = (m, position + m + 1) := by
      rw [waitChange_run 0 position hm hrun hend, Nat.zero_add]
    have hwave' : ∀ k, wave (position + m + 1 + 1 + k) = (runs (!level) ((n - 2) :: widths)).getD k true := by
      intro k
      have hk := hwave (m + (2 + k))
      rw [runs_getD_add, show n = 2 + (n - 2) by omega, runs, ← List.replicate_append_replicate, List.append_assoc,
        List.getD_append_right _ _ _ _ (by simp)] at hk
      rw [show position + m + 1 + 1 + k = position + (m + (2 + k)) by omega, hk, runs]
      simp
    have hlast' : (!level) = decide (widths.length % 2 = 1) := by
      rw [hlast, ← decide_not]
      apply decide_eq_decide.mpr
      omega
    rw [pulses, hwait]
    dsimp only
    rw [if_neg (by omega), hnext 1 (by omega), ih (by omega) hwave' (by omega) hrest hlast', List.map_cons]

/-! ### Bits -/

theorem bitsFrom_odd (step : Nat) {i : Nat} (hi : i % 2 = 1) (width : Nat) (widths : List Nat) :
    bitsFrom step i (width :: widths) = bitsFrom step (i + 1) widths := by
  rw [bitsFrom_cons, if_neg (by omega), List.nil_append]

theorem bitsFrom_even (step : Nat) {i : Nat} (hi : 4 ≤ i ∧ i % 2 = 0) (width : Nat) (widths : List Nat) :
    bitsFrom step i (width :: widths) = decide (step < width) :: bitsFrom step (i + 1) widths := by
  rw [bitsFrom_cons, if_pos hi, List.singleton_append]

theorem bitsFrom_pairs (step : Nat) {i : Nat} (hodd : i % 2 = 1) (hi : 3 ≤ i) (runs : List (Nat × Nat)) (last : Nat) :
    bitsFrom step i (((runs.flatMap fun b => [b.1, b.2]) ++ [last]).map (· - 2)) =
      runs.map fun b => decide (step + 2 < b.2) := by
  induction runs generalizing i with
  | nil =>
    rw [List.flatMap_nil, List.nil_append, List.map_singleton, bitsFrom_odd step hodd]
    simp [bitsFrom]
  | cons b runs ih =>
    have hpair : (((b :: runs).flatMap fun b => [b.1, b.2]) ++ [last]).map (· - 2) =
        (b.1 - 2) :: (b.2 - 2) :: ((runs.flatMap fun b => [b.1, b.2]) ++ [last]).map (· - 2) := by
      simp
    have hbit : decide (step < b.2 - 2) = decide (step + 2 < b.2) := by
      apply decide_eq_decide.mpr
      omega
    rw [hpair, bitsFrom_odd step hodd, bitsFrom_even step (by omega), ih (by omega) (by omega), hbit, List.map_cons]

/-- The bits of a signal of forty bits are those that its high runs stand for. -/
theorem bits_signal {s : Signal} {count : Nat} {bytes : List UInt8} (h : Transmits count bytes s)
    (hbytes : bytes.length = 5) : bits count s.wave = bytes.flatMap Bits.ofByte := by
  have hforty : s.bits.length = 40 := by
    have hlength := congrArg List.length h.received_eq
    rwa [Signal.received, List.length_map, Bits.length_flatMap_ofByte, hbytes] at hlength
  have htail : s.widths.tail.length = 83 := by
    simp [Signal.widths, List.length_flatMap, hforty]
  have hwave : ∀ k, s.wave (0 + k) = (runs true (s.initial :: s.widths.tail)).getD k true := by
    intro k
    rw [Nat.zero_add]
    rfl
  have hpulses : pulses s.wave 85 true 0 = s.initial :: s.widths.tail.map (· - 2) :=
    pulses_runs (by omega) hwave h.initial_lt h.width_bounds (by simp [htail])
  have htail_eq : s.widths.tail = s.responseLow :: s.responseHigh :: ((s.bits.flatMap fun b => [b.1, b.2]) ++ [s.finalLow]) := by
    simp [Signal.widths]
  rw [bits, hpulses, htail_eq, List.map_cons, List.map_cons, bitsFrom_cons, bitsFrom_cons, bitsFrom_cons,
    bitsFrom_pairs count rfl le_rfl, ← h.received_eq]
  simp [Signal.received]

theorem frame_bytes {bytes : List UInt8} (hbytes : bytes.length = 5) : frame (bytes.flatMap Bits.ofByte) = bytes := by
  obtain ⟨b0, b1, b2, b3, b4, rfl⟩ : ∃ b0 b1 b2 b3 b4, bytes = [b0, b1, b2, b3, b4] := by
    match bytes, hbytes with
    | [b0, b1, b2, b3, b4], _ => exact ⟨b0, b1, b2, b3, b4, rfl⟩
  have hbyte : ∀ b, byteOf (Bits.ofByte b) = b := Bits.toByte_ofByte
  have htake : ∀ b, (Bits.ofByte b).take 8 = Bits.ofByte b := fun b => List.take_of_length_le (by simp)
  have hdrop : ∀ b k, 8 ≤ k → (Bits.ofByte b).drop k = [] := fun b k hk => List.drop_of_length_le (by simpa using hk)
  simp [frame, List.range_succ, List.drop_append, List.take_append, hbyte, htake, hdrop]

/-! ### Accesses -/

/-- The indices into `m_Data` of the loop over the timings. -/
def timingIndices (step : Nat) (wave : Wave) : Nat → Nat → Timings → List Nat
  | 0, _, _ => []
  | left + 1, i, t =>
    let waited := waitChange wave t.lastState 255 0 t.position
    let read := { t with lastState := wave waited.2, position := waited.2 + 1 }
    if waited.1 = 255 then []
    else if 4 ≤ i ∧ i % 2 = 0 then
      t.j / 8 :: timingIndices step wave left (i + 1)
        { read with j := t.j + 1, data := shove t.data t.j (decide (step < waited.1)) }
    else timingIndices step wave left (i + 1) read

/-- The indices into `m_Data` of a `read`: those that `c_memset` clears, those of the loop and those of the checksum. -/
def Sensor.dataIndices (s : Sensor) (time : Nat) (wave : Wave) : List Nat :=
  if s.cached time then []
  else
    List.range 6 ++ timingIndices s.count wave 85 0 ⟨true, 0, 0, Block.fill 6 0⟩ ++
      if 40 ≤ (measure s.count wave).j then [4, 0, 1, 2, 3] else []

/-- In every second iteration from the fifth on one bit is stored. -/
theorem timingIndices_lt (step : Nat) (wave : Wave) (left i : Nat) (t : Timings) (hi : i + left ≤ 85)
    (hj : 2 * t.j ≤ i - 3) : ∀ k ∈ timingIndices step wave left i t, k < 6 := by
  induction left generalizing i t with
  | zero => simp [timingIndices]
  | succ left ih =>
    rw [timingIndices]
    dsimp only
    split_ifs with hlong hbit
    · simp
    · have hnext : 2 * (t.j + 1) ≤ i + 1 - 3 := by omega
      exact List.forall_mem_cons.mpr ⟨by omega, ih _ _ (by omega) hnext⟩
    · apply ih _ _ (by omega)
      dsimp only
      omega

theorem waitChange_position (wave : Wave) (level : Bool) (left counter position : Nat) :
    (waitChange wave level left counter position).2 ≤ position + left := by
  induction left generalizing counter position with
  | zero => simp [waitChange]
  | succ left ih =>
    rw [waitChange]
    split_ifs
    · have hle := ih (counter + 1) (position + 1)
      omega
    · dsimp only
      omega

/-- An iteration takes at most 256 samples. -/
theorem readTimings_position (step : Nat) (wave : Wave) (left i : Nat) (t : Timings) :
    (readTimings step wave left i t).position ≤ t.position + 256 * left := by
  induction left generalizing i t with
  | zero => simp [readTimings]
  | succ left ih =>
    have hwait := waitChange_position wave t.lastState 255 0 t.position
    rw [readTimings]
    dsimp only
    split_ifs
    · dsimp only
      omega
    · refine (ih ..).trans ?_
      dsimp only
      omega
    · refine (ih ..).trans ?_
      dsimp only
      omega

theorem dataIndices_lt (s : Sensor) (time : Nat) (wave : Wave) : ∀ k ∈ s.dataIndices time wave, k < 6 := by
  have htimings := timingIndices_lt s.count wave 85 0 ⟨true, 0, 0, Block.fill 6 0⟩ le_rfl le_rfl
  have hchecksum : ∀ k ∈ if 40 ≤ (measure s.count wave).j then [4, 0, 1, 2, 3] else [], k < 6 := by
    split_ifs
    · simp
    · simp
  rw [Sensor.dataIndices]
  by_cases hcached : s.cached time = true
  · simp [hcached]
  · rw [if_neg hcached, List.forall_mem_append, List.forall_mem_append]
    exact ⟨⟨by simp, htimings⟩, hchecksum⟩

/-! ### One read -/

/-- A frame with a valid checksum is read as what it is; whatever the pin shows, a read takes no more than 85 times 256
samples and stays inside of `m_Data`. -/
theorem read_waveform (sensor : Sensor) (time : Nat) :
    (∀ bytes signal, bytes.length = 5 → Checksum bytes → Transmits sensor.count bytes signal →
      sensor.cached time = false →
        (sensor.read time signal.wave).success = true ∧ (sensor.read time signal.wave).sensor.data.upTo 5 = bytes) ∧
    ∀ wave, (measure sensor.count wave).position ≤ 85 * 256 ∧ ∀ k ∈ sensor.dataIndices time wave, k < 6 := by
  constructor
  · intro bytes signal hbytes hsum h hcached
    have hbits := bits_signal h hbytes
    have hframe : frame (bits sensor.count signal.wave) = bytes := by rw [hbits, frame_bytes hbytes]
    have hvalid : Valid sensor.count signal.wave := by
      refine ⟨?_, by rwa [hframe]⟩
      rw [hbits, Bits.length_flatMap_ofByte, hbytes]
    rw [read_valid hcached hvalid]
    refine ⟨rfl, ?_⟩
    rw [measure_data, hframe]
  · intro wave
    refine ⟨?_, dataIndices_lt sensor time wave⟩
    have hposition := readTimings_position sensor.count wave 85 0 ⟨true, 0, 0, Block.fill 6 0⟩
    rw [measure]
    dsimp only at hposition
    omega

/-- A signal of the bytes 1, 2, 3, 4 and 10. -/
def sample : Signal where
  initial := 10
  responseLow := 80
  responseHigh := 80
  bits := ([1, 2, 3, 4, 10].flatMap Bits.ofByte).map fun b => (50, if b then 70 else 20)
  finalLow := 50

theorem read_waveform_sample : (fresh.read 0 sample.wave).success = true ∧
    (fresh.read 0 sample.wave).sensor.data.upTo 5 = [1, 2, 3, 4, 10] :=
  (read_waveform fresh 0).1 [1, 2, 3, 4, 10] sample (by decide) (by decide)
    ⟨by decide, by decide +kernel, by decide +kernel⟩ (by decide)

end EspClock.Dht
