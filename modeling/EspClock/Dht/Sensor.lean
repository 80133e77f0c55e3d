import EspClock.Led.Strip
import EspClock.Lib.Run
import Mathlib.Data.List.GetD
import Mathlib.Data.List.Induction

/-!
# The DHT sensor

`dht.c`: a measurement pulls the pin and then reads it as fast as it can. The number of equal reads between
two changes is the width of a pulse; from the fifth pulse on every second one is a bit, which is shifted
into the six bytes of `m_Data`. A read within two seconds of the last measurement is answered from these
bytes without a measurement.

What the pin shows is the sequence of values that the reads of one measurement see.
-/

namespace EspClock.Dht

open Mem Led

/-- The values that successive reads of the pin give. -/
abbrev Wave := Nat → Bool

inductive SensorType where
  | dht11
  | dht21
  | dht22
  deriving DecidableEq

/-- `dht_userdata_t` -/
structure Sensor where
  data : Block UInt8 6
  pin : Nat
  type : SensorType
  count : Nat
  firstReading : Bool
  lastReadTime : Nat

/-- What becomes visible of a call: a measurement with what the pin showed, a successful `read` with the
bytes it leaves, the values of `read_temperature` and `read_humidity` and the pair `dht_read` returns. -/
inductive Action where
  | measured (wave : Wave)
  | succeeded (data : Block UInt8 6)
  | temperature (tenths : Int)
  | humidity (tenths : Int)
  | reported (temperature humidity : Int)

/-! ### One measurement -/

/-- The loop that counts equal reads: the counter and the position of the next read, with `left` more
reads until the counter is 255. -/
def waitChange (wave : Wave) (lastState : Bool) : Nat → Nat → Nat → Nat × Nat
  | 0, counter, position => (counter, position)
  | left + 1, counter, position =>
    if wave position = lastState then waitChange wave lastState left (counter + 1) (position + 1)
    else (counter, position + 1)

/-- The bit `j` is shifted into its byte. -/
def shove (data : Block UInt8 6) (j : Nat) (bit : Bool) : Block UInt8 6 :=
  data.set (j / 8) (data.get (j / 8) <<< 1 ||| if bit then 1 else 0)

structure Timings where
  lastState : Bool
  position : Nat
  j : Nat
  data : Block UInt8 6

/-- The loop over the timings, with `left` iterations to go from iteration `i`. -/
def readTimings (step : Nat) (wave : Wave) : Nat → Nat → Timings → Timings
  | 0, _, t => t
  | left + 1, i, t =>
    let waited := waitChange wave t.lastState 255 0 t.position
    let read := { t with lastState := wave waited.2, position := waited.2 + 1 }
    if waited.1 = 255 then read
    else if 4 ≤ i ∧ i % 2 = 0 then
      readTimings step wave left (i + 1)
        { read with j := t.j + 1, data := shove t.data t.j (decide (step < waited.1)) }
    else readTimings step wave left (i + 1) read

/-- The bytes are cleared and the pin, pulled up before, is read for at most 85 timings. -/
def measure (step : Nat) (wave : Wave) : Timings := readTimings step wave 85 0 ⟨true, 0, 0, Block.fill 6 0⟩

/-- The fifth byte is the sum of the first four. -/
def Checksum (data : List UInt8) : Prop :=
  data.getD 4 0 = data.getD 0 0 + data.getD 1 0 + data.getD 2 0 + data.getD 3 0

instance (data : List UInt8) : Decidable (Checksum data) := inferInstanceAs (Decidable (_ = _))

/-! ### The functions of the module -/

structure Reading where
  sensor : Sensor
  success : Bool
  actions : List Action

namespace Sensor

/-- The last read time after the check for a rollover of the clock. -/
def rolledOver (s : Sensor) (currentTime : Nat) : Sensor :=
  if currentTime < s.lastReadTime then { s with lastReadTime := 0 } else s

/-- The test for a read less than two seconds ago. -/
def cached (s : Sensor) (time : Nat) : Bool :=
  let currentTime := time &&& 0x7FFFFFFF
  !s.firstReading && decide (sub32 currentTime (s.rolledOver currentTime).lastReadTime < 2000000)

def read (s : Sensor) (time : Nat) (wave : Wave) : Reading :=
  let currentTime := time &&& 0x7FFFFFFF
  if s.cached time then ⟨s.rolledOver currentTime, true, [.succeeded s.data]⟩
  else
    let timings := measure s.count wave
    let measured := { s with data := timings.data, firstReading := false, lastReadTime := currentTime }
    if 40 ≤ timings.j ∧ Checksum timings.data.cells then
      ⟨measured, true, [.measured wave, .succeeded timings.data]⟩
    else ⟨measured, false, [.measured wave]⟩

end Sensor

/-- The temperature in tenths of a degree. -/
def temperatureOf (type : SensorType) (data : List UInt8) : Int :=
  match type with
  | .dht11 => 10 * (data.getD 2 0).toNat
  | .dht21 | .dht22 =>
    let result : Int := ((data.getD 2 0 &&& 0x7F).toNat * 256 + (data.getD 3 0).toNat : Nat)
    if data.getD 2 0 &&& 0x80 ≠ 0 then -result else result

/-- The humidity in tenths of a percent. -/
def humidityOf (type : SensorType) (data : List UInt8) : Int :=
  match type with
  | .dht11 => 10 * (data.getD 0 0).toNat
  | .dht21 | .dht22 => ((data.getD 0 0).toNat * 256 + (data.getD 1 0).toNat : Nat)

namespace Sensor

/-- What `read_temperature` and `read_humidity` have in common. -/
def readValue (valueOf : SensorType → List UInt8 → Int) (report : Int → Action) (s : Sensor) (time : Nat)
    (wave : Wave) : Sensor × Option Int × List Action :=
  let reading := s.read time wave
  if reading.success then
    let result := valueOf reading.sensor.type reading.sensor.data.cells
    (reading.sensor, some result, reading.actions ++ [report result])
  else (reading.sensor, none, reading.actions)

def readTemperature : Sensor → Nat → Wave → Sensor × Option Int × List Action :=
  readValue temperatureOf .temperature

def readHumidity : Sensor → Nat → Wave → Sensor × Option Int × List Action :=
  readValue humidityOf .humidity

end Sensor

/-- A call of `dht_read`: the time and the pin at each of its two reads. -/
structure Call where
  time : Nat
  wave : Wave
  humidityTime : Nat
  humidityWave : Wave

def Sensor.dhtRead (s : Sensor) (c : Call) : Sensor × List Action :=
  match s.readTemperature c.time c.wave with
  | (s, none, actions) => (s, actions)
  | (s, some t, actions) =>
    match s.readHumidity c.humidityTime c.humidityWave with
    | (s, none, actions') => (s, actions ++ actions')
    | (s, some h, actions') => (s, actions ++ actions' ++ [.reported t h])

/-- The sensor type of an argument of `dht_setup`; `AM2301` is 21 as well. -/
def sensorType? : Nat → Option SensorType
  | 11 => some .dht11
  | 21 => some .dht21
  | 22 => some .dht22
  | _ => none

def dhtSetup (board : Board) (pin type count : LuaValue) : Except LuaError Sensor :=
  match pin.integer?, type.integer? with
  | none, _ => .error (.notInteger 1)
  | some _, none => .error (.notInteger 2)
  | some pin, some type =>
    if !board.gpioExists (word32 pin) then .error (.message s!"gpio {word32 pin} does not exist")
    else if board.gpioMode (word32 pin) < 0 then .error (.message "Invalid DHT pin.")
    else
      match sensorType? (word32 type) with
      | none => .error (.message "Invalid sensor type.")
      | some sensorType =>
        if !board.newuserdata then .error (.message "Out of memory (dht struct).")
        else .ok ⟨Block.fill 6 0, word32 pin % 256, sensorType, count.wordOr 20 % 256, true, 0⟩

/-! ### The frame of a measurement -/

/-- The widths of the pulses that the pin shows, at most `left` of them. -/
def pulses (wave : Wave) : Nat → Bool → Nat → List Nat
  | 0, _, _ => []
  | left + 1, lastState, position =>
    let waited := waitChange wave lastState 255 0 position
    if waited.1 = 255 then [] else waited.1 :: pulses wave left (wave waited.2) (waited.2 + 1)

/-- The pulses from number `i` on that stand for bits: every second one, the first four left out. -/
def bitsFrom (step i : Nat) (widths : List Nat) : List Bool :=
  ((widths.zipIdx i).filter fun p => decide (4 ≤ p.2 ∧ p.2 % 2 = 0)).map fun p => decide (step < p.1)

/-- The bits that a measurement receives. -/
def bits (step : Nat) (wave : Wave) : List Bool := bitsFrom step 0 (pulses wave 85 true 0)

/-- The byte of some bits, the most significant one first. -/
def byteOf (bits : List Bool) : UInt8 := UInt8.ofNat (bits.foldl (fun n bit => 2 * n + bit.toNat) 0)

/-- The bits cut into five bytes. -/
def frame (bits : List Bool) : List UInt8 := (List.range 5).map fun k => byteOf ((bits.drop (8 * k)).take 8)

def shoveAll (data : Block UInt8 6) (j : Nat) : List Bool → Block UInt8 6
  | [] => data
  | bit :: bits => shoveAll (shove data j bit) (j + 1) bits

theorem shoveAll_concat (data : Block UInt8 6) (j : Nat) (bits : List Bool) (bit : Bool) :
    shoveAll data j (bits ++ [bit]) = shove (shoveAll data j bits) (j + bits.length) bit := by
  induction bits generalizing data j with
  | nil => rfl
  | cons b bits ih =>
    rw [List.cons_append, shoveAll, ih, shoveAll, List.length_cons, Nat.add_right_comm, Nat.add_assoc]

theorem bitsFrom_cons (step i width : Nat) (widths : List Nat) :
    bitsFrom step i (width :: widths) =
      (if 4 ≤ i ∧ i % 2 = 0 then [decide (step < width)] else []) ++ bitsFrom step (i + 1) widths := by
  rw [bitsFrom, List.zipIdx_cons, List.filter_cons]
  by_cases h : 4 ≤ i ∧ i % 2 = 0
  · simp [h, bitsFrom]
  · simp [h, bitsFrom]

/-- The loop shifts in the bits of the pulses that it sees. -/
theorem readTimings_eq (step : Nat) (wave : Wave) (left i : Nat) (t : Timings) :
    (readTimings step wave left i t).data =
        shoveAll t.data t.j (bitsFrom step i (pulses wave left t.lastState t.position)) ∧
      (readTimings step wave left i t).j =
        t.j + (bitsFrom step i (pulses wave left t.lastState t.position)).length := by
  induction left generalizing i t with
  | zero => exact ⟨rfl, rfl⟩
  | succ left ih =>
    rw [readTimings, pulses]
    generalize waitChange wave t.lastState 255 0 t.position = waited
    dsimp only
    by_cases hlong : waited.1 = 255
    · rw [if_pos hlong, if_pos hlong]
      exact ⟨rfl, rfl⟩
    · rw [if_neg hlong, if_neg hlong, bitsFrom_cons]
      by_cases hbit : 4 ≤ i ∧ i % 2 = 0
      · rw [if_pos hbit, if_pos hbit, (ih _ _).1, (ih _ _).2]
        refine ⟨rfl, ?_⟩
        dsimp only
        rw [List.length_append, List.length_singleton, Nat.add_assoc]
      · rw [if_neg hbit, if_neg hbit, (ih _ _).1, (ih _ _).2]
        exact ⟨rfl, rfl⟩

/-- A bit behind those of a byte. -/
theorem byteOf_concat (bits : List Bool) (bit : Bool) :
    byteOf (bits ++ [bit]) = byteOf bits <<< 1 ||| if bit then 1 else 0 := by
  apply UInt8.toNat_inj.mp
  rw [byteOf, List.foldl_append, byteOf]
  generalize bits.foldl (fun n bit => 2 * n + bit.toNat) 0 = n
  have hshift : (UInt8.ofNat n <<< 1).toNat = 2 * (n % 128) := by
    rw [UInt8.toNat_shiftLeft, UInt8.toNat_ofNat', Nat.shiftLeft_eq]
    change n % 256 * 2 % 256 = 2 * (n % 128)
    omega
  have hone : ∀ k, 2 * k ||| 1 = 2 * k + 1 := fun k =>
    (Nat.two_pow_add_eq_or_of_lt (i := 1) (b := 1) (by decide) k).symm
  rw [UInt8.toNat_or, hshift, List.foldl_cons, List.foldl_nil, UInt8.toNat_ofNat']
  cases bit with
  | false =>
    change (2 * n + 0) % 256 = 2 * (n % 128) ||| 0
    rw [Nat.or_zero]
    omega
  | true =>
    change (2 * n + 1) % 256 = 2 * (n % 128) ||| 1
    rw [hone]
    omega

theorem get_shove (data : Block UInt8 6) (j k : Nat) (bit : Bool) (hk : k < 6) :
    (shove data j bit).get k =
      if j / 8 = k then data.get k <<< 1 ||| (if bit then 1 else 0) else data.get k := by
  have hlength : k < data.cells.length := by
    rw [data.size_eq]
    exact hk
  change (data.cells.set (j / 8) _).getD k default = _
  rw [List.getD_eq_getElem?_getD, List.getElem?_set]
  by_cases hbyte : j / 8 = k
  · rw [if_pos hbyte, if_pos hbyte, if_pos (hbyte.symm ▸ hlength), hbyte]
    rfl
  · rw [if_neg hbyte, if_neg hbyte, ← List.getD_eq_getElem?_getD]
    rfl

/-- Every byte holds its own eight bits. -/
theorem get_shoveAll (bits : List Bool) {k : Nat} (hk : k < 6) :
    (shoveAll (Block.fill 6 0) 0 bits).get k = byteOf ((bits.drop (8 * k)).take 8) := by
  induction bits using List.reverseRecOn with
  | nil =>
    rw [List.drop_nil, List.take_nil]
    change (List.replicate 6 (0 : UInt8)).getD k default = byteOf []
    rw [List.getD_eq_getElem _ _ (by simpa using hk), List.getElem_replicate]
    rfl
  | append_singleton bits bit ih =>
    rw [shoveAll_concat, get_shove _ _ _ _ hk, ih, Nat.zero_add]
    by_cases hbyte : bits.length / 8 = k
    · have hlength : (bits.drop (8 * k)).length < 8 := by
        rw [List.length_drop]
        omega
      rw [if_pos hbyte, List.drop_append_of_le_length (by omega), List.take_of_length_le hlength.le,
        List.take_of_length_le (by rw [List.length_append, List.length_singleton]; omega), byteOf_concat]
    · rw [if_neg hbyte]
      obtain hbefore | hafter : bits.length < 8 * k ∨ 8 * k + 8 ≤ bits.length := by omega
      · rw [List.drop_of_length_le (by omega),
          List.drop_of_length_le (by rw [List.length_append, List.length_singleton]; omega)]
      · rw [List.drop_append_of_le_length (by omega),
          List.take_append_of_le_length (by rw [List.length_drop]; omega)]

theorem upTo_five (data : Block UInt8 6) : data.upTo 5 = (List.range 5).map data.get := by
  apply List.ext_getElem
  · rw [Block.upTo, List.length_take, data.size_eq]
    rfl
  · intro k hk hk'
    have hlength : k < data.cells.length := by
      rw [Block.upTo, List.length_take] at hk
      omega
    rw [List.getElem_map, List.getElem_range, Block.get, List.getD_eq_getElem _ _ hlength]
    exact List.getElem_take

/-- The first five bytes that a measurement leaves are the bytes of its first forty bits. -/
theorem measure_data (step : Nat) (wave : Wave) : (measure step wave).data.upTo 5 = frame (bits step wave) := by
  rw [upTo_five, frame]
  apply List.map_congr_left
  intro k hk
  rw [measure, (readTimings_eq _ _ _ _ _).1]
  apply get_shoveAll
  have hlt := List.mem_range.mp hk
  omega

theorem measure_j (step : Nat) (wave : Wave) : (measure step wave).j = (bits step wave).length := by
  rw [measure, (readTimings_eq _ _ _ _ _).2, Nat.zero_add]
  rfl

end EspClock.Dht
