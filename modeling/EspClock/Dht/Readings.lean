import EspClock.Dht.Sensor

/-!
# The readings of a DHT sensor

A fresh measurement succeeds exactly if it received forty bits whose fifth byte is the sum of the others.
A read from the cache succeeds always, also after a measurement that failed and left its bytes behind. So
all that is reported comes from complete measurements with a valid checksum exactly as long as no call
comes within two seconds of a measurement that failed.
-/

namespace EspClock.Dht

open Mem Led

/-- A measurement that receives a whole frame with a valid checksum. -/
def Valid (count : Nat) (wave : Wave) : Prop :=
  40 ≤ (bits count wave).length ∧ Checksum (frame (bits count wave))

def Action.wave? : Action → Option Wave
  | .measured wave => some wave
  | _ => none

/-- What the pin showed at the measurements so far. -/
def measurements (actions : List Action) : List Wave := actions.filterMap Action.wave?

/-- A value is that of the last measurement, which was valid. -/
def IsLastValue (valueOf : SensorType → List UInt8 → Int) (sensor : Sensor) (before : List Action) (value : Int) :
    Prop :=
  ∃ wave, (measurements before).getLast? = some wave ∧ Valid sensor.count wave ∧
    value = valueOf sensor.type (frame (bits sensor.count wave))

/-- A value is that of some measurement, which was valid. -/
def IsValue (valueOf : SensorType → List UInt8 → Int) (sensor : Sensor) (before : List Action) (value : Int) :
    Prop :=
  ∃ wave ∈ measurements before, Valid sensor.count wave ∧
    value = valueOf sensor.type (frame (bits sensor.count wave))

/-- The bytes of a success are the whole frame of a measurement and have a valid checksum; nothing is
reported but values of valid measurements. -/
def SoundAfter (sensor : Sensor) (before : List Action) : Action → Prop
  | .measured _ => True
  | .succeeded data =>
    (∃ wave ∈ measurements before, 40 ≤ (bits sensor.count wave).length ∧
      data.upTo 5 = frame (bits sensor.count wave)) ∧ Checksum data.cells
  | .temperature value => IsLastValue temperatureOf sensor before value
  | .humidity value => IsLastValue humidityOf sensor before value
  | .reported t h => IsValue temperatureOf sensor before t ∧ IsValue humidityOf sensor before h

/-- A sensor and what the pin showed at its last measurement. -/
structure Sensing where
  sensor : Sensor
  measured : Option Wave

/-- A sequence of calls of `dht_read`. -/
def sensing : Machine Sensing Call Action where
  step s c :=
    let result := s.sensor.dhtRead c
    (⟨result.1, (measurements result.2).getLast?.or s.measured⟩, result.2)

/-- A call that comes less than two seconds after a measurement follows a valid one. -/
def FollowsValid (s : Sensing) (c : Call) : Prop :=
  s.sensor.cached c.time = true → ∃ wave, s.measured = some wave ∧ Valid s.sensor.count wave

/-! ### The bytes of the frame -/

theorem getD_upTo_five (data : Block UInt8 6) {k : Nat} (hk : k < 5) :
    (data.upTo 5).getD k 0 = data.cells.getD k 0 := by
  rw [Block.upTo, List.getD_eq_getElem?_getD, List.getElem?_take_of_lt hk, List.getD_eq_getElem?_getD]

theorem checksum_upTo_five (data : Block UInt8 6) : Checksum (data.upTo 5) ↔ Checksum data.cells := by
  unfold Checksum
  simp only [getD_upTo_five data (show 0 < 5 by decide), getD_upTo_five data (show 1 < 5 by decide),
    getD_upTo_five data (show 2 < 5 by decide), getD_upTo_five data (show 3 < 5 by decide),
    getD_upTo_five data (show 4 < 5 by decide)]

theorem temperatureOf_upTo_five (type : SensorType) (data : Block UInt8 6) :
    temperatureOf type (data.upTo 5) = temperatureOf type data.cells := by
  unfold temperatureOf
  simp only [getD_upTo_five data (show 2 < 5 by decide), getD_upTo_five data (show 3 < 5 by decide)]

theorem humidityOf_upTo_five (type : SensorType) (data : Block UInt8 6) :
    humidityOf type (data.upTo 5) = humidityOf type data.cells := by
  unfold humidityOf
  simp only [getD_upTo_five data (show 0 < 5 by decide), getD_upTo_five data (show 1 < 5 by decide)]

theorem valid_iff (count : Nat) (wave : Wave) :
    Valid count wave ↔ 40 ≤ (measure count wave).j ∧ Checksum (measure count wave).data.cells := by
  rw [Valid, measure_j, ← checksum_upTo_five, measure_data]

/-! ### One read -/

variable {sensor s : Sensor} {as : List Action} {time : Nat} {wave : Wave}

theorem measurements_append (as bs : List Action) :
    measurements (as ++ bs) = measurements as ++ measurements bs := List.filterMap_append

/-- The bytes are those of the last measurement; before the first one nothing is read from the cache. -/
structure Follows (sensor s : Sensor) (as : List Action) : Prop where
  count_eq : s.count = sensor.count
  type_eq : s.type = sensor.type
  first : measurements as = [] → s.firstReading = true
  last : ∀ wave, (measurements as).getLast? = some wave → s.data = (measure sensor.count wave).data

/-- The last measurement was valid. -/
def Trusted (sensor : Sensor) (as : List Action) : Prop :=
  ∃ wave, (measurements as).getLast? = some wave ∧ Valid sensor.count wave

theorem rolledOver_fixed (s : Sensor) (currentTime : Nat) :
    (s.rolledOver currentTime).data = s.data ∧ (s.rolledOver currentTime).count = s.count ∧
      (s.rolledOver currentTime).type = s.type ∧ (s.rolledOver currentTime).firstReading = s.firstReading := by
  unfold Sensor.rolledOver
  split_ifs <;> exact ⟨rfl, rfl, rfl, rfl⟩

theorem read_cached (h : s.cached time = true) :
    s.read time wave = ⟨s.rolledOver (time &&& 0x7FFFFFFF), true, [.succeeded s.data]⟩ := if_pos h

theorem read_valid (h : s.cached time = false) (hvalid : Valid s.count wave) :
    s.read time wave = ⟨⟨(measure s.count wave).data, s.pin, s.type, s.count, false, time &&& 0x7FFFFFFF⟩, true,
      [.measured wave, .succeeded (measure s.count wave).data]⟩ := by
  unfold Sensor.read
  dsimp only
  rw [h, if_neg Bool.false_ne_true, if_pos ((valid_iff _ _).mp hvalid)]

theorem read_invalid (h : s.cached time = false) (hvalid : ¬ Valid s.count wave) :
    s.read time wave = ⟨⟨(measure s.count wave).data, s.pin, s.type, s.count, false, time &&& 0x7FFFFFFF⟩, false,
      [.measured wave]⟩ := by
  unfold Sensor.read
  dsimp only
  rw [h, if_neg Bool.false_ne_true, if_neg ((valid_iff _ _).not.mp hvalid)]

theorem follows_measured (h : Follows sensor s as) (lastReadTime : Nat) {bs : List Action}
    (hbs : measurements bs = [wave]) :
    Follows sensor ⟨(measure s.count wave).data, s.pin, s.type, s.count, false, lastReadTime⟩ (as ++ bs) := by
  refine ⟨h.count_eq, h.type_eq, ?_, ?_⟩
  · intro hnone
    rw [measurements_append, hbs] at hnone
    simp at hnone
  · intro last hlast
    rw [measurements_append, hbs, List.getLast?_concat] at hlast
    rw [← Option.some.inj hlast, ← h.count_eq]

theorem read_follows (time : Nat) (wave : Wave) (h : Follows sensor s as) :
    Follows sensor (s.read time wave).sensor (as ++ (s.read time wave).actions) := by
  cases hcached : s.cached time with
  | true =>
    obtain ⟨hdata, hcount, htype, hfirst⟩ := rolledOver_fixed s (time &&& 0x7FFFFFFF)
    rw [read_cached hcached]
    refine ⟨hcount.trans h.count_eq, htype.trans h.type_eq, ?_, ?_⟩
    · rw [measurements_append]
      exact fun hnone => hfirst.trans (h.first (List.append_eq_nil_iff.mp hnone).1)
    · intro last hlast
      rw [measurements_append, show measurements [Action.succeeded s.data] = [] from rfl, List.append_nil] at hlast
      exact hdata.trans (h.last last hlast)
  | false =>
    by_cases hvalid : Valid s.count wave
    · rw [read_valid hcached hvalid]
      exact follows_measured h _ rfl
    · rw [read_invalid hcached hvalid]
      exact follows_measured h _ rfl

/-- A read that, if it is answered from the cache, follows a valid measurement is sound, and a success leaves
the bytes of a valid measurement. -/
theorem read_sound (time : Nat) (wave : Wave) (h : Follows sensor s as) (hok : s.cached time = true → Trusted sensor as) :
    Machine.Justified (SoundAfter sensor) as (s.read time wave).actions ∧
      ((s.read time wave).success = true → Trusted sensor (as ++ (s.read time wave).actions)) := by
  cases hcached : s.cached time with
  | true =>
    obtain ⟨last, hlast, hvalid⟩ := hok hcached
    have hdata := h.last last hlast
    rw [read_cached hcached]
    refine ⟨⟨⟨⟨last, List.mem_of_getLast? hlast, hvalid.1, ?_⟩, ?_⟩, trivial⟩, fun _ => ⟨last, ?_, hvalid⟩⟩
    · rw [hdata, measure_data]
    · rw [hdata]
      exact ((valid_iff _ _).mp hvalid).2
    · rw [measurements_append, show measurements [Action.succeeded s.data] = [] from rfl, List.append_nil, hlast]
  | false =>
    have hlast : ∀ bs, measurements bs = [wave] → (measurements (as ++ bs)).getLast? = some wave := by
      intro bs hbs
      rw [measurements_append, hbs, List.getLast?_concat]
    by_cases hvalid : Valid s.count wave
    · rw [read_valid hcached hvalid]
      rw [h.count_eq] at hvalid ⊢
      refine ⟨⟨trivial, ⟨⟨wave, ?_, hvalid.1, measure_data _ _⟩, ((valid_iff _ _).mp hvalid).2⟩, trivial⟩,
        fun _ => ⟨wave, hlast _ rfl, hvalid⟩⟩
      exact List.mem_of_getLast? (hlast _ rfl)
    · rw [read_invalid hcached hvalid]
      exact ⟨⟨trivial, trivial⟩, fun hsuccess => absurd hsuccess Bool.false_ne_true⟩

/-! ### The two values -/

/-- What is needed of a value and its report. -/
structure Reports (sensor : Sensor) (valueOf : SensorType → List UInt8 → Int) (report : Int → Action) : Prop where
  wave : ∀ value, (report value).wave? = none
  sound : ∀ before value, SoundAfter sensor before (report value) ↔ IsLastValue valueOf sensor before value
  upTo : ∀ (type : SensorType) (data : Block UInt8 6), valueOf type (data.upTo 5) = valueOf type data.cells

theorem reports_temperature (sensor : Sensor) : Reports sensor temperatureOf .temperature :=
  ⟨fun _ => rfl, fun _ _ => Iff.rfl, temperatureOf_upTo_five⟩

theorem reports_humidity (sensor : Sensor) : Reports sensor humidityOf .humidity :=
  ⟨fun _ => rfl, fun _ _ => Iff.rfl, humidityOf_upTo_five⟩

variable {valueOf : SensorType → List UInt8 → Int} {report : Int → Action}

theorem measurements_report (hreport : Reports sensor valueOf report) (as : List Action) (value : Int) :
    measurements (as ++ [report value]) = measurements as := by
  rw [measurements_append, measurements, measurements, List.filterMap_cons_none (hreport.wave value),
    List.filterMap_nil, List.append_nil]

theorem readValue_follows (hreport : Reports sensor valueOf report) (time : Nat) (wave : Wave)
    (h : Follows sensor s as) :
    Follows sensor (s.readValue valueOf report time wave).1 (as ++ (s.readValue valueOf report time wave).2.2) := by
  have hread := read_follows time wave h
  unfold Sensor.readValue
  dsimp only
  split_ifs
  · refine ⟨hread.count_eq, hread.type_eq, ?_, ?_⟩
    · rw [← List.append_assoc, measurements_report hreport]
      exact hread.first
    · rw [← List.append_assoc, measurements_report hreport]
      exact hread.last
  · exact hread

/-- A value that is returned is that of the last measurement. -/
theorem readValue_some (hreport : Reports sensor valueOf report) (h : Follows sensor s as)
    (hok : s.cached time = true → Trusted sensor as) {value : Int}
    (hvalue : (s.readValue valueOf report time wave).2.1 = some value) :
    IsLastValue valueOf sensor (as ++ (s.readValue valueOf report time wave).2.2) value := by
  have hfollows := read_follows time wave h
  have htrusted := (read_sound time wave h hok).2
  unfold Sensor.readValue at hvalue ⊢
  dsimp only at hvalue ⊢
  split_ifs at hvalue ⊢ with hsuccess
  · obtain ⟨last, hlast, hvalid⟩ := htrusted hsuccess
    refine ⟨last, ?_, hvalid, ?_⟩
    · rw [← List.append_assoc, measurements_report hreport]
      exact hlast
    · rw [← Option.some.inj hvalue, hfollows.type_eq, hfollows.last last hlast, ← hreport.upTo, measure_data]

/-- A value is sound exactly if it is not read from the cache after a measurement that failed. -/
theorem readValue_justified_iff (hreport : Reports sensor valueOf report) (h : Follows sensor s as) :
    Machine.Justified (SoundAfter sensor) as (s.readValue valueOf report time wave).2.2 ↔
      (s.cached time = true → Trusted sensor as) := by
  constructor
  · intro hjustified hcached
    unfold Sensor.readValue at hjustified
    rw [read_cached hcached] at hjustified
    obtain ⟨-, hlast, -⟩ := hjustified
    obtain ⟨last, hlast, hvalid, -⟩ := (hreport.sound _ _).mp hlast
    refine ⟨last, ?_, hvalid⟩
    rw [measurements_append, show measurements [Action.succeeded s.data] = [] from rfl, List.append_nil] at hlast
    exact hlast
  · intro hok
    obtain ⟨hread, -⟩ := read_sound time wave h hok
    have hvalue := fun value => @readValue_some _ _ _ time wave _ _ hreport h hok value
    unfold Sensor.readValue at hvalue ⊢
    dsimp only at hvalue ⊢
    split_ifs at hvalue ⊢
    · rw [Machine.justified_append]
      refine ⟨hread, (hreport.sound _ _).mpr ?_, trivial⟩
      obtain ⟨last, hlast, hrest⟩ := hvalue _ rfl
      rw [← List.append_assoc, measurements_report hreport] at hlast
      exact ⟨last, hlast, hrest⟩
    · exact hread

theorem IsLastValue.isValue {value : Int} {bs : List Action} (h : IsLastValue valueOf sensor as value) :
    IsValue valueOf sensor (as ++ bs) value := by
  obtain ⟨last, hlast, hrest⟩ := h
  refine ⟨last, ?_, hrest⟩
  rw [measurements_append]
  exact List.mem_append_left _ (List.mem_of_getLast? hlast)

/-! ### Calls -/

/-- A call reads the temperature and, if there is one, the humidity; it reports both or nothing. -/
theorem dhtRead_cases (s : Sensor) (c : Call) :
    let first := s.readValue temperatureOf .temperature c.time c.wave
    let second := first.1.readValue humidityOf .humidity c.humidityTime c.humidityWave
    (first.2.1 = none ∧ s.dhtRead c = (first.1, first.2.2)) ∨
    (∃ t, first.2.1 = some t ∧ second.2.1 = none ∧ s.dhtRead c = (second.1, first.2.2 ++ second.2.2)) ∨
    (∃ t h, first.2.1 = some t ∧ second.2.1 = some h ∧
      s.dhtRead c = (second.1, first.2.2 ++ second.2.2 ++ [.reported t h])) := by
  intro first second
  rcases hfirst : first with ⟨s₁, _ | t, as₁⟩
  · left
    refine ⟨rfl, ?_⟩
    rw [Sensor.dhtRead, show s.readTemperature c.time c.wave = _ from hfirst]
  · right
    rcases hsecond : second with ⟨s₂, humidity, as₂⟩
    have hhumidity : s₁.readHumidity c.humidityTime c.humidityWave = _ := (congrArg
      (fun x : Sensor × Option Int × List Action => x.1.readHumidity c.humidityTime c.humidityWave) hfirst).symm.trans hsecond
    rw [Sensor.dhtRead, show s.readTemperature c.time c.wave = _ from hfirst]
    dsimp only
    rw [hhumidity]
    cases humidity with
    | none => exact Or.inl ⟨t, rfl, rfl, rfl⟩
    | some h => exact Or.inr ⟨t, h, rfl, rfl, rfl⟩

theorem dhtRead_follows (c : Call) (h : Follows sensor s as) :
    Follows sensor (s.dhtRead c).1 (as ++ (s.dhtRead c).2) := by
  have hfirst := readValue_follows (reports_temperature sensor) c.time c.wave h
  have hsecond := readValue_follows (reports_humidity sensor) c.humidityTime c.humidityWave hfirst
  rcases dhtRead_cases s c with ⟨-, hread⟩ | ⟨t, -, -, hread⟩ | ⟨t, humidity, -, -, hread⟩
  · rw [hread]
    exact hfirst
  · rw [hread, ← List.append_assoc]
    exact hsecond
  · have hreported : ∀ bs, measurements (bs ++ [Action.reported t humidity]) = measurements bs := by
      intro bs
      rw [measurements_append]
      exact List.append_nil _
    rw [hread, ← List.append_assoc, ← List.append_assoc]
    refine ⟨hsecond.count_eq, hsecond.type_eq, ?_, ?_⟩
    · rw [hreported]
      exact hsecond.first
    · rw [hreported]
      exact hsecond.last

/-- The second read of a call never is what makes it unsound: it follows a success. -/
theorem dhtRead_justified_iff (c : Call) (h : Follows sensor s as) :
    Machine.Justified (SoundAfter sensor) as (s.dhtRead c).2 ↔ (s.cached c.time = true → Trusted sensor as) := by
  have hfirst := @readValue_justified_iff _ _ _ c.time c.wave _ _ (reports_temperature sensor) h
  have hfollows := readValue_follows (reports_temperature sensor) c.time c.wave h
  have hsecond := @readValue_justified_iff _ _ _ c.humidityTime c.humidityWave _ _ (reports_humidity sensor) hfollows
  constructor
  · intro hjustified
    apply hfirst.mp
    rcases dhtRead_cases s c with ⟨-, hread⟩ | ⟨t, -, -, hread⟩ | ⟨t, humidity, -, -, hread⟩
    · rw [hread] at hjustified
      exact hjustified
    · rw [hread, Machine.justified_append] at hjustified
      exact hjustified.1
    · rw [hread, Machine.justified_append, Machine.justified_append] at hjustified
      exact hjustified.1.1
  · intro hok
    have hvalue : ∀ t, (s.readValue temperatureOf .temperature c.time c.wave).2.1 = some t →
        IsLastValue temperatureOf sensor (as ++ (s.readValue temperatureOf .temperature c.time c.wave).2.2) t :=
      fun t ht => readValue_some (reports_temperature sensor) h hok ht
    have htrusted : ∀ t, (s.readValue temperatureOf .temperature c.time c.wave).2.1 = some t →
        Trusted sensor (as ++ (s.readValue temperatureOf .temperature c.time c.wave).2.2) := by
      intro t ht
      obtain ⟨last, hlast, hvalid, -⟩ := hvalue t ht
      exact ⟨last, hlast, hvalid⟩
    rcases dhtRead_cases s c with ⟨-, hread⟩ | ⟨t, ht, -, hread⟩ | ⟨t, humidity, ht, hhumidity, hread⟩
    · rw [hread]
      exact hfirst.mpr hok
    · rw [hread, Machine.justified_append]
      exact ⟨hfirst.mpr hok, hsecond.mpr fun _ => htrusted t ht⟩
    · rw [hread, Machine.justified_append, Machine.justified_append]
      refine ⟨⟨hfirst.mpr hok, hsecond.mpr fun _ => htrusted t ht⟩, ⟨?_, ?_⟩, trivial⟩
      · rw [← List.append_assoc]
        exact (hvalue t ht).isValue
      · have hlast := readValue_some (reports_humidity sensor) hfollows (fun _ => htrusted t ht) hhumidity
        rw [← List.append_assoc, ← List.append_nil (_ ++ _)]
        exact hlast.isValue

/-! ### Runs -/

theorem dhtSetup_spec {board : Board} {pin type count : LuaValue} {sensor : Sensor}
    (h : dhtSetup board pin type count = .ok sensor) : sensor.firstReading = true := by
  unfold dhtSetup at h
  split at h
  · cases h
  · cases h
  · cases htype : sensorType? (word32 _) with
    | none =>
      rw [htype] at h
      split_ifs at h
    | some sensorType =>
      rw [htype] at h
      split_ifs at h
      cases h
      rfl

/-- Before its first reading a sensor has nothing in the cache. -/
theorem sensing_justified_iff (hfirst : sensor.firstReading = true) (calls : List Call) :
    Machine.Justified (SoundAfter sensor) [] (sensing.trace ⟨sensor, none⟩ calls) ↔
      sensing.Along FollowsValid ⟨sensor, none⟩ calls := by
  apply Machine.justified_trace_iff
    (I := fun s as => Follows sensor s.sensor as ∧ s.measured = (measurements as).getLast?)
  · rintro s c as ⟨hfollows, hmeasured⟩
    refine ⟨dhtRead_follows c hfollows, ?_⟩
    rw [measurements_append, List.getLast?_append, ← hmeasured]
    rfl
  · rintro s c as ⟨hfollows, hmeasured⟩
    rw [FollowsValid, hmeasured, hfollows.count_eq]
    exact dhtRead_justified_iff c hfollows
  · exact ⟨⟨rfl, rfl, fun _ => hfirst, fun _ hlast => nomatch hlast⟩, rfl⟩

/-- For a sensor that is set up and any sequence of calls, at any times and with anything on the pin: every
success leaves the whole frame of some measurement with a valid checksum and no value comes from a
measurement that failed, exactly if no call comes less than two seconds after a measurement that failed. -/
theorem dht_sound_iff (board : Board) (pin type count : LuaValue) (sensor : Sensor) (calls : List Call)
    (hsetup : dhtSetup board pin type count = .ok sensor) :
    Machine.Justified (SoundAfter sensor) [] (sensing.trace ⟨sensor, none⟩ calls) ↔
      sensing.Along FollowsValid ⟨sensor, none⟩ calls :=
  sensing_justified_iff (dhtSetup_spec hsetup) calls

/-- A board on which every pin works. -/
def working : Board := ⟨fun _ => true, fun _ => 0, true, fun _ => true⟩

/-- A sensor of type 22 at pin 4, with the default count. -/
def fresh : Sensor := ⟨Block.fill 6 0, 4, .dht22, 20, true, 0⟩

theorem dhtSetup_working : dhtSetup working (.number [52] 4) (.number [50, 50] 22) .other = .ok fresh := rfl

/-- A pin that changes at every second read: all bits are zero. -/
def zeros : Wave := fun n => n / 2 % 2 == 1

/-- A pin that stays high, as without a sensor. -/
def silent : Wave := fun _ => true

theorem valid_zeros : Valid 20 zeros := ⟨by decide +kernel, by decide +kernel⟩

theorem waitChange_silent (left counter position : Nat) :
    waitChange silent true left counter position = (counter + left, position + left) := by
  induction left generalizing counter position with
  | zero => rfl
  | succ left ih =>
    rw [waitChange, if_pos (show silent position = true from rfl), ih]
    congr 1 <;> omega

theorem bits_silent (step : Nat) : bits step silent = [] := by
  rw [bits, pulses, waitChange_silent]
  rfl

theorem not_valid_silent (step : Nat) : ¬ Valid step silent := by
  rintro ⟨hlong, -⟩
  rw [bits_silent] at hlong
  exact absurd hlong (by decide)

theorem next_of_read {s : Sensing} {c : Call} {reading : Reading} (hread : s.sensor.read c.time c.wave = reading)
    (hfailed : reading.success = false) :
    sensing.next s c = ⟨reading.sensor, (measurements reading.actions).getLast?.or s.measured⟩ := by
  unfold Machine.next sensing Sensor.dhtRead Sensor.readTemperature Sensor.readValue
  dsimp only
  rw [hread, hfailed]
  rfl

/-- A sensor that sends zeros, and a second call from the cache. -/
theorem dht_sound_zeros :
    dhtSetup working (.number [52] 4) (.number [50, 50] 22) .other = .ok fresh ∧
      Machine.Justified (SoundAfter fresh) []
        (sensing.trace ⟨fresh, none⟩ [⟨5, zeros, 6, silent⟩, ⟨1000, silent, 1001, silent⟩]) := by
  refine ⟨dhtSetup_working, ?_⟩
  apply (dht_sound_iff working (.number [52] 4) (.number [50, 50] 22) .other fresh _ dhtSetup_working).mpr
  have hfirst : fresh.read 5 zeros =
      ⟨⟨(measure 20 zeros).data, 4, .dht22, 20, false, 5⟩, true,
        [.measured zeros, .succeeded (measure 20 zeros).data]⟩ := read_valid (by decide) valid_zeros
  have hsecond : Sensor.read ⟨(measure 20 zeros).data, 4, .dht22, 20, false, 5⟩ 6 silent =
      ⟨⟨(measure 20 zeros).data, 4, .dht22, 20, false, 5⟩, true, [.succeeded (measure 20 zeros).data]⟩ :=
    read_cached (by decide)
  have hstate : sensing.next ⟨fresh, none⟩ ⟨5, zeros, 6, silent⟩ =
      ⟨⟨(measure 20 zeros).data, 4, .dht22, 20, false, 5⟩, some zeros⟩ := by
    unfold Machine.next sensing Sensor.dhtRead Sensor.readTemperature Sensor.readHumidity Sensor.readValue
    dsimp only
    rw [hfirst]
    rw [if_pos rfl]
    dsimp only
    rw [hsecond]
    rfl
  refine ⟨fun hcached => absurd hcached (by decide), ?_, trivial⟩
  rw [hstate]
  exact fun _ => ⟨zeros, rfl, valid_zeros⟩

/-- Without a sensor the second call reports zeros. -/
theorem silent_reported :
    ¬ ∀ (board : Board) (pin type count : LuaValue) (sensor : Sensor) (calls : List Call),
      dhtSetup board pin type count = .ok sensor →
      Machine.Justified (SoundAfter sensor) [] (sensing.trace ⟨sensor, none⟩ calls) := by
  intro hall
  have halong : ∀ sensor calls, dhtSetup working (.number [52] 4) (.number [50, 50] 22) .other = .ok sensor →
      sensing.Along FollowsValid ⟨sensor, none⟩ calls := fun sensor calls hsetup =>
    (sensing_justified_iff (dhtSetup_spec hsetup) calls).mp (hall _ _ _ _ sensor calls hsetup)
  obtain ⟨-, hsecond, -⟩ := halong fresh [⟨5, silent, 6, silent⟩, ⟨1000, silent, 1001, silent⟩] dhtSetup_working
  have hread : fresh.read 5 silent = ⟨⟨(measure 20 silent).data, 4, .dht22, 20, false, 5⟩, false, [.measured silent]⟩ :=
    read_invalid (by decide) (not_valid_silent 20)
  rw [@next_of_read ⟨fresh, none⟩ ⟨5, silent, 6, silent⟩ _ hread rfl] at hsecond
  obtain ⟨wave, hwave, hvalid⟩ := hsecond (by decide)
  rw [← Option.some.inj hwave] at hvalid
  exact not_valid_silent 20 hvalid

end EspClock.Dht
