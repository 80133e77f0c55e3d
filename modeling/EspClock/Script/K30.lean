import EspClock.Console.RawFraming
import EspClock.Script.Number

/-!
# The CO2 sensor

The sensor sends its measurements as `[N]`, and `K30.lua` takes what the receive callback gets up to a `]` for one. A
text that is no numeral makes the value nil, which `scroll_finish` of the user script cannot concatenate.
-/

namespace EspClock.Script

open Console Decimal

/-- What the receive callback hands to `tonumber`: the text before a `]`, without a `[` at its head. -/
def measurement (data : List UInt8) : Option (List UInt8) :=
  let data := if data.take 1 = ascii "[" then data.drop 1 else data
  match data.findIdx? (· = 93) with
  | none => none
  | some index => some (data.take index)

/-- The receive callback on the value of `co2`, where none is nil. -/
def k30OnData (data : List UInt8) (co2 : Option ℚ) : Option ℚ :=
  match measurement data with
  | none => co2
  | some text => tonumber text

/-- The console with the callback. It reads with the console off, so no chunk is run. -/
def k30 (docall : List UInt8 → UartMode × Option ℚ → Bool × UartMode × Option ℚ) : Lua (Option ℚ) where
  docall := docall
  onData data s := (s.1, k30OnData data s.2)

/-- The second argument of `uart.on`, a `]`. -/
def k30Delimiter : Delimiter := .endChar 93

def getCO2 (c : State (Option ℚ)) : Option ℚ := c.env

/-- `sensor.getCO2() .. " "` of `scroll_finish`, which fails on nil. -/
def scrollFinishText (format : ℚ → List UInt8) (co2 : Option ℚ) : Option (List UInt8) :=
  co2.map (format · ++ ascii " ")

/-- The value is a number whenever some of the stream was read, in whatever polls, and `scroll_finish` does not fail. -/
def AlwaysNumber (docall : List UInt8 → UartMode × Option ℚ → Bool × UartMode × Option ℚ) (format : ℚ → List UInt8)
    (c : State (Option ℚ)) (stream : List UInt8) : Prop :=
  ∀ polls : List (List UInt8), polls.flatten <+: stream →
    (getCO2 (polls.foldl (readline (k30 docall)) c)).isSome ∧
      (scrollFinishText format (getCO2 (polls.foldl (readline (k30 docall)) c))).isSome

/-- The frames of a stream behind what is in the line. -/
def k30Frames (line stream : List UInt8) : List (List UInt8) :=
  (stream.foldl (Cut.next k30Delimiter.ends) ⟨[], line⟩).pieces

/-- What a frame has before a `]` is a numeral. -/
def Numeric (frame : List UInt8) : Prop := ∀ text ∈ measurement frame, (tonumber text).isSome = true

instance : DecidablePred Numeric := fun frame => inferInstanceAs (Decidable (∀ text ∈ measurement frame, _))

variable {docall : List UInt8 → UartMode × Option ℚ → Bool × UartMode × Option ℚ} {c : State (Option ℚ)}

theorem getCO2_polls (hmode : c.uart = k30Delimiter.mode) (hroom : c.load.linePosition < maxInput)
    (polls : List (List UInt8)) :
    getCO2 (polls.foldl (readline (k30 docall)) c) =
      (k30Frames (c.load.line.upTo c.load.linePosition) polls.flatten).foldl (fun co2 data => k30OnData data co2) c.env := by
  have hcuts := polled_cuts (L := k30 docall) (fun _ _ => rfl) (d := k30Delimiter) trivial hmode hroom polls
  rw [← forget_polled]
  exact hcuts.handled

theorem isSome_frames {co2 : Option ℚ} (hco2 : co2.isSome) {frames : List (List UInt8)}
    (hframes : ∀ frame ∈ frames, Numeric frame) : (frames.foldl (fun co2 data => k30OnData data co2) co2).isSome := by
  induction frames generalizing co2 with
  | nil => exact hco2
  | cons frame frames ih =>
    obtain ⟨hframe, hrest⟩ := List.forall_mem_cons.mp hframes
    refine ih ?_ hrest
    show (k30OnData frame co2).isSome = true
    rw [k30OnData]
    cases htext : measurement frame with
    | none => exact hco2
    | some text => exact hframe text htext

/-- The value is a number at every moment exactly if every frame with a `]` has a numeral before it. -/
theorem always_number_iff (docall : List UInt8 → UartMode × Option ℚ → Bool × UartMode × Option ℚ)
    (format : ℚ → List UInt8) (c : State (Option ℚ)) (hmode : c.uart = k30Delimiter.mode)
    (hroom : c.load.linePosition < maxInput) (hco2 : c.env = some 0) (stream : List UInt8) :
    AlwaysNumber docall format c stream ↔
      ∀ frame ∈ k30Frames (c.load.line.upTo c.load.linePosition) stream, Numeric frame := by
  constructor
  · intro halways frame hframe text htext
    obtain ⟨bytes, front, hbytes, hpieces⟩ := Cut.exists_prefix_of_mem_pieces hframe List.not_mem_nil
    have hnumber := (halways [bytes] (by rwa [List.flatten_singleton])).1
    have hfront : k30Frames (c.load.line.upTo c.load.linePosition) [bytes].flatten = front ++ [frame] := by
      rw [List.flatten_singleton]
      exact hpieces
    rw [getCO2_polls hmode hroom, hfront, List.foldl_append, List.foldl_cons, List.foldl_nil, k30OnData, htext] at hnumber
    exact hnumber
  · intro hframes polls hpolls
    have hnumber : (getCO2 (polls.foldl (readline (k30 docall)) c)).isSome := by
      rw [getCO2_polls hmode hroom]
      refine isSome_frames (hco2 ▸ rfl) fun frame hframe => hframes frame ?_
      obtain ⟨rest, rfl⟩ := hpolls
      rw [k30Frames, List.foldl_append]
      exact (Cut.pieces_prefix_foldl _ rest).subset hframe
    exact ⟨hnumber, by rwa [scrollFinishText, Option.isSome_map]⟩

theorem always_number_measured : AlwaysNumber (fun _ s => (false, s)) (fun _ => ascii "415")
    ⟨LuaLoad.initial, k30Delimiter.mode, some 0⟩ (ascii "[415]") :=
  (always_number_iff (fun _ s => (false, s)) (fun _ => ascii "415") ⟨LuaLoad.initial, k30Delimiter.mode, some 0⟩ rfl
    (by decide) rfl (ascii "[415]")).mpr (by decide +kernel)

/-- The end of a frame whose beginning was lost makes the value nil. -/
theorem number_lost : ¬ AlwaysNumber (fun _ s => (false, s)) (fun _ => [])
    ⟨LuaLoad.initial, k30Delimiter.mode, some 0⟩ (ascii "]") := by
  intro halways
  have hnumber := (halways [ascii "]"] (by decide)).1
  exact absurd hnumber (by decide +kernel)

end EspClock.Script
