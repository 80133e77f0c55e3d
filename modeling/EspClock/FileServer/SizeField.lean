import EspClock.FileServer.Frames

/-!
# The size field

The bytes between the prefix of a command and the next `|` are handed to `atoi`, which multiplies and
adds in 32 bits and returns zero at the first byte that is no digit. A legal size comes out as its
value; any other field comes out as a legal size, too, and the command is executed as soon as that
many bytes have followed.
-/

namespace EspClock.FileServer

open Mem Decimal Console

/-- A command prefix and a size field, up to the `|` that ends it. -/
def header (c x : UInt8) (field : List UInt8) : List UInt8 := c :: x :: (field ++ [pipe])

/-! ### The parser -/

theorem atoiFrom_lt (acc : Nat) (hacc : acc < 2 ^ 32) (str : List UInt8) : atoiFrom acc str < 2 ^ 32 := by
  induction str generalizing acc with
  | nil => exact hacc
  | cons c cs ih =>
    rw [atoiFrom]
    split_ifs
    · exact ih _ (Nat.mod_lt _ (by decide))
    · exact Nat.two_pow_pos 32

theorem atoi_lt (str : List UInt8) : atoi str < 2 ^ 32 := atoiFrom_lt 0 (Nat.two_pow_pos 32) str

theorem atoi_of_value {field : List UInt8} (hdigits : ∀ d ∈ field, IsDigit d) (hfits : value field < 2 ^ 32) :
    atoi field = value field := atoiFrom_eq_valueFrom hdigits 0 hfits

theorem atoiFrom_of_not_digit {field : List UInt8} (h : ∃ d ∈ field, ¬ IsDigit d) (acc : Nat) :
    atoiFrom acc field = 0 := by
  induction field generalizing acc with
  | nil => simp at h
  | cons c cs ih =>
    rw [atoiFrom]
    split_ifs with hc
    · obtain ⟨d, hd, hnot⟩ := h
      rcases List.mem_cons.mp hd with rfl | hd
      · exact absurd hc hnot
      · exact ih ⟨d, hd, hnot⟩ _
    · rfl

/-- The error result is a size. -/
theorem atoi_of_bad {field : List UInt8} (h : field = [] ∨ ∃ d ∈ field, ¬ IsDigit d) : atoi field = 0 := by
  rcases h with rfl | h
  · rfl
  · exact atoiFrom_of_not_digit h 0

/-! ### What follows from a field -/

/-- A server that reads its size from a buffer with this header takes the number. -/
def TakesSize (c x : UInt8) (field : List UInt8) (n : Nat) : Prop :=
  ∀ s rest, Content s (header c x field ++ rest) → s.state = .noSize → s.readPoint = 2 →
    ∃ s' a, s.takeSize = (some s', a) ∧ s'.payload = n

variable {σ : Type} (P : Platform σ) (w : World σ)

/-- On a connection whose unread bytes start with this header no frame with it is executed. -/
def NeverExecutes (head : List UInt8) : Prop :=
  ∀ s p datas, Holds s p → head <+: p ++ datas.flatten →
    ∀ e ∈ executed ((connection P).trace (s, w) datas), ¬ head <+: e.2

variable {P w} {c x : UInt8} {field : List UInt8}

theorem findIdx?_field (hpipe : pipe ∉ field) (rest : List UInt8) :
    (field ++ pipe :: rest).findIdx? (· = pipe) = some field.length := by
  have hnone : field.findIdx? (· = pipe) = none := by
    rw [List.findIdx?_eq_none_iff]
    intro d hd
    simpa using ne_of_mem_of_not_mem hd hpipe
  rw [List.findIdx?_append, hnone, Option.none_or, List.findIdx?_cons]
  simp

theorem length_header (c x : UInt8) (field : List UInt8) : (header c x field).length = field.length + 3 := by
  simp [header]

theorem size_header (hcommand : commandOf c ≠ .idle) (hpipe : pipe ∉ field) :
    framing.size (header c x field) = some (field.length + 3 + atoi field) := by
  rw [framing_size, header, declaredSize, if_neg hcommand, findIdx?_field hpipe, Option.map_some, List.take_left' rfl]
  congr 1
  omega

/-- Whatever follows, the number taken is what `atoi` makes of the field. -/
theorem takesSize_atoi (hpipe : pipe ∉ field) : TakesSize c x field (atoi field) := by
  intro s rest hcontent hstate hpoint
  have hbytes : header c x field ++ rest = c :: x :: (field ++ pipe :: rest) := by simp [header]
  rw [hbytes] at hcontent
  obtain ⟨b, htake, -⟩ := takeSize_some hcontent hstate hpoint (findIdx?_field hpipe rest)
  refine ⟨_, b, htake, ?_⟩
  rw [List.take_left' rfl]

theorem takesSize_iff (hpipe : pipe ∉ field) (hshort : field.length + 3 ≤ maxBufferSize) {n : Nat} :
    TakesSize c x field n ↔ atoi field = n := by
  refine ⟨fun h => ?_, fun h => h ▸ takesSize_atoi hpipe⟩
  have hlength := length_header c x field
  have hcontent : Content ⟨(Block.fill _ 0).store 0 (header c x field), (header c x field).length, 2, 0, .noSize,
      commandOf c⟩ (header c x field ++ []) := by
    rw [List.append_nil]
    refine ⟨rfl, ?_, by omega⟩
    have hstore := Block.upTo_store (Block.fill maxBufferSize (0 : UInt8)) 0 (header c x field) (by omega)
    rw [Nat.zero_add] at hstore
    exact hstore
  obtain ⟨s₁, a₁, htake₁, rfl⟩ := h _ [] hcontent rfl rfl
  obtain ⟨s₂, a₂, htake₂, hpayload⟩ := takesSize_atoi hpipe _ [] hcontent rfl rfl
  rw [htake₁, Prod.mk.injEq, Option.some.injEq] at htake₂
  rw [htake₂.1, hpayload]

theorem executed_received {s : FsUserdata} {p : List UInt8} (h : Holds s p) (data : List UInt8) :
    executed ((connection P).actions (s, w) data) =
      executed (serve P w (framing.absorb maxBufferSize p data).frames).2 := by
  obtain ⟨-, -, hvisible⟩ := fsDataReceived_spec P w h data
  have hdisconnect (refused : Bool) : executed (if refused then [.disconnect] else []) = [] := by
    cases refused <;> rfl
  rw [Machine.actions, connection, ← executed_visible, hvisible, executed_append, hdisconnect, List.append_nil]

/-- A header that declares more than a buffer blocks the connection: no frame at all is executed. -/
theorem executed_of_overlong (hcommand : commandOf c ≠ .idle) (hpipe : pipe ∉ field)
    (hshort : field.length + 3 ≤ maxBufferSize) (hlong : maxBufferSize < field.length + 3 + atoi field)
    {s : FsUserdata} {p : List UInt8} {datas : List (List UInt8)} (hholds : Holds s p)
    (hstart : header c x field <+: p ++ datas.flatten) :
    executed ((connection P).trace (s, w) datas) = [] := by
  induction datas generalizing s p with
  | nil => rfl
  | cons data datas ih =>
    obtain ⟨hnext, hworld, -⟩ := fsDataReceived_spec P w hholds data
    obtain ⟨hnone, hstart'⟩ := framing.absorb_overlong_head maxBufferSize hholds.le
      (by rw [length_header]; exact hshort) (size_header hcommand hpipe) hlong hstart
    rw [hnone] at hworld
    have hstep : (connection P).next (s, w) data = ((fsDataReceived P w s data).server, w) :=
      Prod.ext rfl hworld
    rw [Machine.trace_cons, executed_append, executed_received hholds, hnone, hstep, ih hnext hstart']
    rfl

/-- The frame that a header declares, with a payload of zeros. -/
theorem executes_of_short (hcommand : commandOf c ≠ .idle) (hpipe : pipe ∉ field)
    (hshort : field.length + 3 + atoi field ≤ maxBufferSize) : ¬ NeverExecutes P w (header c x field) := by
  intro hnever
  obtain ⟨frame, hframe⟩ : ∃ frame, frame = header c x field ++ List.replicate (atoi field) 0 := ⟨_, rfl⟩
  have hlength : frame.length = field.length + 3 + atoi field := by
    rw [hframe, List.length_append, length_header, List.length_replicate]
  have hstart : header c x field <+: frame := hframe ▸ List.prefix_append _ _
  have hnone := hnever (.fresh (Block.fill _ 0)) [] [frame] (holds_fresh _)
    (by rw [List.flatten_singleton]; exact hstart) (commandOf (frame.headD 0), frame)
  have htake : frame = [] ++ frame.take (maxBufferSize - ([] : List UInt8).length) := by
    rw [List.nil_append, List.take_of_length_le]
    simp only [List.length_nil]
    omega
  have hsize : framing.size frame = some frame.length := by
    rw [hlength, hframe]
    exact framing.size_append _ (size_header hcommand hpipe)
  have habsorb : framing.absorb maxBufferSize [] frame = ⟨frame.drop frame.length, [frame.take frame.length], false⟩ :=
    Framing.absorb_complete_last (by simp only [List.length_nil]; have : maxBufferSize = 64 := rfl; omega) htake hsize le_rfl
    (List.drop_of_length_le (by simp only [List.length_nil]; omega))
  rw [Machine.trace_cons, Machine.trace_nil, List.append_nil, executed_received (holds_fresh _), habsorb] at hnone
  simp [serve, exchange, executed, hstart] at hnone

/-- Exactly the fields whose number is too large for the buffer keep the server from executing. -/
theorem neverExecutes_iff (hcommand : commandOf c ≠ .idle) (hpipe : pipe ∉ field)
    (hshort : field.length + 3 ≤ maxBufferSize) :
    NeverExecutes P w (header c x field) ↔ maxBufferSize < field.length + 3 + atoi field := by
  constructor
  · intro hnever
    by_contra hle
    exact executes_of_short hcommand hpipe (not_lt.mp hle) hnever
  · intro hlong s p datas hholds hstart e he
    rw [executed_of_overlong hcommand hpipe hshort hlong hholds hstart] at he
    exact absurd he List.not_mem_nil

/-- A field that is no numeral, or one of a number that needs more than 32 bits. -/
def Malformed (field : List UInt8) : Prop :=
  field = [] ∨ (∃ d ∈ field, ¬ IsDigit d) ∨ 2 ^ 32 ≤ value field

instance : DecidablePred Malformed := fun _ => inferInstanceAs (Decidable (_ ∨ _ ∨ _))

/-- The size is the value of a digit string, and a malformed field executes nothing, exactly when the
field is not malformed. -/
theorem size_field_iff (P : Platform σ) (w : World σ) (c x : UInt8) (field : List UInt8)
    (hcommand : commandOf c ≠ .idle) (hpipe : pipe ∉ field) (hshort : field.length + 3 ≤ maxBufferSize) :
    ((field ≠ [] ∧ (∀ d ∈ field, IsDigit d) → TakesSize c x field (value field)) ∧
      (Malformed field → NeverExecutes P w (header c x field))) ↔ ¬ Malformed field := by
  rw [takesSize_iff hpipe hshort, neverExecutes_iff hcommand hpipe hshort]
  constructor
  · rintro ⟨hvalue, hnever⟩ hbad
    have hnever := hnever hbad
    rcases hbad with rfl | hdigit | hlarge
    · simp [atoi, atoiFrom, maxBufferSize] at hnever
    · rw [atoi_of_bad (Or.inr hdigit)] at hnever
      omega
    · have hsmall := atoi_lt field
      by_cases hdigits : field ≠ [] ∧ ∀ d ∈ field, IsDigit d
      · have := hvalue hdigits
        omega
      · have hzero : atoi field = 0 := by
          refine atoi_of_bad ?_
          by_contra hgood
          simp only [not_or, not_exists, not_and, not_not] at hgood
          exact hdigits hgood
        omega
  · intro hgood
    simp only [Malformed, not_or, not_exists, not_and, not_not, not_le] at hgood
    obtain ⟨hne, hdigits, hfits⟩ := hgood
    refine ⟨fun _ => atoi_of_value hdigits hfits, fun hbad => ?_⟩
    rcases hbad with h | ⟨d, hd, hnot⟩ | h
    · exact absurd h hne
    · exact absurd (hdigits d hd) hnot
    · omega

/-- The field of `W|3|`. -/
theorem size_field_iff_three :
    (([51] ≠ ([] : List UInt8) ∧ (∀ d ∈ ([51] : List UInt8), IsDigit d) → TakesSize 87 pipe [51] (value [51])) ∧
      (Malformed [51] → NeverExecutes .accepting .initial (header 87 pipe [51]))) ↔ ¬ Malformed [51] :=
  size_field_iff .accepting .initial 87 pipe [51] (by decide) (by decide) (by decide)

/-- `C||` closes the file. -/
theorem empty_field_executes :
    ¬ ∀ (c : UInt8) (field : List UInt8), commandOf c ≠ .idle → pipe ∉ field →
      field.length + 3 ≤ maxBufferSize →
        (field ≠ [] ∧ (∀ d ∈ field, IsDigit d) → TakesSize c pipe field (value field)) ∧
          (Malformed field → NeverExecutes .accepting .initial (header c pipe field)) := by
  intro hall
  have hnever := (hall 67 [] (by decide) (by decide) (by decide)).2 (Or.inl rfl) (.fresh (Block.fill _ 0)) []
    [ascii "C||"] (holds_fresh _) (by decide) (.close, ascii "C||")
  exact absurd (by decide) (hnever (by decide +kernel))

end EspClock.FileServer
