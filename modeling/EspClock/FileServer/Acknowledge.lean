import Mathlib.Data.List.TakeWhile
import EspClock.FileServer.Reassembly

/-!
# Acknowledged writes

The answer `Y|` to a W frame and the bytes that reached the file. The payload is handed to `fs_write` as
the text in front of its first zero byte, with the length of that text, and the answer compares what
`fs_write` returns with this length, not with the declared size.
-/

namespace EspClock.FileServer

open Mem Decimal Console

/-- The bytes behind the header of a frame. -/
def payloadOf (frame : List UInt8) : List UInt8 := frame.drop (headerLength frame)

variable {σ : Type}

/-- `fs_write` appends the bytes it is given to the content of the file and returns their number. -/
def Appends (P : Platform σ) (content : Int → σ → List UInt8) : Prop :=
  ∀ fd data env, (P.fsWrite fd data env).1 = data.length ∧
    content fd (P.fsWrite fd data env).2 = content fd env ++ data

/-- A call on these data copies some of them and finds the frame complete at the head of the buffer. -/
def Completes (s : FsUserdata) (data frame : List UInt8) : Prop :=
  ∃ p, Holds s p ∧ min data.length (maxBufferSize - p.length) ≠ 0 ∧ framing.Whole frame ∧
    frame <+: p ++ data.take (maxBufferSize - p.length)

/-- The call was answered with `Y|`. -/
def Acknowledged (actions : List Action) : Prop := .sent (ascii "Y|") ∈ actions

instance (actions : List Action) : Decidable (Acknowledged actions) :=
  inferInstanceAs (Decidable (_ ∈ _))

/-! ### One frame -/

theorem takeWhile_ne_zero_eq_iff (bytes : List UInt8) : bytes.takeWhile (· ≠ 0) = bytes ↔ 0 ∉ bytes := by
  rw [List.takeWhile_eq_self_iff]
  constructor
  · intro hall hzero
    simpa using hall 0 hzero
  · intro hzero c hc
    simpa using ne_of_mem_of_not_mem hc hzero

theorem mem_visible_sent {actions : List Action} {text : List UInt8} :
    .sent text ∈ visible actions ↔ .sent text ∈ actions := by
  simp [visible]

theorem acknowledged_exchange_iff (frame : List UInt8) (success : Bool) :
    Acknowledged (exchange frame success) ↔ success = true := by
  cases success <;> simp [Acknowledged, exchange, ascii]

variable {P : Platform σ} {w : World σ} {s : FsUserdata} {data frame : List UInt8}

/-- A call that completes a frame executes it and answers with its success. -/
theorem pass_completes (h : Completes s data frame) :
    (pass P w s data).world = (executeFrame P w frame).2 ∧
      (Acknowledged (pass P w s data).actions ↔ (executeFrame P w frame).1 = true) := by
  obtain ⟨p, hholds, hcopy, hwhole, hstart⟩ := h
  have hsize : declaredSize (p ++ data.take (maxBufferSize - p.length)) = some frame.length :=
    hwhole.size_of_start hstart
  obtain ⟨s₃, a, s', hpass, -, -, -, -, hcommand, haccess, -⟩ :=
    pass_frame (P := P) (w := w) hholds hcopy rfl hsize hstart.length_le
  have hframe : (p ++ data.take (maxBufferSize - p.length)).take frame.length = frame := by
    obtain ⟨u, hu⟩ := hstart
    rw [← hu, List.take_left' rfl]
  have hpos : 0 < frame.length := List.length_pos_iff.mpr hwhole.ne_nil
  have hvisible : visible (pass P w s data).actions = exchange frame (executeFrame P w frame).1 := by
    rw [hpass]
    simp only [visible_append, visible_of_access haccess, List.nil_append,
      visible_frameActions hpos hcommand, hframe]
  refine ⟨by rw [hpass, hframe], ?_⟩
  rw [Acknowledged, ← mem_visible_sent, hvisible]
  exact acknowledged_exchange_iff frame _

/-- With a file open, a W frame is acknowledged and appends its text. -/
theorem executeFrame_write {content : Int → σ → List UInt8} (happends : Appends P content)
    (hwrite : commandOf (frame.headD 0) = .write) (hopen : w.fileFd ≠ fsInvalidFile) :
    (executeFrame P w frame).1 = true ∧
      content w.fileFd (executeFrame P w frame).2.console.env =
        content w.fileFd w.console.env ++ (payloadOf frame).takeWhile (· ≠ 0) := by
  obtain ⟨hlength, hcontent⟩ := happends w.fileFd (frameText frame) w.console.env
  rw [executeFrame, hwrite]
  simp only [execute, executeWrite, if_pos hopen, beq_iff_eq, hlength, true_and]
  exact hcontent

/-- With no file open, it is refused. -/
theorem executeFrame_write_closed (hwrite : commandOf (frame.headD 0) = .write) (hclosed : w.fileFd = fsInvalidFile) :
    (executeFrame P w frame).1 = false := by
  rw [executeFrame, hwrite]
  simp [execute, executeWrite, hclosed]

/-- An acknowledged W frame has its payload appended to the open file exactly when the payload has no
zero byte; without an open file no W frame is acknowledged. -/
theorem acknowledged_write_iff (P : Platform σ) (content : Int → σ → List UInt8) (happends : Appends P content)
    (w : World σ) (s : FsUserdata) (data frame : List UInt8) (hcompletes : Completes s data frame)
    (hwrite : commandOf (frame.headD 0) = .write) :
    (Acknowledged (pass P w s data).actions →
      content w.fileFd (pass P w s data).world.console.env =
        content w.fileFd w.console.env ++ payloadOf frame) ↔
      w.fileFd = fsInvalidFile ∨ 0 ∉ payloadOf frame := by
  obtain ⟨hworld, hanswer⟩ := pass_completes (P := P) (w := w) hcompletes
  rw [hworld, hanswer]
  by_cases hopen : w.fileFd = fsInvalidFile
  · simp [hopen, executeFrame_write_closed hwrite hopen]
  · obtain ⟨hsuccess, hcontent⟩ := executeFrame_write happends hwrite hopen
    rw [hcontent, forall_prop_of_true hsuccess, List.append_cancel_left_eq, takeWhile_ne_zero_eq_iff,
      or_iff_right hopen]

/-- A platform with one file, whose content is its state. -/
def Platform.appending : Platform (List UInt8) where
  docall _ x := (false, x)
  onData _ x := x
  fsOpen _ _ _ := (1, [])
  fsClose _ x := x
  fsFlush _ x := (0, x)
  fsWrite _ data x := (data.length, x ++ data)
  spiffsRemove _ x := x

theorem appends_appending : Appends .appending fun _ x => x := fun _ _ _ => ⟨rfl, rfl⟩

/-- The one file, opened and empty. -/
def World.opened : World (List UInt8) := ⟨1, ⟨LuaLoad.initial, ⟨true, 0, -1, false⟩, []⟩⟩

theorem completes_fresh {frame : List UInt8} (hsize : declaredSize frame = some frame.length)
    (hle : frame.length ≤ maxBufferSize) :
    Completes (.fresh (Block.fill _ 0)) frame frame := by
  have hwhole : framing.Whole frame := hsize
  have hpos : 0 < frame.length := List.length_pos_iff.mpr hwhole.ne_nil
  refine ⟨[], holds_fresh _, ?_, hwhole, ?_⟩
  · simp only [List.length_nil, Nat.sub_zero]
    omega
  · have htake : ([] : List UInt8) ++ frame.take (maxBufferSize - ([] : List UInt8).length) = frame :=
      List.take_of_length_le hle
    exact htake.symm ▸ List.prefix_rfl

/-- The frame `W|3|abc`. -/
theorem acknowledged_write_iff_text :
    (Acknowledged (pass .appending .opened (.fresh (Block.fill _ 0)) (ascii "W|3|abc")).actions →
      (pass .appending .opened (.fresh (Block.fill _ 0)) (ascii "W|3|abc")).world.console.env =
        World.opened.console.env ++ payloadOf (ascii "W|3|abc")) ↔
      World.opened.fileFd = fsInvalidFile ∨ 0 ∉ payloadOf (ascii "W|3|abc") :=
  acknowledged_write_iff .appending (fun _ x => x) appends_appending .opened _ _ _
    (completes_fresh (by decide) (by decide)) (by decide)

/-- A zero byte in the payload: the W frame is acknowledged with one of its three bytes in the file. -/
theorem acknowledged_write_truncated :
    ¬ ∀ (data frame : List UInt8), Completes (.fresh (Block.fill _ 0)) data frame →
      commandOf (frame.headD 0) = .write →
        Acknowledged (pass .appending .opened (.fresh (Block.fill _ 0)) data).actions →
          (pass .appending .opened (.fresh (Block.fill _ 0)) data).world.console.env =
            World.opened.console.env ++ payloadOf frame := by
  intro hall
  have hwritten := hall (ascii "W|3|" ++ [97, 0, 98]) (ascii "W|3|" ++ [97, 0, 98])
    (completes_fresh (by decide) (by decide)) (by decide) (by decide +kernel)
  exact absurd hwritten (by decide +kernel)

end EspClock.FileServer
