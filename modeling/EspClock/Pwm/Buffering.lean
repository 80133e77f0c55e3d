import EspClock.Lib.Run
import EspClock.Pwm.Schedule
import Mathlib.Logic.Function.Basic

/-!
# Two tables for the schedule

`pwm_start` writes the table that `pwm_toggle` does not name and then turns `pwm_toggle` to it; the handler goes on with
its own table and takes the one that `pwm_toggle` names when its period is over. A second `pwm_start` in a period turns
back to the table that is being played. Otherwise the handler does what a player does that keeps a copy of the schedule
for as long as it plays it.
-/

namespace EspClock.Pwm

/-- What happens: a setting is changed, `pwm_start` is called, or the timer interrupts. -/
inductive PwmEvent where
  | add (channel : Nat)
  | delete (channel : Nat)
  | setDuty (duty : UInt16) (channel : Nat)
  | setFreq (freq : UInt16)
  | start
  | tim1Intr

/-- `gpio_output_set` and the load of the timer. -/
inductive PwmAction where
  | gpioOutputSet (set clear enable : UInt16)
  | load (ticks : UInt32)
  deriving DecidableEq

/-- The outputs of an entry. -/
def SingleParam.output (e : SingleParam) (gpio : UInt16) : PwmAction := .gpioOutputSet e.gpioSet e.gpioClear gpio

/-- What starts a period of a schedule, unless it has a single step and the timer stays down. -/
def loadFirst (schedule : List SingleParam) : List PwmAction :=
  if schedule.length ≠ 1 then [.load (schedule.getD 0 default).hTime] else []

/-! ### The driver -/

/-- The state of the driver. `playing` is the table that `pwm_single` and `pwm_channel` point to. -/
structure Driver where
  settings : Settings
  singleToggle : Bool → List SingleParam
  toggle : Bool
  playing : Bool
  currentChannel : Nat
  timerDown : Bool

/-- The table that is played. -/
def Driver.single (s : Driver) : List SingleParam := s.singleToggle s.playing

def Driver.pwmStart (s : Driver) : Driver × List PwmAction :=
  let localToggle := !s.toggle
  let schedule := s.settings.schedule
  let s := { s with singleToggle := Function.update s.singleToggle localToggle schedule, toggle := localToggle }
  if s.timerDown then
    ({ s with playing := localToggle, timerDown := schedule.length = 1 },
      (schedule.getD 0 default).output s.settings.gpio :: loadFirst schedule)
  else (s, [])

def Driver.tim1IntrHandler (s : Driver) : Driver × List PwmAction :=
  if s.single.length - 1 ≤ s.currentChannel then
    let single := s.singleToggle s.toggle
    ({ s with playing := s.toggle, currentChannel := 0, timerDown := s.timerDown || single.length = 1 },
      (single.getD (single.length - 1) default).output s.settings.gpio :: loadFirst single)
  else
    ({ s with currentChannel := s.currentChannel + 1 },
      [(s.single.getD s.currentChannel default).output s.settings.gpio,
        .load (s.single.getD (s.currentChannel + 1) default).hTime])

/-- The settings after an event. -/
def Settings.apply (p : Settings) : PwmEvent → Settings
  | .add channel => p.add channel
  | .delete channel => p.delete channel
  | .setDuty duty channel => p.setDuty duty channel
  | .setFreq freq => p.setFreq freq
  | .start | .tim1Intr => p

def pwm : Machine Driver PwmEvent PwmAction :=
  ⟨fun s e =>
    match e with
    | .start => s.pwmStart
    | .tim1Intr => s.tim1IntrHandler
    | e => ({ s with settings := s.settings.apply e }, [])⟩

/-- Before `pwm_init`, which sets the frequency and calls `pwm_start`. -/
def Driver.boot : Driver := ⟨⟨[], 0, 0⟩, fun _ => [], true, true, 0, true⟩

/-- After `pwm_init`. -/
def Driver.initial : Driver := pwm.final .boot [.setFreq 500, .start]

/-! ### The player -/

/-- A player that has a schedule of its own and, for the next period, the one that `pwm_start` left last. -/
structure Player where
  settings : Settings
  latest : List SingleParam
  schedule : List SingleParam
  currentChannel : Nat
  timerDown : Bool

def Player.pwmStart (t : Player) : Player × List PwmAction :=
  let schedule := t.settings.schedule
  if t.timerDown then
    ({ t with latest := schedule, schedule := schedule, timerDown := schedule.length = 1 },
      (schedule.getD 0 default).output t.settings.gpio :: loadFirst schedule)
  else ({ t with latest := schedule }, [])

def Player.tim1IntrHandler (t : Player) : Player × List PwmAction :=
  if t.schedule.length - 1 ≤ t.currentChannel then
    ({ t with schedule := t.latest, currentChannel := 0, timerDown := t.timerDown || t.latest.length = 1 },
      (t.latest.getD (t.latest.length - 1) default).output t.settings.gpio :: loadFirst t.latest)
  else
    ({ t with currentChannel := t.currentChannel + 1 },
      [(t.schedule.getD t.currentChannel default).output t.settings.gpio,
        .load (t.schedule.getD (t.currentChannel + 1) default).hTime])

def player : Machine Player PwmEvent PwmAction :=
  ⟨fun t e =>
    match e with
    | .start => t.pwmStart
    | .tim1Intr => t.tim1IntrHandler
    | e => ({ t with settings := t.settings.apply e }, [])⟩

def Player.boot : Player := ⟨⟨[], 0, 0⟩, [], [], 0, true⟩

def Player.initial : Player := player.final .boot [.setFreq 500, .start]

/-! ### One period, one schedule -/

/-- `pwm_start` is called while the timer is down, or while the table that `pwm_toggle` names is played: once in a
period. -/
def OncePerPeriod (s : Driver) : PwmEvent → Prop
  | .start => s.timerDown = true ∨ s.playing = s.toggle
  | _ => True

instance (s : Driver) : DecidablePred (OncePerPeriod s)
  | .start => inferInstanceAs (Decidable (_ ∨ _))
  | .add _ | .delete _ | .setDuty _ _ | .setFreq _ | .tim1Intr => instDecidableTrue

/-- While the timer runs, only the handler at the end of a period changes what is played. -/
def KeepsPlaying (s : Driver) (e : PwmEvent) : Prop :=
  s.timerDown = false → e = .tim1Intr ∨ (pwm.next s e).single = s.single ∧ (pwm.next s e).playing = s.playing

/-- A player plays what the driver plays. -/
structure Plays (s : Driver) (t : Player) : Prop where
  settings : t.settings = s.settings
  latest : t.latest = s.singleToggle s.toggle
  schedule : t.schedule = s.single
  currentChannel : t.currentChannel = s.currentChannel
  timerDown : t.timerDown = s.timerDown

variable {s : Driver} {t : Player}

theorem tim1IntrHandler_plays (h : Plays s t) :
    Plays s.tim1IntrHandler.1 t.tim1IntrHandler.1 ∧ s.tim1IntrHandler.2 = t.tim1IntrHandler.2 := by
  obtain ⟨hsettings, hlatest, hschedule, hcurrent, hdown⟩ := h
  rw [Driver.tim1IntrHandler, Player.tim1IntrHandler, hsettings, hlatest, hschedule, hcurrent, hdown]
  split_ifs with hend
  · exact ⟨⟨rfl, rfl, rfl, rfl, rfl⟩, rfl⟩
  · exact ⟨⟨rfl, rfl, rfl, rfl, rfl⟩, rfl⟩

/-- `pwm_start` writes the other table while one is played. -/
theorem single_update (schedule : List SingleParam) (hplaying : s.playing = s.toggle) :
    Function.update s.singleToggle (!s.toggle) schedule s.playing = s.single := by
  rw [hplaying, Driver.single, hplaying]
  exact Function.update_of_ne (Bool.eq_not_self s.toggle).mp _ _

theorem pwmStart_plays (h : Plays s t) (hok : OncePerPeriod s .start) :
    Plays s.pwmStart.1 t.pwmStart.1 ∧ s.pwmStart.2 = t.pwmStart.2 := by
  obtain ⟨hsettings, hlatest, hschedule, hcurrent, hdown⟩ := h
  have hwritten : s.settings.schedule = Function.update s.singleToggle (!s.toggle) s.settings.schedule (!s.toggle) :=
    (Function.update_self (!s.toggle) s.settings.schedule s.singleToggle).symm
  rw [Driver.pwmStart, Player.pwmStart, hsettings, hdown]
  dsimp only
  split_ifs with hstopped
  · exact ⟨⟨rfl, hwritten, hwritten, hcurrent, rfl⟩, rfl⟩
  · have hkept := single_update s.settings.schedule (hok.resolve_left hstopped)
    exact ⟨⟨rfl, hwritten, hschedule.trans hkept.symm, hcurrent, rfl⟩, rfl⟩

theorem step_plays (s : Driver) (t : Player) (e : PwmEvent) (h : Plays s t) (hok : OncePerPeriod s e) :
    Plays (pwm.next s e) (player.next t e) ∧ (pwm.actions s e).filterMap some = player.actions t e := by
  rw [List.filterMap_some]
  have hsettings : ∀ e : PwmEvent, Plays { s with settings := s.settings.apply e } { t with settings := t.settings.apply e } :=
    fun e => ⟨congrArg (·.apply e) h.settings, h.latest, h.schedule, h.currentChannel, h.timerDown⟩
  cases e with
  | add channel => exact ⟨hsettings (.add channel), rfl⟩
  | delete channel => exact ⟨hsettings (.delete channel), rfl⟩
  | setDuty duty channel => exact ⟨hsettings (.setDuty duty channel), rfl⟩
  | setFreq freq => exact ⟨hsettings (.setFreq freq), rfl⟩
  | start => exact pwmStart_plays h hok
  | tim1Intr => exact tim1IntrHandler_plays h

theorem step_keepsPlaying (s : Driver) (e : PwmEvent) (hok : OncePerPeriod s e) : KeepsPlaying s e := by
  intro hrunning
  cases e with
  | start =>
    have hplaying : s.playing = s.toggle := hok.resolve_left fun hdown => absurd (hrunning.symm.trans hdown) (by decide)
    have hstart : pwm.next s .start = { s with
        singleToggle := Function.update s.singleToggle (!s.toggle) s.settings.schedule, toggle := !s.toggle } := by
      show s.pwmStart.1 = _
      rw [Driver.pwmStart]
      dsimp only
      rw [if_neg (by rw [hrunning]; decide)]
    rw [hstart]
    exact Or.inr ⟨single_update _ hplaying, rfl⟩
  | tim1Intr => exact Or.inl rfl
  | add | delete | setDuty | setFreq => exact Or.inr ⟨rfl, rfl⟩

theorem initial_plays : Plays .initial .initial := ⟨rfl, rfl, rfl, rfl, rfl⟩

/-- When `pwm_start` is called once in a period, the outputs and times are those of a player that keeps a whole schedule
of one `pwm_start` for each period, and the table and the number of entries that are played stay as they are. -/
theorem pwm_plays_schedules (es : List PwmEvent) (hok : pwm.Along OncePerPeriod .initial es) :
    pwm.trace .initial es = player.trace .initial es ∧ pwm.Along KeepsPlaying .initial es := by
  refine ⟨?_, Machine.along_of_step (I := fun _ => True) (fun _ _ _ _ => trivial) (fun s e _ => step_keepsPlaying s e)
    trivial hok⟩
  rw [← Machine.trace_eq_of_simulation step_plays initial_plays hok, List.filterMap_some]

/-- A channel that is set up, and set to another duty while it is on. -/
def oneChannel : List PwmEvent := [.add 1, .setDuty 512 1, .start, .tim1Intr, .setDuty 256 1, .start, .tim1Intr, .tim1Intr]

theorem pwm_plays_schedules_one_channel :
    pwm.trace .initial oneChannel = player.trace .initial oneChannel ∧ pwm.Along KeepsPlaying .initial oneChannel :=
  pwm_plays_schedules oneChannel (by decide +kernel)

/-- Two duties are set in one period: the second `pwm_start` writes the table that is played. -/
theorem pwm_start_twice_in_a_period :
    ¬ ∀ es : List PwmEvent, pwm.trace .initial es = player.trace .initial es ∧ pwm.Along KeepsPlaying .initial es := by
  intro hall
  have htrace := (hall [.add 1, .add 2, .setDuty 512 1, .start, .setDuty 256 1, .start, .setDuty 256 2, .start,
    .tim1Intr]).1
  exact absurd htrace (by decide +kernel)

end EspClock.Pwm
