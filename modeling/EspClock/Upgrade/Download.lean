import EspClock.Upgrade.Chunks
import EspClock.Lib.Decimal
import EspClock.Lib.Pattern

/-!
# The download of an upgrade

`upgrade.c`: the answer of the server comes in segments. The first one has the header, from which the length of the image is
taken; all that follows is handed on to the flash, and the upgrade is over as soon as that many bytes have come.
-/

namespace EspClock.Upgrade

open Nor Decimal Pattern

/-! ### Strings -/

def crlf : List UInt8 := ascii "\r\n"

def blankLine : List UInt8 := ascii "\r\n\r\n"

def contentLength : List UInt8 := ascii "Content-Length"

def lengthLabel : List UInt8 := ascii "Content-Length: "

/-- `atoi` of the C library -/
def atoi (text : List UInt8) : Int :=
  match text.dropWhile fun c => c = 32 ∨ 9 ≤ c.toNat ∧ c.toNat ≤ 13 with
  | 45 :: digits => -value (digits.takeWhile fun c => IsDigit c)
  | 43 :: digits => value (digits.takeWhile fun c => IsDigit c)
  | digits => value (digits.takeWhile fun c => IsDigit c)

/-! ### The functions -/

/-- The flag of `system_upgrade_flag_set`. -/
inductive Flag where
  | idle
  | start
  | finish
  deriving DecidableEq

/-- The flash, `upgrade`, `totallength`, `sumlength` and the flag. -/
structure State where
  flash : Flash
  upgrade : Option UpgradeParam
  totallength : Nat
  sumlength : Nat
  flag : Flag

/-- The sectors of the second image in a flash of this size. -/
def userBin2 (flashByte : UInt8) : Nat × Nat :=
  let highHalf := (flashByte &&& 0xF0) >>> 4
  if highHalf = 2 ∨ highHalf = 3 ∨ highHalf = 4 then (129, 123) else (65, 59)

/-- `system_upgrade_init`; `bin1` says that `system_upgrade_userbin_check` is `USER_BIN1`. -/
def systemUpgradeInit (bin1 : Bool) (s : State) : State :=
  let upgrade := s.upgrade.getD ⟨0, 0, 0, 0, []⟩
  let sec := if bin1 then (userBin2 (s.flash 3)).1 else 1
  { s with
    flag := .idle
    upgrade := some { upgrade with fwBinSec := sec, fwBinSecNum := (userBin2 (s.flash 3)).2, fwBinAddr := sec * secSize } }

/-- `system_upgrade_start` -/
def systemUpgradeStart (bin1 : Bool) (s : State) : State :=
  if s.flag = .start then s else { systemUpgradeInit bin1 s with flag := .start }

/-- `system_upgrade`; without the structure there is nowhere to write to. -/
def systemUpgrade (s : State) (data : List UInt8) (result : WriteResult) : Option State :=
  if data = [] then some s
  else s.upgrade.map fun upgrade =>
    let written := systemUpgradeInternal upgrade s.flash data result
    { s with upgrade := some written.2.1, flash := written.2.2 }

/-- `upgrade_check` -/
def upgradeCheck (s : State) : State :=
  if s.flag ≠ .finish then { s with totallength := 0, sumlength := 0, flag := .idle, upgrade := none }
  else { s with upgrade := none }

/-- The length in the header; `none` when it does not fit `lengthbuffer`. -/
def lengthField (text : List UInt8) (sumlength : Nat) : Option Nat :=
  match findPlain lengthLabel text with
  | none => some sumlength
  | some j =>
    match findPlain crlf (text.drop (j + 16)) with
    | none => some sumlength
    | some k => if k < 32 then some (atoi ((text.drop (j + 16)).take k) % 2 ^ 32).toNat else none

/-- The end of `upgrade_download`; `reading` says that the connection is in the state `ESPCONN_READ`. -/
def received (reading : Bool) (s : State) : State :=
  if s.totallength = s.sumlength then upgradeCheck { s with flag := .finish, totallength := 0, sumlength := 0 }
  else if reading then s else { s with totallength := 0, sumlength := 0 }

/-- `upgrade_download` -/
def upgradeDownload (s : State) (data : List UInt8) (reading : Bool) (result : WriteResult) : Option State :=
  let text := data.takeWhile (· ≠ 0)
  match if s.totallength = 0 ∧ (findPlain contentLength text).isSome then findPlain blankLine text else none with
  | some i =>
    let body := data.drop (i + 4)
    (systemUpgrade { s with totallength := (s.totallength + body.length) % 2 ^ 32 } body result).bind fun s =>
      (lengthField text s.sumlength).map fun sumlength => received reading { s with sumlength := sumlength }
  | none =>
    (systemUpgrade { s with totallength := (s.totallength + data.length) % 2 ^ 32 } data result).map (received reading)

/-- What happens to an upgrade: it is started, a segment comes, it is checked by the timer, or there is no connection. -/
inductive Event where
  | start
  | segment (data : List UInt8) (reading : Bool) (result : WriteResult)
  | check
  | connectTimeout

/-- A step; `none` when the processor stops at an address it must not use. -/
def step (bin1 : Bool) (s : State) : Event → Option State
  | .start => some (systemUpgradeStart bin1 s)
  | .segment data reading result => upgradeDownload s data reading result
  | .check => some (upgradeCheck s)
  | .connectTimeout => some { s with upgrade := none }

def run (bin1 : Bool) : State → List Event → Option State
  | s, [] => some s
  | s, e :: events => (step bin1 s e).bind fun s => run bin1 s events

/-! ### The other image -/

/-- The sectors of the image that runs and of the one that is written. -/
def runningSectors (bin1 : Bool) (f : Flash) : Nat × Nat := if bin1 then (1, (userBin2 (f 3)).2) else userBin2 (f 3)

def newSectors (bin1 : Bool) (f : Flash) : Nat × Nat := if bin1 then userBin2 (f 3) else (1, (userBin2 (f 3)).2)

theorem userBin2_eq (v : UInt8) : userBin2 v = (129, 123) ∨ userBin2 v = (65, 59) := by
  rw [userBin2]
  split
  · exact Or.inl rfl
  · exact Or.inr rfl

theorem newSectors_bounds (bin1 : Bool) (f : Flash) :
    0 < (newSectors bin1 f).1 ∧ (newSectors bin1 f).1 + (newSectors bin1 f).2 ≤ 256 := by
  rw [newSectors]
  rcases userBin2_eq (f 3) with h | h <;> cases bin1 <;> rw [h] <;> decide

/-- The running image is outside the sectors of the new one. -/
theorem running_outside (bin1 : Bool) (f : Flash) {a : Nat} (hlo : (runningSectors bin1 f).1 * secSize ≤ a)
    (hhi : a < ((runningSectors bin1 f).1 + (runningSectors bin1 f).2) * secSize) :
    a < (newSectors bin1 f).1 * secSize ∨ ((newSectors bin1 f).1 + (newSectors bin1 f).2) * secSize ≤ a := by
  rw [runningSectors] at hlo hhi
  rw [newSectors]
  simp only [secSize] at hlo hhi ⊢
  rcases userBin2_eq (f 3) with h | h
  · rw [h] at hlo hhi ⊢
    cases bin1
    · exact Or.inr (by simp only [Bool.false_eq_true, if_false] at hlo ⊢; omega)
    · exact Or.inl (by simp only [if_true] at hhi ⊢; omega)
  · rw [h] at hlo hhi ⊢
    cases bin1
    · exact Or.inr (by simp only [Bool.false_eq_true, if_false] at hlo ⊢; omega)
    · exact Or.inl (by simp only [if_true] at hhi ⊢; omega)

/-- A structure that is there is about the new image. -/
def Aimed (bin1 : Bool) (s : State) : Prop :=
  ∀ u, s.upgrade = some u → u.Of (newSectors bin1 s.flash).1 (newSectors bin1 s.flash).2

/-- A step that is about the new image and leaves the rest of the flash alone. -/
def Keeps (bin1 : Bool) (s s' : State) : Prop :=
  Aimed bin1 s' ∧ SameOutside (newSectors bin1 s.flash).1 (newSectors bin1 s.flash).2 s.flash s'.flash

variable {bin1 : Bool} {s s' : State}

theorem newSectors_congr {f g : Flash} (h : SameOutside (newSectors bin1 f).1 (newSectors bin1 f).2 f g) :
    newSectors bin1 g = newSectors bin1 f := by
  have hpos := (newSectors_bounds bin1 f).1
  have hbyte : f 3 = g 3 := by
    refine h 3 (Or.inl ?_)
    simp only [secSize]
    omega
  rw [newSectors, newSectors, hbyte]

theorem systemUpgrade_keeps (h : Aimed bin1 s) {n : Nat} {data : List UInt8} {result : WriteResult}
    (hstep : systemUpgrade { s with totallength := n } data result = some s') : Keeps bin1 s s' := by
  rw [systemUpgrade] at hstep
  split at hstep
  · cases hstep
    exact ⟨h, SameOutside.refl _ _ _⟩
  · obtain ⟨u, hu, rfl⟩ := Option.map_eq_some_iff.mp hstep
    obtain ⟨hof, hsame⟩ := systemUpgradeInternal_same (h u hu) s.flash data result
    refine ⟨?_, hsame⟩
    intro v hv
    cases hv
    have hsectors := newSectors_congr hsame
    show UpgradeParam.Of (newSectors bin1 (systemUpgradeInternal u s.flash data result).2.2).1 _ _
    rw [hsectors]
    exact hof

theorem upgradeCheck_keeps (s : State) : (upgradeCheck s).flash = s.flash ∧ (upgradeCheck s).upgrade = none := by
  rw [upgradeCheck]
  split
  · exact ⟨rfl, rfl⟩
  · exact ⟨rfl, rfl⟩

theorem received_keeps (reading : Bool) (s : State) : (received reading s).flash = s.flash ∧
    ((received reading s).upgrade = none ∨ (received reading s).upgrade = s.upgrade) := by
  rw [received]
  split
  · obtain ⟨hflash, hupgrade⟩ := upgradeCheck_keeps { s with flag := .finish, totallength := 0, sumlength := 0 }
    exact ⟨hflash, Or.inl hupgrade⟩
  · split
    · exact ⟨rfl, Or.inr rfl⟩
    · exact ⟨rfl, Or.inr rfl⟩

/-- Steps that do not touch the flash and keep the structure or give it up. -/
theorem Keeps.of_same {t : State} (h : Keeps bin1 s t) (hflash : s'.flash = t.flash)
    (hupgrade : s'.upgrade = none ∨ s'.upgrade = t.upgrade) : Keeps bin1 s s' := by
  refine ⟨?_, by rw [hflash]; exact h.2⟩
  intro u hu
  rcases hupgrade with hnone | hsame
  · rw [hnone] at hu
    cases hu
  · rw [hflash]
    exact h.1 u (hsame ▸ hu)

theorem upgradeDownload_keeps (h : Aimed bin1 s) {data : List UInt8} {reading : Bool} {result : WriteResult}
    (hstep : upgradeDownload s data reading result = some s') : Keeps bin1 s s' := by
  rw [upgradeDownload] at hstep
  dsimp only at hstep
  split at hstep
  · obtain ⟨t, ht, hrest⟩ := Option.bind_eq_some_iff.mp hstep
    obtain ⟨sumlength, -, rfl⟩ := Option.map_eq_some_iff.mp hrest
    have hkeeps := systemUpgrade_keeps h ht
    obtain ⟨hflash, hupgrade⟩ := received_keeps reading { t with sumlength := sumlength }
    exact hkeeps.of_same hflash hupgrade
  · obtain ⟨t, ht, rfl⟩ := Option.map_eq_some_iff.mp hstep
    have hkeeps := systemUpgrade_keeps h ht
    obtain ⟨hflash, hupgrade⟩ := received_keeps reading t
    exact hkeeps.of_same hflash hupgrade

theorem step_keeps (h : Aimed bin1 s) {e : Event} (hstep : step bin1 s e = some s') : Keeps bin1 s s' := by
  have hrefl : Keeps bin1 s s := ⟨h, SameOutside.refl _ _ _⟩
  cases e with
  | start =>
    cases hstep
    rw [systemUpgradeStart]
    split
    · exact hrefl
    · refine ⟨?_, SameOutside.refl _ _ _⟩
      intro u hu
      cases hu
      have hbounds := (newSectors_bounds bin1 s.flash).2
      cases bin1
      · exact ⟨rfl, rfl, Nat.le_refl _, hbounds⟩
      · exact ⟨rfl, rfl, Nat.le_refl _, hbounds⟩
  | segment data reading result => exact upgradeDownload_keeps h hstep
  | check =>
    cases hstep
    exact hrefl.of_same (upgradeCheck_keeps s).1 (Or.inl (upgradeCheck_keeps s).2)
  | connectTimeout =>
    cases hstep
    exact hrefl.of_same rfl (Or.inl rfl)

theorem run_keeps (events : List Event) (h : Aimed bin1 s) (hrun : run bin1 s events = some s') : Keeps bin1 s s' := by
  induction events generalizing s with
  | nil =>
    cases hrun
    exact ⟨h, SameOutside.refl _ _ _⟩
  | cons e events ih =>
    obtain ⟨t, ht, hrest⟩ := Option.bind_eq_some_iff.mp hrun
    have hfirst := step_keeps h ht
    have hlast := ih hfirst.1 hrest
    rw [Keeps, newSectors_congr hfirst.2] at hlast
    exact ⟨hlast.1, hfirst.2.trans hlast.2⟩

/-- Before the first upgrade, with a flash of half a megabyte. -/
def booted : State := ⟨fun a => if a = 3 then 0 else 0x5A, none, 0, 0, .idle⟩

end EspClock.Upgrade
