import EspClock.I2c.Calls

/-!
# Transfers

What `i2c.write` and `i2c.read` come to on the lines: how many bytes a target has taken when the module counts them, whatever
numbers, tables and strings they come in, and which bytes it has given.
-/

namespace EspClock.I2c

variable {σ : Type} {b : Bus σ} {ps : List (Party σ)}

/-! ### The bytes of the arguments -/

/-- A number that is sent as a byte. -/
def InRange (n : Int) : Prop := 0 ≤ n ∧ n ≤ 255

instance (n : Int) : Decidable (InRange n) := inferInstanceAs (Decidable (_ ∧ _))

def byteOf (n : Int) : UInt8 := UInt8.ofNat n.toNat

namespace Datum

def good : Datum → Bool
  | .number n => InRange n
  | .table ns => ns.all fun n => InRange n
  | .string _ => true

/-- The bytes of the argument up to a number that is not sent. -/
def bytes : Datum → List UInt8
  | .number n => if InRange n then [byteOf n] else []
  | .table ns => (ns.takeWhile fun n => InRange n).map byteOf
  | .string bytes => bytes

end Datum

/-- The bytes of the arguments up to a number that is not sent, and whether there is none. -/
def payload : List Datum → List UInt8 × Bool
  | [] => ([], true)
  | d :: args => if d.good then (d.bytes ++ (payload args).1, (payload args).2) else (d.bytes, false)

/-- Bytes are sent until one is not acknowledged. -/
def pour : List UInt8 → List (Party σ) → Nat × List (Party σ)
  | [], ps => (0, ps)
  | byte :: bytes, ps =>
    let sent := transfer byte false ps
    if sent.2.1 then
      let rest := pour bytes sent.2.2
      (rest.1 + 1, rest.2)
    else (0, sent.2.2)

theorem pour_le (bytes : List UInt8) (ps : List (Party σ)) : (pour bytes ps).1 ≤ bytes.length := by
  induction bytes generalizing ps with
  | nil => exact Nat.le_refl 0
  | cons byte bytes ih =>
    rw [pour]
    split
    · exact Nat.succ_le_succ (ih _)
    · exact Nat.zero_le _

theorem pour_append (xs ys : List UInt8) (ps : List (Party σ)) : pour (xs ++ ys) ps =
    if (pour xs ps).1 = xs.length then (xs.length + (pour ys (pour xs ps).2).1, (pour ys (pour xs ps).2).2) else pour xs ps := by
  induction xs generalizing ps with
  | nil => simp [pour]
  | cons x xs ih =>
    by_cases hacked : (transfer x false ps).2.1 = true
    · simp only [List.cons_append, pour, hacked, if_true, ih, List.length_cons, Nat.add_right_cancel_iff]
      split
      · simp only [Prod.mk.injEq, and_true]
        omega
      · rfl
    · simp [pour, hacked]

/-! ### The loops of `i2c_write` -/

theorem sendString_eq (h : Rest b ps) (bytes : List UInt8) :
    ∃ b', sendString bytes b = ((pour bytes ps).1, decide ((pour bytes ps).1 = bytes.length), b') ∧ Rest b' (pour bytes ps).2 := by
  induction bytes generalizing b ps with
  | nil => exact ⟨b, rfl, h⟩
  | cons byte bytes ih =>
    have hsent := sendByte_eq h byte
    obtain ⟨b', heq, hrest⟩ := ih (Rest.of_low (transfer byte false ps).2.2)
    by_cases hacked : (transfer byte false ps).2.1 = true
    · refine ⟨b', ?_, ?_⟩
      · simp only [sendString, hsent, hacked, if_true, heq, pour, List.length_cons, Nat.add_right_cancel_iff]
      · simp only [pour, hacked, if_true]
        exact hrest
    · refine ⟨⟨true, false, (transfer byte false ps).2.2.map Party.target⟩, ?_, ?_⟩
      · simp [sendString, hsent, hacked, pour]
      · simp only [pour, hacked]
        exact Rest.of_low _

/-- A table: `none` for a number that is not sent. -/
theorem sendTable_eq (h : Rest b ps) (ns : List Int) :
    ∃ b', sendTable ns b = (if (pour (Datum.table ns).bytes ps).1 < (Datum.table ns).bytes.length then
        some ((pour (Datum.table ns).bytes ps).1, false)
      else if (Datum.table ns).good then some ((pour (Datum.table ns).bytes ps).1, true) else none, b') ∧
      Rest b' (pour (Datum.table ns).bytes ps).2 := by
  induction ns generalizing b ps with
  | nil => exact ⟨b, rfl, h⟩
  | cons n ns ih =>
    by_cases hgood : InRange n
    · have hchecked : ¬ (n < 0 ∨ 255 < n) := by
        obtain ⟨hzero, htop⟩ := hgood
        omega
      have hbytes : (Datum.table (n :: ns)).bytes = byteOf n :: (Datum.table ns).bytes := by simp [Datum.bytes, hgood]
      have hall : (Datum.table (n :: ns)).good = (Datum.table ns).good := by simp [Datum.good, hgood]
      have hsent := sendByte_eq h (byteOf n)
      obtain ⟨b', heq, hrest⟩ := ih (Rest.of_low (transfer (byteOf n) false ps).2.2)
      rw [hbytes, hall]
      by_cases hacked : (transfer (byteOf n) false ps).2.1 = true
      · refine ⟨b', ?_, ?_⟩
        · simp only [sendTable, if_neg hchecked]
          rw [show UInt8.ofNat n.toNat = byteOf n from rfl, hsent]
          simp only [hacked, if_true, heq, pour, List.length_cons, Nat.add_lt_add_iff_right]
          split
          · rfl
          · split
            · rfl
            · rfl
        · simp only [pour, hacked, if_true]
          exact hrest
      · refine ⟨⟨true, false, (transfer (byteOf n) false ps).2.2.map Party.target⟩, ?_, ?_⟩
        · simp only [sendTable, if_neg hchecked]
          rw [show UInt8.ofNat n.toNat = byteOf n from rfl, hsent]
          simp [hacked, pour]
        · simp only [pour, hacked]
          exact Rest.of_low _
    · have hchecked : n < 0 ∨ 255 < n := by
        by_contra hnot
        exact hgood ⟨by omega, by omega⟩
      refine ⟨b, ?_, ?_⟩
      · simp [sendTable, hchecked, Datum.bytes, Datum.good, hgood, pour]
      · simp [Datum.bytes, hgood, pour]
        exact h

/-- One argument of the loop. -/
theorem writeArgs_cons (h : Rest b ps) (d : Datum) (args : List Datum) (wrote : Nat) :
    ∃ b', writeArgs wrote (d :: args) b =
        (if (pour d.bytes ps).1 < d.bytes.length then (.wrote (wrote + (pour d.bytes ps).1), b')
        else if d.good then writeArgs (wrote + (pour d.bytes ps).1) args b' else (.wrongArgRange, b')) ∧
      Rest b' (pour d.bytes ps).2 := by
  cases d with
  | number n =>
    by_cases hgood : InRange n
    · have hchecked : ¬ (n < 0 ∨ 255 < n) := by
        obtain ⟨hzero, htop⟩ := hgood
        omega
      have hsent := sendByte_eq h (byteOf n)
      refine ⟨⟨true, false, (transfer (byteOf n) false ps).2.2.map Party.target⟩, ?_, ?_⟩
      · simp only [writeArgs, if_neg hchecked]
        rw [show UInt8.ofNat n.toNat = byteOf n from rfl, hsent]
        by_cases hacked : (transfer (byteOf n) false ps).2.1 = true
        · simp [Datum.bytes, Datum.good, hgood, pour, hacked]
        · simp [Datum.bytes, hgood, pour, hacked]
      · by_cases hacked : (transfer (byteOf n) false ps).2.1 = true
        · simp only [Datum.bytes, hgood, if_true, pour, hacked]
          exact Rest.of_low _
        · simp only [Datum.bytes, hgood, if_true, pour, hacked]
          exact Rest.of_low _
    · have hchecked : n < 0 ∨ 255 < n := by
        by_contra hnot
        exact hgood ⟨by omega, by omega⟩
      refine ⟨b, ?_, ?_⟩
      · simp [writeArgs, hchecked, Datum.bytes, Datum.good, hgood, pour]
      · simp only [Datum.bytes, hgood, if_false, pour]
        exact h
  | table ns =>
    obtain ⟨b', heq, hrest⟩ := sendTable_eq h ns
    refine ⟨b', ?_, hrest⟩
    rw [writeArgs, heq]
    by_cases hshort : (pour (Datum.table ns).bytes ps).1 < (Datum.table ns).bytes.length
    · simp [hshort]
    · by_cases hgood : (Datum.table ns).good = true
      · simp [hshort, hgood]
      · simp [hshort, hgood]
  | string bytes =>
    obtain ⟨b', heq, hrest⟩ := sendString_eq h bytes
    refine ⟨b', ?_, hrest⟩
    have hle := pour_le bytes ps
    simp only [writeArgs, heq, Datum.bytes, Datum.good, decide_eq_true_eq, if_true]
    by_cases hall : (pour bytes ps).1 = bytes.length
    · rw [if_pos hall, if_neg (by omega)]
    · rw [if_neg hall, if_pos (by omega)]

/-- The loop over the arguments. -/
theorem writeArgs_eq (h : Rest b ps) (args : List Datum) (wrote : Nat) :
    ∃ b', writeArgs wrote args b =
        (if (pour (payload args).1 ps).1 < (payload args).1.length ∨ (payload args).2 = true then
          .wrote (wrote + (pour (payload args).1 ps).1) else .wrongArgRange, b') ∧
      Rest b' (pour (payload args).1 ps).2 := by
  induction args generalizing b ps wrote with
  | nil => exact ⟨b, by simp [writeArgs, payload, pour], h⟩
  | cons d args ih =>
    obtain ⟨b', heq, hrest⟩ := writeArgs_cons h d args wrote
    have hle := pour_le d.bytes ps
    rw [heq]
    by_cases hgood : d.good = true
    · have hpayload : payload (d :: args) = (d.bytes ++ (payload args).1, (payload args).2) := by rw [payload, if_pos hgood]
      rw [hpayload]
      dsimp only
      rw [pour_append]
      by_cases hall : (pour d.bytes ps).1 = d.bytes.length
      · obtain ⟨b'', hargs, hlast⟩ := ih hrest (wrote + (pour d.bytes ps).1)
        refine ⟨b'', ?_, ?_⟩
        · rw [if_neg (by omega), if_pos hgood, hargs, if_pos hall, List.length_append, hall]
          simp only [Nat.add_lt_add_iff_left, Nat.add_assoc]
        · rw [if_pos hall]
          exact hlast
      · refine ⟨b', ?_, ?_⟩
        · rw [if_pos (by omega), if_neg hall, if_pos (Or.inl (by rw [List.length_append]; omega))]
        · rw [if_neg hall]
          exact hrest
    · have hpayload : payload (d :: args) = (d.bytes, false) := by rw [payload, if_neg hgood]
      rw [hpayload]
      refine ⟨b', ?_, hrest⟩
      by_cases hshort : (pour d.bytes ps).1 < d.bytes.length
      · rw [if_pos hshort, if_pos (Or.inl hshort)]
      · rw [if_neg hshort, if_neg hgood, if_neg]
        rintro (hlt | hfalse)
        · exact hshort hlt
        · cases hfalse

/-! ### A target that is addressed -/

namespace Application

variable (app : Application σ)

/-- How many of the bytes are taken, up to the first one that is not, and what is made of them. -/
def takes : σ → List UInt8 → Nat × σ
  | s, [] => (0, s)
  | s, byte :: bytes =>
    match app.accept s byte with
    | some s => ((takes s bytes).1 + 1, (takes s bytes).2)
    | none => (0, s)

/-- The next bytes that are given. -/
def gives : Nat → σ → List UInt8 × σ
  | 0, s => ([], s)
  | n + 1, s =>
    let next := app.next s
    (next.1 :: (gives n next.2).1, (gives n next.2).2)

end Application

variable {before behind : List (Party σ)} {p : Party σ}

theorem drives_of_not_sending {q : Party σ} (h : ∀ byte, q.session ≠ .sending byte) : q.drives = 0xFF := by
  obtain ⟨address, app, state, session⟩ := q
  cases session with
  | idle => rfl
  | expecting first => rfl
  | sending byte => exact absurd rfl (h byte)

theorem onLine_of_not_sending (w : UInt8) {qs : List (Party σ)} (h : ∀ q ∈ qs, ∀ byte, q.session ≠ .sending byte) :
    onLine w qs = w := by
  rw [onLine]
  induction qs generalizing w with
  | nil => rfl
  | cons q qs ih =>
    have hones : ∀ w : UInt8, w &&& 0xFF = w := fun w => UInt8.and_neg_one
    rw [List.foldl_cons, drives_of_not_sending (h q List.mem_cons_self), hones,
      ih _ fun q hq => h q (List.mem_cons_of_mem _ hq)]

theorem after_idle {q : Party σ} (h : q.session = .idle) (line : UInt8) (acked : Bool) : q.after line acked = q := by
  rw [Party.after, h]

theorem acks_idle {q : Party σ} (h : q.session = .idle) (line : UInt8) : q.acks line = false := by
  rw [Party.acks, h]

/-- A byte on a bus with one party that is not idle. -/
theorem transfer_eq (hidle : ∀ q ∈ before ++ behind, q.session = .idle) (w : UInt8) (ack : Bool) :
    transfer w ack (before ++ p :: behind) = (w &&& p.drives, ack || p.acks (w &&& p.drives),
      before ++ p.after (w &&& p.drives) (ack || p.acks (w &&& p.drives)) :: behind) := by
  have hsilent : ∀ qs : List (Party σ), (∀ q ∈ qs, q.session = .idle) → (∀ line, qs.any (Party.acks line) = false) ∧
      (∀ line acked, qs.map (Party.after line acked) = qs) ∧ ∀ w, onLine w qs = w := by
    intro qs hqs
    refine ⟨fun line => ?_, fun line acked => ?_, fun w => ?_⟩
    · rw [List.any_eq_false]
      intro q hq
      rw [acks_idle (hqs q hq)]
      decide
    · exact (List.map_congr_left fun q hq => after_idle (hqs q hq) line acked).trans (List.map_id' qs)
    · apply onLine_of_not_sending
      intro q hq byte hsession
      rw [hqs q hq] at hsession
      cases hsession
  obtain ⟨hacks, hafter, honLine⟩ := hsilent before fun q hq => hidle q (List.mem_append_left _ hq)
  obtain ⟨hacks', hafter', honLine'⟩ := hsilent behind fun q hq => hidle q (List.mem_append_right _ hq)
  have hline : onLine w (before ++ p :: behind) = w &&& p.drives := by
    have hbefore := honLine w
    have hbehind := honLine' (w &&& p.drives)
    rw [onLine] at hbefore hbehind ⊢
    rw [List.foldl_append, hbefore, List.foldl_cons, hbehind]
  simp only [transfer, hline, List.any_append, List.any_cons, hacks, hacks', List.map_append, List.map_cons, hafter, hafter',
    Bool.false_or, Bool.or_false]

/-- A byte for a target that waits for it. -/
theorem transfer_expecting (hidle : ∀ q ∈ before ++ behind, q.session = .idle) (hp : p.session = .expecting false) (w : UInt8) :
    transfer w false (before ++ p :: behind) =
      match p.app.accept p.state w with
      | some s => (w, true, before ++ { p with state := s } :: behind)
      | none => (w, false, before ++ { p with session := .idle } :: behind) := by
  have hones : w &&& 0xFF = w := UInt8.and_neg_one
  have hdrives : p.drives = 0xFF := drives_of_not_sending fun byte h => by rw [hp] at h; cases h
  rw [transfer_eq hidle, hdrives, hones]
  cases haccept : p.app.accept p.state w with
  | none => simp [Party.acks, Party.after, hp, haccept]
  | some s => simp [Party.acks, Party.after, hp, haccept]

theorem pour_expecting (hidle : ∀ q ∈ before ++ behind, q.session = .idle) (hp : p.session = .expecting false)
    (bytes : List UInt8) :
    pour bytes (before ++ p :: behind) = ((p.app.takes p.state bytes).1,
      before ++ { p with
        state := (p.app.takes p.state bytes).2
        session := if (p.app.takes p.state bytes).1 < bytes.length then .idle else .expecting false } :: behind) := by
  induction bytes generalizing p with
  | nil =>
    obtain ⟨address, app, state, session⟩ := p
    cases hp
    rfl
  | cons byte bytes ih =>
    rw [pour, transfer_expecting hidle hp]
    cases haccept : p.app.accept p.state byte with
    | none => simp [Application.takes, haccept]
    | some s =>
      have hrest := ih (p := { p with state := s }) hp
      dsimp only at hrest ⊢
      rw [if_pos rfl, hrest]
      simp only [Application.takes, haccept, List.length_cons, Nat.add_lt_add_iff_right]

/-- A byte from a target that sends. -/
theorem transfer_sending (hidle : ∀ q ∈ before ++ behind, q.session = .idle) {byte : UInt8} (hp : p.session = .sending byte)
    (ack : Bool) : transfer 0xFF ack (before ++ p :: behind) =
      (byte, ack, before ++ (if ack then p.load else { p with session := .idle }) :: behind) := by
  have hdrives : 0xFF &&& p.drives = byte := by
    rw [Party.drives, hp]
    exact UInt8.neg_one_and
  rw [transfer_eq hidle, hdrives]
  simp [Party.acks, Party.after, hp]

/-- The loop of `i2c_read`: the target gives one byte after the other, and no byte more than are read. -/
theorem read_eq (hidle : ∀ q ∈ before ++ behind, q.session = .idle) (n : Nat) {byte : UInt8} (hp : p.session = .sending byte)
    (h : Rest b (before ++ p :: behind)) :
    ∃ b', read (n + 1) b = (byte :: (p.app.gives n p.state).1, b') ∧
      Rest b' (before ++ { p with state := (p.app.gives n p.state).2, session := .idle } :: behind) := by
  induction n generalizing b p byte with
  | zero =>
    have hread := recvByte_eq h false
    rw [transfer_sending hidle hp] at hread
    refine ⟨_, ?_, Rest.of_low _⟩
    simp only [read, Nat.lt_irrefl, decide_false, hread]
    rfl
  | succ n ih =>
    have hread := recvByte_eq h true
    rw [transfer_sending hidle hp, if_pos rfl] at hread
    obtain ⟨b', heq, hrest⟩ := ih (p := p.load) rfl (Rest.of_low (before ++ p.load :: behind))
    refine ⟨b', ?_, hrest⟩
    rw [read, decide_eq_true (Nat.succ_pos n), hread]
    dsimp only
    rw [heq]
    rfl

/-! ### Transfers with one target -/

/-- The party once it is addressed. -/
def Party.addressed (receiver : Bool) (p : Party σ) : Party σ :=
  let p := { p with state := p.app.addressed p.state receiver }
  if receiver then p.load else { p with session := .expecting false }

theorem toNat_addressByte {address : UInt16} (h : address < 128) (receiver : Bool) :
    (addressByte address receiver).toNat = 2 * address.toNat + receiver.toNat := by
  have hlt : address.toNat < 128 := h
  have hshift : (address <<< 1).toNat = 2 * address.toNat := by
    rw [UInt16.toNat_shiftLeft]
    show address.toNat <<< 1 % 65536 = _
    rw [Nat.shiftLeft_eq]
    omega
  have hor : ∀ bit, bit < 2 → 2 * address.toNat ||| bit = 2 * address.toNat + bit := by
    intro bit hbit
    exact (Nat.two_pow_add_eq_or_of_lt (i := 1) hbit address.toNat).symm
  show (address <<< 1 ||| if receiver then 1 else 0).toNat % 256 = _
  cases receiver
  · rw [UInt16.toNat_or, hshift]
    show (2 * address.toNat ||| 0) % 256 = 2 * address.toNat + 0
    rw [hor 0 (by decide)]
    omega
  · rw [UInt16.toNat_or, hshift]
    show (2 * address.toNat ||| 1) % 256 = 2 * address.toNat + 1
    rw [hor 1 (by decide)]
    omega

theorem addressByte_shift {address : UInt16} (h : address < 128) (receiver : Bool) :
    addressByte address receiver >>> 1 = address.toUInt8 := by
  have hlt : address.toNat < 128 := h
  have hbit := Bool.toNat_lt receiver
  rw [← UInt8.toNat_inj]
  show (addressByte address receiver).toNat >>> 1 = address.toNat % 256
  rw [toNat_addressByte h, Nat.shiftRight_eq_div_pow]
  omega

theorem addressByte_and {address : UInt16} (h : address < 128) (receiver : Bool) :
    (addressByte address receiver &&& 1 == 1) = receiver := by
  have hbit : (addressByte address receiver &&& 1).toNat = (2 * address.toNat + receiver.toNat) % 2 := by
    rw [UInt8.toNat_and, toNat_addressByte h]
    exact Nat.and_one_is_mod _
  rw [Bool.eq_iff_iff, beq_iff_eq, ← UInt8.toNat_inj, hbit]
  cases receiver
  · simp
  · simp [Nat.add_mod]

/-- The address byte behind a start reaches the one target that it is for. -/
theorem transfer_address {address : UInt16} (haddress : address < 128) (hp : p.address = address.toUInt8)
    (hothers : ∀ q ∈ before ++ behind, q.address ≠ p.address) (receiver : Bool) :
    (transfer (addressByte address receiver) false (begun (before ++ p :: behind))).2 =
      (true, ended before ++ p.addressed receiver :: ended behind) := by
  have hline : onLine (addressByte address receiver) (begun (before ++ p :: behind)) = addressByte address receiver := by
    apply onLine_of_not_sending
    intro q hq byte hsession
    rw [session_begun hq] at hsession
    cases hsession
  have hafter : ∀ (acked : Bool) (q : Party σ), q ∈ before ++ behind →
      Party.after (addressByte address receiver) acked { q with session := .expecting true } = { q with session := .idle } := by
    intro acked q hq
    have hne : ¬ address.toUInt8 = q.address := fun h => hothers q hq (h.symm.trans hp.symm)
    simp [Party.after, addressByte_shift haddress, hne]
  have hmine : ∀ acked : Bool, Party.after (addressByte address receiver) acked { p with session := .expecting true } =
      p.addressed receiver := by
    intro acked
    cases receiver
    · simp [Party.after, Party.addressed, addressByte_shift haddress, addressByte_and haddress, hp]
    · simp [Party.after, Party.addressed, addressByte_shift haddress, addressByte_and haddress, hp, Party.load]
  have hacks : (begun (before ++ p :: behind)).any (Party.acks (addressByte address receiver)) = true := by
    rw [List.any_eq_true]
    refine ⟨{ p with session := .expecting true }, List.mem_map.mpr ⟨p, by simp, rfl⟩, ?_⟩
    simp [Party.acks, addressByte_shift haddress, hp]
  simp only [transfer, hline, hacks, Bool.or_true, Prod.mk.injEq, true_and]
  simp only [begun, ended, List.map_append, List.map_cons, List.map_map]
  refine congrArg₂ (· ++ ·) ?_ (congrArg₂ (· :: ·) (hmine true) ?_)
  · exact List.map_congr_left fun q hq => hafter true q (List.mem_append_left _ hq)
  · exact List.map_congr_left fun q hq => hafter true q (List.mem_append_right _ hq)

theorem quiet_of_not_sending {q : Party σ} (h : ∀ byte, q.session ≠ .sending byte) : q.Quiet := by
  rw [Party.Quiet, drives_of_not_sending h]
  decide

theorem idle_of_ended {q : Party σ} (h : q ∈ ended before ++ ended behind) : q.session = .idle := by
  rcases List.mem_append.mp h with h | h
  · exact session_ended h
  · exact session_ended h

theorem ended_append_cons {q r : Party σ} (h : { q with session := .idle } = { r with session := .idle }) :
    ended (ended before ++ q :: ended behind) = ended (before ++ r :: behind) := by
  simp only [ended, List.map_append, List.map_cons, List.map_map, h]
  rfl

/-- A stop behind a transfer with one target. -/
theorem Rest.stop {q r : Party σ} (h : Rest b (ended before ++ q :: ended behind)) (hq : ∀ byte, q.session ≠ .sending byte)
    (hr : { q with session := .idle } = { r with session := .idle }) : Rest (masterStop b) (ended (before ++ r :: behind)) := by
  have hquiet : ∀ r ∈ ended before ++ q :: ended behind, r.Quiet := by
    intro r hr
    apply quiet_of_not_sending
    intro byte hsession
    rcases List.mem_append.mp hr with hmem | hmem
    · rw [session_ended hmem] at hsession
      cases hsession
    · rcases List.mem_cons.mp hmem with rfl | hmem
      · exact hq byte hsession
      · rw [session_ended hmem] at hsession
        cases hsession
  have hstop := (h.step (c := .stop) fun _ => hquiet).1
  have hended : (bytewise σ).next (ended before ++ q :: ended behind) .stop = ended (before ++ r :: behind) :=
    ended_append_cons hr
  rwa [hended] at hstop

/-- A start and an address. -/
theorem address_transfer {address : UInt16} (h : Rest b (before ++ p :: behind))
    (hquiet : ∀ q ∈ before ++ p :: behind, q.Quiet) (haddress : address < 128) (hp : p.address = address.toUInt8)
    (hothers : ∀ q ∈ before ++ behind, q.address ≠ p.address) (receiver : Bool) :
    ∃ b', sendAddress address receiver (masterStart b) = (true, b') ∧
      Rest b' (ended before ++ p.addressed receiver :: ended behind) := by
  have hstart : Rest (masterStart b) (begun (before ++ p :: behind)) := (h.step (c := .start) fun _ => hquiet).1
  have hsent : sendAddress address receiver (masterStart b) = _ := sendByte_eq hstart (addressByte address receiver)
  rw [transfer_address haddress hp hothers receiver] at hsent
  exact ⟨_, hsent, Rest.of_low _⟩

/-- A start, an address, any arguments of `i2c.write` and a stop: the target has taken exactly the bytes that the module
counts, or, when a wrong number ends the call, all bytes in front of it; nothing happens to the other targets. -/
theorem write_transfer {address : UInt16} {args : List Datum} (h : Rest b (before ++ p :: behind))
    (hquiet : ∀ q ∈ before ++ p :: behind, q.Quiet) (haddress : address < 128) (hp : p.address = address.toUInt8)
    (hothers : ∀ q ∈ before ++ behind, q.address ≠ p.address) (hargs : args ≠ []) :
    let sent := sendAddress address false (masterStart b)
    let wrote := write args sent.2
    let took := p.app.takes (p.app.addressed p.state false) (payload args).1
    sent.1 = true ∧
      wrote.1 = (if took.1 < (payload args).1.length ∨ (payload args).2 = true then .wrote took.1 else .wrongArgRange) ∧
      Rest (masterStop wrote.2) (ended (before ++ { p with state := took.2 } :: behind)) := by
  obtain ⟨b₁, hsent, hrest⟩ := address_transfer h hquiet haddress hp hothers false
  obtain ⟨b₂, hwrite, hrest⟩ := writeArgs_eq hrest args 0
  rw [pour_expecting (fun q hq => idle_of_ended hq) (p := p.addressed false) rfl] at hwrite hrest
  have hwrote : write args b₁ = writeArgs 0 args b₁ := by rw [write, if_neg hargs]
  rw [hwrite, Nat.zero_add] at hwrote
  rw [hsent]
  refine ⟨rfl, ?_, ?_⟩
  · show (write args b₁).1 = _
    rw [hwrote]
    rfl
  · show Rest (masterStop (write args b₁).2) _
    rw [hwrote]
    refine hrest.stop ?_ rfl
    intro byte hsession
    dsimp only at hsession
    split at hsession <;> cases hsession

theorem write_transfer_twoClocks :
    (write [.number 0, .table [0x30, 0x45], .string [0x10, 0x11, 0x12], .number 300]
      (sendAddress 0x68 false (masterStart freeBus)).2).1 = .wrote 4 :=
  (@write_transfer _ freeBus [] (twoClocks.drop 1) twoClocks[0] 0x68
    [.number 0, .table [0x30, 0x45], .string [0x10, 0x11, 0x12], .number 300] rest_freeBus (by decide) (by decide) (by rfl)
    (by decide) (by decide)).2.1.trans (by decide +kernel)

/-- A start, an address, `i2c.read` and a stop: the module has read the next bytes of the target and the target has given no
more; nothing happens to the other targets. -/
theorem read_transfer {address : UInt16} (h : Rest b (before ++ p :: behind))
    (hquiet : ∀ q ∈ before ++ p :: behind, q.Quiet) (haddress : address < 128) (hp : p.address = address.toUInt8)
    (hothers : ∀ q ∈ before ++ behind, q.address ≠ p.address) {size : Nat} (hsize : 0 < size) :
    let sent := sendAddress address true (masterStart b)
    let read := read size sent.2
    let gave := p.app.gives size (p.app.addressed p.state true)
    sent.1 = true ∧ read.1 = gave.1 ∧ Rest (masterStop read.2) (ended (before ++ { p with state := gave.2 } :: behind)) := by
  obtain ⟨b₁, hsent, hrest⟩ := address_transfer h hquiet haddress hp hothers true
  obtain ⟨n, rfl⟩ : ∃ n, size = n + 1 := ⟨size - 1, by omega⟩
  obtain ⟨b₂, hread, hrest⟩ := read_eq (fun q hq => idle_of_ended hq) n (p := p.addressed true) rfl hrest
  rw [hsent]
  refine ⟨rfl, ?_, ?_⟩
  · show (EspClock.I2c.read (n + 1) b₁).1 = _
    rw [hread]
    rfl
  · show Rest (masterStop (EspClock.I2c.read (n + 1) b₁).2) _
    rw [hread]
    exact hrest.stop (fun byte hsession => by cases hsession) rfl

theorem read_transfer_twoClocks :
    (read 3 (sendAddress 0x50 true (masterStart freeBus)).2).1 = [0, 0, 0] :=
  (@read_transfer _ freeBus (twoClocks.take 1) [] twoClocks[1] 0x50 rest_freeBus (by decide) (by decide) (by rfl) (by decide) 3
    (by decide)).2.1.trans (by decide +kernel)

end EspClock.I2c
