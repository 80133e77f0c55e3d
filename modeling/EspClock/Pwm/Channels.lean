import EspClock.Lib.Memory
import EspClock.Lib.Run
import EspClock.Pwm.Schedule
import Mathlib.Data.List.Nodup

/-!
# The table of channels

The driver keeps the pins of its channels and their duties in two arrays, a free cell of the first one is -1, and a
deleted channel is closed up by the ones behind it. The arrays hold a list of channels on different pins at their front.
-/

namespace EspClock.Pwm

open Mem

/-- The channels of the driver as `pwm.c` has them. -/
structure Table where
  outIoNum : Block Int8 pwmChannel
  duty : Block UInt16 pwmChannel
  gpio : UInt16
  channelNum : Nat

/-- After `pwm_init`. -/
def Table.initial : Table := ⟨Block.fill pwmChannel (-1), Block.fill pwmChannel 0, 0, 0⟩

/-- The comparison of a signed cell with an unsigned pin. -/
def Table.holds (t : Table) (i : Nat) (channel : UInt8) : Bool := decide ((t.outIoNum.get i).toInt = channel.toNat)

/-- The loop of `pwm_add` from an index on, for as many cells as are left. -/
def Table.addFrom (t : Table) (channel : UInt8) : Nat → Nat → Table × Bool
  | 0, _ => (t, false)
  | left + 1, i =>
    if t.holds i channel then (t, true)
    else if (t.outIoNum.get i).toInt = -1 then
      ({ outIoNum := t.outIoNum.set i channel.toInt8
         duty := t.duty.set i 0
         gpio := t.gpio ||| pinBit channel.toNat
         channelNum := t.channelNum + 1 }, true)
    else t.addFrom channel left (i + 1)

def Table.add (t : Table) (channel : UInt8) : Table × Bool := t.addFrom channel pwmChannel 0

/-- The loops that search the channels in use: the index they stop at, which is `pwm_channel_num` if the pin is not
found. -/
def Table.search (t : Table) (channel : UInt8) : Nat → Nat → Nat
  | 0, i => i
  | left + 1, i => if t.holds i channel then i else t.search channel left (i + 1)

def Table.find (t : Table) (channel : UInt8) : Nat := t.search channel t.channelNum 0

def Table.delete (t : Table) (channel : UInt8) : Table × Bool :=
  let i := t.find channel
  if i = t.channelNum then (t, true)
  else
    let last := t.channelNum - 1
    ({ outIoNum := ((t.outIoNum.set i (-1)).move i (i + 1) (last - i)).set last (-1)
       duty := (t.duty.move i (i + 1) (last - i)).set last 0
       gpio := t.gpio &&& ~~~(pinBit channel.toNat)
       channelNum := last }, true)

/-- The clamp of `pwm_set_duty`. -/
def clampDuty (duty : UInt16) : UInt16 := if duty < 1 then 0 else if pwmDepth ≤ duty then pwmDepth else duty

def Table.setDuty (t : Table) (duty : UInt16) (channel : UInt8) : Table :=
  let i := t.find channel
  if i = t.channelNum then t else { t with duty := t.duty.set i (clampDuty duty) }

def Table.getDuty (t : Table) (channel : UInt8) : UInt16 :=
  let i := t.find channel
  if i = t.channelNum then 0 else t.duty.get i

/-! ### Runs -/

inductive TableEvent where
  | add (channel : UInt8)
  | delete (channel : UInt8)
  | setDuty (duty : UInt16) (channel : UInt8)

def TableEvent.channel : TableEvent → UInt8
  | .add channel | .delete channel | .setDuty _ channel => channel

/-- The steps of the driver, each with what it returns. -/
def table : Machine Table TableEvent (TableEvent × Bool) :=
  ⟨fun t e =>
    match e with
    | .add channel => ((t.add channel).1, [(e, (t.add channel).2)])
    | .delete channel => ((t.delete channel).1, [(e, (t.delete channel).2)])
    | .setDuty duty channel => (t.setDuty duty channel, [(e, true)])⟩

/-- The duty of a pin behind one more call: none while it is not added. -/
def dutyAfter (pin : UInt8) (duty : Option UInt16) : TableEvent × Bool → Option UInt16
  | (.add channel, added) => if channel = pin ∧ added ∧ duty = none then some 0 else duty
  | (.delete channel, _) => if channel = pin then none else duty
  | (.setDuty set channel, _) => if channel = pin then duty.map fun _ => min set 1023 else duty

/-- The last duty set for a pin since it was added. -/
def lastDuty (log : List (TableEvent × Bool)) (pin : UInt8) : Option UInt16 := log.foldl (dutyAfter pin) none

/-! ### The list of channels in the arrays -/

/-- The channel of a pin in use, and those of other pins around it. -/
theorem Settings.WellFormed.split {p : Settings} (hp : p.WellFormed) {pin : Nat}
    (hmember : pin ∈ p.channels.map Channel.outIoNum) :
    ∃ pre c post, p.channels = pre ++ c :: post ∧ c.outIoNum = pin ∧ (∀ c' ∈ pre ++ post, c'.outIoNum ≠ pin) ∧
      p.channels.eraseP (·.outIoNum = pin) = pre ++ post := by
  obtain ⟨c, hc, hpin⟩ := List.mem_map.mp hmember
  obtain ⟨c, pre, post, -, hpin, hchannels, herase⟩ :=
    List.exists_of_eraseP (p := fun c : Channel => decide (c.outIoNum = pin)) hc (decide_eq_true hpin)
  have hpin := of_decide_eq_true hpin
  have hdistinct := hp.distinct
  rw [hchannels, List.map_append, List.map_cons, List.nodup_middle, List.nodup_cons, ← List.map_append] at hdistinct
  exact ⟨pre, c, post, hchannels, hpin, fun c' hc' heq => hdistinct.1 (hpin.trans heq.symm ▸ List.mem_map_of_mem hc'), herase⟩

/-- The cell of a channel. -/
def Channel.cell (c : Channel) : Int8 := (UInt8.ofNat c.outIoNum).toInt8

/-- The arrays have the channels at their front and free cells behind them. -/
structure Represents (t : Table) (p : Settings) : Prop where
  pins : t.outIoNum.cells = p.channels.map Channel.cell ++ List.replicate (pwmChannel - p.channels.length) (-1)
  duties : t.duty.cells.take p.channels.length = p.channels.map Channel.duty
  gpio : t.gpio = p.gpio
  channelNum : t.channelNum = p.channels.length

/-- A pin that the signed cells can hold. -/
theorem cell_toInt {c : Channel} (hc : 1 ≤ c.outIoNum ∧ c.outIoNum ≤ 12) : c.cell.toInt = c.outIoNum := by
  have hall : ∀ pin ∈ List.range 13, (UInt8.ofNat pin).toInt8.toInt = pin := by decide
  exact hall c.outIoNum (List.mem_range.mpr (by omega))

section Represents

variable {t : Table} {p : Settings} (h : Represents t p) (hp : p.WellFormed) (channel : UInt8)
include h hp

omit hp in
theorem Represents.get_used {pre rest : List Channel} {c : Channel} (hchannels : p.channels = pre ++ c :: rest) :
    t.outIoNum.get pre.length = c.cell := by
  rw [Block.get, h.pins, hchannels, List.map_append, List.append_assoc, List.getD_eq_getElem?_getD,
    List.getElem?_append_right (by rw [List.length_map]), List.length_map, Nat.sub_self]
  rfl

theorem Represents.holds_eq {pre rest : List Channel} {c : Channel} (hchannels : p.channels = pre ++ c :: rest) :
    t.holds pre.length channel = decide (c.outIoNum = channel.toNat) := by
  have hc := hp.pins c (hchannels ▸ List.mem_append_right pre List.mem_cons_self)
  rw [Table.holds, h.get_used hchannels, cell_toInt hc]
  exact decide_eq_decide.mpr Int.ofNat_inj

omit hp in
theorem Represents.get_free {i : Nat} (hbehind : p.channels.length ≤ i) (hi : i < pwmChannel) : t.outIoNum.get i = -1 := by
  rw [Block.get, h.pins, List.getD_eq_getElem?_getD, List.getElem?_append_right (by rwa [List.length_map]),
    List.length_map, List.getElem?_replicate_of_lt (by omega)]
  rfl

omit hp in
/-- No pin is -1. -/
theorem Represents.holds_free {i : Nat} (hbehind : p.channels.length ≤ i) (hi : i < pwmChannel) : t.holds i channel = false := by
  rw [Table.holds, h.get_free hbehind hi]
  exact decide_eq_false fun heq => absurd (heq ▸ Int.natCast_nonneg channel.toNat) (by decide)

theorem Represents.search_eq {pre rest : List Channel} (hchannels : p.channels = pre ++ rest) :
    t.search channel rest.length pre.length = pre.length + rest.findIdx (·.outIoNum = channel.toNat) := by
  induction rest generalizing pre with
  | nil => rfl
  | cons c rest ih =>
    have hrest := @ih (pre ++ [c]) (by rw [hchannels, List.append_assoc, List.singleton_append])
    rw [List.length_append, List.length_singleton] at hrest
    rw [List.length_cons, Table.search, h.holds_eq hp channel hchannels, List.findIdx_cons, hrest]
    by_cases hc : c.outIoNum = channel.toNat
    · simp [hc]
    · simp [hc, Nat.add_assoc, Nat.add_comm 1]

theorem Represents.find_eq : t.find channel = p.channels.findIdx (·.outIoNum = channel.toNat) := by
  rw [Table.find, h.channelNum]
  exact (h.search_eq hp channel (List.nil_append p.channels).symm).trans (Nat.zero_add _)

/-- The loop of `pwm_add` stops at the pin or at the first free cell. -/
theorem Represents.addFrom_eq {pre rest : List Channel} (hchannels : p.channels = pre ++ rest) :
    t.addFrom channel (pwmChannel - pre.length) pre.length =
      if channel.toNat ∈ rest.map Channel.outIoNum then (t, true)
      else if p.channels.length < pwmChannel then
        ({ outIoNum := t.outIoNum.set p.channels.length channel.toInt8
           duty := t.duty.set p.channels.length 0
           gpio := t.gpio ||| pinBit channel.toNat
           channelNum := t.channelNum + 1 }, true)
      else (t, false) := by
  have hfew := hp.few
  induction rest generalizing pre with
  | nil =>
    rw [List.append_nil] at hchannels
    rw [← hchannels, List.map_nil, if_neg List.not_mem_nil]
    split_ifs with hroom
    · obtain ⟨left, hleft⟩ := Nat.exists_eq_succ_of_ne_zero (Nat.sub_ne_zero_of_lt hroom)
      rw [hleft, Table.addFrom, h.holds_free channel le_rfl hroom, h.get_free le_rfl hroom, if_neg Bool.false_ne_true,
        if_pos (by decide)]
    · rw [Nat.sub_eq_zero_of_le (not_lt.mp hroom)]
      rfl
  | cons c rest ih =>
    have hlength : pre.length < pwmChannel := by
      rw [hchannels, List.length_append, List.length_cons] at hfew
      omega
    obtain ⟨left, hleft⟩ := Nat.exists_eq_succ_of_ne_zero (Nat.sub_ne_zero_of_lt hlength)
    have hused : ¬ (t.outIoNum.get pre.length).toInt = -1 := by
      have hc := hp.pins c (hchannels ▸ List.mem_append_right pre List.mem_cons_self)
      rw [h.get_used hchannels, cell_toInt hc]
      omega
    have hrest := @ih (pre ++ [c]) (by rw [hchannels, List.append_assoc, List.singleton_append])
    rw [List.length_append, List.length_singleton, show pwmChannel - (pre.length + 1) = left by omega] at hrest
    rw [hleft, Table.addFrom, h.holds_eq hp channel hchannels, if_neg hused, hrest, List.map_cons]
    by_cases hc : c.outIoNum = channel.toNat
    · simp [hc]
    · simp [hc, Ne.symm hc]

theorem Represents.add : Represents (t.add channel).1 (p.add channel.toNat) ∧
    ((t.add channel).2 = true ↔ channel.toNat ∈ p.channels.map Channel.outIoNum ∨ p.channels.length < pwmChannel) := by
  have hloop : t.add channel = _ := h.addFrom_eq hp channel (List.nil_append p.channels).symm
  rw [hloop, Settings.add]
  split_ifs with hmember hroom
  · exact ⟨h, iff_of_true rfl (Or.inl hmember)⟩
  · refine ⟨⟨?_, ?_, ?_, ?_⟩, iff_of_true rfl (Or.inr hroom)⟩
    · obtain ⟨left, hleft⟩ := Nat.exists_eq_succ_of_ne_zero (Nat.sub_ne_zero_of_lt hroom)
      have hcell : Channel.cell ⟨channel.toNat, 0⟩ = channel.toInt8 := congrArg UInt8.toInt8 UInt8.ofNat_toNat
      have hfree : pwmChannel - (p.channels.length + 1) = left := by omega
      show t.outIoNum.cells.set p.channels.length channel.toInt8 = _
      rw [h.pins, hleft, List.set_append_right (h := by rw [List.length_map]), List.length_map, Nat.sub_self, List.map_append,
        List.map_singleton, hcell, List.length_append, List.length_singleton, hfree, List.append_assoc]
      rfl
    · have hstore := t.duty.upTo_store p.channels.length [0] hroom
      rw [List.length_append, List.length_singleton, List.map_append, List.map_singleton, ← h.duties]
      exact hstore
    · exact congrArg (· ||| pinBit channel.toNat) h.gpio
    · rw [List.length_append, List.length_singleton]
      exact congrArg (· + 1) h.channelNum
  · exact ⟨h, iff_of_false not_false (not_or.mpr ⟨hmember, hroom⟩)⟩

/-- The index of a pin, as a split of the channels. -/
theorem Represents.find_cases :
    (channel.toNat ∉ p.channels.map Channel.outIoNum ∧ t.find channel = t.channelNum) ∨
      ∃ pre c post, p.channels = pre ++ c :: post ∧ c.outIoNum = channel.toNat ∧
        (∀ c' ∈ pre ++ post, c'.outIoNum ≠ channel.toNat) ∧ p.channels.eraseP (·.outIoNum = channel.toNat) = pre ++ post ∧
        t.find channel = pre.length ∧ t.find channel ≠ t.channelNum := by
  have hfind := h.find_eq hp channel
  by_cases hmember : channel.toNat ∈ p.channels.map Channel.outIoNum
  · obtain ⟨pre, c, post, hchannels, hpin, hothers, herase⟩ := hp.split hmember
    have hidx : p.channels.findIdx (·.outIoNum = channel.toNat) = pre.length := by
      have hpre := List.findIdx_eq_length.mpr fun c' hc' => decide_eq_false (hothers c' (List.mem_append_left post hc'))
      simp [hchannels, List.findIdx_append, hpre, List.findIdx_cons, hpin]
    refine Or.inr ⟨pre, c, post, hchannels, hpin, hothers, herase, hfind.trans hidx, ?_⟩
    rw [hfind, hidx, h.channelNum, hchannels, List.length_append, List.length_cons]
    omega
  · refine Or.inl ⟨hmember, ?_⟩
    rw [hfind, h.channelNum]
    refine List.findIdx_eq_length.mpr fun c hc => decide_eq_false fun hpin => hmember ?_
    exact hpin ▸ List.mem_map_of_mem hc

theorem Represents.delete : Represents (t.delete channel).1 (p.delete channel.toNat) := by
  obtain ⟨habsent, hfind⟩ | ⟨pre, c, post, hchannels, hpin, -, herase, hfind, hne⟩ := h.find_cases hp channel
  · rw [Table.delete, Settings.delete, if_neg habsent]
    dsimp only
    rw [if_pos hfind]
    exact h
  · have hmember : channel.toNat ∈ p.channels.map Channel.outIoNum := by
      rw [hchannels, ← hpin]
      exact List.mem_map_of_mem (List.mem_append_right pre List.mem_cons_self)
    have hlast : t.channelNum - 1 = pre.length + post.length := by
      rw [h.channelNum, hchannels, List.length_append, List.length_cons]
      omega
    have hback : t.channelNum - 1 - pre.length = post.length := by omega
    rw [Table.delete, Settings.delete, if_pos hmember, herase]
    dsimp only
    rw [if_neg hne, hfind, hback, hlast]
    refine ⟨?_, ?_, congrArg (· &&& ~~~(pinBit channel.toNat)) h.gpio, List.length_append.symm⟩
    · have hcells : (t.outIoNum.set pre.length (-1)).cells = pre.map Channel.cell ++
          (-1) :: (post.map Channel.cell ++ List.replicate (pwmChannel - p.channels.length) (-1)) := by
        show t.outIoNum.cells.set pre.length (-1) = _
        rw [h.pins, hchannels, List.map_append, List.map_cons, List.append_assoc, List.cons_append,
          List.set_append_right (h := by rw [List.length_map]), List.length_map, Nat.sub_self, List.set_cons_zero]
      have hfew := hp.few
      have hlength : p.channels.length = pre.length + post.length + 1 := by
        rw [hchannels, List.length_append, List.length_cons, Nat.add_assoc]
      have hclose := set_move_close (pre.map Channel.cell) (post.map Channel.cell)
        (List.replicate (pwmChannel - p.channels.length) (-1)) (-1) (-1)
      rw [← hcells, List.length_map, List.length_map] at hclose
      refine hclose.trans ?_
      rw [List.map_append, List.length_append,
        show pwmChannel - (pre.length + post.length) = pwmChannel - p.channels.length + 1 by omega]
      rfl
    · have hcells : t.duty.cells = pre.map Channel.duty ++ c.duty :: (post.map Channel.duty ++ t.duty.cells.drop p.channels.length) := by
        conv_lhs => rw [← List.take_append_drop p.channels.length t.duty.cells, h.duties, hchannels]
        rw [hchannels, List.map_append, List.map_cons, List.append_assoc, List.cons_append]
      have hclose := set_move_close (pre.map Channel.duty) (post.map Channel.duty) (t.duty.cells.drop p.channels.length) c.duty 0
      rw [← hcells, List.length_map, List.length_map] at hclose
      show ((Mem.move t.duty.cells pre.length (pre.length + 1) post.length).set (pre.length + post.length) 0).take _ = _
      rw [hclose, ← List.map_append]
      exact List.take_left' (List.length_map _)

theorem Represents.setDuty (duty : UInt16) : Represents (t.setDuty duty channel) (p.setDuty duty channel.toNat) := by
  have hchange : (p.setDuty duty channel.toNat).channels = p.channels.map fun c =>
      if c.outIoNum = channel.toNat then { c with duty := clampDuty duty } else c := rfl
  have hlength : (p.setDuty duty channel.toNat).channels.length = p.channels.length := by rw [hchange, List.length_map]
  have hcells : (p.setDuty duty channel.toNat).channels.map Channel.cell = p.channels.map Channel.cell := by
    rw [hchange, List.map_map]
    refine List.map_congr_left fun c _ => ?_
    show Channel.cell (if _ then _ else _) = c.cell
    split_ifs <;> rfl
  rw [Table.setDuty]
  obtain ⟨habsent, hfind⟩ | ⟨pre, c, post, hchannels, hpin, hothers, -, hfind, hne⟩ := h.find_cases hp channel
  · have hsame : (p.setDuty duty channel.toNat).channels = p.channels := by
      rw [hchange]
      refine (List.map_congr_left fun c hc => if_neg fun hpin => habsent ?_).trans (List.map_id _)
      exact hpin ▸ List.mem_map_of_mem hc
    rw [if_pos hfind]
    exact ⟨hsame ▸ h.pins, hsame ▸ h.duties, h.gpio, hsame ▸ h.channelNum⟩
  · rw [if_neg hne, hfind]
    have hset : (p.setDuty duty channel.toNat).channels = pre ++ { c with duty := clampDuty duty } :: post := by
      have hkeep : ∀ l : List Channel, (∀ c' ∈ l, c'.outIoNum ≠ channel.toNat) →
          l.map (fun c => if c.outIoNum = channel.toNat then { c with duty := clampDuty duty } else c) = l := fun l hl =>
        (List.map_congr_left fun c' hc' => if_neg (hl c' hc')).trans (List.map_id _)
      rw [hchange, hchannels, List.map_append, List.map_cons, if_pos hpin,
        hkeep pre fun c' hc' => hothers c' (List.mem_append_left post hc'),
        hkeep post fun c' hc' => hothers c' (List.mem_append_right pre hc')]
    refine ⟨by rw [hcells, hlength]; exact h.pins, ?_, h.gpio, by rw [hlength]; exact h.channelNum⟩
    show (t.duty.cells.set pre.length (clampDuty duty)).take _ = _
    rw [hlength, List.take_set, h.duties, hset, hchannels, List.map_append, List.map_append, List.map_cons, List.map_cons,
      List.set_append_right (h := by rw [List.length_map]), List.length_map, Nat.sub_self, List.set_cons_zero]

theorem Represents.getDuty :
    t.getDuty channel = ((p.channels.find? (·.outIoNum = channel.toNat)).map Channel.duty).getD 0 := by
  rw [Table.getDuty]
  obtain ⟨habsent, hfind⟩ | ⟨pre, c, post, hchannels, hpin, hothers, -, hfind, hne⟩ := h.find_cases hp channel
  · have hnone : p.channels.find? (·.outIoNum = channel.toNat) = none := List.find?_eq_none.mpr fun c hc hpin =>
      habsent (of_decide_eq_true hpin ▸ List.mem_map_of_mem hc)
    rw [if_pos hfind, hnone]
    rfl
  · have hsome : p.channels.find? (·.outIoNum = channel.toNat) = some c := by
      have hpre : pre.find? (·.outIoNum = channel.toNat) = none := List.find?_eq_none.mpr fun c' hc' hpin' =>
        hothers c' (List.mem_append_left post hc') (of_decide_eq_true hpin')
      rw [hchannels, List.find?_append, hpre]
      exact List.find?_cons_of_pos (p := fun c : Channel => decide (c.outIoNum = channel.toNat)) (decide_eq_true hpin)
    have hget : (t.duty.cells.take p.channels.length)[pre.length]? = some c.duty := by
      rw [h.duties, hchannels, List.map_append, List.map_cons, List.getElem?_append_right (by rw [List.length_map]),
        List.length_map, Nat.sub_self]
      rfl
    rw [List.getElem?_take_of_lt (by rw [hchannels, List.length_append, List.length_cons]; omega)] at hget
    rw [if_neg hne, hfind, hsome, Block.get, List.getD_eq_getElem?_getD, hget]
    rfl

end Represents

/-! ### The list of channels -/

theorem clampDuty_eq (duty : UInt16) : clampDuty duty = min duty 1023 := by
  show (if duty < 1 then (0 : UInt16) else if 1023 ≤ duty then 1023 else duty) = if duty ≤ 1023 then duty else 1023
  rw [← UInt16.toNat_inj, apply_ite UInt16.toNat, apply_ite UInt16.toNat, apply_ite UInt16.toNat]
  simp only [UInt16.lt_iff_toNat_lt, UInt16.le_iff_toNat_le]
  show (if duty.toNat < 1 then 0 else if 1023 ≤ duty.toNat then 1023 else duty.toNat) =
    if duty.toNat ≤ 1023 then duty.toNat else 1023
  split_ifs <;> omega

theorem clampDuty_le (duty : UInt16) : (clampDuty duty).toNat ≤ 1023 := by
  rw [clampDuty_eq]
  show (if duty ≤ 1023 then duty else 1023 : UInt16).toNat ≤ 1023
  split_ifs with hle
  · exact UInt16.le_iff_toNat_le.mp hle
  · exact le_rfl

theorem foldr_or (channels : List Channel) (gpio : UInt16) :
    channels.foldr (fun c gpio => pinBit c.outIoNum ||| gpio) gpio =
      channels.foldr (fun c gpio => pinBit c.outIoNum ||| gpio) 0 ||| gpio := by
  induction channels with
  | nil => exact UInt16.zero_or.symm
  | cons c channels ih => rw [List.foldr_cons, List.foldr_cons, ih, UInt16.or_assoc]

theorem or_and_distrib (x y mask : UInt16) : (x ||| y) &&& mask = x &&& mask ||| y &&& mask := by
  apply UInt16.toBitVec_inj.mp
  simp [BitVec.and_or_distrib_right]

/-- The bit of a pin does not touch those of other pins. -/
theorem pinBit_and_not {i j : Nat} (hi : 1 ≤ i ∧ i ≤ 12) (hj : 1 ≤ j ∧ j ≤ 12) (hne : i ≠ j) :
    pinBit i &&& ~~~(pinBit j) = pinBit i := by
  have hall : ∀ i ∈ List.range 13, ∀ j ∈ List.range 13, 1 ≤ i → 1 ≤ j → i ≠ j → pinBit i &&& ~~~(pinBit j) = pinBit i := by
    decide +kernel
  exact hall i (List.mem_range.mpr (by omega)) j (List.mem_range.mpr (by omega)) hi.1 hj.1 hne

theorem foldr_and_not {channels : List Channel} (hpins : ∀ c ∈ channels, 1 ≤ c.outIoNum ∧ c.outIoNum ≤ 12) {pin : Nat}
    (hpin : 1 ≤ pin ∧ pin ≤ 12) (hothers : ∀ c ∈ channels, c.outIoNum ≠ pin) :
    channels.foldr (fun c gpio => pinBit c.outIoNum ||| gpio) 0 &&& ~~~(pinBit pin) =
      channels.foldr (fun c gpio => pinBit c.outIoNum ||| gpio) 0 := by
  induction channels with
  | nil => exact UInt16.zero_and
  | cons c channels ih =>
    obtain ⟨hc, hchannels⟩ := List.forall_mem_cons.mp hpins
    obtain ⟨hne, hothers⟩ := List.forall_mem_cons.mp hothers
    rw [List.foldr_cons, or_and_distrib, ih hchannels hothers, pinBit_and_not hc hpin hne]

section WellFormed

variable {p : Settings} (hp : p.WellFormed) {channel : Nat} (hchannel : 1 ≤ channel ∧ channel ≤ 12)
include hp

include hchannel in
theorem Settings.WellFormed.add : (p.add channel).WellFormed := by
  rw [Settings.add]
  split_ifs with hmember hroom
  · exact hp
  · refine ⟨?_, ?_, ?_, ?_, ?_⟩
    · rw [List.length_append, List.length_singleton]
      exact hroom
    · exact List.forall_mem_append.mpr ⟨hp.pins, fun c hc => List.mem_singleton.mp hc ▸ hchannel⟩
    · rw [List.map_append, List.map_singleton]
      exact List.Nodup.append hp.distinct (List.nodup_singleton _) (List.disjoint_singleton.mpr hmember)
    · exact List.forall_mem_append.mpr ⟨hp.duties, fun c hc => List.mem_singleton.mp hc ▸ Nat.zero_le _⟩
    · rw [List.foldr_append, foldr_or, ← hp.gpio]
      exact congrArg (p.gpio ||| ·) UInt16.or_zero.symm
  · exact hp

include hchannel in
theorem Settings.WellFormed.delete : (p.delete channel).WellFormed := by
  rw [Settings.delete]
  split_ifs with hmember
  · have hsublist := List.eraseP_sublist (p := fun c : Channel => decide (c.outIoNum = channel)) (l := p.channels)
    refine ⟨hsublist.length_le.trans hp.few, fun c hc => hp.pins c (hsublist.subset hc), hp.distinct.sublist (hsublist.map _),
      fun c hc => hp.duties c (hsublist.subset hc), ?_⟩
    obtain ⟨pre, c, post, hchannels, hpin, hothers, herase⟩ := hp.split hmember
    have hpins : ∀ c' ∈ pre ++ post, 1 ≤ c'.outIoNum ∧ c'.outIoNum ≤ 12 := by
      rw [herase] at hsublist
      exact fun c' hc' => hp.pins c' (hsublist.subset hc')
    obtain ⟨hprePins, hpostPins⟩ := List.forall_mem_append.mp hpins
    obtain ⟨hpreOthers, hpostOthers⟩ := List.forall_mem_append.mp hothers
    show p.gpio &&& ~~~(pinBit channel) = (p.channels.eraseP _).foldr _ 0
    rw [herase, hp.gpio, hchannels, List.foldr_append, List.foldr_append, List.foldr_cons, hpin,
      foldr_or, foldr_or pre (post.foldr _ 0), or_and_distrib, or_and_distrib, foldr_and_not hprePins hchannel hpreOthers,
      foldr_and_not hpostPins hchannel hpostOthers, UInt16.and_not_self, UInt16.zero_or]
  · exact hp

theorem Settings.WellFormed.setDuty (duty : UInt16) : (p.setDuty duty channel).WellFormed := by
  have hchange : (p.setDuty duty channel).channels = p.channels.map fun c =>
      if c.outIoNum = channel then { c with duty := clampDuty duty } else c := rfl
  have hpins : (p.setDuty duty channel).channels.map Channel.outIoNum = p.channels.map Channel.outIoNum := by
    rw [hchange, List.map_map]
    refine List.map_congr_left fun c _ => ?_
    show Channel.outIoNum (if _ then _ else _) = c.outIoNum
    split_ifs <;> rfl
  refine ⟨?_, ?_, hpins ▸ hp.distinct, ?_, ?_⟩
  · rw [hchange, List.length_map]
    exact hp.few
  · intro c hc
    obtain ⟨c', hc', heq⟩ := List.mem_map.mp (hpins ▸ List.mem_map_of_mem hc)
    exact heq ▸ hp.pins c' hc'
  · intro c hc
    rw [hchange] at hc
    obtain ⟨c', hc', rfl⟩ := List.mem_map.mp hc
    split_ifs
    · exact clampDuty_le duty
    · exact hp.duties c' hc'
  · have hfoldr : ∀ channels : List Channel, channels.foldr (fun c gpio => pinBit c.outIoNum ||| gpio) 0 =
        (channels.map Channel.outIoNum).foldr (fun pin gpio => pinBit pin ||| gpio) 0 := fun channels => by
      rw [List.foldr_map]
    rw [hfoldr, hpins, ← hfoldr]
    exact hp.gpio

/-! ### The duty of a pin -/

/-- The duty of a pin, if it is one of the channels. -/
def Settings.dutyOf (p : Settings) (pin : Nat) : Option UInt16 := (p.channels.find? (·.outIoNum = pin)).map Channel.duty

omit hp in
theorem dutyOf_eq_none : p.dutyOf channel = none ↔ channel ∉ p.channels.map Channel.outIoNum := by
  rw [Settings.dutyOf, Option.map_eq_none_iff, List.find?_eq_none, List.mem_map, not_exists]
  exact forall_congr' fun c => by rw [decide_eq_true_iff, not_and]

omit hp in
theorem dutyOf_add (pin : Nat) : (p.add channel).dutyOf pin =
    if channel = pin ∧ (channel ∈ p.channels.map Channel.outIoNum ∨ p.channels.length < pwmChannel) ∧ p.dutyOf pin = none
    then some 0 else p.dutyOf pin := by
  rw [Settings.add]
  by_cases hmember : channel ∈ p.channels.map Channel.outIoNum
  · have hsome : ¬ (channel = pin ∧ (channel ∈ p.channels.map Channel.outIoNum ∨ p.channels.length < pwmChannel) ∧
        p.dutyOf pin = none) := by
      rintro ⟨rfl, -, hnone⟩
      exact dutyOf_eq_none.mp hnone hmember
    rw [if_pos hmember, if_neg hsome]
  · rw [if_neg hmember]
    by_cases hroom : p.channels.length < pwmChannel
    · rw [if_pos hroom]
      show ((p.channels ++ [(⟨channel, 0⟩ : Channel)]).find? _).map _ = _
      rw [List.find?_append]
      by_cases hpin : channel = pin
      · have hnone := dutyOf_eq_none.mpr hmember
        rw [hpin] at hnone
        rw [if_pos ⟨hpin, Or.inr hroom, hnone⟩, Option.map_eq_none_iff.mp hnone, hpin]
        simp
      · rw [if_neg fun h => hpin h.1]
        simp [hpin, Settings.dutyOf]
    · rw [if_neg hroom, if_neg fun h => h.2.1.elim hmember hroom]

theorem dutyOf_delete (pin : Nat) : (p.delete channel).dutyOf pin = if channel = pin then none else p.dutyOf pin := by
  rw [Settings.delete]
  by_cases hmember : channel ∈ p.channels.map Channel.outIoNum
  · obtain ⟨pre, c, post, hchannels, hpin, hothers, herase⟩ := hp.split hmember
    rw [if_pos hmember]
    show ((p.channels.eraseP _).find? _).map _ = _
    rw [herase]
    split_ifs with heq
    · rw [Option.map_eq_none_iff, List.find?_eq_none]
      exact fun c' hc' hc'pin => hothers c' hc' (heq ▸ of_decide_eq_true hc'pin)
    · have hc : ¬ c.outIoNum = pin := fun h => heq (hpin.symm.trans h)
      rw [Settings.dutyOf, hchannels, List.find?_append, List.find?_append]
      simp [hc]
  · rw [if_neg hmember]
    split_ifs with heq
    · exact heq ▸ dutyOf_eq_none.mpr hmember
    · rfl

omit hp in
theorem dutyOf_setDuty (duty : UInt16) (pin : Nat) :
    (p.setDuty duty channel).dutyOf pin = if channel = pin then (p.dutyOf pin).map fun _ => min duty 1023 else p.dutyOf pin := by
  have hchange : (p.setDuty duty channel).channels = p.channels.map fun c =>
      if c.outIoNum = channel then { c with duty := clampDuty duty } else c := rfl
  rw [Settings.dutyOf, hchange, Settings.dutyOf, clampDuty_eq]
  induction p.channels with
  | nil => simp
  | cons c channels ih =>
    have hkeep : (if c.outIoNum = channel then { c with duty := min duty 1023 } else c).outIoNum = c.outIoNum := by
      split_ifs <;> rfl
    rw [List.map_cons, List.find?_cons, List.find?_cons, hkeep]
    by_cases hpin : c.outIoNum = pin
    · rw [decide_eq_true hpin]
      by_cases heq : channel = pin
      · simp [heq, hpin]
      · have hc : ¬ c.outIoNum = channel := fun h => heq (h.symm.trans hpin)
        rw [if_neg heq, if_neg hc]
    · rw [decide_eq_false hpin]
      exact ih

end WellFormed

/-! ### Every run -/

/-- The arrays have the channels of some settings, and the duty of each pin is the one the calls so far left. -/
structure Follows (t : Table) (log : List (TableEvent × Bool)) (p : Settings) : Prop where
  represents : Represents t p
  wellFormed : p.WellFormed
  duties : ∀ pin : UInt8, p.dutyOf pin.toNat = lastDuty log pin

theorem lastDuty_concat (log : List (TableEvent × Bool)) (e : TableEvent × Bool) (pin : UInt8) :
    lastDuty (log ++ [e]) pin = dutyAfter pin (lastDuty log pin) e := by
  rw [lastDuty, List.foldl_append]
  rfl

theorem toNat_eq_iff (channel pin : UInt8) : channel.toNat = pin.toNat ↔ channel = pin := UInt8.toNat_inj

theorem step_follows {t : Table} {log : List (TableEvent × Bool)} {p : Settings} (h : Follows t log p) {e : TableEvent}
    (he : 1 ≤ e.channel.toNat ∧ e.channel.toNat ≤ 12) : ∃ p, Follows (table.next t e) (log ++ table.actions t e) p := by
  cases e with
  | add channel =>
    obtain ⟨hrepresents, hadded⟩ := h.represents.add h.wellFormed channel
    refine ⟨p.add channel.toNat, hrepresents, h.wellFormed.add he, fun pin => ?_⟩
    show _ = lastDuty (log ++ [_]) pin
    rw [dutyOf_add, lastDuty_concat, h.duties]
    exact if_congr (and_congr (toNat_eq_iff channel pin) (and_congr_left fun _ => hadded.symm)) rfl rfl
  | delete channel =>
    refine ⟨p.delete channel.toNat, h.represents.delete h.wellFormed channel, h.wellFormed.delete he, fun pin => ?_⟩
    show _ = lastDuty (log ++ [_]) pin
    rw [dutyOf_delete h.wellFormed, lastDuty_concat, h.duties]
    exact if_congr (toNat_eq_iff channel pin) rfl rfl
  | setDuty duty channel =>
    refine ⟨p.setDuty duty channel.toNat, h.represents.setDuty h.wellFormed channel duty, h.wellFormed.setDuty duty, fun pin => ?_⟩
    show _ = lastDuty (log ++ [_]) pin
    rw [dutyOf_setDuty, lastDuty_concat, h.duties]
    exact if_congr (toNat_eq_iff channel pin) rfl rfl

theorem initial_follows : Follows Table.initial [] ⟨[], 0, 0⟩ where
  represents := ⟨rfl, rfl, rfl, rfl⟩
  wellFormed := ⟨by decide, fun _ hc => absurd hc List.not_mem_nil, List.nodup_nil, fun _ hc => absurd hc List.not_mem_nil, rfl⟩
  duties _ := rfl

theorem run_follows {es : List TableEvent} (hes : ∀ e ∈ es, 1 ≤ e.channel.toNat ∧ e.channel.toNat ≤ 12) :
    ∃ p, Follows (table.final Table.initial es) (table.trace Table.initial es) p := by
  have hrun : ∀ t log p, Follows t log p → ∃ p, Follows (table.final t es) (log ++ table.trace t es) p := by
    induction es with
    | nil =>
      intro t log p h
      rw [Machine.trace_nil, List.append_nil]
      exact ⟨p, h⟩
    | cons e es ih =>
      intro t log p h
      obtain ⟨he, hes⟩ := List.forall_mem_cons.mp hes
      obtain ⟨p', h'⟩ := step_follows h he
      rw [Machine.trace_cons, Machine.final_cons, ← List.append_assoc]
      exact ih hes _ _ p' h'
  exact hrun _ _ _ initial_follows

/-- The cells of the channels in use. -/
def Table.used (t : Table) : List Int8 := t.outIoNum.upTo t.channelNum

theorem used_eq {t : Table} {p : Settings} (h : Represents t p) : t.used = p.channels.map Channel.cell := by
  rw [Table.used, Block.upTo, h.pins, h.channelNum]
  exact List.take_left' (List.length_map _)

theorem used_pins {t : Table} {p : Settings} (h : Represents t p) (hp : p.WellFormed) :
    t.used.map (·.toInt.toNat) = p.channels.map Channel.outIoNum := by
  rw [used_eq h, List.map_map]
  refine List.map_congr_left fun c hc => ?_
  show c.cell.toInt.toNat = c.outIoNum
  rw [cell_toInt (hp.pins c hc), Int.toNat_natCast]

theorem mem_used {t : Table} {p : Settings} (h : Represents t p) (hp : p.WellFormed) {pin : UInt8}
    (hpin : 1 ≤ pin.toNat ∧ pin.toNat ≤ 12) : pin.toInt8 ∈ t.used ↔ pin.toNat ∈ p.channels.map Channel.outIoNum := by
  have hcell : Channel.cell ⟨pin.toNat, 0⟩ = pin.toInt8 := congrArg UInt8.toInt8 UInt8.ofNat_toNat
  have hint : pin.toInt8.toInt = pin.toNat := hcell ▸ cell_toInt (c := ⟨pin.toNat, 0⟩) hpin
  constructor
  · intro hmem
    have hmap := List.mem_map_of_mem (f := fun cell : Int8 => cell.toInt.toNat) hmem
    rwa [used_pins h hp, hint, Int.toNat_natCast] at hmap
  · intro hmem
    obtain ⟨c, hc, heq⟩ := List.mem_map.mp hmem
    rw [used_eq h, ← hcell]
    exact List.mem_map.mpr ⟨c, hc, congrArg (fun n => (UInt8.ofNat n).toInt8) heq⟩

/-- In every run with pins 1 to 12: the cells in use are different pins and the others are free, the register bits are
those of the pins, the duty of a pin is the last one set for it, deleting a pin keeps the duties of others, and a pin is
refused exactly if six others are in use. -/
theorem table_invariant (es : List TableEvent) (hes : ∀ e ∈ es, 1 ≤ e.channel.toNat ∧ e.channel.toNat ≤ 12) :
    let t := table.final Table.initial es
    let log := table.trace Table.initial es
    t.channelNum ≤ pwmChannel ∧ t.used.Nodup ∧ (∀ cell ∈ t.used, 1 ≤ cell.toInt ∧ cell.toInt ≤ 12) ∧
      t.outIoNum.cells.drop t.channelNum = List.replicate (pwmChannel - t.channelNum) (-1) ∧
      t.gpio = t.used.foldr (fun cell gpio => pinBit cell.toInt.toNat ||| gpio) 0 ∧
      ∀ pin : UInt8, 1 ≤ pin.toNat ∧ pin.toNat ≤ 12 →
        (pin.toInt8 ∈ t.used ↔ (lastDuty log pin).isSome) ∧
        (∀ duty, lastDuty log pin = some duty → t.getDuty pin = duty) ∧
        (∀ other : UInt8, other ≠ pin → (t.delete pin).1.getDuty other = t.getDuty other) ∧
        ((t.add pin).2 = false ↔ pin.toInt8 ∉ t.used ∧ t.channelNum = pwmChannel) := by
  intro t log
  obtain ⟨p, hrepresents, hp, hduties⟩ := run_follows hes
  have hpins := used_pins hrepresents hp
  refine ⟨hrepresents.channelNum ▸ hp.few, ?_, ?_, ?_, ?_, fun pin hpin => ⟨?_, ?_, ?_, ?_⟩⟩
  · exact List.Nodup.of_map _ (hpins ▸ hp.distinct)
  · intro cell hcell
    rw [used_eq hrepresents] at hcell
    obtain ⟨c, hc, rfl⟩ := List.mem_map.mp hcell
    have hrange := hp.pins c hc
    rw [cell_toInt hrange]
    omega
  · rw [hrepresents.pins, hrepresents.channelNum]
    exact List.drop_left' (List.length_map _)
  · rw [hrepresents.gpio, hp.gpio, ← List.foldr_map (f := fun cell : Int8 => cell.toInt.toNat)
      (g := fun pin gpio => pinBit pin ||| gpio), hpins, List.foldr_map]
  · rw [mem_used hrepresents hp hpin, ← hduties pin, Option.isSome_iff_ne_none, ne_eq, dutyOf_eq_none, not_not]
  · intro duty hduty
    rw [hrepresents.getDuty hp]
    exact congrArg (·.getD 0) ((hduties pin).trans hduty)
  · intro other hne
    have hkeep : (p.delete pin.toNat).dutyOf other.toNat = p.dutyOf other.toNat := by
      rw [dutyOf_delete hp, if_neg fun heq => hne ((toNat_eq_iff pin other).mp heq).symm]
    rw [(hrepresents.delete hp pin).getDuty (hp.delete hpin), hrepresents.getDuty hp]
    exact congrArg (·.getD 0) hkeep
  · have hfew := hp.few
    rw [← Bool.not_eq_true, (hrepresents.add hp pin).2, mem_used hrepresents hp hpin, hrepresents.channelNum, not_or]
    exact and_congr_right fun _ => ⟨fun h => le_antisymm hfew (not_lt.mp h), fun h => h.not_lt⟩

/-- Two pins are added, one gets a duty and the other one is deleted. -/
theorem table_invariant_two_pins :
    (table.final Table.initial [.add 1, .add 2, .setDuty 2000 2, .delete 1]).getDuty 2 = 1023 :=
  ((table_invariant [.add 1, .add 2, .setDuty 2000 2, .delete 1] (by decide)).2.2.2.2.2 2 (by decide)).2.1 1023 rfl

end EspClock.Pwm
