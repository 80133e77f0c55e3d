import EspClock.Lib.Pattern
import EspClock.Script.Number
import Mathlib.Tactic.Ring

/-!
# Messages from a Redis server

The receive callback of `redis.lua` looks for the beginning of a pushed message in the packet, once for each channel in
its table. Behind it the callback matches a length, which must fit the rest of the packet, and what it hands on ends one
byte in front of the packet's end, where the line feed is: the carriage return before it stays.
-/

namespace EspClock.Script.Redis

open Pattern Decimal

def crlf : List UInt8 := ascii "\r\n"

/-- `%s` of `string.format`. A short string goes through C and ends at its first zero byte. -/
def formatString (s : List UInt8) : List UInt8 := if 100 ≤ s.length then s else s.takeWhile (· ≠ 0)

/-- What a message to a channel starts with, `p` in the callback. -/
def messagePrefix (chn : List UInt8) : List UInt8 :=
  ascii "*3\r\n$7\r\nmessage\r\n$" ++ print chn.length ++ crlf ++ formatString chn ++ crlf ++ ascii "$"

/-- `(%d-)\r\n` -/
def lengthPattern : List (Item UInt8) := [.lazy (decide <| IsDigit ·), .one (· == 13), .one (· == 10)]

/-- The body of the loop for one channel: the calls of its handler, which is false once it is unsubscribed. -/
def onChannel (s chn : List UInt8) (handler : Bool) : List (List UInt8 × List UInt8) :=
  let p := messagePrefix chn
  if (findPlain p s).isSome then
    match findFrom false lengthPattern (p.length - 1) (s.drop (p.length - 1)) with
    | none => []
    | some (_, start, taken) =>
      if tonumber (taken.headD []) = some (((s.length : Int) - start - 2 : Int) : ℚ) ∧ handler = true then
        [(chn, (s.take (s.length - 1)).drop start)]
      else []
  else []

/-- The receive callback on a packet: the handlers called, each with its channel and what it gets. The table lists the
channels in the order in which `pairs` happens to go through it. -/
def onReceive (handlers : List (List UInt8 × Bool)) (s : List UInt8) : List (List UInt8 × List UInt8) :=
  handlers.flatMap fun (chn, handler) => onChannel s chn handler

/-! ### The frame of a message -/

def frame (chn msg : List UInt8) : List UInt8 :=
  ascii "*3\r\n$7\r\nmessage\r\n$" ++ print chn.length ++ crlf ++ chn ++ crlf ++ ascii "$" ++ print msg.length ++ crlf ++
    msg ++ crlf

/-- The handler of the channel is called once, with the message, and no other one. -/
def Delivers (handlers : List (List UInt8 × Bool)) (chn msg : List UInt8) : Prop :=
  onReceive handlers (frame chn msg) = [(chn, msg)]

/-! ### The length -/

theorem tonumber_nil : tonumber [] = none := rfl

theorem nonneg_of_tonumber {digits : List UInt8} (hdigits : ∀ c ∈ digits, IsDigit c) {x : ℚ} (h : tonumber digits = some x) :
    0 ≤ x := by
  by_cases hne : digits = []
  · rw [hne, tonumber_nil] at h
    exact absurd h (Option.some_ne_none x).symm
  · rw [tonumber_all_digits hdigits hne] at h
    exact Option.some.inj h ▸ Nat.cast_nonneg _

/-- The length that is found is made of digits, and a line end follows it. -/
theorem taken_of_lengthPattern {t rest : List UInt8} {taken : List (List UInt8)}
    (h : matchHere false lengthPattern t = some (taken, rest)) :
    ∃ digits, taken = [digits, [13], [10]] ∧ ∀ c ∈ digits, IsDigit c := by
  obtain ⟨-, hfits, -⟩ := matchHere_sound h
  obtain _ | ⟨hdigits, hfits⟩ := hfits
  obtain _ | ⟨hcr, hfits⟩ := hfits
  obtain _ | ⟨hlf, hfits⟩ := hfits
  obtain _ | _ := hfits
  rw [eq_of_fits_one hcr, eq_of_fits_one hlf]
  exact ⟨_, rfl, fun c hc => of_decide_eq_true (hdigits.1 c hc)⟩

/-- A call of a handler: what it gets stands between a line end, behind a length that fits, and the last byte. -/
theorem call_spec {s chn : List UInt8} {handler : Bool} {call : List UInt8 × List UInt8} (h : call ∈ onChannel s chn handler) :
    ∃ front rest, s = front ++ 10 :: rest ∧ 2 ≤ rest.length ∧ call.2 = rest.take (rest.length - 1) := by
  rw [onChannel] at h
  split_ifs at h with hfound
  · cases hfind : findFrom false lengthPattern ((messagePrefix chn).length - 1) (s.drop ((messagePrefix chn).length - 1)) with
    | none =>
      rw [hfind] at h
      exact absurd h List.not_mem_nil
    | some found =>
      obtain ⟨start, stop, taken⟩ := found
      rw [hfind] at h
      dsimp only at h
      split_ifs at h with hfits
      · obtain rfl := List.mem_singleton.mp h
        obtain ⟨skipped, rest, hs, hstart, hstop, hmatch⟩ := findFrom_sound hfind
        obtain ⟨digits, rfl, hdigits⟩ := taken_of_lengthPattern hmatch
        have hflatten : [digits, [13], [10]].flatten = digits ++ [13, 10] := rfl
        rw [hflatten] at hs hstop
        have hpackage : s = (s.take ((messagePrefix chn).length - 1) ++ skipped ++ digits ++ [13]) ++ 10 :: rest := by
          conv_lhs => rw [← List.take_append_drop ((messagePrefix chn).length - 1) s, hs]
          simp only [List.append_assoc, List.cons_append, List.nil_append]
        generalize hfront : s.take ((messagePrefix chn).length - 1) ++ skipped ++ digits ++ [13] = front at hpackage
        have hlength : s.length = stop + rest.length ∧ stop = (front ++ [10]).length := by
          have hdrop := congrArg List.length hs
          have htotal := congrArg List.length hpackage
          rw [List.length_drop] at hdrop
          simp only [List.length_append, List.length_cons, List.length_nil] at hdrop htotal hstop ⊢
          omega
        have hroom : 2 ≤ rest.length := by
          have hnonneg := nonneg_of_tonumber hdigits hfits.1
          have hint : (0 : Int) ≤ (s.length : Int) - stop - 2 := by exact_mod_cast hnonneg
          omega
        refine ⟨front, rest, hpackage, hroom, ?_⟩
        show (s.take (s.length - 1)).drop stop = _
        have hsplit : s = (front ++ [10]) ++ rest := by rw [hpackage, List.append_assoc, List.singleton_append]
        rw [hlength.1, hlength.2, hsplit, List.take_append, List.take_of_length_le (by omega), List.drop_left]
        exact congrArg (List.take · rest) (by omega)
      · exact absurd h List.not_mem_nil
  · exact absurd h List.not_mem_nil

/-- In a packet that ends with a message and a line end no handler gets that message. -/
theorem call_ne {head msg chn : List UInt8} {handler : Bool} {call : List UInt8 × List UInt8}
    (h : call ∈ onChannel (head ++ (msg ++ crlf)) chn handler) : call.2 ≠ msg := by
  obtain ⟨front, rest, hpackage, hroom, hcall⟩ := call_spec h
  intro heq
  have hrest : rest.length = msg.length + 1 := by
    have hlength := congrArg List.length (hcall.symm.trans heq)
    rw [List.length_take] at hlength
    omega
  have hcrlf : crlf.length = 2 := rfl
  have hfront : front.length = head.length := by
    have htotal := congrArg List.length hpackage
    simp only [List.length_append, List.length_cons, hcrlf, hrest] at htotal
    omega
  -- the message starts with the line feed in front of the rest, and is the rest without its last byte
  obtain ⟨rfl, htail⟩ := List.append_inj hpackage hfront.symm
  cases msg with
  | nil => exact absurd hroom (by rw [hrest]; decide)
  | cons c t =>
    rw [List.cons_append, List.cons.injEq] at htail
    obtain ⟨rfl, rfl⟩ := htail
    have htake : (t ++ crlf).take ((t ++ crlf).length - 1) = t ++ [13] := by
      rw [List.length_append, hcrlf, List.take_append, List.take_of_length_le (by omega),
        show t.length + 2 - 1 - t.length = 1 by omega]
      rfl
    rw [htake] at hcall
    have hcount := congrArg (List.count 13) (hcall.symm.trans heq)
    rw [List.count_append, List.count_singleton_self, List.count_cons_of_ne (show (10 : UInt8) ≠ 13 by decide)] at hcount
    exact absurd hcount (Nat.succ_ne_self _)

/-! ### What arrives -/

theorem findFrom_length {digits rest : List UInt8} (hdigits : ∀ c ∈ digits, IsDigit c) (i : Nat) :
    findFrom false lengthPattern i (ascii "$" ++ (digits ++ (crlf ++ rest))) =
      some (i + 1, i + 1 + (digits.length + 2), [digits, [13], [10]]) := by
  have hend : matchHere false [.one (· == 13), .one (· == 10)] (crlf ++ rest) = some ([[13], [10]], rest) := by
    show matchHere false [.one (· == 13), .one (· == 10)] (13 :: 10 :: rest) = _
    rw [matchHere_one rfl, matchHere_one rfl]
    rfl
  have hmatch : matchHere false lengthPattern (digits ++ (crlf ++ rest)) = some ([digits, [13], [10]], rest) := by
    refine matchHere_lazy (fun c hc => decide_eq_true (hdigits c hc)) (fun m hm => matchHere_one_of_not fun c hc => ?_) hend
    rw [List.drop_append_of_le_length hm.le, List.drop_eq_getElem_cons hm] at hc
    obtain rfl := Option.mem_some.mp hc
    refine beq_false_of_ne fun heq => ?_
    exact absurd (heq ▸ hdigits _ (List.getElem_mem hm)) (by decide)
  have hfirst : ∀ m < (ascii "$").length, matchHere false lengthPattern ((ascii "$" ++ (digits ++ (crlf ++ rest))).drop m) = none := by
    intro m hm
    obtain rfl : m = 0 := Nat.lt_one_iff.mp hm
    show matchHere false lengthPattern (36 :: _) = none
    rw [lengthPattern, matchHere_lazy_of_not fun c hc => Option.mem_some.mp hc ▸ rfl,
      matchHere_one_of_not fun c hc => Option.mem_some.mp hc ▸ rfl]
    rfl
  rw [findFrom_of_first hfirst hmatch]
  simp [ascii]

/-- The handler of the channel gets the message with a carriage return behind it, as long as the channel's name goes
through `string.format` and the length through `tonumber`. -/
theorem onChannel_frame {chn msg : List UInt8} (hchn : formatString chn = chn) (hshort : (print msg.length).length ≤ 18) :
    onChannel (frame chn msg) chn true = [(chn, msg ++ [13])] := by
  have hframe : frame chn msg = messagePrefix chn ++ (print msg.length ++ (crlf ++ (msg ++ crlf))) := by
    simp only [frame, messagePrefix, hchn, List.append_assoc]
  have hfound : (findPlain (messagePrefix chn) (frame chn msg)).isSome := by
    rw [hframe, findPlain_eq_some_iff.mpr ⟨List.prefix_append _ _, fun j hj => absurd hj (Nat.not_lt_zero j)⟩]
    rfl
  obtain ⟨front, hfront⟩ : ∃ front, messagePrefix chn = front ++ ascii "$" := ⟨_, rfl⟩
  have hlength : (messagePrefix chn).length = front.length + 1 := by
    rw [hfront, List.length_append]
    rfl
  have hdrop : (frame chn msg).drop ((messagePrefix chn).length - 1) =
      ascii "$" ++ (print msg.length ++ (crlf ++ (msg ++ crlf))) := by
    rw [hframe, hlength, Nat.add_sub_cancel, hfront, List.append_assoc, List.drop_left]
  have hdigits : ∀ c ∈ print msg.length, IsDigit c := fun c => isDigit_of_mem_print
  have hsplit : frame chn msg = (messagePrefix chn ++ print msg.length ++ crlf) ++ (msg ++ [13]) ++ [10] := by
    simp only [hframe, crlf, List.append_assoc]
    rfl
  have hstop : (messagePrefix chn).length - 1 + 1 + ((print msg.length).length + 2) =
      (messagePrefix chn ++ print msg.length ++ crlf).length := by
    rw [List.length_append, List.length_append, hlength]
    show _ = _ + 2
    omega
  have htotal : (frame chn msg).length = (messagePrefix chn ++ print msg.length ++ crlf).length + msg.length + 2 := by
    rw [hsplit]
    simp only [List.length_append, List.length_cons, List.length_nil]
    omega
  rw [onChannel, if_pos hfound, hdrop, findFrom_length hdigits, hstop]
  have hnumber : tonumber ([print msg.length, [13], [10]].headD []) = some ((((frame chn msg).length : Int) -
      (messagePrefix chn ++ print msg.length ++ crlf).length - 2 : Int) : ℚ) := by
    rw [htotal]
    refine (tonumber_all_digits hdigits (print_ne_nil _)).trans (congrArg some ?_)
    rw [readValue_short hshort, value_print]
    push_cast
    ring
  have htake : (frame chn msg).take ((frame chn msg).length - 1) =
      (messagePrefix chn ++ print msg.length ++ crlf) ++ (msg ++ [13]) := by
    have hone : (messagePrefix chn ++ print msg.length ++ crlf ++ (msg ++ [13]) ++ [10]).length - 1 =
        (messagePrefix chn ++ print msg.length ++ crlf ++ (msg ++ [13])).length := by
      rw [List.length_append]
      rfl
    rw [hsplit, hone]
    exact List.take_left
  dsimp only
  rw [if_pos ⟨hnumber, rfl⟩, htake, List.drop_left]

/-! ### Every packet -/

/-- No table, channel and message: the message itself never reaches a handler. -/
theorem never_delivers (handlers : List (List UInt8 × Bool)) (chn msg : List UInt8) : ¬ Delivers handlers chn msg := by
  intro hdelivers
  have hcall : (chn, msg) ∈ onReceive handlers (frame chn msg) := by
    rw [hdelivers]
    exact List.mem_singleton_self _
  obtain ⟨⟨chn', handler⟩, -, hcall⟩ := List.mem_flatMap.mp hcall
  rw [frame, List.append_assoc] at hcall
  exact call_ne hcall rfl

/-- The message `hi` arrives with a carriage return. -/
theorem delivered_with_cr : onReceive [(ascii "a", true)] (frame (ascii "a") (ascii "hi")) = [(ascii "a", ascii "hi\r")] ∧
    ¬ Delivers [(ascii "a", true)] (ascii "a") (ascii "hi") := by
  have hcalls : onReceive [(ascii "a", true)] (frame (ascii "a") (ascii "hi")) = [(ascii "a", ascii "hi\r")] := by decide +kernel
  refine ⟨hcalls, fun hdelivers => ?_⟩
  exact absurd (hcalls.symm.trans hdelivers) (by decide)

end EspClock.Script.Redis
