import EspClock.Lib.Decimal
import EspClock.Led.Ticker

/-!
# Forms of the ticker's arguments

A letter can be given as a string or as its code, a text as a string or as a table of codes. The codes of a table are
reduced to the size of the font; the bytes of a string are not, and a number is taken for the string of its digits, since
`lua_isstring` is true for it.
-/

namespace EspClock.Led

open Mem Scroll

/-- The code of a byte as an element of a table. -/
def codeOf (c : UInt8) : LuaValue := .number (Decimal.print c.toNat) c.toNat

/-- The string of the one character with a code. -/
def charOf (code : Nat) (numeral : Option Int) : LuaValue := .string [UInt8.ofNat code] numeral

/-- An argument of `add_text`, or one of `add_letter` and `set_char_mask`; a number comes with the string that Lua
converts it to. -/
inductive Argument where
  | text (bytes : List UInt8) (numeral : Option Int)
  | letter (bytes : List UInt8) (numeral : Option Int)
  | number (digits : List UInt8) (n : Nat)

def LuaValue.TextWithin (v : LuaValue) : Prop :=
  ∀ letters, textLetters v = some letters → ∀ i, some i ∈ letters → i < fontSize

def LuaValue.CharWithin (v : LuaValue) : Prop := ∀ i, charIndex v = some i → i < fontSize

/-- The argument has the effect of its other form in every state, and no form leads out of the font. -/
def Argument.Agrees : Argument → Prop
  | .text bytes numeral =>
    (∀ s r g b, tickerAddText s (.string bytes numeral) r g b = tickerAddText s (.table (bytes.map codeOf)) r g b) ∧
      (LuaValue.string bytes numeral).TextWithin ∧ (LuaValue.table (bytes.map codeOf)).TextWithin
  | .letter bytes numeral => (LuaValue.string bytes numeral).CharWithin
  | .number digits n =>
    (∀ numeral s r g b,
      tickerAddLetter s (.number digits n) r g b = tickerAddLetter s (charOf (n % fontSize) numeral) r g b) ∧
    (∀ numeral s rows,
      tickerSetCharMask s (.number digits n) rows = tickerSetCharMask s (charOf (n % fontSize) numeral) rows) ∧
    (LuaValue.number digits n).CharWithin

/-- The bytes that are looked up are in the font, and the first digit of a number happens to be the letter it is the code
of. -/
def Argument.Fits : Argument → Prop
  | .text bytes _ => ∀ c ∈ bytes, c.toNat < fontSize
  | .letter bytes _ => firstByte bytes < fontSize
  | .number digits n => firstByte digits = n % fontSize

/-! ### Texts -/

theorem textLetters_string (text : List UInt8) (numeral : Option Int) :
    textLetters (.string text numeral) = some (text.map fun c => some c.toNat) := rfl

theorem textLetters_codes (text : List UInt8) :
    textLetters (.table (text.map codeOf)) = some (text.map fun c => some (c.toNat % fontSize)) := by
  have hcode : ∀ c : UInt8, word32 (c.toNat : Int) = c.toNat := by
    intro c
    have hlt := c.toNat_lt
    rw [word32]
    omega
  simp [textLetters, codeOf, LuaValue.integer?, hcode]

theorem textWithin_string {text : List UInt8} {numeral : Option Int} :
    (LuaValue.string text numeral).TextWithin ↔ ∀ c ∈ text, c.toNat < fontSize := by
  simp [LuaValue.TextWithin, textLetters_string]

theorem textWithin_codes (text : List UInt8) : (LuaValue.table (text.map codeOf)).TextWithin := by
  intro letters hletters i hi
  rw [textLetters_codes, Option.some.injEq] at hletters
  subst hletters
  obtain ⟨c, -, hc⟩ := List.mem_map.mp hi
  rw [← Option.some.inj hc]
  exact Nat.mod_lt _ (by decide)

theorem tickerAddText_congr (s : Scroll) {v w : LuaValue} (h : textLetters v = textLetters w) (r g b : LuaValue) :
    tickerAddText s v r g b = tickerAddText s w r g b := by
  simp only [tickerAddText, h]

theorem text_agrees_iff (text : List UInt8) (numeral : Option Int) :
    (Argument.text text numeral).Agrees ↔ (Argument.text text numeral).Fits := by
  constructor
  · rintro ⟨-, hwithin, -⟩
    exact textWithin_string.mp hwithin
  · intro hfits
    refine ⟨fun s r g b => ?_, textWithin_string.mpr hfits, textWithin_codes text⟩
    apply tickerAddText_congr
    rw [textLetters_string, textLetters_codes]
    apply congrArg some
    apply List.map_congr_left
    intro c hc
    rw [Nat.mod_eq_of_lt (hfits c hc)]

/-! ### Letters -/

theorem charIndex_string (text : List UInt8) (numeral : Option Int) :
    charIndex (.string text numeral) = some (firstByte text) := by
  simp [charIndex, LuaValue.isString, LuaValue.toText]

/-- A number is its digits. -/
theorem charIndex_number (digits : List UInt8) (z : Int) : charIndex (.number digits z) = some (firstByte digits) := by
  simp [charIndex, LuaValue.isString, LuaValue.toText]

theorem charIndex_charOf {code : Nat} (hcode : code < 256) (numeral : Option Int) :
    charIndex (charOf code numeral) = some code := by
  rw [charOf, charIndex_string]
  simp [firstByte, Nat.mod_eq_of_lt hcode]

theorem tickerAddLetter_congr (s : Scroll) {v w : LuaValue} (h : charIndex v = charIndex w) (r g b : LuaValue) :
    tickerAddLetter s v r g b = tickerAddLetter s w r g b := by
  simp only [tickerAddLetter, h]

theorem tickerSetCharMask_congr (s : Scroll) {v w : LuaValue} (h : charIndex v = charIndex w) (rows : LuaValue) :
    tickerSetCharMask s v rows = tickerSetCharMask s w rows := by
  simp only [tickerSetCharMask, h]

/-- Six rows with one lamp. -/
def oneLamp : LuaValue := .table (.number [49] 1 :: List.replicate 5 (.number [48] 0))

theorem tickerSetCharMask_oneLamp (s : Scroll) {v : LuaValue} {i : Nat} (hi : charIndex v = some i) :
    (tickerSetCharMask s v oneLamp).state.font = fun j => if j = i then 1 else s.font j := by
  have hmask : composeMask 0 0 (.number [49] 1 :: List.replicate 5 (.number [48] 0)) = some 1 := by decide
  simp only [tickerSetCharMask, hi, oneLamp, hmask]
  rfl

/-- A mask that is set shows which letter it was set for. -/
theorem charIndex_eq_of_masks {s : Scroll} (hfont : s.font = fun _ => 0) {v w : LuaValue} {i j : Nat}
    (hi : charIndex v = some i) (hj : charIndex w = some j)
    (h : tickerSetCharMask s v oneLamp = tickerSetCharMask s w oneLamp) : i = j := by
  have hfonts := congrArg (fun e : Effect => e.state.font i) h
  simp only [tickerSetCharMask_oneLamp s hi, tickerSetCharMask_oneLamp s hj, hfont] at hfonts
  by_contra hne
  simp [hne] at hfonts

theorem number_agrees_iff (digits : List UInt8) (n : Nat) :
    (Argument.number digits n).Agrees ↔ (Argument.number digits n).Fits := by
  have hlt : n % fontSize < fontSize := Nat.mod_lt _ (by decide)
  have hbyte : n % fontSize < 256 := hlt.trans (by decide)
  constructor
  · rintro ⟨-, hmasks, -⟩
    let s : Scroll := ⟨⟨0, 0, 0, [], id, false⟩, ⟨0, 0, 0, 0, 0, []⟩, fun _ => 0⟩
    exact charIndex_eq_of_masks (s := s) rfl (charIndex_number digits n) (charIndex_charOf hbyte none) (hmasks none s oneLamp)
  · intro (hfits : firstByte digits = n % fontSize)
    have hindex : ∀ numeral, charIndex (.number digits n) = charIndex (charOf (n % fontSize) numeral) := by
      intro numeral
      rw [charIndex_number, charIndex_charOf hbyte]
      rw [hfits]
    refine ⟨fun numeral s r g b => tickerAddLetter_congr s (hindex numeral) r g b,
      fun numeral s rows => tickerSetCharMask_congr s (hindex numeral) rows, fun i hi => ?_⟩
    rw [charIndex_number] at hi
    rw [← Option.some.inj hi, hfits]
    exact hlt

theorem letter_agrees_iff (text : List UInt8) (numeral : Option Int) :
    (Argument.letter text numeral).Agrees ↔ (Argument.letter text numeral).Fits := by
  simp [Argument.Agrees, Argument.Fits, LuaValue.CharWithin, charIndex_string]

/-- The forms of an argument agree exactly if its bytes are in the font and, for a number, its first digit is its letter. -/
theorem argument_forms_agree_iff (a : Argument) : a.Agrees ↔ a.Fits := by
  cases a with
  | text text numeral => exact text_agrees_iff text numeral
  | letter text numeral => exact letter_agrees_iff text numeral
  | number digits n => exact number_agrees_iff digits n

/-- The code 97 is taken for the letter `9`. -/
theorem number_taken_for_digit : ¬∀ a : Argument, a.Agrees := by
  intro hall
  have hfits : firstByte (Decimal.print 97) = 97 % fontSize := (number_agrees_iff (Decimal.print 97) 97).mp (hall _)
  exact absurd hfits (by decide +kernel)

end EspClock.Led
