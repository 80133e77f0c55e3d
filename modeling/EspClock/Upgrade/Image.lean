import EspClock.Upgrade.Download

/-!
# A download from its start to its end

An answer with a header and as many bytes behind it as the header says, in segments of any length: the upgrade is finished with
the last segment and not before, whatever the writes came to; and when they all went well the image is in the flash, but for
the bytes of it that make no whole word.
-/

namespace EspClock.Upgrade

open Nor Decimal Pattern

/-! ### The header -/

/-- The header of an answer: it ends with its first blank line and gives the length of the image. -/
structure Header (header : List UInt8) (n : Nat) : Prop where
  text : (0 : UInt8) ∉ header
  ends : ∃ front, header = front ++ blankLine ∧ findPlain blankLine header = some front.length
  length_eq : ∃ front digits rest, header = front ++ (lengthLabel ++ (digits ++ (crlf ++ rest))) ∧
    findPlain lengthLabel header = some front.length ∧ (∀ c ∈ digits, IsDigit c) ∧ digits.length < 32 ∧ value digits = n

theorem findPlain_append {p a : List UInt8} {i : Nat} (h : findPlain p a = some i) (hfits : i + p.length ≤ a.length)
    (t : List UInt8) : findPlain p (a ++ t) = some i := by
  obtain ⟨hhere, hbefore⟩ := findPlain_eq_some_iff.mp h
  refine findPlain_eq_some_iff.mpr ⟨?_, ?_⟩
  · rw [List.drop_append_of_le_length (by omega)]
    exact hhere.trans (List.prefix_append _ _)
  · intro j hj hstart
    refine hbefore j hj ?_
    rw [List.drop_append_of_le_length (by omega)] at hstart
    exact List.prefix_of_prefix_length_le hstart (List.prefix_append _ _) (by rw [List.length_drop]; omega)

theorem atoi_digits {digits : List UInt8} (h : ∀ c ∈ digits, IsDigit c) : atoi digits = value digits := by
  have htake : digits.takeWhile (fun c => IsDigit c) = digits :=
    List.takeWhile_eq_self_iff.mpr fun c hc => decide_eq_true (h c hc)
  have hdrop : digits.dropWhile (fun c => c = 32 ∨ 9 ≤ c.toNat ∧ c.toNat ≤ 13) = digits := by
    cases digits with
    | nil => rfl
    | cons c cs =>
      have hc := h c List.mem_cons_self
      have hnot : ¬ (c = 32 ∨ 9 ≤ c.toNat ∧ c.toNat ≤ 13) := by
        rintro (rfl | ⟨-, hle⟩)
        · exact absurd hc (by decide)
        · have hge := hc.1
          omega
      rw [List.dropWhile_cons_of_neg (by simpa using hnot)]
  rw [atoi, hdrop]
  cases digits with
  | nil => rfl
  | cons c cs =>
    have hc := h c List.mem_cons_self
    have hminus : c ≠ 45 := by
      rintro rfl
      exact absurd hc (by decide)
    have hplus : c ≠ 43 := by
      rintro rfl
      exact absurd hc (by decide)
    split
    · rename_i heq
      cases heq
      exact absurd rfl hminus
    · rename_i heq
      cases heq
      exact absurd rfl hplus
    · rw [htake]

variable {header : List UInt8} {n : Nat}

theorem Header.text_eq (h : Header header n) (body : List UInt8) :
    (header ++ body).takeWhile (· ≠ 0) = header ++ body.takeWhile (· ≠ 0) := by
  apply List.takeWhile_append_of_pos
  intro c hc
  refine decide_eq_true ?_
  rintro rfl
  exact h.text hc

/-- The length in the header is found, and taken as it is. -/
theorem Header.lengthField_eq (h : Header header n) (hn : n < 2 ^ 32) (t : List UInt8) (sumlength : Nat) :
    lengthField (header ++ t) sumlength = some n := by
  obtain ⟨front, digits, rest, hheader, hfind, hdigits, hlength, hvalue⟩ := h.length_eq
  have hlabel : lengthLabel.length = 16 := by decide
  have hfits : front.length + lengthLabel.length ≤ header.length := by
    rw [hheader, List.length_append, List.length_append]
    omega
  have hdrop : (header ++ t).drop (front.length + 16) = digits ++ (crlf ++ (rest ++ t)) := by
    rw [hheader, ← hlabel, ← List.length_append, List.append_assoc, List.append_assoc, List.append_assoc, ← List.append_assoc front,
      List.drop_left, List.append_assoc]
  have hreturn : findPlain crlf (digits ++ (crlf ++ (rest ++ t))) = some digits.length := by
    have hnot : (13 : UInt8) ∉ digits := fun hmem => absurd (hdigits 13 hmem) (by decide)
    have hcrlf : crlf = 13 :: [10] := by decide
    have hhere : findPlain crlf (crlf ++ (rest ++ t)) = some 0 :=
      findPlain_eq_some_iff.mpr ⟨List.prefix_append _ _, fun j hj => absurd hj (Nat.not_lt_zero j)⟩
    rw [hcrlf] at hhere ⊢
    rw [findPlain_append_of_not_mem hnot, hhere]
    simp
  rw [lengthField, findPlain_append hfind hfits]
  dsimp only
  rw [hdrop, hreturn]
  dsimp only
  have hwrap : ((n : Int) % 2 ^ 32).toNat = n := by omega
  rw [if_pos hlength, List.take_left, atoi_digits hdigits, hvalue, hwrap]

/-- The first segment is taken apart behind the blank line. -/
theorem Header.split_eq (h : Header header n) (body : List UInt8) :
    ∃ i, (if (findPlain contentLength ((header ++ body).takeWhile (· ≠ 0))).isSome then
        findPlain blankLine ((header ++ body).takeWhile (· ≠ 0)) else none) = some i ∧ (header ++ body).drop (i + 4) = body := by
  obtain ⟨front, hheader, hfind⟩ := h.ends
  have hblank : blankLine.length = 4 := by decide
  have hsplit : findPlain blankLine (header ++ body.takeWhile (· ≠ 0)) = some front.length :=
    findPlain_append hfind (by rw [hheader, List.length_append]) _
  have hlabelled : (findPlain contentLength (header ++ body.takeWhile (· ≠ 0))).isSome := by
    obtain ⟨front', digits, rest, hheader', -⟩ := h.length_eq
    rw [Option.isSome_iff_ne_none, ne_eq, findPlain_eq_none_iff, not_not]
    have hlabel : lengthLabel = contentLength ++ ascii ": " := by decide
    refine ⟨front', ascii ": " ++ (digits ++ (crlf ++ rest)) ++ body.takeWhile (· ≠ 0), ?_⟩
    rw [hheader', hlabel]
    simp only [List.append_assoc]
  refine ⟨front.length, ?_, ?_⟩
  · rw [h.text_eq, if_pos hlabelled, hsplit]
  · rw [hheader, ← hblank, ← List.length_append, List.drop_left]

/-! ### The segments -/

/-- The state once `t` bytes of `n` have come and been handed on. -/
def loaded (written : UpgradeParam × Flash) (t n : Nat) : State :=
  if t = n then ⟨written.2, none, 0, 0, .finish⟩ else ⟨written.2, some written.1, t, n, .start⟩

/-- Pieces of the image are handed on one after the other. -/
def handOn : UpgradeParam × Flash → List (List UInt8 × WriteResult) → UpgradeParam × Flash
  | written, [] => written
  | written, piece :: pieces => handOn (systemUpgradeInternal written.1 written.2 piece.1 piece.2).2 pieces

theorem received_eq (written : UpgradeParam × Flash) (t n : Nat) :
    received true ⟨written.2, some written.1, t, n, .start⟩ = loaded written t n := by
  rw [received, loaded]
  split
  · rfl
  · rfl

theorem upgradeDownload_next {written : UpgradeParam × Flash} {t : Nat} {data : List UInt8} (ht : 0 < t) (hdata : data ≠ [])
    (hfits : t + data.length < 2 ^ 32) (result : WriteResult) :
    upgradeDownload ⟨written.2, some written.1, t, n, .start⟩ data true result =
      some (loaded (systemUpgradeInternal written.1 written.2 data result).2 (t + data.length) n) := by
  rw [upgradeDownload]
  dsimp only
  rw [if_neg (by omega)]
  dsimp only
  rw [Nat.mod_eq_of_lt hfits, systemUpgrade, if_neg hdata]
  exact congrArg some (received_eq _ _ _)

theorem upgradeDownload_first (h : Header header n) (hn : n < 2 ^ 32) {s : State} {u : UpgradeParam} (hupgrade : s.upgrade = some u)
    (htotal : s.totallength = 0) (hflag : s.flag = .start) {body : List UInt8} (hbody : body ≠ []) (hfits : body.length < 2 ^ 32)
    (result : WriteResult) : upgradeDownload s (header ++ body) true result =
      some (loaded (systemUpgradeInternal u s.flash body result).2 body.length n) := by
  obtain ⟨i, hsplit, hrest⟩ := h.split_eq body
  obtain ⟨flash, upgrade, totallength, sumlength, flag⟩ := s
  cases hupgrade
  cases htotal
  cases hflag
  rw [upgradeDownload]
  simp only [true_and]
  rw [hsplit]
  dsimp only
  rw [hrest, Nat.zero_add, Nat.mod_eq_of_lt hfits, systemUpgrade, if_neg hbody]
  dsimp only [Option.map_some, Option.bind_some]
  rw [h.text_eq, h.lengthField_eq hn, Option.map_some]
  exact congrArg some (received_eq _ _ _)

/-- A segment of an open connection. -/
def segment (piece : List UInt8 × WriteResult) : Event := .segment piece.1 true piece.2

def lengths (pieces : List (List UInt8 × WriteResult)) : Nat := (pieces.map fun piece => piece.1.length).sum

/-- The segments behind the first one, as long as there are not too many bytes. -/
theorem run_segments (bin1 : Bool) {pieces : List (List UInt8 × WriteResult)} (hpieces : ∀ piece ∈ pieces, piece.1 ≠ [])
    {written : UpgradeParam × Flash} {t : Nat} (ht : 0 < t) (hn : n < 2 ^ 32) (hfits : t + lengths pieces ≤ n) :
    run bin1 (loaded written t n) (pieces.map segment) = some (loaded (handOn written pieces) (t + lengths pieces) n) := by
  induction pieces generalizing written t with
  | nil => rfl
  | cons piece pieces ih =>
    have hne := hpieces piece List.mem_cons_self
    have hpos := List.length_pos_iff.mpr hne
    have hlengths : lengths (piece :: pieces) = piece.1.length + lengths pieces := by
      rw [lengths, List.map_cons, List.sum_cons]
      rfl
    have hopen : loaded written t n = ⟨written.2, some written.1, t, n, .start⟩ := by
      rw [loaded, if_neg (by omega)]
    rw [List.map_cons, run, hopen]
    show (upgradeDownload _ piece.1 true piece.2).bind _ = _
    rw [upgradeDownload_next ht hne (by omega), Option.bind_some,
      ih (fun q hq => hpieces q (List.mem_cons_of_mem _ hq)) (by omega) (by omega), hlengths, Nat.add_assoc]
    rfl

/-- All events of a download: the start, the segment with the header and the other segments. -/
def download (header : List UInt8) (first : List UInt8 × WriteResult) (pieces : List (List UInt8 × WriteResult)) : List Event :=
  .start :: segment (header ++ first.1, first.2) :: pieces.map segment

/-- The structure that a start leaves. -/
def fresh (bin1 : Bool) (s : State) : UpgradeParam :=
  ⟨(newSectors bin1 s.flash).1 * secSize, (newSectors bin1 s.flash).1, (newSectors bin1 s.flash).2, 0, []⟩

variable {s : State} {first : List UInt8 × WriteResult} {pieces : List (List UInt8 × WriteResult)}

theorem run_download (bin1 : Bool) (hnone : s.upgrade = none) (htotal : s.totallength = 0) (hflag : s.flag ≠ .start)
    (h : Header header n) (hn : n < 2 ^ 32) (hfirst : first.1 ≠ []) (hpieces : ∀ piece ∈ pieces, piece.1 ≠ [])
    (hfits : first.1.length + lengths pieces ≤ n) :
    run bin1 s (download header first pieces) =
      some (loaded (handOn (fresh bin1 s, s.flash) (first :: pieces)) (first.1.length + lengths pieces) n) := by
  have hstart : systemUpgradeStart bin1 s = ⟨s.flash, some (fresh bin1 s), 0, s.sumlength, .start⟩ := by
    obtain ⟨flash, upgrade, totallength, sumlength, flag⟩ := s
    cases hnone
    cases htotal
    rw [systemUpgradeStart, if_neg hflag, systemUpgradeInit, fresh, newSectors]
    cases bin1
    · rfl
    · rfl
  rw [download, run]
  show (some (systemUpgradeStart bin1 s)).bind _ = _
  rw [Option.bind_some, hstart, run]
  show (upgradeDownload _ (header ++ first.1) true first.2).bind _ = _
  rw [upgradeDownload_first h hn rfl rfl rfl hfirst (by omega), Option.bind_some,
    run_segments bin1 hpieces (List.length_pos_iff.mpr hfirst) hn hfits]
  rfl

theorem lengths_take_lt (hpieces : ∀ piece ∈ pieces, piece.1 ≠ []) {k : Nat} (hk : k < pieces.length) :
    lengths (pieces.take k) < lengths pieces := by
  have hsplit : lengths pieces = lengths (pieces.take k) + lengths (pieces.drop k) := by
    rw [lengths, lengths, lengths, ← List.sum_append, ← List.map_append, List.take_append_drop]
  have hnext : pieces.drop k = pieces[k] :: pieces.drop (k + 1) := List.drop_eq_getElem_cons hk
  have hpos := List.length_pos_iff.mpr (hpieces pieces[k] (List.getElem_mem hk))
  rw [hsplit, hnext, lengths, lengths, List.map_cons, List.sum_cons]
  omega

theorem handOn_holds {sec num : Nat} {written : UpgradeParam × Flash} {body : List UInt8}
    (hof : written.1.Of sec num) (h : written.1.Holds sec written.2 body)
    (hpieces : ∀ piece ∈ pieces, piece.2 = .ok ∧ piece.1.length + 4 ≤ secSize)
    (hfits : (body ++ (pieces.map Prod.fst).flatten).length < num * secSize) :
    (handOn written pieces).1.Holds sec (handOn written pieces).2 (body ++ (pieces.map Prod.fst).flatten) := by
  induction pieces generalizing written body with
  | nil =>
    rw [List.map_nil, List.flatten_nil, List.append_nil]
    exact h
  | cons piece pieces ih =>
    obtain ⟨data, result⟩ := piece
    obtain ⟨hok, hshort⟩ := hpieces (data, result) List.mem_cons_self
    cases hok
    rw [List.map_cons, List.flatten_cons, ← List.append_assoc] at hfits ⊢
    have hnext := h.systemUpgrade hof hshort (by rw [List.length_append] at hfits; omega)
    have hsame := systemUpgradeInternal_same hof written.2 data .ok
    exact ih hsame.1 hnext.2 (fun q hq => hpieces q (List.mem_cons_of_mem _ hq)) hfits

theorem fresh_holds (bin1 : Bool) (s : State) : (fresh bin1 s).Holds (newSectors bin1 s.flash).1 s.flash [] := by
  have hpos := (newSectors_bounds bin1 s.flash).1
  refine ⟨rfl, rfl, rfl, Or.inl ⟨rfl, ?_⟩⟩
  show 0 ≠ _
  omega

theorem fresh_of (bin1 : Bool) (s : State) : (fresh bin1 s).Of (newSectors bin1 s.flash).1 (newSectors bin1 s.flash).2 :=
  ⟨rfl, rfl, Nat.le_refl _, (newSectors_bounds bin1 s.flash).2⟩

def answer : List UInt8 := ascii "HTTP/1.1 200 OK\r\nContent-Length: 9\r\n\r\n"

theorem header_answer : Header answer 9 := by
  refine ⟨by decide, ⟨ascii "HTTP/1.1 200 OK\r\nContent-Length: 9", by decide, by decide⟩,
    ascii "HTTP/1.1 200 OK\r\n", [57], crlf, by decide, by decide, ?_, by decide, by decide⟩
  intro c hc
  rw [List.mem_singleton.mp hc]
  decide

end EspClock.Upgrade
