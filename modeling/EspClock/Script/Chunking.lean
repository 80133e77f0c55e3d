import EspClock.Script.Http

/-!
# Requests in chunks

However a request is cut into chunks, the connection calls `onheader` for its header lines, then the user handler, and
then `ondata` with parts of the body. When it calls `ondata` without argument depends on the length that it has read from
the headers; that happens once, after the whole body, if the length is read right, and of a long numeral only the first
digits are read.
-/

namespace EspClock.Script.Http

open Pattern Decimal

/-! ### Lines -/

/-- The request line is read. -/
theorem requestOf_requestLine {method url : List UInt8} (hne : method ≠ []) (hupper : ∀ c ∈ method, isUpper c = true) :
    requestOf (requestLine method url) = some (method, url) := by
  have hversion : matchHere true (version.map .one) (ascii " HTTP/1.1") =
      some ([[32], [72], [84], [84], [80], [47], [49], [46], [49]], []) := by decide
  have hurl : matchHere true (.lazy (fun _ => true) :: version.map .one) (url ++ ascii " HTTP/1.1") =
      some (url :: [[32], [72], [84], [84], [80], [47], [49], [46], [49]], []) := by
    refine matchHere_lazy (fun _ _ => rfl) (fun m hm => ?_) hversion
    -- the version stands at the end, so no shorter url leaves it
    refine Option.not_isSome_iff_eq_none.mp fun hsome => ?_
    have hlength := length_of_matchHere_ones hsome
    rw [List.length_drop, List.length_append] at hlength
    have hnine : (ascii " HTTP/1.1").length = 9 ∧ version.length = 9 := ⟨by decide, rfl⟩
    omega
  have hspace : matchHere true (.one (· == 32) :: .lazy (fun _ => true) :: version.map .one)
      (ascii " " ++ (url ++ ascii " HTTP/1.1")) =
      some ([32] :: url :: [[32], [72], [84], [84], [80], [47], [49], [46], [49]], []) := by
    show matchHere true _ (32 :: (url ++ ascii " HTTP/1.1")) = _
    rw [matchHere_one rfl, hurl]
    rfl
  have hbehind : ∀ c ∈ (ascii " " ++ (url ++ ascii " HTTP/1.1")).head?, isUpper c = false := fun c hc =>
    Option.some.inj hc ▸ (by decide : isUpper 32 = false)
  have hline : matchHere true requestPattern (requestLine method url) = _ := matchHere_plus hne hupper hbehind hspace
  rw [requestOf, hline]

theorem line_ne_nil {h : Header} (hvalid : h.Valid) : h.line ≠ [] := by
  cases h with
  | contentLength name spaces digits trailing => exact List.append_ne_nil_of_left_ne_nil (by simp [ascii]) _
  | other line => exact hvalid.2.1

/-- A line with a name and a value is read as the name in lower case and the value without the white space before it. -/
theorem headerOf_field {name spaces value : List UInt8} (hne : name ≠ []) (hname : ∀ c ∈ name, (isAlnum c || c == 45) = true)
    (hspaces : ∀ c ∈ spaces, isSpace c = true) (hvalue : value ≠ []) (hfirst : ∀ c ∈ value.head?, isSpace c = false) :
    headerOf (name ++ (ascii ":" ++ (spaces ++ value))) = some (name.map toLower, value) := by
  have hrest : matchHere false [.plus fun _ => true] value = some ([value], []) := by
    have hplus : matchHere false [.plus fun _ => true] (value ++ []) = _ :=
      matchHere_plus hvalue (fun _ _ => rfl) (fun _ hc => absurd hc (Option.not_mem_none _)) rfl
    rwa [List.append_nil] at hplus
  have hcolon : matchHere false [.one (· == 58), .star isSpace, .plus fun _ => true] (ascii ":" ++ (spaces ++ value)) =
      some ([[58], spaces, value], []) := by
    show matchHere false _ (58 :: (spaces ++ value)) = _
    rw [matchHere_one rfl, matchHere_star hspaces hfirst hrest]
    rfl
  have hbehind : ∀ c ∈ (ascii ":" ++ (spaces ++ value)).head?, (isAlnum c || c == 45) = false := fun c hc =>
    Option.some.inj hc ▸ (by decide : (isAlnum 58 || (58 : UInt8) == 45) = false)
  have hline : matchHere false headerPattern (name ++ (ascii ":" ++ (spaces ++ value))) = _ :=
    matchHere_plus hne hname hbehind hcolon
  rw [headerOf, hline]

/-- A line with a length is read as one. -/
theorem headerOf_contentLength {name spaces digits trailing : List UInt8}
    (h : (Header.contentLength name spaces digits trailing).Valid) :
    headerOf (Header.contentLength name spaces digits trailing).line = some (ascii "content-length", digits ++ trailing) := by
  obtain ⟨-, hlower, hspaces, hne, hdigits, -⟩ := h
  have hname : ∀ c ∈ name, (isAlnum c || c == 45) = true := by
    intro c hc
    have hbytes : ∀ n ∈ List.range 256, toLower (UInt8.ofNat n) ∈ ascii "content-length" →
        (isAlnum (UInt8.ofNat n) || UInt8.ofNat n == 45) = true := by decide +kernel
    have hbyte := hbytes c.toNat (List.mem_range.mpr c.toNat_lt)
    rw [UInt8.ofNat_toNat] at hbyte
    exact hbyte (hlower ▸ List.mem_map_of_mem hc)
  have hnameNe : name ≠ [] := by
    rintro rfl
    exact absurd hlower (by decide)
  have hfirst : ∀ c ∈ (digits ++ trailing).head?, isSpace c = false := by
    intro c hc
    obtain ⟨d, ds, rfl⟩ := List.exists_cons_of_ne_nil hne
    exact Option.some.inj hc ▸ not_isSpace_of_isDigit (hdigits d List.mem_cons_self)
  have hfield := headerOf_field hnameNe hname hspaces (List.append_ne_nil_of_left_ne_nil hne trailing) hfirst
  rw [hlower] at hfield
  simp only [Header.line, List.append_assoc]
  exact hfield

/-- No other line is taken for one with a length. -/
theorem headerOf_other {line : List UInt8} (h : (Header.other line).Valid) {k v : List UInt8} (hheader : headerOf line = some (k, v)) :
    k ≠ ascii "content-length" := by
  obtain ⟨-, -, hleads⟩ := h
  rintro rfl
  rw [headerOf] at hheader
  split at hheader
  · rename_i name colon spaces value rest more hmatch
    obtain ⟨hflatten, hfits, -⟩ := matchHere_sound hmatch
    obtain _ | ⟨-, hfits⟩ := hfits
    obtain _ | ⟨hcolon, hfits⟩ := hfits
    have hname : name.map toLower = ascii "content-length" := congrArg Prod.fst (Option.some.inj hheader)
    have hsplit : line = name ++ ([58] ++ (spaces ++ (value ++ (rest.flatten ++ more)))) := by
      rw [← hflatten, eq_of_fits_one hcolon]
      simp only [List.flatten_cons, List.append_assoc]
    generalize spaces ++ (value ++ (rest.flatten ++ more)) = tail at hsplit
    refine hleads ⟨tail.map toLower, ?_⟩
    rw [hsplit, List.map_append, hname, List.map_append]
    rfl
  · exact absurd hheader (Option.some_ne_none _).symm

/-! ### The trace -/

/-- What a connection does at a header line. -/
def report (h : Header) : List Action :=
  match headerOf h.line with
  | some (k, v) => .onheader k v :: if k = ascii "expect" ∧ v = ascii "100-continue" then [.sendContinue] else []
  | none => []

/-- The length that is read from the headers. -/
def readLength (headers : List Header) : Nat := (numeral headers).elim 0 readValue

/-- The calls of `ondata` with parts of a body when a length was read, behind a number of bytes. -/
def dataLog (length : Nat) : Nat → List (List UInt8) → List Action
  | _, [] => []
  | before, part :: parts =>
    .ondata part :: ((if length ≤ before + part.length then [.ondataEnd] else []) ++ dataLog length (before + part.length) parts)

/-- What a connection does with a whole request whose body arrives in parts. -/
def requestLog (r : Request) (install : List UInt8 → List UInt8 → Bool) (parts : List (List UInt8)) : List Action :=
  r.headers.flatMap report ++ .handler r.method r.url ::
    if install r.method r.url then dataLog (readLength r.headers) 0 parts else []

/-- A connection that has received some bytes of the body. -/
def bodyConn (r : Request) (install : List UInt8 → List UInt8 → Bool) (received : Nat) : Conn :=
  ⟨[], some (r.method, r.url), some (readLength r.headers : ℚ), if install r.method r.url then received else 0,
    install r.method r.url, .ondata⟩

/-- How far a connection is in a request of which some bytes are to come: at the request line, among the header lines, or
in the body. -/
inductive Progress (r : Request) (install : List UInt8 → List UInt8 → Bool) : Conn → List Action → List UInt8 → Prop
  | line {buf future : List UInt8} (hbytes : buf ++ future = r.bytes) :
    Progress r install ⟨buf, none, some 0, 0, false, .onreceive⟩ [] future
  | headers {buf future : List UInt8} (done todo : List Header) (hheaders : r.headers = done ++ todo)
    (hbytes : buf ++ future = afterLine todo r.body) :
    Progress r install ⟨buf, some (r.method, r.url), some (readLength done : ℚ), 0, false, .onreceive⟩ (done.flatMap report) future
  | body {future : List UInt8} (first : List UInt8) (more : List (List UInt8)) (hmore : ∀ part ∈ more, part ≠ [])
    (hbytes : (first :: more).flatten ++ future = r.body) :
    Progress r install (bodyConn r install (first :: more).flatten.length) (requestLog r install (first :: more)) future

theorem numeral_concat (headers : List Header) (h : Header) :
    numeral (headers ++ [h]) = h.numeral?.or (numeral headers) := by
  cases h with
  | contentLength name spaces digits trailing =>
    rw [numeral, List.filterMap_append]
    exact List.getLast?_concat
  | other line =>
    rw [numeral, List.filterMap_append]
    exact congrArg List.getLast? (List.append_nil _)

/-- A header line of a request: what it does to the length, and what is reported. -/
theorem onHeaderLine_eq {h : Header} (hvalid : h.Valid) (done : List Header) (s : Conn) (hs : s.cntLen = some (readLength done : ℚ)) :
    s.onHeaderLine h.line = ({ s with cntLen := some (readLength (done ++ [h]) : ℚ) }, report h) := by
  rw [Conn.onHeaderLine, report, readLength, numeral_concat]
  cases h with
  | contentLength name spaces digits trailing =>
    obtain ⟨-, -, -, hne, hdigits, htrailing⟩ := id hvalid
    rw [headerOf_contentLength hvalid]
    dsimp only
    rw [Conn.onheader, if_pos rfl, tonumber_digits hdigits hne htrailing]
    rfl
  | other line =>
    have hkeep : ((Header.other line).numeral?.or (numeral done)).elim 0 readValue = readLength done := rfl
    rw [hkeep, ← hs]
    cases hheader : headerOf (Header.other line).line with
    | none => rfl
    | some kv =>
      dsimp only
      rw [Conn.onheader, if_neg (headerOf_other hvalid hheader)]

theorem dataLog_concat (length before : Nat) (parts : List (List UInt8)) (part : List UInt8) :
    dataLog length before (parts ++ [part]) = dataLog length before parts ++
      .ondata part :: if length ≤ before + parts.flatten.length + part.length then [.ondataEnd] else [] := by
  induction parts generalizing before with
  | nil =>
    show Action.ondata part :: (_ ++ []) = _
    rw [List.append_nil]
    rfl
  | cons first parts ih =>
    rw [List.cons_append, dataLog, ih, dataLog, List.flatten_cons, List.length_append, Nat.add_assoc before]
    simp only [List.cons_append, List.append_assoc]

theorem ondata_eq (s : Conn) (chunk : List UInt8) (length : Nat) (hs : s.cntLen = some (length : ℚ)) :
    s.ondata chunk = if s.hasOndata then ({ s with bodyLen := s.bodyLen + chunk.length },
      .ondata chunk :: if length ≤ s.bodyLen + chunk.length then [.ondataEnd] else []) else (s, []) := by
  rw [Conn.ondata]
  dsimp only
  rw [hs]
  dsimp only
  have hcast : ((length : ℚ) ≤ ((s.bodyLen + chunk.length : Nat) : ℚ)) ↔ length ≤ s.bodyLen + chunk.length := Nat.cast_le
  rw [if_congr hcast rfl rfl]

/-- What a connection does with a chunk of the body, behind some bytes. -/
def chunkLog (r : Request) (install : List UInt8 → List UInt8 → Bool) (received : Nat) (chunk : List UInt8) : List Action :=
  if install r.method r.url then
    .ondata chunk :: if readLength r.headers ≤ received + chunk.length then [.ondataEnd] else []
  else []

theorem ondata_bodyConn (r : Request) (install : List UInt8 → List UInt8 → Bool) (received : Nat) (chunk : List UInt8) :
    (bodyConn r install received).ondata chunk = (bodyConn r install (received + chunk.length), chunkLog r install received chunk) := by
  rw [ondata_eq _ _ (readLength r.headers) rfl, chunkLog, bodyConn, bodyConn]
  cases install r.method r.url with
  | true => rfl
  | false => rfl

theorem requestLog_concat (r : Request) (install : List UInt8 → List UInt8 → Bool) (parts : List (List UInt8)) (part : List UInt8) :
    requestLog r install (parts ++ [part]) = requestLog r install parts ++ chunkLog r install parts.flatten.length part := by
  rw [requestLog, requestLog, chunkLog, List.append_assoc, List.cons_append]
  cases install r.method r.url with
  | true => simp only [if_true, dataLog_concat, Nat.zero_add]
  | false => rfl

/-! ### The loop over the lines -/

/-- No line end starts inside a line. -/
theorem not_crlf_inside {line rest : List UInt8} (hline : ¬ crlf <:+: line) {j : Nat} (hj : j < line.length) :
    ¬ crlf <+: (line ++ (crlf ++ rest)).drop j := by
  intro hleads
  rw [List.drop_append_of_le_length hj.le, List.drop_eq_getElem_cons hj] at hleads
  cases htail : line.drop (j + 1) with
  | nil =>
    rw [htail] at hleads
    exact absurd (List.cons_prefix_cons.mp (List.cons_prefix_cons.mp hleads).2).1 (by decide)
  | cons d t =>
    rw [htail] at hleads
    obtain ⟨hcr, hleads⟩ := List.cons_prefix_cons.mp hleads
    obtain ⟨hlf, -⟩ := List.cons_prefix_cons.mp hleads
    refine hline ⟨line.take j, t, ?_⟩
    show line.take j ++ [13, 10] ++ t = line
    conv_rhs => rw [← List.take_append_drop j line, List.drop_eq_getElem_cons hj, htail, ← hcr, ← hlf]
    rw [List.append_assoc]
    rfl

/-- The line end that is found is the one behind the line the stream starts with. -/
theorem line_of_find {buf future line rest : List UInt8} {e : Nat} (hfind : findPlain crlf buf = some e)
    (hline : ¬ crlf <:+: line) (hbytes : buf ++ future = line ++ (crlf ++ rest)) :
    buf.take e = line ∧ buf.drop (e + 2) ++ future = rest ∧ e + 2 ≤ buf.length := by
  obtain ⟨⟨tail, htail⟩, hfirst⟩ := findPlain_eq_some_iff.mp hfind
  have hlength := congrArg List.length htail
  have hcrlf : crlf.length = 2 := rfl
  rw [List.length_append, hcrlf, List.length_drop] at hlength
  have hdrop : buf.drop (e + 2) = tail := by
    rw [← List.drop_drop, ← htail]
    rfl
  have hsplit : buf.take e ++ (crlf ++ (tail ++ future)) = line ++ (crlf ++ rest) := by
    rw [← hbytes]
    conv_rhs => rw [← List.take_append_drop e buf, ← htail]
    simp only [List.append_assoc]
  have htake : (buf.take e).length = e := List.length_take_of_le (by omega)
  have heq : e = line.length := by
    obtain hlt | heq | hgt := lt_trichotomy e line.length
    · have hdropped := congrArg (List.drop e) hsplit
      rw [List.drop_left' htake] at hdropped
      exact absurd (hdropped ▸ List.prefix_append _ _) (not_crlf_inside hline hlt)
    · exact heq
    · have hdropped := congrArg (List.drop line.length) hbytes
      rw [List.drop_left, List.drop_append_of_le_length (by omega)] at hdropped
      have hleads : crlf <+: buf.drop line.length := by
        refine List.prefix_of_prefix_length_le (List.prefix_append crlf rest) ⟨future, hdropped⟩ ?_
        rw [hcrlf, List.length_drop]
        omega
      exact absurd hleads (hfirst line.length hgt)
  obtain ⟨hhead, hrest⟩ := List.append_inj hsplit (htake.trans heq)
  rw [hdrop]
  exact ⟨hhead, List.append_cancel_left hrest, by omega⟩

/-- The empty line hands what is left of the buffer on as the first part of the body. -/
theorem onEmptyLine_progress {r : Request} {install : List UInt8 → List UInt8 → Bool} {first future : List UInt8}
    (hbytes : first ++ future = r.body) :
    let result := Conn.onEmptyLine install ⟨first, some (r.method, r.url), some (readLength r.headers : ℚ), 0, false, .onreceive⟩
      r.method r.url
    Progress r install result.1 (r.headers.flatMap report ++ result.2) future := by
  intro result
  have hbody : Progress r install _ _ future := .body first [] (fun _ h => absurd h List.not_mem_nil)
    (by rw [List.flatten_singleton]; exact hbytes)
  have hresult : result = (bodyConn r install first.length, .handler r.method r.url :: chunkLog r install 0 first) := by
    show (({ (Conn.ondata ⟨first, _, _, 0, install r.method r.url, .onreceive⟩ first).1 with buf := [], receiver := .ondata },
      .handler r.method r.url :: (Conn.ondata ⟨first, _, _, 0, install r.method r.url, .onreceive⟩ first).2) : Conn × List Action) = _
    rw [ondata_eq _ _ (readLength r.headers) rfl, chunkLog, bodyConn]
    cases install r.method r.url with
    | true => simp only [if_true, Nat.zero_add]
    | false => rfl
  have hlog : requestLog r install [first] = r.headers.flatMap report ++ .handler r.method r.url :: chunkLog r install 0 first := by
    have hnil : requestLog r install [] = r.headers.flatMap report ++ [.handler r.method r.url] := by
      rw [requestLog]
      cases install r.method r.url with
      | true => rfl
      | false => rfl
    refine (requestLog_concat r install [] first).trans ?_
    rw [hnil, List.append_assoc]
    rfl
  rw [List.flatten_singleton, hlog] at hbody
  rw [hresult]
  exact hbody

/-- The loop keeps a connection in the request. -/
theorem consume_progress {r : Request} {install : List UInt8 → List UInt8 → Bool} {s : Conn} {log : List Action}
    {future : List UInt8} (h : Progress r install s log future) (hreceiver : s.receiver = .onreceive) (fuel : Nat) :
    Progress r install (consume install fuel s).1 (log ++ (consume install fuel s).2) future := by
  induction fuel generalizing s log with
  | zero =>
    rw [consume, List.append_nil]
    exact h
  | succ fuel ih =>
    rw [consume]
    cases hfind : findPlain crlf s.buf with
    | none =>
      rw [List.append_nil]
      exact h
    | some e =>
      cases h with
      | line hbytes =>
        obtain ⟨hline, hrest, -⟩ := line_of_find hfind r.line hbytes
        dsimp only at hline hrest ⊢
        rw [hline, requestOf_requestLine r.method_ne_nil r.method_upper]
        exact ih (.headers [] r.headers rfl hrest) rfl
      | headers done todo hheaders hbytes =>
        dsimp only at hfind ⊢
        cases todo with
        | nil =>
          obtain ⟨hline, hrest, -⟩ := line_of_find hfind (List.infix_nil.not.mpr (List.cons_ne_nil _ _)) hbytes
          rw [hline, if_neg (not_not.mpr rfl)]
          rw [List.append_nil] at hheaders
          subst hheaders
          exact onEmptyLine_progress hrest
        | cons header todo =>
          have hvalid := r.valid header (hheaders ▸ List.mem_append_right done List.mem_cons_self)
          rw [afterLine, List.flatMap_cons, List.append_assoc, List.append_assoc] at hbytes
          obtain ⟨hline, hrest, -⟩ := line_of_find hfind hvalid.1 hbytes
          rw [hline, if_pos (line_ne_nil hvalid), onHeaderLine_eq hvalid done _ rfl]
          dsimp only
          rw [← List.append_assoc, ← List.flatMap_singleton report header, ← List.flatMap_append]
          exact ih (.headers (done ++ [header]) todo (by rw [hheaders, List.append_assoc, List.singleton_append]) hrest) rfl
      | body first more hmore hbytes => exact absurd hreceiver (by simp [bodyConn])

/-- The loop has rounds for all lines: it leaves no line in the buffer, or the connection is in the body. -/
def Settled (s : Conn) : Prop := s.receiver = .ondata ∨ ¬ crlf <:+: s.buf

theorem onHeaderLine_buf (s : Conn) (line : List UInt8) : (s.onHeaderLine line).1.buf = s.buf := by
  rw [Conn.onHeaderLine]
  cases headerOf line with
  | none => rfl
  | some kv => rfl

theorem consume_settled (install : List UInt8 → List UInt8 → Bool) {fuel : Nat} {s : Conn} (hfuel : s.buf.length ≤ fuel) :
    Settled (consume install fuel s).1 := by
  induction fuel generalizing s with
  | zero =>
    have hempty : s.buf = [] := List.length_eq_zero_iff.mp (Nat.le_zero.mp hfuel)
    refine Or.inr ?_
    rw [consume, hempty]
    decide
  | succ fuel ih =>
    rw [consume]
    cases hfind : findPlain crlf s.buf with
    | none => exact Or.inr (findPlain_eq_none_iff.mp hfind)
    | some e =>
      have hshort : (s.buf.drop (e + 2)).length ≤ fuel := by
        rw [List.length_drop]
        omega
      dsimp only
      cases hreq : s.req with
      | none => exact ih hshort
      | some request =>
        dsimp only
        split_ifs
        · exact ih ((onHeaderLine_buf _ _).symm ▸ hshort)
        · exact Or.inl rfl

/-! ### Every way of cutting -/

/-- A chunk keeps a connection in the request. -/
theorem step_progress {r : Request} {install : List UInt8 → List UInt8 → Bool} {s : Conn} {log : List Action}
    {chunk future : List UInt8} (h : Progress r install s log (chunk ++ future)) (hne : chunk ≠ []) :
    Progress r install ((http install).next s chunk) (log ++ (http install).actions s chunk) future ∧
      Settled ((http install).next s chunk) := by
  cases h with
  | line hbytes =>
    rw [← List.append_assoc] at hbytes
    exact ⟨consume_progress (.line hbytes) rfl _, consume_settled install le_rfl⟩
  | headers done todo hheaders hbytes =>
    rw [← List.append_assoc] at hbytes
    exact ⟨consume_progress (.headers done todo hheaders hbytes) rfl _, consume_settled install le_rfl⟩
  | body first more hmore hbytes =>
    refine ⟨?_, Or.inl ?_⟩
    · have hbody : Progress r install _ _ future := .body first (more ++ [chunk])
        (List.forall_mem_append.mpr ⟨hmore, List.forall_mem_singleton.mpr hne⟩)
        (by rw [← List.cons_append, List.flatten_append, List.flatten_singleton, List.append_assoc]; exact hbytes)
      rw [← List.cons_append, requestLog_concat, List.flatten_append, List.length_append, List.flatten_singleton] at hbody
      rw [Machine.next, Machine.actions]
      show Progress r install ((bodyConn r install _).ondata chunk).1 (_ ++ ((bodyConn r install _).ondata chunk).2) future
      rw [ondata_bodyConn]
      exact hbody
    · show ((bodyConn r install _).ondata chunk).1.receiver = .ondata
      rw [ondata_bodyConn]
      rfl

theorem run_progress {r : Request} {install : List UInt8 → List UInt8 → Bool} {chunks : List (List UInt8)}
    (hne : ∀ chunk ∈ chunks, chunk ≠ []) {future : List UInt8} {s : Conn} {log : List Action}
    (h : Progress r install s log (chunks.flatten ++ future)) (hs : Settled s) :
    Progress r install ((http install).final s chunks) (log ++ (http install).trace s chunks) future ∧
      Settled ((http install).final s chunks) := by
  induction chunks generalizing s log with
  | nil =>
    rw [Machine.trace_nil, List.append_nil]
    exact ⟨h, hs⟩
  | cons chunk chunks ih =>
    obtain ⟨hchunk, hne⟩ := List.forall_mem_cons.mp hne
    rw [List.flatten_cons, List.append_assoc] at h
    obtain ⟨hnext, hsettled⟩ := step_progress h hchunk
    rw [Machine.trace_cons, Machine.final_cons, ← List.append_assoc]
    exact ih hne hnext hsettled

/-- A settled connection that has all of the head is in the body. -/
theorem Progress.in_body {r : Request} {install : List UInt8 → List UInt8 → Bool} {s : Conn} {log : List Action}
    {future : List UInt8} (h : Progress r install s log future) (hs : Settled s) (hfuture : future.length ≤ r.body.length) :
    ∃ first more, (∀ part ∈ more, part ≠ []) ∧ (first :: more).flatten ++ future = r.body ∧
      log = requestLog r install (first :: more) ∧ s = bodyConn r install (first :: more).flatten.length := by
  have hhead : ∀ buf front rest : List UInt8, buf ++ future = front ++ (crlf ++ rest) → future.length ≤ rest.length → crlf <:+: buf := by
    intro buf front rest hbytes hlength
    have htotal := congrArg List.length hbytes
    rw [List.length_append, List.length_append, List.length_append] at htotal
    have hleads : front ++ crlf <+: buf := by
      refine List.prefix_of_prefix_length_le ?_ (List.prefix_append buf future) ?_
      · rw [hbytes, ← List.append_assoc]
        exact List.prefix_append _ _
      · rw [List.length_append]
        omega
    exact (List.suffix_append front crlf).isInfix.trans hleads.isInfix
  cases h with
  | line hbytes =>
    refine absurd (hhead _ _ _ hbytes ?_) (hs.resolve_left (by simp))
    rw [afterLine, List.length_append, List.length_append]
    omega
  | headers done todo hheaders hbytes => exact absurd (hhead _ _ _ hbytes hfuture) (hs.resolve_left (by simp))
  | body first more hmore hbytes => exact ⟨first, more, hmore, hbytes, rfl, rfl⟩

/-- A connection before it receives anything. -/
theorem initial_progress (r : Request) (install : List UInt8 → List UInt8 → Bool) :
    Progress r install Conn.initial [] r.bytes ∧ Settled Conn.initial := ⟨.line rfl, Or.inr (by decide)⟩

/-- Whatever the length that is read: in all ways of cutting, the headers are reported, the user handler is called, and
the body arrives in parts, all but the first of which are not empty. -/
theorem trace_eq {r : Request} {install : List UInt8 → List UInt8 → Bool} {chunks : List (List UInt8)}
    (hne : ∀ chunk ∈ chunks, chunk ≠ []) (hchunks : chunks.flatten = r.bytes) :
    ∃ first more, (∀ part ∈ more, part ≠ []) ∧ (first :: more).flatten = r.body ∧
      (http install).trace Conn.initial chunks = requestLog r install (first :: more) := by
  obtain ⟨hprogress, hsettled⟩ := initial_progress r install
  rw [← hchunks, ← List.append_nil chunks.flatten] at hprogress
  obtain ⟨hfinal, hsettled⟩ := run_progress hne hprogress hsettled
  obtain ⟨first, more, hmore, hbody, hlog, -⟩ := hfinal.in_body hsettled (Nat.zero_le _)
  rw [List.append_nil] at hbody
  exact ⟨first, more, hmore, hbody, hlog⟩

/-! ### The end of the body -/

/-- The user handler is called once, behind the reports of all header lines in their order, and if it installs an
`ondata`, that gets the body and then, once, no argument. -/
def Served (r : Request) (install : List UInt8 → List UInt8 → Bool) (chunks : List (List UInt8)) : Prop :=
  ∃ parts : List (List UInt8), parts.flatten = r.body ∧
    (http install).trace Conn.initial chunks = r.headers.flatMap report ++ .handler r.method r.url ::
      if install r.method r.url then parts.map .ondata ++ [.ondataEnd] else []

/-- `tonumber` reads the length right: only zeros are behind the 18th digit, and no more than the exponent may count. -/
def Request.LengthRead (r : Request) : Prop :=
  ∀ digits ∈ numeral r.headers, (∀ c ∈ digits.drop 18, c = 48) ∧ (digits.length ≤ 18 + maxExponent ∨ value digits = 0)

theorem isDigit_of_numeral {headers : List Header} (hvalid : ∀ h ∈ headers, h.Valid) {digits : List UInt8}
    (hdigits : digits ∈ numeral headers) : ∀ c ∈ digits, IsDigit c := by
  obtain ⟨h, hh, hnumeral⟩ := List.mem_filterMap.mp (List.mem_of_getLast? hdigits)
  cases h with
  | contentLength name spaces digits' trailing =>
    obtain rfl := Option.some.inj hnumeral
    exact (hvalid _ hh).2.2.2.2.1
  | other line => exact absurd hnumeral (Option.some_ne_none digits).symm

theorem readLength_le (r : Request) : readLength r.headers ≤ r.body.length := by
  rw [r.length_body, readLength, declaredLength]
  cases numeral r.headers with
  | none => exact le_rfl
  | some digits => exact readValue_le digits

theorem lengthRead_iff (r : Request) : r.LengthRead ↔ readLength r.headers = r.body.length := by
  have hdigits : ∀ digits ∈ numeral r.headers, ∀ c ∈ digits, IsDigit c := fun _ h => isDigit_of_numeral r.valid h
  rw [r.length_body, readLength, declaredLength, Request.LengthRead]
  cases hnumeral : numeral r.headers with
  | none => exact iff_of_true (fun _ h => absurd h (Option.not_mem_none _)) rfl
  | some digits =>
    refine Iff.trans ?_ (readValue_eq_iff (hdigits digits hnumeral)).symm
    exact ⟨fun h => h digits rfl, fun h digits' h' => Option.some.inj h' ▸ h⟩

/-- A length that is read right ends the body with its last part. -/
theorem dataLog_of_length {first : List UInt8} {more : List (List UInt8)} (hmore : ∀ part ∈ more, part ≠ []) (before : Nat) :
    dataLog (before + (first :: more).flatten.length) before (first :: more) = (first :: more).map .ondata ++ [.ondataEnd] := by
  induction more generalizing first before with
  | nil =>
    rw [dataLog, dataLog, List.flatten_singleton, if_pos le_rfl]
    rfl
  | cons part more ih =>
    obtain ⟨hpart, hmore⟩ := List.forall_mem_cons.mp hmore
    have hpos := List.length_pos_iff.mpr hpart
    have hlong : ¬ before + (first :: part :: more).flatten.length ≤ before + first.length := by
      rw [List.flatten_cons, List.flatten_cons, List.length_append, List.length_append]
      omega
    rw [dataLog, if_neg hlong, List.nil_append, List.flatten_cons, List.length_append, ← Nat.add_assoc, ih hmore]
    rfl

theorem served_of_lengthRead {r : Request} (hread : r.LengthRead) {install : List UInt8 → List UInt8 → Bool}
    {chunks : List (List UInt8)} (hne : ∀ chunk ∈ chunks, chunk ≠ []) (hchunks : chunks.flatten = r.bytes) :
    Served r install chunks := by
  obtain ⟨first, more, hmore, hbody, htrace⟩ : ∃ first more, _ ∧ _ ∧ (http install).trace Conn.initial chunks = _ :=
    trace_eq hne hchunks
  refine ⟨first :: more, hbody, htrace.trans ?_⟩
  rw [requestLog, (lengthRead_iff r).mp hread, ← hbody, ← Nat.zero_add (first :: more).flatten.length, dataLog_of_length hmore]

/-- A length that is too small ends the body before its last byte. -/
theorem ondataEnd_mem {length : Nat} {first : List UInt8} {more : List (List UInt8)} (hlength : length ≤ (first :: more).flatten.length) :
    .ondataEnd ∈ dataLog length 0 (first :: more) := by
  obtain ⟨front, part, hparts⟩ : ∃ front part, first :: more = front ++ [part] :=
    ⟨_, _, (List.dropLast_append_getLast (List.cons_ne_nil first more)).symm⟩
  rw [hparts, List.flatten_append, List.flatten_singleton, List.length_append] at hlength
  rw [hparts, dataLog_concat, Nat.zero_add, if_pos hlength]
  exact List.mem_append_right _ (List.mem_cons_of_mem _ (List.mem_singleton_self _))

theorem ondataEnd_not_mem (r : Request) (parts : List (List UInt8)) :
    .ondataEnd ∉ r.headers.flatMap report ++ .handler r.method r.url :: parts.map Action.ondata := by
  intro hmem
  obtain hmem | hmem := List.mem_append.mp hmem
  · obtain ⟨h, -, hreport⟩ := List.mem_flatMap.mp hmem
    rw [report] at hreport
    cases hheader : headerOf h.line with
    | none =>
      rw [hheader] at hreport
      exact absurd hreport List.not_mem_nil
    | some kv =>
      rw [hheader] at hreport
      dsimp only at hreport
      split_ifs at hreport
      · simp at hreport
      · simp at hreport
  · simp at hmem

/-- The last byte of the body on its own: `ondata` gets no argument twice. -/
theorem not_served {r : Request} (hread : ¬ r.LengthRead) :
    ∃ chunks, (∀ chunk ∈ chunks, chunk ≠ []) ∧ chunks.flatten = r.bytes ∧ ¬ Served r (fun _ _ => true) chunks := by
  have hshort : readLength r.headers < r.body.length := lt_of_le_of_ne (readLength_le r) fun heq => hread ((lengthRead_iff r).mpr heq)
  obtain ⟨front, last, hbody⟩ : ∃ front last, r.body = front ++ [last] :=
    ⟨_, _, (List.dropLast_append_getLast (List.length_pos_iff.mp (by omega))).symm⟩
  obtain ⟨head, hbytes⟩ : ∃ head, r.bytes = (requestLine r.method r.url ++ head) ++ r.body :=
    ⟨crlf ++ (r.headers.flatMap (fun h => h.line ++ crlf) ++ crlf), by simp only [Request.bytes, afterLine, List.append_assoc]⟩
  have hchunks : [requestLine r.method r.url ++ head ++ front, [last]].flatten = r.bytes := by
    rw [hbytes, hbody]
    simp only [List.flatten_cons, List.flatten_nil, List.append_assoc, List.append_nil]
  have hne : requestLine r.method r.url ++ head ++ front ≠ [] :=
    List.append_ne_nil_of_left_ne_nil (List.append_ne_nil_of_left_ne_nil (List.append_ne_nil_of_left_ne_nil r.method_ne_nil _) _) _
  refine ⟨_, List.forall_mem_cons.mpr ⟨hne, List.forall_mem_singleton.mpr (List.cons_ne_nil last [])⟩, hchunks, ?_⟩
  rintro ⟨parts, -, htrace⟩
  -- the first chunk leaves the connection in the body, with one byte to come
  obtain ⟨hinitial, -⟩ := initial_progress r fun _ _ => true
  rw [← hchunks, List.flatten_cons, List.flatten_singleton] at hinitial
  obtain ⟨hprogress, hsettled⟩ := step_progress hinitial hne
  obtain ⟨first, more, -, hreceived, hlog, hconn⟩ := hprogress.in_body hsettled (by rw [hbody, List.length_append]; exact Nat.le_add_left _ _)
  have hlength : readLength r.headers ≤ (first :: more).flatten.length := by
    have htotal := congrArg List.length hreceived
    rw [List.length_append, List.length_singleton] at htotal
    omega
  have hlast : (http fun _ _ => true).actions ((http fun _ _ => true).next Conn.initial (requestLine r.method r.url ++ head ++ front)) [last] =
      [.ondata [last], .ondataEnd] := by
    rw [hconn]
    show ((bodyConn r _ _).ondata [last]).2 = _
    rw [ondata_bodyConn, chunkLog, if_pos rfl, if_pos (hlength.trans (Nat.le_add_right _ _))]
  rw [List.nil_append] at hlog
  rw [Machine.trace_cons, Machine.trace_cons, Machine.trace_nil, hlast, hlog, if_pos rfl, List.append_nil] at htrace
  have hinit : requestLog r (fun _ _ => true) (first :: more) ++ [.ondata [last]] =
      r.headers.flatMap report ++ .handler r.method r.url :: parts.map Action.ondata := by
    refine List.append_cancel_right (?_ : _ ++ [Action.ondataEnd] = _ ++ [Action.ondataEnd])
    rw [List.append_assoc, List.append_assoc]
    exact htrace
  refine ondataEnd_not_mem r parts (hinit ▸ List.mem_append_left _ ?_)
  rw [requestLog, if_pos rfl]
  exact List.mem_append_right _ (List.mem_cons_of_mem _ (ondataEnd_mem hlength))

/-- A length of one, written with 19 digits. -/
def paddedLength : Header := .contentLength (ascii "Content-Length") (ascii " ") (ascii "0000000000000000001") []

theorem paddedLength_valid : paddedLength.Valid :=
  ⟨by decide +kernel, by decide +kernel, by decide +kernel, List.cons_ne_nil _ _, by decide +kernel, fun _ h => absurd h List.not_mem_nil⟩

theorem postLine : ¬ crlf <:+: requestLine (ascii "POST") (ascii "/") := by decide +kernel

theorem post_upper : ∀ c ∈ ascii "POST", isUpper c = true := by decide +kernel

/-- A request with a body of one byte. -/
def padded : Request :=
  ⟨ascii "POST", ascii "/", [paddedLength], ascii "x", List.cons_ne_nil _ _, post_upper, postLine,
    List.forall_mem_singleton.mpr paddedLength_valid, rfl⟩

end EspClock.Script.Http
