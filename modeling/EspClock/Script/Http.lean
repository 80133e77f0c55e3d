import EspClock.Lib.Pattern
import EspClock.Lib.Run
import EspClock.Script.Number

/-!
# The HTTP server

A connection of `http.lua` collects what it receives in a buffer and takes lines out of it: the request line, the header
lines, and the empty line at which the user handler is called. What is left of the buffer then is the first chunk of the
body, and from then on what is received goes to `ondata`, which counts up to the length that a header gave.
-/

namespace EspClock.Script.Http

open Pattern Decimal

def crlf : List UInt8 := ascii "\r\n"

def isUpper (c : UInt8) : Bool := decide (65 ≤ c ∧ c ≤ 90)

def isAlnum (c : UInt8) : Bool := decide (48 ≤ c ∧ c ≤ 57 ∨ 65 ≤ c ∧ c ≤ 90 ∨ 97 ≤ c ∧ c ≤ 122)

def toLower (c : UInt8) : UInt8 := if isUpper c then c + 32 else c

/-- ` HTTP/1.1`, in which the dot matches any byte. -/
def version : List (UInt8 → Bool) :=
  [(· == 32), (· == 72), (· == 84), (· == 84), (· == 80), (· == 47), (· == 49), fun _ => true, (· == 49)]

/-- `^([A-Z]+) (.-) HTTP/1.1$` -/
def requestPattern : List (Item UInt8) :=
  .plus isUpper :: .one (· == 32) :: .lazy (fun _ => true) :: version.map .one

/-- The method and the url of a request line. -/
def requestOf (line : List UInt8) : Option (List UInt8 × List UInt8) :=
  match matchHere true requestPattern line with
  | some (method :: _ :: url :: _, _) => some (method, url)
  | _ => none

/-- `^([%w-]+):%s*(.+)` -/
def headerPattern : List (Item UInt8) :=
  [.plus fun c => isAlnum c || c == 45, .one (· == 58), .star isSpace, .plus fun _ => true]

/-- The name of a header line, in lower case, and its value. -/
def headerOf (line : List UInt8) : Option (List UInt8 × List UInt8) :=
  match matchHere false headerPattern line with
  | some (k :: _ :: _ :: v :: _, _) => some (k.map toLower, v)
  | _ => none

/-! ### A connection -/

/-- What a connection does: it calls `onheader`, which may answer that the client should go on, the user handler, and
`req:ondata` with a chunk or without. A comparison with nil is an error. -/
inductive Action where
  | onheader (k v : List UInt8)
  | sendContinue
  | handler (method url : List UInt8)
  | ondata (chunk : List UInt8)
  | ondataEnd
  | error
  deriving DecidableEq

/-- The function that is called with what is received. -/
inductive Receiver where
  | onreceive
  | ondata

/-- The variables of a connection. `req` is there with the method and the url, and `hasOndata` says whether it has an
`ondata`. A `cntLen` that is none is nil. -/
structure Conn where
  buf : List UInt8
  req : Option (List UInt8 × List UInt8)
  cntLen : Option ℚ
  bodyLen : Nat
  hasOndata : Bool
  receiver : Receiver

def Conn.initial : Conn := ⟨[], none, some 0, 0, false, .onreceive⟩

/-- `onheader`. The request has no `onheader` of its own before the user handler has seen it. -/
def Conn.onheader (s : Conn) (k v : List UInt8) : Conn × List Action :=
  ({ s with cntLen := if k = ascii "content-length" then tonumber v else s.cntLen },
    .onheader k v :: if k = ascii "expect" ∧ v = ascii "100-continue" then [.sendContinue] else [])

def Conn.ondata (s : Conn) (chunk : List UInt8) : Conn × List Action :=
  if s.hasOndata then
    let s := { s with bodyLen := s.bodyLen + chunk.length }
    match s.cntLen with
    | none => (s, [.ondata chunk, .error])
    | some cntLen => (s, .ondata chunk :: if cntLen ≤ s.bodyLen then [.ondataEnd] else [])
  else (s, [])

/-- A line that is no request line, and not empty. -/
def Conn.onHeaderLine (s : Conn) (line : List UInt8) : Conn × List Action :=
  match headerOf line with
  | some (k, v) => s.onheader k v
  | none => (s, [])

/-- The empty line. The user handler may install an `ondata`. -/
def Conn.onEmptyLine (install : List UInt8 → List UInt8 → Bool) (s : Conn) (method url : List UInt8) : Conn × List Action :=
  let (s, data) := { s with hasOndata := install method url }.ondata s.buf
  ({ s with buf := [], receiver := .ondata }, .handler method url :: data)

/-- The loop over the lines in the buffer, with as many rounds as there are bytes. -/
def consume (install : List UInt8 → List UInt8 → Bool) : Nat → Conn → Conn × List Action
  | 0, s => (s, [])
  | fuel + 1, s =>
    match findPlain crlf s.buf with
    | none => (s, [])
    | some e =>
      let line := s.buf.take e
      let s := { s with buf := s.buf.drop (e + 2) }
      match s.req with
      | none => consume install fuel { s with req := requestOf line }
      | some (method, url) =>
        if line ≠ [] then
          let (s, actions) := s.onHeaderLine line
          let (s, more) := consume install fuel s
          (s, actions ++ more)
        else s.onEmptyLine install method url

def Conn.onreceive (install : List UInt8 → List UInt8 → Bool) (s : Conn) (chunk : List UInt8) : Conn × List Action :=
  let s := { s with buf := s.buf ++ chunk }
  consume install s.buf.length s

/-- A connection that receives chunks. -/
def http (install : List UInt8 → List UInt8 → Bool) : Machine Conn (List UInt8) Action :=
  ⟨fun s chunk =>
    match s.receiver with
    | .onreceive => s.onreceive install chunk
    | .ondata => s.ondata chunk⟩

/-! ### Requests -/

/-- A header line: one with the length of the body, or any other one. -/
inductive Header where
  | contentLength (name spaces digits trailing : List UInt8)
  | other (line : List UInt8)

namespace Header

def line : Header → List UInt8
  | contentLength name spaces digits trailing => name ++ ascii ":" ++ spaces ++ digits ++ trailing
  | other line => line

/-- The name of the length may be written in either case, with white space around the numeral. -/
def Valid (h : Header) : Prop :=
  (¬ crlf <:+: h.line) ∧
    match h with
    | contentLength name spaces digits trailing =>
      name.map toLower = ascii "content-length" ∧ (∀ c ∈ spaces, isSpace c = true) ∧ digits ≠ [] ∧
        (∀ c ∈ digits, IsDigit c) ∧ ∀ c ∈ trailing, isSpace c = true
    | other line => line ≠ [] ∧ ¬ ascii "content-length:" <+: line.map toLower

def numeral? : Header → Option (List UInt8)
  | contentLength _ _ digits _ => some digits
  | other _ => none

end Header

/-- The numeral of the last header line with a length. -/
def numeral (headers : List Header) : Option (List UInt8) := (headers.filterMap Header.numeral?).getLast?

/-- The length of the body, 0 if no header gives one. -/
def declaredLength (headers : List Header) : Nat := (numeral headers).elim 0 value

def requestLine (method url : List UInt8) : List UInt8 := method ++ (ascii " " ++ (url ++ ascii " HTTP/1.1"))

/-- A request with a body of exactly the length that its headers give. -/
structure Request where
  method : List UInt8
  url : List UInt8
  headers : List Header
  body : List UInt8
  method_ne_nil : method ≠ []
  method_upper : ∀ c ∈ method, isUpper c = true
  line : ¬ crlf <:+: requestLine method url
  valid : ∀ h ∈ headers, h.Valid
  length_body : body.length = declaredLength headers

/-- What is behind the request line. -/
def afterLine (headers : List Header) (body : List UInt8) : List UInt8 :=
  headers.flatMap (fun h => h.line ++ crlf) ++ (crlf ++ body)

def Request.bytes (r : Request) : List UInt8 := requestLine r.method r.url ++ (crlf ++ afterLine r.headers r.body)

end EspClock.Script.Http
