import Mathlib.Data.List.AList
import ForwardProxy.Bytes

/-!
# Requests

`Request` and `parse_request` of `http.hpp`. The parser looks at the buffer twice: `find_header_end`
finds where the head ends, and the `getline` loops read the lines of the head. Everything but `raw`
and `headerBytes` is a function of the lines (`parseRequestLines`).
-/

namespace ForwardProxy

/-- Header fields by lower-cased name. The `unordered_map` is never iterated over, so its order is
of no account. -/
abbrev Headers := AList (fun _ : Bytes => Bytes)

/-- Equality of headers is that of their entries. Mathlib's own instance does not evaluate. -/
instance : DecidableEq Headers := fun _ _ => decidable_of_iff _ AList.ext_iff.symm

/-- `Request`. -/
structure Request where
  method : Bytes := []
  target : Bytes := []
  version : Bytes := []
  path : Bytes := []
  host : Bytes := []
  headers : Headers := ∅
  raw : Bytes := []
  headerBytes : ℕ := 0
  contentLength : ℤ := -1
  keepAlive : Bool := true
  valid : Bool := false
  parseError : Bytes := []
  deriving DecidableEq

/-- `Request::header`: the value of a field by its name in lower case. -/
def Request.header (r : Request) (lowerName : Bytes) : Option Bytes := r.headers.lookup lowerName

/-- The offset just past the end of the header block: past the first `CR LF CR LF`, and only where
there is none, past the first `LF LF`. -/
def findHeaderEnd (buf : Bytes) : Option ℕ :=
  match find buf [CR, LF, CR, LF] with
  | some p => some (p + 4)
  | none =>
    match find buf [LF, LF] with
    | some p => some (p + 2)
    | none => none

/-! ## Header lines -/

/-- The field of a header line, its name lower-cased and both parts trimmed. A line without a colon
or with a blank name has none. -/
def headerField (line : Bytes) : Option (Bytes × Bytes) :=
  match find line [COLON] with
  | none => none
  | some colon =>
    let name := toLower (trim (line.take colon))
    let value := trim (line.drop (colon + 1))
    if name = [] then none else some (name, value)

/-- The fields of the lines that the header loop reads: those before the first that is empty once
its carriage return is gone. -/
def headerFields : List Bytes → List (Bytes × Bytes)
  | [] => []
  | l :: lines =>
    let line := popCR l
    if line = [] then []
    else (headerField line).toList ++ headerFields lines

/-- `parse_request` folds a repeated field into the value that it has. -/
def Headers.fold (h : Headers) (field : Bytes × Bytes) : Headers :=
  match h.lookup field.1 with
  | none => h.insert field.1 field.2
  | some v => h.insert field.1 (v ++ str ", " ++ field.2)

/-! ## The parser -/

/-- The request line: METHOD SP request-target SP HTTP-version. A request that fails here keeps what
was set before. -/
def parseRequestLine (line : Bytes) : Except Request Request :=
  match find line [SP] with
  | none => .error { parseError := str "malformed request line" }
  | some sp1 =>
    match findFrom line [SP] (sp1 + 1) with
    | none => .error { parseError := str "malformed request line" }
    | some sp2 =>
      let r : Request := {
        method := line.take sp1
        target := (line.drop (sp1 + 1)).take (sp2 - sp1 - 1)
        version := trim (line.drop (sp2 + 1)) }
      if r.method = [] ∨ r.target = [] then
        .error { r with parseError := str "malformed request line" }
      else if r.version.take 5 ≠ str "HTTP/" then
        .error { r with parseError := str "unsupported version" }
      else .ok r

/-- The path and host of an absolute-form target, and the target itself as the path of any other. -/
def normaliseTarget (r : Request) : Request :=
  if (toLower r.target).take 7 = str "http://" then
    match findFrom r.target [SLASH] 7 with
    -- The authority starts past the seven bytes of `http://`.
    | none => { r with host := r.target.drop 7, path := str "/" }
    | some slash =>
      { r with host := (r.target.drop 7).take (slash - 7), path := r.target.drop slash }
  else { r with path := r.target }

/-- The Host header, where the target gave no host. -/
def takeHost (r : Request) : Request :=
  if r.host = [] then
    match r.header (str "host") with
    | some h => { r with host := h }
    | none => r
  else r

/-- `Content-Length`: a value that `strtol` reads to its end, in range and not negative. Any other
leaves the length at `-1`. -/
def takeContentLength (r : Request) : Request :=
  match r.header (str "content-length") with
  | some cl =>
    let v := strtol cl
    if !v.erange && v.atEnd && decide (0 ≤ v.value) then { r with contentLength := v.value } else r
  | none => r

/-- HTTP/1.1 defaults to keep-alive, any other version to close, and `Connection` overrides. -/
def takeKeepAlive (r : Request) : Request :=
  let keep := decide (r.version = str "HTTP/1.1")
  match r.header (str "connection") with
  | some c =>
    let v := toLower c
    -- `close` is looked for first, so it wins over `keep-alive`.
    if contains v (str "close") then { r with keepAlive := false }
    else if contains v (str "keep-alive") then { r with keepAlive := true }
    else { r with keepAlive := keep }
  | none => { r with keepAlive := keep }

/-- What `parse_request` makes of the lines of a head: the first is the request line. -/
def parseRequestLines : List Bytes → Request
  | [] => { parseError := str "empty request" }
  | line :: lines =>
    match parseRequestLine (popCR line) with
    | .error r => r
    | .ok r =>
      let r := { r with headers := (headerFields lines).foldl Headers.fold ∅ }
      let r := takeKeepAlive (takeContentLength (takeHost (normaliseTarget r)))
      -- Only now is the request valid: what failed before keeps its default.
      if r.host = [] then { r with parseError := str "missing Host header" }
      else { r with valid := true }

/-- `parse_request`. -/
def parseRequest (raw : Bytes) : Request :=
  match findHeaderEnd raw with
  | none => { raw := raw, parseError := str "incomplete headers" }
  | some hend =>
    { parseRequestLines (getlines (raw.take hend)) with raw := raw, headerBytes := hend }

/-- The bytes that a complete request occupies, as a `size_t`. -/
def expectedRequestBytes (r : Request) : ℕ :=
  if 0 < r.contentLength then wrap64 (r.headerBytes + r.contentLength.toNat) else r.headerBytes

example : (parseRequest (str "GET http://origin.test:8080/p/q HTTP/1.1\r\nHost: i\r\n\r\n")).host =
    str "origin.test:8080" := by decide

end ForwardProxy
