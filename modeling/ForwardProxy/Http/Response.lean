import ForwardProxy.Http.Request

/-!
# Responses

`Response` and `parse_response_headers` of `http.hpp`, the walk of a chunked body, and the two
decisions taken on a parsed response: whether a message is complete, and whether it may be cached.
Positions and sizes are `size_t`, so the sums of the chunk walk are taken modulo `2^64`.
-/

namespace ForwardProxy

/-- `Response`. -/
structure Response where
  status : ℤ := 0
  headers : Headers := ∅
  headerBytes : ℕ := 0
  contentLength : ℤ := -1
  chunked : Bool := false
  closeDelimited : Bool := false
  valid : Bool := false
  deriving DecidableEq

/-- `Response::header`: the value of a field by its name in lower case. -/
def Response.header (r : Response) (lowerName : Bytes) : Option Bytes := r.headers.lookup lowerName

/-- `parse_response_headers` lets a repeated field replace the value that it has. -/
def Headers.assign (h : Headers) (field : Bytes × Bytes) : Headers := h.insert field.1 field.2

/-- The status code of a status line, HTTP/1.1 SP 200 SP OK; `none` without a first space. -/
def statusCode (line : Bytes) : Option ℤ :=
  match find line [SP] with
  | none => none
  | some sp1 =>
    match findFrom line [SP] (sp1 + 1) with
    | none => some (atoi (line.drop (sp1 + 1)))
    | some sp2 => some (atoi ((line.drop (sp1 + 1)).take (sp2 - sp1 - 1)))

/-- `Transfer-Encoding`, where it names chunked. -/
def takeChunked (r : Response) : Response :=
  match r.header (str "transfer-encoding") with
  | some te => if contains (toLower te) (str "chunked") then { r with chunked := true } else r
  | none => r

/-- `Content-Length`, unless the response is chunked. `errno` is not asked here, so a length out of
range is clamped. -/
def takeLength (r : Response) : Response :=
  if r.chunked then r
  else
    match r.header (str "content-length") with
    | some cl =>
      let v := strtol cl
      if v.atEnd && decide (0 ≤ v.value) then { r with contentLength := v.value } else r
    | none => r

/-- The framing of a response. Without either header the body ends when the socket closes. -/
def takeFraming (r : Response) : Response :=
  let r := takeLength (takeChunked r)
  if !r.chunked && decide (r.contentLength < 0) then { r with closeDelimited := true } else r

/-- What `parse_response_headers` makes of the lines of a head: the first is the status line. -/
def parseResponseLines : List Bytes → Response
  | [] => {}
  | line :: lines =>
    match statusCode (popCR line) with
    | none => {}
    | some status =>
      -- A status out of range leaves the response invalid, without its header lines.
      if status < 100 ∨ 599 < status then { status := status }
      else
        let r : Response := {
          status := status
          headers := (headerFields lines).foldl Headers.assign ∅ }
        { takeFraming r with valid := true }

/-- `parse_response_headers`. -/
def parseResponseHeaders (raw : Bytes) : Response :=
  match findHeaderEnd raw with
  | none => {}
  | some hend => { parseResponseLines (getlines (raw.take hend)) with headerBytes := hend }

/-! ## Chunked bodies -/

/-- The value of a hexadecimal digit in either case. -/
def hexDigit (c : Byte) : Option ℕ :=
  if 48 ≤ c ∧ c ≤ 57 then some (c.toNat - 48)
  else if 97 ≤ c ∧ c ≤ 102 then some (c.toNat - 97 + 10)
  else if 65 ≤ c ∧ c ≤ 70 then some (c.toNat - 65 + 10)
  else none

/-- The loop over the size of a chunk: the size so far, and whether any digit was read. `none` is a
byte that is neither digit nor blank, or a size above `2^40`. -/
def chunkSizeLoop : Bytes → ℕ → Bool → Option (ℕ × Bool)
  | [], size, anyDigit => some (size, anyDigit)
  | c :: s, size, anyDigit =>
    match hexDigit c with
    | some v =>
      let size := wrap64 (wrap64 (size * 16) + v)
      if 2^40 < size then none else chunkSizeLoop s size true
    | none => if c = SP ∨ c = TAB then chunkSizeLoop s size anyDigit else none

/-- Where the size on the line from `pos` to `lineEnd` ends: at a chunk extension, or the line. -/
def sizeEnd (raw : Bytes) (pos lineEnd : ℕ) : ℕ :=
  match findFrom raw (str ";") pos with
  -- The extension is looked for in all of the rest, so it may lie past the line.
  | some e => if lineEnd < e then lineEnd else e
  | none => lineEnd

/-- The size on the line from `pos` to `lineEnd`; `none` where the walk refuses the line. -/
def chunkSize (raw : Bytes) (pos lineEnd : ℕ) : Option ℕ :=
  match chunkSizeLoop ((raw.drop pos).take (sizeEnd raw pos lineEnd - pos)) 0 false with
  | some (size, true) => some size
  | _ => none

/-- The trailer loop after the terminal chunk: lines from `p` up to a blank one. Each turn moves `p`
on by two or more, so `fuel` above the length of `raw` is never used up. -/
def trailersComplete : ℕ → Bytes → ℕ → Bool
  | 0, _, _ => false
  | fuel + 1, raw, p =>
    match findFrom raw [CR, LF] p with
    | none => false
    | some e => if e = p then true else trailersComplete fuel raw (wrap64 (e + 2))

/-- The chunk loop from position `pos`, with `fuel` as for the trailers. -/
def chunksComplete : ℕ → Bytes → ℕ → Bool
  | 0, _, _ => false
  | fuel + 1, raw, pos =>
    match findFrom raw [CR, LF] pos with
    | none => false
    | some lineEnd =>
      match chunkSize raw pos lineEnd with
      | none => false
      | some 0 => trailersComplete (raw.length + 1) raw (wrap64 (lineEnd + 2))
      | some size =>
        let pos := wrap64 (lineEnd + 2 + size + 2)
        if raw.length < pos then false else chunksComplete fuel raw pos

/-- `chunked_body_complete`. -/
def chunkedBodyComplete (raw : Bytes) (bodyStart : ℕ) : Bool :=
  chunksComplete (raw.length + 1) raw bodyStart

/-! ## Decisions on a response -/

/-- `response_complete`. -/
def responseComplete (raw : Bytes) (r : Response) : Bool :=
  if !r.valid then false
  else if r.chunked then chunkedBodyComplete raw r.headerBytes
  else if 0 ≤ r.contentLength then
    decide (wrap64 (r.headerBytes + r.contentLength.toNat) ≤ raw.length)
  else false

/-- A `Cache-Control` value that keeps a response out of the cache. -/
def forbidsStore (value : Bytes) : Bool :=
  let v := toLower value
  contains v (str "no-store") || contains v (str "no-cache") || contains v (str "private")

/-- `is_cacheable`. -/
def isCacheable (req : Request) (resp : Response) : Bool :=
  if req.method ≠ str "GET" ∧ req.method ≠ str "HEAD" then false
  else if resp.status ≠ 200 then false
  else if (req.header (str "authorization")).isSome then false
  else if (resp.header (str "cache-control")).any forbidsStore then false
  else if (resp.header (str "set-cookie")).isSome then false
  else true

example :
    let head := str "HTTP/1.1 200 OK\r\nTransfer-Encoding: chunked\r\n\r\n"
    responseComplete (head ++ str "3\r\nabc\r\n0\r\n\r\n") (parseResponseHeaders head) = true := by
  decide +kernel

end ForwardProxy
