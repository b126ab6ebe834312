import ForwardProxy.Http.HeaderLine

/-!
# Reading a response head back

A `ResponseHead` is a head as an upstream may write it: a status line and header lines. The parser
reads the status back, and the last value of each name (`parseResponse_text`). Where that leaves the
framing is settled by the last `Transfer-Encoding` and `Content-Length` (`parse_chunked`,
`parse_length`).
-/

namespace ForwardProxy

/-! ## The status line -/

/-- The status line of a response is read back. -/
theorem statusCode_statusLine {n : ℕ} (hn : n < 2^31) {version : Bytes} (hversion : SP ∉ version)
    (reason : Bytes) :
    statusCode (version ++ SP :: (decimal n ++ SP :: reason)) = some (n : ℤ) := by
  have hdigits : SP ∉ decimal n := by
    intro h
    exact absurd (isDigit_of_mem_decimal h) (by decide)
  have hsp1 : find (version ++ SP :: (decimal n ++ SP :: reason)) [SP] = some version.length :=
    Lib.Search.find_singleton_append hversion _
  have hdrop : (version ++ SP :: (decimal n ++ SP :: reason)).drop (version.length + 1) =
      decimal n ++ SP :: reason := by
    simp
  have hsp2 : findFrom (version ++ SP :: (decimal n ++ SP :: reason)) [SP] (version.length + 1) =
      some (version.length + 1 + (decimal n).length) := by
    rw [findFrom, hdrop, find, Lib.Search.find_singleton_append hdigits]
    rfl
  have hlen : version.length + 1 + (decimal n).length - (version.length + 1) =
      (decimal n).length := by
    omega
  rw [statusCode, hsp1]
  dsimp only
  rw [hsp2]
  dsimp only
  rw [hdrop, Nat.sub_sub, hlen, List.take_left, atoi_decimal hn]

/-- The status may end its line. -/
theorem statusCode_bare {n : ℕ} (hn : n < 2^31) {version : Bytes} (hversion : SP ∉ version) :
    statusCode (version ++ SP :: decimal n) = some (n : ℤ) := by
  have hdigits : SP ∉ decimal n := by
    intro h
    exact absurd (isDigit_of_mem_decimal h) (by decide)
  have hsp1 : find (version ++ SP :: decimal n) [SP] = some version.length :=
    Lib.Search.find_singleton_append hversion _
  have hdrop : (version ++ SP :: decimal n).drop (version.length + 1) = decimal n := by
    simp
  have hsp2 : findFrom (version ++ SP :: decimal n) [SP] (version.length + 1) = none := by
    rw [findFrom, hdrop, Option.map_eq_none_iff]
    refine Lib.Search.find_eq_none_iff.mpr fun i hocc => hdigits ?_
    exact List.mem_of_getElem? ((Lib.Search.occursAt_cons _ _ _ _).mp hocc).1
  rw [statusCode, hsp1]
  dsimp only
  rw [hsp2]
  dsimp only
  rw [hdrop, atoi_decimal hn]

/-! ## Framing -/

/-- A response whose `Transfer-Encoding` names chunked is chunked, whatever its length. -/
theorem takeFraming_chunked {r : Response} {te : Bytes}
    (hte : r.header (str "transfer-encoding") = some te)
    (hchunked : contains (toLower te) (str "chunked") = true) :
    takeFraming r = { r with chunked := true } := by
  have htake : takeChunked r = { r with chunked := true } := by
    simp only [takeChunked, hte, hchunked, if_true]
  unfold takeFraming takeLength
  rw [htake]
  simp

/-- A response that is not chunked has the length that its `Content-Length` says. -/
theorem takeFraming_length {r : Response} (hchunked : r.chunked = false)
    (hte : ∀ te, r.header (str "transfer-encoding") = some te →
      contains (toLower te) (str "chunked") = false) {v : Bytes}
    (hv : r.header (str "content-length") = some v) (hend : (strtol v).atEnd = true)
    (hvalue : 0 ≤ (strtol v).value) :
    takeFraming r = { r with contentLength := (strtol v).value } := by
  have htake : takeChunked r = r := by
    unfold takeChunked
    split
    · rename_i te hheader
      rw [hte te hheader, if_neg (by decide)]
    · rfl
  have hlength : takeLength r = { r with contentLength := (strtol v).value } := by
    simp only [takeLength, hchunked, hv, hend, hvalue, Bool.false_eq_true, if_false, decide_true,
      Bool.and_self, if_true]
  have hneg : ¬(strtol v).value < 0 := by omega
  unfold takeFraming
  rw [htake, hlength]
  simp [hneg]

/-- A response that is neither chunked nor has a length is ended by EOF. -/
theorem takeFraming_close {r : Response} (hchunked : r.chunked = false)
    (hte : ∀ te, r.header (str "transfer-encoding") = some te →
      contains (toLower te) (str "chunked") = false)
    (hcl : ∀ v, r.header (str "content-length") = some v →
      ¬((strtol v).atEnd = true ∧ 0 ≤ (strtol v).value)) (hlength : r.contentLength = -1) :
    takeFraming r = { r with closeDelimited := true } := by
  have htake : takeChunked r = r := by
    unfold takeChunked
    split
    · rename_i te hheader
      rw [hte te hheader, if_neg (by decide)]
    · rfl
  have hkeep : takeLength r = r := by
    unfold takeLength
    rw [if_neg (by simp [hchunked])]
    split
    · rename_i v hheader
      have hno := hcl v hheader
      rw [← decide_eq_true_eq (p := 0 ≤ (strtol v).value), ← Bool.and_eq_true] at hno
      dsimp only
      rw [if_neg hno]
    · rfl
  unfold takeFraming
  rw [htake, hkeep]
  simp [hchunked, hlength]

/-- A response with a length is complete when so many bytes come after its head. -/
theorem responseComplete_length {r : Response} (hvalid : r.valid = true)
    (hchunked : r.chunked = false) (hlength : 0 ≤ r.contentLength)
    (hsum : r.headerBytes + r.contentLength.toNat < 2^64) (buf : Bytes) :
    responseComplete buf r = true ↔ r.headerBytes + r.contentLength.toNat ≤ buf.length := by
  have hwrap : wrap64 (r.headerBytes + r.contentLength.toNat) =
      r.headerBytes + r.contentLength.toNat := Nat.mod_eq_of_lt hsum
  simp only [responseComplete, hvalid, hchunked, hlength, hwrap, Bool.not_true, Bool.false_eq_true,
    if_false, if_true, decide_eq_true_eq]

/-! ## Heads -/

/-- The head of a response, as an upstream may write it. -/
structure ResponseHead where
  version : Bytes
  status : ℕ
  reason : Option Bytes
  lines : List HeaderLine
  version_ok : SP ∉ version ∧ OneLine version
  status_ok : 100 ≤ status ∧ status ≤ 599
  reason_ok : ∀ r ∈ reason, OneLine r

/-- The version of a status line is a word of one line. -/
theorem statusVersion_http11 : SP ∉ str "HTTP/1.1" ∧ OneLine (str "HTTP/1.1") := by decide

/-- The name of the length is a name of one line. -/
theorem name_contentLength : COLON ∉ str "Content-Length" ∧ OneLine (str "Content-Length") ∧
    trim (str "Content-Length") ≠ [] := by decide

namespace ResponseHead

/-- The status line. Without a reason the space after the status may be there or not. -/
def line (h : ResponseHead) : Bytes :=
  match h.reason with
  | some reason => h.version ++ SP :: (decimal h.status ++ SP :: reason)
  | none => h.version ++ SP :: decimal h.status

/-- The status line has no line feed. -/
theorem lf_notMem_line (h : ResponseHead) : LF ∉ h.line := by
  have hversion := h.version_ok.2.2
  have hdigits : LF ∉ decimal h.status := fun hmem =>
    absurd (isDigit_of_mem_decimal hmem) (by decide)
  have hsp : LF ≠ SP := by decide
  unfold line
  cases hreason : h.reason with
  | some reason => simp [hversion, hdigits, hsp, (h.reason_ok reason hreason).2]
  | none => simp [hversion, hdigits, hsp]

/-- The status is read back. -/
theorem statusCode_line (h : ResponseHead) : statusCode h.line = some (h.status : ℤ) := by
  have hn : h.status < 2^31 := by
    have := h.status_ok
    omega
  unfold line
  cases h.reason with
  | some reason => exact statusCode_statusLine hn h.version_ok.1 reason
  | none => exact statusCode_bare hn h.version_ok.1

/-- The head as one whose lines end in `CR LF`. -/
def crlf (h : ResponseHead) : CrlfHead where
  line := h.line
  lines := h.lines.map HeaderLine.text
  line_ok := h.lf_notMem_line
  lines_ok := by
    intro l hl
    obtain ⟨l', -, rfl⟩ := List.mem_map.mp hl
    exact l'.text_ok

/-- The head as it is written. -/
def text (h : ResponseHead) : Bytes := h.crlf.text

/-- The map of header fields that is read. -/
def headers (h : ResponseHead) : Headers := h.crlf.fields.foldl Headers.assign ∅

/-- The entry of each name is the last value of that name. -/
theorem lookup_headers (h : ResponseHead) (name : Bytes) :
    h.headers.lookup name = (lineValues name h.lines).getLast? := by
  rw [headers, lookup_foldl_assign, AList.lookup_empty, Option.or_none]
  exact lastValue_lines name h.lines

/-- What `parse_response_headers` makes of a buffer that starts with the head. -/
theorem parseResponse_text (h : ResponseHead) (rest : Bytes) :
    parseResponseHeaders (h.text ++ rest) =
      { takeFraming { status := h.status, headers := h.headers } with
        valid := true
        headerBytes := h.text.length } := by
  refine h.crlf.parseResponse_status h.statusCode_line ?_ rest
  have := h.status_ok
  omega

/-- The last `Transfer-Encoding` names chunked. -/
def SaysChunked (h : ResponseHead) : Prop :=
  ∃ te, (lineValues (str "transfer-encoding") h.lines).getLast? = some te ∧
    contains (toLower te) (str "chunked") = true

/-- A head that says chunked is parsed as chunked. -/
theorem parse_chunked {h : ResponseHead} (hchunked : h.SaysChunked) (rest : Bytes) :
    parseResponseHeaders (h.text ++ rest) = {
      status := h.status
      headers := h.headers
      headerBytes := h.text.length
      chunked := true
      valid := true } := by
  obtain ⟨te, hte, hnames⟩ := hchunked
  rw [parseResponse_text]
  rw [takeFraming_chunked (by rw [Response.header, lookup_headers, hte]) hnames]

/-- Where it does not, no `Transfer-Encoding` that is looked at does. -/
theorem not_chunked {h : ResponseHead} (hchunked : ¬h.SaysChunked) {status : ℤ} (te : Bytes)
    (hte : ({ status := status, headers := h.headers } : Response).header
      (str "transfer-encoding") = some te) : contains (toLower te) (str "chunked") = false := by
  rw [Response.header, lookup_headers] at hte
  rw [← Bool.not_eq_true]
  exact fun hnames => hchunked ⟨te, hte, hnames⟩

/-- A head whose last length is a number to its end is parsed with it. -/
theorem parse_length {h : ResponseHead} (hchunked : ¬h.SaysChunked) {v : Bytes}
    (hv : (lineValues (str "content-length") h.lines).getLast? = some v)
    (hend : (strtol v).atEnd = true) (hvalue : 0 ≤ (strtol v).value) (rest : Bytes) :
    parseResponseHeaders (h.text ++ rest) = {
      status := h.status
      headers := h.headers
      headerBytes := h.text.length
      contentLength := (strtol v).value
      valid := true } := by
  rw [parseResponse_text]
  rw [takeFraming_length rfl (not_chunked hchunked) (by rw [Response.header, lookup_headers, hv])
    hend hvalue]

/-- A head with neither is parsed as one whose body ends with the connection. -/
theorem parse_close {h : ResponseHead} (hchunked : ¬h.SaysChunked)
    (hcl : ∀ v, (lineValues (str "content-length") h.lines).getLast? = some v →
      ¬((strtol v).atEnd = true ∧ 0 ≤ (strtol v).value)) (rest : Bytes) :
    parseResponseHeaders (h.text ++ rest) = {
      status := h.status
      headers := h.headers
      headerBytes := h.text.length
      closeDelimited := true
      valid := true } := by
  rw [parseResponse_text]
  rw [takeFraming_close rfl (not_chunked hchunked) (fun v hv => ?_) rfl]
  rw [Response.header, lookup_headers] at hv
  exact hcl v hv

end ResponseHead

end ForwardProxy
