import ForwardProxy.Http.ResponseHead
import ForwardProxy.Server.Serve

/-!
# The proxy's own responses

`build_response` and `parse_response_headers` agree: what is built is read back with the status, the
length of the body, and the end of the head that it was built with, and it is complete as a whole
and no earlier (`buildResponse_framed`). The body may hold anything, also blank lines and what looks
like header lines.
-/

namespace ForwardProxy

/-- A number is a value without blanks. -/
theorem trim_decimal (n : ℕ) : trim (SP :: decimal n) = decimal n := by
  have hblank : ∀ c ∈ decimal n, isBlank c = false := by
    intro c hc
    have hdigit := isDigit_of_mem_decimal hc
    unfold isDigit at hdigit
    unfold isBlank SP TAB CR LF
    grind
  have hfirst : (SP :: decimal n).dropWhile isBlank = decimal n := by
    rw [List.dropWhile_cons_of_pos (by decide)]
    obtain ⟨c, cs, hcs⟩ := List.exists_cons_of_ne_nil (decimal_ne_nil n)
    rw [hcs, List.dropWhile_cons_of_neg]
    simp [hblank c (by simp [hcs])]
  unfold trim
  rw [hfirst, List.rdropWhile_eq_self_iff]
  intro hne
  simp [hblank _ (List.getLast_mem hne)]

/-- A space before one line leaves it one line. -/
theorem oneLine_sp {s : Bytes} (h : OneLine s) : OneLine (SP :: s) := by
  have hcr : CR ≠ SP := by decide
  have hlf : LF ≠ SP := by decide
  exact ⟨by simp [hcr, h.1], by simp [hlf, h.2]⟩

/-- A number in decimal is on one line. -/
theorem oneLine_decimal (n : ℕ) : OneLine (decimal n) :=
  ⟨fun h => absurd (isDigit_of_mem_decimal h) (by decide),
    fun h => absurd (isDigit_of_mem_decimal h) (by decide)⟩

/-- The value of `Connection`. -/
def connectionValue (keepAlive : Bool) : Bytes := str (if keepAlive then "keep-alive" else "close")

/-- The head of a response that is built. -/
def builtHead (status : ℕ) (hstatus : 100 ≤ status ∧ status ≤ 599) (reason : Bytes)
    (hreason : OneLine reason) (bodyLength : ℕ) (keepAlive : Bool) (contentType : Bytes)
    (htype : OneLine contentType) : ResponseHead where
  version := str "HTTP/1.1"
  status := status
  reason := some reason
  lines := [
    .field (str "Content-Type") (SP :: contentType) (by decide) (oneLine_sp htype),
    .field (str "Content-Length") (SP :: decimal bodyLength) name_contentLength
      (oneLine_sp (oneLine_decimal bodyLength)),
    .field (str "Connection") (SP :: connectionValue keepAlive) (by decide)
      (by cases keepAlive <;> decide)]
  version_ok := statusVersion_http11
  status_ok := hstatus
  reason_ok := by
    rintro r ⟨⟩
    exact hreason

variable {status : ℕ} (hstatus : 100 ≤ status ∧ status ≤ 599) {reason : Bytes}
  (hreason : OneLine reason) {contentType : Bytes} (htype : OneLine contentType)

/-- What is built is the head and the body. -/
theorem buildResponse_eq (body : Bytes) (keepAlive : Bool) :
    buildResponse status reason body keepAlive contentType =
      (builtHead status hstatus reason hreason body.length keepAlive contentType htype).text ++
        body := by
  have hversion : str "HTTP/1.1 " = str "HTTP/1.1" ++ [SP] := by decide
  have hsp : str " " = [SP] := by decide
  have hfirst : str "Content-Type: " = str "Content-Type" ++ [COLON, SP] := by decide
  have hsecond : str "Content-Length: " = str "Content-Length" ++ [COLON, SP] := by decide
  have hthird : str "Connection: " = str "Connection" ++ [COLON, SP] := by decide
  have hdecimal : decimalInt status = decimal status := by simp [decimalInt]
  simp [buildResponse, hversion, hsp, hfirst, hsecond, hthird, hdecimal, ResponseHead.text,
    ResponseHead.crlf, CrlfHead.text, builtHead, ResponseHead.line, HeaderLine.text,
    connectionValue]

/-- The two fields that settle the framing: there is one length, and no encoding. -/
theorem lineValues_builtHead (bodyLength : ℕ) (keepAlive : Bool) :
    let h := builtHead status hstatus reason hreason bodyLength keepAlive contentType htype
    lineValues (str "transfer-encoding") h.lines = [] ∧
      lineValues (str "content-length") h.lines = [decimal bodyLength] := by
  have hfirst : toLower (trim (str "Content-Type")) = str "content-type" := by decide
  have hsecond : toLower (trim (str "Content-Length")) = str "content-length" := by decide
  have hthird : toLower (trim (str "Connection")) = str "connection" := by decide
  refine ⟨?_, ?_⟩
  · simp only [lineValues, builtHead, List.filterMap_cons, HeaderLine.valueOf, hfirst, hsecond,
      hthird, if_neg (show str "content-type" ≠ str "transfer-encoding" by decide),
      if_neg (show str "content-length" ≠ str "transfer-encoding" by decide),
      if_neg (show str "connection" ≠ str "transfer-encoding" by decide), List.filterMap_nil]
  · simp only [lineValues, builtHead, List.filterMap_cons, HeaderLine.valueOf, hfirst, hsecond,
      hthird, if_neg (show str "content-type" ≠ str "content-length" by decide), if_true,
      if_neg (show str "connection" ≠ str "content-length" by decide), List.filterMap_nil,
      trim_decimal]

/-- The parse of what starts with the head that is built. -/
theorem parse_builtHead {bodyLength : ℕ} (hlength : bodyLength < 2^63) (keepAlive : Bool)
    (rest : Bytes) :
    let h := builtHead status hstatus reason hreason bodyLength keepAlive contentType htype
    parseResponseHeaders (h.text ++ rest) = {
      status := status
      headers := h.headers
      headerBytes := h.text.length
      contentLength := bodyLength
      valid := true } := by
  intro h
  obtain ⟨hencoding, hvalue⟩ :=
    lineValues_builtHead hstatus hreason htype bodyLength keepAlive
  have hchunked : ¬h.SaysChunked := by
    rintro ⟨te, hte, -⟩
    rw [hencoding] at hte
    cases hte
  have hlast :
      (lineValues (str "content-length") h.lines).getLast? = some (decimal bodyLength) := by
    rw [hvalue]
    rfl
  have hrange : (decimalValue (decimal bodyLength) : ℤ) ≤ LONG_MAX := by
    rw [decimalValue_decimal]
    unfold LONG_MAX
    omega
  have hread := strtol_digits (decimal_ne_nil bodyLength)
    (List.all_eq_true.mpr fun _ => isDigit_of_mem_decimal) hrange
  rw [decimalValue_decimal] at hread
  have hparse := h.parse_length hchunked hlast (by rw [hread]; rfl) (by rw [hread]; simp) rest
  rw [hparse, hread]
  rfl

/-- A response that is built is read back with the status and the framing that it was built with,
and is complete as a whole and on no initial part. -/
theorem buildResponse_framed {status : ℤ} (hstatus : 100 ≤ status ∧ status ≤ 599)
    {reason contentType : Bytes} (hreason : OneLine reason) (htype : OneLine contentType)
    (body : Bytes) (keepAlive : Bool)
    (hsize : (buildResponse status reason body keepAlive contentType).length < 2^63) :
    let data := buildResponse status reason body keepAlive contentType
    let r := parseResponseHeaders data
    r.valid = true ∧ r.status = status ∧ r.chunked = false ∧ r.closeDelimited = false ∧
      r.contentLength = body.length ∧ r.headerBytes = data.length - body.length ∧
      responseComplete data r = true ∧
      ∀ pre rest, data = pre ++ rest → rest ≠ [] → responseComplete pre r = false := by
  obtain ⟨n, rfl⟩ := Int.eq_ofNat_of_zero_le (show 0 ≤ status by omega)
  have hn : 100 ≤ n ∧ n ≤ 599 := by omega
  have heq := buildResponse_eq hn hreason htype body keepAlive
  have hlen := congrArg List.length heq
  rw [List.length_append] at hlen
  have hparse := parse_builtHead hn hreason htype (show body.length < 2^63 by omega) keepAlive body
  dsimp only at hparse
  rw [← heq] at hparse
  have hcomplete := responseComplete_length (r := parseResponseHeaders
    (buildResponse n reason body keepAlive contentType)) (by rw [hparse]) (by rw [hparse])
    (by rw [hparse]; simp) (by rw [hparse]; simp only [Int.toNat_natCast]; omega)
  rw [hparse] at hcomplete
  simp only [Int.toNat_natCast] at hcomplete
  dsimp only
  rw [hparse]
  refine ⟨rfl, rfl, rfl, rfl, rfl, by dsimp only; omega, (hcomplete _).mpr (by omega), ?_⟩
  intro pre rest hdata hne
  have hpos := List.length_pos_iff.mpr hne
  have hsplit := congrArg List.length hdata
  rw [List.length_append] at hsplit
  rw [← Bool.not_eq_true, hcomplete]
  omega

/-- A body with a blank line in it is read as a body. -/
theorem buildResponse_framed_bad_gateway :
    let data := buildResponse 502 (str "Bad Gateway") (str "a\r\n\r\nb") false
    responseComplete data (parseResponseHeaders data) = true :=
  (buildResponse_framed (by decide) (by decide) (by decide) (str "a\r\n\r\nb") false
    (by decide)).2.2.2.2.2.2.1

end ForwardProxy
