import ForwardProxy.Origin.Server
import ForwardProxy.Server.BuildResponse
import ForwardProxy.Server.Delivery

/-!
# The responses of the origin server

A response of the origin server says where it ends, so `fetch_upstream` returns it as it is or fails
(`fetchUpstream_response`). It tells its path: of paths free of spaces, those with the same response
are those that are cut to the same bytes (`response_eq_iff`).
-/

namespace ForwardProxy.Origin

variable (cfg : Settings)

/-! ## The body tells the path -/

/-- A body has the size that is set. -/
theorem length_body (path : Bytes) : (body cfg path).length = cfg.bodySize := by
  simp only [body, List.length_take, List.length_append, List.length_replicate]
  omega

/-- The room for a path in a body. -/
def room : ℕ := cfg.bodySize - (str "origin-response path=").length

/-- Past the fixed text, a body is the path with a space after it, cut to the room for it. -/
theorem body_split (path : Bytes) : ∃ filling, body cfg path =
    (str "origin-response path=").take cfg.bodySize ++
      (path ++ SP :: filling).take (room cfg) := by
  refine ⟨List.replicate (cfg.bodySize - (bodyText path).length) 120, ?_⟩
  have hsp : str " " = [SP] := by decide
  rw [body, bodyText, List.append_assoc, List.append_assoc, List.take_append, hsp]
  rfl

/-- What stands before the first space of a word that is cut off. -/
theorem takeWhile_cut {word : Bytes} (hword : SP ∉ word) (n : ℕ) (filling : Bytes) :
    ((word ++ SP :: filling).take n).takeWhile (· ≠ SP) = word.take n := by
  rcases Nat.lt_or_ge word.length n with hlt | hge
  · obtain ⟨m, hm⟩ : ∃ m, n - word.length = m + 1 := ⟨n - word.length - 1, by omega⟩
    rw [List.take_append, List.take_of_length_le (by omega), hm, List.take_succ_cons]
    exact takeWhile_ne_append hword _
  · rw [List.take_append_of_le_length hge, List.takeWhile_eq_self_iff]
    intro c hc
    exact decide_eq_true (ne_of_mem_of_not_mem (List.mem_of_mem_take hc) hword)

/-- Bodies for paths free of spaces are the same exactly where the paths are as far as there is room
for them. -/
theorem body_eq_iff {p p' : Bytes} (hp : SP ∉ p) (hp' : SP ∉ p') :
    body cfg p = body cfg p' ↔ p.take (room cfg) = p'.take (room cfg) := by
  obtain ⟨filling, hbody⟩ := body_split cfg p
  obtain ⟨filling', hbody'⟩ := body_split cfg p'
  constructor
  · intro heq
    rw [hbody, hbody', List.append_cancel_left_eq] at heq
    rw [← takeWhile_cut hp (room cfg) filling, heq, takeWhile_cut hp']
  · intro heq
    have hlen := congrArg List.length heq
    rw [List.length_take, List.length_take] at hlen
    rcases Nat.lt_or_ge p.length (room cfg) with hlt | hge
    · -- Neither path is cut.
      rw [List.take_of_length_le hlt.le, List.take_of_length_le (by omega)] at heq
      rw [heq]
    · rw [hbody, hbody', List.take_append_of_le_length hge,
        List.take_append_of_le_length (by omega), heq]

/-- Responses for paths free of spaces are the same exactly where they leave the connection in the
same state, and the paths are the same as far as a body has room for them. -/
theorem response_eq_iff {p p' : Bytes} (hp : SP ∉ p) (hp' : SP ∉ p') (keep keep' : Bool) :
    response cfg p keep = response cfg p' keep' ↔
      keep = keep' ∧ p.take (room cfg) = p'.take (room cfg) := by
  rw [← body_eq_iff cfg hp hp', response, response, length_body, length_body]
  simp only [List.append_assoc, List.append_cancel_left_eq]
  constructor
  · intro heq
    have hkeep : keep = keep' := by
      cases keep <;> cases keep' <;> first | rfl | simp [str] at heq
    subst hkeep
    exact ⟨rfl, by simpa only [List.append_cancel_left_eq] using heq⟩
  · rintro ⟨rfl, heq⟩
    rw [heq]

/-- In the body that the server has by default, two long paths are told apart. -/
theorem response_eq_iff_default : response {} (str "/a") true ≠ response {} (str "/b") true :=
  fun heq => absurd ((response_eq_iff {} (by decide) (by decide) true true).mp heq).2
    (by decide)

/-! ## The response is fetched as a whole -/

/-- `Content-Type` is the name of a header line. -/
theorem name_contentType : COLON ∉ str "Content-Type" ∧ OneLine (str "Content-Type") ∧
    trim (str "Content-Type") ≠ [] := by decide

/-- `Cache-Control` is the name of a header line. -/
theorem name_cacheControl : COLON ∉ str "Cache-Control" ∧ OneLine (str "Cache-Control") ∧
    trim (str "Cache-Control") ≠ [] := by decide

/-- `Connection` is the name of a header line. -/
theorem name_connection : COLON ∉ str "Connection" ∧ OneLine (str "Connection") ∧
    trim (str "Connection") ≠ [] := by decide

/-- The type is on one line. -/
theorem value_contentType : OneLine (SP :: str "text/plain") := by decide

/-- The length is on one line. -/
theorem value_contentLength : OneLine (SP :: decimal cfg.bodySize) :=
  oneLine_sp (oneLine_decimal cfg.bodySize)

/-- The age is on one line. -/
theorem value_cacheControl : OneLine (SP :: str "max-age=60") := by decide

/-- What becomes of the connection is on one line. -/
theorem value_connection (keep : Bool) : OneLine (SP :: connectionValue keep) := by
  cases keep <;> decide

/-- A success is a status of three digits. -/
theorem status_range : 100 ≤ 200 ∧ 200 ≤ 599 := by decide

/-- The reason is on one line. -/
theorem reason_oneLine : ∀ r ∈ some (str "OK"), OneLine r := by
  rintro r ⟨⟩
  decide

/-- The head of a response. -/
def responseHead (keep : Bool) : ResponseHead where
  version := str "HTTP/1.1"
  status := 200
  reason := some (str "OK")
  lines := [
    .field (str "Content-Type") (SP :: str "text/plain") name_contentType value_contentType,
    .field (str "Content-Length") (SP :: decimal cfg.bodySize) name_contentLength
      (value_contentLength cfg),
    .field (str "Cache-Control") (SP :: str "max-age=60") name_cacheControl value_cacheControl,
    .field (str "Connection") (SP :: connectionValue keep) name_connection
      (value_connection keep)]
  version_ok := statusVersion_http11
  status_ok := status_range
  reason_ok := reason_oneLine

/-- A response is its head and its body. -/
theorem response_eq (path : Bytes) (keep : Bool) :
    response cfg path keep = (responseHead cfg keep).text ++ body cfg path := by
  have hstatus : str "HTTP/1.1 200 OK\r\n" =
      str "HTTP/1.1" ++ SP :: (decimal 200 ++ SP :: (str "OK" ++ [CR, LF])) := by decide
  have htype : str "Content-Type: text/plain\r\n" =
      str "Content-Type" ++ COLON :: SP :: (str "text/plain" ++ [CR, LF]) := by decide
  have hlength : str "Content-Length: " = str "Content-Length" ++ [COLON, SP] := by decide
  have hcontrol : str "Cache-Control: max-age=60\r\n" =
      str "Cache-Control" ++ COLON :: SP :: (str "max-age=60" ++ [CR, LF]) := by decide
  have hconnection : str "Connection: " = str "Connection" ++ [COLON, SP] := by decide
  have hcrlf : str "\r\n" = [CR, LF] := by decide
  simp [response, hstatus, htype, hlength, hcontrol, hconnection, hcrlf, length_body,
    ResponseHead.text, ResponseHead.crlf, CrlfHead.text, responseHead, ResponseHead.line,
    HeaderLine.text, connectionValue]

/-- The head declares one length, and no encoding. -/
theorem lineValues_responseHead (keep : Bool) :
    lineValues (str "transfer-encoding") (responseHead cfg keep).lines = [] ∧
      lineValues (str "content-length") (responseHead cfg keep).lines =
        [decimal cfg.bodySize] := by
  have htype : toLower (trim (str "Content-Type")) = str "content-type" := by decide
  have hlength : toLower (trim (str "Content-Length")) = str "content-length" := by decide
  have hcontrol : toLower (trim (str "Cache-Control")) = str "cache-control" := by decide
  have hconnection : toLower (trim (str "Connection")) = str "connection" := by decide
  refine ⟨?_, ?_⟩
  · simp only [lineValues, responseHead, List.filterMap_cons, HeaderLine.valueOf, htype, hlength,
      hcontrol, hconnection, if_neg (show str "content-type" ≠ str "transfer-encoding" by decide),
      if_neg (show str "content-length" ≠ str "transfer-encoding" by decide),
      if_neg (show str "cache-control" ≠ str "transfer-encoding" by decide),
      if_neg (show str "connection" ≠ str "transfer-encoding" by decide), List.filterMap_nil]
  · simp only [lineValues, responseHead, List.filterMap_cons, HeaderLine.valueOf, htype, hlength,
      hcontrol, hconnection, if_neg (show str "content-type" ≠ str "content-length" by decide),
      if_true, if_neg (show str "cache-control" ≠ str "content-length" by decide),
      if_neg (show str "connection" ≠ str "content-length" by decide), List.filterMap_nil,
      trim_decimal]

/-- The number of bytes of a head, which has at most 19 digits in it. -/
theorem length_responseHead (hsize : cfg.bodySize < 2^63) (keep : Bool) :
    (responseHead cfg keep).text.length ≤ 200 := by
  have hdigits : (decimal cfg.bodySize).length ≤ 19 := by
    rw [decimal, List.length_map]
    exact (Nat.length_toDigits_le_iff (by decide) (by decide)).mpr (by omega)
  have heq := congrArg List.length (response_eq cfg [] keep)
  have hvalue : (str (if keep then "keep-alive" else "close")).length ≤ 10 := by
    cases keep <;> decide
  have hfixed : (str "HTTP/1.1 200 OK\r\n").length + (str "Content-Type: text/plain\r\n").length +
      (str "Content-Length: ").length + (str "Cache-Control: max-age=60\r\n").length +
      (str "Connection: ").length + 3 * (str "\r\n").length ≤ 120 := by decide
  simp only [response, List.length_append, length_body] at heq
  omega

/-- What is made of the head. -/
theorem parsed_responseHead (hsize : cfg.bodySize < 2^63) (keep : Bool) :
    (responseHead cfg keep).parsed = {
      status := 200
      headers := (responseHead cfg keep).headers
      headerBytes := (responseHead cfg keep).text.length
      contentLength := cfg.bodySize
      valid := true } := by
  obtain ⟨hencoding, hvalue⟩ := lineValues_responseHead cfg keep
  have hchunked : ¬(responseHead cfg keep).SaysChunked := by
    rintro ⟨te, hte, -⟩
    rw [hencoding] at hte
    cases hte
  have hlast : (lineValues (str "content-length") (responseHead cfg keep).lines).getLast? =
      some (decimal cfg.bodySize) := by
    rw [hvalue]
    rfl
  have hrange : (decimalValue (decimal cfg.bodySize) : ℤ) ≤ LONG_MAX := by
    rw [decimalValue_decimal]
    unfold LONG_MAX
    omega
  have hread := strtol_digits (decimal_ne_nil cfg.bodySize)
    (List.all_eq_true.mpr fun _ => isDigit_of_mem_decimal) hrange
  rw [decimalValue_decimal] at hread
  have hparse := (responseHead cfg keep).parse_length hchunked hlast (by rw [hread]; rfl)
    (by rw [hread]; simp) []
  rw [ResponseHead.parse_append, hread] at hparse
  exact hparse

/-- The receive loop of `fetch_upstream` stops at the end of the response, and not before it. -/
theorem stopsAt_response (hsize : cfg.bodySize < 2^63) (path : Bytes) (keep : Bool)
    {buf more : Bytes} (heq : (responseHead cfg keep).text ++ body cfg path = buf ++ more) :
    (responseHead cfg keep).StopsAt buf ↔ more = [] := by
  have hparse := parsed_responseHead cfg hsize keep
  have hhead := length_responseHead cfg hsize keep
  have hcomplete := responseComplete_length (r := (responseHead cfg keep).parsed)
    (by rw [hparse]) (by rw [hparse]) (by rw [hparse]; simp)
    (by rw [hparse]; simp only [Int.toNat_natCast]; omega) buf
  have hlen := congrArg List.length heq
  rw [List.length_append, List.length_append, length_body] at hlen
  unfold ResponseHead.StopsAt
  rw [show (responseHead cfg keep).parsed.closeDelimited = false by rw [hparse], Bool.not_false,
    Bool.true_and, hcomplete, hparse, ← List.length_eq_zero_iff]
  simp only [Int.toNat_natCast]
  omega

/-- A response that the network delivers is fetched as it is, or the fetch fails. -/
theorem fetchUpstream_response (hsize : cfg.bodySize < 2^63) (path : Bytes) (keep : Bool)
    {recvs : List Recv} (hd : Delivers (response cfg path keep) recvs) :
    fetchUpstream .sent recvs = { raw := response cfg path keep, status := 200, ok := true } ∨
      ∃ e, fetchUpstream .sent recvs = { error := e } := by
  have hfits : (responseHead cfg keep).text.length ≤ maxHeaderBytes :=
    (length_responseHead cfg hsize keep).trans (by decide)
  rw [response_eq] at hd ⊢
  obtain ⟨hwhole, hpart⟩ := fetchUpstream_whole hfits
    (fun _ _ => stopsAt_response cfg hsize path keep) hd
  by_cases hall : ((responseHead cfg keep).text ++ body cfg path).length ≤ maxBodyBytes ∧
      arrived recvs = (responseHead cfg keep).text ++ body cfg path
  · exact Or.inl (hwhole hall)
  · exact Or.inr (hpart hall)

end ForwardProxy.Origin
