import ForwardProxy.Http.ChunkBody
import ForwardProxy.Http.ResponseHead
import ForwardProxy.Server.Upstream

/-!
# Reading a response up to its end

The receive loop of `fetch_upstream` parses the head when the end of it is in the buffer, and asks
from then on whether the response is complete. Whatever the segments, all that counts is whether it
is complete with the last of them (`fetchLoop_segments`). A response that says where it ends is, and
is returned without a look at what comes after it (`fetchUpstream_encode`). A response that
has no body, whatever its head says, is only where the head says that nothing follows
(`fetchUpstream_bodiless_iff`).
-/

namespace ForwardProxy

/-! ## The receive loop -/

namespace ResponseHead

/-- What is made of the head. -/
def parsed (h : ResponseHead) : Response := parseResponseHeaders h.text

/-- It is made of every buffer that starts with the head. -/
theorem parse_append (h : ResponseHead) (rest : Bytes) :
    parseResponseHeaders (h.text ++ rest) = h.parsed := by
  have hnil := h.parseResponse_text []
  rw [List.append_nil] at hnil
  rw [h.parseResponse_text, parsed, hnil]

/-- The head is valid. -/
theorem valid_parsed (h : ResponseHead) : h.parsed.valid = true := by
  rw [← h.parse_append [], h.parseResponse_text]

/-- The status is that of the head. -/
theorem status_parsed (h : ResponseHead) : h.parsed.status = h.status := by
  obtain ⟨chunked, cl, heq, -⟩ := takeFraming_cases
    { status := h.status, headers := h.headers } rfl
  rw [← h.parse_append [], h.parseResponse_text, heq]

/-- The head has bytes. -/
theorem text_ne_nil (h : ResponseHead) : h.text ≠ [] := by
  obtain ⟨s, hs⟩ := h.crlf.exists_text
  rw [text, hs]
  simp

/-- The loop stops at a buffer that starts with the head. -/
def StopsAt (h : ResponseHead) (buf : Bytes) : Prop :=
  (!h.parsed.closeDelimited && responseComplete buf h.parsed) = true

instance (h : ResponseHead) (buf : Bytes) : Decidable (h.StopsAt buf) :=
  inferInstanceAs (Decidable (_ = true))

end ResponseHead

variable {h : ResponseHead}

/-- How far the loop has come: the head is parsed where all of it is in the buffer. -/
def Reading (h : ResponseHead) (s : FetchState) : Prop :=
  s.parsed = if s.buf.length < h.text.length then none else some h.parsed

/-- With its head parsed, the loop stops where the body is there, and goes on otherwise. -/
theorem checkBody_parsed {buf : Bytes} (hsize : buf.length ≤ maxBodyBytes) :
    checkBody buf h.parsed =
      if h.StopsAt buf then .stop ⟨buf, some h.parsed⟩ else .more ⟨buf, some h.parsed⟩ := by
  rw [checkBody, if_neg (by omega)]
  rfl

/-- A turn in which data came, on the way through a response. -/
theorem fetchData_reading (hfits : h.text.length ≤ maxHeaderBytes) {s : FetchState}
    (hs : Reading h s) {data body more : Bytes}
    (hwhole : h.text ++ body = s.buf ++ data ++ more) :
    fetchData s data =
      if (s.buf ++ data).length < h.text.length then .more ⟨s.buf ++ data, none⟩
      else checkBody (s.buf ++ data) h.parsed := by
  unfold Reading at hs
  unfold fetchData
  by_cases hbefore : s.buf.length < h.text.length
  · rw [hs, if_pos hbefore]
    dsimp only
    by_cases hshort : (s.buf ++ data).length < h.text.length
    · have hnone := h.crlf.findHeaderEnd_prefix hwhole hshort
      rw [hnone, if_pos hshort]
      simp only [Option.isSome_none, Bool.false_eq_true, if_false]
      rw [if_neg (by omega)]
    · -- The head is there as a whole, and perhaps a part of the body.
      obtain ⟨rest, hrest⟩ : h.text <+: s.buf ++ data :=
        List.prefix_of_prefix_length_le (List.prefix_append _ body)
          (hwhole ▸ List.prefix_append _ more) (by omega)
      have hend := h.crlf.findHeaderEnd_text rest
      have hparse := h.parse_append rest
      have htext : h.crlf.text = h.text := rfl
      rw [htext, hrest] at hend
      rw [hrest] at hparse
      rw [hend, hparse, if_neg hshort]
      simp [h.valid_parsed]
  · have hlong : ¬(s.buf ++ data).length < h.text.length := by
      rw [List.length_append]
      omega
    rw [hs, if_neg hbefore, if_neg hlong]

/-- Whatever the segments, the loop stops with the last one, or goes on after it. -/
theorem fetchLoop_segments (hfits : h.text.length ≤ maxHeaderBytes) {body : Bytes}
    (hsize : (h.text ++ body).length ≤ maxBodyBytes)
    (hearly : ∀ buf more, h.text ++ body = buf ++ more → more ≠ [] →
      h.text.length ≤ buf.length → ¬h.StopsAt buf)
    {segs : List Recv} (hne : segs ≠ []) (hsegs : ∀ r ∈ segs, r.bytes ≠ []) (after : List Recv)
    {s : FetchState} (hs : Reading h s)
    (hcut : s.buf ++ segs.flatMap Recv.bytes = h.text ++ body) :
    fetchLoop s (segs ++ after) =
      if h.StopsAt (h.text ++ body) then .ok ⟨h.text ++ body, some h.parsed⟩
      else fetchLoop ⟨h.text ++ body, some h.parsed⟩ after := by
  induction segs generalizing s with
  | nil => exact absurd rfl hne
  | cons r segs ih =>
    obtain ⟨hr, htail⟩ := List.forall_mem_cons.mp hsegs
    obtain ⟨b, bs, rfl⟩ : ∃ b bs, r = .data b bs := by
      cases r with
      | data b bs => exact ⟨b, bs, rfl⟩
      | _ => exact absurd rfl hr
    rw [List.flatMap_cons, ← List.append_assoc] at hcut
    change s.buf ++ (b :: bs) ++ segs.flatMap Recv.bytes = h.text ++ body at hcut
    have hturn := fetchData_reading hfits hs hcut.symm
    rw [List.cons_append, fetchLoop, fetchTurn, hturn]
    by_cases hlast : segs = []
    · -- The last segment.
      subst hlast
      rw [List.flatMap_nil, List.append_nil] at hcut
      have hlong : ¬(h.text ++ body).length < h.text.length := by
        rw [List.length_append]
        omega
      rw [hcut, if_neg hlong, checkBody_parsed hsize]
      by_cases hstop : h.StopsAt (h.text ++ body)
      · rw [if_pos hstop, if_pos hstop]
      · rw [if_neg hstop, if_neg hstop]
        rfl
    -- The message is not yet there as a whole, so the loop goes on, before the head is there and
    -- after.
    · have hmore : segs.flatMap Recv.bytes ≠ [] := by
        obtain ⟨r', segs', rfl⟩ := List.exists_cons_of_ne_nil hlast
        rw [List.flatMap_cons]
        exact fun hnil => htail r' (by simp) (List.append_eq_nil_iff.mp hnil).1
      by_cases hshort : (s.buf ++ b :: bs).length < h.text.length
      · rw [if_pos hshort]
        exact ih hlast htail (if_pos hshort).symm hcut
      · have hbuf := congrArg List.length hcut
        rw [List.length_append] at hbuf
        have hgo : ¬h.StopsAt (s.buf ++ b :: bs) := hearly _ _ hcut.symm hmore (by omega)
        rw [if_neg hshort, checkBody_parsed (by omega), if_neg hgo]
        exact ih hlast htail (if_neg hshort).symm hcut

/-- Nothing is received of the head yet. -/
theorem reading_empty (h : ResponseHead) : Reading h {} :=
  (if_pos (List.length_pos_iff.mpr h.text_ne_nil)).symm

/-- What the loop leaves after a response that comes in segments, and what comes after it. -/
theorem fetchLoop_cut (hfits : h.text.length ≤ maxHeaderBytes) {body : Bytes}
    (hsize : (h.text ++ body).length ≤ maxBodyBytes)
    (hearly : ∀ buf more, h.text ++ body = buf ++ more → more ≠ [] →
      h.text.length ≤ buf.length → ¬h.StopsAt buf)
    {segs : List Recv} (hsegs : ∀ r ∈ segs, r.bytes ≠ [])
    (hcut : segs.flatMap Recv.bytes = h.text ++ body) (after : List Recv) :
    fetchLoop {} (segs ++ after) =
      if h.StopsAt (h.text ++ body) then .ok ⟨h.text ++ body, some h.parsed⟩
      else fetchLoop ⟨h.text ++ body, some h.parsed⟩ after := by
  have hne : segs ≠ [] := by
    rintro rfl
    exact h.text_ne_nil (List.append_eq_nil_iff.mp hcut.symm).1
  exact fetchLoop_segments hfits hsize hearly hne hsegs after (reading_empty h) hcut

/-- What is returned for the message is its bytes, with its status. -/
theorem fetchDone_parsed (body : Bytes) : fetchDone ⟨h.text ++ body, some h.parsed⟩ =
    { raw := h.text ++ body, status := h.status, ok := true } := by
  have hne : h.text ++ body ≠ [] := fun hnil => h.text_ne_nil (List.append_eq_nil_iff.mp hnil).1
  rw [fetchDone, if_neg hne]
  dsimp only
  rw [h.status_parsed]

/-! ## Responses that say where they end -/

/-- A message whose head says where it ends, by one of the two framing headers and without the
other. -/
structure SelfDelimited where
  head : ResponseHead
  body : Bytes
  framed :
    lineValues (str "transfer-encoding") head.lines = [] ∧
        (∃ v, lineValues (str "content-length") head.lines = [v] ∧ v ≠ [] ∧
          v.all isDigit = true ∧ decimalValue v = body.length) ∨
      lineValues (str "content-length") head.lines = [] ∧
        (∃ te, lineValues (str "transfer-encoding") head.lines = [te] ∧
          contains (toLower te) (str "chunked") = true) ∧
        ∃ b : ChunkedBody, body = b.encode
  head_fits : head.text.length ≤ maxHeaderBytes
  fits : (head.text ++ body).length ≤ maxBodyBytes

/-- The data of a chunk are no longer than the body. -/
theorem ChunkedBody.length_data_le (b : ChunkedBody) {c : Chunk} (hc : c ∈ b.chunks) :
    c.data.length ≤ b.encode.length := by
  have hsub : c.data.Sublist b.encode := by
    calc c.data.Sublist c.encode := by
          rw [Chunk.encode, List.append_assoc]
          exact (List.sublist_append_left _ _).trans (List.sublist_append_right _ _)
      List.Sublist _ (b.chunks.flatMap Chunk.encode) := by
          rw [List.flatMap_def]
          exact List.sublist_flatten_of_mem (List.mem_map_of_mem hc)
      List.Sublist _ b.encode := List.sublist_append_left _ _
  exact hsub.length_le

namespace SelfDelimited

/-- The message as it is sent. -/
def encode (m : SelfDelimited) : Bytes := m.head.text ++ m.body

/-- The loop stops at the end of the message, and not before it. -/
theorem stopsAt_iff (m : SelfDelimited) (n : ℕ) :
    m.head.StopsAt (m.encode.take n) ↔ m.encode.length ≤ n := by
  have hfits := m.fits
  unfold maxBodyBytes at hfits
  unfold ResponseHead.StopsAt encode
  rcases m.framed with ⟨hte, v, hcl, hne, hdigits, hvalue⟩ | ⟨-, ⟨te, hte, hnames⟩, b, hbody⟩
  -- The message has a length, which is that of its body.
  · have hrange : (decimalValue v : ℤ) ≤ LONG_MAX := by
      rw [hvalue]
      unfold LONG_MAX
      rw [List.length_append] at hfits
      omega
    have hread := strtol_digits hne hdigits hrange
    have hchunked : ¬m.head.SaysChunked := by
      rintro ⟨te, hlast, -⟩
      rw [hte] at hlast
      cases hlast
    have hlast : (lineValues (str "content-length") m.head.lines).getLast? = some v := by
      rw [hcl]
      rfl
    have hparse := ResponseHead.parse_length hchunked hlast (by rw [hread]; rfl)
      (by rw [hread]; simp) []
    rw [m.head.parse_append, hread, hvalue] at hparse
    have hcomplete := responseComplete_length (r := m.head.parsed) (by rw [hparse])
      (by rw [hparse]) (by rw [hparse]; simp) (by
        rw [hparse]
        simp only [Int.toNat_natCast]
        rw [List.length_append] at hfits
        omega)
    have hclosed : m.head.parsed.closeDelimited = false := by rw [hparse]
    rw [hclosed, Bool.not_false, Bool.true_and, hcomplete, hparse]
    simp only [Int.toNat_natCast, List.length_take, List.length_append]
    omega
  -- The message is chunked, and its body is complete with its last byte.
  · have hparse := ResponseHead.parse_chunked (h := m.head) ⟨te, by rw [hte]; rfl, hnames⟩ []
    rw [m.head.parse_append] at hparse
    have hsmall : ∀ c ∈ b.chunks, c.data.length ≤ 2^40 := by
      intro c hc
      have := b.length_data_le hc
      rw [List.length_append, hbody] at hfits
      omega
    have hcomplete := @ChunkedBody.complete_take_iff b hsmall m.head.text [] m.head.parsed
      (by rw [hparse]) (by rw [hparse]) (by rw [hparse])
      (by rw [List.append_nil, ← hbody]; omega) n
    rw [List.append_nil, ← hbody] at hcomplete
    have hclosed : m.head.parsed.closeDelimited = false := by rw [hparse]
    rw [hclosed, Bool.not_false, Bool.true_and, hcomplete]

/-- However the message is cut into segments, it is returned as it is, with its status, whatever
comes after it. -/
theorem fetchUpstream_encode (m : SelfDelimited) {segs : List Recv}
    (hsegs : ∀ r ∈ segs, r.bytes ≠ []) (hcut : segs.flatMap Recv.bytes = m.encode)
    (after : List Recv) : fetchUpstream .sent (segs ++ after) =
      { raw := m.encode, status := m.head.status, ok := true } := by
  have hfull : m.head.StopsAt m.encode := by
    have hwhole := (m.stopsAt_iff m.encode.length).mpr (le_refl _)
    rwa [List.take_length] at hwhole
  have hearly : ∀ buf more, m.head.text ++ m.body = buf ++ more → more ≠ [] →
      m.head.text.length ≤ buf.length → ¬m.head.StopsAt buf := by
    intro buf more heq hmore _ hstop
    have hlen := congrArg List.length heq
    have hpos := List.length_pos_iff.mpr hmore
    have htake : m.encode.take buf.length = buf := by
      rw [encode, heq, List.take_left]
    rw [← htake, m.stopsAt_iff, encode, hlen, List.length_append] at hstop
    omega
  have hloop := fetchLoop_cut m.head_fits m.fits hearly hsegs hcut after
  rw [fetchUpstream, hloop, ← encode, if_pos hfull]
  exact fetchDone_parsed m.body

end SelfDelimited

/-- A message with a length, which ends inside a segment of its own. -/
def lengthMessage : SelfDelimited where
  head := {
    version := str "HTTP/1.1"
    status := 200
    reason := some (str "OK")
    lines := [.field (str "Content-Length") (str " 3") name_contentLength (by decide)]
    version_ok := statusVersion_http11
    status_ok := by decide
    reason_ok := by
      rintro r ⟨⟩
      decide }
  body := str "abc"
  framed := Or.inl ⟨by decide, str "3", by decide, by decide, by decide, by decide⟩
  head_fits := by decide
  fits := by decide

/-- A message is fetched to its end, wherever its bytes are cut. -/
theorem fetchUpstream_lengthMessage :
    (fetchUpstream .sent ([.data 72 (str "TTP/1.1 200 OK\r\nContent-Length: 3\r"),
      .data 10 (str "\r\na"), .data 98 (str "c")] ++ [.again])).raw = lengthMessage.encode := by
  rw [lengthMessage.fetchUpstream_encode (by decide) (by decide) [.again]]

/-! ## Responses without a body -/

/-- The response has no body, whatever its head says. -/
def Bodiless (method : Bytes) (status : ℕ) : Prop :=
  method = str "HEAD" ∨ status = 204 ∨ status = 304

/-- Every cut of the head into segments, with nothing after them, is a response that consists of the
head. -/
def CompletesAtHead (h : ResponseHead) : Prop :=
  ∀ segs : List Recv, (∀ r ∈ segs, r.bytes ≠ []) → segs.flatMap Recv.bytes = h.text →
    fetchUpstream .sent (segs ++ [.again]) = { raw := h.text, status := h.status, ok := true }

/-- The head says that nothing follows it: it does not name chunked, and its last `Content-Length`
is read as zero. -/
def SaysEmpty (h : ResponseHead) : Prop :=
  ¬h.SaysChunked ∧ ∃ v, (lineValues (str "content-length") h.lines).getLast? = some v ∧
    (strtol v).atEnd = true ∧ (strtol v).value = 0

/-- The loop stops at the end of the head exactly where the head says that nothing follows. -/
theorem stopsAt_text_iff (hfits : h.text.length ≤ maxHeaderBytes) :
    h.StopsAt h.text ↔ SaysEmpty h := by
  unfold maxHeaderBytes at hfits
  unfold ResponseHead.StopsAt SaysEmpty
  by_cases hchunked : h.SaysChunked
  · -- A chunked body does not end where it starts.
    have hparse := ResponseHead.parse_chunked hchunked []
    rw [h.parse_append] at hparse
    have hincomplete : ¬chunkedBodyComplete h.text h.text.length = true := by
      rw [chunkedBodyComplete_iff (by omega)]
      rintro ⟨fin, hfin⟩
      have := hfin.bounds
      omega
    rw [hparse]
    simp [responseComplete, hincomplete, hchunked]
  · by_cases hcl : ∃ v, (lineValues (str "content-length") h.lines).getLast? = some v ∧
        (strtol v).atEnd = true ∧ 0 ≤ (strtol v).value
    -- With a length the loop stops at the head exactly where the length is zero.
    · obtain ⟨v, hv, hend, hvalue⟩ := hcl
      have hle := strtol_le v
      unfold LONG_MAX at hle
      have hparse := ResponseHead.parse_length hchunked hv hend hvalue []
      rw [h.parse_append] at hparse
      have hcomplete := responseComplete_length (r := h.parsed) (by rw [hparse]) (by rw [hparse])
        (by rw [hparse]; exact hvalue) (by rw [hparse]; dsimp only; omega) h.text
      have hclosed : h.parsed.closeDelimited = false := by rw [hparse]
      rw [hclosed, Bool.not_false, Bool.true_and, hcomplete, hparse]
      constructor
      · intro hlen
        exact ⟨hchunked, v, hv, hend, by dsimp only at hlen; omega⟩
      · rintro ⟨-, v', hv', -, hzero⟩
        rw [hv] at hv'
        cases hv'
        dsimp only
        omega
    -- Otherwise the body is closed by an EOF.
    · have hparse := ResponseHead.parse_close hchunked
        (fun v hv hread => hcl ⟨v, hv, hread⟩) []
      rw [h.parse_append] at hparse
      have hclosed : h.parsed.closeDelimited = true := by rw [hparse]
      rw [hclosed]
      simp only [Bool.not_true, Bool.false_and, Bool.false_eq_true, false_iff]
      rintro ⟨-, v, hv, hend, hzero⟩
      exact hcl ⟨v, hv, hend, by omega⟩

/-- The loop over a head that is cut into segments, with nothing of a body. -/
theorem fetchLoop_text (hfits : h.text.length ≤ maxHeaderBytes) {segs : List Recv}
    (hsegs : ∀ r ∈ segs, r.bytes ≠ []) (hcut : segs.flatMap Recv.bytes = h.text)
    (after : List Recv) : fetchLoop {} (segs ++ after) =
      if h.StopsAt h.text then .ok ⟨h.text, some h.parsed⟩
      else fetchLoop ⟨h.text, some h.parsed⟩ after := by
  have hbody : maxHeaderBytes ≤ maxBodyBytes := by decide
  have hearly : ∀ buf more, h.text ++ [] = buf ++ more → more ≠ [] →
      h.text.length ≤ buf.length → ¬h.StopsAt buf := by
    intro buf more heq hmore hlong
    have hlen := congrArg List.length heq
    have hpos := List.length_pos_iff.mpr hmore
    rw [List.append_nil, List.length_append] at hlen
    omega
  have hsize : (h.text ++ []).length ≤ maxBodyBytes := by
    rw [List.append_nil]
    omega
  have hloop := fetchLoop_cut hfits hsize hearly hsegs (by rw [List.append_nil, hcut]) after
  rwa [List.append_nil] at hloop

/-- A response that ends with its head is returned exactly where the head says so. -/
theorem completesAtHead_iff (hfits : h.text.length ≤ maxHeaderBytes) :
    CompletesAtHead h ↔ SaysEmpty h := by
  rw [← stopsAt_text_iff hfits]
  constructor
  · intro hcompletes
    by_contra hgo
    -- The whole head in one segment.
    obtain ⟨b, bs, htext⟩ := List.exists_cons_of_ne_nil h.text_ne_nil
    have hsegs : ∀ r ∈ [Recv.data b bs], r.bytes ≠ [] := by simp [Recv.bytes]
    have hcut : [Recv.data b bs].flatMap Recv.bytes = h.text := by simp [Recv.bytes, htext]
    have hfetch := hcompletes _ hsegs hcut
    rw [fetchUpstream, fetchLoop_text hfits hsegs hcut, if_neg hgo] at hfetch
    have hok := congrArg UpstreamResult.ok hfetch
    simp [fetchLoop, fetchTurn] at hok
  · intro hstop segs hsegs hcut
    have hdone := fetchDone_parsed (h := h) []
    rw [List.append_nil] at hdone
    rw [fetchUpstream, fetchLoop_text hfits hsegs hcut, if_pos hstop]
    exact hdone

/-- Whatever has no body is returned with its head, however the head is cut, exactly where the head
says that nothing follows it. -/
theorem fetchUpstream_bodiless_iff (method : Bytes) (h : ResponseHead)
    (hfits : h.text.length ≤ maxHeaderBytes) :
    (Bodiless method h.status → CompletesAtHead h) ↔ (Bodiless method h.status → SaysEmpty h) := by
  rw [completesAtHead_iff hfits]

/-- The head of a response to a `HEAD` request. -/
def lengthHead : ResponseHead := lengthMessage.head

/-- A response to `HEAD` that declares a length completes at its head only if the length is zero. -/
theorem fetchUpstream_bodiless_length :
    (Bodiless (str "HEAD") lengthHead.status → CompletesAtHead lengthHead) ↔
      (Bodiless (str "HEAD") lengthHead.status → SaysEmpty lengthHead) :=
  fetchUpstream_bodiless_iff (str "HEAD") lengthHead (by decide)

/-- A response to `HEAD` with the length of the body that a `GET` would have is waited for until the
timeout. -/
theorem head_timeout :
    Bodiless (str "HEAD") lengthHead.status ∧ lengthHead.text.length ≤ maxHeaderBytes ∧
      [Recv.data 72 (lengthHead.text.drop 1)].flatMap Recv.bytes = lengthHead.text ∧
      fetchUpstream .sent [.data 72 (lengthHead.text.drop 1), .again] =
        { error := str "upstream timeout" } ∧
      ¬CompletesAtHead lengthHead := by
  have hfetch : fetchUpstream .sent [.data 72 (lengthHead.text.drop 1), .again] =
      { error := str "upstream timeout" } := by decide +kernel
  have hcut : [Recv.data 72 (lengthHead.text.drop 1)].flatMap Recv.bytes = lengthHead.text := by
    decide +kernel
  refine ⟨Or.inl rfl, by decide, hcut, hfetch, fun hcompletes => ?_⟩
  have hdone := hcompletes [.data 72 (lengthHead.text.drop 1)] (by simp [Recv.bytes]) hcut
  rw [List.cons_append, List.nil_append, hfetch] at hdone
  cases hdone

end ForwardProxy
