import ForwardProxy.Http.HeaderLine

/-!
# Well-formed requests

A `Message` is a request as a client writes it, with lines that end in carriage return and line
feed. `find_header_end` finds the end of its head, whatever comes after (`findHeaderEnd_message`)
and not before it is there (`findHeaderEnd_prefix`), and `parse_request` reads its fields back
(`parseRequest_message`).
-/

namespace ForwardProxy

/-- The values of the fields of one name. -/
def valuesOf (name : Bytes) (fields : List (Bytes × Bytes)) : List Bytes :=
  (fields.filter fun f => f.1 = name).map Prod.snd

/-- A request line, header lines, and a body, whose length is that of the single `Content-Length`,
or which is empty. The target or a header line names a host. -/
structure Message where
  method : Bytes
  target : Bytes
  version : Bytes
  lines : List Bytes
  body : Bytes
  method_ok : method ≠ [] ∧ SP ∉ method ∧ OneLine method
  target_ok : target ≠ [] ∧ SP ∉ target ∧ OneLine target
  version_ok : version.take 5 = str "HTTP/" ∧ trim version = version ∧ OneLine version
  lines_ok : ∀ l ∈ lines, l ≠ [] ∧ OneLine l
  host_ok : (normaliseTarget { target := target }).host ≠ [] ∨
    ∃ v ∈ valuesOf (str "host") (lines.filterMap headerField), v ≠ []
  body_ok : valuesOf (str "content-length") (lines.filterMap headerField) = [] ∧ body = [] ∨
    ∃ v, valuesOf (str "content-length") (lines.filterMap headerField) = [v] ∧ v ≠ [] ∧
      v.all isDigit = true ∧ decimalValue v = body.length

/-- `GET` is a method. -/
theorem method_get : str "GET" ≠ [] ∧ SP ∉ str "GET" ∧ OneLine (str "GET") := by decide +kernel

/-- `/a` is a target. -/
theorem target_a : str "/a" ≠ [] ∧ SP ∉ str "/a" ∧ OneLine (str "/a") := by decide +kernel

/-- `HTTP/1.1` is a version. -/
theorem version_http11 : (str "HTTP/1.1").take 5 = str "HTTP/" ∧
    trim (str "HTTP/1.1") = str "HTTP/1.1" ∧ OneLine (str "HTTP/1.1") := by decide +kernel

namespace Message

/-- The request line. -/
def line (m : Message) : Bytes := m.method ++ SP :: m.target ++ SP :: m.version

/-- The head as it is written. -/
def headText (m : Message) : Bytes :=
  m.line ++ str "\r\n" ++ m.lines.flatMap (· ++ str "\r\n") ++ str "\r\n"

/-- The bytes of a message: its head and its body. -/
def encode (m : Message) : Bytes := m.headText ++ m.body

/-- The fields of the header lines. -/
def fields (m : Message) : List (Bytes × Bytes) := m.lines.filterMap headerField

/-- The length that is parsed: that of the body, or `-1` where no line says it. -/
def contentLength (m : Message) : ℤ :=
  if valuesOf (str "content-length") m.fields = [] then -1 else m.body.length

/-- The fields as they are written. -/
def written (m : Message) : Request where
  method := m.method
  target := m.target
  version := m.version
  headers := m.fields.foldl Headers.fold ∅

/-- The request that the message is. -/
def request (m : Message) : Request :=
  { takeKeepAlive (takeHost (normaliseTarget m.written)) with
    raw := m.encode
    headerBytes := m.headText.length
    contentLength := m.contentLength
    valid := true }

end Message

/-- Normalising the target and taking the host change the host and the path only. -/
theorem takeHost_normaliseTarget (r : Request) :
    ∃ host path, takeHost (normaliseTarget r) = { r with host := host, path := path } := by
  obtain ⟨host, path, hnormal⟩ := normaliseTarget_eq r
  obtain ⟨host', hhost⟩ := takeHost_eq { r with host := host, path := path }
  exact ⟨host', path, by rw [hnormal, hhost]⟩

/-- What the message says is in its request. -/
theorem Message.request_fields (m : Message) :
    m.request.method = m.method ∧ m.request.target = m.target ∧ m.request.version = m.version ∧
      m.request.headers = m.fields.foldl Headers.fold ∅ ∧
      m.request.raw = m.headText ++ m.body ∧ m.request.headerBytes = m.headText.length := by
  obtain ⟨host, path, hhost⟩ := takeHost_normaliseTarget m.written
  obtain ⟨keepAlive, hkeep⟩ := takeKeepAlive_eq { m.written with host := host, path := path }
  unfold request
  rw [hhost, hkeep]
  exact ⟨rfl, rfl, rfl, rfl, rfl, rfl⟩

/-! ## Header fields -/

/-- What a repeated field is folded into. -/
def joined : Option Bytes → Bytes → Option Bytes
  | none, v => some v
  | some u, v => some (u ++ str ", " ++ v)

/-- A map into which fields are folded has the values of each name joined. -/
theorem lookup_foldl_fold (fields : List (Bytes × Bytes)) (h : Headers) (name : Bytes) :
    (fields.foldl Headers.fold h).lookup name =
      (valuesOf name fields).foldl joined (h.lookup name) := by
  induction fields generalizing h with
  | nil => rfl
  | cons f fields ih =>
    rw [List.foldl_cons, ih]
    unfold valuesOf
    by_cases hf : f.1 = name
    · rw [List.filter_cons_of_pos (by simpa using hf), List.map_cons, List.foldl_cons, ← hf]
      congr 1
      unfold Headers.fold
      cases h.lookup f.1 <;> simp [joined]
    · rw [List.filter_cons_of_neg (by simpa using hf)]
      congr 1
      unfold Headers.fold
      cases h.lookup f.1 <;> simp [AList.lookup_insert_ne (Ne.symm hf)]

/-- Values of which one is not empty are joined to one that is not. -/
theorem foldl_joined_ne_nil {vs : List Bytes} {o : Option Bytes}
    (h : (∃ u, o = some u ∧ u ≠ []) ∨ ∃ v ∈ vs, v ≠ []) :
    ∃ u, vs.foldl joined o = some u ∧ u ≠ [] := by
  induction vs generalizing o with
  | nil => simpa using h
  | cons v vs ih =>
    -- After one step a value is there, empty only if it and all before it were.
    refine ih ?_
    cases o with
    | none =>
      rcases h with ⟨u, hu, -⟩ | ⟨v', hv', hne⟩
      · cases hu
      · rcases List.mem_cons.mp hv' with rfl | hmem
        · exact Or.inl ⟨v', rfl, hne⟩
        · exact Or.inr ⟨v', hmem, hne⟩
    | some u => exact Or.inl ⟨_, rfl, by simp [str]⟩

/-! ## The head of a message -/

namespace Message

/-- The request line and the header lines of a message. -/
def crlf (m : Message) : CrlfHead where
  line := m.line
  lines := m.lines
  line_ok := by
    have hmethod := m.method_ok.2.2.2
    have htarget := m.target_ok.2.2.2
    have hversion := m.version_ok.2.2.2
    have hsp : LF ≠ SP := by decide
    simp [line, hmethod, htarget, hversion, hsp]
  lines_ok l hl := ⟨(m.lines_ok l hl).1, (m.lines_ok l hl).2.2⟩

/-- The text of the head is that of its lines. -/
theorem text_crlf (m : Message) : m.crlf.text = m.headText := rfl

/-- The head that the `getline` loops read. -/
def head (m : Message) : Head where
  line := m.line ++ [CR]
  lines := m.lines.map (· ++ [CR])
  blank := [CR]
  line_ok := m.crlf.head.line_ok
  lines_ok := m.crlf.head.lines_ok
  blank_ok := Head.blank_cr

/-- The bytes of the head are its text. -/
theorem bytes_head (m : Message) : m.head.bytes = m.headText := m.crlf.bytes_head

/-- The end of the head is found, whatever comes after it. -/
theorem findHeaderEnd_message (m : Message) (rest : Bytes) :
    findHeaderEnd (m.headText ++ rest) = some m.headText.length :=
  m.crlf.findHeaderEnd_text rest

/-- No end is found before the head is there. -/
theorem findHeaderEnd_prefix (m : Message) {rest buf more : Bytes}
    (h : m.headText ++ rest = buf ++ more) (hlt : buf.length < m.headText.length) :
    findHeaderEnd buf = none :=
  m.crlf.findHeaderEnd_prefix h hlt

/-! ## What is parsed -/

/-- The length of the body is read back. -/
theorem takeContentLength_message (m : Message) (hbody : m.body.length < 2^63) (r : Request)
    (hheaders : r.headers = m.fields.foldl Headers.fold ∅) (hlength : r.contentLength = -1) :
    takeContentLength r = { r with contentLength := m.contentLength } := by
  have hheader : r.header (str "content-length") =
      (valuesOf (str "content-length") m.fields).foldl joined none := by
    rw [Request.header, hheaders, lookup_foldl_fold, AList.lookup_empty]
  unfold takeContentLength contentLength
  rw [hheader]
  rcases m.body_ok with ⟨hnone, -⟩ | ⟨v, hv, hne, hdigits, hvalue⟩
  · rw [fields, hnone]
    simp [← hlength]
  · have hrange : (decimalValue v : ℤ) ≤ LONG_MAX := by
      unfold LONG_MAX
      omega
    rw [fields, hv]
    simp only [List.foldl_cons, List.foldl_nil, joined, strtol_digits hne hdigits hrange, hvalue]
    simp [StrtolResult.atEnd]

/-- The keep-alive does not depend on the length. -/
theorem takeKeepAlive_contentLength (r : Request) (cl : ℤ) :
    takeKeepAlive { r with contentLength := cl } =
      { takeKeepAlive r with contentLength := cl } := by
  unfold takeKeepAlive
  simp only [Request.header]
  repeat' split
  all_goals rfl

/-- The message names a host. -/
theorem takeHost_ne_nil (m : Message) : (takeHost (normaliseTarget m.written)).host ≠ [] := by
  -- The host of the target depends on the target alone.
  have htarget :
      (normaliseTarget m.written).host = (normaliseTarget { target := m.target }).host := by
    unfold normaliseTarget written
    dsimp only
    repeat' split
    all_goals rfl
  have hheaders : (normaliseTarget m.written).headers = m.fields.foldl Headers.fold ∅ := by
    obtain ⟨host, path, heq⟩ := normaliseTarget_eq m.written
    rw [heq]
    rfl
  unfold takeHost Request.header
  rw [hheaders]
  split
  -- The target names no host, so a header line does.
  · rename_i hnil
    have hhost : ∃ v ∈ valuesOf (str "host") m.fields, v ≠ [] :=
      m.host_ok.resolve_left (by rw [← htarget, hnil]; simp)
    obtain ⟨u, hu, hne⟩ := foldl_joined_ne_nil (o := none) (Or.inr hhost)
    rw [lookup_foldl_fold, AList.lookup_empty, hu]
    exact hne
  · rename_i hne
    exact hne

/-- A message is read back from a buffer that starts with its head. -/
theorem parseRequest_message (m : Message) (hbody : m.body.length < 2^63) (rest : Bytes) :
    parseRequest (m.headText ++ rest) = { m.request with raw := m.headText ++ rest } := by
  obtain ⟨hmethod, hmethodSP, -⟩ := m.method_ok
  obtain ⟨htarget, htargetSP, -⟩ := m.target_ok
  obtain ⟨hversion, htrim, -⟩ := m.version_ok
  have hparse := m.crlf.parseRequest_words rfl ⟨hmethod, hmethodSP⟩ ⟨htarget, htargetSP⟩
    ⟨hversion, htrim⟩ rest
  have hnamed := m.takeHost_ne_nil
  obtain ⟨host, path, hhost⟩ := takeHost_normaliseTarget m.written
  obtain ⟨keepAlive, hkeep⟩ := takeKeepAlive_eq { m.written with host := host, path := path }
  have hlength := m.takeContentLength_message hbody { m.written with host := host, path := path }
    rfl rfl
  rw [hhost] at hnamed
  rw [m.text_crlf] at hparse
  rw [hparse, request, hhost, hkeep]
  change { checkHost (takeKeepAlive (takeContentLength (takeHost (normaliseTarget m.written)))) with
    raw := m.headText ++ rest, headerBytes := m.headText.length } = _
  rw [hhost, hlength, takeKeepAlive_contentLength, hkeep, checkHost, if_neg hnamed]

end Message

end ForwardProxy
