import ForwardProxy.Http.Response

/-!
# What the parsers make of a head

`parseRequestLines_eq` says once which fields come of the lines of a request, and
`parseResponseLines_cases` what comes of those of a response: a status out of range and nothing
else, or a valid response with the last field of each name, whose framing is chunked, a length, or
the end of the connection. What a message says about itself is read off them.
-/

namespace ForwardProxy

/-! ## Requests -/

/-- The request line settles four fields. -/
theorem parseRequestLine_eq {line : Bytes} {r : Request}
    (h : parseRequestLine line = .ok r ∨ parseRequestLine line = .error r) :
    ∃ method target version error, r =
      { method := method, target := target, version := version, parseError := error } := by
  unfold parseRequestLine at h
  dsimp only at h
  -- Each branch is `ok` or `error` of a request with these fields set.
  repeat' split at h
  all_goals
    rcases h with h | h <;> cases h
    exact ⟨_, _, _, _, rfl⟩

/-- Normalising the target changes the host and the path only. -/
theorem normaliseTarget_eq (r : Request) :
    ∃ host path, normaliseTarget r = { r with host := host, path := path } := by
  unfold normaliseTarget
  split
  · split
    · exact ⟨_, _, rfl⟩
    · exact ⟨_, _, rfl⟩
  · exact ⟨r.host, _, rfl⟩

/-- Taking the host changes the host only. -/
theorem takeHost_eq (r : Request) : ∃ host, takeHost r = { r with host := host } := by
  unfold takeHost
  split
  · split
    · exact ⟨_, rfl⟩
    · exact ⟨r.host, rfl⟩
  · exact ⟨r.host, rfl⟩

/-- Taking the length changes the length only, to a number that is read off or to what it was. -/
theorem takeContentLength_eq (r : Request) :
    ∃ cl, takeContentLength r = { r with contentLength := cl } ∧
      (cl = r.contentLength ∨ ∃ s, cl = (strtol s).value ∧ 0 ≤ cl) := by
  unfold takeContentLength
  split
  · rename_i s _
    dsimp only
    split
    · rename_i hcond
      simp only [Bool.and_eq_true, decide_eq_true_eq] at hcond
      exact ⟨_, rfl, Or.inr ⟨s, rfl, hcond.2⟩⟩
    · exact ⟨_, rfl, Or.inl rfl⟩
  · exact ⟨_, rfl, Or.inl rfl⟩

/-- Taking the keep-alive changes the keep-alive only. -/
theorem takeKeepAlive_eq (r : Request) :
    ∃ keepAlive, takeKeepAlive r = { r with keepAlive := keepAlive } := by
  unfold takeKeepAlive
  dsimp only
  split
  · split
    · exact ⟨_, rfl⟩
    · split <;> exact ⟨_, rfl⟩
  · exact ⟨_, rfl⟩

/-- The lines of a head settle all fields but the bytes of the request and the end of the head. -/
theorem parseRequestLines_eq (lines : List Bytes) :
    ∃ method target version path host headers cl keepAlive valid error,
      parseRequestLines lines = {
        method := method
        target := target
        version := version
        path := path
        host := host
        headers := headers
        contentLength := cl
        keepAlive := keepAlive
        valid := valid
        parseError := error } ∧ (cl = -1 ∨ ∃ s, cl = (strtol s).value ∧ 0 ≤ cl) := by
  cases lines with
  | nil => exact ⟨_, _, _, _, _, _, _, _, _, _, rfl, Or.inl rfl⟩
  | cons line lines =>
    rw [parseRequestLines]
    split
    · rename_i r hr
      obtain ⟨method, target, version, error, rfl⟩ := parseRequestLine_eq (Or.inr hr)
      exact ⟨_, _, _, _, _, _, _, _, _, _, rfl, Or.inl rfl⟩
    · rename_i r hr
      obtain ⟨method, target, version, error, rfl⟩ := parseRequestLine_eq (Or.inl hr)
      dsimp only
      generalize (headerFields lines).foldl Headers.fold ∅ = headers
      -- Each pass over the request sets fields of its own.
      obtain ⟨host, path, hnormal⟩ := normaliseTarget_eq {
        method := method, target := target, version := version, parseError := error,
        headers := headers }
      rw [hnormal]
      obtain ⟨host', hhost⟩ := takeHost_eq {
        method := method, target := target, version := version, parseError := error,
        headers := headers, host := host, path := path }
      rw [hhost]
      obtain ⟨cl, hlength, hcl⟩ := takeContentLength_eq {
        method := method, target := target, version := version, parseError := error,
        headers := headers, host := host', path := path }
      rw [hlength]
      obtain ⟨keepAlive, hkeep⟩ := takeKeepAlive_eq {
        method := method, target := target, version := version, parseError := error,
        headers := headers, host := host', path := path, contentLength := cl }
      rw [hkeep]
      split
      · exact ⟨_, _, _, _, _, _, _, _, _, _, rfl, hcl⟩
      · exact ⟨_, _, _, _, _, _, _, _, _, _, rfl, hcl⟩

/-- The length does not depend on the host and the path. -/
theorem takeContentLength_host (r : Request) (host path : Bytes) :
    takeContentLength { r with host := host, path := path } =
      { takeContentLength r with host := host, path := path } := by
  unfold takeContentLength Request.header
  cases r.headers.lookup (str "content-length") with
  | none => rfl
  | some cl =>
    dsimp only
    split <;> rfl

/-- A valid request comes of a request line of three words, and its header fields. -/
theorem parseRequestLines_valid {line : Bytes} {lines : List Bytes}
    (h : (parseRequestLines (line :: lines)).valid = true) :
    ∃ r host keepAlive, parseRequestLine (popCR line) = .ok r ∧ parseRequestLines (line :: lines) =
      { takeContentLength { r with headers := (headerFields lines).foldl Headers.fold ∅ } with
        path := (normaliseTarget r).path
        host := host
        keepAlive := keepAlive
        valid := true } := by
  rw [parseRequestLines] at h ⊢
  cases hline : parseRequestLine (popCR line) with
  | error r =>
    obtain ⟨_, _, _, _, rfl⟩ := parseRequestLine_eq (Or.inr hline)
    rw [hline] at h
    cases h
  | ok r =>
    obtain ⟨_, _, _, _, hr⟩ := parseRequestLine_eq (Or.inl hline)
    rw [hline] at h
    dsimp only at h ⊢
    set q : Request := { r with headers := (headerFields lines).foldl Headers.fold ∅ } with hq
    -- The path is settled by the target alone, and the length by the header fields.
    have hpath : (normaliseTarget q).path = (normaliseTarget r).path := by
      unfold normaliseTarget
      dsimp only [q]
      repeat' split
      all_goals rfl
    obtain ⟨host, path, hnormal⟩ := normaliseTarget_eq q
    obtain ⟨host', hhost⟩ := takeHost_eq { q with host := host, path := path }
    obtain ⟨keepAlive, hkeep⟩ := takeKeepAlive_eq
      { takeContentLength q with host := host', path := path }
    rw [hnormal] at hpath
    obtain ⟨cl, hlength, -⟩ := takeContentLength_eq q
    rw [hnormal, hhost, takeContentLength_host q host' path, hkeep] at h ⊢
    refine ⟨r, host', keepAlive, rfl, ?_⟩
    split
    · rename_i hnil
      rw [if_pos hnil, hlength] at h
      have hvalid : r.valid = false := by rw [hr]
      exact absurd (hvalid.symm.trans h) (by decide)
    · rw [← hpath]

/-- `strtol` returns a `long`. -/
theorem strtol_le (s : Bytes) : (strtol s).value ≤ LONG_MAX := by
  have hzero : (0 : ℤ) ≤ LONG_MAX := by decide
  have hmin : LONG_MIN ≤ LONG_MAX := by decide
  unfold strtol
  dsimp only
  generalize (if (splitSign (s.dropWhile isSpace)).1 then _ else _ : ℤ) = v
  split
  · exact hzero
  · split
    · exact Int.le_refl _
    · rename_i hle
      split
      · exact hmin
      · exact Int.not_lt.mp hle

/-- The length of a request fits into a `long`. -/
theorem contentLength_parseRequest (raw : Bytes) : (parseRequest raw).contentLength ≤ LONG_MAX := by
  have hneg : (-1 : ℤ) ≤ LONG_MAX := by decide
  unfold parseRequest
  split
  · exact hneg
  · rename_i hend _
    obtain ⟨_, _, _, _, _, _, cl, _, _, _, heq, hcl⟩ :=
      parseRequestLines_eq (getlines (raw.take hend))
    rw [heq]
    rcases hcl with rfl | ⟨s, rfl, -⟩
    · exact hneg
    · exact strtol_le s

/-! ## Responses -/

/-- The framing of a response leaves the rest as it is, and marks it as ended by EOF where it is
neither chunked nor has a length. -/
theorem takeFraming_cases (r : Response) (h : r.closeDelimited = false) :
    ∃ chunked cl, takeFraming r = { r with
        chunked := chunked
        contentLength := cl
        closeDelimited := !chunked && decide (cl < 0) } ∧
      (cl = r.contentLength ∨ ∃ s, cl = (strtol s).value) := by
  -- The encoding sets one field, and the length another.
  have hchunked : ∃ chunked, takeChunked r = { r with chunked := chunked } := by
    unfold takeChunked
    split
    · split
      · exact ⟨true, rfl⟩
      · exact ⟨r.chunked, rfl⟩
    · exact ⟨r.chunked, rfl⟩
  obtain ⟨chunked, hchunked⟩ := hchunked
  have hlength : ∃ cl,
      takeLength (takeChunked r) = { r with chunked := chunked, contentLength := cl } ∧
      (cl = r.contentLength ∨ ∃ s, cl = (strtol s).value) := by
    rw [hchunked]
    unfold takeLength
    split
    · exact ⟨_, rfl, Or.inl rfl⟩
    · split
      · rename_i s _
        dsimp only
        split
        · exact ⟨_, rfl, Or.inr ⟨s, rfl⟩⟩
        · exact ⟨_, rfl, Or.inl rfl⟩
      · exact ⟨_, rfl, Or.inl rfl⟩
  obtain ⟨cl, hlength, hcl⟩ := hlength
  refine ⟨chunked, cl, ?_, hcl⟩
  unfold takeFraming
  rw [hlength]
  dsimp only
  cases hclosed : !chunked && decide (cl < 0)
  · simp [h]
  · simp

/-- What comes of the lines of a head. -/
theorem parseResponseLines_cases (line : Bytes) (lines : List Bytes) :
    (∃ status : ℤ, (status < 100 ∨ 599 < status) ∧
        parseResponseLines (line :: lines) = { status := status }) ∨
      ∃ status chunked cl, ¬(status < 100 ∨ 599 < status) ∧
        parseResponseLines (line :: lines) = {
          status := status
          headers := (headerFields lines).foldl Headers.assign ∅
          contentLength := cl
          chunked := chunked
          closeDelimited := !chunked && decide (cl < 0)
          valid := true } ∧ (cl = -1 ∨ ∃ s, cl = (strtol s).value) := by
  rw [parseResponseLines]
  cases statusCode (popCR line) with
  | none => exact Or.inl ⟨0, by decide, rfl⟩
  | some status =>
    dsimp only
    split
    · rename_i hrange
      exact Or.inl ⟨status, hrange, rfl⟩
    · rename_i hrange
      obtain ⟨chunked, cl, heq, hcl⟩ := takeFraming_cases {
        status := status
        headers := (headerFields lines).foldl Headers.assign ∅ } rfl
      exact Or.inr ⟨status, chunked, cl, hrange, by rw [heq], hcl⟩

/-- The status is that of the status line, also where it is out of range. -/
theorem status_parseResponseLines (line : Bytes) (lines : List Bytes) :
    (parseResponseLines (line :: lines)).status = (statusCode (popCR line)).getD 0 := by
  rw [parseResponseLines]
  cases statusCode (popCR line) with
  | none => rfl
  | some status =>
    dsimp only
    split
    · rfl
    · obtain ⟨chunked, cl, heq, -⟩ := takeFraming_cases {
        status := status
        headers := (headerFields lines).foldl Headers.assign ∅ } rfl
      rw [heq]
      rfl

/-- The value of the last field with a name. -/
def lastValue (name : Bytes) (fields : List (Bytes × Bytes)) : Option Bytes :=
  ((fields.filter fun f => f.1 = name).getLast?).map Prod.snd

/-- The last value of a name is among the later fields, or else is that of the first. -/
theorem lastValue_cons (name : Bytes) (f : Bytes × Bytes) (fields : List (Bytes × Bytes)) :
    lastValue name (f :: fields) =
      (lastValue name fields).or (if f.1 = name then some f.2 else none) := by
  unfold lastValue
  by_cases hf : f.1 = name
  · rw [List.filter_cons_of_pos (by simpa using hf), List.getLast?_cons]
    cases (fields.filter fun f => f.1 = name).getLast? <;> simp [hf]
  · rw [List.filter_cons_of_neg (by simpa using hf)]
    simp [hf]

/-- There is a last value of every name that a field has. -/
theorem lastValue_eq_none_iff {name : Bytes} {fields : List (Bytes × Bytes)} :
    lastValue name fields = none ↔ ∀ f ∈ fields, f.1 ≠ name := by
  simp [lastValue]

/-- A map into which fields are assigned has the last of each name. -/
theorem lookup_foldl_assign (fields : List (Bytes × Bytes)) (h : Headers) (name : Bytes) :
    (fields.foldl Headers.assign h).lookup name = (lastValue name fields).or (h.lookup name) := by
  induction fields generalizing h with
  | nil => simp [lastValue]
  | cons f fields ih =>
    have hassign : (h.assign f).lookup name =
        (if f.1 = name then some f.2 else none).or (h.lookup name) := by
      by_cases hf : f.1 = name
      · rw [← hf]
        simp [Headers.assign]
      · simp [Headers.assign, AList.lookup_insert_ne (Ne.symm hf), hf]
    rw [List.foldl_cons, ih, hassign, lastValue_cons, Option.or_assoc]

/-- The fields of the header lines of a response. -/
def responseFields (raw : Bytes) : List (Bytes × Bytes) :=
  match findHeaderEnd raw with
  | none => []
  | some hend => headerFields (getlines (raw.take hend)).tail

/-- What comes of a response. -/
theorem parseResponseHeaders_cases (raw : Bytes) :
    ((parseResponseHeaders raw).valid = false ∧ ((parseResponseHeaders raw).status < 100 ∨
        599 < (parseResponseHeaders raw).status) ∧ (parseResponseHeaders raw).contentLength = -1 ∧
        (parseResponseHeaders raw).closeDelimited = false ∧
        (parseResponseHeaders raw).chunked = false) ∨
      ∃ hend status chunked cl, findHeaderEnd raw = some hend ∧ parseResponseHeaders raw = {
        status := status
        headers := (responseFields raw).foldl Headers.assign ∅
        headerBytes := hend
        contentLength := cl
        chunked := chunked
        closeDelimited := !chunked && decide (cl < 0)
        valid := true } ∧ (cl = -1 ∨ ∃ s, cl = (strtol s).value) := by
  unfold parseResponseHeaders responseFields
  cases findHeaderEnd raw with
  | none =>
    dsimp only
    exact Or.inl ⟨rfl, by decide, rfl, rfl, rfl⟩
  | some hend =>
    dsimp only
    cases getlines (raw.take hend) with
    | nil => exact Or.inl ⟨rfl, by decide, rfl, rfl, rfl⟩
    | cons line lines =>
      rcases parseResponseLines_cases line lines with ⟨status, hrange, heq⟩ |
        ⟨status, chunked, cl, -, heq, hcl⟩
      · rw [heq]
        exact Or.inl ⟨rfl, hrange, rfl, rfl, rfl⟩
      · exact Or.inr ⟨hend, status, chunked, cl, rfl, by rw [heq]; rfl, hcl⟩

/-- The client can tell where the response ends without an EOF. -/
def Framed (data : Bytes) : Prop :=
  (parseResponseHeaders data).valid = true ∧
    ((parseResponseHeaders data).chunked = true ∨ 0 ≤ (parseResponseHeaders data).contentLength)

instance (data : Bytes) : Decidable (Framed data) := inferInstanceAs (Decidable (_ ∧ _))

/-- A response is framed when it is valid and not ended by EOF. -/
theorem framed_iff (data : Bytes) : Framed data ↔ (parseResponseHeaders data).valid = true ∧
    (parseResponseHeaders data).closeDelimited = false := by
  unfold Framed
  rcases parseResponseHeaders_cases data with ⟨hvalid, -⟩ | ⟨hend, status, chunked, cl, -, heq, -⟩
  · simp [hvalid]
  · rw [heq]
    cases chunked <;> simp

/-- A length fits into a `long`. -/
theorem contentLength_le (raw : Bytes) : (parseResponseHeaders raw).contentLength ≤ LONG_MAX := by
  have hneg : (-1 : ℤ) ≤ LONG_MAX := by decide
  rcases parseResponseHeaders_cases raw with
    ⟨-, -, hcl, -⟩ | ⟨hend, status, chunked, cl, -, heq, hcl⟩
  · rw [hcl]
    exact hneg
  · rw [heq]
    rcases hcl with rfl | ⟨s, rfl⟩
    · exact hneg
    · exact strtol_le s

end ForwardProxy
