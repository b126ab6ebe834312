import ForwardProxy.Http.Message

/-!
# Reading a request head back

A `RequestHead` is a head as a client may write it: any method and target, header lines with any
names and values, in any letter case and between any blanks, repeated or not, and lines without a
colon among them. `parse_request` undoes the writing (`parseRequest_requestHead`), whatever comes
after the head.
-/

namespace ForwardProxy

/-! ## Header fields -/

/-- The fields that are read from the lines have the values that the lines have. -/
theorem valuesOf_lines (name : Bytes) (lines : List HeaderLine) :
    valuesOf name ((lines.map HeaderLine.text).filterMap headerField) = lineValues name lines := by
  induction lines with
  | nil => rfl
  | cons l lines ih =>
    unfold lineValues at ih ⊢
    rw [List.map_cons, List.filterMap_cons, List.filterMap_cons, l.headerField_text]
    cases l with
    | field name' value _ _ =>
      unfold valuesOf at ih ⊢
      dsimp only [HeaderLine.valueOf]
      by_cases hname : toLower (trim name') = name
      · rw [List.filter_cons_of_pos (by simpa using hname), List.map_cons, ih, if_pos hname]
      · rw [List.filter_cons_of_neg (by simpa using hname), ih, if_neg hname]
    | junk _ _ => exact ih

/-- The values of one name in one, with a comma and a space between them. -/
def joinValues (vs : List Bytes) : Option Bytes :=
  if vs = [] then none else some (List.intercalate (str ", ") vs)

/-- Folding repeats one by one joins them. -/
theorem foldl_joined (vs : List Bytes) : vs.foldl joined none = joinValues vs := by
  have hsome : ∀ (vs : List Bytes) (u : Bytes),
      vs.foldl joined (some u) = some (List.intercalate (str ", ") (u :: vs)) := by
    intro vs
    induction vs with
    | nil => simp
    | cons v vs ih =>
      intro u
      rw [List.foldl_cons, joined, ih]
      cases vs <;> simp [List.intercalate]
  cases vs with
  | nil => rfl
  | cons v vs =>
    rw [List.foldl_cons, joined, hsome]
    rfl

/-! ## Targets -/

/-- An absolute-form target: `http://` in any letter case, an authority, and a path or nothing. -/
def AbsoluteForm (target authority rest : Bytes) : Prop :=
  ∃ scheme, toLower scheme = str "http://" ∧ target = scheme ++ authority ++ rest ∧
    authority ≠ [] ∧ SLASH ∉ authority ∧ (rest = [] ∨ rest.head? = some SLASH)

/-- The authority of an absolute-form target is the host, and the rest is the path. -/
theorem normaliseTarget_absolute {r : Request} {authority rest : Bytes}
    (h : AbsoluteForm r.target authority rest) : normaliseTarget r =
      { r with host := authority, path := if rest = [] then str "/" else rest } := by
  obtain ⟨scheme, hscheme, htarget, -, hslash, hrest⟩ := h
  -- The scheme is seven bytes long, in whatever case.
  have hlen : scheme.length = 7 := by
    have := congrArg List.length hscheme
    rw [toLower, List.length_map] at this
    exact this
  have htake : (toLower r.target).take 7 = str "http://" := by
    rw [htarget, List.append_assoc, toLower, List.map_append, ← toLower, hscheme]
    exact List.take_left' rfl
  have hdrop : r.target.drop 7 = authority ++ rest := by
    rw [htarget, List.append_assoc]
    exact List.drop_left' hlen
  unfold normaliseTarget
  rw [if_pos htake]
  rcases hrest with rfl | hhead
  · have hfind : findFrom r.target [SLASH] 7 = none := by
      rw [findFrom, hdrop, Option.map_eq_none_iff]
      refine Lib.Search.find_eq_none_iff.mpr fun i hocc => hslash ?_
      rw [List.append_nil] at hocc
      exact List.mem_of_getElem? ((Lib.Search.occursAt_cons _ _ _ _).mp hocc).1
    rw [List.append_nil] at hdrop
    simp only [hfind, hdrop, if_true]
  -- The first slash past the scheme ends the authority.
  · obtain ⟨path, rfl⟩ : ∃ path, rest = SLASH :: path := by
      cases rest with
      | nil => simp at hhead
      | cons b path => exact ⟨path, by rw [Option.some.inj hhead]⟩
    have hfind : findFrom r.target [SLASH] 7 = some (7 + authority.length) := by
      rw [findFrom, hdrop, find, Lib.Search.find_singleton_append hslash]
      rfl
    have hpath : r.target.drop (7 + authority.length) = SLASH :: path := by
      rw [← List.drop_drop, hdrop, List.drop_left]
    have hne : SLASH :: path ≠ [] := by simp
    simp only [hfind, hdrop, hpath, Nat.add_sub_cancel_left, List.take_left, if_neg hne]

/-- A target of any other form is the path. -/
theorem normaliseTarget_other {r : Request} (h : (toLower r.target).take 7 ≠ str "http://") :
    normaliseTarget r = { r with path := r.target } := by
  rw [normaliseTarget, if_neg h]

/-! ## Heads -/

/-- The head of a request, as a client may write it. Its target or a header line names a host. -/
structure RequestHead where
  method : Bytes
  target : Bytes
  version : Bytes
  lines : List HeaderLine
  method_ok : method ≠ [] ∧ SP ∉ method ∧ OneLine method
  target_ok : target ≠ [] ∧ SP ∉ target ∧ OneLine target
  version_ok : version.take 5 = str "HTTP/" ∧ trim version = version ∧ OneLine version
  host_ok : (∃ v ∈ lineValues (str "host") lines, v ≠ []) ∨
    ∃ authority rest, AbsoluteForm target authority rest

namespace RequestHead

/-- The head as one whose lines end in `CR LF`. -/
def crlf (h : RequestHead) : CrlfHead where
  line := h.method ++ SP :: h.target ++ SP :: h.version
  lines := h.lines.map HeaderLine.text
  line_ok := by
    have hmethod := h.method_ok.2.2.2
    have htarget := h.target_ok.2.2.2
    have hversion := h.version_ok.2.2.2
    have hsp : LF ≠ SP := by decide
    simp [hmethod, htarget, hversion, hsp]
  lines_ok := by
    intro l hl
    obtain ⟨l', -, rfl⟩ := List.mem_map.mp hl
    exact l'.text_ok

/-- The head as it is written. -/
def text (h : RequestHead) : Bytes := h.crlf.text

/-- The map of header fields that is read. -/
def headers (h : RequestHead) : Headers := h.crlf.fields.foldl Headers.fold ∅

/-- The entry of each name is the values of all lines of that name, joined. -/
theorem lookup_headers (h : RequestHead) (name : Bytes) :
    h.headers.lookup name = joinValues (lineValues name h.lines) := by
  calc h.headers.lookup name = (valuesOf name h.crlf.fields).foldl joined none := by
        rw [headers, lookup_foldl_fold, AList.lookup_empty]
    _ = joinValues (lineValues name h.lines) := by
        rw [foldl_joined, ← valuesOf_lines]
        rfl

/-- The three words of the request line and the header fields. -/
def written (h : RequestHead) : Request where
  method := h.method
  target := h.target
  version := h.version
  headers := h.headers

/-- The target or a header line names a host. -/
theorem takeHost_ne_nil (h : RequestHead) : (takeHost (normaliseTarget h.written)).host ≠ [] := by
  obtain ⟨host, path, hnormal⟩ := normaliseTarget_eq h.written
  unfold takeHost Request.header
  rcases h.host_ok with hvalue | ⟨authority, rest, habsolute⟩
  -- Where the target names no host, a header line does.
  · obtain ⟨u, hu, hne⟩ := foldl_joined_ne_nil (o := none) (Or.inr hvalue)
    have hlookup : h.written.headers.lookup (str "host") = some u := by
      rw [written, lookup_headers, ← foldl_joined, hu]
    rw [hnormal]
    dsimp only
    rw [hlookup]
    split
    · exact hne
    · assumption
  · have hauthority : authority ≠ [] := habsolute.choose_spec.2.2.1
    rw [normaliseTarget_absolute (r := h.written) habsolute, if_neg hauthority]
    exact hauthority

/-- What `parse_request` makes of a buffer that starts with the head. -/
theorem parseRequest_text (h : RequestHead) (body : Bytes) : ∃ cl keepAlive,
    parseRequest (h.text ++ body) = { takeHost (normaliseTarget h.written) with
      contentLength := cl
      keepAlive := keepAlive
      valid := true
      raw := h.text ++ body
      headerBytes := h.text.length } := by
  obtain ⟨hmethod, hmethodSP, -⟩ := h.method_ok
  obtain ⟨htarget, htargetSP, -⟩ := h.target_ok
  obtain ⟨hversion, htrim, -⟩ := h.version_ok
  have hparse := h.crlf.parseRequest_words rfl ⟨hmethod, hmethodSP⟩ ⟨htarget, htargetSP⟩
    ⟨hversion, htrim⟩ body
  have hnamed := h.takeHost_ne_nil
  obtain ⟨cl, hlength, -⟩ := takeContentLength_eq (takeHost (normaliseTarget h.written))
  obtain ⟨keepAlive, hkeep⟩ := takeKeepAlive_eq
    { takeHost (normaliseTarget h.written) with contentLength := cl }
  refine ⟨cl, keepAlive, ?_⟩
  calc parseRequest (h.text ++ body)
      = { checkHost (takeKeepAlive (takeContentLength (takeHost (normaliseTarget h.written)))) with
          raw := h.text ++ body, headerBytes := h.text.length } := hparse
    _ = _ := by rw [hlength, hkeep, checkHost, if_neg hnamed]

end RequestHead

/-- A head that is written is read back: the three words of the request line, where the head ends,
and for each name the values of all its lines. -/
theorem parseRequest_requestHead (h : RequestHead) (body : Bytes) :
    let r := parseRequest (h.text ++ body)
    r.valid = true ∧ r.method = h.method ∧ r.target = h.target ∧ r.version = h.version ∧
      r.headerBytes = h.text.length ∧
      ∀ name, r.header name = joinValues (lineValues name h.lines) := by
  obtain ⟨cl, keepAlive, hparse⟩ := h.parseRequest_text body
  obtain ⟨host, path, hhost⟩ := takeHost_normaliseTarget h.written
  dsimp only
  rw [hparse, hhost]
  exact ⟨rfl, rfl, rfl, rfl, rfl, h.lookup_headers⟩

example : (parseRequest (str "GET /a HTTP/1.1\r\njunk\r\nhOST : h \r\nHost:i\r\n\r\n")).header
    (str "host") = some (str "h, i") := by decide

end ForwardProxy
