import ForwardProxy.Http.RequestHead
import ForwardProxy.Server.Serve

/-!
# The two forms of a target

A resource is requested with its path as the target and its authority in the `Host` header, or with
both in an absolute-form target. `parse_request` makes the same method, host, and path of both, and
what is made of these looks at the host without regard to case (`target_forms_alike`). The path
starts with a slash only for these two forms (`path_origin_iff`): any other target is the path as it
is.
-/

namespace ForwardProxy

/-! ## Letter case -/

/-- Lowering a start is taking a start of the lowered text. -/
theorem toLower_take (s : Bytes) (n : ℕ) : toLower (s.take n) = (toLower s).take n :=
  List.map_take

/-- And so with what is left. -/
theorem toLower_drop (s : Bytes) (n : ℕ) : toLower (s.drop n) = (toLower s).drop n :=
  List.map_drop

/-- Lowering keeps the length. -/
theorem length_toLower (s : Bytes) : (toLower s).length = s.length := List.length_map _

/-- Only a colon is lowered to a colon. -/
theorem tolower_eq_colon_iff (c : Byte) : tolower c = COLON ↔ c = COLON := by
  unfold tolower
  grind

/-- Lowering makes no digit and takes none away. -/
theorem isDigit_tolower (c : Byte) : isDigit (tolower c) = isDigit c := by
  unfold tolower isDigit
  grind

/-- Digits have no letter case. -/
theorem toLower_digits {ds : Bytes} (h : ds.all isDigit = true) : toLower ds = ds := by
  refine (List.map_congr_left fun c hc => ?_).trans (List.map_id ds)
  have hdigit := List.all_eq_true.mp h c hc
  unfold isDigit at hdigit
  unfold tolower
  grind

/-- The last colon stays where it is. -/
theorem rfind_toLower (s : Bytes) : rfind (toLower s) COLON = rfind s COLON := by
  induction s with
  | nil => rfl
  | cons c s ih =>
    unfold toLower at ih ⊢
    simp only [List.map_cons, rfind, ih, tolower_eq_colon_iff]

/-- An authority is split in one place in every letter case. -/
theorem splitAuthority_toLower (s : Bytes) :
    splitAuthority (toLower s) =
      { splitAuthority s with host := toLower (splitAuthority s).host } := by
  have hall : ∀ ds : Bytes, (toLower ds).all isDigit = ds.all isDigit := by
    intro ds
    simp [toLower, List.all_map, Function.comp_def, isDigit_tolower]
  unfold splitAuthority
  rw [rfind_toLower]
  cases rfind s COLON with
  | none => rfl
  | some colon =>
    dsimp only
    rw [← toLower_drop, ← toLower_take, hall, length_toLower]
    by_cases hport : colon + 1 < s.length ∧ (s.drop (colon + 1)).all isDigit = true
    · rw [toLower_digits hport.2, if_pos hport]
      split <;> rfl
    · simp only [if_neg hport]

/-- Two hosts that differ in letter case are resolved to one upstream, by one route, or without a
route by themselves. -/
theorem resolve_toLower (t : RouteTable) {h h' : Bytes} (hcase : toLower h = toLower h') :
    (t.resolve h).port = (t.resolve h').port ∧
      toLower (t.resolve h).host = toLower (t.resolve h').host ∧
      ((∃ route ∈ t.routes, wildcardMatch route.1 (toLower h) = true) →
        t.resolve h = t.resolve h') := by
  unfold RouteTable.resolve
  rw [← hcase]
  dsimp only
  cases hfind : t.routes.find? fun route => wildcardMatch route.1 (toLower h) with
  | some route => exact ⟨rfl, rfl, fun _ => rfl⟩
  | none =>
    have hsplit := splitAuthority_toLower h
    rw [hcase, splitAuthority_toLower h'] at hsplit
    have hport := congrArg Upstream.port hsplit
    have hhost := congrArg Upstream.host hsplit
    refine ⟨hport.symm, hhost.symm, ?_⟩
    rintro ⟨route, hmem, hmatch⟩
    exact absurd hmatch (List.find?_eq_none.mp hfind route hmem)

/-- `check` looks at the method, the host without regard to case, and the path. -/
theorem check_congr (acl : AccessControl) {q q' : Request} (hmethod : q.method = q'.method)
    (hhost : toLower q.host = toLower q'.host) (hpath : q.path = q'.path) :
    acl.check q = acl.check q' := by
  have happlies : ∀ r : Rule, r.applies q = r.applies q' := by
    intro r
    unfold Rule.applies
    rw [hmethod, hhost, hpath]
  unfold AccessControl.check
  induction acl.rules with
  | nil => rfl
  | cons r rules ih => rw [checkRules, checkRules, happlies r, ih]

/-! ## Resources -/

/-- A resource, and what is to be done with it. -/
structure Resource where
  method : Bytes
  authority : Bytes
  path : Bytes
  authority_ok : authority ≠ [] ∧ SLASH ∉ authority
  path_ok : path.head? = some SLASH

namespace Resource

/-- The head requests the resource with its path for a target, and its authority in the one `Host`
line. -/
def Origin (r : Resource) (head : RequestHead) : Prop :=
  head.method = r.method ∧ head.target = r.path ∧
    lineValues (str "host") head.lines = [r.authority]

/-- The head requests the resource with an absolute-form target, whatever its `Host` lines say. -/
def Absolute (r : Resource) (head : RequestHead) : Prop :=
  head.method = r.method ∧
    ∃ scheme, toLower scheme = str "http://" ∧ head.target = scheme ++ r.authority ++ r.path

/-- The resource is read from a request in either form. -/
theorem parseRequest_form {r : Resource} {head : RequestHead}
    (h : r.Origin head ∨ r.Absolute head) (body : Bytes) :
    let q := parseRequest (head.text ++ body)
    q.valid = true ∧ q.method = r.method ∧ q.host = r.authority ∧ q.path = r.path := by
  obtain ⟨cl, keepAlive, hparse⟩ := head.parseRequest_text body
  have hne : r.path ≠ [] := by
    intro hnil
    have := r.path_ok
    simp [hnil] at this
  dsimp only
  rw [hparse]
  rcases h with ⟨hmethod, htarget, hhost⟩ | ⟨hmethod, scheme, hscheme, htarget⟩
  · -- A target that starts with a slash has no scheme.
    have hother : (toLower head.written.target).take 7 ≠ str "http://" := by
      obtain ⟨b, path, hpath⟩ := List.exists_cons_of_ne_nil hne
      have hb := r.path_ok
      rw [hpath, List.head?_cons, Option.some.injEq] at hb
      have hlower : tolower SLASH ≠ 104 := by decide
      intro heq
      have hhead := congrArg List.head? heq
      rw [RequestHead.written, htarget, hpath, hb, toLower] at hhead
      exact hlower (Option.some.inj hhead)
    have hlookup : head.written.header (str "host") = some r.authority := by
      rw [Request.header, RequestHead.written, head.lookup_headers, hhost]
      simp [joinValues]
    have hnohost : head.written.host = [] := rfl
    rw [normaliseTarget_other hother, takeHost]
    simp only [Request.header, hnohost, if_true] at hlookup ⊢
    rw [hlookup]
    exact ⟨trivial, hmethod, rfl, htarget⟩
  -- The authority is taken from the target, and no header line replaces it.
  · have habsolute : AbsoluteForm head.written.target r.authority r.path :=
      ⟨scheme, hscheme, htarget, r.authority_ok.1, r.authority_ok.2, Or.inr r.path_ok⟩
    rw [normaliseTarget_absolute habsolute, takeHost]
    simp only [if_neg r.authority_ok.1, if_neg hne]
    exact ⟨trivial, hmethod, trivial, trivial⟩

end Resource

/-- Two requests for one resource, each in either form, are decided alike, and have one key in the
cache, also where the letter case of the authority differs. They go to one upstream, up to the
letter case of an authority that no route matches, and in the same letter case to the same. -/
theorem target_forms_alike (acl : AccessControl) {r r' : Resource} {head head' : RequestHead}
    (h : r.Origin head ∨ r.Absolute head) (h' : r'.Origin head' ∨ r'.Absolute head')
    (hmethod : r.method = r'.method) (hpath : r.path = r'.path)
    (hcase : toLower r.authority = toLower r'.authority) (body body' : Bytes) :
    let q := parseRequest (head.text ++ body)
    let q' := parseRequest (head'.text ++ body')
    let up := acl.routes.resolve q.host
    let up' := acl.routes.resolve q'.host
    q.path = q'.path ∧ acl.check q = acl.check q' ∧ cacheKey q = cacheKey q' ∧
      up.port = up'.port ∧ toLower up.host = toLower up'.host ∧
      ((∃ route ∈ acl.routes.routes, wildcardMatch route.1 (toLower q.host) = true) → up = up') ∧
      (r.authority = r'.authority → q.host = q'.host ∧ up = up') := by
  obtain ⟨-, hm, hh, hp⟩ := r.parseRequest_form h body
  obtain ⟨-, hm', hh', hp'⟩ := r'.parseRequest_form h' body'
  have hq : toLower (parseRequest (head.text ++ body)).host =
      toLower (parseRequest (head'.text ++ body')).host := by
    rw [hh, hh', hcase]
  have hqm : (parseRequest (head.text ++ body)).method =
      (parseRequest (head'.text ++ body')).method := by
    rw [hm, hm', hmethod]
  have hqp : (parseRequest (head.text ++ body)).path =
      (parseRequest (head'.text ++ body')).path := by
    rw [hp, hp', hpath]
  obtain ⟨hport, hhost, hroute⟩ := resolve_toLower acl.routes hq
  refine ⟨hqp, check_congr acl hqm hq hqp, ?_, hport, hhost, hroute, fun hsame => ?_⟩
  · unfold cacheKey
    rw [hqm, hq, hqp]
  · have hhosts : (parseRequest (head.text ++ body)).host =
        (parseRequest (head'.text ++ body')).host := by
      rw [hh, hh', hsame]
    exact ⟨hhosts, congrArg _ hhosts⟩

/-- A path with its authority in the `Host` line. -/
def originHead : RequestHead where
  method := str "GET"
  target := str "/a"
  version := str "HTTP/1.1"
  lines := [.field (str "Host") (str " h.test ") (by decide) (by decide)]
  method_ok := method_get
  target_ok := target_a
  version_ok := version_http11
  host_ok := Or.inl ⟨str "h.test", by decide, by decide⟩

/-- An absolute-form target in other letter case. -/
def absoluteHead : RequestHead where
  method := str "GET"
  target := str "HTTP://H.Test/a"
  version := str "HTTP/1.0"
  lines := [.field (str "host") (str "i") (by decide) (by decide)]
  method_ok := method_get
  target_ok := by decide
  version_ok := by decide
  host_ok := Or.inl ⟨str "i", by decide, by decide⟩

/-- A request in the two forms, of which one has its host in capitals. -/
theorem target_forms_alike_get :
    let q := parseRequest (originHead.text ++ str "x")
    let q' := parseRequest (absoluteHead.text ++ [])
    let acl := ({} : AccessControl).addRule .deny (str "host") (str "H.TEST")
    acl.check q = acl.check q' ∧ cacheKey q = cacheKey q' := by
  have halike := @target_forms_alike
    (({} : AccessControl).addRule .deny (str "host") (str "H.TEST"))
    ⟨str "GET", str "h.test", str "/a", by decide, by decide⟩
    ⟨str "GET", str "H.Test", str "/a", by decide, by decide⟩ originHead absoluteHead
    (Or.inl ⟨rfl, rfl, by decide⟩)
    (Or.inr ⟨rfl, str "HTTP://", by decide, by decide⟩)
    (show str "GET" = str "GET" from rfl) (show str "/a" = str "/a" from rfl) (by decide) (str "x")
    []
  exact ⟨halike.2.1, halike.2.2.1⟩

/-! ## Other targets -/

/-- The target as it stands on the first line: between its first two spaces. -/
def targetText (raw : Bytes) : Bytes :=
  (((raw.takeWhile (· ≠ LF)).dropWhile (· ≠ SP)).drop 1).takeWhile (· ≠ SP)

/-- A request line that is accepted is the three words, with spaces between them. -/
theorem eq_words_of_parseRequestLine {line : Bytes} {r : Request}
    (h : parseRequestLine line = .ok r) : ∃ rest,
      line = r.method ++ SP :: (r.target ++ SP :: rest) ∧ SP ∉ r.method ∧ SP ∉ r.target := by
  unfold parseRequestLine at h
  cases hsp1 : find line [SP] with
  | none => simp [hsp1] at h
  | some sp1 =>
    obtain ⟨hsplit1, hmethod⟩ := Lib.Search.eq_append_of_find_singleton hsp1
    cases hsp2 : find (line.drop (sp1 + 1)) [SP] with
    | none => simp [hsp1, findFrom, hsp2] at h
    | some i =>
      obtain ⟨hsplit2, htarget⟩ := Lib.Search.eq_append_of_find_singleton hsp2
      have hlength : sp1 + 1 + i - sp1 - 1 = i := by omega
      simp only [hsp1, findFrom, hsp2, Option.map_some, hlength] at h
      split at h
      · cases h
      · split at h
        · cases h
        · cases h
          refine ⟨(line.drop (sp1 + 1)).drop (i + 1), ?_, hmethod, htarget⟩
          rw [← hsplit2, ← hsplit1]

/-- Up to the first of a byte. -/
theorem takeWhile_ne_append {a : Byte} {s : Bytes} (h : a ∉ s) (t : Bytes) :
    (s ++ a :: t).takeWhile (· ≠ a) = s := by
  rw [List.takeWhile_append_of_pos fun b hb => decide_eq_true (ne_of_mem_of_not_mem hb h)]
  simp

/-- From the first of a byte on. -/
theorem dropWhile_ne_append {a : Byte} {s : Bytes} (h : a ∉ s) (t : Bytes) :
    (s ++ a :: t).dropWhile (· ≠ a) = a :: t := by
  rw [List.dropWhile_append_of_pos fun b hb => decide_eq_true (ne_of_mem_of_not_mem hb h)]
  simp

/-- A line is what is left of it without its carriage return, or that and the carriage return. -/
theorem exists_popCR (line : Bytes) : ∃ tail, line = popCR line ++ tail := by
  unfold popCR
  split
  · exact ⟨line.drop (line.length - 1), by rw [List.dropLast_eq_take, List.take_append_drop]⟩
  · exact ⟨[], by simp⟩

/-- The path of a valid request is that of the target on its first line. -/
theorem path_parseRequest {raw : Bytes} (h : (parseRequest raw).valid = true) :
    ∃ r : Request, r.target = targetText raw ∧
      (parseRequest raw).path = (normaliseTarget r).path := by
  obtain ⟨hd, rest, e, r, host, keepAlive, rfl, -, hline, hparse⟩ := parseRequest_valid h
  obtain ⟨words, hwords, hmethod, htarget⟩ := eq_words_of_parseRequestLine hline
  obtain ⟨tail, htail⟩ := exists_popCR hd.line
  have hfirst : (hd.bytes ++ rest).takeWhile (· ≠ LF) = hd.line := by
    rw [Head.bytes, Lib.Lines.unlines_cons]
    simp only [List.append_assoc, List.cons_append]
    exact takeWhile_ne_append hd.line_ok _
  refine ⟨r, ?_, by rw [hparse]⟩
  rw [targetText, hfirst, htail, hwords]
  simp only [List.append_assoc, List.cons_append]
  rw [dropWhile_ne_append hmethod, List.drop_one, List.tail_cons, takeWhile_ne_append htarget]

/-- The path starts with a slash where the target does, or is absolute. -/
theorem path_normaliseTarget_iff (r : Request) :
    (normaliseTarget r).path.head? = some SLASH ↔
      r.target.head? = some SLASH ∨ (toLower r.target).take 7 = str "http://" := by
  unfold normaliseTarget
  split
  · rename_i hscheme
    simp only [hscheme, or_true, iff_true]
    cases hfind : findFrom r.target [SLASH] 7 with
    | none => rfl
    | some slash =>
      have hocc := (findFrom_eq_some_iff.mp hfind).2.1
      simpa using ((Lib.Search.occursAt_cons _ _ _ _).mp hocc).1
  · rename_i hscheme
    simp [hscheme]

/-- The path of a valid request starts with a slash exactly where its target does, or starts with
`http://` in any letter case. It is then the target, or what follows the authority. -/
theorem path_origin_iff (raw : Bytes) (hvalid : (parseRequest raw).valid = true) :
    ((parseRequest raw).path.head? = some SLASH ↔
        (targetText raw).head? = some SLASH ∨
          (toLower (targetText raw)).take 7 = str "http://") ∧
      ((targetText raw).head? = some SLASH → (parseRequest raw).path = targetText raw) ∧
      ∀ authority rest, AbsoluteForm (targetText raw) authority rest →
        (parseRequest raw).path = if rest = [] then str "/" else rest := by
  obtain ⟨r, htarget, hpath⟩ := path_parseRequest hvalid
  rw [hpath, ← htarget]
  refine ⟨path_normaliseTarget_iff r, fun hslash => ?_, fun authority rest habsolute => ?_⟩
  · have hother : (toLower r.target).take 7 ≠ str "http://" := by
      intro hscheme
      have hhead := congrArg List.head? hscheme
      rw [List.head?_take, if_neg (by decide), toLower, List.head?_map, hslash] at hhead
      revert hhead
      decide
    rw [normaliseTarget_other hother]
  · rw [normaliseTarget_absolute habsolute]

/-- The path of a request with a query. -/
theorem path_origin_get :
    (parseRequest (str "GET /a?b HTTP/1.1\r\nHost: h\r\n\r\n")).path = str "/a?b" :=
  (path_origin_iff (str "GET /a?b HTTP/1.1\r\nHost: h\r\n\r\n") (by decide)).2.1 (by decide)

/-- An absolute-form target of another scheme is the path as a whole, and a rule for paths does not
match it. -/
theorem path_https :
    let raw := str "GET https://h/admin/x HTTP/1.1\r\nHost: h\r\n\r\n"
    let acl := ({} : AccessControl).addRule .deny (str "path") (str "/admin/*")
    (parseRequest raw).valid = true ∧ (parseRequest raw).path.head? ≠ some SLASH ∧
      (acl.check (parseRequest raw)).decision = .allow := by
  decide +kernel

end ForwardProxy
