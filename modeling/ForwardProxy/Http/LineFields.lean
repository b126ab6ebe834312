import ForwardProxy.Http.Message

/-!
# The fields of a request are of one line

The lines of a head have no line feed in them, so neither has anything that `parse_request` takes
from them, valid or not: a target in absolute form, a folded header, or a message of an error
(`unbroken_parseRequest`). The method and the target of a request have no space in them either
(`space_parseRequest`).
-/

namespace ForwardProxy

/-- No field that a log line repeats has the byte `c`. -/
structure Request.Free (c : Byte) (r : Request) : Prop where
  method : c ∉ r.method
  target : c ∉ r.target
  version : c ∉ r.version
  path : c ∉ r.path
  host : c ∉ r.host

/-! ## Lines -/

/-- What is trimmed had the byte before. -/
theorem notMem_trim {c : Byte} {s : Bytes} (h : c ∉ s) : c ∉ trim s := fun hmem =>
  h ((List.dropWhile_sublist _).subset ((List.rdropWhile_prefix _ _).subset hmem))

/-- Taking off a `CR` brings in no byte. -/
theorem notMem_popCR {c : Byte} {s : Bytes} (h : c ∉ s) : c ∉ popCR s := by
  unfold popCR
  split
  · exact fun hmem => h (List.mem_of_mem_dropLast hmem)
  · exact h

/-! ## The request line -/

/-- What the request line gives, and what is wrong with it. -/
theorem free_parseRequestLine {line : Bytes} {r : Request}
    (h : parseRequestLine line = .ok r ∨ parseRequestLine line = .error r) :
    (∀ c, c ∉ line → r.Free c) ∧ SP ∉ r.method ∧ SP ∉ r.target ∧ LF ∉ r.parseError := by
  have hempty : ∀ (error : Bytes) (c : Byte), ({ parseError := error } : Request).Free c := by
    intro error c
    constructor <;> simp
  have herror : LF ∉ str "malformed request line" ∧ LF ∉ str "unsupported version" := by
    decide +kernel
  unfold parseRequestLine at h
  dsimp only at h
  split at h
  · rcases h with h | h <;> cases h
    exact ⟨fun c _ => hempty _ c, by simp, by simp, herror.1⟩
  · rename_i sp1 hsp1
    split at h
    · rcases h with h | h <;> cases h
      exact ⟨fun c _ => hempty _ c, by simp, by simp, herror.1⟩
    · rename_i sp2 hsp2
      obtain ⟨p, hp, rfl⟩ := Option.map_eq_some_iff.mp hsp2
      -- The method ends before the first space, and the target before the next.
      have hmethod := (Lib.Search.eq_append_of_find_singleton hsp1).2
      have htarget := (Lib.Search.eq_append_of_find_singleton hp).2
      have hlen : sp1 + 1 + p - sp1 - 1 = p := by omega
      have hfree : ∀ (error : Bytes) (c : Byte), c ∉ line → ({
          method := line.take sp1
          target := (line.drop (sp1 + 1)).take p
          version := trim (line.drop (sp1 + 1 + p + 1))
          parseError := error } : Request).Free c := by
        intro error c hc
        refine ⟨fun hmem => hc (List.mem_of_mem_take hmem),
          fun hmem => hc (List.mem_of_mem_drop (List.mem_of_mem_take hmem)),
          notMem_trim fun hmem => hc (List.mem_of_mem_drop hmem), by simp, by simp⟩
      simp only [hlen] at h
      split at h
      · rcases h with h | h <;> cases h
        exact ⟨hfree _, hmethod, htarget, herror.1⟩
      · split at h
        · rcases h with h | h <;> cases h
          exact ⟨hfree _, hmethod, htarget, herror.2⟩
        · rcases h with h | h <;> cases h
          exact ⟨hfree _, hmethod, htarget, by simp⟩

/-! ## The header fields -/

/-- The fields of lines without the byte do not have it. -/
theorem free_headerFields {c : Byte} {lines : List Bytes} (h : ∀ l ∈ lines, c ∉ l) :
    ∀ f ∈ headerFields lines, c ∉ f.2 := by
  induction lines with
  | nil => simp [headerFields]
  | cons l lines ih =>
    obtain ⟨hl, hlines⟩ := List.forall_mem_cons.mp h
    rw [headerFields]
    split
    · simp
    · intro f hf
      rcases List.mem_append.mp hf with hf | hf
      · rw [Option.mem_toList, headerField] at hf
        split at hf
        · cases hf
        · rename_i colon hcolon
          dsimp only at hf
          split at hf
          · cases hf
          · cases hf
            exact notMem_trim fun hmem => notMem_popCR hl (List.mem_of_mem_drop hmem)
      · exact ih hlines f hf

/-- A folded value is made of the values of the fields, with `", "` between them. -/
theorem free_fold {c : Byte} (hc : c ∉ str ", ") {fields : List (Bytes × Bytes)}
    (h : ∀ f ∈ fields, c ∉ f.2) {name v : Bytes}
    (hv : (fields.foldl Headers.fold ∅).lookup name = some v) : c ∉ v := by
  rw [lookup_foldl_fold] at hv
  have hvalues : ∀ u ∈ valuesOf name fields, c ∉ u := by
    intro u hu
    obtain ⟨f, hf, rfl⟩ := List.mem_map.mp hu
    exact h f (List.mem_of_mem_filter hf)
  have hjoin : ∀ (vs : List Bytes) (o : Option Bytes), (∀ u ∈ vs, c ∉ u) → (∀ u ∈ o, c ∉ u) →
      ∀ u ∈ vs.foldl joined o, c ∉ u := by
    intro vs
    induction vs with
    | nil => exact fun o _ ho => ho
    | cons v vs ih =>
      intro o hvs ho
      obtain ⟨hv, hvs⟩ := List.forall_mem_cons.mp hvs
      refine ih _ hvs fun u hu => ?_
      cases o with
      | none =>
        cases hu
        exact hv
      | some w =>
        cases hu
        simp [ho w rfl, hc, hv]
  exact hjoin _ _ hvalues (by simp) v hv

/-! ## The request -/

/-- The parts of a target in absolute form are parts of the target. -/
theorem free_normaliseTarget {c : Byte} (hc : c ≠ SLASH) {r : Request} (htarget : c ∉ r.target)
    (hhost : c ∉ r.host) : c ∉ (normaliseTarget r).path ∧ c ∉ (normaliseTarget r).host := by
  have hdrop : ∀ n, c ∉ r.target.drop n := fun n hmem => htarget (List.mem_of_mem_drop hmem)
  unfold normaliseTarget
  split
  · split
    · exact ⟨by simpa [str] using hc, hdrop 7⟩
    · exact ⟨hdrop _, fun hmem => hdrop 7 (List.mem_of_mem_take hmem)⟩
  · exact ⟨htarget, hhost⟩

/-- The host has no byte that neither the target nor a field has. -/
theorem free_takeHost {c : Byte} {r : Request} (hhost : c ∉ r.host)
    (hheader : ∀ name v, r.header name = some v → c ∉ v) : c ∉ (takeHost r).host := by
  unfold takeHost
  split
  · split
    · rename_i v hv
      exact hheader _ v hv
    · exact hhost
  · exact hhost

/-- Past the request line, only the framing, the persistence and the verdict are settled after the
target and the host. -/
theorem parseRequestLines_ok {line : Bytes} (lines : List Bytes) {r : Request}
    (h : parseRequestLine (popCR line) = .ok r) :
    ∃ cl keepAlive valid error, LF ∉ error ∧ parseRequestLines (line :: lines) =
      { takeHost (normaliseTarget { r with
          headers := (headerFields lines).foldl Headers.fold ∅ }) with
        contentLength := cl
        keepAlive := keepAlive
        valid := valid
        parseError := error } := by
  obtain ⟨method, target, version, error, rfl⟩ := parseRequestLine_eq (Or.inl h)
  have herror : LF ∉ error := (free_parseRequestLine (Or.inl h)).2.2.2
  rw [parseRequestLines, h]
  dsimp only
  set q : Request := {
    method := method
    target := target
    version := version
    headers := (headerFields lines).foldl Headers.fold ∅
    parseError := error } with hq
  set s := takeHost (normaliseTarget q) with hs
  have hkept : s.parseError = error := by
    obtain ⟨host, path, hnormal⟩ := takeHost_normaliseTarget q
    rw [hs, hnormal]
  obtain ⟨cl, hlength, -⟩ := takeContentLength_eq s
  rw [hlength]
  obtain ⟨keepAlive, hkeep⟩ := takeKeepAlive_eq { s with contentLength := cl }
  rw [hkeep]
  have hmissing : LF ∉ str "missing Host header" := by decide +kernel
  split
  · exact ⟨cl, keepAlive, _, _, hmissing, rfl⟩
  · exact ⟨cl, keepAlive, _, s.parseError, hkept ▸ herror, rfl⟩

/-- The method, the target and the version are those of the request line, whether it is in order or
not. If it is, the path and the host are taken from the target and the header fields. -/
theorem parseRequestLines_parts (line : Bytes) (lines : List Bytes) : ∃ r q s : Request,
    (parseRequestLine (popCR line) = .ok r ∨ parseRequestLine (popCR line) = .error r) ∧
      q = { r with headers := (headerFields lines).foldl Headers.fold ∅ } ∧
      s = parseRequestLines (line :: lines) ∧ s.method = r.method ∧ s.target = r.target ∧
      s.version = r.version ∧ LF ∉ s.parseError ∧
      (s.path = [] ∧ s.host = [] ∨
        s.path = (normaliseTarget q).path ∧ s.host = (takeHost (normaliseTarget q)).host) := by
  cases hparse : parseRequestLine (popCR line) with
  | error r =>
    have herror := (free_parseRequestLine (Or.inr hparse)).2.2.2
    obtain ⟨method, target, version, error, rfl⟩ := parseRequestLine_eq (Or.inr hparse)
    refine ⟨_, _, _, Or.inr rfl, rfl, rfl, ?_⟩
    rw [parseRequestLines, hparse]
    exact ⟨rfl, rfl, rfl, herror, Or.inl ⟨rfl, rfl⟩⟩
  | ok r =>
    obtain ⟨cl, keepAlive, valid, error, herror, heq⟩ := parseRequestLines_ok lines hparse
    obtain ⟨host, path, hnormal⟩ := normaliseTarget_eq
      { r with headers := (headerFields lines).foldl Headers.fold ∅ }
    obtain ⟨host', htake⟩ := takeHost_eq
      (normaliseTarget { r with headers := (headerFields lines).foldl Headers.fold ∅ })
    refine ⟨r, _, _, Or.inl rfl, rfl, rfl, ?_⟩
    rw [heq, htake, hnormal]
    exact ⟨rfl, rfl, rfl, herror, Or.inr ⟨rfl, rfl⟩⟩

/-- Nothing that is taken from the lines of a head has a line feed. -/
theorem unbroken_parseRequestLines {lines : List Bytes} (h : ∀ l ∈ lines, LF ∉ l) :
    (parseRequestLines lines).Free LF ∧ LF ∉ (parseRequestLines lines).parseError := by
  cases lines with
  | nil =>
    have hempty : LF ∉ str "empty request" := by decide +kernel
    refine ⟨?_, hempty⟩
    constructor <;> simp [parseRequestLines]
  | cons line lines =>
    obtain ⟨hline, hlines⟩ := List.forall_mem_cons.mp h
    obtain ⟨r, q, s, hparse, hq, rfl, hmethod, htarget, hversion, herror, hplace⟩ :=
      parseRequestLines_parts line lines
    have hr := (free_parseRequestLine hparse).1 LF (notMem_popCR hline)
    obtain ⟨hpath, hhost⟩ := @free_normaliseTarget LF (by decide) q (hq ▸ hr.target) (hq ▸ hr.host)
    have hheader : ∀ name v, (normaliseTarget q).header name = some v → LF ∉ v := by
      intro name v hv
      obtain ⟨host, path, hnormal⟩ := normaliseTarget_eq q
      rw [hnormal, hq] at hv
      exact free_fold (by decide +kernel) (free_headerFields hlines) hv
    refine ⟨⟨hmethod ▸ hr.method, htarget ▸ hr.target, hversion ▸ hr.version, ?_, ?_⟩, herror⟩
    · rcases hplace with ⟨hnil, -⟩ | ⟨heq, -⟩
      · simp [hnil]
      · exact heq ▸ hpath
    · rcases hplace with ⟨-, hnil⟩ | ⟨-, heq⟩
      · simp [hnil]
      · exact heq ▸ free_takeHost hhost hheader

/-- No field of a request that a log line repeats has a line feed, whether the request is valid or
not, and no message of an error. -/
theorem unbroken_parseRequest (raw : Bytes) :
    (parseRequest raw).Free LF ∧ LF ∉ (parseRequest raw).parseError := by
  unfold parseRequest
  split
  · have hincomplete : LF ∉ str "incomplete headers" := by decide +kernel
    refine ⟨?_, hincomplete⟩
    constructor <;> simp
  · rename_i hend _
    obtain ⟨hfree, herror⟩ := @unbroken_parseRequestLines (getlines (raw.take hend))
      fun l hl => Lib.Lines.notMem_of_mem_lines hl
    exact ⟨⟨hfree.method, hfree.target, hfree.version, hfree.path, hfree.host⟩, herror⟩

/-- The method and the path of a request have no space. -/
theorem space_parseRequest (raw : Bytes) :
    SP ∉ (parseRequest raw).method ∧ SP ∉ (parseRequest raw).path := by
  unfold parseRequest
  split
  · simp
  · rename_i hend _
    dsimp only
    cases getlines (raw.take hend) with
    | nil => simp [parseRequestLines]
    | cons line lines =>
      obtain ⟨r, q, s, hparse, hq, rfl, hmethod, -, -, -, hplace⟩ :=
        parseRequestLines_parts line lines
      obtain ⟨-, hsp, htarget, -⟩ := free_parseRequestLine hparse
      obtain ⟨method, target, version, error, rfl⟩ := parseRequestLine_eq hparse
      have hpath := (@free_normaliseTarget SP (by decide) q (hq ▸ htarget) (by simp [hq])).1
      refine ⟨hmethod ▸ hsp, ?_⟩
      rcases hplace with ⟨hnil, -⟩ | ⟨heq, -⟩
      · simp [hnil]
      · exact heq ▸ hpath

end ForwardProxy
