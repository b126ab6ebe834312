import ForwardProxy.Http.Framing
import ForwardProxy.Http.HeaderEnd

/-!
# Heads with lines that end in `CR LF`

A `CrlfHead` is a first line and header lines as they are written, without their line endings.
`find_header_end` finds the end of its text, whatever comes after it (`findHeaderEnd_text`), and no
end before all of it is there (`findHeaderEnd_prefix`). The parsers read its lines back, those of a
request with three words in its first line (`parseRequest_words`), and those of a response with a
status in it (`parseResponse_status`).
-/

namespace ForwardProxy

/-- A first line, and header lines that are not empty. -/
structure CrlfHead where
  line : Bytes
  lines : List Bytes
  line_ok : LF ∉ line
  lines_ok : ∀ l ∈ lines, l ≠ [] ∧ LF ∉ l

namespace CrlfHead

/-- The head as it is written. -/
def text (h : CrlfHead) : Bytes :=
  h.line ++ str "\r\n" ++ h.lines.flatMap (· ++ str "\r\n") ++ str "\r\n"

/-- The fields of the header lines. -/
def fields (h : CrlfHead) : List (Bytes × Bytes) := h.lines.filterMap headerField

/-- The head that the `getline` loops read. -/
def head (h : CrlfHead) : Head where
  line := h.line ++ [CR]
  lines := h.lines.map (· ++ [CR])
  blank := [CR]
  line_ok := by
    have hcr : LF ≠ CR := by decide
    simp [h.line_ok, hcr]
  lines_ok := by
    intro l hl
    obtain ⟨l', hl', rfl⟩ := List.mem_map.mp hl
    obtain ⟨hne, hlf⟩ := h.lines_ok l' hl'
    have hcr : LF ≠ CR := by decide
    refine ⟨by simp [hlf, hcr], ?_⟩
    rw [popCR_append]
    exact hne
  blank_ok := Head.blank_cr

/-- The bytes of the head are its text. -/
theorem bytes_head (h : CrlfHead) : h.head.bytes = h.text := by
  have hcrlf : str "\r\n" = [CR, LF] := by decide
  unfold Head.bytes text head Lib.Lines.unlines
  simp [hcrlf, List.flatMap_map]

/-- The text ends in `CR LF CR LF`. -/
theorem exists_text (h : CrlfHead) : ∃ s, h.text = s ++ [CR, LF, CR, LF] := by
  have hcrlf : str "\r\n" = [CR, LF] := by decide
  unfold text
  rcases List.eq_nil_or_concat h.lines with hlines | ⟨ls, l, hlines⟩
  · exact ⟨h.line, by simp [hlines, hcrlf]⟩
  · exact ⟨h.line ++ [CR, LF] ++ ls.flatMap (· ++ [CR, LF]) ++ l, by simp [hlines, hcrlf]⟩

/-! ## Where the head ends -/

/-- The end of the head is found, whatever comes after it. -/
theorem findHeaderEnd_text (h : CrlfHead) (rest : Bytes) :
    findHeaderEnd (h.text ++ rest) = some h.text.length := by
  obtain ⟨s, hs⟩ := h.exists_text
  have hlen : h.text.length = s.length + 4 := by
    rw [hs, List.length_append]
    rfl
  have hfind : find (h.text ++ rest) [CR, LF, CR, LF] = some s.length := by
    refine Lib.Search.find_eq_some_iff.mpr ⟨?_, fun i hi hocc => ?_⟩
    · rw [hs, List.append_assoc]
      exact (Lib.Search.occursAt_append_right _ s _ 0).mpr (List.prefix_append _ _)
    · -- A `CR LF CR LF` holds a blank line, which comes no earlier than that of the head.
      simp only [Lib.Search.occursAt_cons, Lib.Search.occursAt_nil, and_true] at hocc
      obtain ⟨-, h1, h2, h3⟩ := hocc
      rw [← h.bytes_head] at h1 h2 h3 hlen
      have hle : h.head.firstBlank ≤ i + 1 := h.head.firstBlank_le rest ⟨h1, Or.inr ⟨h2, h3⟩⟩
      have hbytes := h.head.length_bytes_eq
      have hblank : h.head.blank.length = 1 := rfl
      omega
  rw [findHeaderEnd, hfind, hlen]

/-- No end is found before the head is there. -/
theorem findHeaderEnd_prefix (h : CrlfHead) {rest buf more : Bytes}
    (heq : h.text ++ rest = buf ++ more) (hlt : buf.length < h.text.length) :
    findHeaderEnd buf = none := by
  cases hend : findHeaderEnd buf with
  | none => rfl
  | some e =>
    obtain ⟨hd, rest', rfl⟩ := exists_head_of_headerEnd hend
    rw [← h.bytes_head, List.append_assoc] at heq
    -- An end found would be past a head, which is this head.
    have hsame := Head.length_bytes_unique heq
    rw [h.bytes_head] at hsame
    rw [List.length_append] at hlt
    omega

/-- The fields of the header lines are read back. -/
theorem headerFields_lines {lines : List Bytes} (h : ∀ l ∈ lines, l ≠ []) :
    headerFields (lines.map (· ++ [CR])) = lines.filterMap headerField := by
  induction lines with
  | nil => rfl
  | cons l lines ih =>
    have hl : l ≠ [] := h l (by simp)
    rw [List.map_cons, headerFields, popCR_append]
    simp only [if_neg hl]
    rw [ih fun l' hl' => h l' (by simp [hl'])]
    cases hfield : headerField l <;> simp [hfield]

/-- The fields of the head are those that were written. -/
theorem headerFields_head (h : CrlfHead) : headerFields h.head.lines = h.fields :=
  headerFields_lines fun l hl => (h.lines_ok l hl).1

/-! ## Requests -/

end CrlfHead

/-- A request line of three words is read back. The third may hold further spaces. -/
theorem parseRequestLine_words {method target version : Bytes}
    (hmethod : method ≠ [] ∧ SP ∉ method) (htarget : target ≠ [] ∧ SP ∉ target)
    (hversion : version.take 5 = str "HTTP/" ∧ trim version = version) :
    parseRequestLine (method ++ SP :: target ++ SP :: version) =
      .ok { method := method, target := target, version := version } := by
  obtain ⟨hmethod, hmethodSP⟩ := hmethod
  obtain ⟨htarget, htargetSP⟩ := htarget
  obtain ⟨hversion, htrim⟩ := hversion
  set line := method ++ SP :: target ++ SP :: version with hdef
  have hline : line = method ++ SP :: (target ++ SP :: version) := by
    simp [hdef]
  have hsp1 : find line [SP] = some method.length := by
    rw [hline]
    exact Lib.Search.find_singleton_append hmethodSP _
  have hdrop1 : line.drop (method.length + 1) = target ++ SP :: version := by
    rw [hline]
    simp
  have hsp2 : findFrom line [SP] (method.length + 1) =
      some (method.length + 1 + target.length) := by
    rw [findFrom, hdrop1, find, Lib.Search.find_singleton_append htargetSP]
    rfl
  have hdrop2 : line.drop (method.length + 1 + target.length + 1) = version := by
    rw [Nat.add_assoc, ← List.drop_drop, hdrop1]
    simp
  have htake1 : line.take method.length = method := by
    rw [hline]
    simp
  have hlength : method.length + 1 + target.length - method.length - 1 = target.length := by
    omega
  have htake2 : (target ++ SP :: version).take target.length = target := by simp
  unfold parseRequestLine
  simp only [hsp1, hsp2, hdrop1, hdrop2, htake1, hlength, htake2, htrim]
  rw [if_neg (by simp [hmethod, htarget]), if_neg (by simp [hversion])]

/-- The last check of `parse_request`: a request without a host is not valid. -/
def checkHost (r : Request) : Request :=
  if r.host = [] then { r with parseError := str "missing Host header" }
  else { r with valid := true }

namespace CrlfHead

/-- A request is read back from a buffer that starts with its head. -/
theorem parseRequest_words (h : CrlfHead) {method target version : Bytes}
    (hline : h.line = method ++ SP :: target ++ SP :: version)
    (hmethod : method ≠ [] ∧ SP ∉ method) (htarget : target ≠ [] ∧ SP ∉ target)
    (hversion : version.take 5 = str "HTTP/" ∧ trim version = version) (rest : Bytes) :
    parseRequest (h.text ++ rest) =
      { checkHost (takeKeepAlive (takeContentLength (takeHost (normaliseTarget {
          method := method
          target := target
          version := version
          headers := h.fields.foldl Headers.fold ∅ })))) with
        raw := h.text ++ rest
        headerBytes := h.text.length } := by
  have hend := h.findHeaderEnd_text rest
  have hparse := parseRequest_head h.head rest (h.bytes_head.symm ▸ hend)
  have hfields := h.headerFields_head
  have hwords := parseRequestLine_words hmethod htarget hversion
  rw [← hline] at hwords
  rw [h.bytes_head] at hparse
  rw [hparse]
  have hhead : h.head.line = h.line ++ [CR] := rfl
  simp only [hhead, parseRequestLines, popCR_append, hwords, hfields]
  rfl

/-! ## Responses -/

/-- A response with a status in range is read back from a buffer that starts with its head. -/
theorem parseResponse_status (h : CrlfHead) {status : ℤ} (hstatus : statusCode h.line = some status)
    (hrange : 100 ≤ status ∧ status ≤ 599) (rest : Bytes) :
    parseResponseHeaders (h.text ++ rest) =
      { takeFraming { status := status, headers := h.fields.foldl Headers.assign ∅ } with
        valid := true
        headerBytes := h.text.length } := by
  have hend := h.findHeaderEnd_text rest
  have hparse := parseResponseHeaders_head h.head rest (h.bytes_head.symm ▸ hend)
  have hfields := h.headerFields_head
  have hhead : h.head.line = h.line ++ [CR] := rfl
  have hin : ¬(status < 100 ∨ 599 < status) := by omega
  rw [h.bytes_head] at hparse
  rw [hparse]
  simp only [hhead, parseResponseLines, popCR_append, hstatus, hfields, if_neg hin]

end CrlfHead

end ForwardProxy
