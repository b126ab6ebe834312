import ForwardProxy.Http.Framing
import ForwardProxy.Http.Head

/-!
# Where `find_header_end` ends a head

`find_header_end` takes the first `CR LF CR LF` of the buffer, and the first `LF LF` only where
there is none. The `getline` loop stops at the first blank line in either line ending. The two agree
exactly where no blank line comes before the terminator found (`Head.length_le_headerEnd`), and what
is parsed is settled by the lines up to the first blank line in any case.
-/

namespace ForwardProxy

/-- Where the line ends whose end starts the terminator that `find_header_end` finds. -/
def terminator (buf : Bytes) : Option ℕ :=
  match find buf [CR, LF, CR, LF] with
  | some p => some (p + 1)
  | none => find buf [LF, LF]

/-- No blank line comes before the terminator that `find_header_end` finds. -/
def TerminatorFirst (buf : Bytes) : Prop := ∀ t, terminator buf = some t → ∀ i < t, ¬BlankAt buf i

/-- The end found is just past the blank line of the terminator. -/
theorem findHeaderEnd_eq_some {buf : Bytes} {e : ℕ} (h : findHeaderEnd buf = some e) :
    ∃ t, terminator buf = some t ∧ BlankAt buf t ∧
      (buf[t + 1]? = some CR ∧ e = t + 3 ∨ buf[t + 1]? = some LF ∧ e = t + 2) := by
  unfold findHeaderEnd at h
  unfold terminator
  cases hcrlf : find buf [CR, LF, CR, LF] with
  | some p =>
    rw [hcrlf] at h
    cases h
    have hocc := Lib.Search.find_occursAt hcrlf
    simp only [Lib.Search.occursAt_cons, Lib.Search.occursAt_nil, and_true] at hocc
    obtain ⟨-, h1, h2, h3⟩ := hocc
    exact ⟨p + 1, rfl, ⟨h1, Or.inr ⟨h2, h3⟩⟩, Or.inl ⟨h2, rfl⟩⟩
  | none =>
    rw [hcrlf] at h
    cases hlf : find buf [LF, LF] with
    | none => simp [hlf] at h
    | some p =>
      simp only [hlf, Option.some.injEq] at h
      have hocc := Lib.Search.find_occursAt hlf
      simp only [Lib.Search.occursAt_cons, Lib.Search.occursAt_nil, and_true] at hocc
      exact ⟨p, rfl, ⟨hocc.1, Or.inl hocc.2⟩, Or.inr ⟨hocc.2, h.symm⟩⟩

/-- Without the end of a line there is no end of a head. -/
theorem headerEnd_eq_none {buf : Bytes} (h : LF ∉ buf) : findHeaderEnd buf = none := by
  cases hend : findHeaderEnd buf with
  | none => rfl
  | some e =>
    obtain ⟨t, -, hblank, -⟩ := findHeaderEnd_eq_some hend
    exact absurd (List.mem_of_getElem? hblank.1) h

/-- A head ends no later than the end that `find_header_end` finds, and there exactly where no blank
line comes before the terminator. -/
theorem Head.length_le_headerEnd (hd : Head) (rest : Bytes) {e : ℕ}
    (h : findHeaderEnd (hd.bytes ++ rest) = some e) : hd.bytes.length ≤ e ∧
      (e = hd.bytes.length ↔ TerminatorFirst (hd.bytes ++ rest)) := by
  obtain ⟨t, hterm, hblank, hkind⟩ := findHeaderEnd_eq_some h
  have hle := hd.firstBlank_le rest hblank
  have hlen := hd.length_bytes_eq
  have hsucc := hd.getElem?_firstBlank_succ rest
  have hne : CR ≠ LF := by decide
  -- At the first blank line the kind of the terminator is the kind of the blank line.
  have hfirst : hd.firstBlank = t → e = hd.bytes.length := by
    rintro rfl
    rcases hkind with ⟨hcr, rfl⟩ | ⟨hlf, rfl⟩
    · rcases hd.blank_ok with hb | hb
      · rw [hsucc.mpr hb, Option.some.injEq] at hcr
        exact absurd hcr.symm hne
      · rw [hlen, hb]
        rfl
    · rw [hlen, hsucc.mp hlf]
      rfl
  have hblankLen : hd.blank.length ≤ 1 := by
    rcases hd.blank_ok with hb | hb <;> simp [hb]
  have hlater : hd.firstBlank < t → hd.bytes.length < e := by
    intro hlt
    rcases hkind with ⟨-, rfl⟩ | ⟨hlf, rfl⟩
    · omega
    · rcases hd.blank_ok with hb | hb
      · rw [hlen, hb]
        simp only [List.length_nil]
        omega
      · -- After a carriage return in the blank line the next line cannot end at once.
        have hcr : (hd.bytes ++ rest)[hd.firstBlank + 1]? ≠ some LF := by
          intro heq
          rw [hsucc.mp heq] at hb
          cases hb
        have hapart : t ≠ hd.firstBlank + 1 := by
          rintro rfl
          exact hcr hblank.1
        rw [hlen, hb]
        simp only [List.length_singleton]
        omega
  refine ⟨?_, fun he => ?_, fun hfree => ?_⟩
  · rcases Nat.lt_or_eq_of_le hle with hlt | heq
    · exact (hlater hlt).le
    · exact (hfirst heq).ge
  -- An earlier blank line would put the end found past that of the head.
  · intro t' ht' i hi hbi
    rw [hterm] at ht'
    cases ht'
    have := hd.firstBlank_le rest hbi
    have := hlater (by omega)
    omega
  -- The first blank line is not before the terminator, and so it is the terminator's.
  · refine hfirst (Nat.le_antisymm hle ?_)
    by_contra hlt
    exact hfree t hterm hd.firstBlank (by omega) (hd.blankAt_firstBlank rest)

/-- Where `find_header_end` finds an end, the buffer starts with a head. -/
theorem exists_head_of_headerEnd {buf : Bytes} {e : ℕ} (h : findHeaderEnd buf = some e) :
    ∃ hd : Head, ∃ rest, buf = hd.bytes ++ rest := by
  obtain ⟨t, -, hblank, -⟩ := findHeaderEnd_eq_some h
  exact exists_head hblank

/-- A head that was found is within the buffer. -/
theorem headerEnd_le_length {buf : Bytes} {e : ℕ} (h : findHeaderEnd buf = some e) :
    e ≤ buf.length := by
  unfold findHeaderEnd at h
  cases hcrlf : find buf [CR, LF, CR, LF] with
  | some p =>
    rw [hcrlf] at h
    cases h
    exact (Lib.Search.find_occursAt hcrlf).end_le (by simp)
  | none =>
    cases hlf : find buf [LF, LF] with
    | none => simp [hcrlf, hlf] at h
    | some p =>
      simp only [hcrlf, hlf, Option.some.injEq] at h
      have := (Lib.Search.find_occursAt hlf).end_le (by simp)
      simp only [List.length_cons, List.length_nil] at this
      omega

/-- The bytes before the end found start with the head. -/
theorem Head.take_headerEnd (hd : Head) (rest : Bytes) {e : ℕ}
    (h : findHeaderEnd (hd.bytes ++ rest) = some e) :
    (hd.bytes ++ rest).take e = hd.bytes ++ rest.take (e - hd.bytes.length) := by
  rw [List.take_append, List.take_of_length_le (hd.length_le_headerEnd rest h).1]

/-- A request is parsed from the lines of its head. -/
theorem parseRequest_head (hd : Head) (rest : Bytes) {e : ℕ}
    (h : findHeaderEnd (hd.bytes ++ rest) = some e) :
    parseRequest (hd.bytes ++ rest) =
      { parseRequestLines (hd.line :: hd.lines) with
        raw := hd.bytes ++ rest, headerBytes := e } := by
  rw [parseRequest, h]
  simp only
  rw [hd.take_headerEnd rest h, hd.getlines_append,
    parseRequestLines_append_blank _ _ hd.popCR_blank]

/-- A valid request comes of the head that the string starts with. -/
theorem parseRequest_valid {raw : Bytes} (h : (parseRequest raw).valid = true) :
    ∃ hd : Head, ∃ rest e r host keepAlive, raw = hd.bytes ++ rest ∧ findHeaderEnd raw = some e ∧
      parseRequestLine (popCR hd.line) = .ok r ∧ parseRequest raw =
        { takeContentLength { r with headers := (headerFields hd.lines).foldl Headers.fold ∅ } with
          path := (normaliseTarget r).path
          host := host
          keepAlive := keepAlive
          valid := true
          raw := raw
          headerBytes := e } := by
  cases hend : findHeaderEnd raw with
  | none => simp [parseRequest, hend] at h
  | some e =>
    obtain ⟨hd, rest, rfl⟩ := exists_head_of_headerEnd hend
    have hparse := parseRequest_head hd rest hend
    rw [hparse] at h
    obtain ⟨r, host, keepAlive, hline, hlines⟩ := parseRequestLines_valid h
    refine ⟨hd, rest, e, r, host, keepAlive, rfl, rfl, hline, ?_⟩
    rw [hparse, hlines]

/-- A response is parsed from the lines of its head. -/
theorem parseResponseHeaders_head (hd : Head) (rest : Bytes) {e : ℕ}
    (h : findHeaderEnd (hd.bytes ++ rest) = some e) :
    parseResponseHeaders (hd.bytes ++ rest) =
      { parseResponseLines (hd.line :: hd.lines) with headerBytes := e } := by
  rw [parseResponseHeaders, h]
  simp only
  rw [hd.take_headerEnd rest h, hd.getlines_append,
    parseResponseLines_append_blank _ _ hd.popCR_blank]

/-- A buffer with a `CR LF CR LF` has an end. -/
theorem headerEnd_isSome (u t : Bytes) : (findHeaderEnd (u ++ [CR, LF, CR, LF] ++ t)).isSome := by
  unfold findHeaderEnd
  cases hfind : find (u ++ [CR, LF, CR, LF] ++ t) [CR, LF, CR, LF] with
  | some p => rfl
  | none =>
    have hocc : Lib.Search.OccursAt [CR, LF, CR, LF] (u ++ [CR, LF, CR, LF] ++ t) u.length := by
      rw [List.append_assoc]
      exact (Lib.Search.occursAt_append_right _ u _ 0).mpr (List.prefix_append _ _)
    exact absurd hocc (Lib.Search.find_eq_none_iff.mp hfind _)

/-- A buffer in which an end is found still has one when more bytes come. -/
theorem headerEnd_append_isSome {buf : Bytes} (h : (findHeaderEnd buf).isSome) (more : Bytes) :
    (findHeaderEnd (buf ++ more)).isSome := by
  unfold findHeaderEnd at h ⊢
  cases hcrlf : find buf [CR, LF, CR, LF] with
  | some p =>
    rw [find, Lib.Search.find_append (by simp) hcrlf]
    rfl
  | none =>
    cases hlf : find buf [LF, LF] with
    | none => simp [hcrlf, hlf] at h
    | some p =>
      cases find (buf ++ more) [CR, LF, CR, LF] with
      | some q => rfl
      | none =>
        simp only
        rw [find, Lib.Search.find_append (by simp) hlf]
        rfl

/-- When more bytes come, the end found stays where it is, or moves from the end of an `LF LF` to
that of a `CR LF CR LF` that was not there as a whole. -/
theorem headerEnd_append {buf more : Bytes} {e e' : ℕ} (h : findHeaderEnd buf = some e)
    (h' : findHeaderEnd (buf ++ more) = some e') : e' = e ∨
      ∃ p q, find (buf ++ more) [LF, LF] = some p ∧ find (buf ++ more) [CR, LF, CR, LF] = some q ∧
        e = p + 2 ∧ e' = q + 4 ∧ buf.length < q + 4 := by
  unfold findHeaderEnd at h h'
  cases hcrlf : find buf [CR, LF, CR, LF] with
  | some p =>
    have hmore : find (buf ++ more) [CR, LF, CR, LF] = some p :=
      Lib.Search.find_append (by simp) hcrlf more
    simp only [hcrlf, hmore, Option.some.injEq] at h h'
    exact Or.inl (h'.symm.trans h)
  | none =>
    cases hlf : find buf [LF, LF] with
    | none => simp [hcrlf, hlf] at h
    | some p =>
      have hmore : find (buf ++ more) [LF, LF] = some p := Lib.Search.find_append (by simp) hlf more
      simp only [hcrlf, hlf, Option.some.injEq] at h
      cases hcrlf' : find (buf ++ more) [CR, LF, CR, LF] with
      | none =>
        simp only [hcrlf', hmore, Option.some.injEq] at h'
        exact Or.inl (h'.symm.trans h)
      | some q =>
        simp only [hcrlf', Option.some.injEq] at h'
        -- Had it been there as a whole, it would have been found before.
        have hlt : buf.length < q + 4 := by
          refine Lib.Search.lt_of_find_take_eq_none hcrlf' ?_
          rw [List.take_left]
          exact hcrlf
        exact Or.inr ⟨p, q, hmore, rfl, h.symm, h'.symm, hlt⟩

/-- An end is found in every initial part that reaches up to it. -/
theorem headerEnd_take {buf : Bytes} {e m : ℕ} (h : findHeaderEnd buf = some e) (hm : e ≤ m) :
    findHeaderEnd (buf.take m) = some e := by
  unfold findHeaderEnd at h ⊢
  cases hcrlf : find buf [CR, LF, CR, LF] with
  | some q =>
    simp only [hcrlf, Option.some.injEq] at h
    rw [find, Lib.Search.find_take hcrlf (by simpa using h.trans_le hm), ← h]
  | none =>
    -- What does not occur in the buffer does not occur in a part of it.
    have hnone : find (buf.take m) [CR, LF, CR, LF] = none := by
      rw [find, Lib.Search.find_eq_none_iff] at hcrlf ⊢
      intro i hi
      exact hcrlf i ((Lib.Search.occursAt_take (by simp) buf m i).mp hi).1
    cases hlf : find buf [LF, LF] with
    | none => simp [hcrlf, hlf] at h
    | some p =>
      simp only [hcrlf, hlf, Option.some.injEq] at h
      rw [hnone, find, Lib.Search.find_take hlf (by simpa using h.trans_le hm), ← h]

/-- When more bytes come, a request that was parsed stays as it is but for the end of its head. -/
theorem parseRequest_append {buf more : Bytes} {e e' : ℕ} (h : findHeaderEnd buf = some e)
    (h' : findHeaderEnd (buf ++ more) = some e') :
    parseRequest (buf ++ more) =
      { parseRequest buf with raw := buf ++ more, headerBytes := e' } := by
  obtain ⟨hd, rest, rfl⟩ := exists_head_of_headerEnd h
  rw [parseRequest_head hd rest h]
  rw [List.append_assoc] at h' ⊢
  rw [parseRequest_head hd (rest ++ more) h']

/-- The status of a response is that of its first line. -/
theorem status_parseResponseHeaders {line rest : Bytes} (hline : LF ∉ line)
    (hend : (findHeaderEnd (line ++ LF :: rest)).isSome) :
    (parseResponseHeaders (line ++ LF :: rest)).status = (statusCode (popCR line)).getD 0 := by
  obtain ⟨e, he⟩ := Option.isSome_iff_exists.mp hend
  obtain ⟨hd, rest', hraw⟩ := exists_head_of_headerEnd he
  have hlines := hd.getlines_append rest'
  rw [← hraw, getlines, Lib.Lines.lines_append_cons hline] at hlines
  obtain ⟨rfl, -⟩ := List.cons.inj hlines
  rw [hraw] at he ⊢
  rw [parseResponseHeaders_head hd rest' he]
  exact status_parseResponseLines hd.line hd.lines

/-! ## The length of a request -/

/-- The size of the head is where `find_header_end` has its end. -/
theorem headerBytes_parseRequest {buf : Bytes} {e : ℕ} (h : findHeaderEnd buf = some e) :
    (parseRequest buf).headerBytes = e := by
  rw [parseRequest, h]

/-- In a buffer of possible size the length of a request does not wrap. -/
theorem expectedRequestBytes_eq {raw : Bytes} (hraw : raw.length < 2^63)
    (hhead : (parseRequest raw).headerBytes ≤ raw.length) :
    expectedRequestBytes (parseRequest raw) =
      (parseRequest raw).headerBytes + (parseRequest raw).contentLength.toNat := by
  have hcl := contentLength_parseRequest raw
  unfold LONG_MAX at hcl
  unfold expectedRequestBytes wrap64
  split
  · exact Nat.mod_eq_of_lt (by omega)
  · omega

/-- A valid request has the end of its head found. -/
theorem headerEnd_of_valid {raw : Bytes} (h : (parseRequest raw).valid = true) :
    findHeaderEnd raw = some (parseRequest raw).headerBytes := by
  unfold parseRequest at h ⊢
  cases hend : findHeaderEnd raw with
  | none => simp [hend] at h
  | some e => rfl

/-- A request keeps the bytes that it was parsed from. -/
theorem raw_parseRequest (raw : Bytes) : (parseRequest raw).raw = raw := by
  unfold parseRequest
  split <;> rfl

end ForwardProxy
