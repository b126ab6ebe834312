import ForwardProxy.Http.Chunked
import ForwardProxy.Http.RequestHead

/-!
# The body that a request declares

The `Content-Length` and `Transfer-Encoding` lines of a request declare how long its body is.
`expected_request_bytes` goes by what `strtol` reads from the joined `Content-Length` values alone,
and takes a request for one without a body where it reads nothing. So the length is the declared one
exactly where the lines are read as they are meant (`expected_declared_iff`).
-/

namespace ForwardProxy

/-- The fields of the header lines of a request. -/
def requestFields (raw : Bytes) : List (Bytes × Bytes) :=
  match findHeaderEnd raw with
  | none => []
  | some hend => headerFields (getlines (raw.take hend)).tail

/-- The end of the head that `find_header_end` finds. -/
def headEnd (raw : Bytes) : ℕ := (findHeaderEnd raw).getD 0

/-- The values of the `Content-Length` lines of a request. -/
def lengthValues (raw : Bytes) : List Bytes := valuesOf (str "content-length") (requestFields raw)

/-- The values of the `Transfer-Encoding` lines of a request. -/
def encodingValues (raw : Bytes) : List Bytes :=
  valuesOf (str "transfer-encoding") (requestFields raw)

/-! ## What is read -/

/-- The length that `strtol` reads from a value, to its end and in range. -/
def readLength (value : Bytes) : Option ℕ :=
  let v := strtol value
  if !v.erange && v.atEnd && decide (0 ≤ v.value) then some v.value.toNat else none

/-- The length that is read from the joined values of a request. -/
def lengthRead (raw : Bytes) : Option ℕ := (joinValues (lengthValues raw)).bind readLength

/-- A valid request takes up its head and the length that is read. -/
theorem expected_lengthRead {raw : Bytes} (hraw : raw.length < 2^63)
    (hvalid : (parseRequest raw).valid = true) :
    (parseRequest raw).headerBytes = headEnd raw ∧
      expectedRequestBytes (parseRequest raw) = headEnd raw + (lengthRead raw).getD 0 := by
  have hend := headerEnd_of_valid hvalid
  have hhead : headEnd raw = (parseRequest raw).headerBytes := by
    rw [headEnd, hend]
    rfl
  refine ⟨hhead.symm, ?_⟩
  rw [expectedRequestBytes_eq hraw (headerEnd_le_length hend), hhead]
  congr 1
  obtain ⟨hd, rest, e, r, host, keepAlive, hbytes, he, hline, hparse⟩ := parseRequest_valid hvalid
  -- The fields that are parsed are those of the head, up to its end.
  have hfields : requestFields raw = headerFields hd.lines := by
    unfold requestFields
    rw [he]
    rw [hbytes] at he ⊢
    dsimp only
    rw [hd.take_headerEnd rest he, hd.getlines_append]
    exact headerFields_append_blank hd.lines hd.popCR_blank _
  obtain ⟨_, _, _, _, hr⟩ := parseRequestLine_eq (Or.inl hline)
  -- Repeated lengths are joined before they are read.
  have hheader : ({ r with headers := (headerFields hd.lines).foldl Headers.fold ∅ } :
      Request).header (str "content-length") = joinValues (lengthValues raw) := by
    rw [Request.header, lookup_foldl_fold, AList.lookup_empty, foldl_joined, lengthValues, hfields]
  have hnone : r.contentLength = -1 := by rw [hr]
  rw [hparse, lengthRead]
  unfold takeContentLength
  rw [hheader]
  cases joinValues (lengthValues raw) with
  | none => simp [hnone]
  | some u =>
    dsimp only
    rw [Option.bind_some, readLength]
    split
    · rfl
    · simp [hnone]

/-! ## What is declared -/

/-- A `Transfer-Encoding` value names chunked. -/
def NamesChunked (raw : Bytes) : Prop :=
  ∃ te ∈ encodingValues raw, contains (toLower te) (str "chunked") = true

/-- The value is a decimal number. -/
def IsLength (v : Bytes) (n : ℕ) : Prop := v ≠ [] ∧ v.all isDigit = true ∧ decimalValue v = n

/-- The header lines declare a body of `n` bytes: that of the chunked body after the head, or the
one number that all `Content-Length` lines give. -/
def Declares (raw : Bytes) (n : ℕ) : Prop :=
  NamesChunked raw ∧ ChunkedEndsAt raw (headEnd raw) (headEnd raw + n) ∨
    ¬NamesChunked raw ∧ lengthValues raw ≠ [] ∧ ∀ v ∈ lengthValues raw, IsLength v n

/-- Neither header line is there. -/
def Undeclared (raw : Bytes) : Prop := lengthValues raw = [] ∧ encodingValues raw = []

/-- The lines are read as they are meant: there is one decimal number in range, or there are several
that are all zero, or the number read is by chance the length of the chunked body. -/
def ReadAsDeclared (raw : Bytes) : Prop :=
  ¬NamesChunked raw ∧ (∃ v n, lengthValues raw = [v] ∧ IsLength v n ∧ (n : ℤ) ≤ LONG_MAX) ∨
    ¬NamesChunked raw ∧ lengthValues raw ≠ [] ∧ (∀ v ∈ lengthValues raw, IsLength v 0) ∨
    NamesChunked raw ∧ ∃ n, lengthRead raw = some n ∧
      ChunkedEndsAt raw (headEnd raw) (headEnd raw + n)

/-- A length that is written is read, if it is in range. -/
theorem readLength_of_isLength {v : Bytes} {n : ℕ} (h : IsLength v n) :
    readLength v = if (n : ℤ) ≤ LONG_MAX then some n else none := by
  obtain ⟨hne, hdigits, rfl⟩ := h
  have hread := strtol_digits_append hne hdigits (t := []) (by simp)
  rw [List.append_nil] at hread
  unfold readLength
  rw [hread]
  by_cases hrange : (decimalValue v : ℤ) ≤ LONG_MAX
  · rw [if_neg (Int.not_lt.mpr hrange), if_pos hrange]
    simp [StrtolResult.atEnd]
  · rw [if_pos (Int.not_le.mp hrange), if_neg hrange]
    simp

/-- A single number is read where it is in range. -/
theorem lengthRead_of_one {raw v : Bytes} {n : ℕ} (hvalues : lengthValues raw = [v])
    (hv : IsLength v n) : lengthRead raw = if (n : ℤ) ≤ LONG_MAX then some n else none := by
  rw [lengthRead, hvalues, joinValues, if_neg (by simp), List.intercalate_singleton,
    Option.bind_some, readLength_of_isLength hv]

/-- Nothing is read from several numbers that are joined: `strtol` stops at the first comma. -/
theorem lengthRead_of_several {raw v w : Bytes} {vs : List Bytes} {n : ℕ}
    (hvalues : lengthValues raw = v :: w :: vs) (hv : IsLength v n) : lengthRead raw = none := by
  obtain ⟨hne, hdigits, -⟩ := hv
  have hcomma : str ", " = [44, SP] := by decide
  have hnul : (44 : Byte) ≠ NUL := by decide
  obtain ⟨t, ht⟩ : ∃ t, List.intercalate (str ", ") (v :: w :: vs) = v ++ 44 :: t :=
    ⟨SP :: List.intercalate (str ", ") (w :: vs), by simp [List.intercalate_cons_cons, hcomma]⟩
  have hread := strtol_digits_append hne hdigits (t := 44 :: t) (by
    rintro c ⟨⟩
    decide)
  have hend : (strtol (v ++ 44 :: t)).atEnd = false := by
    rw [hread]
    split
    · simp [StrtolResult.atEnd, hnul]
    · simp [StrtolResult.atEnd, hnul]
  rw [lengthRead, hvalues, joinValues, if_neg (by simp), ht, Option.bind_some, readLength]
  simp [hend]

/-- Of values that all give one number the number is read where it is a single one in range, and
where it is zero. -/
theorem lengthRead_getD_iff {raw : Bytes} {n : ℕ} (hne : lengthValues raw ≠ [])
    (hall : ∀ v ∈ lengthValues raw, IsLength v n) : (lengthRead raw).getD 0 = n ↔
      (∃ v, lengthValues raw = [v]) ∧ (n : ℤ) ≤ LONG_MAX ∨ n = 0 := by
  obtain ⟨v, vs, hvalues⟩ := List.exists_cons_of_ne_nil hne
  have hv := hall v (by simp [hvalues])
  cases vs with
  | nil =>
    have hzero : (0 : ℤ) ≤ LONG_MAX := by decide
    rw [lengthRead_of_one hvalues hv, hvalues]
    split
    · rename_i hrange
      simp [hrange]
    · rename_i hrange
      simp [hrange, eq_comm]
  | cons w vs =>
    rw [lengthRead_of_several hvalues hv, hvalues]
    simp [eq_comm]

/-- The length of a valid request is the one that its header lines declare, if they are there,
exactly where they are read as they are meant. -/
theorem expected_declared_iff (raw : Bytes) (hraw : raw.length < 2^63)
    (hvalid : (parseRequest raw).valid = true) :
    (Undeclared raw ∨ ∃ n, Declares raw n ∧
        expectedRequestBytes (parseRequest raw) = (parseRequest raw).headerBytes + n) ↔
      Undeclared raw ∨ ReadAsDeclared raw := by
  obtain ⟨hhead, hexpected⟩ := expected_lengthRead hraw hvalid
  refine or_congr_right ?_
  simp only [hexpected, hhead, Nat.add_left_cancel_iff]
  constructor
  · rintro ⟨n, ⟨hchunked, hends⟩ | ⟨hchunked, hne, hall⟩, hlength⟩
    · -- A chunked body is not empty, so a length was read.
      have hpos := hends.bounds
      refine Or.inr (Or.inr ⟨hchunked, n, ?_, hends⟩)
      cases hread : lengthRead raw with
      | none =>
        rw [hread, Option.getD_none] at hlength
        omega
      | some k =>
        rw [hread, Option.getD_some] at hlength
        rw [hlength]
    · rcases (lengthRead_getD_iff hne hall).mp hlength with ⟨⟨v, hvalues⟩, hrange⟩ | rfl
      · exact Or.inl ⟨hchunked, v, n, hvalues, hall v (by simp [hvalues]), hrange⟩
      · exact Or.inr (Or.inl ⟨hchunked, hne, hall⟩)
  · rintro (⟨hchunked, v, n, hvalues, hv, hrange⟩ | ⟨hchunked, hne, hall⟩ |
      ⟨hchunked, n, hread, hends⟩)
    · have hne : lengthValues raw ≠ [] := by simp [hvalues]
      have hall : ∀ v ∈ lengthValues raw, IsLength v n := by
        rw [hvalues]
        exact List.forall_mem_singleton.mpr hv
      exact ⟨n, Or.inr ⟨hchunked, hne, hall⟩,
        (lengthRead_getD_iff hne hall).mpr (Or.inl ⟨⟨v, hvalues⟩, hrange⟩)⟩
    · exact ⟨0, Or.inr ⟨hchunked, hne, hall⟩, (lengthRead_getD_iff hne hall).mpr (Or.inr rfl)⟩
    · exact ⟨n, Or.inl ⟨hchunked, hends⟩, by rw [hread]; rfl⟩

/-- A `POST` with a length of three. -/
theorem expected_declared_post :
    let raw := str "POST / HTTP/1.1\r\nHost: h\r\nContent-Length: 3\r\n\r\nabc"
    (Undeclared raw ∨ ∃ n, Declares raw n ∧
        expectedRequestBytes (parseRequest raw) = (parseRequest raw).headerBytes + n) ↔
      Undeclared raw ∨ ReadAsDeclared raw :=
  expected_declared_iff _ (by decide) (by decide)

/-- A chunked body is not seen: the request is taken to end with its head. -/
theorem expected_chunked_post :
    let raw := str "POST / HTTP/1.1\r\nHost: h\r\nTransfer-Encoding: chunked\r\n\r\n" ++
      str "5\r\nhello\r\n0\r\n\r\n"
    (parseRequest raw).valid = true ∧ chunkedBodyComplete raw (headEnd raw) = true ∧
      expectedRequestBytes (parseRequest raw) = (parseRequest raw).headerBytes ∧
      ¬(Undeclared raw ∨ ∃ n, Declares raw n ∧
        expectedRequestBytes (parseRequest raw) = (parseRequest raw).headerBytes + n) := by
  intro raw
  have hexpected : expectedRequestBytes (parseRequest raw) = (parseRequest raw).headerBytes := by
    decide +kernel
  have hchunked : NamesChunked raw := ⟨str "chunked", by decide +kernel, by decide⟩
  refine ⟨by decide +kernel, by decide +kernel, hexpected, ?_⟩
  rintro (⟨-, hnone⟩ | ⟨n, hdeclares, hlength⟩)
  · obtain ⟨te, hte, -⟩ := hchunked
    rw [hnone] at hte
    cases hte
  · -- A chunked body is not empty.
    rcases hdeclares with ⟨-, hends⟩ | ⟨hnot, -⟩
    · have := hends.bounds
      omega
    · exact hnot hchunked

end ForwardProxy
