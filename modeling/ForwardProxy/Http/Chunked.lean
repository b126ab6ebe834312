import ForwardProxy.Http.Response

/-!
# Where a chunked body ends

`ChunkedEndsAt raw pos fin` says that the chunks that start at `pos` end at `fin`, just past the `CR
LF` that closes the terminal chunk. `chunked_body_complete` is true exactly where there is such an
end (`chunkedBodyComplete_iff`), the end is unique, and it is the same in any string that has the
same bytes up to it (`chunkedEndsAt_take_iff`).
-/

namespace ForwardProxy

/-- The trailer lines from `p` on, up to and with the blank line, end at `fin`. -/
inductive TrailersEndAt (raw : Bytes) : ℕ → ℕ → Prop
  | blank {p : ℕ} (hline : findFrom raw [CR, LF] p = some p) : TrailersEndAt raw p (p + 2)
  | line {p e fin : ℕ} (hline : findFrom raw [CR, LF] p = some e) (hne : e ≠ p)
      (h : TrailersEndAt raw (e + 2) fin) : TrailersEndAt raw p fin

/-- The chunks from `pos` on, up to and with the terminal one, end at `fin`. -/
inductive ChunkedEndsAt (raw : Bytes) : ℕ → ℕ → Prop
  | last {pos lineEnd fin : ℕ} (hline : findFrom raw [CR, LF] pos = some lineEnd)
      (hsize : chunkSize raw pos lineEnd = some 0) (h : TrailersEndAt raw (lineEnd + 2) fin) :
      ChunkedEndsAt raw pos fin
  | chunk {pos lineEnd size fin : ℕ} (hline : findFrom raw [CR, LF] pos = some lineEnd)
      (hsize : chunkSize raw pos lineEnd = some size) (hpos : size ≠ 0)
      (h : ChunkedEndsAt raw (lineEnd + 2 + size + 2) fin) : ChunkedEndsAt raw pos fin

/-- A line found ends inside the string. -/
theorem findFrom_crlf_bounds {raw : Bytes} {pos e : ℕ} (h : findFrom raw [CR, LF] pos = some e) :
    pos ≤ e ∧ e + 2 ≤ raw.length := by
  obtain ⟨hle, hocc, -⟩ := findFrom_eq_some_iff.mp h
  exact ⟨hle, hocc.end_le (by simp)⟩

/-- The end of the trailers lies past their start and inside the bytes. -/
theorem TrailersEndAt.bounds {raw : Bytes} {p fin : ℕ} (h : TrailersEndAt raw p fin) :
    p + 2 ≤ fin ∧ fin ≤ raw.length := by
  induction h with
  | blank hline => exact ⟨by omega, (findFrom_crlf_bounds hline).2⟩
  | line hline hne h ih =>
    have := findFrom_crlf_bounds hline
    omega

/-- The end of a chunked body lies past its start and inside the bytes. -/
theorem ChunkedEndsAt.bounds {raw : Bytes} {pos fin : ℕ} (h : ChunkedEndsAt raw pos fin) :
    pos < fin ∧ fin ≤ raw.length := by
  induction h with
  | last hline hsize h =>
    have := findFrom_crlf_bounds hline
    have := h.bounds
    omega
  | chunk hline hsize hpos h ih =>
    have := findFrom_crlf_bounds hline
    omega

/-- What trailers are is settled by their first line: it is blank, or they go on after it. -/
theorem trailersEndAt_iff {raw : Bytes} {p fin : ℕ} :
    TrailersEndAt raw p fin ↔ ∃ e, findFrom raw [CR, LF] p = some e ∧
      if e = p then fin = p + 2 else TrailersEndAt raw (e + 2) fin := by
  constructor
  · intro h
    cases h with
    | blank hline => exact ⟨p, hline, by rw [if_pos rfl]⟩
    | @line _ e _ hline hne hrest => exact ⟨e, hline, by rwa [if_neg hne]⟩
  · rintro ⟨e, hline, h⟩
    split at h
    · rename_i heq
      subst heq h
      exact .blank hline
    · rename_i hne
      exact .line hline hne h

/-- What chunks are is settled by the size line of the first: it is the terminal one, or they go on
after it. -/
theorem chunkedEndsAt_iff {raw : Bytes} {pos fin : ℕ} :
    ChunkedEndsAt raw pos fin ↔ ∃ lineEnd size, findFrom raw [CR, LF] pos = some lineEnd ∧
      chunkSize raw pos lineEnd = some size ∧
      if size = 0 then TrailersEndAt raw (lineEnd + 2) fin
      else ChunkedEndsAt raw (lineEnd + 2 + size + 2) fin := by
  constructor
  · intro h
    cases h with
    | last hline hsize hrest => exact ⟨_, 0, hline, hsize, by rwa [if_pos rfl]⟩
    | chunk hline hsize hpos hrest => exact ⟨_, _, hline, hsize, by rwa [if_neg hpos]⟩
  · rintro ⟨lineEnd, size, hline, hsize, h⟩
    split at h
    · rename_i heq
      subst heq
      exact .last hline hsize h
    · rename_i hpos
      exact .chunk hline hsize hpos h

/-- One turn of the walk, where a size line is found and its size read: the trailers follow a size
of zero, and the next chunk any other. -/
theorem chunkedEndsAt_of_line {raw : Bytes} {pos lineEnd size : ℕ}
    (hline : findFrom raw [CR, LF] pos = some lineEnd)
    (hsize : chunkSize raw pos lineEnd = some size)
    (fin : ℕ) : ChunkedEndsAt raw pos fin ↔ if size = 0 then TrailersEndAt raw (lineEnd + 2) fin
      else ChunkedEndsAt raw (lineEnd + 2 + size + 2) fin := by
  rw [chunkedEndsAt_iff, hline]
  simp [hsize]

/-! ## The walk -/

/-- A hexadecimal digit is below 16. -/
theorem hexDigit_lt {c : Byte} {v : ℕ} (h : hexDigit c = some v) : v < 16 := by
  unfold hexDigit at h
  simp only [UInt8.le_iff_toNat_le, UInt8.reduceToNat] at h
  split at h
  · cases h
    omega
  · split at h
    · cases h
      omega
    · split at h
      · cases h
        omega
      · cases h

/-- The walk over a size never passes `2^40`. -/
theorem chunkSizeLoop_le {s : Bytes} {size n : ℕ} {anyDigit b : Bool} (hsize : size ≤ 2^40)
    (h : chunkSizeLoop s size anyDigit = some (n, b)) : n ≤ 2^40 := by
  induction s generalizing size anyDigit with
  | nil =>
    cases h
    exact hsize
  | cons c s ih =>
    rw [chunkSizeLoop] at h
    split at h
    · dsimp only at h
      split at h
      · cases h
      · exact ih (by omega) h
    · split at h
      · exact ih hsize h
      · cases h

/-- A size is at most `2^40`, so that no sum of positions wraps. -/
theorem chunkSize_le {raw : Bytes} {pos lineEnd size : ℕ}
    (h : chunkSize raw pos lineEnd = some size) : size ≤ 2^40 := by
  unfold chunkSize at h
  split at h
  · rename_i heq
    cases h
    exact chunkSizeLoop_le (by simp) heq
  · cases h

section Walk

variable {raw : Bytes} (hraw : raw.length < 2^63)
include hraw

/-- The trailer loop finds a blank line exactly where the trailers end. -/
theorem trailersComplete_iff {fuel p : ℕ} (hfuel : raw.length < p + fuel) :
    trailersComplete fuel raw p = true ↔ ∃ fin, TrailersEndAt raw p fin := by
  induction fuel generalizing p with
  | zero =>
    -- Without fuel the position is past the end, where no trailers are.
    simp only [trailersComplete, Bool.false_eq_true, false_iff, not_exists]
    intro fin h
    have := h.bounds
    omega
  | succ fuel ih =>
    rw [trailersComplete]
    simp only [trailersEndAt_iff (p := p)]
    cases hline : findFrom raw [CR, LF] p with
    | none => simp
    | some e =>
      have hb := findFrom_crlf_bounds hline
      have hwrap : wrap64 (e + 2) = e + 2 := Nat.mod_eq_of_lt (by omega)
      by_cases he : e = p
      · simp [he]
      · simp only [Option.some.injEq, exists_eq_left', he, if_false, hwrap]
        exact ih (by omega)

/-- The chunk loop is true exactly where the chunks end. -/
theorem chunksComplete_iff {fuel pos : ℕ} (hfuel : raw.length < pos + fuel) :
    chunksComplete fuel raw pos = true ↔ ∃ fin, ChunkedEndsAt raw pos fin := by
  induction fuel generalizing pos with
  | zero =>
    simp only [chunksComplete, Bool.false_eq_true, false_iff, not_exists]
    intro fin h
    have := h.bounds
    omega
  | succ fuel ih =>
    rw [chunksComplete]
    have hinv := fun fin => @chunkedEndsAt_iff raw pos fin
    cases hline : findFrom raw [CR, LF] pos with
    | none => simp [hinv, hline]
    | some lineEnd =>
      have hb := findFrom_crlf_bounds hline
      cases hsize : chunkSize raw pos lineEnd with
      | none => simp [hinv, hline, hsize]
      | some size =>
        -- No sum of the walk wraps: the line ends inside the string, and a size is at most `2^40`.
        have hle := chunkSize_le hsize
        simp only [hsize, chunkedEndsAt_of_line hline hsize]
        cases size with
        | zero =>
          have hwrap : wrap64 (lineEnd + 2) = lineEnd + 2 := Nat.mod_eq_of_lt (by omega)
          simp only [hwrap, if_true]
          exact trailersComplete_iff hraw (by omega)
        | succ size =>
          have hwrap : wrap64 (lineEnd + 2 + (size + 1) + 2) = lineEnd + 2 + (size + 1) + 2 :=
            Nat.mod_eq_of_lt (by omega)
          simp only [hwrap, Nat.succ_ne_zero, if_false]
          split
          · -- The source gives up on a chunk that goes past the end, where no chunks end.
            rename_i hpast
            simp only [Bool.false_eq_true, false_iff, not_exists]
            intro fin h
            have := h.bounds
            omega
          · exact ih (by omega)

/-- The function finds a body complete exactly where the walk has an end. -/
theorem chunkedBodyComplete_iff (bodyStart : ℕ) :
    chunkedBodyComplete raw bodyStart = true ↔ ∃ fin, ChunkedEndsAt raw bodyStart fin :=
  chunksComplete_iff hraw (by omega)

end Walk

/-! ## The end is settled by the bytes up to it -/

/-- The size ends before its line does. -/
theorem sizeEnd_le (raw : Bytes) (pos lineEnd : ℕ) : sizeEnd raw pos lineEnd ≤ lineEnd := by
  unfold sizeEnd
  split
  · split <;> omega
  · exact le_refl _

/-- An extension past the cut would be past the line. -/
theorem sizeEnd_take {raw : Bytes} {n pos lineEnd : ℕ} (h : lineEnd < n) :
    sizeEnd (raw.take n) pos lineEnd = sizeEnd raw pos lineEnd := by
  have htake := fun e => @findFrom_take_iff raw (str ";") (by decide) n pos e
  unfold sizeEnd
  cases hcut : findFrom (raw.take n) (str ";") pos with
  | some e => rw [((htake e).mp hcut).1]
  | none =>
    cases hfull : findFrom raw (str ";") pos with
    | none => rfl
    | some e =>
      have hpast : n < e + (str ";").length := by
        by_contra hle
        rw [(htake e).mpr ⟨hfull, by omega⟩] at hcut
        cases hcut
      have hlen : (str ";").length = 1 := rfl
      simp only
      split <;> omega

/-- The size on a line is read off the bytes up to the end of the line. -/
theorem chunkSize_take {raw : Bytes} {n pos lineEnd : ℕ} (h : lineEnd < n) :
    chunkSize (raw.take n) pos lineEnd = chunkSize raw pos lineEnd := by
  have hle := sizeEnd_le raw pos lineEnd
  unfold chunkSize
  rw [sizeEnd_take h, List.drop_take, List.take_take, min_eq_left (by omega)]

/-- The trailers end at the same place in every string with the same bytes up to there. -/
theorem trailersEndAt_take_iff {raw : Bytes} {n p fin : ℕ} :
    TrailersEndAt (raw.take n) p fin ↔ TrailersEndAt raw p fin ∧ fin ≤ n := by
  have htake := fun p e => @findFrom_take_iff raw [CR, LF] (by simp) n p e
  constructor
  · intro h
    induction h with
    | blank hline =>
      obtain ⟨hline, hle⟩ := (htake _ _).mp hline
      exact ⟨.blank hline, hle⟩
    | line hline hne h ih => exact ⟨.line ((htake _ _).mp hline).1 hne ih.1, ih.2⟩
  · rintro ⟨h, hle⟩
    induction h with
    | blank hline => exact .blank ((htake _ _).mpr ⟨hline, hle⟩)
    | line hline hne h ih =>
      have := h.bounds
      exact .line ((htake _ _).mpr ⟨hline, by simp only [List.length_cons, List.length_nil]; omega⟩)
        hne (ih hle)

/-- The chunks end at the same place in every string with the same bytes up to there. -/
theorem chunkedEndsAt_take_iff {raw : Bytes} {n pos fin : ℕ} :
    ChunkedEndsAt (raw.take n) pos fin ↔ ChunkedEndsAt raw pos fin ∧ fin ≤ n := by
  have htake := fun p e => @findFrom_take_iff raw [CR, LF] (by simp) n p e
  constructor
  · intro h
    induction h with
    | last hline hsize h =>
      obtain ⟨hline, hle⟩ := (htake _ _).mp hline
      simp only [List.length_cons, List.length_nil] at hle
      rw [chunkSize_take (by omega)] at hsize
      obtain ⟨h, hfin⟩ := trailersEndAt_take_iff.mp h
      exact ⟨.last hline hsize h, hfin⟩
    | chunk hline hsize hpos h ih =>
      obtain ⟨hline, hle⟩ := (htake _ _).mp hline
      simp only [List.length_cons, List.length_nil] at hle
      rw [chunkSize_take (by omega)] at hsize
      exact ⟨.chunk hline hsize hpos ih.1, ih.2⟩
  · rintro ⟨h, hle⟩
    induction h with
    | last hline hsize h =>
      have := h.bounds
      refine .last ((htake _ _).mpr ⟨hline, ?_⟩) ?_ (trailersEndAt_take_iff.mpr ⟨h, hle⟩)
      · simp only [List.length_cons, List.length_nil]
        omega
      · rwa [chunkSize_take (by omega)]
    | chunk hline hsize hpos h ih =>
      have := h.bounds
      refine .chunk ((htake _ _).mpr ⟨hline, ?_⟩) ?_ hpos (ih hle)
      · simp only [List.length_cons, List.length_nil]
        omega
      · rwa [chunkSize_take (by omega)]

/-- The trailers end in at most one place. -/
theorem TrailersEndAt.unique {raw : Bytes} {p fin fin' : ℕ} (h : TrailersEndAt raw p fin)
    (h' : TrailersEndAt raw p fin') : fin = fin' := by
  induction h with
  | blank hline =>
    rw [trailersEndAt_iff, hline] at h'
    simpa [eq_comm] using h'
  | line hline hne h ih =>
    rw [trailersEndAt_iff, hline] at h'
    apply ih
    simpa [hne] using h'

/-- Chunks end in one place. -/
theorem ChunkedEndsAt.unique {raw : Bytes} {pos fin fin' : ℕ} (h : ChunkedEndsAt raw pos fin)
    (h' : ChunkedEndsAt raw pos fin') : fin = fin' := by
  induction h with
  | last hline hsize h =>
    rw [chunkedEndsAt_iff, hline] at h'
    apply h.unique
    simpa [hsize] using h'
  | chunk hline hsize hpos h ih =>
    rw [chunkedEndsAt_iff, hline] at h'
    apply ih
    simpa [hsize, hpos] using h'

end ForwardProxy
