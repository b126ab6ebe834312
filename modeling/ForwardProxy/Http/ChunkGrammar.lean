import ForwardProxy.Http.Chunked

/-!
# The grammar of a chunked body

A `ChunkedBody` is a chunked body as it is documented: chunks, each a size in hexadecimal digits
with an optional extension, a `CR LF`, the data, and a `CR LF`; then a size of zero, trailer lines,
and a blank line. A `WalkedBody` is a wider form, with blanks also between the digits of a size, and
any two bytes after the data of a chunk. The lines of the wider form are the lines that `chunkSize`
reads a size off (`chunkSize_text`, `exists_walkedSize`).
-/

namespace ForwardProxy

/-- A semicolon, which starts an extension. -/
abbrev SEMICOLON : Byte := 59

/-- What ends a line. -/
def CRLF : Bytes := [CR, LF]

/-- A hexadecimal digit, of either case. -/
def isHex (c : Byte) : Bool := (hexDigit c).isSome

/-- The blanks that may stand around a size. -/
def isLineBlank (c : Byte) : Bool := c = SP || c = TAB

/-- The number that hexadecimal digits write after `n`. -/
def hexFold (n : ℕ) (ds : Bytes) : ℕ := ds.foldl (fun n c => n * 16 + (hexDigit c).getD 0) n

/-- The number that hexadecimal digits write. -/
def hexValue (ds : Bytes) : ℕ := hexFold 0 ds

/-- A size line without its `CR LF`. -/
structure SizeLine where
  before : Bytes := []
  digits : Bytes
  after : Bytes := []
  extension : Option Bytes := none
  before_blank : ∀ c ∈ before, isLineBlank c = true
  digits_ne : digits ≠ []
  digits_hex : ∀ c ∈ digits, isHex c = true
  after_blank : ∀ c ∈ after, isLineBlank c = true
  ext_free : ∀ e ∈ extension, find e CRLF = none

/-- The part of the line that the size is read off. -/
def SizeLine.sizePart (l : SizeLine) : Bytes := l.before ++ l.digits ++ l.after

/-- The line as it is sent. -/
def SizeLine.text (l : SizeLine) : Bytes :=
  match l.extension with
  | none => l.sizePart
  | some e => l.sizePart ++ SEMICOLON :: e

/-- The size that the line gives. -/
def SizeLine.value (l : SizeLine) : ℕ := hexValue l.digits

/-- A chunk of the documented form, whose data has the size of its line. -/
structure Chunk where
  size : SizeLine
  data : Bytes
  data_ne : data ≠ []
  value_eq : size.value = data.length

/-- A chunk as it is sent. -/
def Chunk.encode (c : Chunk) : Bytes := c.size.text ++ CRLF ++ c.data ++ CRLF

/-- Trailer lines without their `CR LF`. -/
def AreTrailers (ts : List Bytes) : Prop := ∀ t ∈ ts, t ≠ [] ∧ find t CRLF = none

/-- Trailer lines, and the blank line after them. -/
def encodeTrailers (ts : List Bytes) : Bytes := (ts.flatMap fun t => t ++ CRLF) ++ CRLF

/-- A chunked body of the documented form, up to the blank line after its trailers. -/
structure ChunkedBody where
  chunks : List Chunk := []
  last : SizeLine
  last_zero : last.value = 0
  trailers : List Bytes := []
  trailers_ok : AreTrailers trailers

/-- The body as it is sent. -/
def ChunkedBody.encode (b : ChunkedBody) : Bytes :=
  b.chunks.flatMap Chunk.encode ++ (b.last.text ++ CRLF ++ encodeTrailers b.trailers)

/-! ## The wider form -/

/-- A line whose size is read off digits with blanks anywhere around and between them. -/
@[ext]
structure WalkedSize where
  size : Bytes
  extension : Option Bytes := none
  size_chars : ∀ c ∈ size, isHex c = true ∨ isLineBlank c = true
  size_any : size.any isHex = true
  ext_free : ∀ e ∈ extension, find e CRLF = none

/-- The line as it is sent. -/
def WalkedSize.text (l : WalkedSize) : Bytes :=
  match l.extension with
  | none => l.size
  | some e => l.size ++ SEMICOLON :: e

/-- The size that the line gives: its digits, whatever blanks are among them. -/
def WalkedSize.value (l : WalkedSize) : ℕ := hexValue (l.size.filter isHex)

/-- The digits of a size stand together: past the blanks and the digits there are only blanks. -/
def contiguous (s : Bytes) : Bool :=
  ((s.dropWhile isLineBlank).dropWhile isHex).all isLineBlank

/-- A chunk with any two bytes after its data. -/
@[ext]
structure WalkedChunk where
  line : WalkedSize
  data : Bytes
  close : Bytes
  data_ne : data ≠ []
  value_eq : line.value = data.length
  close_length : close.length = 2

/-- A chunk as it is sent. -/
def WalkedChunk.encode (c : WalkedChunk) : Bytes := c.line.text ++ CRLF ++ c.data ++ c.close

/-- A chunked body of the wider form. -/
@[ext]
structure WalkedBody where
  chunks : List WalkedChunk := []
  last : WalkedSize
  last_zero : last.value = 0
  trailers : List Bytes := []
  trailers_ok : AreTrailers trailers

/-- The body as it is sent. -/
def WalkedBody.encode (b : WalkedBody) : Bytes :=
  b.chunks.flatMap WalkedChunk.encode ++ (b.last.text ++ CRLF ++ encodeTrailers b.trailers)

/-- What the documented grammar asks of a chunk besides. -/
def WalkedChunk.IsStrict (c : WalkedChunk) : Prop := contiguous c.line.size = true ∧ c.close = CRLF

/-- A body of the wider form that has the documented one. -/
def WalkedBody.IsStrict (b : WalkedBody) : Prop :=
  (∀ c ∈ b.chunks, c.IsStrict) ∧ contiguous b.last.size = true

/-! ## Lines -/

/-- A line without a `CR LF` ends at the first one after it. -/
theorem findFrom_line {raw line rest : Bytes} {pos : ℕ} (hline : find line CRLF = none)
    (hraw : raw.drop pos = line ++ CRLF ++ rest) :
    findFrom raw CRLF pos = some (pos + line.length) := by
  have hfind : find (raw.drop pos) CRLF = some line.length := by
    rw [hraw, List.append_assoc]
    exact Lib.Search.find_pair_append (by decide) hline rest
  rw [findFrom, hfind]
  rfl

/-- And what is before the first one is such a line. -/
theorem line_of_findFrom {raw : Bytes} {pos e : ℕ} (h : findFrom raw CRLF pos = some e) :
    ∃ line, e = pos + line.length ∧ find line CRLF = none ∧
      raw.drop pos = line ++ CRLF ++ raw.drop (e + 2) := by
  unfold findFrom at h
  obtain ⟨p, hp, rfl⟩ := Option.map_eq_some_iff.mp h
  obtain ⟨t, ht⟩ := Lib.Search.find_occursAt hp
  have hle := (Lib.Search.find_occursAt hp).end_le (by simp [CRLF])
  have hlen : ((raw.drop pos).take p).length = p := by
    rw [List.length_take]
    omega
  refine ⟨(raw.drop pos).take p, by rw [hlen], Lib.Search.find_take_eq_none (by simp [CRLF]) hp, ?_⟩
  have hrest : raw.drop (pos + p + 2) = t := by
    rw [Nat.add_assoc, ← List.drop_drop, ← List.drop_drop, ← ht]
    rfl
  calc raw.drop pos = (raw.drop pos).take p ++ (raw.drop pos).drop p :=
        (List.take_append_drop _ _).symm
    _ = (raw.drop pos).take p ++ CRLF ++ raw.drop (pos + p + 2) := by
        rw [← ht, hrest, List.append_assoc]

/-- What follows a line and its `CR LF`. -/
theorem drop_line {raw line rest : Bytes} {pos : ℕ} (h : raw.drop pos = line ++ CRLF ++ rest) :
    raw.drop (pos + line.length + 2) = rest := by
  have hlen : (line ++ CRLF).length = line.length + 2 := by simp [CRLF]
  rw [Nat.add_assoc, ← List.drop_drop, h, ← hlen, List.drop_left]

/-! ## Hexadecimal numbers -/

/-- More digits never make a number smaller. -/
theorem le_hexFold (n : ℕ) (ds : Bytes) : n ≤ hexFold n ds := by
  induction ds generalizing n with
  | nil => exact le_refl _
  | cons d ds ih =>
    have := ih (n * 16 + (hexDigit d).getD 0)
    rw [hexFold, List.foldl_cons, ← hexFold]
    omega

/-- A blank is not a digit. -/
theorem hexDigit_of_blank {c : Byte} (h : isLineBlank c = true) : hexDigit c = none := by
  simp only [isLineBlank, Bool.or_eq_true, decide_eq_true_eq] at h
  rcases h with rfl | rfl <;> decide

/-- What the loop over a size reads: digits and blanks, and the number that the digits write
together, as long as it is not above `2^40`. -/
theorem chunkSizeLoop_iff {s : Bytes} {n m : ℕ} {anyDigit b : Bool} (hn : n ≤ 2^40) :
    chunkSizeLoop s n anyDigit = some (m, b) ↔
      (∀ c ∈ s, isHex c = true ∨ isLineBlank c = true) ∧ m = hexFold n (s.filter isHex) ∧
        m ≤ 2^40 ∧ b = (anyDigit || s.any isHex) := by
  induction s generalizing n anyDigit with
  | nil =>
    simp only [chunkSizeLoop, Option.some.injEq, Prod.mk.injEq, List.not_mem_nil, false_implies,
      implies_true, List.filter_nil, List.any_nil, Bool.or_false, true_and]
    constructor
    · rintro ⟨rfl, rfl⟩
      exact ⟨rfl, hn, rfl⟩
    · rintro ⟨rfl, -, rfl⟩
      exact ⟨rfl, rfl⟩
  | cons c s ih =>
    rw [chunkSizeLoop]
    cases hc : hexDigit c with
    | some v =>
      -- A digit. Up to the limit the number does not wrap.
      have hv := hexDigit_lt hc
      have hhex : isHex c = true := by simp [isHex, hc]
      have hwrap : wrap64 (wrap64 (n * 16) + v) = n * 16 + v := by
        unfold wrap64
        omega
      have hfold : hexFold n ((c :: s).filter isHex) = hexFold (n * 16 + v) (s.filter isHex) := by
        rw [List.filter_cons_of_pos hhex, hexFold, List.foldl_cons, hc]
        rfl
      simp only [hwrap, hfold, List.forall_mem_cons, hhex, true_or, true_and, List.any_cons,
        Bool.true_or, Bool.or_true]
      split
      · -- The number only grows, so it stays above the limit.
        rename_i hbig
        have hle := le_hexFold (n * 16 + v) (s.filter isHex)
        simp only [reduceCtorEq, false_iff, not_and]
        intro _ hm hle'
        omega
      · rename_i hsmall
        rw [ih (by omega)]
        simp
    | none =>
      have hhex : isHex c = false := by simp [isHex, hc]
      -- A blank is passed over wherever it stands, and nothing else is.
      have hblank : (c = SP ∨ c = TAB) ↔ isLineBlank c = true := by simp [isLineBlank]
      simp only [hblank, List.forall_mem_cons, hhex, Bool.false_eq_true, false_or,
        List.filter_cons_of_neg (show ¬isHex c = true by simp [hhex]), List.any_cons,
        Bool.false_or]
      split
      · rename_i hb
        rw [ih hn]
        simp [hb]
      · rename_i hb
        simp [hb]

/-! ## Size lines -/

/-- The text that the size on the line from `pos` to `lineEnd` is read off. -/
def sizeText (raw : Bytes) (pos lineEnd : ℕ) : Bytes :=
  (raw.drop pos).take (sizeEnd raw pos lineEnd - pos)

/-- The part of a line up to the first semicolon. -/
def upToSemicolon (line : Bytes) : Bytes := line.takeWhile fun c => c ≠ SEMICOLON

/-- The part before the first semicolon. -/
theorem upToSemicolon_append {u : Bytes} (hu : SEMICOLON ∉ u) (v : Bytes) :
    upToSemicolon (u ++ SEMICOLON :: v) = u := by
  have hall : ∀ c ∈ u, decide (c ≠ SEMICOLON) = true := by
    intro c hc
    simp only [ne_eq, decide_eq_true_eq]
    rintro rfl
    exact hu hc
  rw [upToSemicolon, List.takeWhile_append_of_pos hall, List.takeWhile_cons_of_neg (by simp),
    List.append_nil]

/-- A line without a semicolon has no extension. -/
theorem upToSemicolon_of_notMem {line : Bytes} (h : SEMICOLON ∉ line) :
    upToSemicolon line = line := by
  apply List.takeWhile_eq_self_iff.mpr
  intro c hc
  simp only [ne_eq, decide_eq_true_eq]
  rintro rfl
  exact h hc

/-- The size ends at the first semicolon of the line, or else with the line. -/
theorem sizeEnd_eq {raw line rest : Bytes} {pos : ℕ} (h : raw.drop pos = line ++ rest) :
    sizeEnd raw pos (pos + line.length) = pos + (upToSemicolon line).length := by
  unfold sizeEnd
  by_cases hmem : SEMICOLON ∈ line
  · obtain ⟨u, v, rfl, hu⟩ := List.eq_append_cons_of_mem hmem
    have hpos : findFrom raw (str ";") pos = some (pos + u.length) := by
      rw [findFrom, h, List.append_assoc, List.cons_append]
      show Option.map _ (Lib.Search.find [SEMICOLON] (u ++ SEMICOLON :: (v ++ rest))) = _
      rw [Lib.Search.find_singleton_append hu]
      rfl
    have hle : u.length ≤ (u ++ SEMICOLON :: v).length := by simp
    rw [hpos, upToSemicolon_append hu]
    exact if_neg (by omega)
  · rw [upToSemicolon_of_notMem hmem]
    cases he : findFrom raw (str ";") pos with
    | none => rfl
    | some e =>
      -- A semicolon found is past the line.
      rw [findFrom, h] at he
      obtain ⟨p, hp, rfl⟩ := Option.map_eq_some_iff.mp he
      have hge : line.length ≤ p := by
        by_contra hlt
        obtain ⟨hocc, -⟩ := (Lib.Search.occursAt_cons ..).mp (Lib.Search.find_occursAt hp)
        rw [List.getElem?_append_left (by omega)] at hocc
        exact hmem (List.mem_of_getElem? hocc)
      show (if pos + line.length < pos + p then pos + line.length else pos + p) = _
      split <;> omega

/-- The text of a size is its line up to a semicolon. -/
theorem sizeText_eq {raw line rest : Bytes} {pos : ℕ} (h : raw.drop pos = line ++ rest) :
    sizeText raw pos (pos + line.length) = upToSemicolon line := by
  obtain ⟨t, ht⟩ := List.takeWhile_prefix (p := fun c => decide (c ≠ SEMICOLON)) (l := line)
  have hsplit : upToSemicolon line ++ (t ++ rest) = line ++ rest := by
    rw [← List.append_assoc]
    exact congrArg (· ++ rest) ht
  rw [sizeText, sizeEnd_eq h, Nat.add_sub_cancel_left, h, ← hsplit, List.take_left]

/-- A size is read exactly where its text has digits and blanks only, with a digit among them, and
is the number of the digits, up to `2^40`. -/
theorem chunkSize_eq_some_iff {raw : Bytes} {pos lineEnd size : ℕ} :
    chunkSize raw pos lineEnd = some size ↔
      (∀ c ∈ sizeText raw pos lineEnd, isHex c = true ∨ isLineBlank c = true) ∧
        size = hexValue ((sizeText raw pos lineEnd).filter isHex) ∧ size ≤ 2^40 ∧
        (sizeText raw pos lineEnd).any isHex = true := by
  have hloop := fun m b => @chunkSizeLoop_iff (sizeText raw pos lineEnd) 0 m false b (Nat.zero_le _)
  have hsize : chunkSize raw pos lineEnd = some size ↔
      chunkSizeLoop (sizeText raw pos lineEnd) 0 false = some (size, true) := by
    rw [chunkSize, ← sizeText]
    cases chunkSizeLoop (sizeText raw pos lineEnd) 0 false with
    | none => simp
    | some r =>
      obtain ⟨m, b⟩ := r
      cases b <;> simp
  rw [hsize, hloop, Bool.false_or, eq_comm (a := true)]
  rfl

/-! ## Size lines of the two forms -/

/-- A digit is not a blank. -/
theorem isLineBlank_of_isHex {c : Byte} (h : isHex c = true) : isLineBlank c = false := by
  cases hb : isLineBlank c with
  | false => rfl
  | true => simp [isHex, hexDigit_of_blank hb] at h

/-- A blank is not a digit. -/
theorem isHex_of_isLineBlank {c : Byte} (h : isLineBlank c = true) : isHex c = false := by
  simp [isHex, hexDigit_of_blank h]

namespace WalkedSize

variable (l : WalkedSize)

/-- Neither a semicolon nor a carriage return is part of a size. -/
theorem notMem_size {c : Byte} (hhex : isHex c = false) (hblank : isLineBlank c = false) :
    c ∉ l.size := by
  intro hc
  rcases l.size_chars c hc with h | h
  · rw [hhex] at h
    cases h
  · rw [hblank] at h
    cases h

/-- Up to its semicolon a line is its size. -/
theorem upToSemicolon_text : upToSemicolon l.text = l.size := by
  have hnot := l.notMem_size (c := SEMICOLON) (by decide) (by decide)
  unfold text
  cases l.extension with
  | none => exact upToSemicolon_of_notMem hnot
  | some e => exact upToSemicolon_append hnot e

/-- A size line does not hold a `CR LF`. -/
theorem find_text : find l.text CRLF = none := by
  have hcr := l.notMem_size (c := CR) (by decide) (by decide)
  have hpart : ∀ t : Bytes, find t CRLF = none → find (l.size ++ t) CRLF = none := by
    intro t ht
    rw [find, Lib.Search.find_eq_none_iff] at ht ⊢
    intro i hocc
    rcases Nat.lt_or_ge i l.size.length with hi | hi
    · obtain ⟨hcr', -⟩ := (Lib.Search.occursAt_cons ..).mp hocc
      rw [List.getElem?_append_left hi] at hcr'
      exact hcr (List.mem_of_getElem? hcr')
    · obtain ⟨j, rfl⟩ := Nat.exists_eq_add_of_le hi
      exact ht j ((Lib.Search.occursAt_append_right ..).mp hocc)
  unfold text
  cases hext : l.extension with
  | none =>
    have := hpart [] (by decide)
    rwa [List.append_nil] at this
  | some e =>
    -- The semicolon is no carriage return, so a `CR LF` would be in the extension.
    apply hpart
    have he := l.ext_free e hext
    rw [find, Lib.Search.find_eq_none_iff] at he ⊢
    intro i hocc
    cases i with
    | zero =>
      obtain ⟨hcr', -⟩ := (Lib.Search.occursAt_cons ..).mp hocc
      have hne : SEMICOLON ≠ CR := by decide
      exact absurd (Option.some.inj hcr') hne
    | succ i => exact he i hocc

/-- The text of a size line gives back the line. -/
theorem text_injective {l l' : WalkedSize} (h : l.text = l'.text) : l = l' := by
  have hsize : l.size = l'.size := by rw [← l.upToSemicolon_text, h, l'.upToSemicolon_text]
  have hext : l.extension = l'.extension := by
    unfold text at h
    rw [hsize] at h
    cases he : l.extension with
    | none =>
      cases he' : l'.extension with
      | none => rfl
      | some e' => simp [he, he'] at h
    | some e =>
      cases he' : l'.extension with
      | none => simp [he, he'] at h
      | some e' => simpa [he, he'] using h
  exact WalkedSize.ext hsize hext

end WalkedSize

/-- The size of a line is its value, as long as it is not above `2^40`. -/
theorem chunkSize_text (l : WalkedSize) {raw rest : Bytes} {pos size : ℕ}
    (h : raw.drop pos = l.text ++ rest) :
    chunkSize raw pos (pos + l.text.length) = some size ↔ size = l.value ∧ size ≤ 2^40 := by
  rw [chunkSize_eq_some_iff, sizeText_eq h, l.upToSemicolon_text]
  constructor
  · rintro ⟨-, hsize, hle, -⟩
    exact ⟨hsize, hle⟩
  · rintro ⟨hsize, hle⟩
    exact ⟨l.size_chars, hsize, hle, l.size_any⟩

/-- A line is what stands up to its first semicolon, and past it an extension. -/
theorem exists_extension {line : Bytes} (hline : find line CRLF = none) :
    ∃ x : Option Bytes, (line = match x with
        | none => upToSemicolon line
        | some e => upToSemicolon line ++ SEMICOLON :: e) ∧ ∀ e ∈ x, find e CRLF = none := by
  by_cases hmem : SEMICOLON ∈ line
  · obtain ⟨u, v, rfl, hu⟩ := List.eq_append_cons_of_mem hmem
    refine ⟨some v, by rw [upToSemicolon_append hu], fun e he => ?_⟩
    cases he
    rw [find, Lib.Search.find_eq_none_iff] at hline ⊢
    intro i hi
    apply hline ((u ++ [SEMICOLON]).length + i)
    rw [show u ++ SEMICOLON :: v = (u ++ [SEMICOLON]) ++ v by simp]
    exact (Lib.Search.occursAt_append_right ..).mpr hi
  · exact ⟨none, (upToSemicolon_of_notMem hmem).symm, by simp⟩

/-- A line that a size is read off is a size line of the wider form. -/
theorem exists_walkedSize {raw line rest : Bytes} {pos size : ℕ} (hline : find line CRLF = none)
    (hraw : raw.drop pos = line ++ rest)
    (h : chunkSize raw pos (pos + line.length) = some size) :
    ∃ l : WalkedSize, l.text = line ∧ l.value = size := by
  rw [chunkSize_eq_some_iff, sizeText_eq hraw] at h
  obtain ⟨hchars, hsize, -, hany⟩ := h
  obtain ⟨x, htext, hfree⟩ := exists_extension hline
  exact ⟨⟨upToSemicolon line, x, hchars, hany, hfree⟩, htext.symm, hsize.symm⟩

namespace SizeLine

variable (l : SizeLine)

/-- Without its blanks the size is its digits. -/
theorem filter_sizePart : l.sizePart.filter isHex = l.digits := by
  have hblank : ∀ s : Bytes, (∀ c ∈ s, isLineBlank c = true) → s.filter isHex = [] := by
    intro s hs
    apply List.filter_eq_nil_iff.mpr
    intro c hc
    simp [isHex_of_isLineBlank (hs c hc)]
  rw [sizePart, List.filter_append, List.filter_append, hblank _ l.before_blank,
    hblank _ l.after_blank, List.filter_eq_self.mpr l.digits_hex, List.append_nil, List.nil_append]

/-- The digits of a documented size stand together. -/
theorem contiguous_sizePart : contiguous l.sizePart = true := by
  obtain ⟨d, ds, hds⟩ := List.exists_cons_of_ne_nil l.digits_ne
  have hd : isLineBlank d = false := isLineBlank_of_isHex (l.digits_hex d (by simp [hds]))
  have hblanks : l.sizePart.dropWhile isLineBlank = l.digits ++ l.after := by
    rw [sizePart, List.append_assoc, List.dropWhile_append_of_pos l.before_blank, hds,
      List.cons_append, List.dropWhile_cons_of_neg (by simp [hd])]
  have hafter : (l.digits ++ l.after).dropWhile isHex = l.after := by
    rw [List.dropWhile_append_of_pos l.digits_hex]
    cases hl : l.after with
    | nil => rfl
    | cons c cs =>
      have hc := isHex_of_isLineBlank (l.after_blank c (by simp [hl]))
      rw [List.dropWhile_cons_of_neg (by simp [hc])]
  rw [contiguous, hblanks, hafter]
  exact List.all_eq_true.mpr l.after_blank

/-- A size line of the grammar, in the wider form. -/
def toWalked : WalkedSize where
  size := l.sizePart
  extension := l.extension
  size_chars := by
    intro c hc
    rw [sizePart, List.mem_append, List.mem_append] at hc
    rcases hc with (hc | hc) | hc
    · exact Or.inr (l.before_blank c hc)
    · exact Or.inl (l.digits_hex c hc)
    · exact Or.inr (l.after_blank c hc)
  size_any := by
    obtain ⟨d, ds, hds⟩ := List.exists_cons_of_ne_nil l.digits_ne
    refine List.any_eq_true.mpr ⟨d, ?_, l.digits_hex d (by simp [hds])⟩
    simp [sizePart, hds]
  ext_free := l.ext_free

@[simp] theorem toWalked_text : l.toWalked.text = l.text := rfl

@[simp] theorem toWalked_value : l.toWalked.value = l.value := by
  show hexValue (l.sizePart.filter isHex) = _
  rw [filter_sizePart]
  rfl

end SizeLine

/-- A size line whose digits stand together is one of the grammar. -/
theorem WalkedSize.exists_sizeLine {l : WalkedSize} (h : contiguous l.size = true) :
    ∃ s : SizeLine, s.toWalked = l := by
  set t := l.size.dropWhile isLineBlank with ht
  have hsplit : l.size.takeWhile isLineBlank ++ t = l.size := List.takeWhile_append_dropWhile
  have hsplit' : t.takeWhile isHex ++ t.dropWhile isHex = t := List.takeWhile_append_dropWhile
  have hafter : ∀ c ∈ t.dropWhile isHex, isLineBlank c = true := List.all_eq_true.mp h
  have hdigits : t.takeWhile isHex ≠ [] := by
    intro hnil
    -- Without digits there would be only blanks.
    rw [hnil, List.nil_append] at hsplit'
    rw [hsplit'] at hafter
    obtain ⟨c, hc, hhex⟩ := List.any_eq_true.mp l.size_any
    rw [← hsplit, List.mem_append] at hc
    have hblank : isLineBlank c = true := by
      rcases hc with hc | hc
      · exact List.mem_takeWhile_imp hc
      · exact hafter c hc
    rw [isHex_of_isLineBlank hblank] at hhex
    cases hhex
  have hparts : l.size.takeWhile isLineBlank ++ t.takeWhile isHex ++ t.dropWhile isHex =
      l.size := by
    rw [List.append_assoc, hsplit', hsplit]
  exact ⟨{
    before := l.size.takeWhile isLineBlank
    digits := t.takeWhile isHex
    after := t.dropWhile isHex
    extension := l.extension
    before_blank := fun c hc => List.mem_takeWhile_imp hc
    digits_ne := hdigits
    digits_hex := fun c hc => List.mem_takeWhile_imp hc
    after_blank := hafter
    ext_free := l.ext_free }, WalkedSize.ext hparts rfl⟩

end ForwardProxy
