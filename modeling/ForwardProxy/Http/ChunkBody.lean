import Mathlib.Data.Set.List
import ForwardProxy.Http.ChunkGrammar

/-!
# The walk over a chunked body

The walk ends exactly on the bodies of the wider form (`WalkedBody.endsAt`, `exists_walkedBody`),
and the wider form is unambiguous (`WalkedBody.eq_of_prefix`). A body of the documented grammar is
one of the wider form, so `response_complete` is true from the end of the body on and not before
(`responseComplete_body`). The other way, what `chunked_body_complete` accepts is a body of the
grammar exactly where no body of the wider form stands that is not strict
(`chunkedBodyComplete_grammar_iff`).
-/

namespace ForwardProxy

/-! ## Lines at a position -/

/-- What follows the first `n` bytes from a position on. -/
theorem drop_append_length {raw u rest : Bytes} {pos : ℕ} (h : raw.drop pos = u ++ rest) :
    raw.drop (pos + u.length) = rest := by
  rw [← List.drop_drop, h, List.drop_left]

/-- Trailers stand where the loop over them ends. -/
theorem trailersEndAt_encode {ts : List Bytes} (hts : AreTrailers ts) {raw rest : Bytes} {p : ℕ}
    (h : raw.drop p = encodeTrailers ts ++ rest) :
    TrailersEndAt raw p (p + (encodeTrailers ts).length) := by
  induction ts generalizing p with
  | nil => exact .blank (findFrom_line (show find [] CRLF = none by decide) h)
  | cons t ts ih =>
    obtain ⟨⟨hne, hfree⟩, hts⟩ := List.forall_mem_cons.mp hts
    have hcons : encodeTrailers (t :: ts) = t ++ CRLF ++ encodeTrailers ts := by
      simp [encodeTrailers]
    rw [hcons, List.append_assoc] at h
    have hlen : t.length ≠ 0 := fun h0 => hne (List.length_eq_zero_iff.mp h0)
    have hrest := ih hts (drop_line h)
    have hfin : p + (encodeTrailers (t :: ts)).length =
        p + t.length + 2 + (encodeTrailers ts).length := by
      rw [hcons]
      simp only [List.length_append, CRLF, List.length_cons, List.length_nil]
      omega
    rw [hfin]
    exact .line (findFrom_line hfree h) (by omega) hrest

/-- Where the loop over trailers ends, trailers stand. -/
theorem TrailersEndAt.exists_trailers {raw : Bytes} {p fin : ℕ} (h : TrailersEndAt raw p fin) :
    ∃ ts, AreTrailers ts ∧ raw.drop p = encodeTrailers ts ++ raw.drop fin := by
  induction h with
  | @blank p hline =>
    obtain ⟨line, hp, -, hraw⟩ := line_of_findFrom hline
    obtain rfl : line = [] := List.length_eq_zero_iff.mp (by omega)
    exact ⟨[], by simp [AreTrailers], hraw⟩
  | @line p e fin hline hne h ih =>
    obtain ⟨t, he, hfree, hraw⟩ := line_of_findFrom hline
    obtain ⟨ts, hts, hrest⟩ := ih
    have ht : t ≠ [] := by
      rintro rfl
      exact hne he
    refine ⟨t :: ts, List.forall_mem_cons.mpr ⟨⟨ht, hfree⟩, hts⟩, ?_⟩
    rw [hraw, hrest]
    simp [encodeTrailers]

/-! ## The walk ends on the wider form -/

/-- The sizes that the walk takes. -/
def WalkedBody.Small (b : WalkedBody) : Prop := ∀ c ∈ b.chunks, c.data.length ≤ 2^40

/-- The bytes of chunks, the last size line and the trailers. -/
def encodeChunks (cs : List WalkedChunk) (last : WalkedSize) (ts : List Bytes) : Bytes :=
  cs.flatMap WalkedChunk.encode ++ (last.text ++ CRLF ++ encodeTrailers ts)

/-- Without chunks, the last line and the trailers. -/
theorem encodeChunks_nil (last : WalkedSize) (ts : List Bytes) :
    encodeChunks [] last ts = last.text ++ CRLF ++ encodeTrailers ts := rfl

/-- A chunk before the others. -/
theorem encodeChunks_cons (c : WalkedChunk) (cs : List WalkedChunk) (last : WalkedSize)
    (ts : List Bytes) : encodeChunks (c :: cs) last ts =
      c.line.text ++ CRLF ++ (c.data ++ c.close ++ encodeChunks cs last ts) := by
  simp [encodeChunks, WalkedChunk.encode]

/-- The walk over chunks, a last line and trailers ends with them, whatever follows. By induction on
the chunks, one turn of the walk for each. -/
theorem chunkedEndsAt_encodeChunks {cs : List WalkedChunk} {last : WalkedSize} {ts : List Bytes}
    (hzero : last.value = 0) (hts : AreTrailers ts) (hsmall : ∀ c ∈ cs, c.data.length ≤ 2^40)
    {raw rest : Bytes} {pos : ℕ} (h : raw.drop pos = encodeChunks cs last ts ++ rest) :
    ChunkedEndsAt raw pos (pos + (encodeChunks cs last ts).length) := by
  induction cs generalizing pos with
  | nil =>
    rw [encodeChunks_nil, List.append_assoc] at h
    have hline := findFrom_line last.find_text h
    have hsize : chunkSize raw pos (pos + last.text.length) = some 0 := by
      rw [List.append_assoc] at h
      exact (chunkSize_text last h).mpr ⟨hzero.symm, by omega⟩
    have htrailers := trailersEndAt_encode hts (drop_line h)
    have hfin : pos + (encodeChunks [] last ts).length =
        pos + last.text.length + 2 + (encodeTrailers ts).length := by
      simp only [encodeChunks_nil, List.length_append, CRLF, List.length_cons, List.length_nil]
      omega
    rw [hfin]
    exact .last hline hsize htrailers
  | cons c cs ih =>
    obtain ⟨hc, hcs⟩ := List.forall_mem_cons.mp hsmall
    rw [encodeChunks_cons, List.append_assoc] at h
    have hline := findFrom_line c.line.find_text h
    have hsize : chunkSize raw pos (pos + c.line.text.length) = some c.data.length := by
      rw [List.append_assoc] at h
      exact (chunkSize_text c.line h).mpr ⟨c.value_eq.symm, hc⟩
    have hpos : c.data.length ≠ 0 := fun h0 => c.data_ne (List.length_eq_zero_iff.mp h0)
    -- Past the data and the two bytes after it stand the other chunks.
    have hdata := drop_line h
    rw [List.append_assoc] at hdata
    have hnext := drop_append_length hdata
    rw [List.length_append, c.close_length, ← Nat.add_assoc] at hnext
    have hrest := ih hcs hnext
    have hfin : pos + (encodeChunks (c :: cs) last ts).length =
        pos + c.line.text.length + 2 + c.data.length + 2 + (encodeChunks cs last ts).length := by
      simp only [encodeChunks_cons, List.length_append, CRLF, List.length_cons, List.length_nil,
        c.close_length]
      omega
    rw [hfin]
    exact .chunk hline hsize hpos hrest

/-- The walk ends with a body of the wider form that stands at its start. -/
theorem WalkedBody.endsAt (b : WalkedBody) (hsmall : b.Small) {raw rest : Bytes} {pos : ℕ}
    (h : raw.drop pos = b.encode ++ rest) : ChunkedEndsAt raw pos (pos + b.encode.length) :=
  chunkedEndsAt_encodeChunks b.last_zero b.trailers_ok hsmall h

/-- Where the walk ends, it has gone over a body of the wider form. -/
theorem ChunkedEndsAt.exists_walkedBody {raw : Bytes} {pos fin : ℕ}
    (h : ChunkedEndsAt raw pos fin) :
    ∃ b : WalkedBody, b.Small ∧ raw.drop pos = b.encode ++ raw.drop fin := by
  induction h with
  | @last pos lineEnd fin hline hsize h =>
    -- The last chunk: its line, the trailers and the blank line.
    obtain ⟨line, rfl, hfree, hraw⟩ := line_of_findFrom hline
    obtain ⟨ts, hts, hrest⟩ := h.exists_trailers
    have hraw' : raw.drop pos = line ++ (CRLF ++ raw.drop (pos + line.length + 2)) := by
      rw [hraw, List.append_assoc]
    obtain ⟨l, rfl, hvalue⟩ := exists_walkedSize hfree hraw' hsize
    refine ⟨⟨[], l, hvalue, ts, hts⟩, by simp [WalkedBody.Small], ?_⟩
    rw [hraw, hrest]
    simp [WalkedBody.encode]
  | @chunk pos lineEnd size fin hline hsize hpos h ih =>
    obtain ⟨line, rfl, hfree, hraw⟩ := line_of_findFrom hline
    obtain ⟨b, hsmall, hrest⟩ := ih
    have hraw' : raw.drop pos = line ++ (CRLF ++ raw.drop (pos + line.length + 2)) := by
      rw [hraw, List.append_assoc]
    obtain ⟨l, rfl, hvalue⟩ := exists_walkedSize hfree hraw' hsize
    have hle := chunkSize_le hsize
    have hb := h.bounds
    set q := pos + l.text.length + 2 with hq
    have hdata : ((raw.drop q).take size).length = size := by
      rw [List.length_take, List.length_drop]
      omega
    have hclose : ((raw.drop (q + size)).take 2).length = 2 := by
      rw [List.length_take, List.length_drop]
      omega
    -- A chunk before others: its line, as many bytes as that says, and two more.
    let c : WalkedChunk := {
      line := l
      data := (raw.drop q).take size
      close := (raw.drop (q + size)).take 2
      data_ne := by
        intro h0
        rw [h0] at hdata
        exact hpos hdata.symm
      value_eq := by rw [hvalue, hdata]
      close_length := hclose }
    have hparts : raw.drop q = c.data ++ c.close ++ raw.drop (q + size + 2) :=
      calc raw.drop q = (raw.drop q).take size ++ (raw.drop q).drop size :=
            (List.take_append_drop _ _).symm
        _ = (raw.drop q).take size ++
              ((raw.drop (q + size)).take 2 ++ (raw.drop (q + size)).drop 2) := by
            rw [List.drop_drop, List.take_append_drop]
        _ = c.data ++ c.close ++ raw.drop (q + size + 2) := by
            rw [List.drop_drop, List.append_assoc]
    refine ⟨⟨c :: b.chunks, b.last, b.last_zero, b.trailers, b.trailers_ok⟩,
      List.forall_mem_cons.mpr ⟨by rw [hdata]; exact hle, hsmall⟩, ?_⟩
    rw [hraw, hparts, hrest]
    simp [WalkedBody.encode, WalkedChunk.encode, c]

/-- `chunked_body_complete` is true exactly where a body of the wider form stands. -/
theorem chunkedBodyComplete_iff_walkedBody {raw : Bytes} (hraw : raw.length < 2^63) (start : ℕ) :
    chunkedBodyComplete raw start = true ↔
      ∃ b : WalkedBody, b.Small ∧ b.encode <+: raw.drop start := by
  rw [chunkedBodyComplete_iff hraw]
  constructor
  · rintro ⟨fin, h⟩
    obtain ⟨b, hsmall, hb⟩ := h.exists_walkedBody
    exact ⟨b, hsmall, _, hb.symm⟩
  · rintro ⟨b, hsmall, rest, hb⟩
    exact ⟨_, b.endsAt hsmall hb.symm⟩

/-! ## The wider form is unambiguous -/

/-- Two lines without a `CR LF` at the start of one string, each followed by one, are one line. -/
theorem line_unique {line line' r r' : Bytes} (hline : find line CRLF = none)
    (hline' : find line' CRLF = none) (h : line ++ CRLF ++ r = line' ++ CRLF ++ r') :
    line = line' ∧ r = r' := by
  have hfind := @findFrom_line (line ++ CRLF ++ r) line r 0 hline rfl
  have hfind' := @findFrom_line (line ++ CRLF ++ r) line' r' 0 hline' h
  have hlen : line.length = line'.length := by
    rw [hfind] at hfind'
    simpa using hfind'
  rw [List.append_assoc, List.append_assoc] at h
  obtain ⟨hl, hr⟩ := List.append_inj h hlen
  exact ⟨hl, List.append_cancel_left hr⟩

/-- Trailers that begin the same bytes are the same. -/
theorem trailers_unique {ts ts' : List Bytes} (hts : AreTrailers ts) (hts' : AreTrailers ts')
    {r r' : Bytes} (h : encodeTrailers ts ++ r = encodeTrailers ts' ++ r') : ts = ts' := by
  have hnil : ∀ r : Bytes, encodeTrailers [] ++ r = [] ++ CRLF ++ r := fun _ => rfl
  have hcons : ∀ (t : Bytes) (ts : List Bytes) (r : Bytes),
      encodeTrailers (t :: ts) ++ r = t ++ CRLF ++ (encodeTrailers ts ++ r) := by
    simp [encodeTrailers]
  induction ts generalizing ts' with
  | nil =>
    cases ts' with
    | nil => rfl
    | cons t' ts' =>
      obtain ⟨hne, hfree⟩ := hts' t' (by simp)
      rw [hnil, hcons] at h
      exact absurd (line_unique (by decide) hfree h).1.symm hne
  | cons t ts ih =>
    obtain ⟨⟨hne, hfree⟩, hts⟩ := List.forall_mem_cons.mp hts
    cases ts' with
    | nil =>
      rw [hnil, hcons] at h
      exact absurd (line_unique hfree (by decide) h).1 hne
    | cons t' ts' =>
      obtain ⟨⟨hne', hfree'⟩, hts'⟩ := List.forall_mem_cons.mp hts'
      rw [hcons, hcons] at h
      obtain ⟨ht, hrest⟩ := line_unique hfree hfree' h
      rw [ht, ih hts hts' hrest]

/-- The first size line of a body settles whether a chunk comes first. -/
theorem chunks_unique {cs cs' : List WalkedChunk} {last last' : WalkedSize} {ts ts' : List Bytes}
    (hzero : last.value = 0) (hzero' : last'.value = 0) (hts : AreTrailers ts)
    (hts' : AreTrailers ts') {r r' : Bytes}
    (h : encodeChunks cs last ts ++ r = encodeChunks cs' last' ts' ++ r') :
    cs = cs' ∧ last = last' ∧ ts = ts' := by
  have hvalue : ∀ c : WalkedChunk, c.line.value ≠ 0 := by
    intro c h0
    rw [c.value_eq] at h0
    exact c.data_ne (List.length_eq_zero_iff.mp h0)
  have hlines : ∀ (l l' : WalkedSize) (r r' : Bytes),
      l.text ++ CRLF ++ r = l'.text ++ CRLF ++ r' → l = l' ∧ r = r' := by
    intro l l' r r' hl
    obtain ⟨htext, hr⟩ := line_unique l.find_text l'.find_text hl
    exact ⟨WalkedSize.text_injective htext, hr⟩
  induction cs generalizing cs' with
  | nil =>
    cases cs' with
    | nil =>
      rw [encodeChunks_nil, encodeChunks_nil, List.append_assoc, List.append_assoc _ _ r'] at h
      obtain ⟨hl, hrest⟩ := hlines _ _ _ _ h
      exact ⟨rfl, hl, trailers_unique hts hts' hrest⟩
    | cons c' cs' =>
      rw [encodeChunks_nil, encodeChunks_cons, List.append_assoc, List.append_assoc _ _ r'] at h
      -- A last line has the value zero, and the line of a chunk has not.
      obtain ⟨rfl, -⟩ := hlines _ _ _ _ h
      exact absurd hzero (hvalue c')
  | cons c cs ih =>
    cases cs' with
    | nil =>
      rw [encodeChunks_nil, encodeChunks_cons, List.append_assoc, List.append_assoc _ _ r'] at h
      obtain ⟨rfl, -⟩ := hlines _ _ _ _ h
      exact absurd hzero' (hvalue c)
    | cons c' cs' =>
      rw [encodeChunks_cons, encodeChunks_cons, List.append_assoc, List.append_assoc _ _ r'] at h
      obtain ⟨hl, hafter⟩ := hlines _ _ _ _ h
      -- With the same line the data have the same length, so what follows is the same too.
      have hlen : c.data.length = c'.data.length := by rw [← c.value_eq, hl, c'.value_eq]
      simp only [List.append_assoc] at hafter
      obtain ⟨hdata, hafter⟩ := List.append_inj hafter hlen
      obtain ⟨hclose, hrest⟩ := List.append_inj hafter (by rw [c.close_length, c'.close_length])
      obtain ⟨hchunks, hlast, htrailers⟩ := ih hrest
      exact ⟨by rw [WalkedChunk.ext hl hdata hclose, hchunks], hlast, htrailers⟩

/-- At most one body of the wider form begins given bytes. -/
theorem WalkedBody.eq_of_prefix {b b' : WalkedBody} {s : Bytes} (h : b.encode <+: s)
    (h' : b'.encode <+: s) : b = b' := by
  obtain ⟨r, rfl⟩ := h
  obtain ⟨r', h'⟩ := h'
  obtain ⟨hchunks, hlast, htrailers⟩ := chunks_unique b.last_zero b'.last_zero b.trailers_ok
    b'.trailers_ok h'.symm
  exact WalkedBody.ext hchunks hlast htrailers

/-! ## Bodies of the grammar -/

/-- A chunk of the grammar, in the wider form. -/
def Chunk.toWalked (c : Chunk) : WalkedChunk where
  line := c.size.toWalked
  data := c.data
  close := CRLF
  data_ne := c.data_ne
  value_eq := by rw [SizeLine.toWalked_value, c.value_eq]
  close_length := rfl

/-- A body of the grammar, in the wider form. -/
def ChunkedBody.toWalked (b : ChunkedBody) : WalkedBody where
  chunks := b.chunks.map Chunk.toWalked
  last := b.last.toWalked
  last_zero := by rw [SizeLine.toWalked_value, b.last_zero]
  trailers := b.trailers
  trailers_ok := b.trailers_ok

/-- A body of the documented form is sent the same way in the wider one. -/
theorem ChunkedBody.encode_toWalked (b : ChunkedBody) : b.toWalked.encode = b.encode := by
  simp only [WalkedBody.encode, ChunkedBody.encode, ChunkedBody.toWalked, List.flatMap_map]
  rfl

/-- A body of the documented form is strict in the wider one. -/
theorem ChunkedBody.toWalked_isStrict (b : ChunkedBody) : b.toWalked.IsStrict := by
  constructor
  · intro c hc
    obtain ⟨d, -, rfl⟩ := List.mem_map.mp hc
    exact ⟨d.size.contiguous_sizePart, rfl⟩
  · exact b.last.contiguous_sizePart

/-- A strict chunk is one of the grammar. -/
theorem WalkedChunk.IsStrict.exists_chunk {c : WalkedChunk} (h : c.IsStrict) :
    ∃ d : Chunk, d.toWalked = c := by
  obtain ⟨l, hl⟩ := WalkedSize.exists_sizeLine h.1
  have hvalue : l.value = c.data.length := by rw [← c.value_eq, ← hl, l.toWalked_value]
  exact ⟨⟨l, c.data, c.data_ne, hvalue⟩, WalkedChunk.ext hl rfl h.2.symm⟩

/-- A strict body is one of the grammar. -/
theorem WalkedBody.IsStrict.exists_chunkedBody {w : WalkedBody} (h : w.IsStrict) :
    ∃ b : ChunkedBody, b.toWalked = w := by
  obtain ⟨l, hl⟩ := WalkedSize.exists_sizeLine h.2
  have hzero : l.value = 0 := by rw [← w.last_zero, ← hl, l.toWalked_value]
  obtain ⟨cs, hcs⟩ : ∃ cs : List Chunk, cs.map Chunk.toWalked = w.chunks := by
    rw [← Set.mem_range, Set.range_list_map]
    intro c hc
    exact (h.1 c hc).exists_chunk
  exact ⟨⟨cs, l, hzero, w.trailers, w.trailers_ok⟩, WalkedBody.ext hcs hl rfl⟩

/-! ## The end of a response, and what is refused -/

/-- A chunked body ends where it stands in a message, whatever comes after it. -/
theorem ChunkedBody.endsAt_append (b : ChunkedBody)
    (hsmall : ∀ c ∈ b.chunks, c.data.length ≤ 2^40) (head rest : Bytes) :
    ChunkedEndsAt (head ++ b.encode ++ rest) head.length (head ++ b.encode).length := by
  have hwalked : b.toWalked.Small := by
    intro c hc
    obtain ⟨d, hd, rfl⟩ := List.mem_map.mp hc
    exact hsmall d hd
  have hdrop : (head ++ b.encode ++ rest).drop head.length = b.toWalked.encode ++ rest := by
    rw [List.append_assoc, List.drop_left, b.encode_toWalked]
  have := b.toWalked.endsAt hwalked hdrop
  rwa [b.encode_toWalked, ← List.length_append] at this

/-- A chunked response is complete in the initial parts that reach up to the end of its body. -/
theorem ChunkedBody.complete_take_iff (b : ChunkedBody)
    (hsmall : ∀ c ∈ b.chunks, c.data.length ≤ 2^40) {head rest : Bytes} {r : Response}
    (hvalid : r.valid = true) (hchunked : r.chunked = true) (hhead : r.headerBytes = head.length)
    (hlen : (head ++ b.encode ++ rest).length < 2^63) (n : ℕ) :
    responseComplete ((head ++ b.encode ++ rest).take n) r = true ↔
      (head ++ b.encode).length ≤ n := by
  have hends := b.endsAt_append hsmall head rest
  have hshort : ((head ++ b.encode ++ rest).take n).length < 2^63 := by
    rw [List.length_take]
    omega
  simp only [responseComplete, hvalid, hchunked, hhead, Bool.not_true, Bool.false_eq_true, if_false,
    if_true]
  rw [chunkedBodyComplete_iff hshort]
  constructor
  · rintro ⟨fin, hfin⟩
    obtain ⟨hfin, hle⟩ := chunkedEndsAt_take_iff.mp hfin
    -- The whole has only one end.
    rw [hends.unique hfin]
    exact hle
  · exact fun hle => ⟨_, chunkedEndsAt_take_iff.mpr ⟨hends, hle⟩⟩

/-- A chunked response is complete from the end of its body on, and at no cut before it. -/
theorem responseComplete_body (b : ChunkedBody) (hsmall : ∀ c ∈ b.chunks, c.data.length ≤ 2^40)
    {head rest : Bytes} {r : Response} (hvalid : r.valid = true) (hchunked : r.chunked = true)
    (hhead : r.headerBytes = head.length) (hlen : (head ++ b.encode ++ rest).length < 2^63) :
    responseComplete (head ++ b.encode ++ rest) r = true ∧
      ∀ n, head.length ≤ n → n < (head ++ b.encode).length →
        responseComplete ((head ++ b.encode).take n) r = false := by
  have hiff := b.complete_take_iff hsmall hvalid hchunked hhead hlen
  constructor
  · have hfull := hiff (head ++ b.encode ++ rest).length
    rw [List.take_length] at hfull
    exact hfull.mpr (by simp only [List.length_append]; omega)
  · intro n _ hn
    have hcut := hiff n
    rw [List.take_append_of_le_length hn.le] at hcut
    rw [← Bool.not_eq_true, hcut]
    omega

/-- Data that look like the end of a body do not end it. -/
theorem responseComplete_trap :
    ∃ b : ChunkedBody, b.encode = str "7\r\n\r\n0\r\n\r\n\r\n0\r\n\r\n" ∧
      ∃ head : Bytes, (parseResponseHeaders head).valid = true ∧
        (parseResponseHeaders head).chunked = true ∧
        (parseResponseHeaders head).headerBytes = head.length ∧
        responseComplete (head ++ b.encode ++ str "x") (parseResponseHeaders head) = true ∧
        ∀ n, head.length ≤ n → n < (head ++ b.encode).length →
          responseComplete ((head ++ b.encode).take n) (parseResponseHeaders head) = false := by
  let b : ChunkedBody := {
    chunks := [{
      size := ⟨[], str "7", [], none, by simp, by decide, List.all_eq_true.mp (by decide), by simp,
        by simp⟩
      data := str "\r\n0\r\n\r\n"
      data_ne := by decide
      value_eq := by decide }]
    last := ⟨[], str "0", [], none, by simp, by decide, List.all_eq_true.mp (by decide), by simp,
        by simp⟩
    last_zero := by decide
    trailers_ok := by simp [AreTrailers] }
  let head := str "HTTP/1.1 200 OK\r\nTransfer-Encoding: chunked\r\n\r\n"
  have hvalid : (parseResponseHeaders head).valid = true := by decide +kernel
  have hchunked : (parseResponseHeaders head).chunked = true := by decide +kernel
  have hhead : (parseResponseHeaders head).headerBytes = head.length := by decide +kernel
  have hsmall : ∀ c ∈ b.chunks, c.data.length ≤ 2^40 := by
    intro c hc
    obtain rfl := List.mem_singleton.mp hc
    decide
  exact ⟨b, by decide, head, hvalid, hchunked, hhead,
    responseComplete_body b hsmall hvalid hchunked hhead (by decide)⟩

/-- What the walk accepts is a body of the grammar exactly where no body stands that has blanks
between the digits of a size, or two other bytes than `CR LF` after the data of a chunk. -/
theorem chunkedBodyComplete_grammar_iff {raw : Bytes} (hraw : raw.length < 2^63) (start : ℕ) :
    (chunkedBodyComplete raw start = true → ∃ b : ChunkedBody, b.encode <+: raw.drop start) ↔
      ∀ w : WalkedBody, w.Small → w.encode <+: raw.drop start → w.IsStrict := by
  rw [chunkedBodyComplete_iff_walkedBody hraw]
  constructor
  · intro h w hsmall hw
    obtain ⟨b, hb⟩ := h ⟨w, hsmall, hw⟩
    rw [← b.encode_toWalked] at hb
    rw [← WalkedBody.eq_of_prefix hb hw]
    exact b.toWalked_isStrict
  · rintro h ⟨w, hsmall, hw⟩
    obtain ⟨b, rfl⟩ := (h w hsmall hw).exists_chunkedBody
    rw [b.encode_toWalked] at hw
    exact ⟨b, hw⟩

/-- A body with a chunk, an extension and a trailer is accepted, and so only read by the grammar. -/
theorem chunkedBodyComplete_grammar_trailer :
    let raw := str "3;x=1\r\nabc\r\n0\r\nT: v\r\n\r\nGET"
    raw.length < 2^63 ∧ chunkedBodyComplete raw 0 = true ∧
      ∀ w : WalkedBody, w.Small → w.encode <+: raw.drop 0 → w.IsStrict := by
  intro raw
  let b : ChunkedBody := {
    chunks := [{
      size := ⟨[], str "3", [], some (str "x=1"), by simp, by decide,
        List.all_eq_true.mp (by decide), by simp, by decide⟩
      data := str "abc"
      data_ne := by decide
      value_eq := by decide }]
    last := ⟨[], str "0", [], none, by simp, by decide, List.all_eq_true.mp (by decide), by simp,
        by simp⟩
    last_zero := by decide
    trailers := [str "T: v"]
    trailers_ok := by
      intro t ht
      obtain rfl := List.mem_singleton.mp ht
      decide }
  have hraw : raw.length < 2^63 := by decide
  have hb : b.encode <+: raw.drop 0 := ⟨str "GET", by decide⟩
  exact ⟨hraw, by decide, (chunkedBodyComplete_grammar_iff hraw 0).mp fun _ => ⟨b, hb⟩⟩

/-- The two bytes after the data of a chunk are not looked at. -/
theorem chunkedBodyComplete_stray :
    ∃ (raw : Bytes) (start : ℕ), raw = str "3\r\nabcXX0\r\n\r\n" ∧ start ≤ raw.length ∧
      chunkedBodyComplete raw start = true ∧
      ¬∃ b : ChunkedBody, b.encode <+: raw.drop start := by
  refine ⟨_, 0, rfl, Nat.zero_le _, by decide, ?_⟩
  rintro ⟨b, hb⟩
  let w : WalkedBody := {
    chunks := [{
      line := ⟨str "3", none, fun c hc => .inl (List.all_eq_true.mp (by decide) c hc), by decide,
        by simp⟩
      data := str "abc"
      close := str "XX"
      data_ne := by decide
      value_eq := by decide
      close_length := by decide }]
    last := ⟨str "0", none, fun c hc => .inl (List.all_eq_true.mp (by decide) c hc), by decide,
      by simp⟩
    last_zero := by decide
    trailers_ok := by simp [AreTrailers] }
  have hw : w.encode <+: (str "3\r\nabcXX0\r\n\r\n").drop 0 := by decide
  rw [← b.encode_toWalked] at hb
  have hstrict := b.toWalked_isStrict
  rw [WalkedBody.eq_of_prefix hb hw] at hstrict
  exact absurd (hstrict.1 _ (List.mem_singleton.mpr rfl)).2 (by decide)

end ForwardProxy
