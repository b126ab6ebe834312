import ForwardProxy.Origin.Response

/-!
# The responses that the load generator reads

`read_one_response` of `benchmark.cpp` reads from its connection up to the end of one response, and
leaves what comes after it in the buffer for the next call. Of a stream of responses with lengths,
each call returns the status and the size of the next one, however the network delivers the stream;
and a response that does not come as a whole is an error, never a success (`readAll_delivers`).
-/

namespace ForwardProxy.Benchmark

/-- The number past the first space of the buffer. -/
def statusOf (buf : Bytes) : ℤ :=
  match find buf [SP] with
  | none => 0
  | some sp => atoi (buf.drop (sp + 1))

/-- `clen`: the number past the first `content-length:`, wherever it stands in the head. -/
def contentLengthOf (head : Bytes) : ℤ :=
  match find (toLower head) (str "content-length:") with
  | none => -1
  | some p => (strtol (head.drop (p + 15))).value

/-- What a look at the buffer tells. -/
inductive Look
  | more
  | untilEof (status : ℤ)
  | whole (status : ℤ) (need : ℕ)
  deriving DecidableEq

/-- Looks for the end of a head, and then for the end of its body. -/
def look (buf : Bytes) : Look :=
  match find buf [CR, LF, CR, LF] with
  | none => .more
  | some hend =>
    let clen := contentLengthOf (buf.take hend)
    let need := hend + 4 + clen.toNat
    if clen < 0 then .untilEof (statusOf buf)
    else if need ≤ buf.length then .whole (statusOf buf) need
    else .more

/-- What a call returns: a response, with the buffer and what `recv` returns after it; an error; or
nothing yet, at the end of the script. -/
inductive ReadResult
  | response (status : ℤ) (total : ℕ) (buf : Bytes) (recvs : List Recv)
  | failed (error : Bytes)
  | waiting
  deriving DecidableEq

/-- The loop for a body that an EOF ends. Whatever is no data ends it. -/
def drainToEof (status : ℤ) (buf : Bytes) : List Recv → ReadResult
  | [] => .waiting
  | .data b bs :: recvs => drainToEof status (buf ++ b :: bs) recvs
  | _ :: recvs => .response status buf.length [] recvs

/-- `read_one_response`, down to where it returns. -/
def readOneResponse (buf : Bytes) (recvs : List Recv) : ReadResult :=
  match look buf with
  | .whole status need => .response status need (buf.drop need) recvs
  | .untilEof status => drainToEof status buf recvs
  | .more =>
    match recvs with
    | [] => .waiting
    | .data b bs :: recvs => readOneResponse (buf ++ b :: bs) recvs
    | .eof :: _ => .failed (str "peer closed mid-response")
    | .intr :: recvs => readOneResponse buf recvs
    | .again :: _ => .failed (str "recv: Resource temporarily unavailable")
    | .error reason :: _ => .failed (str "recv: " ++ reason)

/-- The statuses and sizes that up to `n` calls return, the last of them perhaps without success. -/
def readAll : ℕ → Bytes → List Recv → List (ℤ × ℕ)
  | 0, _, _ => []
  | n + 1, buf, recvs =>
    match readOneResponse buf recvs with
    | .response status total buf recvs => (status, total) :: readAll n buf recvs
    | _ => []

/-! ## Responses with a length -/

/-- A response whose first `content-length:` has the length of its body. -/
structure Response where
  version : Bytes
  status : ℕ
  /-- The head after the digits of the status. -/
  after : Bytes
  body : Bytes
  version_ok : SP ∉ version
  status_ok : status < 2^31
  after_ok : ∀ c ∈ after.head?, isDigit c = false
  first : find (version ++ SP :: (decimal status ++ after) ++ [CR, LF, CR, LF])
    [CR, LF, CR, LF] = some (version ++ SP :: (decimal status ++ after)).length
  length_ok : contentLengthOf (version ++ SP :: (decimal status ++ after)) = body.length

namespace Response

/-- The head without its end. -/
def text (m : Response) : Bytes := m.version ++ SP :: (decimal m.status ++ m.after)

/-- The response as it is sent. -/
def encode (m : Response) : Bytes := m.text ++ [CR, LF, CR, LF] ++ m.body

/-- The length of a response is that of its head, the blank line and its body. -/
theorem length_encode (m : Response) : m.encode.length = m.text.length + 4 + m.body.length := by
  simp only [encode, List.length_append, List.length_cons, List.length_nil]

/-- The status is read off the head, whatever comes after it. -/
theorem statusOf_text (m : Response) (more : Bytes) :
    statusOf (m.text ++ ([CR, LF, CR, LF] ++ more)) = m.status := by
  have hfind : find (m.text ++ ([CR, LF, CR, LF] ++ more)) [SP] = some m.version.length := by
    rw [text, List.append_assoc, List.cons_append]
    exact Lib.Search.find_singleton_append m.version_ok _
  have hdrop : (m.text ++ ([CR, LF, CR, LF] ++ more)).drop (m.version.length + 1) =
      decimal m.status ++ (m.after ++ ([CR, LF, CR, LF] ++ more)) := by
    simp [text]
  have hstop : ∀ c ∈ (m.after ++ ([CR, LF, CR, LF] ++ more)).head?, isDigit c = false := by
    intro c hc
    cases hafter : m.after with
    | nil =>
      rw [hafter] at hc
      obtain rfl : CR = c := by simpa using hc
      decide
    | cons d after =>
      rw [hafter] at hc
      exact m.after_ok c (by rw [hafter]; simpa using hc)
  have hstatus := m.status_ok
  have hmax : ¬LONG_MAX < (decimalValue (decimal m.status) : ℤ) := by
    rw [decimalValue_decimal]
    unfold LONG_MAX
    omega
  have hread := strtol_digits_append (decimal_ne_nil m.status)
    (List.all_eq_true.mpr fun _ => isDigit_of_mem_decimal) hstop
  rw [if_neg hmax, decimalValue_decimal] at hread
  rw [statusOf, hfind]
  dsimp only
  rw [hdrop, atoi, hread]
  exact Int.bmod_eq_of_le (by dsimp only; omega) (by dsimp only; omega)

/-- Of a stream that starts with the response, the buffer is looked at as one that lacks a part of
it, or as one that has it. -/
theorem look_eq (m : Response) {rest buf more : Bytes} (hcut : m.encode ++ rest = buf ++ more) :
    look buf = if m.encode.length ≤ buf.length then .whole m.status m.encode.length else .more := by
  have hlen := m.length_encode
  have hwhole : find (buf ++ more) [CR, LF, CR, LF] = some m.text.length := by
    rw [← hcut, encode, List.append_assoc]
    exact Lib.Search.find_append (by simp) m.first _
  rcases Nat.lt_or_ge buf.length (m.text.length + 4) with hshort | hlong
  · have hnone : find buf [CR, LF, CR, LF] = none := by
      cases hfind : find buf [CR, LF, CR, LF] with
      | none => rfl
      | some p =>
        -- The end would be where it is in the stream, past the end of the buffer.
        have hsame := Lib.Search.find_append (by simp) hfind more
        have hle := (Lib.Search.find_occursAt hfind).end_le (by simp)
        rw [find] at hwhole
        rw [hwhole] at hsame
        cases hsame
        simp only [List.length_cons, List.length_nil] at hle
        omega
    rw [look, hnone, if_neg (by omega)]
  · obtain ⟨r, rfl⟩ : ∃ r, buf = m.text ++ ([CR, LF, CR, LF] ++ r) := by
      have hstart : m.text ++ [CR, LF, CR, LF] <+: buf := by
        refine List.prefix_of_prefix_length_le ?_ (List.prefix_append buf more)
          (by simpa using hlong)
        rw [← hcut, encode, List.append_assoc]
        exact List.prefix_append _ _
      obtain ⟨r, hr⟩ := hstart
      exact ⟨r, by rw [← hr, List.append_assoc]⟩
    have hfind : find (m.text ++ ([CR, LF, CR, LF] ++ r)) [CR, LF, CR, LF] =
        some m.text.length := by
      rw [← List.append_assoc]
      exact Lib.Search.find_append (by simp) m.first _
    have hclen : contentLengthOf m.text = m.body.length := m.length_ok
    have hneg : ¬(m.body.length : ℤ) < 0 := by omega
    rw [look, hfind]
    dsimp only
    rw [List.take_left, hclen, m.statusOf_text, if_neg hneg, Int.toNat_natCast, ← hlen]

end Response

/-- The response is in the buffer, and the next one is read from where it ends. -/
theorem readOneResponse_whole (m : Response) {rest out buf : Bytes}
    (hcut : m.encode ++ rest = buf ++ out) (hlen : m.encode.length ≤ buf.length)
    (recvs : List Recv) :
    readOneResponse buf recvs =
        .response m.status m.encode.length (buf.drop m.encode.length) recvs ∧
      rest = buf.drop m.encode.length ++ out := by
  constructor
  · rw [readOneResponse.eq_def, m.look_eq hcut, if_pos hlen]
  · have hdrop := congrArg (List.drop m.encode.length) hcut
    rwa [List.drop_left, List.drop_append_of_le_length hlen] at hdrop

/-- What a call made of a stream that starts with the response `m`: it returned the response, or
nothing because not all of the stream arrived. -/
def ReadsNext (m : Response) (rest out : Bytes) (recvs : List Recv) (result : ReadResult) : Prop :=
  (∃ buf' out' recvs', result = .response m.status m.encode.length buf' recvs' ∧
    rest = buf' ++ out' ∧ Delivers out' recvs' ∧ (arrived recvs = out → arrived recvs' = out')) ∨
  (∀ status total buf' recvs', result ≠ .response status total buf' recvs') ∧ arrived recvs ≠ out

/-- A call returns the next response whole, and leaves what comes after it. By induction on what
`recv` returns. -/
theorem readOneResponse_delivers (m : Response) {rest out : Bytes} {recvs : List Recv}
    (hd : Delivers out recvs) {buf : Bytes} (hcut : m.encode ++ rest = buf ++ out) :
    ReadsNext m rest out recvs (readOneResponse buf recvs) := by
  have hwhole : ∀ {out recvs buf}, Delivers out recvs → m.encode ++ rest = buf ++ out →
      m.encode.length ≤ buf.length → ReadsNext m rest out recvs (readOneResponse buf recvs) := by
    intro out recvs buf hd hcut hlen
    obtain ⟨hread, hrest⟩ := readOneResponse_whole m hcut hlen recvs
    exact Or.inl ⟨_, out, recvs, hread, hrest, hd, id⟩
  -- A buffer that lacks a part of the response is read into, so the stream is not at its end.
  have hshort : ∀ {out buf : Bytes}, m.encode ++ rest = buf ++ out →
      ¬m.encode.length ≤ buf.length → look buf = .more ∧ out ≠ [] := by
    intro out buf hcut hlen
    refine ⟨by rw [m.look_eq hcut, if_neg hlen], ?_⟩
    rintro rfl
    have hlength := congrArg List.length hcut
    rw [List.length_append, List.length_append, List.length_nil] at hlength
    omega
  induction hd generalizing buf with
  | nil out =>
    by_cases hlen : m.encode.length ≤ buf.length
    · exact hwhole (.nil out) hcut hlen
    · obtain ⟨hlook, hne⟩ := hshort hcut hlen
      rw [readOneResponse.eq_def, hlook]
      exact Or.inr ⟨by simp, Ne.symm hne⟩
  | data b bs hd ih =>
    by_cases hlen : m.encode.length ≤ buf.length
    · exact hwhole (hd.data b bs) hcut hlen
    · rw [readOneResponse.eq_def, (hshort hcut hlen).1]
      dsimp only
      rw [← List.append_assoc] at hcut
      rcases ih hcut with ⟨buf', out', recvs', hread, hrest, hd', hall⟩ | ⟨hno, hpart⟩
      · refine Or.inl ⟨buf', out', recvs', hread, hrest, hd', fun h => hall ?_⟩
        exact List.append_cancel_left h
      · exact Or.inr ⟨hno, fun h => hpart (List.append_cancel_left h)⟩
  | intr hd ih =>
    by_cases hlen : m.encode.length ≤ buf.length
    · exact hwhole hd.intr hcut hlen
    · rw [readOneResponse.eq_def, (hshort hcut hlen).1]
      exact ih hcut
  | again hd _ =>
    by_cases hlen : m.encode.length ≤ buf.length
    · exact hwhole hd.again hcut hlen
    · obtain ⟨hlook, hne⟩ := hshort hcut hlen
      rw [readOneResponse.eq_def, hlook]
      exact Or.inr ⟨by simp, Ne.symm hne⟩
  | error reason hd _ =>
    by_cases hlen : m.encode.length ≤ buf.length
    · exact hwhole (hd.error reason) hcut hlen
    · obtain ⟨hlook, hne⟩ := hshort hcut hlen
      rw [readOneResponse.eq_def, hlook]
      exact Or.inr ⟨by simp, Ne.symm hne⟩
  | eof hd _ =>
    by_cases hlen : m.encode.length ≤ buf.length
    · exact hwhole hd.eof hcut hlen
    · exact absurd rfl (hshort hcut hlen).2

/-- However the network delivers a stream of responses, the calls return the statuses and the sizes
of the first of them, in order, and of all of them where all of the stream arrives. -/
theorem readAll_delivers (ms : List Response) {out : Bytes} {recvs : List Recv}
    (hd : Delivers out recvs) {buf : Bytes} (hcut : ms.flatMap Response.encode = buf ++ out) :
    readAll ms.length buf recvs <+: ms.map (fun m => ((m.status : ℤ), m.encode.length)) ∧
      (arrived recvs = out →
        readAll ms.length buf recvs = ms.map fun m => ((m.status : ℤ), m.encode.length)) := by
  induction ms generalizing out recvs buf with
  | nil => exact ⟨List.nil_prefix, fun _ => rfl⟩
  | cons m ms ih =>
    rw [List.flatMap_cons] at hcut
    rw [List.length_cons, readAll, List.map_cons]
    rcases readOneResponse_delivers m hd hcut with
      ⟨buf', out', recvs', hread, hrest, hd', hall⟩ | ⟨hno, hpart⟩
    · obtain ⟨hstart, hwhole⟩ := ih hd' hrest
      rw [hread]
      exact ⟨List.cons_prefix_cons.mpr ⟨rfl, hstart⟩, fun h => congrArg (_ :: ·) (hwhole (hall h))⟩
    · cases hread : readOneResponse buf recvs with
      | response status total buf' recvs' => exact absurd hread (hno _ _ _ _)
      | failed error => exact ⟨List.nil_prefix, fun h => absurd h hpart⟩
      | waiting => exact ⟨List.nil_prefix, fun h => absurd h hpart⟩

/-! ## The responses of the origin server -/

/-- Blanks before a number are passed over. -/
theorem strtol_sp (s : Bytes) : (strtol (SP :: s)).value = (strtol s).value := by
  have hskip : (SP :: s).dropWhile isSpace = s.dropWhile isSpace :=
    List.dropWhile_cons_of_pos (by decide)
  unfold strtol
  rw [hskip]
  dsimp only
  split
  · rfl
  · split
    · rfl
    · split <;> rfl

/-- The length is read where the first line with one is `Content-Length`. -/
theorem contentLengthOf_line {pre : Bytes}
    (hpre : find (toLower (pre ++ str "Content-Length:")) (str "content-length:") =
      some pre.length) {n : ℕ} (hn : n < 2^63) {rest : Bytes}
    (hrest : ∀ c ∈ rest.head?, isDigit c = false) :
    contentLengthOf (pre ++ str "Content-Length:" ++ SP :: (decimal n ++ rest)) = n := by
  have hfind : find (toLower (pre ++ str "Content-Length:" ++ SP :: (decimal n ++ rest)))
      (str "content-length:") = some pre.length := by
    rw [toLower, List.map_append, ← toLower]
    exact Lib.Search.find_append (by decide) hpre _
  have hlen : (str "Content-Length:").length = 15 := by decide
  have hdrop : (pre ++ str "Content-Length:" ++ SP :: (decimal n ++ rest)).drop (pre.length + 15) =
      SP :: (decimal n ++ rest) := by
    rw [← hlen, ← List.length_append, List.drop_left]
  have hmax : ¬LONG_MAX < (decimalValue (decimal n) : ℤ) := by
    rw [decimalValue_decimal]
    unfold LONG_MAX
    omega
  have hread := strtol_digits_append (decimal_ne_nil n)
    (List.all_eq_true.mpr fun _ => isDigit_of_mem_decimal) hrest
  rw [if_neg hmax, decimalValue_decimal] at hread
  rw [contentLengthOf, hfind]
  dsimp only
  rw [hdrop, strtol_sp, hread]

/-- The end of a head is the first `CR LF CR LF`. -/
theorem find_crlf_text (h : CrlfHead) {text : Bytes} (htext : h.text = text ++ [CR, LF, CR, LF]) :
    find (text ++ [CR, LF, CR, LF]) [CR, LF, CR, LF] = some text.length := by
  have hend := h.findHeaderEnd_text []
  rw [List.append_nil, htext, List.length_append, findHeaderEnd] at hend
  cases hfind : find (text ++ [CR, LF, CR, LF]) [CR, LF, CR, LF] with
  | some p =>
    rw [hfind] at hend
    simpa using hend
  | none =>
    have hocc : Lib.Search.OccursAt [CR, LF, CR, LF] (text ++ [CR, LF, CR, LF]) text.length := by
      rw [Lib.Search.OccursAt, List.drop_left]
    exact absurd hocc (Lib.Search.find_eq_none_iff.mp hfind _)

/-- The lines of a response of the origin server below its status. -/
def originLines (cfg : Origin.Settings) (keep : Bool) : Bytes :=
  str " OK\r\nContent-Type: text/plain\r\nContent-Length:" ++ SP :: (decimal cfg.bodySize ++
    str "\r\nCache-Control: max-age=60\r\nConnection: " ++ connectionValue keep)

/-- The lines of a response of the origin server above its length. -/
def originStart : Bytes := str "HTTP/1.1 200 OK\r\nContent-Type: text/plain\r\n"

/-- The head of an origin server's response, with its length between two texts. -/
theorem originText_eq (cfg : Origin.Settings) (keep : Bool) :
    str "HTTP/1.1" ++ SP :: (decimal 200 ++ originLines cfg keep) =
      originStart ++ str "Content-Length:" ++ SP :: (decimal cfg.bodySize ++
        (str "\r\nCache-Control: max-age=60\r\nConnection: " ++ connectionValue keep)) := by
  have hstart : str "HTTP/1.1" ++ SP :: (decimal 200 ++
      str " OK\r\nContent-Type: text/plain\r\nContent-Length:") =
      originStart ++ str "Content-Length:" := by decide
  rw [← hstart, originLines]
  simp only [List.append_assoc, List.cons_append]

/-- The head in the words of the grammar of heads. -/
theorem text_responseHead (cfg : Origin.Settings) (keep : Bool) :
    (Origin.responseHead cfg keep).crlf.text =
      str "HTTP/1.1" ++ SP :: (decimal 200 ++ originLines cfg keep) ++ [CR, LF, CR, LF] := by
  have htype : str " OK\r\nContent-Type: text/plain\r\nContent-Length:" =
      SP :: (str "OK" ++ CR :: LF :: (str "Content-Type" ++ COLON :: SP :: (str "text/plain" ++
        CR :: LF :: (str "Content-Length" ++ [COLON])))) := by decide
  have hcontrol : str "\r\nCache-Control: max-age=60\r\nConnection: " =
      CR :: LF :: (str "Cache-Control" ++ COLON :: SP :: (str "max-age=60" ++ CR :: LF ::
        (str "Connection" ++ [COLON, SP]))) := by decide
  have hcrlf : str "\r\n" = [CR, LF] := by decide
  simp [originLines, htype, hcontrol, hcrlf, ResponseHead.crlf, CrlfHead.text, Origin.responseHead,
    ResponseHead.line, HeaderLine.text]

/-- A response of the origin server is one that is read. -/
def Response.ofOrigin (cfg : Origin.Settings) (hsize : cfg.bodySize < 2^63) (path : Bytes)
    (keep : Bool) : Response where
  version := str "HTTP/1.1"
  status := 200
  after := originLines cfg keep
  body := Origin.body cfg path
  version_ok := by decide
  status_ok := by decide
  after_ok := by
    have hsp : (str " OK\r\nContent-Type: text/plain\r\nContent-Length:").head? = some SP := by
      decide
    intro c hc
    rw [originLines, List.head?_append, hsp] at hc
    obtain rfl : SP = c := by simpa using hc
    decide
  first := find_crlf_text (Origin.responseHead cfg keep).crlf (text_responseHead cfg keep)
  length_ok := by
    have hcr : (str "\r\nCache-Control: max-age=60\r\nConnection: ").head? = some CR := by decide
    rw [originText_eq, contentLengthOf_line (by decide) hsize, Origin.length_body]
    intro c hc
    rw [List.head?_append, hcr] at hc
    obtain rfl : CR = c := by simpa using hc
    decide

/-- A response of an origin server is one with a length. -/
theorem Response.encode_ofOrigin (cfg : Origin.Settings) (hsize : cfg.bodySize < 2^63)
    (path : Bytes) (keep : Bool) :
    (Response.ofOrigin cfg hsize path keep).encode = Origin.response cfg path keep := by
  rw [Origin.response_eq]
  exact congrArg (· ++ Origin.body cfg path) (text_responseHead cfg keep).symm

end ForwardProxy.Benchmark
