import ForwardProxy.Http.Chunked
import ForwardProxy.Http.Framing
import ForwardProxy.Http.HeaderEnd
import ForwardProxy.Server.Workers

/-!
# Exact upstream messages

`fetch_upstream` leaves its loop at EOF or when the response is complete. A response that an EOF
cuts short, and one that ends inside a segment, are returned as a success too, so what is returned
is exactly one message only where neither happens (`fetchUpstream_exact_iff`).
-/

namespace ForwardProxy

open Lib.Interaction

/-- The string is one response with the framing that its head declares, and nothing after it. -/
def ExactMessage (raw : Bytes) : Prop :=
  let r := parseResponseHeaders raw
  r.valid = true ∧
    if r.chunked then ChunkedEndsAt raw r.headerBytes raw.length
    else 0 ≤ r.contentLength → raw.length = r.headerBytes + r.contentLength.toNat

/-! ## Complete and no longer -/

/-- The head of a valid response ends inside the string. -/
theorem headerBytes_le {raw : Bytes} (h : (parseResponseHeaders raw).valid = true) :
    (parseResponseHeaders raw).headerBytes ≤ raw.length := by
  unfold parseResponseHeaders at h ⊢
  cases hend : findHeaderEnd raw with
  | none => simp [hend] at h
  | some e => exact headerEnd_le_length hend

/-- A framed response is exact when it is complete, and not without its last byte. -/
theorem exactMessage_iff {raw : Bytes} (hlen : raw.length ≤ maxBodyBytes)
    (hvalid : (parseResponseHeaders raw).valid = true)
    (hframed : (parseResponseHeaders raw).closeDelimited = false) :
    ExactMessage raw ↔ responseComplete raw (parseResponseHeaders raw) = true ∧
      responseComplete raw.dropLast (parseResponseHeaders raw) = false := by
  have hhead := headerBytes_le hvalid
  have hcl := contentLength_le raw
  obtain ⟨-, hmode⟩ := (framed_iff raw).mpr ⟨hvalid, hframed⟩
  have hpos : raw ≠ [] := by
    rintro rfl
    cases hvalid
  have hlenpos := List.length_pos_iff.mpr hpos
  unfold ExactMessage responseComplete
  unfold maxBodyBytes at hlen
  unfold LONG_MAX at hcl
  generalize parseResponseHeaders raw = r at hvalid hframed hhead hcl hmode
  simp only [hvalid, Bool.not_true, Bool.false_eq_true, if_false, true_and]
  cases hc : r.chunked with
  | true =>
    simp only [if_true]
    have hcut : raw.dropLast.length < 2^63 := by
      rw [List.length_dropLast]
      omega
    -- The chunks end in one place: complete, and not without the last byte, is to end at the last
    -- byte.
    rw [chunkedBodyComplete_iff (by omega), ← Bool.not_eq_true, chunkedBodyComplete_iff hcut,
      List.dropLast_eq_take]
    constructor
    · intro h
      refine ⟨⟨_, h⟩, ?_⟩
      rintro ⟨fin, hfin⟩
      obtain ⟨hfin, hle⟩ := chunkedEndsAt_take_iff.mp hfin
      have := h.unique hfin
      omega
    · rintro ⟨⟨fin, hfin⟩, hshort⟩
      have hle := hfin.bounds
      have hge : ¬fin ≤ raw.length - 1 := fun hcut =>
        hshort ⟨fin, chunkedEndsAt_take_iff.mpr ⟨hfin, hcut⟩⟩
      obtain rfl : fin = raw.length := by omega
      exact hfin
  | false =>
    -- Framed and not chunked, the response has a length, and its end is a sum that does not wrap.
    have hlength : 0 ≤ r.contentLength := by
      rcases hmode with h | h
      · rw [hc] at h
        cases h
      · exact h
    have hwrap : wrap64 (r.headerBytes + r.contentLength.toNat) =
        r.headerBytes + r.contentLength.toNat := Nat.mod_eq_of_lt (by omega)
    simp only [Bool.false_eq_true, if_false, hlength, if_true, hwrap, forall_const,
      decide_eq_true_eq, decide_eq_false_iff_not, List.length_dropLast]
    omega

/-! ## The receive loop -/

/-- The head of the buffer was parsed, perhaps before all of the buffer had come. -/
def HeadParsed (buf : Bytes) (parsed : Response) : Prop :=
  parsed.valid = true ∧ ∃ early more, buf = early ++ more ∧ (findHeaderEnd early).isSome ∧
    parsed = parseResponseHeaders early

/-- What the loop keeps: there is a parsed head exactly where the buffer has the end of one. -/
structure FetchInv (s : FetchState) : Prop where
  unparsed : s.parsed = none → findHeaderEnd s.buf = none
  parsed : ∀ p, s.parsed = some p → HeadParsed s.buf p

/-- More bytes leave the head parsed. -/
theorem HeadParsed.append {buf : Bytes} {p : Response} (h : HeadParsed buf p) (more : Bytes) :
    HeadParsed (buf ++ more) p := by
  obtain ⟨hvalid, early, rest, rfl, hsome, hp⟩ := h
  exact ⟨hvalid, early, rest ++ more, by simp, hsome, hp⟩

/-- More bytes may move the end of the head that `find_header_end` finds, and nothing else of what
is parsed. -/
theorem HeadParsed.parse_eq {buf : Bytes} {p : Response} (h : HeadParsed buf p) :
    ∃ hend, parseResponseHeaders buf = { p with headerBytes := hend } := by
  obtain ⟨-, early, more, rfl, hsome, rfl⟩ := h
  obtain ⟨e, he⟩ := Option.isSome_iff_exists.mp hsome
  obtain ⟨hd, rest, rfl⟩ := exists_head_of_headerEnd he
  obtain ⟨e', he'⟩ := Option.isSome_iff_exists.mp (headerEnd_append_isSome hsome more)
  -- Both are parsed from the lines of the one head.
  rw [parseResponseHeaders_head hd rest he]
  rw [List.append_assoc] at he' ⊢
  rw [parseResponseHeaders_head hd (rest ++ more) he']
  exact ⟨e', rfl⟩

/-- What a turn with a parsed head does. -/
theorem checkBody_cases (buf : Bytes) (p : Response) :
    checkBody buf p = .fail (str "upstream body too large") ∨
      checkBody buf p = .more ⟨buf, some p⟩ ∨
      checkBody buf p = .stop ⟨buf, some p⟩ ∧ buf.length ≤ maxBodyBytes ∧
        p.closeDelimited = false ∧ responseComplete buf p = true := by
  unfold checkBody
  split
  · exact Or.inl rfl
  · rename_i hlen
    split
    · rename_i hstop
      rw [Bool.and_eq_true, Bool.not_eq_true'] at hstop
      exact Or.inr (Or.inr ⟨rfl, Nat.not_lt.mp hlen, hstop⟩)
    · exact Or.inr (Or.inl rfl)

/-- What a turn in which data came does: it fails, or goes on without a head, or has a parsed head.
-/
theorem fetchData_cases {s : FetchState} (h : FetchInv s) (data : Bytes) :
    (∃ error, fetchData s data = .fail error) ∨
      fetchData s data = .more ⟨s.buf ++ data, none⟩ ∧ findHeaderEnd (s.buf ++ data) = none ∨
      ∃ p, HeadParsed (s.buf ++ data) p ∧ fetchData s data = checkBody (s.buf ++ data) p := by
  unfold fetchData
  dsimp only
  cases hparsed : s.parsed with
  | some p => exact Or.inr (Or.inr ⟨p, (h.parsed p hparsed).append data, rfl⟩)
  | none =>
    dsimp only
    split
    · rename_i hsome
      split
      · exact Or.inl ⟨_, rfl⟩
      · rename_i hvalid
        rw [Bool.not_eq_true', Bool.not_eq_false] at hvalid
        exact Or.inr (Or.inr ⟨_, ⟨hvalid, s.buf ++ data, [], by simp, hsome, rfl⟩, rfl⟩)
    · rename_i hnone
      rw [Option.not_isSome_iff_eq_none] at hnone
      split
      · exact Or.inl ⟨_, rfl⟩
      · exact Or.inr (Or.inl ⟨rfl, hnone⟩)

/-- What a turn does in which data came. -/
theorem fetchTurn_data_cases {s : FetchState} (h : FetchInv s) (b : Byte) (bs : Bytes) :
    (∃ error, fetchTurn s (.data b bs) = .fail error) ∨
      fetchTurn s (.data b bs) = .more ⟨s.buf ++ b :: bs, none⟩ ∧
        findHeaderEnd (s.buf ++ b :: bs) = none ∨
      ∃ p, HeadParsed (s.buf ++ b :: bs) p ∧
        (fetchTurn s (.data b bs) = .more ⟨s.buf ++ b :: bs, some p⟩ ∨
          fetchTurn s (.data b bs) = .stop ⟨s.buf ++ b :: bs, some p⟩ ∧
            (s.buf ++ b :: bs).length ≤ maxBodyBytes ∧ p.closeDelimited = false) := by
  rw [fetchTurn]
  rcases fetchData_cases h (b :: bs) with herror | hmore | ⟨p, hp, heq⟩
  · exact Or.inl herror
  · exact Or.inr (Or.inl hmore)
  · rw [heq]
    rcases checkBody_cases (s.buf ++ b :: bs) p with hc | hc | ⟨hc, hlen, hclosed, -⟩
    · exact Or.inl ⟨_, hc⟩
    · exact Or.inr (Or.inr ⟨p, hp, Or.inl hc⟩)
    · exact Or.inr (Or.inr ⟨p, hp, Or.inr ⟨hc, hlen, hclosed⟩⟩)

/-- A turn that goes on keeps the invariant. -/
theorem FetchInv.more {s s' : FetchState} (h : FetchInv s) {r : Recv}
    (hturn : fetchTurn s r = .more s') : FetchInv s' := by
  cases r with
  | data b bs =>
    rcases fetchTurn_data_cases h b bs with ⟨e, heq⟩ | ⟨heq, hnone⟩ | ⟨p, hp, heq | ⟨heq, -⟩⟩
    · rw [heq] at hturn
      cases hturn
    · rw [heq] at hturn
      cases hturn
      -- There is no head yet.
      exact ⟨fun _ => hnone, by simp⟩
    · rw [heq] at hturn
      cases hturn
      refine ⟨by simp, fun q hq => ?_⟩
      cases hq
      exact hp
    · rw [heq] at hturn
      cases hturn
  | intr =>
    cases hturn
    exact h
  | eof => cases hturn
  | again => cases hturn
  | error reason => cases hturn

/-- A turn that ends the loop has seen an EOF, or a response become complete. -/
theorem FetchInv.stop {s s' : FetchState} (h : FetchInv s) {r : Recv}
    (hturn : fetchTurn s r = .stop s') : r = .eof ∧ s' = s ∨
      r ≠ .eof ∧ s'.buf = s.buf ++ r.bytes ∧ s'.buf.length ≤ maxBodyBytes ∧
        ∃ p, s'.parsed = some p ∧ HeadParsed s'.buf p ∧ p.closeDelimited = false := by
  cases r with
  | data b bs =>
    rcases fetchTurn_data_cases h b bs with
      ⟨e, heq⟩ | ⟨heq, -⟩ | ⟨p, hp, heq | ⟨heq, hlen, hclosed⟩⟩
    · rw [heq] at hturn
      cases hturn
    · rw [heq] at hturn
      cases hturn
    · rw [heq] at hturn
      cases hturn
    · rw [heq] at hturn
      cases hturn
      exact Or.inr ⟨by simp, rfl, hlen, p, rfl, hp, hclosed⟩
  | eof =>
    cases hturn
    exact Or.inl ⟨rfl, rfl⟩
  | intr => cases hturn
  | again => cases hturn
  | error reason => cases hturn

/-- The turn that ends the loop by `break`: the state before it, and what `recv` returned. -/
def lastTurn (s : FetchState) : List Recv → Option (FetchState × Recv)
  | [] => none
  | r :: rs =>
    match fetchTurn s r with
    | .more s => lastTurn s rs
    | .stop _ => some (s, r)
    | .fail _ => none

/-- The loop ends well exactly where there is a last turn, and as that turn does. -/
theorem fetchLoop_eq {s : FetchState} (h : FetchInv s) (recvs : List Recv) :
    match lastTurn s recvs with
    | some (s₀, r) => FetchInv s₀ ∧ ∃ s', fetchTurn s₀ r = .stop s' ∧ fetchLoop s recvs = .ok s'
    | none => ∃ error, fetchLoop s recvs = .error error := by
  induction recvs generalizing s with
  | nil => exact ⟨_, rfl⟩
  | cons r rs ih =>
    rw [lastTurn, fetchLoop]
    cases hturn : fetchTurn s r with
    | more s' => exact ih (h.more hturn)
    | stop s' => exact ⟨h, s', hturn, rfl⟩
    | fail error => exact ⟨error, rfl⟩

/-- Nothing is received, and nothing parsed. -/
theorem fetchInv_empty : FetchInv {} := ⟨fun _ => rfl, by simp⟩

/-! ## When the loop ends exactly -/

/-- An EOF comes only when the head says so, and a segment brings the last byte of the response and
nothing past it: the response is complete with that byte and not before. -/
def ExactTurn (s : FetchState) (r : Recv) : Prop :=
  if r = .eof then ∀ p, s.parsed = some p → p.closeDelimited = true
  else
    let raw := s.buf ++ r.bytes
    responseComplete raw (parseResponseHeaders raw) = true ∧
      responseComplete raw.dropLast (parseResponseHeaders raw) = false

/-- The turn that ends the loop, if any does, is exact. -/
def EndsExactly (recvs : List Recv) : Prop :=
  ∀ s r, lastTurn {} recvs = some (s, r) → ExactTurn s r

/-- A response ended by EOF is exact as it is. -/
theorem exactMessage_of_closeDelimited {raw : Bytes}
    (hvalid : (parseResponseHeaders raw).valid = true)
    (hclosed : (parseResponseHeaders raw).closeDelimited = true) : ExactMessage raw := by
  have hframed : ¬Framed raw := by
    rw [framed_iff, hclosed]
    simp
  refine ⟨hvalid, ?_⟩
  have hmode : ¬((parseResponseHeaders raw).chunked = true ∨
      0 ≤ (parseResponseHeaders raw).contentLength) := fun h => hframed ⟨hvalid, h⟩
  rw [not_or, Bool.not_eq_true] at hmode
  rw [hmode.1, if_neg (by simp)]
  exact fun h => absurd h hmode.2

/-- A parsed response is one of a buffer that is not empty. -/
theorem HeadParsed.ne_nil {buf : Bytes} {p : Response} (h : HeadParsed buf p) : buf ≠ [] := by
  rintro rfl
  obtain ⟨-, early, more, heq, hsome, -⟩ := h
  obtain ⟨rfl, -⟩ := List.append_eq_nil_iff.mp heq.symm
  cases hsome

/-- What the last turn of the loop leaves is one exact message exactly where the turn is exact. -/
theorem fetchDone_exact {s s' : FetchState} (hinv : FetchInv s) {r : Recv}
    (hturn : fetchTurn s r = .stop s') :
    ((fetchDone s').ok = true → ExactMessage (fetchDone s').raw ∧
        (r = .eof → (parseResponseHeaders (fetchDone s').raw).closeDelimited = true)) ↔
      ExactTurn s r := by
  have hdone : ∀ {p}, s'.parsed = some p → HeadParsed s'.buf p →
      fetchDone s' = { raw := s'.buf, status := p.status, ok := true } := by
    intro p hparsed hhead
    rw [fetchDone, if_neg hhead.ne_nil, hparsed]
  rcases hinv.stop hturn with ⟨rfl, rfl⟩ | ⟨hne, hbuf, hlen, p, hparsed, hhead, hclosed⟩
  · -- An EOF. Without a parsed head there is no success.
    rw [ExactTurn, if_pos rfl]
    cases hparsed : s'.parsed with
    | none =>
      have hinvalid : (parseResponseHeaders s'.buf).valid = false := by
        rw [parseResponseHeaders, hinv.unparsed hparsed]
      have hfail : (fetchDone s').ok = false := by
        unfold fetchDone
        rw [hparsed]
        split <;> simp [hinvalid]
      simp [hfail]
    | some p =>
      have hhead := hinv.parsed p hparsed
      obtain ⟨hend, heq⟩ := hhead.parse_eq
      have hsame : (parseResponseHeaders s'.buf).closeDelimited = p.closeDelimited := by rw [heq]
      have hvalid : (parseResponseHeaders s'.buf).valid = true := by
        rw [heq]
        exact hhead.1
      rw [hdone hparsed hhead]
      simp only [forall_const, Option.some.injEq, forall_eq', hsame]
      constructor
      · rintro ⟨-, h⟩
        exact h
      · intro h
        exact ⟨exactMessage_of_closeDelimited hvalid (hsame.trans h), h⟩
  · -- The response became complete.
    obtain ⟨hend, heq⟩ := hhead.parse_eq
    have hvalid : (parseResponseHeaders s'.buf).valid = true := by
      rw [heq]
      exact hhead.1
    have hframed : (parseResponseHeaders s'.buf).closeDelimited = false := by
      rw [heq]
      exact hclosed
    rw [ExactTurn, if_neg hne, ← hbuf, ← exactMessage_iff hlen hvalid hframed, hdone hparsed hhead]
    simp [hne]

/-- What `fetch_upstream` returns as a success is one exact message, and an EOF ends it only if the
message has no other end, exactly where the loop ends exactly. -/
theorem fetchUpstream_exact_iff (connect : Connect) (recvs : List Recv) :
    ((fetchUpstream connect recvs).ok = true → ExactMessage (fetchUpstream connect recvs).raw ∧
        ∀ s, lastTurn {} recvs = some (s, .eof) →
          (parseResponseHeaders (fetchUpstream connect recvs).raw).closeDelimited = true) ↔
      (connect = .sent → EndsExactly recvs) := by
  cases connect with
  | sent =>
    have hloop := fetchLoop_eq fetchInv_empty recvs
    unfold EndsExactly fetchUpstream
    dsimp only
    cases hlast : lastTurn {} recvs with
    | none =>
      rw [hlast] at hloop
      obtain ⟨error, herror⟩ := hloop
      rw [herror]
      simp
    | some last =>
      obtain ⟨s, r⟩ := last
      rw [hlast] at hloop
      obtain ⟨hinv, s', hturn, hok⟩ := hloop
      have hexact := fetchDone_exact hinv hturn
      rw [hok]
      dsimp only
      constructor
      · rintro h - s₁ r₁ heq
        cases heq
        exact hexact.mp fun hsuccess => ⟨(h hsuccess).1, fun hr => (h hsuccess).2 s (by rw [hr])⟩
      · intro h hsuccess
        obtain ⟨hmessage, heof⟩ := hexact.mpr (h rfl s r rfl) hsuccess
        refine ⟨hmessage, fun s₁ heq => heof ?_⟩
        cases heq
        rfl
  | _ => simp [fetchUpstream]

/-! ## Runs -/

/-- Every fetch of a run is what `fetch_upstream` returns for an upstream with which its loop ends
exactly. -/
def FetchesEndExactly (trace : List (ℕ × ServeEvent)) : Prop :=
  ∀ i up requestBytes res, (i, ⟨.fetchUpstream up requestBytes, res⟩) ∈ trace →
    ∃ connect recvs, res = fetchUpstream connect recvs ∧ (connect = .sent → EndsExactly recvs)

end ForwardProxy
