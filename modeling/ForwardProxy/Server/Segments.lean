import ForwardProxy.Server.Reading

/-!
# How the bytes of a client are cut

How a stream is cut into segments and readiness events makes no difference where, at every boundary
between requests, more bytes never change what is made of those that are there. That fails for a
request whose head ends in `LF LF` and which is all there before a `CR LF CR LF` that
`find_header_end` prefers (`Ambiguous`), and it fails for no other (`segmentation_independent_iff`).
-/

namespace ForwardProxy

open Lib.Reader (Action Outcome Comes Stable feedAll read)

/-- Serving as a function of the fields of a request and the bytes that it takes up. -/
def trimmed {σ : Type} (f : σ → Request → Bool × σ) (w : σ) (req : Request) (need : ℕ) : Bool × σ :=
  f w (req.trim need)

/-- A verdict as far as it tells what the connection does. -/
def Verdict.view : Verdict → Verdict
  | .badRequest req => .badRequest { req with raw := [], headerBytes := 0 }
  | .ready req need => .ready (req.trim need) need
  | v => v

/-- The stream from a boundary on: the start, or where a request ends that starts at one. -/
inductive Boundary (stream : Bytes) : Bytes → Prop
  | start : Boundary stream stream
  | next {t : Bytes} {req : Request} {need : ℕ} (h : Boundary stream t)
      (hready : inspect t = .ready req need) : Boundary stream (t.drop need)

/-- Of the start of a stream nothing is made yet, or what is made of all of it. -/
def Agrees (t : Bytes) : Prop :=
  ∀ buf more, t = buf ++ more → inspect buf = .needMore ∨ (inspect buf).view = (inspect t).view

/-- A boundary past a first request is a boundary. -/
theorem Boundary.head {stream t : Bytes} {req : Request} {need : ℕ}
    (hready : inspect stream = .ready req need) (h : Boundary (stream.drop need) t) :
    Boundary stream t := by
  induction h with
  | start => exact Boundary.start.next hready
  | next _ hready' ih => exact ih.next hready'

/-! ## Where the cuts make no difference -/

section Stable

variable {σ : Type} (f : σ → Request → Bool × σ) (clientIp : Bytes)

/-- What the reader does is told from the verdict. -/
theorem connReader_congr (w : σ) {buf buf' : Bytes} (h : (inspect buf).view = (inspect buf').view) :
    connReader (trimmed f) clientIp w buf = connReader (trimmed f) clientIp w buf' := by
  have hbad : ∀ req : Request, badRequestEvents clientIp req =
      badRequestEvents clientIp { req with raw := [], headerBytes := 0 } := fun _ => rfl
  unfold connReader
  generalize inspect buf = v at h
  generalize inspect buf' = v' at h
  cases v <;> cases v'
  case badRequest.badRequest req req' =>
    injection h with h
    dsimp only
    rw [hbad req, hbad req', h]
  case ready.ready req need req' need' =>
    injection h with h hneed
    subst hneed
    dsimp only [trimmed]
    rw [h]
  all_goals first | rfl | simp [Verdict.view] at h

/-- What the reader takes up is a request that is ready. -/
theorem connReader_take {serve : σ → Request → ℕ → Bool × σ} {w w' : σ} {buf : Bytes} {n : ℕ}
    {out : List ConnEvent} (h : connReader serve clientIp w buf = .take n w' out) :
    ∃ req, inspect buf = .ready req n := by
  unfold connReader at h
  cases hv : inspect buf <;> rw [hv] at h
  case ready req need =>
    dsimp only at h
    split at h
    · cases h
      exact ⟨req, rfl⟩
    · cases h
  all_goals cases h

/-- The reader goes from boundary to boundary. -/
theorem boundary_of_comes {serve : σ → Request → ℕ → Bool × σ} {w w' : σ} {stream t : Bytes}
    (h : Comes (connReader serve clientIp) w stream w' t) : Boundary stream t := by
  induction h with
  | refl => exact .start
  | step _ htake ih =>
    obtain ⟨req, hready⟩ := connReader_take clientIp htake
    exact ih.next hready

/-- Where the start of the stream agrees with all of it at every boundary, the reader is stable. -/
theorem connReader_stable (w : σ) {stream : Bytes} (h : ∀ t, Boundary stream t → Agrees t) :
    Stable (connReader (trimmed f) clientIp) w stream := by
  intro w' t hcomes buf more ht
  rcases h t (boundary_of_comes clientIp hcomes) buf more ht with hmore | hsame
  · left
    unfold connReader
    rw [hmore]
  · exact Or.inr (connReader_congr f clientIp w' hsame)

/-- However the stream is cut, the connection does what its reader does with all of it at once. -/
theorem serveConnection_at_once (w : σ) {stream : Bytes} (h : ∀ t, Boundary stream t → Agrees t)
    (hlen : stream.length ≤ maxHeaderBytes + maxBodyBytes) {script : List Recv}
    (hbytes : scriptBytes script = stream) :
    feedAll (connReader (trimmed f) clientIp) w [] (batches script) =
      read (connReader (trimmed f) clientIp) w stream := by
  have hflat : [] ++ (batches script).flatten = stream := by
    rw [List.nil_append, flatten_batches, hbytes]
  have hwait : connReader (trimmed f) clientIp w [] = .wait := rfl
  rw [← hflat] at hlen h ⊢
  exact Lib.Reader.feedAll_eq_read (connReader_progress _ _) hwait hlen
    (connReader_stable f clientIp w h)

end Stable

/-! ## Where the start of a stream agrees with all of it -/

/-- A request whose head ends in `LF LF` is all there before the `CR LF CR LF` is, which is the end
of its head once it is there. -/
def Ambiguous (t : Bytes) : Prop :=
  ∃ p q, find t [LF, LF] = some p ∧ find t [CR, LF, CR, LF] = some q ∧
    (parseRequest t).valid = true ∧ p + 2 + (parseRequest t).contentLength.toNat < q + 4

/-- A buffer within the limit of a head is below the size of the machine word. -/
theorem lt_of_le_maxHeaderBytes {n : ℕ} (h : n ≤ maxHeaderBytes) : n < 2^63 := by
  unfold maxHeaderBytes at h
  omega

/-- The start of a short stream agrees with all of it, where no request is ambiguous. -/
theorem agrees_of_not_ambiguous {t : Bytes} (hlen : t.length ≤ maxHeaderBytes) (h : ¬Ambiguous t) :
    Agrees t := by
  rintro buf more rfl
  have hbuf : buf.length ≤ maxHeaderBytes := by
    rw [List.length_append] at hlen
    omega
  cases hend : findHeaderEnd buf with
  | none =>
    left
    rw [inspect, hend]
    simp only
    rw [if_neg (by omega)]
  | some e =>
    obtain ⟨e', hend'⟩ := Option.isSome_iff_exists.mp
      (headerEnd_append_isSome (by rw [hend]; rfl) more)
    have hparse := parseRequest_append hend hend'
    rw [inspect_of_headerEnd (lt_of_le_maxHeaderBytes hbuf) hend,
      inspect_of_headerEnd (lt_of_le_maxHeaderBytes hlen) hend', hparse]
    split
    -- A bad request is bad in the same way with more bytes.
    · exact Or.inr rfl
    · rename_i hvalid
      rw [Bool.not_eq_false] at hvalid
      split
      · exact Or.inl rfl
      · rename_i hall
        -- The request is all there: its end stays, or it is ambiguous.
        rcases headerEnd_append hend hend' with rfl | ⟨p, q, hp, hq, rfl, rfl, hlt⟩
        · right
          dsimp only
          rw [if_neg (by rw [List.length_append]; omega)]
          simp only [Verdict.view, Request.trim, raw_parseRequest]
          rw [List.take_append_of_le_length (by omega), headerBytes_parseRequest hend]
        · refine absurd ⟨p, q, hp, hq, ?_, ?_⟩ h
          · rw [hparse]
            exact hvalid
          · rw [hparse]
            dsimp only
            omega

/-! ## Where they do -/

/-- Every request is served and the connection stays open. -/
def keeping : Unit → Request → Bool × Unit := fun _ _ => (true, ())

/-- To cut the stream in two makes no difference when every request keeps the connection open. -/
def SplitsAlike (t : Bytes) : Prop :=
  ∀ a b, t = a ++ b → (feedAll (connReader (trimmed keeping) []) () [] [a, b]).out =
    (read (connReader (trimmed keeping) []) () t).out

/-- A request that is ready is taken up, and the connection stays open. -/
theorem connReader_keeping (clientIp : Bytes) {buf : Bytes} {req : Request} {need : ℕ}
    (h : inspect buf = .ready req need) : connReader (trimmed keeping) clientIp () buf =
      .take need () [.served (req.trim need) need true] := by
  rw [connReader, h]
  rfl

/-- The first request of a buffer, and then what is made of the rest. -/
theorem read_keeping (clientIp : Bytes) {buf : Bytes}
    (hlen : buf.length ≤ maxHeaderBytes + maxBodyBytes) {req : Request} {need : ℕ}
    (h : inspect buf = .ready req need) : read (connReader (trimmed keeping) clientIp) () buf =
      (read (connReader (trimmed keeping) clientIp) () (buf.drop need)).after
        [.served (req.trim need) need true] :=
  Lib.Reader.read_take (connReader_progress _ _) hlen (connReader_keeping clientIp h)

/-- A stream that splits alike does so from the end of its first request on. -/
theorem SplitsAlike.drop {t : Bytes} (hlen : t.length ≤ maxHeaderBytes) (h : SplitsAlike t)
    {req : Request} {need : ℕ} (hready : inspect t = .ready req need) :
    SplitsAlike (t.drop need) := by
  intro a b hab
  have hle := (inspect_ready_bounds (lt_of_le_maxHeaderBytes hlen) hready).2
  have htake : t.take (need + a.length) = t.take need ++ a := by
    rw [List.take_add, hab, List.take_left]
  have hdrop : (t.take need ++ a).drop need = a := by
    have hlenTake : (t.take need).length = need := by rw [List.length_take, Nat.min_eq_left hle]
    calc (t.take need ++ a).drop need
        = (t.take need ++ a).drop (t.take need).length := by rw [hlenTake]
      _ = a := List.drop_left
  obtain ⟨req', hready', hreq, hraw⟩ :=
    inspect_take (lt_of_le_maxHeaderBytes hlen) hready (Nat.le_add_right need a.length)
  rw [htake] at hready' hraw
  -- The request served from the part before the cut is the same.
  have htrim : req'.trim need = req.trim need := by
    have hraw' : req'.raw.take need = t.take need := by
      calc req'.raw.take need = (t.take (need + a.length)).take need := by rw [hraw, htake]
        _ = t.take need := by rw [List.take_take, Nat.min_eq_left (Nat.le_add_right _ _)]
    rw [hreq, Request.trim, Request.trim, hraw']
  have hlen' : (t.take need ++ a).length ≤ maxHeaderBytes := by
    rw [← htake, List.length_take]
    omega
  have hsplit := h (t.take need ++ a) b (by rw [List.append_assoc, ← hab, List.take_append_drop])
  -- Both runs serve it first, and what is left of them is compared.
  rw [read_keeping [] (by omega) hready, feedAll, List.nil_append,
    read_keeping [] (by omega) hready',
    Outcome.after_andThen, hdrop, htrim] at hsplit
  exact List.append_cancel_left hsplit

/-- A stream that starts with an ambiguous request does not split alike. -/
theorem SplitsAlike.not_ambiguous {t : Bytes} (hlen : t.length ≤ maxHeaderBytes)
    (h : SplitsAlike t) :
    ¬Ambiguous t := by
  rintro ⟨p, q, hp, hq, hvalid, hlt⟩
  have hend : findHeaderEnd t = some (q + 4) := by rw [findHeaderEnd, hq]
  have hle := headerEnd_le_length hend
  generalize hcl : (parseRequest t).contentLength.toNat = cl at hlt
  have hsplit := List.take_append_drop (p + 2 + cl) t
  have hlenTake : (t.take (p + 2 + cl)).length = p + 2 + cl := by
    rw [List.length_take]
    omega
  -- Up to the end of the request there is no `CR LF CR LF`, and its head ends in `LF LF`.
  have hnone : find (t.take (p + 2 + cl)) [CR, LF, CR, LF] = none := by
    cases hfound : find (t.take (p + 2 + cl)) [CR, LF, CR, LF] with
    | none => rfl
    | some q' =>
      have hocc := (Lib.Search.find_occursAt hfound).end_le (by simp)
      have hsame := Lib.Search.find_append (by simp) hfound (t.drop (p + 2 + cl))
      rw [hsplit, show Lib.Search.find _ t = some q from hq, Option.some.injEq] at hsame
      rw [hlenTake, List.length_cons, List.length_cons, List.length_cons,
        List.length_singleton] at hocc
      omega
  have hendTake : findHeaderEnd (t.take (p + 2 + cl)) = some (p + 2) := by
    have hlf : find (t.take (p + 2 + cl)) [LF, LF] = some p :=
      Lib.Search.find_take hp (by simp only [List.length_cons, List.length_nil]; omega)
    rw [findHeaderEnd, hnone, hlf]
  have hendAll : findHeaderEnd (t.take (p + 2 + cl) ++ t.drop (p + 2 + cl)) = some (q + 4) := by
    rw [hsplit]
    exact hend
  have hparse := parseRequest_append hendTake hendAll
  rw [hsplit] at hparse
  have hready : inspect (t.take (p + 2 + cl)) =
      .ready (parseRequest (t.take (p + 2 + cl))) (p + 2 + cl) := by
    rw [inspect_of_headerEnd (lt_of_le_maxHeaderBytes (by omega)) hendTake]
    rw [hparse] at hvalid hcl
    dsimp only at hvalid hcl
    rw [if_neg (by simp [hvalid]), hcl, if_neg (by omega)]
  have hfed := h _ _ hsplit.symm
  rw [feedAll, List.nil_append, read_keeping [] (by omega) hready, Outcome.after_andThen] at hfed
  -- With all of the stream the first request is longer, or not there yet.
  have hall := inspect_of_headerEnd (lt_of_le_maxHeaderBytes hlen) hend
  rw [if_neg (by simp [hvalid]), hcl] at hall
  split at hall
  · have hwait : connReader (trimmed keeping) [] () t = .wait := by
      rw [connReader, hall]
    rw [Lib.Reader.read_wait hwait] at hfed
    simp [Outcome.after] at hfed
  · rw [read_keeping [] (by omega) hall] at hfed
    simp only [Outcome.after, List.singleton_append, List.cons.injEq,
      ConnEvent.served.injEq] at hfed
    omega

/-! ## Streams -/

/-- However a stream is cut, with an EOF at its end or without, the same requests are served and the
same answers given, where serving is a function of the fields of a request and the bytes it takes
up. -/
def SegmentationIndependent (stream : Bytes) : Prop :=
  ∀ (σ : Type) (f : σ → Request → Bool × σ) (w : σ) (clientIp : Bytes) (script script' : List Recv),
    Orderly script → Orderly script' → scriptBytes script = stream → scriptBytes script' = stream →
      calls (serveConnection (trimmed f) w clientIp script).events =
        calls (serveConnection (trimmed f) w clientIp script').events

/-- A segment for each byte. -/
def bytewise (d : Bytes) : List Recv := d.map fun b => .data b []

/-- Bytes in segments of their own, and a pause, are one batch. -/
theorem batches_bytewise (d : Bytes) (script : List Recv) :
    batches (bytewise d ++ .again :: script) = d :: batches script := by
  induction d with
  | nil => rfl
  | cons b d ih =>
    rw [bytewise, List.map_cons, List.cons_append, batches]
    rw [bytewise] at ih
    rw [ih]
    rfl

/-- Bytes in segments of their own leave the script orderly. -/
theorem orderly_bytewise {script : List Recv} (h : Orderly script) (d : Bytes) :
    Orderly (bytewise d ++ .again :: script) := by
  induction d with
  | nil => exact h
  | cons b d ih => exact ih

/-- A stream that is served alike in all segmentations is served alike where it is cut in two. -/
theorem SegmentationIndependent.splitsAlike {stream : Bytes} (hlen : stream.length ≤ maxHeaderBytes)
    (h : SegmentationIndependent stream) : SplitsAlike stream := by
  intro a b hab
  have hbatches : batches (bytewise a ++ .again :: (bytewise b ++ .again :: [])) = [a, b] := by
    rw [batches_bytewise, batches_bytewise, batches]
  have hbatches' : batches (bytewise stream ++ .again :: []) = [stream] := by
    rw [batches_bytewise, batches]
  have hempty : Orderly [] := trivial
  have horderly := orderly_bytewise (orderly_bytewise hempty b) a
  have horderly' := orderly_bytewise hempty stream
  have hbytes := flatten_batches (bytewise a ++ .again :: (bytewise b ++ .again :: []))
  have hbytes' := flatten_batches (bytewise stream ++ .again :: [])
  rw [hbatches, List.flatten_cons, List.flatten_singleton, ← hab] at hbytes
  rw [hbatches', List.flatten_singleton] at hbytes'
  have hfits : stream.length ≤ maxHeaderBytes + maxBodyBytes := hlen.trans (Nat.le_add_right _ _)
  have hfollows :
      Follows [] (feedAll (connReader (trimmed keeping) []) () [] (batches _)) _ _ _ :=
    serveConnection_follows () horderly (hbytes ▸ hfits)
  have hfollows' :
      Follows [] (feedAll (connReader (trimmed keeping) []) () [] (batches _)) _ _ _ :=
    serveConnection_follows () horderly' (hbytes' ▸ hfits)
  rw [hbatches] at hfollows
  rw [hbatches', Lib.Reader.feedAll_singleton, List.nil_append] at hfollows'
  calc (feedAll (connReader (trimmed keeping) []) () [] [a, b]).out
      = calls (serveConnection (trimmed keeping) () [] _).events := hfollows.out.symm
    _ = calls (serveConnection (trimmed keeping) () [] _).events :=
        h Unit keeping () [] _ _ horderly horderly' hbytes.symm hbytes'.symm
    _ = (read (connReader (trimmed keeping) []) () stream).out := hfollows'.out

/-- A boundary is what is left of the stream after some bytes. -/
theorem Boundary.eq_drop {stream t : Bytes} (h : Boundary stream t) : ∃ n, t = stream.drop n := by
  induction h with
  | start => exact ⟨0, rfl⟩
  | @next t req need _ _ ih =>
    obtain ⟨n, rfl⟩ := ih
    exact ⟨n + need, List.drop_drop⟩

/-- A boundary is no longer than the stream. -/
theorem Boundary.length_le {stream t : Bytes} (h : Boundary stream t) :
    t.length ≤ stream.length := by
  obtain ⟨n, rfl⟩ := h.eq_drop
  rw [List.length_drop]
  omega

/-- How a stream is cut makes no difference exactly where no boundary has an ambiguous request. -/
theorem segmentation_independent_iff (stream : Bytes) (h : stream.length ≤ maxHeaderBytes) :
    SegmentationIndependent stream ↔ ∀ t, Boundary stream t → ¬Ambiguous t := by
  constructor
  · intro hindependent t hboundary
    have hsplits : SplitsAlike t := by
      induction hboundary with
      | start => exact hindependent.splitsAlike h
      | next hboundary hready ih => exact ih.drop (hboundary.length_le.trans h) hready
    exact hsplits.not_ambiguous (hboundary.length_le.trans h)
  · intro hclear σ f w clientIp script script' horderly horderly' hbytes hbytes'
    have hagrees : ∀ t, Boundary stream t → Agrees t := fun t hboundary =>
      agrees_of_not_ambiguous (hboundary.length_le.trans h) (hclear t hboundary)
    have hfits : stream.length ≤ maxHeaderBytes + maxBodyBytes := h.trans (Nat.le_add_right _ _)
    -- Both do what the reader does with all of the stream at once.
    calc calls (serveConnection (trimmed f) w clientIp script).events
        = (feedAll (connReader (trimmed f) clientIp) w [] (batches script)).out :=
          (serveConnection_follows w horderly (hbytes ▸ hfits)).out
      _ = (read (connReader (trimmed f) clientIp) w stream).out := by
          rw [serveConnection_at_once f clientIp w hagrees hfits hbytes]
      _ = (feedAll (connReader (trimmed f) clientIp) w [] (batches script')).out := by
          rw [serveConnection_at_once f clientIp w hagrees hfits hbytes']
      _ = calls (serveConnection (trimmed f) w clientIp script').events :=
          (serveConnection_follows w horderly' (hbytes' ▸ hfits)).out.symm

/-- The cuts of a request whose lines end in carriage return and line feed make no difference. -/
theorem segmentation_independent_crlf :
    SegmentationIndependent (str "GET / HTTP/1.1\r\nHost: a\r\n\r\n") := by
  refine (segmentation_independent_iff _ (by decide +kernel)).mpr ?_
  rintro t hboundary ⟨p, -, hp, -⟩
  -- No `LF LF` comes in the stream, and so none from a boundary on.
  have hnone : find (str "GET / HTTP/1.1\r\nHost: a\r\n\r\n") [LF, LF] = none := by decide +kernel
  obtain ⟨n, rfl⟩ := hboundary.eq_drop
  have hocc := Lib.Search.find_occursAt hp
  rw [Lib.Search.occursAt_drop] at hocc
  exact Lib.Search.find_eq_none_iff.mp hnone _ hocc

/-- Two requests that come one after the other are served, and when they come at once, one is. -/
theorem segmentation_dependent :
    let first := str "GET / HTTP/1.1\nHost: a\n\n"
    let second := str "GET /admin HTTP/1.1\r\nHost: b\r\n\r\n"
    let script := [.data 71 (first.drop 1), .again, .data 71 (second.drop 1)]
    let script' := [.data 71 (first.drop 1), .data 71 (second.drop 1)]
    Orderly script ∧ Orderly script' ∧ scriptBytes script = first ++ second ∧
      scriptBytes script' = first ++ second ∧ (first ++ second).length ≤ maxHeaderBytes ∧
      calls (serveConnection (trimmed keeping) () [] script).events =
        [.served (parseRequest first) first.length true,
          .served (parseRequest second) second.length true] ∧
      calls (serveConnection (trimmed keeping) () [] script').events =
        [.served (parseRequest (first ++ second)) (first ++ second).length true] := by
  refine ⟨trivial, trivial, by decide +kernel, by decide +kernel, by decide +kernel, ?_, ?_⟩
  · decide +kernel
  · decide +kernel

end ForwardProxy
