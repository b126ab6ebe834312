import ForwardProxy.Server.Conservation
import ForwardProxy.Server.Pipeline

/-!
# The size limits

`handle_ready` holds the buffer against `max_header_bytes` only where no end of a head is found, and
against `max_body_bytes` only in the sum of the two, while it drains. So a request is served over a
limit when its head, or its body, has come as a whole by the time that it is looked at. The limits
hold on a connection exactly where no point of it slips (`connection_limited_iff`).
-/

namespace ForwardProxy

open Relation

/-! ## Requests over a limit -/

/-- The head and the declared body of a request are within their limits. -/
def WithinLimits (req : Request) : Prop :=
  req.headerBytes ≤ maxHeaderBytes ∧ req.contentLength.toNat ≤ maxBodyBytes

/-- The head at the front of a buffer goes on past the limit. -/
def HeadTooLong (buf : Bytes) : Prop :=
  maxHeaderBytes < buf.length ∧ ∀ e, findHeaderEnd buf = some e → maxHeaderBytes < e

/-- The head at the front of a buffer is within its limit, and says that the body is not. -/
def BodyTooLong (buf : Bytes) : Prop :=
  ¬HeadTooLong buf ∧ (parseRequest buf).valid = true ∧
    maxBodyBytes < (parseRequest buf).contentLength.toNat

/-- Where a head has its end, it is too long by that. -/
theorem headTooLong_iff {buf : Bytes} {e : ℕ} (h : findHeaderEnd buf = some e) :
    HeadTooLong buf ↔ maxHeaderBytes < e := by
  constructor
  · exact fun hlong => hlong.2 e h
  · intro hlt
    refine ⟨hlt.trans_le (headerEnd_le_length h), fun e' he' => ?_⟩
    rw [h] at he'
    cases he'
    exact hlt

/-! ## What a connection makes of them -/

section

variable {σ : Type} (serve : σ → Request → ℕ → Bool × σ)

/-- The buffer that is held against the limits: at the head of the serving loop, or where a drain
has taken in too much. -/
def Point.judged : Point σ → Option Bytes
  | .drain _ c script =>
    if (ForwardProxy.drain c.inbuf script).ending = .tooLarge then
      some (ForwardProxy.drain c.inbuf script).inbuf
    else none
  | .serve _ c _ _ _ => some c.inbuf

/-- The connection goes by this exit, here and at its end. -/
structure Answered (last : ReadyEnd σ) (p : Point σ) (exit : Exit) : Prop where
  leaves : Leaves serve p exit
  events : ∃ body, AllKept body ∧ last.events = body ++ exit.events

/-- What is over a limit is answered with 431 or 413 and closed, and a body while it is still coming
in may wait. -/
structure Point.Limited (last : ReadyEnd σ) (p : Point σ) : Prop where
  head : ∀ buf, p.judged = some buf → HeadTooLong buf → Answered serve last p .headerTooLarge
  body : ∀ buf, p.judged = some buf → BodyTooLong buf →
    Answered serve last p .tooLarge ∨ buf.length < expectedRequestBytes (parseRequest buf)

/-- The buffer at the head of the serving loop holds the end of a head that is too long, or all of a
body that is, or a drain takes in too much of a head. -/
def Point.Slips : Point σ → Prop
  | .drain _ c script => (ForwardProxy.drain c.inbuf script).ending = .tooLarge ∧
      HeadTooLong (ForwardProxy.drain c.inbuf script).inbuf
  | .serve _ c _ _ _ => (findHeaderEnd c.inbuf).isSome = true ∧ HeadTooLong c.inbuf ∨
      BodyTooLong c.inbuf ∧ expectedRequestBytes (parseRequest c.inbuf) ≤ c.inbuf.length

variable {serve}

/-- A way out that a connection comes to, other than re-arming, is the one that it takes. -/
theorem Ends.answered {start p q : Point σ} {last : ReadyEnd σ} {body : List ConnEvent}
    {exit exit' : Exit} (h : Ends serve start last body p exit)
    (hq : ReflTransGen (Next serve) start q) (hleaves : Leaves serve q exit')
    (hne : exit' ≠ .rearmed) : Answered serve last q exit' := by
  obtain rfl := h.eq_of_leaves hq hleaves hne
  exact ⟨hleaves, body, h.kept, h.events hne⟩

/-- Where it does not slip, what is over a limit is on its way out. -/
theorem Ends.limited {start p q : Point σ} {last : ReadyEnd σ} {body : List ConnEvent}
    {exit : Exit} (h : Ends serve start last body p exit)
    (hq : ReflTransGen (Next serve) start q) (hslips : ¬q.Slips) : q.Limited serve last := by
  cases q with
  | drain w c script =>
    -- Only a drain that has taken in too much is judged.
    have hjudged : ∀ buf, (Point.drain w c script).judged = some buf →
        (drain c.inbuf script).ending = .tooLarge ∧ (drain c.inbuf script).inbuf = buf := by
      intro buf hbuf
      rw [Point.judged] at hbuf
      split at hbuf
      · rename_i hending
        exact ⟨hending, Option.some.inj hbuf⟩
      · cases hbuf
    refine ⟨fun buf hbuf hlong => ?_, fun buf hbuf _ => ?_⟩
    · obtain ⟨hending, rfl⟩ := hjudged buf hbuf
      exact absurd ⟨hending, hlong⟩ hslips
    · obtain ⟨hending, -⟩ := hjudged buf hbuf
      exact Or.inl (h.answered hq (.tooLarge hending) (by simp))
  | serve w c eof any rest =>
    rw [Point.Slips, not_or] at hslips
    refine ⟨fun buf hbuf hlong => ?_, fun buf hbuf hlong => ?_⟩
    · obtain rfl := Option.some.inj hbuf
      have hend : findHeaderEnd c.inbuf = none := by
        simpa [hlong] using hslips.1
      have hinspect := inspect_headerTooLarge_iff.mpr ⟨hend, hlong.1⟩
      exact h.answered hq (.headerTooLarge hinspect) (by simp)
    · obtain rfl := Option.some.inj hbuf
      refine Or.inr (Nat.lt_of_not_le fun hle => hslips.2 ⟨hlong, hle⟩)

/-- Where it slips, what is over a limit stays. -/
theorem Point.Slips.not_limited {last : ReadyEnd σ} {q : Point σ} (h : q.Slips) :
    ¬q.Limited serve last := by
  intro hlimited
  cases q with
  | drain w c script =>
    have hjudged : (Point.drain w c script).judged =
        some (ForwardProxy.drain c.inbuf script).inbuf := if_pos h.1
    cases (hlimited.head _ hjudged h.2).leaves
  | serve w c eof any rest =>
    rcases h with ⟨hend, hlong⟩ | ⟨hlong, hle⟩
    · cases (hlimited.head _ rfl hlong).leaves with
      | headerTooLarge hinspect =>
        rw [(inspect_headerTooLarge_iff.mp hinspect).1] at hend
        cases hend
    · rcases hlimited.body _ rfl hlong with hanswered | hlt
      · cases hanswered.leaves
      · omega

/-- Where it does not slip, a request that is passed on is within the limits. -/
theorem withinLimits_of_ready {w : σ} {c : Conn} {eof any : Bool} {rest : List Recv}
    {req : Request} {need : ℕ} (hslips : ¬(Point.serve w c eof any rest).Slips)
    (hbuf : c.inbuf.length < 2^63) (h : inspect c.inbuf = .ready req need) :
    WithinLimits req := by
  obtain ⟨rfl, hvalid, hneed, hle⟩ := (inspect_ready_iff hbuf).mp h
  have hend := headerEnd_of_valid hvalid
  have hexpected := expectedRequestBytes_eq hbuf (headerEnd_le_length hend)
  rw [Point.Slips, not_or] at hslips
  have hhead : ¬HeadTooLong c.inbuf := fun hlong => hslips.1 ⟨by rw [hend]; rfl, hlong⟩
  refine ⟨Nat.le_of_not_lt fun hlt => hhead ((headTooLong_iff hend).mpr hlt), ?_⟩
  by_contra hbody
  exact hslips.2 ⟨⟨hhead, hvalid, by omega⟩, by omega⟩

/-- Where no point slips, every request that is passed on is within the limits. -/
theorem passes_withinLimits {start p : Point (σ × List (Request × ℕ))} (hfits : start.Fits)
    (hstart : start.world.2 = []) (h : ReflTransGen (Next (recorded serve)) start p)
    (hslips : ∀ q, ReflTransGen (Next (recorded serve)) start q → ¬q.Slips) :
    ∀ pass ∈ (p.after (recorded serve)).1.2, WithinLimits pass.1 := by
  have hready : ∀ {w : σ × List (Request × ℕ)} {c : Conn} {eof any : Bool} {rest : List Recv}
      {req : Request} {need : ℕ},
      ReflTransGen (Next (recorded serve)) start (.serve w c eof any rest) →
      inspect c.inbuf = .ready req need → (∀ pass ∈ w.2, WithinLimits pass.1) →
      ∀ pass ∈ w.2 ++ [(req, need)], WithinLimits pass.1 := by
    intro w c eof any rest req need hrun hinspect hpasses
    have hlt : c.inbuf.length < 2^63 := lt_of_le_total (fits_of_reflTransGen hrun hfits)
    have hreq := withinLimits_of_ready (hslips _ hrun) hlt hinspect
    exact List.forall_mem_append.mpr ⟨hpasses, List.forall_mem_singleton.mpr hreq⟩
  -- What is passed on at a point is added to what was passed on before it.
  have hpasses : ∀ pass ∈ p.world.2, WithinLimits pass.1 := by
    induction h with
    | refl => simp [hstart]
    | tail hrun hstep ih =>
      cases hstep with
      | drained => exact ih
      | eof => exact ih
      | served hinspect => exact hready hrun hinspect ih
      | again => exact ih
      | readable => exact ih
  cases p with
  | drain w c script => exact hpasses
  | serve w c eof any rest =>
    rw [Point.after]
    cases hinspect : inspect c.inbuf with
    | ready req need => exact hready h hinspect hpasses
    | needMore => exact hpasses
    | headerTooLarge => exact hpasses
    | badRequest req => exact hpasses

end

/-- On a connection every request that is passed on is within the limits, and what is over a limit
is answered and closed, exactly where no point slips. -/
theorem connection_limited_iff {σ : Type} (serve : σ → Request → ℕ → Bool × σ) (w : σ)
    (clientIp : Bytes) (script : List Recv) :
    let start : Point (σ × List (Request × ℕ)) := .drain (w, []) { clientIp := clientIp } script
    let last := serveConnection (recorded serve) (w, []) clientIp script
    ((∀ pass ∈ last.world.2, WithinLimits pass.1) ∧
        ∀ p, ReflTransGen (Next (recorded serve)) start p → p.Limited (recorded serve) last) ↔
      ∀ p, ReflTransGen (Next (recorded serve)) start p → ¬p.Slips := by
  intro start last
  constructor
  · exact fun h p hp hslips => hslips.not_limited (h.2 p hp)
  · intro hslips
    have hfits : start.Fits := Nat.zero_le _
    obtain ⟨body, p, exit, hends⟩ :=
      serveConnection_exit (recorded serve) (w, []) clientIp script
    obtain ⟨q, hq, hafter⟩ := serveConnection_after (recorded serve) (w, []) clientIp script
    have hpasses := passes_withinLimits hfits rfl hq hslips
    rw [hafter] at hpasses
    exact ⟨hpasses, fun p hp => hends.limited hp (hslips p hp)⟩

/-! ## A head that is too long -/

/-- A first request that does not keep the connection open is the only one that is served. -/
theorem serveConnection_notKept {σ : Type} (serve : σ → Request → ℕ → Bool × σ) (w : σ)
    (clientIp : Bytes) {script : List Recv} {req : Request} {need : ℕ}
    (hending : (drain [] script).ending = .drained)
    (hinspect : inspect (drain [] script).inbuf = .ready req need)
    (hkeep : (serve w req need).1 = false) :
    (serveConnection serve w clientIp script).world = (serve w req need).2 := by
  have hscript : script ≠ [] := by
    rintro rfl
    cases hinspect
  obtain ⟨n, hn⟩ : ∃ n, script.length = n + 1 :=
    Nat.exists_eq_succ_of_ne_zero fun h => hscript (List.length_eq_zero_iff.mp h)
  simp [serveConnection, hn, connectionLoop, hscript, handleReady, readyLoop, turn, hending,
    serveLoop, hinspect, hkeep]

/-- A request for a path of letters. -/
def longMessage (letters : Bytes) (h : ∀ b ∈ letters, b = 97) : Message where
  method := str "GET"
  target := str "/" ++ letters
  version := str "HTTP/1.1"
  lines := [str "Host: h"]
  body := []
  method_ok := method_get
  target_ok := by
    have hfree : ∀ b : Byte, b ≠ 97 → b ∉ str "/" → b ∉ str "/" ++ letters := by
      intro b hne hslash hmem
      rcases List.mem_append.mp hmem with hmem | hmem
      · exact hslash hmem
      · exact hne (h b hmem)
    exact ⟨List.cons_ne_nil _ _, hfree SP (by decide) (by decide),
      hfree CR (by decide) (by decide), hfree LF (by decide) (by decide)⟩
  version_ok := version_http11
  lines_ok := by decide +kernel
  host_ok := Or.inr (by decide +kernel)
  body_ok := Or.inl ⟨by decide +kernel, rfl⟩

/-- The long message as it is sent. -/
theorem encode_longMessage {letters : Bytes} (h : ∀ b ∈ letters, b = 97) :
    (longMessage letters h).encode =
      (71 :: str "ET /") ++ letters ++ SP :: str "HTTP/1.1\r\nHost: h\r\n\r\n" := by
  have hget : str "GET" ++ SP :: str "/" = 71 :: str "ET /" := by decide
  have hrest : str "HTTP/1.1" ++ str "\r\n" ++ (str "Host: h" ++ str "\r\n") ++ str "\r\n" =
      str "HTTP/1.1\r\nHost: h\r\n\r\n" := by decide
  calc (longMessage letters h).encode
      = (str "GET" ++ SP :: str "/") ++ letters ++ SP :: (str "HTTP/1.1" ++ str "\r\n" ++
          (str "Host: h" ++ str "\r\n") ++ str "\r\n") := by
        simp [longMessage, Message.encode, Message.headText, Message.line]
    _ = _ := by rw [hget, hrest]

/-- A request whose path alone is as long as a head may be, and which comes in one drain, is passed
on. -/
theorem long_head_passed :
    let segment : Recv := .data 97 (List.replicate 16383 97)
    let script := [.data 71 (str "ET /"), segment, segment, segment, segment,
      .data SP (str "HTTP/1.1\r\nHost: h\r\n\r\n")]
    let last := serveConnection (recorded fun (_ : Unit) _ _ => (false, ())) ((), []) [] script
    ∃ pass ∈ last.world.2, maxHeaderBytes < pass.1.headerBytes := by
  intro segment script last
  obtain ⟨bytes, hbytes⟩ : ∃ bytes : Bytes, bytes = List.replicate 16383 97 := ⟨_, rfl⟩
  have hlen : bytes.length = 16383 := by rw [hbytes, List.length_replicate]
  have hletters : ∀ b ∈ (97 :: bytes) ++ (97 :: bytes) ++ (97 :: bytes) ++ (97 :: bytes),
      b = 97 := by
    have hsegment : ∀ b ∈ 97 :: bytes, b = 97 :=
      List.forall_mem_cons.mpr ⟨rfl, fun b hb => List.eq_of_mem_replicate (hbytes ▸ hb)⟩
    simp only [List.forall_mem_append]
    exact ⟨⟨⟨hsegment, hsegment⟩, hsegment⟩, hsegment⟩
  -- The segments are a message with a path of 65532 letters.
  set m := longMessage _ hletters with hm
  have hencode := encode_longMessage hletters
  rw [← hm] at hencode
  have hfirst : (str "ET /").length = 4 := by decide
  have hlast : (str "HTTP/1.1\r\nHost: h\r\n\r\n").length = 21 := by decide
  have hdrain : drain [] script = ⟨m.encode, .drained, []⟩ := by
    rw [hencode]
    simp [script, segment, ← hbytes, drain, hlen, hfirst, hlast, maxHeaderBytes, maxBodyBytes]
  have hsize : m.encode.length = 65563 := by
    rw [hencode]
    simp [hlen, hfirst, hlast]
  have hinspect : inspect (drain [] script).inbuf = .ready m.request m.encode.length := by
    have hready := @Message.inspect_encode m [] (by
      rw [List.append_nil, hsize]
      decide)
    rw [List.append_nil] at hready
    rw [hdrain]
    exact hready
  have hworld := serveConnection_notKept (recorded fun (_ : Unit) _ _ => (false, ())) ((), []) []
    (by rw [hdrain]) hinspect rfl
  refine ⟨(m.request, m.encode.length), by rw [hworld]; exact List.mem_singleton_self _, ?_⟩
  have hhead : m.request.headerBytes = m.encode.length :=
    congrArg List.length (List.append_nil m.headText).symm
  rw [hhead, hsize]
  decide

end ForwardProxy
