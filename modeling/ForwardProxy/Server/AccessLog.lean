import ForwardProxy.Http.ResponseHead
import ForwardProxy.Server.Exact
import ForwardProxy.Server.Exits

/-!
# One line in the access log for each response

What a connection hands to `send_all` and to `AccessLog::write`, in order. A request that is served
is answered by one response and logged by one line with its status, on every path through
`serve_one_request`; so is a request that is rejected as malformed. The two exits for input that is
too large send a response and write no line. So the lines of a connection are those of its responses
exactly where it comes to neither exit (`connection_logged_iff`).
-/

namespace ForwardProxy

open Lib.Interaction Relation

/-! ## The status of a response -/

/-- The status of a response that is sent. -/
def statusOf (data : Bytes) : ℤ := (parseResponseHeaders data).status

/-- The status of a response that the proxy builds is the one that it is built with. -/
theorem statusOf_buildResponse {n : ℕ} (hn : n < 2^31) (reason : Bytes) (hreason : LF ∉ reason)
    (body : Bytes) (keepAlive : Bool) : statusOf (buildResponse n reason body keepAlive) = n := by
  set line := str "HTTP/1.1" ++ SP :: (decimal n ++ SP :: reason) with hline
  obtain ⟨fields, hraw⟩ : ∃ fields, buildResponse n reason body keepAlive =
      line ++ [CR] ++ LF :: (fields ++ ([CR, LF, CR, LF] ++ body)) := by
    refine ⟨str "Content-Type: text/plain\r\nContent-Length: " ++ decimal body.length ++
      str "\r\nConnection: " ++ str (if keepAlive then "keep-alive" else "close"), ?_⟩
    have hversion : str "HTTP/1.1 " = str "HTTP/1.1" ++ [SP] := by decide
    have hsp : str " " = [SP] := by decide
    have hcrlf : str "\r\n" = [CR, LF] := by decide
    have htype : str "Content-Type: text/plain\r\nContent-Length: " =
        str "Content-Type: " ++ str "text/plain" ++ [CR, LF] ++ str "Content-Length: " := by decide
    have hconnection : str "\r\nConnection: " = [CR, LF] ++ str "Connection: " := by decide
    have hdecimal : decimalInt n = decimal n := by simp [decimalInt]
    rw [buildResponse, hline, hversion, hsp, hcrlf, htype, hconnection, hdecimal]
    simp
  have hlf : LF ∉ line ++ [CR] := by
    have hversion : LF ∉ str "HTTP/1.1" := by decide
    have hdigits : LF ∉ decimal n := fun h => absurd (isDigit_of_mem_decimal h) (by decide)
    have hsp : LF ≠ SP := by decide
    have hcr : LF ≠ CR := by decide
    simp [hline, hversion, hdigits, hsp, hcr, hreason]
  have hend : (findHeaderEnd (line ++ [CR] ++ LF :: (fields ++ ([CR, LF, CR, LF] ++ body)))).isSome
      := by
    have hsplit : line ++ [CR] ++ LF :: (fields ++ ([CR, LF, CR, LF] ++ body)) =
        line ++ [CR] ++ LF :: fields ++ [CR, LF, CR, LF] ++ body := by
      simp
    rw [hsplit]
    exact headerEnd_isSome _ body
  rw [statusOf, hraw, status_parseResponseHeaders hlf hend, popCR_append,
    statusCode_statusLine hn (by decide)]
  rfl

/-- A fetch that succeeded reports the status of the response that it returns. -/
theorem status_fetchUpstream {connect : Connect} {recvs : List Recv}
    (h : (fetchUpstream connect recvs).ok = true) :
    (fetchUpstream connect recvs).status = statusOf (fetchUpstream connect recvs).raw := by
  -- More bytes may move the end of the head, and leave the status.
  have hdone : ∀ s : FetchState, (∀ p, s.parsed = some p → HeadParsed s.buf p) →
      (fetchDone s).ok = true → (fetchDone s).status = statusOf (fetchDone s).raw := by
    intro s hparsed hok
    unfold fetchDone at hok ⊢
    split at hok
    · cases hok
    · rename_i hne
      rw [if_neg hne]
      cases hs : s.parsed with
      | some p =>
        obtain ⟨hend, heq⟩ := (hparsed p hs).parse_eq
        simp only [statusOf, heq]
      | none =>
        simp only [hs] at hok ⊢
        split at hok
        · cases hok
        · rename_i hvalid
          rw [if_neg hvalid]
          rfl
  unfold fetchUpstream at h ⊢
  cases connect with
  | noAddress reason => cases h
  | noSocket reason => cases h
  | refused reason => cases h
  | notSent reason => cases h
  | sent =>
    have hloop := fetchLoop_eq fetchInv_empty recvs
    dsimp only at h ⊢
    cases hlast : lastTurn {} recvs with
    | none =>
      rw [hlast] at hloop
      obtain ⟨error, herror⟩ := hloop
      rw [herror] at h
      cases h
    | some turn =>
      obtain ⟨s₀, r⟩ := turn
      rw [hlast] at hloop
      obtain ⟨hinv, s', hstop, hok⟩ := hloop
      rw [hok] at h ⊢
      -- The loop has stopped with a head parsed from the start of the buffer, if from any.
      refine hdone s' (fun p hp => ?_) h
      rcases hinv.stop hstop with ⟨-, rfl⟩ | ⟨-, -, -, q, hq, hhead, -⟩
      · exact hinv.parsed p hp
      · rw [hq] at hp
        cases hp
        exact hhead

/-! ## What a connection sends and logs -/

/-- A response handed to `send_all`, or a line handed to the access log. -/
inductive Output
  | response (data : Bytes)
  | line (entry : Entry)

/-- A response or a line that serving a request puts out. -/
def Output.ofServe : ServeEvent → Option Output
  | ⟨.sendAll data, _⟩ => some (.response data)
  | ⟨.logWrite entry, _⟩ => some (.line entry)
  | _ => none

/-- A response or a line that a connection puts out on its own. -/
def Output.ofConn : ConnEvent → Option Output
  | .sent data => some (.response data)
  | .logged entry => some (.line entry)
  | _ => none

/-- The statuses of the responses, in order. -/
def responseStatuses (out : List Output) : List ℤ :=
  out.filterMap fun
    | .response data => some (statusOf data)
    | .line _ => none

/-- The statuses of the lines, in order. -/
def lineStatuses (out : List Output) : List ℤ :=
  out.filterMap fun
    | .response _ => none
    | .line entry => some entry.status

/-- What a connection acts on, with other connections at work beside it: each answer may depend on
all that came before it, and on anything else. The upstream answers a fetch with how the connect
goes and what each `recv` returns. -/
structure Surroundings (ω : Type) where
  now : ω → ℤ × ω
  cacheGet : Bytes → ω → Option Bytes × ω
  cachePut : Bytes → Bytes → ω → ω
  upstream : Upstream → Bytes → ω → (Connect × List Recv) × ω
  send : Bytes → ω → Bool × ω

namespace Surroundings

variable {ω : Type} (env : Surroundings ω)

/-- The answer of the surroundings to an operation, and what they are after it. -/
def handle : (o : ServeOp) → ω → o.Answer × ω
  | .now, w => env.now w
  | .bump _, w => ((), w)
  | .cacheGet key, w => env.cacheGet key w
  | .cachePut key value, w => ((), env.cachePut key value w)
  | .fetchUpstream up requestBytes, w =>
    let ((connect, recvs), w) := env.upstream up requestBytes w
    (fetchUpstream connect recvs, w)
  | .sendAll data, w => env.send data w
  | .logWrite _, w => ((), w)

/-- `serve_one_request`, with what was sent and logged for all requests so far. -/
def serve (acl : AccessControl) (clientIp : Bytes) (w : ω × List Output) (req : Request)
    (need : ℕ) : Bool × (ω × List Output) :=
  let (es, keep, s) := (serveOneRequest acl clientIp req need).exec env.handle w.1
  (keep, (s, w.2 ++ es.filterMap Output.ofServe))

/-- What is sent and logged for a connection. What `handle_ready` sends and logs on its own comes on
its way out, after all requests were served. -/
def outputs (acl : AccessControl) (clientIp : Bytes) (w : ω) (script : List Recv) : List Output :=
  let r := serveConnection (env.serve acl clientIp) (w, []) clientIp script
  r.world.2 ++ r.events.filterMap Output.ofConn

end Surroundings

/-! ## Requests that are served -/

/-- The line of a request that is served comes after its response, and with its status. -/
def LoggedOnce (out : List Output) : Prop :=
  ∃ data entry, out = [.response data, .line entry] ∧ entry.status = statusOf data

/-- Every fetch among the events was answered as `fetch_upstream` answers. -/
def Genuine (h : List ServeEvent) : Prop :=
  ∀ up bytes, ∀ res : UpstreamResult, (⟨.fetchUpstream up bytes, res⟩ : ServeEvent) ∈ h →
    ∃ connect recvs, res = fetchUpstream connect recvs

/-- The result of serving a request, as `Sat` asks for it. -/
def ServedOnce (h : List ServeEvent) (_ : Bool) : Prop :=
  Genuine h → LoggedOnce (h.filterMap Output.ofServe)

/-- A line after its response, with its status, is logged once. -/
theorem logged_snoc {h : List ServeEvent} {data : Bytes} {entry : Entry} {t : ℤ} {done : Unit}
    (hout : h.filterMap Output.ofServe = [.response data])
    (hstatus : entry.status = statusOf data) :
    LoggedOnce ((h ++ [(⟨.now, t⟩ : ServeEvent)] ++
      [(⟨.logWrite entry, done⟩ : ServeEvent)]).filterMap Output.ofServe) := by
  refine ⟨data, entry, ?_, hstatus⟩
  rw [List.append_assoc, List.filterMap_append, hout]
  rfl

/-- Ending a request writes the line of the response before it. -/
theorem finish_logs {h : List ServeEvent} (data : Bytes) {status : ℤ}
    (hout : h.filterMap Output.ofServe = [.response data])
    (hstatus : Genuine h → status = statusOf data) (t0 : ℤ) (log : Entry) (bytes : ℕ)
    (cacheState : Bytes) (keepAlive : Bool) :
    Prog.Sat (fun _ _ => True) ServedOnce h (finish t0 log status bytes cacheState keepAlive) := by
  refine ⟨trivial, fun t => ⟨trivial, fun _ hgenuine => ?_⟩⟩
  have hpast : Genuine h := by
    intro up bytes res hmem
    exact hgenuine up bytes res (by simp [hmem])
  apply logged_snoc hout
  exact hstatus hpast

/-- Forwarding sends one response and writes its line. -/
theorem forward_logs {h : List ServeEvent} (hout : h.filterMap Output.ofServe = []) (t0 : ℤ)
    (log : Entry) (up : Upstream) (req : Request) (consumed : ℕ) :
    Prog.Sat (fun _ _ => True) ServedOnce h (forward t0 log up req consumed) := by
  rw [forward, Prog.sat_perform_bind]
  refine ⟨trivial, fun ur => ?_⟩
  split
  · simp only [Prog.sat_perform_bind]
    refine ⟨trivial, fun _ => ⟨trivial, fun _ => finish_logs
      (buildResponse 502 (str "Bad Gateway") (badGatewayBody ur.error) false) ?_ (fun _ => ?_) ..⟩⟩
    · rw [List.append_assoc, List.append_assoc, List.filterMap_append, hout]
      rfl
    · exact (statusOf_buildResponse (n := 502) (by omega) _ (by decide) _ _).symm
  · rename_i hok
    rw [Bool.not_eq_true', Bool.not_eq_false] at hok
    -- The status logged is the one that the fetch reported.
    have hstatus : ∀ h', Genuine (h ++ [⟨.fetchUpstream up (req.raw.take consumed), ur⟩] ++ h') →
        ur.status = statusOf ur.raw := by
      intro h' hgenuine
      obtain ⟨connect, recvs, rfl⟩ := hgenuine up (req.raw.take consumed) ur (by simp)
      exact status_fetchUpstream hok
    simp only [Prog.sat_perform_bind]
    refine ⟨trivial, fun _ => ?_⟩
    split
    · simp only [Prog.sat_perform_bind]
      refine ⟨trivial, fun _ => ⟨trivial, fun _ => finish_logs ur.raw ?_ (fun hg => ?_) ..⟩⟩
      · simp only [List.append_assoc, List.filterMap_append, hout]
        rfl
      · exact hstatus _ (by simpa using hg)
    · simp only [Prog.sat_perform_bind]
      refine ⟨trivial, fun _ => finish_logs ur.raw ?_ (fun hg => ?_) ..⟩
      · simp only [List.append_assoc, List.filterMap_append, hout]
        rfl
      · exact hstatus _ (by simpa using hg)

/-- On every path a request that is served is sent one response and logged by one line. -/
theorem serveOneRequest_logs (acl : AccessControl) (clientIp : Bytes) (req : Request)
    (consumed : ℕ) :
    Prog.Sat (fun _ _ => True) ServedOnce [] (serveOneRequest acl clientIp req consumed) := by
  simp only [serveOneRequest, Prog.sat_perform_bind]
  refine ⟨trivial, fun t0 => ⟨trivial, fun _ => ?_⟩⟩
  split
  · simp only [Prog.sat_perform_bind]
    refine ⟨trivial, fun _ => ⟨trivial, fun _ => finish_logs
      (buildResponse 403 (str "Forbidden") forbiddenBody req.keepAlive) rfl (fun _ => ?_) ..⟩⟩
    exact (statusOf_buildResponse (n := 403) (by omega) _ (by decide) _ _).symm
  · split
    · rw [Prog.sat_perform_bind]
      refine ⟨trivial, fun hit => ?_⟩
      cases hit with
      | some hit =>
        simp only [Prog.sat_perform_bind]
        refine ⟨trivial, fun _ => ⟨trivial, fun _ => finish_logs hit rfl (fun _ => rfl) ..⟩⟩
      | none => exact forward_logs rfl ..
    · exact forward_logs rfl ..

/-- The responses of two parts, one after the other. -/
@[simp]
theorem responseStatuses_append (out out' : List Output) :
    responseStatuses (out ++ out') = responseStatuses out ++ responseStatuses out' :=
  List.filterMap_append

/-- The lines of two parts, one after the other. -/
@[simp]
theorem lineStatuses_append (out out' : List Output) :
    lineStatuses (out ++ out') = lineStatuses out ++ lineStatuses out' :=
  List.filterMap_append

/-- A line and its response have one status. -/
theorem LoggedOnce.statuses {out : List Output} (h : LoggedOnce out) :
    lineStatuses out = responseStatuses out := by
  obtain ⟨data, entry, rfl, hstatus⟩ := h
  simp [lineStatuses, responseStatuses, hstatus]

/-- Serving a request keeps the lines those of the responses. -/
theorem Surroundings.serve_logs {ω : Type} (env : Surroundings ω) (acl : AccessControl)
    (clientIp : Bytes) (w : ω × List Output) (req : Request) (need : ℕ)
    (hw : lineStatuses w.2 = responseStatuses w.2) :
    lineStatuses (env.serve acl clientIp w req need).2.2 =
      responseStatuses (env.serve acl clientIp w req need).2.2 := by
  have hgenuine : Genuine ((serveOneRequest acl clientIp req need).exec env.handle w.1).1 := by
    intro up bytes res hmem
    obtain ⟨w', hanswer⟩ := Prog.answer_of_mem_exec hmem
    exact ⟨_, _, hanswer⟩
  have hlogged := (serveOneRequest_logs acl clientIp req need).result
    (Prog.runs_exec env.handle _ w.1) hgenuine
  simp only [Surroundings.serve, lineStatuses_append, responseStatuses_append, hw,
    hlogged.statuses]

/-! ## Input that is too large -/

/-- The two ways out that answer without a line. -/
def Exit.Overflow (exit : Exit) : Prop := exit = .tooLarge ∨ exit = .headerTooLarge

/-- The drain leaves more than a request may have, or the buffer holds more than a head may have and
no end of one. -/
def Point.Overflows {σ : Type} : Point σ → Prop
  | .drain _ c script =>
    maxHeaderBytes + maxBodyBytes < (ForwardProxy.drain c.inbuf script).inbuf.length
  | .serve _ c _ _ _ => findHeaderEnd c.inbuf = none ∧ maxHeaderBytes < c.inbuf.length

/-- Every exit but those for input that is too large logs what it sends. -/
theorem Exit.logs_iff (exit : Exit) :
    lineStatuses (exit.events.filterMap Output.ofConn) =
      responseStatuses (exit.events.filterMap Output.ofConn) ↔ ¬exit.Overflow := by
  -- What an exit sends and logs is read off its events.
  cases exit with
  | tooLarge =>
    have hne : lineStatuses (tooLargeEvents.filterMap Output.ofConn) ≠
        responseStatuses (tooLargeEvents.filterMap Output.ofConn) := (List.cons_ne_nil _ _).symm
    simpa [Exit.Overflow, Exit.events] using hne
  | headerTooLarge =>
    have hne : lineStatuses (headerTooLargeEvents.filterMap Output.ofConn) ≠
        responseStatuses (headerTooLargeEvents.filterMap Output.ofConn) :=
      (List.cons_ne_nil _ _).symm
    simpa [Exit.Overflow, Exit.events] using hne
  | badRequest clientIp req =>
    have hstatus := statusOf_buildResponse (n := 400) (by omega) (str "Bad Request")
      (by decide) (str "400 Bad Request: " ++ req.parseError ++ str "\n") false
    have heq : lineStatuses ((badRequestEvents clientIp req).filterMap Output.ofConn) =
        responseStatuses ((badRequestEvents clientIp req).filterMap Output.ofConn) :=
      congrArg (fun status => [status]) hstatus.symm
    simpa [Exit.Overflow, Exit.events] using heq
  | failed => simp [Exit.Overflow]; rfl
  | notKept req need => simp [Exit.Overflow]; rfl
  | peerClosed => simp [Exit.Overflow]; rfl
  | rearmed => simp [Exit.Overflow]; rfl

section

variable {σ : Type} {serve : σ → Request → ℕ → Bool × σ}

/-- The way out tells whether the point overflows. -/
theorem Leaves.overflows_iff {p : Point σ} {exit : Exit} (h : Leaves serve p exit) (hp : p.Fits) :
    p.Overflows ↔ exit.Overflow := by
  have hdrain : ∀ {c : Conn} {script : List Recv}, c.inbuf.length ≤ maxHeaderBytes + maxBodyBytes →
      (drain c.inbuf script).ending ≠ .tooLarge →
      ¬maxHeaderBytes + maxBodyBytes < (drain c.inbuf script).inbuf.length :=
    fun hc hne => Nat.not_lt.mpr ((drain_bounds _ hc).1 hne)
  have hserve : ∀ {c : Conn}, inspect c.inbuf ≠ .headerTooLarge →
      ¬(findHeaderEnd c.inbuf = none ∧ maxHeaderBytes < c.inbuf.length) :=
    fun hne h => hne (inspect_headerTooLarge_iff.mpr h)
  cases h with
  | tooLarge h => simpa [Exit.Overflow, Point.Overflows] using drain_tooLarge h
  | failed h => simpa [Exit.Overflow, Point.Overflows] using hdrain hp (by simp [h])
  | headerTooLarge h =>
    simpa [Exit.Overflow, Point.Overflows] using inspect_headerTooLarge_iff.mp h
  | badRequest h => simpa [Exit.Overflow, Point.Overflows] using hserve (by simp [h])
  | notKept h hkeep => simpa [Exit.Overflow, Point.Overflows] using hserve (by simp [h])
  | peerClosed h => simpa [Exit.Overflow, Point.Overflows] using hserve (by simp [h])
  | rearmed h => simpa [Exit.Overflow, Point.Overflows] using hserve (by simp [h])

/-- A point that overflows is left there. -/
theorem Point.Overflows.leaves {p : Point σ} (h : p.Overflows) (hp : p.Fits) :
    ∃ exit, Leaves serve p exit ∧ exit.Overflow := by
  cases p with
  | drain w c script =>
    have hending : (ForwardProxy.drain c.inbuf script).ending = .tooLarge := by
      by_contra hne
      exact absurd h (Nat.not_lt.mpr ((drain_bounds _ hp).1 hne))
    exact ⟨_, .tooLarge hending, Or.inl rfl⟩
  | serve w c eof any rest =>
    exact ⟨_, .headerTooLarge (inspect_headerTooLarge_iff.mpr h), Or.inr rfl⟩

/-- A connection comes to a point that overflows exactly where that is its exit. -/
theorem Ends.overflows_iff {start p : Point σ} {r : ReadyEnd σ} {body : List ConnEvent}
    {exit : Exit} (h : Ends serve start r body p exit) (hstart : start.Fits) :
    (∃ q, ReflTransGen (Next serve) start q ∧ q.Overflows) ↔ exit.Overflow := by
  constructor
  · rintro ⟨q, hq, hover⟩
    obtain ⟨exit', hleaves, hexit'⟩ := hover.leaves (fits_of_reflTransGen hq hstart)
    have hne : exit' ≠ .rearmed := by
      rintro rfl
      rcases hexit' with h | h <;> cases h
    exact h.eq_of_leaves hq hleaves hne ▸ hexit'
  · intro hexit
    exact ⟨p, h.run, (h.leaves.overflows_iff (fits_of_reflTransGen h.run hstart)).mpr hexit⟩

end

/-! ## Connections -/

/-- Serving and re-arming put out nothing on their own. -/
theorem AllKept.no_output {events : List ConnEvent} (h : AllKept events) :
    events.filterMap Output.ofConn = [] := by
  rw [List.filterMap_eq_nil_iff]
  intro e he
  rcases h e he with rfl | ⟨req, need, rfl⟩
  · rfl
  · rfl

/-- The lines that are logged for a connection have the statuses of its responses, one each and in
their order, exactly where no drain leaves more than a request may have and the serving loop never
comes to more than a head may have without the end of one. -/
theorem connection_logged_iff {ω : Type} (acl : AccessControl) (env : Surroundings ω) (w : ω)
    (clientIp : Bytes) (script : List Recv) :
    lineStatuses (env.outputs acl clientIp w script) =
        responseStatuses (env.outputs acl clientIp w script) ↔
      ∀ p, ReflTransGen (Next (env.serve acl clientIp))
          (.drain (w, []) { clientIp := clientIp } script) p →
        ¬p.Overflows := by
  obtain ⟨body, p, exit, hends⟩ :=
    serveConnection_exit (env.serve acl clientIp) (w, []) clientIp script
  -- What the requests were sent and logged is in the world.
  have hworld : lineStatuses (serveConnection (env.serve acl clientIp) (w, []) clientIp
        script).world.2 =
      responseStatuses (serveConnection (env.serve acl clientIp) (w, []) clientIp script).world.2 :=
    @connectionLoop_world _ (env.serve acl clientIp)
      (fun w => lineStatuses w.2 = responseStatuses w.2) (env.serve_logs acl clientIp)
      script.length (w, []) rfl { clientIp := clientIp } script
  have hevents : (serveConnection (env.serve acl clientIp) (w, []) clientIp script).events.filterMap
      Output.ofConn = exit.events.filterMap Output.ofConn := by
    by_cases hexit : exit = .rearmed
    · rw [hends.idle hexit, hends.kept.no_output, hexit]
      rfl
    · rw [hends.events hexit, List.filterMap_append, hends.kept.no_output, List.nil_append]
  have hover := hends.overflows_iff (by simp [Point.Fits])
  have hlogs : lineStatuses (env.outputs acl clientIp w script) =
      responseStatuses (env.outputs acl clientIp w script) ↔ ¬exit.Overflow := by
    rw [← exit.logs_iff]
    simp only [Surroundings.outputs, hevents, lineStatuses_append, responseStatuses_append, hworld]
    exact List.append_right_inj _
  rw [hlogs, ← hover]
  simp only [not_exists, not_and]

/-- A connection whose first drain leaves a head that is too large is answered and closed. -/
theorem serveConnection_headerTooLarge {σ : Type} (serve : σ → Request → ℕ → Bool × σ) (w : σ)
    (clientIp : Bytes) {script : List Recv} (hending : (drain [] script).ending = .drained)
    (hinspect : inspect (drain [] script).inbuf = .headerTooLarge) :
    (serveConnection serve w clientIp script).world = w ∧
      (serveConnection serve w clientIp script).events = headerTooLargeEvents := by
  have hscript : script ≠ [] := by
    rintro rfl
    cases hinspect
  obtain ⟨n, hn⟩ : ∃ n, script.length = n + 1 :=
    Nat.exists_eq_succ_of_ne_zero fun h => hscript (List.length_eq_zero_iff.mp h)
  simp [serveConnection, hn, connectionLoop, hscript, handleReady, readyLoop, turn, hending,
    serveLoop, hinspect]

/-- Four segments of 16384 bytes and one of one byte, without the end of a line, are answered with
431, and nothing is logged. -/
theorem header_too_large_unlogged :
    let env : Surroundings Unit := {
      now := fun w => (0, w)
      cacheGet := fun _ w => (none, w)
      cachePut := fun _ _ w => w
      upstream := fun _ _ w => ((.refused [], []), w)
      send := fun _ w => (true, w) }
    let segment : Recv := .data 65 (List.replicate 16383 65)
    let script := [segment, segment, segment, segment, .data 65 []]
    let out := env.outputs {} (str "10.0.0.1") () script
    responseStatuses out = [431] ∧ lineStatuses out = [] := by
  intro env segment script out
  obtain ⟨bytes, hbytes⟩ : ∃ bytes : Bytes, bytes = List.replicate 16383 65 := ⟨_, rfl⟩
  have hlen : bytes.length = 16383 := by rw [hbytes, List.length_replicate]
  have hlf : LF ∉ bytes := by
    rw [hbytes, List.mem_replicate]
    decide
  have hdrain : drain [] script = ⟨65 :: bytes ++ 65 :: bytes ++ 65 :: bytes ++ 65 :: bytes ++ [65],
      .drained, []⟩ := by
    simp [script, segment, ← hbytes, drain, hlen, maxHeaderBytes, maxBodyBytes]
  have hend : findHeaderEnd (drain [] script).inbuf = none := by
    have hne : LF ≠ 65 := by decide
    exact headerEnd_eq_none (by simp [hdrain, hlf, hne])
  have hinspect : inspect (drain [] script).inbuf = .headerTooLarge := by
    rw [inspect_headerTooLarge_iff]
    refine ⟨hend, ?_⟩
    simp [hdrain, hlen, maxHeaderBytes]
  obtain ⟨hworld, hevents⟩ := serveConnection_headerTooLarge (env.serve {} (str "10.0.0.1"))
    ((), []) (str "10.0.0.1") (by rw [hdrain]) hinspect
  have hstatus := statusOf_buildResponse (n := 431) (by omega)
    (str "Request Header Fields Too Large") (by decide) (str "431 Header Too Large\n") false
  simp only [out, Surroundings.outputs, hworld, hevents]
  exact ⟨congrArg (fun status => [status]) hstatus, rfl⟩

end ForwardProxy
