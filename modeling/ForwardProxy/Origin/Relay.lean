import ForwardProxy.Origin.Response
import ForwardProxy.Server.Workers

/-!
# The proxy before origin servers

Any number of workers serve requests whose upstreams are origin servers, over whatever the network
does to the connections. Each request that is let through is answered by the response that the
origin server of its own host makes for its own path, from the cache or from the upstream, or by
the proxy's own `502` (`RelayReach.answered`). So in front of origin servers the cache never replays
a response for another resource.
-/

namespace ForwardProxy.Origin

open Lib.Interaction

/-! ## What is sent to a client -/

/-- What a call of `serve_one_request` sends: one of the proxy's own responses, what it found in the
cache, or what it fetched. -/
def Answers (acl : AccessControl) (req : Request) (h : List ServeEvent) : ServeOp → Prop
  | .sendAll data =>
    ¬Allowed acl req ∧ data = buildResponse 403 (str "Forbidden") forbiddenBody req.keepAlive ∨
      Allowed acl req ∧
        ((∃ error, data = buildResponse 502 (str "Bad Gateway") (badGatewayBody error) false) ∨
          Hit h (cacheKey req) data ∨ Fetched h data)
  | _ => True

/-- Ending a request sends nothing. -/
theorem finish_answers {acl : AccessControl} {req : Request} {h : List ServeEvent} (t0 : ℤ)
    (log : Entry) (status : ℤ) (bytes : ℕ) (cacheState : Bytes) (keepAlive : Bool) :
    Prog.Sat (Answers acl req) (fun _ _ => True) h
      (finish t0 log status bytes cacheState keepAlive) :=
  ⟨trivial, fun _ => ⟨trivial, fun _ => trivial⟩⟩

/-- Forwarding an allowed request sends a `502`, or what was fetched. -/
theorem forward_answers {acl : AccessControl} {req : Request} (hallowed : Allowed acl req)
    (consumed : ℕ) (t0 : ℤ) (log : Entry) (up : Upstream) (h : List ServeEvent) :
    Prog.Sat (Answers acl req) (fun _ _ => True) h (forward t0 log up req consumed) := by
  rw [forward, Prog.sat_perform_bind]
  refine ⟨trivial, fun ur => ?_⟩
  split
  · simp only [Prog.sat_perform_bind]
    exact ⟨trivial, fun _ => ⟨Or.inr ⟨hallowed, Or.inl ⟨ur.error, rfl⟩⟩, fun _ =>
      finish_answers ..⟩⟩
  · rename_i hok
    rw [Bool.not_eq_true', Bool.not_eq_false] at hok
    simp only [Prog.sat_perform_bind]
    refine ⟨trivial, fun _ => ?_⟩
    split
    · simp only [Prog.sat_perform_bind]
      refine ⟨trivial, fun _ => ⟨Or.inr ⟨hallowed, Or.inr (Or.inr ?_)⟩, fun _ =>
        finish_answers ..⟩⟩
      simp [hok]
    · simp only [Prog.sat_perform_bind]
      refine ⟨Or.inr ⟨hallowed, Or.inr (Or.inr ?_)⟩, fun _ => finish_answers ..⟩
      simp [hok]

/-- All that a request is answered with is a `403`, a `502`, what was found under its key, or what
was fetched for it. -/
theorem serveOneRequest_answers (acl : AccessControl) (clientIp : Bytes) (req : Request)
    (consumed : ℕ) :
    Prog.Sat (Answers acl req) (fun _ _ => True) []
      (serveOneRequest acl clientIp req consumed) := by
  simp only [serveOneRequest, Prog.sat_perform_bind]
  refine ⟨trivial, fun t0 => ⟨trivial, fun _ => ?_⟩⟩
  split
  · rename_i hdeny
    simp only [Prog.sat_perform_bind]
    exact ⟨trivial, fun _ => ⟨Or.inl ⟨fun hallowed => hallowed hdeny, rfl⟩, fun _ =>
      finish_answers ..⟩⟩
  · rename_i hallowed
    split
    · rw [Prog.sat_perform_bind]
      refine ⟨trivial, fun hit => ?_⟩
      cases hit with
      | some hit =>
        simp only [Prog.sat_perform_bind]
        refine ⟨trivial, fun _ => ⟨Or.inr ⟨hallowed, Or.inr (Or.inl ?_)⟩, fun _ =>
          finish_answers ..⟩⟩
        simp
      | none => exact forward_answers hallowed ..
    · exact forward_answers hallowed ..

/-! ## Upstreams that are origin servers -/

/-- The origin server at a host, in lower case, and a port. -/
abbrev Servers := Bytes → ℤ → Settings

/-- The origin server that an upstream is. -/
def Servers.at (servers : Servers) (up : Upstream) : Settings := servers (toLower up.host) up.port

/-- What an origin server sends on a connection on which `requestBytes` come, however they are cut
into segments. -/
def Sends (cfg : Settings) (requestBytes out : Bytes) : Prop :=
  ∃ script, Orderly script ∧ scriptBytes script = requestBytes ∧
    out = (connection cfg (fun _ => true) script).flatten

/-- The result of a fetch from an origin server. -/
def Fetches (cfg : Settings) (requestBytes : Bytes) (res : UpstreamResult) : Prop :=
  ∃ connect recvs out, Sends cfg requestBytes out ∧ Delivers out recvs ∧
    res = fetchUpstream connect recvs

/-- What an operation of `serve_one_request` does where the upstreams are origin servers. -/
def Acts (servers : Servers) : (o : ServeOp) → Cache → o.Answer → Cache → Prop
  | .fetchUpstream up requestBytes, c, res, c' =>
    c' = c ∧ Fetches (servers.at up) requestBytes res
  | o, c, r, c' => o.Acts c r c'

/-- The outside with origin servers is an outside. -/
theorem Acts.acts {servers : Servers} {o : ServeOp} {c c' : Cache} {r : o.Answer}
    (h : Acts servers o c r c') : o.Acts c r c' := by
  cases o with
  | fetchUpstream up requestBytes => exact h.1
  | _ => exact h

/-- The pools of workers that come of an empty pool, before origin servers. -/
def RelayReach (acl : AccessControl) (servers : Servers) (cache : Cache) :
    Pool ServeOp.Answer Call Bool Cache → Prop :=
  Pool.Reachable (Call.body acl) (Acts servers) cache

/-- A relay is a pool of workers. -/
theorem RelayReach.workersReach {acl : AccessControl} {servers : Servers} {cache : Cache}
    {p : Pool ServeOp.Answer Call Bool Cache} (h : RelayReach acl servers cache p) :
    WorkersReach acl cache p :=
  Pool.Reachable.mono (fun _ _ _ _ => Acts.acts) h

/-- The fetches of a trace are fetches from origin servers. -/
def Genuine (servers : Servers) (trace : List (ℕ × ServeEvent)) : Prop :=
  ∀ i up requestBytes res, (i, ⟨.fetchUpstream up requestBytes, res⟩) ∈ trace →
    Fetches (servers.at up) requestBytes res

/-- What was fetched came of an origin server. -/
theorem RelayReach.genuine {acl : AccessControl} {servers : Servers} {cache : Cache}
    {p : Pool ServeOp.Answer Call Bool Cache} (h : RelayReach acl servers cache p) :
    Genuine servers p.trace := by
  refine @Pool.Reachable.invariant _ _ _ _ _ _ _ _ (fun _ trace => Genuine servers trace)
    (by simp [Genuine]) (fun c o r c' i trace hact hinv j up requestBytes res hmem => ?_) _ h
  rcases List.mem_append.mp hmem with hmem | hmem
  · exact hinv j up requestBytes res hmem
  · obtain ⟨-, heq⟩ := Prod.mk.inj (List.mem_singleton.mp hmem)
    obtain ⟨rfl, hres⟩ := Event.mk.inj heq
    obtain rfl := eq_of_heq hres
    exact hact.2

/-! ## What an origin server sends for a request -/

/-- A request for a path on a host, in origin form and without a body, as `handle_ready` passes it
on. -/
structure Plain (call : Call) : Prop where
  parsed : ∃ buf, call.req = parseRequest buf
  valid : call.req.valid = true
  slash : call.req.target.head? = some SLASH
  host : SLASH ∉ call.req.host
  bodiless : call.consumed = call.req.headerBytes

/-- A request keeps the bytes that it was parsed from. -/
theorem raw_parseRequest (raw : Bytes) : (parseRequest raw).raw = raw := by
  unfold parseRequest
  split <;> rfl

/-- The `CR LF CR LF` that is found, after what comes before it. -/
theorem take_find {buf : Bytes} {p : ℕ} (h : find buf [CR, LF, CR, LF] = some p) :
    buf.take (p + 4) = buf.take p ++ [CR, LF, CR, LF] := by
  obtain ⟨rest, hrest⟩ : [CR, LF, CR, LF] <+: buf.drop p := Lib.Search.find_occursAt h
  rw [List.take_add, ← hrest, List.take_append_of_le_length (by simp)]
  rfl

/-- An origin server sends the response for the target, or nothing where it finds no end of the
head. -/
theorem Plain.sends {call : Call} (h : Plain call) {cfg : Settings} {out : Bytes}
    (hout : Sends cfg (call.req.raw.take call.consumed) out) :
    out = [] ∨ ∃ keep, out = response cfg call.req.target keep := by
  obtain ⟨buf, hbuf⟩ := h.parsed
  obtain ⟨script, horderly, hbytes, rfl⟩ := hout
  have hvalid := h.valid
  rw [h.bodiless, hbuf, raw_parseRequest] at hbytes
  rw [hbuf] at hvalid ⊢
  cases hfind : find buf [CR, LF, CR, LF] with
  | none =>
    -- The head ends in `LF LF`, which is not looked for.
    have hnone : find (buf.take (parseRequest buf).headerBytes) [CR, LF, CR, LF] = none := by
      refine Lib.Search.find_eq_none_iff.mpr fun i hocc => ?_
      have hall := ((Lib.Search.occursAt_take (by simp) _ _ _).mp hocc).1
      exact Lib.Search.find_eq_none_iff.mp hfind i hall
    rw [connection_eq_read cfg _ horderly, hbytes, Lib.Reader.read_wait (serve_wait hnone)]
    exact Or.inl rfl
  | some p =>
    have hend : findHeaderEnd buf = some (p + 4) := by rw [findHeaderEnd, hfind]
    rw [headerBytes_parseRequest hend, take_find hfind] at hbytes
    have hfirst : find (buf.take p ++ [CR, LF, CR, LF]) [CR, LF, CR, LF] =
        some (buf.take p).length := by
      have hle := (Lib.Search.find_occursAt hfind).end_le (by simp)
      simp only [List.length_cons, List.length_nil] at hle
      rw [← take_find hfind, find, Lib.Search.find_take hfind (by simp), List.length_take,
        Nat.min_eq_left (by omega)]
    have hnil : find ([] : Bytes) [CR, LF, CR, LF] = none := by decide
    have hanswers := read_heads cfg (fun _ => true) 0 [⟨buf.take p, hfirst⟩] hnil
    rw [List.flatMap_singleton, List.append_nil, HeadText.encode, ← hbytes] at hanswers
    have hpath : path (buf.take p) = (parseRequest buf).target := by
      rw [path, (betweenSpaces_of_valid hvalid).2 p hfind]
      rfl
    refine Or.inr ⟨keeps cfg (buf.take p), ?_⟩
    rw [connection_eq_read cfg _ horderly, hanswers, ← hpath]
    simp [answers]

/-- A fetch that succeeds returns the response for the target. -/
theorem Plain.fetches {call : Call} (h : Plain call) {cfg : Settings}
    (hsize : cfg.bodySize < 2^63) {res : UpstreamResult}
    (hres : Fetches cfg (call.req.raw.take call.consumed) res) (hok : res.ok = true) :
    ∃ keep, res.raw = response cfg call.req.target keep := by
  obtain ⟨connect, recvs, out, hsends, hd, rfl⟩ := hres
  cases connect with
  | sent =>
    rcases h.sends hsends with rfl | ⟨keep, rfl⟩
    · obtain ⟨e, he⟩ := fetchUpstream_nothing hd
      rw [he] at hok
      cases hok
    · rcases fetchUpstream_response cfg hsize _ keep hd with he | ⟨e, he⟩
      · exact ⟨keep, by rw [he]⟩
      · rw [he] at hok
        cases hok
  | _ => cases hok

/-! ## Runs -/

section Run

variable {acl : AccessControl} {servers : Servers} {cache : Cache}
  {p : Pool ServeOp.Answer Call Bool Cache}

/-- What a call fetched is the response of its origin server for its target. -/
theorem RelayReach.fetched (hsize : ∀ host port, (servers host port).bodySize < 2^63)
    (h : RelayReach acl servers cache p) {j : ℕ} {call : Call} {q : Serve Bool}
    (hcall : p.threads[j]? = some (call, q)) (hplain : Plain call)
    {pre post : List (ℕ × ServeEvent)} (htrace : p.trace = pre ++ post) {data : Bytes}
    (hfetched : Fetched (own j pre) data) :
    ∃ keep,
      data = response (servers.at (acl.routes.resolve call.req.host)) call.req.target keep := by
  obtain ⟨up, requestBytes, res, hmem, hok, rfl⟩ := hfetched
  obtain ⟨before, after, rfl⟩ := List.append_of_mem (mem_own.mp hmem)
  have hsplit : p.trace =
      before ++ (j, ⟨.fetchUpstream up requestBytes, res⟩) :: (after ++ post) := by
    rw [htrace, List.append_assoc, List.cons_append]
  obtain ⟨call', q', hcall', -, rfl, rfl⟩ := Pool.Reachable.sat_of_mem
    (fun call : Call => serveOneRequest_sat acl call.clientIp call.req call.consumed)
    h.workersReach hsplit
  rw [hcall] at hcall'
  cases hcall'
  have hin : (j, ⟨.fetchUpstream (acl.routes.resolve call.req.host)
      (call.req.raw.take call.consumed), res⟩) ∈ p.trace := by
    rw [hsplit]
    simp
  exact hplain.fetches (hsize _ _) (h.genuine j _ _ res hin) hok

/-- Requests with one key have the same origin server and target. -/
theorem Plain.same_server (acl : AccessControl) (servers : Servers) {call call' : Call}
    (h : Plain call) (h' : Plain call') (hcacheable : cacheableRequest call.req = true)
    (hcacheable' : cacheableRequest call'.req = true)
    (hkey : cacheKey call.req = cacheKey call'.req) :
    servers.at (acl.routes.resolve call.req.host) =
        servers.at (acl.routes.resolve call'.req.host) ∧
      call.req.target = call'.req.target := by
  have htarget : ∀ c : Call, Plain c → c.req.path = c.req.target := by
    intro c hc
    obtain ⟨buf, hbuf⟩ := hc.parsed
    have hvalid := hc.valid
    have hslash := hc.slash
    rw [hbuf] at hvalid hslash ⊢
    exact path_eq_target hvalid hslash
  have hhead : ∀ c : Call, Plain c → c.req.path.head? = some SLASH := fun c hc => by
    rw [htarget c hc, hc.slash]
  rcases (cacheKey_eq_iff hcacheable hcacheable').mp hkey with ⟨-, hhost, hpath⟩ | hs | hs
  · obtain ⟨hport, hup, -⟩ := resolve_toLower acl.routes hhost
    rw [htarget _ h, htarget _ h'] at hpath
    exact ⟨by rw [Servers.at, Servers.at, hport, hup], hpath⟩
  · exact absurd hs (not_shifted_of_slash (hhead _ h) h'.host)
  · exact absurd hs (not_shifted_of_slash (hhead _ h') h.host)

/-- What a call may be answered with, before origin servers. -/
def Answered (acl : AccessControl) (servers : Servers) (call : Call) (data : Bytes) : Prop :=
  ¬Allowed acl call.req ∧
      data = buildResponse 403 (str "Forbidden") forbiddenBody call.req.keepAlive ∨
    Allowed acl call.req ∧
      ((∃ error, data = buildResponse 502 (str "Bad Gateway") (badGatewayBody error) false) ∨
        ∃ keep, data =
          response (servers.at (acl.routes.resolve call.req.host)) call.req.target keep)

/-- Before origin servers every request that is answered gets a `403`, a `502`, or a response of the
origin server of its own host for its own path. What is found in the cache was put there under the
same key, and plain requests with one key are for one path on one host. -/
theorem RelayReach.answered (hsize : ∀ host port, (servers host port).bodySize < 2^63)
    {capacity shards : UInt64} {hasher : Bytes → UInt64}
    (hnew : ShardedLRUCache.new hasher capacity shards = some cache)
    (h : RelayReach acl servers cache p) (hplain : ∀ t ∈ p.threads, Plain t.1) {i : ℕ}
    {data : Bytes} {sent : Bool} (hsent : (i, ⟨.sendAll data, sent⟩) ∈ p.trace) :
    ∃ call q, p.threads[i]? = some (call, q) ∧ Answered acl servers call data := by
  have hworkers := h.workersReach
  obtain ⟨pre, post, htrace⟩ := List.append_of_mem hsent
  obtain ⟨call, q, hcall, hanswers⟩ := Pool.Reachable.sat_of_mem
    (fun call : Call => serveOneRequest_answers acl call.clientIp call.req call.consumed)
    hworkers htrace
  have hmem : (call, q) ∈ p.threads := List.mem_of_getElem? hcall
  refine ⟨call, q, hcall, ?_⟩
  rcases hanswers with hdenied | ⟨hallowed, hbad | hhit | hfetched⟩
  · exact Or.inl hdenied
  · exact Or.inr ⟨hallowed, Or.inl hbad⟩
  · refine Or.inr ⟨hallowed, Or.inr ?_⟩
    have hsat := fun call : Call =>
      serveOneRequest_sat acl call.clientIp call.req call.consumed
    -- What was found was put by a call with the same key, which had fetched it.
    obtain ⟨before, after, rfl⟩ := List.append_of_mem (mem_own.mp hhit)
    have hget : p.trace = before ++ (i, ⟨.cacheGet (cacheKey call.req), some data⟩) ::
        (after ++ (i, ⟨.sendAll data, sent⟩) :: post) := by
      rw [htrace, List.append_assoc, List.cons_append]
    obtain ⟨call', q', hcall', -, hcacheable, -⟩ := hworkers.sat_of_mem hsat hget
    rw [hcall] at hcall'
    cases hcall'
    obtain ⟨j, hput⟩ := (hworkers.hitsPut hnew).found before i _ data _ hget
    obtain ⟨first, second, rfl⟩ := List.append_of_mem hput
    have hputTrace : p.trace = first ++ (j, ⟨.cachePut (cacheKey call.req) data, ()⟩) ::
        (second ++ (i, ⟨.cacheGet (cacheKey call.req), some data⟩) ::
          (after ++ (i, ⟨.sendAll data, sent⟩) :: post)) := by
      rw [hget, List.append_assoc, List.cons_append]
    obtain ⟨call', q', hcall', -, hcacheable', hkey, -, hfetched⟩ :=
      hworkers.sat_of_mem hsat hputTrace
    have hmem' : (call', q') ∈ p.threads := List.mem_of_getElem? hcall'
    obtain ⟨keep, hdata⟩ :=
      h.fetched hsize hcall' (hplain _ hmem') hputTrace hfetched
    obtain ⟨hserver, htarget⟩ :=
      (hplain _ hmem).same_server acl servers (hplain _ hmem') hcacheable hcacheable' hkey
    exact ⟨keep, by rw [hserver, htarget, hdata]⟩
  · exact Or.inr ⟨hallowed, Or.inr (h.fetched hsize hcall (hplain _ hmem) htrace hfetched)⟩

end Run

/-- The bytes in one segment. -/
def segment : Bytes → List Recv
  | [] => []
  | b :: bs => [.data b bs]

/-- All at once is a way of delivery. -/
theorem segment_delivers (s : Bytes) : Delivers s (segment s) := by
  cases s with
  | nil => exact .nil []
  | cons b bs =>
    have hd := Delivers.data b bs (.nil [])
    rwa [List.append_nil] at hd

/-- An outside where every origin server is reached and sends its response in one segment. -/
def Servers.outside (servers : Servers) : Outside where
  now _ := 0
  upstream up requestBytes := fetchUpstream .sent
    (segment (connection (servers.at up) (fun _ => true) (segment requestBytes)).flatten)
  sends _ := true

/-- The origin servers answer as an outside may. -/
theorem Servers.outside_acts (servers : Servers) (o : ServeOp) (c : Cache) :
    Acts servers o c (servers.outside.onCache o c).1 (servers.outside.onCache o c).2 := by
  cases o with
  | fetchUpstream up requestBytes =>
    have hscript : Orderly (segment requestBytes) ∧
        scriptBytes (segment requestBytes) = requestBytes := by
      cases requestBytes with
      | nil => exact ⟨trivial, rfl⟩
      | cons b bs => exact ⟨trivial, List.append_nil _⟩
    obtain ⟨horderly, hbytes⟩ := hscript
    exact ⟨rfl, .sent, _, _, ⟨_, horderly, hbytes, rfl⟩, segment_delivers _, rfl⟩
  | _ => rfl

end ForwardProxy.Origin
