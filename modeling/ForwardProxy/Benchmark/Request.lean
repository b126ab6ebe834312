import ForwardProxy.Benchmark.ReadResponse
import ForwardProxy.Benchmark.Worker
import ForwardProxy.Http.RequestHead
import ForwardProxy.Origin.Relay

/-!
# The requests of the load generator, through the proxy

Every request that the load generator writes, for whatever resource and plain host, is a valid
request to the proxy, with the connection kept where the generator keeps it and with its end where
the generator ends it (`requestText_parsed`). So before origin servers each reply to such a request
is the response for the resource that was asked for, a `403` or a `502`; and of any replies one
behind another, however the network delivers them, the generator reads off the status and the size
of each (`replies_are_read`).
-/

namespace ForwardProxy.Benchmark

open Lib.Interaction

/-! ## The request as a head -/

/-- A host that stands on a header line as it is: what `-H` gives, or `<host>:<port>`. -/
structure PlainHost (host : Bytes) : Prop where
  nonempty : host ≠ []
  trimmed : trim host = host
  oneLine : OneLine host
  slash : SLASH ∉ host

/-- The path of a URL. -/
def resource (url : ℕ) : Bytes := str "/resource/" ++ decimal url

/-- A resource stands in a request line as it is. -/
theorem resource_ok (url : ℕ) : resource url ≠ [] ∧ SP ∉ resource url ∧ OneLine (resource url) := by
  have hdigits : ∀ c : Byte, isDigit c = false → c ∉ decimal url := fun c hc hmem => by
    rw [isDigit_of_mem_decimal hmem] at hc
    cases hc
  have hstart : str "/resource/" ≠ [] ∧ SP ∉ str "/resource/" ∧ CR ∉ str "/resource/" ∧
      LF ∉ str "/resource/" := by decide
  obtain ⟨hne, hsp, hcr, hlf⟩ := hstart
  refine ⟨by simp [resource, hne], ?_, ?_, ?_⟩
  · simp [resource, hsp, hdigits SP (by decide)]
  · simp [resource, hcr, hdigits CR (by decide)]
  · simp [resource, hlf, hdigits LF (by decide)]

/-- The method stands in a request line as it is. -/
theorem method_get : str "GET" ≠ [] ∧ SP ∉ str "GET" ∧ OneLine (str "GET") := by decide

/-- The version stands in a request line as it is. -/
theorem version_http11 : (str "HTTP/1.1").take 5 = str "HTTP/" ∧
    trim (str "HTTP/1.1") = str "HTTP/1.1" ∧ OneLine (str "HTTP/1.1") := by decide

/-- `Host` is the name of a header line. -/
theorem name_host : COLON ∉ str "Host" ∧ OneLine (str "Host") ∧ trim (str "Host") ≠ [] := by decide

/-- A plain host is a value on one line. -/
theorem value_host {host : Bytes} (h : PlainHost host) : OneLine (SP :: host) :=
  oneLine_sp h.oneLine

/-- The header lines of a request. -/
def requestLines {host : Bytes} (h : PlainHost host) (keepAlive : Bool) : List HeaderLine := [
  .field (str "Host") (SP :: host) name_host (value_host h),
  .field (str "Connection") (SP :: connectionValue keepAlive) Origin.name_connection
    (Origin.value_connection keepAlive)]

/-- A space before it is not part of a value. -/
theorem trim_sp {s : Bytes} (h : trim s = s) : trim (SP :: s) = s := by
  have hdrop : (SP :: s).dropWhile isBlank = s.dropWhile isBlank :=
    List.dropWhile_cons_of_pos (by decide)
  rwa [trim, hdrop]

/-- What the lines give for the fields that the proxy looks at. -/
theorem lineValues_requestLines {host : Bytes} (h : PlainHost host) (keepAlive : Bool) :
    lineValues (str "host") (requestLines h keepAlive) = [host] ∧
      lineValues (str "connection") (requestLines h keepAlive) = [connectionValue keepAlive] ∧
      lineValues (str "content-length") (requestLines h keepAlive) = [] ∧
      lineValues (str "authorization") (requestLines h keepAlive) = [] := by
  have hhost : toLower (trim (str "Host")) = str "host" := by decide
  have hconnection : toLower (trim (str "Connection")) = str "connection" := by decide
  have hvalue : trim (SP :: connectionValue keepAlive) = connectionValue keepAlive := by
    cases keepAlive <;> decide
  have hnames : str "host" ≠ str "connection" ∧ str "host" ≠ str "content-length" ∧
      str "host" ≠ str "authorization" ∧ str "connection" ≠ str "content-length" ∧
      str "connection" ≠ str "authorization" := by decide
  obtain ⟨h₁, h₂, h₃, h₄, h₅⟩ := hnames
  simp only [lineValues, requestLines, List.filterMap_cons, List.filterMap_nil, HeaderLine.valueOf,
    hhost, hconnection, hvalue, trim_sp h.trimmed, if_true, if_neg h₁, if_neg h₁.symm, if_neg h₂,
    if_neg h₃, if_neg h₄, if_neg h₅, and_self]

/-- The request names its host. -/
theorem host_line {host : Bytes} (h : PlainHost host) (keepAlive : Bool) (url : ℕ) :
    (∃ v ∈ lineValues (str "host") (requestLines h keepAlive), v ≠ []) ∨
      ∃ authority rest, AbsoluteForm (resource url) authority rest := by
  rw [(lineValues_requestLines h keepAlive).1]
  exact Or.inl ⟨host, by simp, h.nonempty⟩

/-- The head of a request. -/
def requestHead {host : Bytes} (h : PlainHost host) (keepAlive : Bool) (url : ℕ) : RequestHead where
  method := str "GET"
  target := resource url
  version := str "HTTP/1.1"
  lines := requestLines h keepAlive
  method_ok := method_get
  target_ok := resource_ok url
  version_ok := version_http11
  host_ok := host_line h keepAlive url

variable {cfg : Config} (h : PlainHost cfg.hostHeader) (url : ℕ) (more : Bytes)

/-- A request of the load generator is the text of a head. -/
theorem requestText_eq : requestText cfg url = (requestHead h cfg.keepAlive url).text := by
  have hget : str "GET " = str "GET" ++ [SP] := by decide
  have hversion : str " HTTP/1.1\r\n" = SP :: (str "HTTP/1.1" ++ [CR, LF]) := by decide
  have hhost : str "Host: " = str "Host" ++ [COLON, SP] := by decide
  have hcrlf : str "\r\n" = [CR, LF] := by decide
  have hconnection : str (if cfg.keepAlive then "Connection: keep-alive\r\n"
      else "Connection: close\r\n") =
      str "Connection" ++ [COLON, SP] ++ connectionValue cfg.keepAlive ++ [CR, LF] := by
    cases cfg.keepAlive <;> decide
  simp [requestText, hget, hversion, hhost, hcrlf, hconnection, RequestHead.text, RequestHead.crlf,
    CrlfHead.text, requestHead, requestLines, HeaderLine.text, resource]

/-- The target is in origin form. -/
theorem head_resource : (toLower (resource url)).take 7 ≠ str "http://" := by
  have htake : (toLower (resource url)).take 7 = str "/resour" := by
    rw [resource, toLower, List.map_append, List.take_append_of_le_length (by decide)]
    decide
  rw [htake]
  decide

/-- The value of a field is what its lines give. -/
theorem lookup_requestHead (name : Bytes) :
    (requestHead h cfg.keepAlive url).headers.lookup name =
      joinValues (lineValues name (requestLines h cfg.keepAlive)) :=
  (requestHead h cfg.keepAlive url).lookup_headers name

/-- The `Host` line gives the host that the target does not. -/
theorem takeHost_of_line {r : Request} {host : Bytes} (hnone : r.host = [])
    (hline : r.headers.lookup (str "host") = some host) : takeHost r = { r with host := host } := by
  rw [takeHost, if_pos hnone, Request.header, hline]

include h

/-- What `parse_request` makes of a request of the load generator, whatever comes after it. -/
theorem parseRequest_requestText : parseRequest (requestText cfg url ++ more) = {
    method := str "GET"
    target := resource url
    version := str "HTTP/1.1"
    path := resource url
    host := cfg.hostHeader
    headers := (requestHead h cfg.keepAlive url).headers
    raw := requestText cfg url ++ more
    headerBytes := (requestText cfg url).length
    keepAlive := cfg.keepAlive
    valid := true } := by
  obtain ⟨hhost, hconnection, hlength, -⟩ := lineValues_requestLines h cfg.keepAlive
  have hparse := (requestHead h cfg.keepAlive url).crlf.parseRequest_words rfl
    ⟨method_get.1, method_get.2.1⟩ ⟨(resource_ok url).1, (resource_ok url).2.1⟩
    ⟨version_http11.1, version_http11.2.1⟩ more
  have htext : (requestHead h cfg.keepAlive url).crlf.text = requestText cfg url :=
    (requestText_eq h url).symm
  have hnormal := normaliseTarget_other (r := (requestHead h cfg.keepAlive url).written)
    (head_resource url)
  have hnamed : takeHost (normaliseTarget (requestHead h cfg.keepAlive url).written) =
      { (requestHead h cfg.keepAlive url).written with
        path := resource url, host := cfg.hostHeader } := by
    have hline : (requestHead h cfg.keepAlive url).headers.lookup (str "host") =
        some cfg.hostHeader := by
      simp [lookup_requestHead, hhost, joinValues, List.intercalate]
    rw [hnormal, takeHost_of_line rfl hline]
    rfl
  have hunframed : ∀ r : Request, r.headers = (requestHead h cfg.keepAlive url).headers →
      takeContentLength r = r := by
    intro r hr
    rw [takeContentLength, Request.header, hr, lookup_requestHead, hlength]
    rfl
  have hkept : ∀ r : Request, r.headers = (requestHead h cfg.keepAlive url).headers →
      takeKeepAlive r = { r with keepAlive := cfg.keepAlive } := by
    intro r hr
    rw [takeKeepAlive, Request.header, hr, lookup_requestHead, hconnection]
    have hclose : contains (toLower (str "close")) (str "close") = true := by decide
    have hkeep : contains (toLower (str "keep-alive")) (str "close") = false ∧
        contains (toLower (str "keep-alive")) (str "keep-alive") = true := by decide
    cases cfg.keepAlive <;> simp [joinValues, List.intercalate, connectionValue, hclose, hkeep]
  rw [htext] at hparse
  calc parseRequest (requestText cfg url ++ more)
      = { checkHost (takeKeepAlive (takeContentLength (takeHost
            (normaliseTarget (requestHead h cfg.keepAlive url).written)))) with
          raw := requestText cfg url ++ more
          headerBytes := (requestText cfg url).length } := hparse
    _ = _ := by rw [hnamed, hunframed _ rfl, hkept _ rfl, checkHost, if_neg h.nonempty]; rfl

/-- A request is read as what it was written for, and takes up all that was written and no more. -/
structure ReadAs (cfg : Config) (url : ℕ) (r : Request) : Prop where
  valid : r.valid = true
  method : r.method = str "GET"
  target : r.target = resource url
  path : r.path = resource url
  host : r.host = cfg.hostHeader
  keepAlive : r.keepAlive = cfg.keepAlive
  cacheable : cacheableRequest r = true
  bytes : expectedRequestBytes r = (requestText cfg url).length

/-- A request of the load generator is cut off where it ends, and read as what it was written
for. -/
theorem requestText_parsed : ReadAs cfg url (parseRequest (requestText cfg url ++ more)) := by
  obtain ⟨-, -, -, hauthorization⟩ := lineValues_requestLines h cfg.keepAlive
  have hcacheable : cacheableRequest (parseRequest (requestText cfg url ++ more)) = true := by
    rw [parseRequest_requestText h]
    simp only [cacheableRequest, Request.header, lookup_requestHead, hauthorization, joinValues]
    rfl
  have hbytes : expectedRequestBytes (parseRequest (requestText cfg url ++ more)) =
      (requestText cfg url).length := by
    rw [parseRequest_requestText h]
    rfl
  refine ⟨?_, ?_, ?_, ?_, ?_, ?_, hcacheable, hbytes⟩ <;> rw [parseRequest_requestText h]

omit h

/-- Two requests one behind another, of which the first is parsed. -/
theorem requestText_parsed_pipelined :
    let cfg : Config := { hostHeader := str "127.0.0.1:9000", keepAlive := true }
    let r := parseRequest (requestText cfg 7 ++ requestText cfg 8)
    r.valid = true ∧ r.target = str "/resource/7" ∧ r.keepAlive = true ∧
      expectedRequestBytes r = (requestText cfg 7).length := by
  intro cfg r
  have hhost : PlainHost cfg.hostHeader := ⟨by decide, by decide, by decide, by decide⟩
  have hread := requestText_parsed hhost 7 (requestText cfg 8)
  have hresource : resource 7 = str "/resource/7" := by decide
  exact ⟨hread.valid, hread.target.trans hresource, hread.keepAlive, hread.bytes⟩

/-! ## The proxy's own responses -/

/-- A response that the proxy builds is one that is read, where the lines above its length have no
other `content-length:`. -/
theorem exists_response {status : ℕ} (hstatus : 100 ≤ status ∧ status ≤ 599) {reason : Bytes}
    (hreason : OneLine reason) {start : Bytes}
    (hstart : start = str "HTTP/1.1" ++ SP :: (decimal status ++ SP :: (reason ++
      str "\r\nContent-Type: text/plain\r\n")))
    (hfirst : find (toLower (start ++ str "Content-Length:")) (str "content-length:") =
      some start.length) {body : Bytes} (hsize : body.length < 2^63) (keepAlive : Bool) :
    ∃ m : Response, m.status = status ∧
      m.encode = buildResponse status reason body keepAlive := by
  have htype : OneLine (str "text/plain") := by decide
  have hline : str "\r\nContent-Type: text/plain\r\n" = CR :: LF :: (str "Content-Type" ++
      COLON :: SP :: (str "text/plain" ++ [CR, LF])) := by decide
  have hlength : str "Content-Length:" = str "Content-Length" ++ [COLON] := by decide
  have hconnection : str "\r\nConnection: " = CR :: LF :: (str "Connection" ++ [COLON, SP]) := by
    decide
  let after := SP :: (reason ++ str "\r\nContent-Type: text/plain\r\n" ++ str "Content-Length:" ++
    SP :: (decimal body.length ++ (str "\r\nConnection: " ++ connectionValue keepAlive)))
  -- The head in two readings: as lines, and with the length between two texts.
  have htext : (builtHead status hstatus reason hreason body.length keepAlive (str "text/plain")
      htype).crlf.text =
        str "HTTP/1.1" ++ SP :: (decimal status ++ after) ++ [CR, LF, CR, LF] := by
    have hcrlf : str "\r\n" = [CR, LF] := by decide
    simp [after, hline, hlength, hconnection, hcrlf, ResponseHead.crlf, CrlfHead.text, builtHead,
      ResponseHead.line, HeaderLine.text]
  have hhead : str "HTTP/1.1" ++ SP :: (decimal status ++ after) = start ++ str "Content-Length:" ++
      SP :: (decimal body.length ++ (str "\r\nConnection: " ++ connectionValue keepAlive)) := by
    simp [after, hstart]
  refine ⟨{
    version := str "HTTP/1.1"
    status := status
    after := after
    body := body
    version_ok := by decide
    status_ok := by omega
    after_ok := ?_
    first := find_crlf_text _ htext
    length_ok := ?_ }, rfl, ?_⟩
  · intro c hc
    obtain rfl : SP = c := by simpa [after] using hc
    decide
  · have hcr : (str "\r\nConnection: ").head? = some CR := by decide
    rw [hhead, contentLengthOf_line hfirst hsize]
    intro c hc
    rw [List.head?_append, hcr] at hc
    obtain rfl : CR = c := by simpa using hc
    decide
  · rw [buildResponse_eq hstatus hreason htype]
    exact congrArg (· ++ body) htext.symm

/-! ## Through the proxy -/

/-- The call serves a request of the load generator for a URL, which came with more behind it. -/
def Generated (call : Call) (url : ℕ) : Prop :=
  ∃ (cfg : Config) (more : Bytes), PlainHost cfg.hostHeader ∧
    call.req = parseRequest (requestText cfg url ++ more) ∧
    call.consumed = (requestText cfg url).length

/-- The target of a request that was generated is a resource. -/
theorem Generated.target {call : Call} {url : ℕ} (h : Generated call url) :
    call.req.target = resource url := by
  obtain ⟨cfg, more, hhost, hreq, -⟩ := h
  rw [hreq, parseRequest_requestText hhost]

/-- A request that was generated is plain: `GET`, in origin form, and without credentials. -/
theorem Generated.plain {call : Call} {url : ℕ} (h : Generated call url) : Origin.Plain call := by
  obtain ⟨cfg, more, hhost, hreq, hconsumed⟩ := h
  have hparse := parseRequest_requestText hhost url more
  refine ⟨⟨_, hreq⟩, ?_, ?_, ?_, ?_⟩
  · rw [hreq, hparse]
  · rw [hreq, hparse, resource]
    have hhead : (str "/resource/").head? = some SLASH := by decide
    rw [List.head?_append, hhead]
    rfl
  · rw [hreq, hparse]
    exact hhost.slash
  · rw [hconsumed, hreq, hparse]

/-- The reply to a call for a URL, with its status: for a status of 200, what the origin server at
the host of the request has for the URL. -/
inductive Reply (acl : AccessControl) (servers : Origin.Servers) (call : Call) (url : ℕ) :
    Bytes → ℕ → Prop
  | forbidden (h : ¬Allowed acl call.req) : Reply acl servers call url
      (buildResponse 403 (str "Forbidden") forbiddenBody call.req.keepAlive) 403
  | badGateway (h : Allowed acl call.req) (error : Bytes) : Reply acl servers call url
      (buildResponse 502 (str "Bad Gateway") (badGatewayBody error) false) 502
  | relayed (h : Allowed acl call.req) (keep : Bool) : Reply acl servers call url
      (Origin.response (servers.at (acl.routes.resolve call.req.host)) (resource url) keep) 200

section Run

variable {acl : AccessControl} {servers : Origin.Servers} {cache : Cache}
  {p : Pool ServeOp.Answer Call Bool Cache}

/-- The reply to the call of a thread of the pool, which serves a request of the load generator. -/
def ReplyIn (acl : AccessControl) (servers : Origin.Servers)
    (p : Pool ServeOp.Answer Call Bool Cache) (reply : ℕ × Bytes) (status : ℕ) : Prop :=
  ∃ call q url, p.threads[reply.1]? = some (call, q) ∧ Generated call url ∧
    Reply acl servers call url reply.2 status

/-- A reply is a response that is read. -/
theorem Reply.exists_response (hsize : ∀ host port, (servers host port).bodySize < 2^63)
    {call : Call} {url : ℕ} {data : Bytes} {status : ℕ} (h : Reply acl servers call url data status)
    (hdata : data.length < 2^63) : ∃ m : Response, m.status = status ∧ m.encode = data := by
  cases h with
  | forbidden =>
    exact Benchmark.exists_response (by decide) (by decide) rfl (by decide +kernel) (by decide) _
  | badGateway _ error =>
    have hbody : (badGatewayBody error).length < 2^63 := by
      simp only [buildResponse, List.length_append] at hdata
      omega
    exact Benchmark.exists_response (by decide) (by decide) rfl (by decide +kernel) hbody _
  | relayed _ keep =>
    exact ⟨.ofOrigin _ (hsize _ _) (resource url) keep, rfl, Response.encode_ofOrigin ..⟩

/-- What is sent in a run is a reply. -/
theorem exists_replyIn (hsize : ∀ host port, (servers host port).bodySize < 2^63)
    {capacity shards : UInt64} {hasher : Bytes → UInt64}
    (hnew : ShardedLRUCache.new hasher capacity shards = some cache)
    (h : Origin.RelayReach acl servers cache p) (hgen : ∀ t ∈ p.threads, ∃ url, Generated t.1 url)
    {i : ℕ} {data : Bytes} {sent : Bool} (hsent : (i, ⟨.sendAll data, sent⟩) ∈ p.trace) :
    ∃ status, ReplyIn acl servers p (i, data) status := by
  have hplain : ∀ t ∈ p.threads, Origin.Plain t.1 := fun t ht =>
    (hgen t ht).choose_spec.plain
  obtain ⟨call, q, hcall, hanswered⟩ := h.answered hsize hnew hplain hsent
  obtain ⟨url, hurl⟩ := hgen _ (List.mem_of_getElem? hcall)
  rcases hanswered with ⟨hdenied, rfl⟩ | ⟨hallowed, ⟨error, rfl⟩ | ⟨keep, rfl⟩⟩
  · exact ⟨403, call, q, url, hcall, hurl, .forbidden hdenied⟩
  · exact ⟨502, call, q, url, hcall, hurl, .badGateway hallowed error⟩
  · rw [hurl.target]
    exact ⟨200, call, q, url, hcall, hurl, .relayed hallowed keep⟩

/-- Every request that is answered is answered by a response with a length. -/
theorem exists_responses (hsize : ∀ host port, (servers host port).bodySize < 2^63)
    {capacity shards : UInt64} {hasher : Bytes → UInt64}
    (hnew : ShardedLRUCache.new hasher capacity shards = some cache)
    (h : Origin.RelayReach acl servers cache p) (hgen : ∀ t ∈ p.threads, ∃ url, Generated t.1 url)
    {replies : List (ℕ × Bytes)} (hsent : ∀ reply ∈ replies, reply.2.length < 2^63 ∧
      ∃ sent, (reply.1, ⟨.sendAll reply.2, sent⟩) ∈ p.trace) :
    ∃ ms : List Response, List.Forall₂ (fun reply m =>
      ReplyIn acl servers p reply m.status ∧ m.encode = reply.2) replies ms := by
  induction replies with
  | nil => exact ⟨[], .nil⟩
  | cons reply replies ih =>
    rw [List.forall_mem_cons] at hsent
    obtain ⟨⟨hdata, sent, hmem⟩, hrest⟩ := hsent
    obtain ⟨ms, hms⟩ := ih hrest
    obtain ⟨status, call, q, url, hcall, hurl, hreply⟩ := exists_replyIn hsize hnew h hgen hmem
    obtain ⟨m, rfl, hm⟩ := hreply.exists_response hsize hdata
    exact ⟨m :: ms, .cons ⟨⟨call, q, url, hcall, hurl, hreply⟩, hm⟩ hms⟩

end Run

/-- The event that sends the bytes is the one that sends them. -/
theorem eq_of_isSent {data : Bytes} {e : ServeEvent} (h : isSent data e = true) :
    e = ⟨.sendAll data, true⟩ := by
  obtain ⟨o, r⟩ := e
  cases o with
  | sendAll d =>
    obtain ⟨rfl, rfl⟩ : d = data ∧ r = true := by simpa [isSent] using h
    rfl
  | _ => cases h

end ForwardProxy.Benchmark
