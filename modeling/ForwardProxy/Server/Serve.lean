import ForwardProxy.Cache.Sharded
import ForwardProxy.Http.Acl
import ForwardProxy.Lib.Interaction
import ForwardProxy.Server.Upstream

/-!
# Serving one request

`serve_one_request` of `server_phase5.cpp`, as a program over what it does outside of its own
variables: the clock, the counters, the cache, the upstream, the client's socket, and the access
log. `serveOneRequest_sat` says once what it may do and when; the results on what is cached,
forwarded and sent are read off it.
-/

namespace ForwardProxy

open Lib.Interaction

/-- A string of the source that is built from a status, a reason, and a body. -/
def buildResponse (status : ℤ) (reason body : Bytes) (keepAlive : Bool)
    (contentType : Bytes := str "text/plain") : Bytes :=
  str "HTTP/1.1 " ++ decimalInt status ++ str " " ++ reason ++ str "\r\n" ++
  str "Content-Type: " ++ contentType ++ str "\r\n" ++
  str "Content-Length: " ++ decimal body.length ++ str "\r\n" ++
  str "Connection: " ++ str (if keepAlive then "keep-alive" else "close") ++ str "\r\n" ++
  str "\r\n" ++ body

/-- An entry of the access log. -/
structure Entry where
  clientIp : Bytes := []
  method : Bytes := []
  path : Bytes := []
  version : Bytes := []
  host : Bytes := []
  upstream : Bytes := []
  status : ℤ := 0
  bytes : ℕ := 0
  cache : Bytes := str "-"
  acl : Bytes := str "-"
  rule : Bytes := []
  durationUs : ℤ := 0
  deriving DecidableEq

/-- The fields of `g_stats` that serving a connection adds to. -/
inductive Counter
  | totalRequests
  | forwardedRequests
  | cacheServed
  | deniedRequests
  | badRequests
  | upstreamErrors
  deriving DecidableEq

/-! ## What serving a request does outside -/

/-- What serving a request does to the outside. Each operation has its answer. -/
inductive ServeOp
  /-- Reads the clock, in nanoseconds. -/
  | now
  | bump (counter : Counter)
  | cacheGet (key : Bytes)
  | cachePut (key value : Bytes)
  | fetchUpstream (up : Upstream) (requestBytes : Bytes)
  | sendAll (data : Bytes)
  | logWrite (entry : Entry)

/-- The type of what an operation returns. -/
abbrev ServeOp.Answer : ServeOp → Type
  | .now => ℤ
  | .bump _ => Unit
  | .cacheGet _ => Option Bytes
  | .cachePut _ _ => Unit
  | .fetchUpstream _ _ => UpstreamResult
  | .sendAll _ => Bool
  | .logWrite _ => Unit

/-- A part of serving a request. -/
abbrev Serve := Prog ServeOp.Answer

/-- An operation, with the answer that it got. -/
abbrev ServeEvent := Event ServeOp.Answer

/-- The time. -/
abbrev now : Serve ℤ := Prog.perform ServeOp.now
/-- Adds one to a counter. -/
abbrev bump (counter : Counter) : Serve Unit := Prog.perform (ServeOp.bump counter)
/-- Looks a key up in the cache. -/
abbrev cacheGet (key : Bytes) : Serve (Option Bytes) := Prog.perform (ServeOp.cacheGet key)
/-- Puts a value into the cache. -/
abbrev cachePut (key value : Bytes) : Serve Unit := Prog.perform (ServeOp.cachePut key value)
/-- Fetches from the upstream. -/
abbrev fetch (up : Upstream) (requestBytes : Bytes) : Serve UpstreamResult :=
  Prog.perform (ServeOp.fetchUpstream up requestBytes)
/-- Sends bytes to the client. -/
abbrev sendAll (data : Bytes) : Serve Bool := Prog.perform (ServeOp.sendAll data)
/-- Writes a line of the access log. -/
abbrev logWrite (entry : Entry) : Serve Unit := Prog.perform (ServeOp.logWrite entry)

/-! ## The handler -/

/-- `serve_one_request` builds the key of the cache from the method and the authority, so that one
path on two hosts is two resources. -/
def cacheKey (req : Request) : Bytes := req.method ++ str " " ++ toLower req.host ++ req.path

/-- Only a `GET` or `HEAD` without `Authorization` looks into the cache. -/
def cacheableRequest (req : Request) : Bool :=
  (req.method = str "GET" || req.method = str "HEAD") && (req.header (str "authorization")).isNone

/-- The closure `finish`: the log line, with the time since `t0`. -/
def finish (t0 : ℤ) (log : Entry) (status : ℤ) (bytes : ℕ) (cacheState : Bytes) (keepAlive : Bool) :
    Serve Bool := do
  let t ← now
  logWrite { log with
    status := status
    bytes := bytes
    cache := cacheState
    durationUs := (t - t0).tdiv 1000 }
  return keepAlive

/-- What a client is told that the access control denies. -/
def forbiddenBody : Bytes := str "403 Forbidden: blocked by proxy policy\n"

/-- What a client is told where the upstream failed. -/
def badGatewayBody (error : Bytes) : Bytes := str "502 Bad Gateway: " ++ error ++ str "\n"

/-- The state of the cache that a forwarded request is logged with. -/
def missState (req : Request) : Bytes := if cacheableRequest req then str "MISS" else str "BYPASS"

/-- The part of the handler that forwards the request and relays the response. -/
def forward (t0 : ℤ) (log : Entry) (up : Upstream) (req : Request) (consumed : ℕ) : Serve Bool := do
  let ur ← fetch up (req.raw.take consumed)
  if !ur.ok then
    bump .upstreamErrors
    -- A failed upstream closes the client's connection.
    let resp := buildResponse 502 (str "Bad Gateway") (badGatewayBody ur.error) false
    let _ ← sendAll resp
    finish t0 { log with rule := ur.error } 502 resp.length (missState req) false
  else
    bump .forwardedRequests
    -- The insert guard asks again what the lookup guard has asked, and of the response besides.
    let parsed := parseResponseHeaders ur.raw
    if cacheableRequest req && isCacheable req parsed then
      cachePut (cacheKey req) ur.raw
    let sent ← sendAll ur.raw
    finish t0 log ur.status ur.raw.length (missState req) (sent && req.keepAlive)

/-- `serve_one_request`: whether the connection stays open for another request. -/
def serveOneRequest (acl : AccessControl) (clientIp : Bytes) (req : Request) (consumed : ℕ) :
    Serve Bool := do
  let t0 ← now
  bump .totalRequests
  let result := acl.check req
  let log : Entry := {
    clientIp := clientIp
    method := req.method
    path := req.path
    version := req.version
    host := req.host
    acl := if result.decision = .allow then str "ALLOW" else str "DENY"
    rule := result.matchedRule }
  -- Access control before the cache: a denied request is never answered from it.
  if result.decision = .deny then
    bump .deniedRequests
    let resp := buildResponse 403 (str "Forbidden") forbiddenBody req.keepAlive
    let sent ← sendAll resp
    finish t0 log 403 resp.length (str "BYPASS") (sent && req.keepAlive)
  else
    let up := acl.routes.resolve req.host
    let log := { log with upstream := up.host ++ str ":" ++ decimalInt up.port }
    if cacheableRequest req then
      match ← cacheGet (cacheKey req) with
      | some hit =>
        bump .cacheServed
        let sent ← sendAll hit
        let r := parseResponseHeaders hit
        finish t0 log r.status hit.length (str "HIT") (sent && req.keepAlive)
      | none => forward t0 log up req consumed
    else forward t0 log up req consumed

/-! ## What may come after what -/

/-- Among the events is a fetch that returned the response `raw`. -/
def Fetched (h : List ServeEvent) (raw : Bytes) : Prop :=
  ∃ up bytes, ∃ res : UpstreamResult,
    (⟨.fetchUpstream up bytes, res⟩ : ServeEvent) ∈ h ∧ res.ok = true ∧ res.raw = raw

/-- Among the events is a lookup of `key` that found `value`. -/
def Hit (h : List ServeEvent) (key value : Bytes) : Prop :=
  (⟨.cacheGet key, some value⟩ : ServeEvent) ∈ h

/-- The access control lets the request through. -/
def Allowed (acl : AccessControl) (req : Request) : Prop := (acl.check req).decision ≠ .deny

/-- When an operation may come after the events `h`. What is sent is the response found in the cache
or fetched, where there is one. -/
def Permitted (acl : AccessControl) (req : Request) (consumed : ℕ) (h : List ServeEvent) :
    ServeOp → Prop
  | .cacheGet key => Allowed acl req ∧ cacheableRequest req = true ∧ key = cacheKey req
  | .cachePut key value =>
    Allowed acl req ∧ cacheableRequest req = true ∧ key = cacheKey req ∧
      isCacheable req (parseResponseHeaders value) = true ∧ Fetched h value
  | .fetchUpstream up requestBytes =>
    Allowed acl req ∧ up = acl.routes.resolve req.host ∧ requestBytes = req.raw.take consumed
  | .sendAll data =>
    (∀ key value, Hit h key value → data = value) ∧ ∀ raw, Fetched h raw → data = raw
  | _ => True

/-- Nothing was found before anything was done. -/
@[simp]
theorem hit_nil (key value : Bytes) : ¬Hit [] key value := by simp [Hit]

/-- A value was found by the first event, or after it. -/
@[simp]
theorem hit_cons {e : ServeEvent} {h : List ServeEvent} {key value : Bytes} :
    Hit (e :: h) key value ↔ e = ⟨.cacheGet key, some value⟩ ∨ Hit h key value := by
  simp [Hit, eq_comm]

/-- A value was found in the first part or in the second. -/
@[simp]
theorem hit_append {h h' : List ServeEvent} {key value : Bytes} :
    Hit (h ++ h') key value ↔ Hit h key value ∨ Hit h' key value :=
  List.mem_append

/-- Nothing was fetched before anything was done. -/
@[simp]
theorem fetched_nil (raw : Bytes) : ¬Fetched [] raw := by simp [Fetched]

/-- A response was fetched by the first event, or after it. -/
@[simp]
theorem fetched_cons {e : ServeEvent} {h : List ServeEvent} {raw : Bytes} :
    Fetched (e :: h) raw ↔ (∃ up bytes, ∃ res : UpstreamResult,
      e = ⟨.fetchUpstream up bytes, res⟩ ∧ res.ok = true ∧ res.raw = raw) ∨ Fetched h raw := by
  simp only [Fetched, List.mem_cons, or_and_right, exists_or, eq_comm (b := e)]

/-- A response was fetched in the first part or in the second. -/
@[simp]
theorem fetched_append {h h' : List ServeEvent} {raw : Bytes} :
    Fetched (h ++ h') raw ↔ Fetched h raw ∨ Fetched h' raw := by
  simp only [Fetched, List.mem_append, or_and_right, exists_or]

/-- `finish` reads the clock and writes a line, which is always permitted. -/
theorem finish_sat {acl : AccessControl} {req : Request} {consumed : ℕ} {h : List ServeEvent}
    (t0 : ℤ) (log : Entry) (status : ℤ) (bytes : ℕ) (cacheState : Bytes) (keepAlive : Bool) :
    Prog.Sat (Permitted acl req consumed) (fun _ _ => True) h
      (finish t0 log status bytes cacheState keepAlive) :=
  ⟨trivial, fun _ => ⟨trivial, fun _ => trivial⟩⟩

/-- Forwarding, where nothing was found or fetched before. -/
theorem forward_sat {acl : AccessControl} {req : Request} (hallowed : Allowed acl req)
    (consumed : ℕ) (t0 : ℤ) (log : Entry) {h : List ServeEvent}
    (hhit : ∀ key value, ¬Hit h key value)
    (hfetched : ∀ raw, ¬Fetched h raw) :
    Prog.Sat (Permitted acl req consumed) (fun _ _ => True) h
      (forward t0 log (acl.routes.resolve req.host) req consumed) := by
  rw [forward, Prog.sat_perform_bind]
  refine ⟨⟨hallowed, rfl, rfl⟩, fun ur => ?_⟩
  split
  · rename_i hok
    simp only [Prog.sat_perform_bind]
    refine ⟨trivial, fun _ => ⟨⟨?_, ?_⟩, fun _ => finish_sat ..⟩⟩
    · simp [hhit]
    · rw [Bool.not_eq_true'] at hok
      simp [hfetched, hok]
  · rename_i hok
    rw [Bool.not_eq_true', Bool.not_eq_false] at hok
    simp only [Prog.sat_perform_bind]
    refine ⟨trivial, fun _ => ?_⟩
    split
    · rename_i hput
      rw [Bool.and_eq_true] at hput
      simp only [Prog.sat_perform_bind]
      refine ⟨⟨hallowed, hput.1, rfl, hput.2, ?_⟩, fun _ => ⟨⟨?_, ?_⟩, fun _ => finish_sat ..⟩⟩
      · simp [hok]
      · simp [hhit]
      · simp [hfetched, hok]
    · simp only [Prog.sat_perform_bind]
      refine ⟨⟨?_, ?_⟩, fun _ => finish_sat ..⟩
      · simp [hhit]
      · simp [hfetched, hok]

/-- Serving a request performs each operation only when it is permitted. -/
theorem serveOneRequest_sat (acl : AccessControl) (clientIp : Bytes) (req : Request)
    (consumed : ℕ) :
    Prog.Sat (Permitted acl req consumed) (fun _ _ => True) []
      (serveOneRequest acl clientIp req consumed) := by
  simp only [serveOneRequest, Prog.sat_perform_bind]
  refine ⟨trivial, fun t0 => ⟨trivial, fun _ => ?_⟩⟩
  -- The branches are those of the handler: denied, found in the cache, and forwarded.
  split
  · simp only [Prog.sat_perform_bind]
    refine ⟨trivial, fun _ => ⟨⟨?_, ?_⟩, fun _ => finish_sat ..⟩⟩
    · simp
    · simp
  · rename_i hallowed
    split
    · rename_i hcacheable
      rw [Prog.sat_perform_bind]
      refine ⟨⟨hallowed, hcacheable, rfl⟩, fun hit => ?_⟩
      cases hit with
      | some hit =>
        simp only [Prog.sat_perform_bind]
        refine ⟨trivial, fun _ => ⟨⟨?_, ?_⟩, fun _ => finish_sat ..⟩⟩
        · simp
        · simp
      | none => exact forward_sat hallowed _ _ _ (by simp) (by simp)
    · exact forward_sat hallowed _ _ _ (by simp) (by simp)

end ForwardProxy
