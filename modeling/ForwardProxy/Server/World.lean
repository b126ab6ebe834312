import ForwardProxy.Server.Serve

/-!
# Requests served one after another

`serve_one_request` run against a cache and what the outside answers. The counters and the log are
written and never read, so they are the events of the run. A request that is denied, carries
`Authorization`, or is neither `GET` nor `HEAD` leaves the cache as it is (`serveJob_of_inert`), so
deleting such requests from a sequence changes nothing for the others.
-/

namespace ForwardProxy

open Lib.Interaction

/-- The cache of the proxy, from keys to responses. -/
abbrev Cache := ShardedLRUCache Bytes Bytes

/-- What the outside answers while one request is served: the readings of the clock, what
`fetch_upstream` returns, and whether `send_all` succeeds. -/
structure Outside where
  now : ℕ → ℤ
  upstream : Upstream → Bytes → UpstreamResult
  sends : Bytes → Bool

/-- The answer to an operation from the cache and the number of clock readings so far. -/
def Outside.handle (env : Outside) : (o : ServeOp) → Cache × ℕ → o.Answer × (Cache × ℕ)
  | .now, (c, n) => (env.now n, (c, n + 1))
  | .bump _, s => ((), s)
  -- A lookup moves the entry and counts a hit or a miss.
  | .cacheGet key, (c, n) =>
    let (value, c) := c.get key
    (value, (c, n))
  | .cachePut key value, (c, n) => ((), (c.put key value, n))
  | .fetchUpstream up requestBytes, s => (env.upstream up requestBytes, s)
  | .sendAll data, s => (env.sends data, s)
  | .logWrite _, s => ((), s)

/-- The bytes handed to `send_all`, in order. -/
def sentBytes : List ServeEvent → Bytes
  | [] => []
  | ⟨.sendAll data, _⟩ :: es => data ++ sentBytes es
  | _ :: es => sentBytes es

/-- What a program sends and returns, and the cache that it leaves. -/
def served (env : Outside) (p : Serve Bool) (s : Cache × ℕ) : Bytes × Bool × Cache :=
  let (es, keep, s) := p.exec env.handle s
  (sentBytes es, keep, s.1)

/-- A call of `serve_one_request`, and what the outside answers to it. -/
structure Job where
  clientIp : Bytes
  req : Request
  consumed : ℕ
  env : Outside

/-- One call: the bytes sent, the result, and the cache after it. -/
def serveJob (acl : AccessControl) (cache : Cache) (job : Job) : Bytes × Bool × Cache :=
  served job.env (serveOneRequest acl job.clientIp job.req job.consumed) (cache, 0)

/-- A sequence of calls: the bytes that each sends, and the cache that the last leaves. -/
def serveJobs (acl : AccessControl) (cache : Cache) : List Job → List Bytes × Cache
  | [] => ([], cache)
  | job :: jobs =>
    let (sent, _, cache) := serveJob acl cache job
    let (rest, cache) := serveJobs acl cache jobs
    (sent :: rest, cache)

/-! ## What a call does -/

section Served

variable (env : Outside) (s : Cache × ℕ)

/-- The clock is read once more. -/
@[simp]
theorem served_now (f : ℤ → Serve Bool) :
    served env (.op .now f) s = served env (f (env.now s.2)) (s.1, s.2 + 1) := rfl

/-- A counter changes nothing here. -/
@[simp]
theorem served_bump (counter : Counter) (f : Unit → Serve Bool) :
    served env (.op (.bump counter) f) s = served env (f ()) s := rfl

/-- A lookup goes to the cache. -/
@[simp]
theorem served_cacheGet (key : Bytes) (f : Option Bytes → Serve Bool) :
    served env (.op (.cacheGet key) f) s =
      served env (f (s.1.get key).1) ((s.1.get key).2, s.2) := rfl

/-- A put goes to the cache. -/
@[simp]
theorem served_cachePut (key value : Bytes) (f : Unit → Serve Bool) :
    served env (.op (.cachePut key value) f) s = served env (f ()) (s.1.put key value, s.2) := rfl

/-- A fetch is answered by the upstream. -/
@[simp]
theorem served_fetch (up : Upstream) (requestBytes : Bytes) (f : UpstreamResult → Serve Bool) :
    served env (.op (.fetchUpstream up requestBytes) f) s =
      served env (f (env.upstream up requestBytes)) s :=
  rfl

/-- What is sent comes before what the rest sends. -/
@[simp]
theorem served_sendAll (data : Bytes) (f : Bool → Serve Bool) :
    served env (.op (.sendAll data) f) s =
      (data ++ (served env (f (env.sends data)) s).1, (served env (f (env.sends data)) s).2) := rfl

/-- Ending a request sends nothing and leaves the cache alone. -/
@[simp]
theorem served_finish (t0 : ℤ) (log : Entry) (status : ℤ) (bytes : ℕ) (cacheState : Bytes)
    (keepAlive : Bool) :
    served env (finish t0 log status bytes cacheState keepAlive) s = ([], keepAlive, s.1) := rfl

/-- What forwarding does with the response that it fetches. -/
theorem served_forward (t0 : ℤ) (log : Entry) (up : Upstream) (req : Request) (consumed : ℕ) :
    served env (forward t0 log up req consumed) s =
      let ur := env.upstream up (req.raw.take consumed)
      if ur.ok then
        (ur.raw, env.sends ur.raw && req.keepAlive,
          if cacheableRequest req && isCacheable req (parseResponseHeaders ur.raw) then
            s.1.put (cacheKey req) ur.raw
          else s.1)
      else (buildResponse 502 (str "Bad Gateway") (badGatewayBody ur.error) false, false, s.1) := by
  unfold forward
  simp only [Prog.perform_bind, served_fetch]
  cases (env.upstream up (req.raw.take consumed)).ok with
  | false => simp
  | true =>
    simp only [Bool.not_true, Bool.false_eq_true, if_false, served_bump, if_true]
    split <;> simp

end Served

/-- What the cache has for a request: nothing, where the request does not look into it. -/
def lookedUp (cache : Cache) (req : Request) : Option Bytes :=
  if cacheableRequest req then (cache.get (cacheKey req)).1 else none

/-- The bytes that a call relays: those found in the cache, or else those of the response fetched.
-/
def relayed (acl : AccessControl) (cache : Cache) (job : Job) : Option Bytes :=
  if (acl.check job.req).decision = .deny then none
  else
    match lookedUp cache job.req with
    | some value => some value
    | none =>
      let ur := job.env.upstream (acl.routes.resolve job.req.host) (job.req.raw.take job.consumed)
      if ur.ok then some ur.raw else none

/-- What a call sends, and whether it keeps the connection open: a response relayed is sent as it
is, and any other is one of the proxy's own. -/
theorem serveJob_eq (acl : AccessControl) (cache : Cache) (job : Job) :
    match relayed acl cache job with
    | some data =>
      (serveJob acl cache job).1 = data ∧
        (serveJob acl cache job).2.1 = (job.env.sends data && job.req.keepAlive)
    | none =>
      (serveJob acl cache job).2.1 = true →
        (serveJob acl cache job).1 =
          buildResponse 403 (str "Forbidden") forbiddenBody job.req.keepAlive := by
  unfold relayed serveJob serveOneRequest lookedUp
  simp only [Prog.perform_bind, served_now, served_bump]
  by_cases hdeny : (acl.check job.req).decision = .deny
  · simp [hdeny]
  · by_cases hcacheable : cacheableRequest job.req = true
    · simp only [hdeny, hcacheable, if_true, if_false, served_cacheGet]
      cases (cache.get (cacheKey job.req)).1 with
      | some value => simp
      | none =>
        simp only [served_forward]
        split_ifs <;> simp
    · rw [Bool.not_eq_true] at hcacheable
      simp only [hdeny, hcacheable, Bool.false_eq_true, if_false, served_forward]
      split_ifs <;> simp

/-! ## Requests that do not touch the cache -/

/-- Requests that neither look into the cache nor are put there. -/
def Inert (acl : AccessControl) (req : Request) : Prop :=
  (acl.check req).decision = .deny ∨ (req.header (str "authorization")).isSome ∨
    req.method ≠ str "GET" ∧ req.method ≠ str "HEAD"

/-- A request is cacheable exactly where it is a `GET` or a `HEAD` without credentials. -/
theorem cacheableRequest_eq_true {req : Request} : cacheableRequest req = true ↔
    (req.method = str "GET" ∨ req.method = str "HEAD") ∧
      req.header (str "authorization") = none := by
  simp [cacheableRequest]

/-- A request that is denied or not cacheable is not both allowed and cacheable. -/
theorem Inert.not_cacheable {acl : AccessControl} {req : Request} (h : Inert acl req) :
    ¬(Allowed acl req ∧ cacheableRequest req = true) := by
  rintro ⟨hallowed, hcacheable⟩
  obtain ⟨hmethod, hauth⟩ := cacheableRequest_eq_true.mp hcacheable
  rcases h with h | h | h
  · exact hallowed h
  · rw [hauth] at h
    cases h
  · exact hmethod.elim h.1 h.2

/-- No operation of an inert request changes the cache. -/
theorem serveJob_of_inert {acl : AccessControl} {job : Job} (h : Inert acl job.req)
    (cache : Cache) :
    (serveJob acl cache job).2.2 = cache := by
  refine Prog.exec_frame Prod.fst ((serveOneRequest_sat ..).mono fun es o ho => ?_) (cache, 0)
  intro s
  -- Only a lookup or a `put` could change it, and an inert request is permitted neither.
  cases o with
  | cacheGet key => exact absurd ⟨ho.1, ho.2.1⟩ h.not_cacheable
  | cachePut key value => exact absurd ⟨ho.1, ho.2.1⟩ h.not_cacheable
  | _ => rfl

/-- The elements of a list whose mark is false, where the marks are those of `jobs`. -/
def unmarked {α : Type} (jobs : List (Job × Bool)) (l : List α) : List α :=
  ((l.zip jobs).filter fun e => !e.2.2).map Prod.fst

/-- Deleting marked requests, all of them inert, from a sequence leaves the same cache at the end,
and the same bytes sent for every request that remains. -/
theorem serveJobs_unmarked (acl : AccessControl) (cache : Cache) (jobs : List (Job × Bool))
    (h : ∀ job ∈ jobs, job.2 = true → Inert acl job.1.req) :
    serveJobs acl cache (unmarked jobs (jobs.map Prod.fst)) =
      (unmarked jobs (serveJobs acl cache (jobs.map Prod.fst)).1,
        (serveJobs acl cache (jobs.map Prod.fst)).2) := by
  induction jobs generalizing cache with
  | nil => rfl
  | cons job jobs ih =>
    obtain ⟨job, mark⟩ := job
    have hrest := ih (serveJob acl cache job).2.2 fun j hj => h j (List.mem_cons_of_mem _ hj)
    cases mark with
    | false =>
      simp only [unmarked, List.map_cons, List.zip_cons_cons, List.filter_cons, Bool.not_false,
        if_true, serveJobs] at hrest ⊢
      rw [hrest]
    | true =>
      have hinert : Inert acl job.req := h (job, true) (by simp) rfl
      rw [serveJob_of_inert hinert] at hrest
      simp only [unmarked, List.map_cons, List.zip_cons_cons, List.filter_cons, Bool.not_true,
        Bool.false_eq_true, if_false, serveJobs] at hrest ⊢
      rw [serveJob_of_inert hinert]
      exact hrest

/-- A `POST` before a `GET` is deleted. -/
theorem serveJobs_without_post :
    let raw := str "HTTP/1.1 200 OK\r\nContent-Length: 2\r\n\r\nhi"
    let env : Outside := {
      now := fun _ => 0
      upstream := fun _ _ => fetchUpstream .sent [.data 72 (raw.drop 1)]
      sends := fun _ => true }
    let post : Job :=
      ⟨str "10.0.0.1", parseRequest (str "POST /a HTTP/1.1\r\nHost: h\r\n\r\n"), 29, env⟩
    let get : Job :=
      ⟨str "10.0.0.1", parseRequest (str "GET /a HTTP/1.1\r\nHost: h\r\n\r\n"), 28, env⟩
    let cache : Cache := ⟨[LRUCache.new 1], 0, fun _ => 0, by decide⟩
    serveJobs {} cache [get] =
      (unmarked [(post, true), (get, false)] (serveJobs {} cache [post, get]).1,
        (serveJobs {} cache [post, get]).2) := by
  intro raw env post get cache
  refine serveJobs_unmarked {} cache [(post, true), (get, false)] ?_
  rintro job hjob hmark
  rcases List.mem_cons.mp hjob with rfl | hjob
  · exact Or.inr (Or.inr (by decide +kernel))
  · rw [List.mem_singleton] at hjob
    subst hjob
    cases hmark

end ForwardProxy
