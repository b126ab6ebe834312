import ForwardProxy.Server.Exits
import ForwardProxy.Server.Workers

/-!
# The counters over any interleaving

The workers share the cache, the counters of `g_stats`, and the access log, and every operation on
these is atomic: an increment, or a critical section of a shard or of the log. A worker serves
requests (`serve_one_request`) and takes the ways out of `handle_ready`. Each request counts itself,
and then exactly one of four outcomes. So the counters balance in every reachable state, and where
no worker is at work the statistics of the cache and the lines of the log agree with them
(`counters_balance`).
-/

namespace ForwardProxy

open Lib.Interaction

/-! ## What the workers share -/

/-- What the workers share: the cache, the counters of `g_stats`, and the number of lines of the
log. -/
structure Shared where
  cache : Cache
  stats : Counter → UInt64 := fun _ => 0
  /-- `lines_` of the access log. -/
  lines : UInt64 := 0

/-- One counter goes up by one. -/
def Shared.bump (s : Shared) (counter : Counter) : Shared :=
  { s with stats := fun c => if c = counter then s.stats c + 1 else s.stats c }

/-- What an operation does to what is shared. -/
def ServeOp.Changes : (o : ServeOp) → Shared → o.Answer → Shared → Prop
  | .bump counter, s, _, s' => s' = s.bump counter
  | .logWrite _, s, _, s' => s' = { s with lines := s.lines + 1 }
  | o, s, r, s' => ∃ cache, o.Acts s.cache r cache ∧ s' = { s with cache := cache }

/-- What a worker does for a connection: it serves a request, or it takes a way out of
`handle_ready`. A call of `handle_ready` serves requests and then takes one way out
(`handleReady_exit`). -/
inductive Duty
  | serve (call : Call)
  | leave (exit : Exit)

/-- What `handle_ready` does on its own. Requests that are served are duties of their own, and
closing and re-arming are between the connection and the kernel. -/
def ConnEvent.act : ConnEvent → Serve Unit
  | .sent data => do
    let _ ← sendAll data
  | .bumped counter => bump counter
  | .logged entry => logWrite entry
  | .served _ _ _ | .closed | .rearmed => pure ()

/-- One event after another. -/
def actAll : List ConnEvent → Serve Unit
  | [] => pure ()
  | e :: es => do
    e.act
    actAll es

/-- A request that is served returns whether the connection stays open. -/
def Duty.body (acl : AccessControl) : Duty → Serve (Option Bool)
  | .serve call => do
    let keep ← call.body acl
    return some keep
  | .leave exit => do
    actAll exit.events
    return none

/-- The pools of workers that come of an empty pool and the cache `cache`. A worker with one duty
after another is here a thread for each of them. -/
def CountersReach (acl : AccessControl) (cache : Cache) :
    Pool ServeOp.Answer Duty (Option Bool) Shared → Prop :=
  Pool.Reachable (Duty.body acl) ServeOp.Changes { cache := cache }

/-! ## Counting events -/

/-- The increment of a counter. -/
def isBump (counter : Counter) : ServeEvent → Bool
  | ⟨.bump c, _⟩ => c = counter
  | _ => false

/-- A line of the log. -/
def isLine : ServeEvent → Bool
  | ⟨.logWrite _, _⟩ => true
  | _ => false

/-- A lookup that found something. -/
def isFound : ServeEvent → Bool
  | ⟨.cacheGet _, some _⟩ => true
  | _ => false

/-- A lookup that found nothing. -/
def isMissed : ServeEvent → Bool
  | ⟨.cacheGet _, none⟩ => true
  | _ => false

/-- An atomic step on what is shared. -/
def touches : ServeEvent → Bool
  | ⟨.bump _, _⟩ | ⟨.cacheGet _, _⟩ | ⟨.cachePut _ _, _⟩ | ⟨.logWrite _, _⟩ => true
  | _ => false

/-- The requests that counted themselves. -/
def totals (h : List ServeEvent) : ℕ := h.countP (isBump .totalRequests)

/-- The bumps of a counter of an outcome. -/
def outcomes (h : List ServeEvent) : ℕ :=
  h.countP (isBump .deniedRequests) + h.countP (isBump .cacheServed) +
    h.countP (isBump .upstreamErrors) + h.countP (isBump .forwardedRequests)

/-- One event more at the end. -/
theorem countP_snoc {α : Type} (f : α → Bool) (l : List α) (a : α) :
    (l ++ [a]).countP f = l.countP f + (f a).toNat := by
  rw [List.countP_append, List.countP_singleton]
  cases f a <;> rfl

/-- The outcomes of two parts add up. -/
theorem outcomes_append (h h' : List ServeEvent) :
    outcomes (h ++ h') = outcomes h + outcomes h' := by
  simp only [outcomes, List.countP_append]
  omega

/-! ## One request -/

/-- A request that looks into the cache. -/
def looksUp (acl : AccessControl) (req : Request) : Bool :=
  (acl.check req).decision = .allow && cacheableRequest req

/-- A request on its way: it counts itself before all else, and then one outcome at most. -/
structure Underway (h : List ServeEvent) : Prop where
  total : totals h ≤ 1
  outcome : outcomes h ≤ totals h
  first : totals h = 0 → h.any touches = false

/-- A request that has counted itself, with its lookups, outcomes and lines so far. -/
structure Progress (lookups outcome lines : ℕ) (h : List ServeEvent) : Prop where
  total : totals h = 1
  outcome : outcomes h = outcome
  found : h.countP isFound = h.countP (isBump .cacheServed)
  lookups : h.countP isFound + h.countP isMissed = lookups
  lines : h.countP isLine = lines

namespace Progress

variable {lookups outcome lines : ℕ} {h : List ServeEvent}

/-- A request with one outcome at most is on its way. -/
theorem underway (hp : Progress lookups outcome lines h) (hle : outcome ≤ 1) : Underway h where
  total := hp.total.le
  outcome := by rw [hp.outcome, hp.total]; exact hle
  first := fun h0 => absurd (hp.total.symm.trans h0) (by decide)

/-- One more event, other than a lookup that finds something and the bump that follows it. -/
theorem snoc (hp : Progress lookups outcome lines h) (e : ServeEvent)
    (htotal : isBump .totalRequests e = false) (hfound : isFound e = false)
    (hserved : isBump .cacheServed e = false) :
    Progress (lookups + (isMissed e).toNat) (outcome + outcomes [e]) (lines + (isLine e).toNat)
      (h ++ [e]) where
  total := by rw [totals, countP_snoc, htotal]; exact hp.total
  outcome := by rw [outcomes_append, hp.outcome]
  found := by rw [countP_snoc, countP_snoc, hfound, hserved, hp.found]
  lookups := by
    rw [countP_snoc, countP_snoc, hfound, Bool.toNat_false, Nat.add_zero, ← Nat.add_assoc,
      hp.lookups]
  lines := by rw [countP_snoc, hp.lines]

end Progress

/-- Ending a request writes one line, and counts nothing. -/
theorem finish_counts {lookups : ℕ} {h : List ServeEvent} (hp : Progress lookups 1 0 h) (t0 : ℤ)
    (log : Entry) (status : ℤ) (bytes : ℕ) (cacheState : Bytes) (keepAlive : Bool) :
    Prog.Sat (fun h _ => Underway h) (fun h _ => Progress lookups 1 1 h) h
      (finish t0 log status bytes cacheState keepAlive) := by
  refine ⟨hp.underway le_rfl, fun t => ?_⟩
  have hnow : Progress lookups 1 0 (h ++ [⟨.now, t⟩]) := hp.snoc ⟨.now, t⟩ rfl rfl rfl
  exact ⟨hnow.underway le_rfl, fun _ => hnow.snoc ⟨.logWrite _, _⟩ rfl rfl rfl⟩

/-- Forwarding counts an error or a forwarded request. -/
theorem forward_counts {lookups : ℕ} {h : List ServeEvent} (hp : Progress lookups 0 0 h) (t0 : ℤ)
    (log : Entry) (up : Upstream) (req : Request) (consumed : ℕ) :
    Prog.Sat (fun h _ => Underway h) (fun h _ => Progress lookups 1 1 h) h
      (forward t0 log up req consumed) := by
  rw [forward, Prog.sat_perform_bind]
  refine ⟨hp.underway (Nat.zero_le _), fun ur => ?_⟩
  have hfetch := hp.snoc ⟨.fetchUpstream up (req.raw.take consumed), ur⟩ rfl rfl rfl
  split
  · simp only [Prog.sat_perform_bind]
    refine ⟨hfetch.underway (Nat.zero_le _), fun _ => ?_⟩
    have hbump := hfetch.snoc ⟨.bump .upstreamErrors, ()⟩ rfl rfl rfl
    refine ⟨hbump.underway le_rfl, fun _ => finish_counts ?_ ..⟩
    exact hbump.snoc ⟨.sendAll _, _⟩ rfl rfl rfl
  · simp only [Prog.sat_perform_bind]
    refine ⟨hfetch.underway (Nat.zero_le _), fun _ => ?_⟩
    have hbump := hfetch.snoc ⟨.bump .forwardedRequests, ()⟩ rfl rfl rfl
    split
    · simp only [Prog.sat_perform_bind]
      refine ⟨hbump.underway le_rfl, fun _ => ?_⟩
      have hput := hbump.snoc ⟨.cachePut (cacheKey req) ur.raw, ()⟩ rfl rfl rfl
      refine ⟨hput.underway le_rfl, fun _ => finish_counts ?_ ..⟩
      exact hput.snoc ⟨.sendAll _, _⟩ rfl rfl rfl
    · simp only [Prog.sat_perform_bind]
      refine ⟨hbump.underway le_rfl, fun _ => finish_counts ?_ ..⟩
      exact hbump.snoc ⟨.sendAll _, _⟩ rfl rfl rfl

/-- On every path a request counts itself and then one outcome, and a hit as served from the cache.
-/
theorem serveOneRequest_counts (acl : AccessControl) (clientIp : Bytes) (req : Request)
    (consumed : ℕ) :
    Prog.Sat (fun h _ => Underway h) (fun h _ => Progress (looksUp acl req).toNat 1 1 h) []
      (serveOneRequest acl clientIp req consumed) := by
  simp only [serveOneRequest, Prog.sat_perform_bind]
  refine ⟨⟨Nat.zero_le _, le_rfl, fun _ => rfl⟩, fun t0 =>
    ⟨⟨Nat.zero_le _, le_rfl, fun _ => rfl⟩, fun _ => ?_⟩⟩
  have hstart : Progress 0 0 0 ([] ++ [⟨.now, t0⟩] ++ [⟨.bump .totalRequests, ()⟩]) :=
    ⟨rfl, rfl, rfl, rfl, rfl⟩
  split
  · rename_i hdeny
    have hnone : looksUp acl req = false := by simp [looksUp, hdeny]
    rw [hnone]
    simp only [Prog.sat_perform_bind]
    refine ⟨hstart.underway (Nat.zero_le _), fun _ => ?_⟩
    have hbump := hstart.snoc ⟨.bump .deniedRequests, ()⟩ rfl rfl rfl
    refine ⟨hbump.underway le_rfl, fun _ => finish_counts ?_ ..⟩
    exact hbump.snoc ⟨.sendAll _, _⟩ rfl rfl rfl
  · rename_i hdeny
    have hallow : (acl.check req).decision = .allow := by
      cases hd : (acl.check req).decision with
      | allow => rfl
      | deny => exact absurd hd hdeny
    split
    · rename_i hcacheable
      have hlooks : looksUp acl req = true := by simp [looksUp, hallow, hcacheable]
      rw [hlooks, Prog.sat_perform_bind]
      refine ⟨hstart.underway (Nat.zero_le _), fun hit => ?_⟩
      cases hit with
      | some hit =>
        simp only [Prog.sat_perform_bind]
        -- Found, but not yet counted.
        refine ⟨⟨le_rfl, Nat.zero_le _, fun h0 => absurd h0 Nat.one_ne_zero⟩, fun _ => ?_⟩
        have hserved : Progress 1 1 0 ([] ++ [⟨.now, t0⟩] ++ [⟨.bump .totalRequests, ()⟩] ++
            [⟨.cacheGet (cacheKey req), some hit⟩] ++ [⟨.bump .cacheServed, ()⟩]) :=
          ⟨rfl, rfl, rfl, rfl, rfl⟩
        refine ⟨hserved.underway le_rfl, fun _ => finish_counts ?_ ..⟩
        exact hserved.snoc ⟨.sendAll _, _⟩ rfl rfl rfl
      | none => exact forward_counts (hstart.snoc ⟨.cacheGet _, none⟩ rfl rfl rfl) ..
    · rename_i hcacheable
      have hnone : looksUp acl req = false := by simp [looksUp, hcacheable]
      rw [hnone]
      exact forward_counts hstart ..

/-! ## One duty -/

/-- A rejection with 400. -/
def Duty.rejects : Duty → Bool
  | .leave (.badRequest _ _) => true
  | _ => false

/-- The duty looks into the cache. -/
def Duty.looksUp (acl : AccessControl) : Duty → Bool
  | .serve call => ForwardProxy.looksUp acl call.req
  | .leave _ => false

/-- A request inside `serve_one_request` that has not bumped the counter of an outcome. It is inside
from its first step on what is shared until it returns. -/
def Duty.pending : Duty → Serve (Option Bool) → List ServeEvent → Bool
  | .serve _, .op _ _, h => h.any touches && outcomes h = 0
  | _, _, _ => false

/-- What a way out counts: no request and no lookup. -/
structure Uncounted (lines : ℕ) (h : List ServeEvent) : Prop where
  total : totals h = 0
  outcome : outcomes h = 0
  served : h.countP (isBump .cacheServed) = 0
  found : h.countP isFound = 0
  missed : h.countP isMissed = 0
  lines : h.countP isLine = lines

/-- What is counted on the way of a duty. -/
def Duty.Midway : Duty → List ServeEvent → Prop
  | .serve _, h => Underway h
  | .leave _, h => ∃ lines, Uncounted lines h

/-- What is counted by a duty. -/
def Duty.Done (acl : AccessControl) (duty : Duty) (h : List ServeEvent) : Prop :=
  match duty with
  | .serve call => Progress (ForwardProxy.looksUp acl call.req).toNat 1 1 h
  | .leave _ => Uncounted duty.rejects.toNat h

/-- A way out logs a line where it is a rejection with 400. -/
theorem leave_counts (exit : Exit) :
    Prog.Sat (fun h _ => ∃ lines, Uncounted lines h)
      (fun h _ => Uncounted (Duty.rejects (.leave exit)).toNat h) [] (actAll exit.events) := by
  have hnil : ∃ lines, Uncounted lines [] := ⟨0, rfl, rfl, rfl, rfl, rfl, rfl⟩
  cases exit with
  | tooLarge => exact ⟨hnil, fun _ => ⟨rfl, rfl, rfl, rfl, rfl, rfl⟩⟩
  | headerTooLarge =>
    exact ⟨hnil, fun _ => ⟨⟨0, rfl, rfl, rfl, rfl, rfl, rfl⟩, fun _ =>
      ⟨rfl, rfl, rfl, rfl, rfl, rfl⟩⟩⟩
  | badRequest clientIp req =>
    exact ⟨hnil, fun _ => ⟨⟨0, rfl, rfl, rfl, rfl, rfl, rfl⟩, fun _ =>
      ⟨⟨0, rfl, rfl, rfl, rfl, rfl, rfl⟩, fun _ => ⟨rfl, rfl, rfl, rfl, rfl, rfl⟩⟩⟩⟩
  | failed => exact ⟨rfl, rfl, rfl, rfl, rfl, rfl⟩
  | notKept req need => exact ⟨rfl, rfl, rfl, rfl, rfl, rfl⟩
  | peerClosed => exact ⟨rfl, rfl, rfl, rfl, rfl, rfl⟩
  | rearmed => exact ⟨rfl, rfl, rfl, rfl, rfl, rfl⟩

/-- What a duty counts, on its way and once it is done. -/
theorem Duty.body_counts (acl : AccessControl) (duty : Duty) :
    Prog.Sat (fun h _ => duty.Midway h) (fun h _ => duty.Done acl h) [] (duty.body acl) := by
  cases duty with
  | serve call =>
    apply (serveOneRequest_counts acl call.clientIp call.req call.consumed).bind
    exact fun _ _ h => h
  | leave exit =>
    apply (leave_counts exit).bind
    exact fun _ _ h => h

/-- A request that has counted itself has touched what is shared. -/
theorem touches_of_totals {h : List ServeEvent} (h0 : totals h ≠ 0) : h.any touches = true := by
  obtain ⟨e, he, hbump⟩ := List.countP_pos_iff.mp (Nat.pos_of_ne_zero h0)
  refine List.any_eq_true.mpr ⟨e, he, ?_⟩
  obtain ⟨o, r⟩ := e
  cases o <;> first | rfl | cases hbump

/-- A duty has counted as many outcomes as requests, but for one that is pending. -/
theorem Duty.totals_eq {acl : AccessControl} {duty : Duty} {q : Serve (Option Bool)}
    {h : List ServeEvent}
    (hq : Prog.Sat (fun h _ => duty.Midway h) (fun h _ => duty.Done acl h) h q) :
    totals h = outcomes h + (duty.pending q h).toNat := by
  cases duty with
  | serve call =>
    cases q with
    | ret keep =>
      have hdone : Progress _ 1 1 h := hq
      rw [hdone.total, hdone.outcome]
      rfl
    | op o k =>
      obtain ⟨htotal, houtcome, hfirst⟩ : Underway h := hq.1
      by_cases h0 : totals h = 0
      · simp only [pending, hfirst h0, Bool.false_and, Bool.toNat_false]
        omega
      · have hpending : pending (.serve call) (.op o k) h = decide (outcomes h = 0) := by
          simp only [pending, touches_of_totals h0, Bool.true_and]
        rw [hpending]
        -- One request, and one outcome or none.
        cases hout : outcomes h with
        | zero =>
          simp only [decide_true, Bool.toNat_true]
          omega
        | succ n =>
          simp only [Nat.succ_ne_zero, decide_false, Bool.toNat_false]
          omega
  | leave exit =>
    cases q with
    | ret keep =>
      have hdone : Uncounted _ h := hq
      rw [hdone.total, hdone.outcome]
      rfl
    | op o k =>
      obtain ⟨lines, hmid⟩ : ∃ lines, Uncounted lines h := hq.1
      rw [hmid.total, hmid.outcome]
      rfl

/-- A duty that is done was served from the cache where it found something, has looked something up
where it looks into the cache, and has logged a line for a request and for a rejection. -/
theorem Duty.Done.counts {acl : AccessControl} {duty : Duty} {h : List ServeEvent}
    (hd : duty.Done acl h) :
    h.countP isFound = h.countP (isBump .cacheServed) ∧
      h.countP isFound + h.countP isMissed = (duty.looksUp acl).toNat ∧
      h.countP isLine = totals h + duty.rejects.toNat := by
  cases duty with
  | serve call =>
    obtain ⟨htotal, -, hfound, hlookups, hlines⟩ : Progress _ 1 1 h := hd
    exact ⟨hfound, hlookups, by rw [hlines, htotal]; rfl⟩
  | leave exit =>
    obtain ⟨htotal, -, hserved, hfound, hmissed, hlines⟩ : Uncounted _ h := hd
    refine ⟨?_, ?_, ?_⟩
    · rw [hfound, hserved]
    · rw [hfound, hmissed]
      rfl
    · rw [hlines, htotal, Nat.zero_add]

/-! ## What is shared -/

/-- The counters are the numbers of the events, as 64-bit words. -/
structure Counted (s : Shared) (trace : List (ℕ × ServeEvent)) : Prop where
  wf : s.cache.Wf
  stats : ∀ counter, s.stats counter = UInt64.ofNat (trace.countP fun e => isBump counter e.2)
  lines : s.lines = UInt64.ofNat (trace.countP fun e => isLine e.2)
  hits : s.cache.stats.hits = UInt64.ofNat (trace.countP fun e => isFound e.2)
  misses : s.cache.stats.misses = UInt64.ofNat (trace.countP fun e => isMissed e.2)

/-- One more in a machine word. -/
theorem ofNat_add_toNat (n : ℕ) (b : Bool) :
    UInt64.ofNat (n + b.toNat) = UInt64.ofNat n + if b then 1 else 0 := by
  rw [UInt64.ofNat_add]
  cases b <;> rfl

/-- A step that counts one more event. -/
theorem Counted.snoc {s s' : Shared} {trace : List (ℕ × ServeEvent)} (h : Counted s trace) (i : ℕ)
    (e : ServeEvent) (hwf : s'.cache.Wf)
    (hstats : ∀ c, s'.stats c = s.stats c + if isBump c e then 1 else 0)
    (hlines : s'.lines = s.lines + if isLine e then 1 else 0)
    (hhits : s'.cache.stats.hits = s.cache.stats.hits + if isFound e then 1 else 0)
    (hmisses : s'.cache.stats.misses = s.cache.stats.misses + if isMissed e then 1 else 0) :
    Counted s' (trace ++ [(i, e)]) where
  wf := hwf
  stats c := by rw [countP_snoc, ofNat_add_toNat, ← h.stats, hstats]
  lines := by rw [countP_snoc, ofNat_add_toNat, ← h.lines, hlines]
  hits := by rw [countP_snoc, ofNat_add_toNat, ← h.hits, hhits]
  misses := by rw [countP_snoc, ofNat_add_toNat, ← h.misses, hmisses]

/-- Every operation is counted as its event. -/
theorem Counted.act {s s' : Shared} {trace : List (ℕ × ServeEvent)} (h : Counted s trace) (i : ℕ)
    {o : ServeOp} {r : o.Answer} (hact : o.Changes s r s') :
    Counted s' (trace ++ [(i, ⟨o, r⟩)]) := by
  have hsame : ∀ n : UInt64, n = n + 0 := fun n => (UInt64.add_zero n).symm
  cases o with
  | bump counter =>
    obtain rfl := hact
    refine h.snoc i ⟨.bump counter, r⟩ h.wf (fun c => ?_) (hsame _) (hsame _) (hsame _)
    by_cases hc : c = counter
    · simp [Shared.bump, isBump, hc]
    · simp [Shared.bump, isBump, hc, Ne.symm hc]
  | logWrite entry =>
    obtain rfl := hact
    exact h.snoc i _ h.wf (fun _ => hsame _) rfl (hsame _) (hsame _)
  | cacheGet key =>
    -- A lookup counts a hit or a miss in the shard of its key.
    obtain ⟨cache, hget, rfl⟩ := hact
    have hwf := ShardedLRUCache.get_wf h.wf key
    obtain ⟨hhits, hmisses⟩ := ShardedLRUCache.stats_get h.wf key
    rw [hget] at hwf hhits hmisses
    refine h.snoc i ⟨.cacheGet key, r⟩ hwf (fun _ => hsame _) (hsame _) ?_ ?_
    · rw [hhits]
      cases r <;> rfl
    · rw [hmisses]
      cases r <;> rfl
  | cachePut key value =>
    obtain ⟨cache, rfl, rfl⟩ := hact
    obtain ⟨hhits, hmisses⟩ := ShardedLRUCache.stats_put s.cache key value
    refine h.snoc i ⟨.cachePut key value, r⟩ (ShardedLRUCache.put_wf h.wf key value)
      (fun _ => hsame _) (hsame _) ?_ ?_
    · exact hhits.trans (hsame _)
    · exact hmisses.trans (hsame _)
  | now =>
    obtain ⟨cache, rfl, rfl⟩ := hact
    exact h.snoc i _ h.wf (fun _ => hsame _) (hsame _) (hsame _) (hsame _)
  | fetchUpstream up requestBytes =>
    obtain ⟨cache, rfl, rfl⟩ := hact
    exact h.snoc i _ h.wf (fun _ => hsame _) (hsame _) (hsame _) (hsame _)
  | sendAll data =>
    obtain ⟨cache, rfl, rfl⟩ := hact
    exact h.snoc i _ h.wf (fun _ => hsame _) (hsame _) (hsame _) (hsame _)

/-- The shards of a new cache have counted nothing. -/
theorem counted_new {hasher : Bytes → UInt64} {capacity shards : UInt64} {cache : Cache}
    (hnew : ShardedLRUCache.new hasher capacity shards = some cache) :
    Counted { cache := cache } [] := by
  obtain ⟨hhits, hmisses⟩ := ShardedLRUCache.stats_new hnew
  exact ⟨(ShardedLRUCache.new_wf hnew).1, fun _ => rfl, rfl, hhits, hmisses⟩

/-- The counters are the numbers of events in the histories of the workers. By induction on the
steps. -/
theorem CountersReach.counted {acl : AccessControl} {hasher : Bytes → UInt64}
    {capacity shards : UInt64} {cache : Cache}
    (hnew : ShardedLRUCache.new hasher capacity shards = some cache)
    {p : Pool ServeOp.Answer Duty (Option Bool) Shared} (h : CountersReach acl cache p) :
    Counted p.shared p.trace :=
  Pool.Reachable.invariant (counted_new hnew) (fun _ _ _ _ i _ hact hinv => hinv.act i hact) h

/-! ## The balance -/

/-- No worker is at work: every duty has returned. -/
def Quiescent (p : Pool ServeOp.Answer Duty (Option Bool) Shared) : Prop :=
  ∀ t ∈ p.threads, ∃ result, t.2 = .ret result

/-- In every reachable state `total_requests` is the sum of the counters of the four outcomes and
the number of the requests that are pending. And where no worker is at work, the hits of the cache
are the requests served from it, its lookups are the allowed requests that are `GET` or `HEAD`
without `Authorization`, and the lines of the log are the requests and the rejections with 400. All
of it is in 64-bit words. -/
theorem counters_balance (acl : AccessControl) (hasher : Bytes → UInt64) (capacity shards : UInt64)
    (cache : Cache) (hnew : ShardedLRUCache.new hasher capacity shards = some cache)
    (p : Pool ServeOp.Answer Duty (Option Bool) Shared) (h : CountersReach acl cache p) :
    let stats := p.shared.stats
    let cacheStats := p.shared.cache.stats
    stats .totalRequests = stats .deniedRequests + stats .cacheServed + stats .upstreamErrors +
        stats .forwardedRequests + UInt64.ofNat (p.number Duty.pending) ∧
      (Quiescent p →
        cacheStats.hits = stats .cacheServed ∧
          cacheStats.hits + cacheStats.misses =
            UInt64.ofNat (p.number fun duty _ _ => duty.looksUp acl) ∧
          p.shared.lines = stats .totalRequests +
            UInt64.ofNat (p.number fun duty _ _ => duty.rejects)) := by
  intro stats cacheStats
  obtain ⟨-, hstats, hlines, hhits, hmisses⟩ := CountersReach.counted hnew h
  have hsat := Pool.Reachable.sat_thread (Duty.body_counts acl) h
  have hcount := Pool.Reachable.countP_eq h
  constructor
  · -- Each thread has counted as many requests as outcomes and pending requests.
    have hsum : p.trace.countP (fun e => isBump .totalRequests e.2) =
        p.trace.countP (fun e => isBump .deniedRequests e.2) +
          p.trace.countP (fun e => isBump .cacheServed e.2) +
          p.trace.countP (fun e => isBump .upstreamErrors e.2) +
          p.trace.countP (fun e => isBump .forwardedRequests e.2) + p.number Duty.pending := by
      simp only [hcount, Pool.number_eq_sum, ← Finset.sum_add_distrib]
      exact Finset.sum_congr rfl fun i _ => Duty.totals_eq (hsat i)
    simp only [stats, hstats, hsum, UInt64.ofNat_add]
  · intro hq
    -- Each thread is done, so each has counted what its duty counts, and the sums are over threads.
    have hdone : ∀ i : Fin p.threads.length,
        (p.threads.get i).1.Done acl (own i p.trace) := by
      intro i
      obtain ⟨result, hret⟩ := hq _ (List.get_mem p.threads i)
      have hi := hsat i
      rwa [hret, Prog.sat_ret] at hi
    refine ⟨?_, ?_, ?_⟩
    · have hsum : p.trace.countP (fun e => isFound e.2) =
          p.trace.countP (fun e => isBump .cacheServed e.2) := by
        simp only [hcount]
        exact Finset.sum_congr rfl fun i _ => (hdone i).counts.1
      rw [hhits, hsum]
      exact (hstats _).symm
    · have hsum : p.trace.countP (fun e => isFound e.2) + p.trace.countP (fun e => isMissed e.2) =
          p.number fun duty _ _ => duty.looksUp acl := by
        simp only [hcount, Pool.number_eq_sum, ← Finset.sum_add_distrib]
        exact Finset.sum_congr rfl fun i _ => (hdone i).counts.2.1
      rw [← hsum, UInt64.ofNat_add, ← hhits, ← hmisses]
    · have hsum : p.trace.countP (fun e => isLine e.2) =
          p.trace.countP (fun e => isBump .totalRequests e.2) +
            p.number fun duty _ _ => duty.rejects := by
        simp only [hcount, Pool.number_eq_sum, ← Finset.sum_add_distrib]
        exact Finset.sum_congr rfl fun i _ => (hdone i).counts.2.2
      rw [hlines, hsum, UInt64.ofNat_add]
      exact congrArg (· + _) (hstats _).symm

/-- The answers of the outside to the operations of a worker. -/
def Outside.onShared (env : Outside) : (o : ServeOp) → Shared → o.Answer × Shared
  | .bump counter, s => ((), s.bump counter)
  | .logWrite _, s => ((), { s with lines := s.lines + 1 })
  | o, s => ((env.onCache o s.cache).1, { s with cache := (env.onCache o s.cache).2 })

/-- The answers of the outside are among those that an operation can get. -/
theorem Outside.onShared_changes (env : Outside) (o : ServeOp) (s : Shared) :
    o.Changes s (env.onShared o s).1 (env.onShared o s).2 := by
  have hacts := env.onCache_acts o s.cache
  cases o with
  | bump counter => rfl
  | logWrite entry => rfl
  | _ => exact ⟨_, hacts, rfl⟩

/-- A run with a miss, a hit, and a rejection with 400. -/
theorem counters_balance_hit :
    ∃ cache, ShardedLRUCache.new (fun _ => 0) 2000 16 = some cache ∧
      ∃ p, CountersReach {} cache p ∧ Quiescent p ∧
        p.shared.stats .totalRequests = 2 ∧ p.shared.stats .forwardedRequests = 1 ∧
        p.shared.cache.stats.hits = p.shared.stats .cacheServed ∧
        p.shared.lines = p.shared.stats .totalRequests +
          UInt64.ofNat (p.number fun duty _ _ => duty.rejects) := by
  let raw := str "HTTP/1.1 200 OK\r\nContent-Length: 2\r\n\r\nhi"
  let call : Call :=
    ⟨str "10.0.0.1", parseRequest (str "GET /b HTTP/1.1\r\nHost: a\r\n\r\n"), 28⟩
  let rejection : Duty := .leave (.badRequest (str "10.0.0.1") (parseRequest (str "x\r\n\r\n")))
  let env : Outside := {
    now := fun _ => 0
    upstream := fun _ _ => fetchUpstream .sent [.data 72 (raw.drop 1)]
    sends := fun _ => true }
  let cache : Cache := (ShardedLRUCache.new (fun _ => 0) 2000 16).get (by decide)
  have hnew : ShardedLRUCache.new (fun _ => 0) 2000 16 = some cache := (Option.some_get _).symm
  have hstart : CountersReach {} cache { shared := { cache := cache } } := .refl
  have hmiss := Pool.Reachable.start_exec env.onShared_changes hstart (.serve call)
  have hhit := Pool.Reachable.start_exec env.onShared_changes hmiss (.serve call)
  have hreject := Pool.Reachable.start_exec env.onShared_changes hhit rejection
  obtain ⟨p, hreach, hquiescent, htotal, hforwarded⟩ : ∃ p, CountersReach {} cache p ∧ Quiescent p ∧
      p.shared.stats .totalRequests = 2 ∧ p.shared.stats .forwardedRequests = 1 := by
    refine ⟨_, hreject, ?_, by decide +kernel, by decide +kernel⟩
    intro t ht
    simp only [List.nil_append, List.mem_append, List.mem_singleton, or_assoc] at ht
    rcases ht with rfl | rfl | rfl
    all_goals exact ⟨_, rfl⟩
  obtain ⟨hhits, -, hlines⟩ := (counters_balance {} _ _ _ cache hnew p hreach).2 hquiescent
  exact ⟨cache, hnew, p, hreach, hquiescent, htotal, hforwarded, hhits, hlines⟩

end ForwardProxy
