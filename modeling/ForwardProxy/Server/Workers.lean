import ForwardProxy.Lib.Pool
import ForwardProxy.Server.World

/-!
# Requests served side by side

Any number of workers serve requests against the one cache, each operation of a request being a step
of its own. A value found in the cache was put there by an earlier request with the same key
(`WorkersReach.hitsPut`). The key of the cache is the method, a space, the lower-cased host, and the
path, without anything between the last two. So it is that of another resource exactly where bytes
at the end of one host are at the start of the other request's path (`cacheKey_eq_iff`).
-/

namespace ForwardProxy

open Lib.Interaction

/-- A call of `serve_one_request`. -/
structure Call where
  clientIp : Bytes
  req : Request
  consumed : ℕ

/-- What the call does. -/
def Call.body (acl : AccessControl) (call : Call) : Serve Bool :=
  serveOneRequest acl call.clientIp call.req call.consumed

/-- What an operation does to the cache. All answers but those of the cache are up to the outside.
-/
def ServeOp.Acts : (o : ServeOp) → Cache → o.Answer → Cache → Prop
  | .cacheGet key, c, value, c' => c.get key = (value, c')
  | .cachePut key value, c, _, c' => c' = c.put key value
  | _, c, _, c' => c' = c

/-- The answers of the outside to the operations of a worker, whatever the number of clock readings.
-/
def Outside.onCache (env : Outside) (o : ServeOp) (c : Cache) : o.Answer × Cache :=
  ((env.handle o (c, 0)).1, (env.handle o (c, 0)).2.1)

/-- The answers of the outside are among those that an operation can get. -/
theorem Outside.onCache_acts (env : Outside) (o : ServeOp) (c : Cache) :
    o.Acts c (env.onCache o c).1 (env.onCache o c).2 := by
  cases o <;> rfl

/-- The pools of workers that come of an empty pool and the cache `cache`. -/
def WorkersReach (acl : AccessControl) (cache : Cache) :
    Pool ServeOp.Answer Call Bool Cache → Prop :=
  Pool.Reachable (Call.body acl) ServeOp.Acts cache

/-! ## Keys -/

/-- Bytes at the end of the host of `r'` are at the start of the path of `r`, and what is before and
after them is the same. -/
def Shifted (r r' : Request) : Prop :=
  r.method = r'.method ∧ ∃ w, w ≠ [] ∧ toLower r'.host = toLower r.host ++ w ∧ r.path = w ++ r'.path

/-- The same method, host and path, the host without regard to case. -/
def SameResource (r r' : Request) : Prop :=
  r.method = r'.method ∧ toLower r.host = toLower r'.host ∧ r.path = r'.path

instance (r r' : Request) : Decidable (SameResource r r') := inferInstanceAs (Decidable (_ ∧ _ ∧ _))

/-- Requests that look into the cache have the same key when they are for the same resource, or
bytes have moved between host and path. -/
theorem cacheKey_eq_iff {r r' : Request} (h : cacheableRequest r = true)
    (h' : cacheableRequest r' = true) :
    cacheKey r = cacheKey r' ↔ SameResource r r' ∨ Shifted r r' ∨ Shifted r' r := by
  have hkey : cacheKey r = cacheKey r' ↔
      r.method = r'.method ∧ toLower r.host ++ r.path = toLower r'.host ++ r'.path := by
    unfold cacheKey
    simp only [List.append_assoc]
    constructor
    · intro heq
      -- The methods are `GET` or `HEAD`, and the keys start with one of the two and a space.
      have hmethod : r.method = r'.method := by
        rcases (cacheableRequest_eq_true.mp h).1 with hm | hm <;>
          rcases (cacheableRequest_eq_true.mp h').1 with hm' | hm' <;>
          rw [hm, hm'] at heq ⊢ <;> simp [str] at heq
      rw [hmethod] at heq
      exact ⟨hmethod, List.append_cancel_left (List.append_cancel_left heq)⟩
    · rintro ⟨hmethod, heq⟩
      rw [hmethod, heq]
  rw [hkey]
  constructor
  -- The two hosts start alike, and the longer one has the bytes `w` more, which the other path
  -- starts with.
  · rintro ⟨hmethod, heq⟩
    rcases List.append_eq_append_iff.mp heq with ⟨w, hhost, hpath⟩ | ⟨w, hhost, hpath⟩
    · by_cases hw : w = []
      · subst hw
        exact Or.inl ⟨hmethod, by simpa using hhost.symm, by simpa using hpath⟩
      · exact Or.inr (Or.inl ⟨hmethod, w, hw, hhost, hpath⟩)
    · by_cases hw : w = []
      · subst hw
        exact Or.inl ⟨hmethod, by simpa using hhost, by simpa using hpath.symm⟩
      · exact Or.inr (Or.inr ⟨hmethod.symm, w, hw, hhost, hpath⟩)
  · rintro (⟨hmethod, hhost, hpath⟩ | ⟨hmethod, w, -, hhost, hpath⟩ | ⟨hmethod, w, -, hhost, hpath⟩)
    · exact ⟨hmethod, by rw [hhost, hpath]⟩
    · exact ⟨hmethod, by rw [hhost, hpath, List.append_assoc]⟩
    · exact ⟨hmethod.symm, by rw [hhost, hpath, List.append_assoc]⟩

/-- A shift is not for the same resource. -/
theorem Shifted.not_same {r r' : Request} (h : Shifted r r') : ¬SameResource r r' := by
  rintro ⟨-, -, hpath⟩
  obtain ⟨-, w, hw, -, hshift⟩ := h
  rw [hpath] at hshift
  exact hw (by simpa using hshift)

/-- Only the slash itself becomes a slash. -/
theorem tolower_eq_slash {c : Byte} (h : tolower c = SLASH) : c = SLASH := by
  unfold tolower at h
  grind

/-- A request whose path starts with a slash is not shifted into a host without one. -/
theorem not_shifted_of_slash {r r' : Request} (hpath : r.path.head? = some SLASH)
    (hhost : SLASH ∉ r'.host) : ¬Shifted r r' := by
  rintro ⟨-, w, hw, heq, hshift⟩
  -- The bytes moved start with the slash, which would be one of the other host.
  obtain ⟨b, w, rfl⟩ := List.exists_cons_of_ne_nil hw
  rw [hshift] at hpath
  obtain rfl : b = SLASH := by simpa using hpath
  have hmem : SLASH ∈ toLower r'.host := by simp [heq]
  obtain ⟨c, hc, hlower⟩ := List.mem_map.mp hmem
  exact hhost (tolower_eq_slash hlower ▸ hc)

/-! ## Hits -/

/-- The cache is in good order, what it holds was put there, and what was found was put there
before. -/
structure HitsPut (cache : Cache) (trace : List (ℕ × ServeEvent)) : Prop where
  wf : cache.Wf
  held : ∀ key value, cache.Holds key value → ∃ i, (i, ⟨.cachePut key value, ()⟩) ∈ trace
  found : ∀ pre i key value post, trace = pre ++ (i, ⟨.cacheGet key, some value⟩) :: post →
    ∃ j, (j, ⟨.cachePut key value, ()⟩) ∈ pre

/-- An operation that finds nothing in the cache, and leaves nothing new in it, keeps the invariant.
-/
theorem HitsPut.snoc {cache cache' : Cache} {trace : List (ℕ × ServeEvent)}
    (h : HitsPut cache trace) (hwf : cache'.Wf) (i : ℕ) (e : ServeEvent)
    (hheld : ∀ key value, cache'.Holds key value →
      cache.Holds key value ∨ e = ⟨.cachePut key value, ()⟩)
    (hfound : ∀ key value, e = ⟨.cacheGet key, some value⟩ → cache.Holds key value) :
    HitsPut cache' (trace ++ [(i, e)]) := by
  refine ⟨hwf, fun key value hv => ?_, fun pre j key value post heq => ?_⟩
  · rcases hheld key value hv with hv | rfl
    · obtain ⟨j, hj⟩ := h.held key value hv
      exact ⟨j, List.mem_append_left _ hj⟩
    · exact ⟨i, by simp⟩
  · rcases List.append_eq_append_iff.mp heq with ⟨mid, rfl, hlast⟩ | ⟨mid, rfl, hlast⟩
    · -- The lookup is the last event.
      cases mid with
      | nil =>
        simp only [List.nil_append, List.cons.injEq, Prod.mk.injEq] at hlast
        simpa using h.held key value (hfound key value hlast.1.2)
      | cons m mid => simp at hlast
    · cases mid with
      | nil =>
        simp only [List.nil_append, List.cons.injEq, Prod.mk.injEq] at hlast
        simpa using h.held key value (hfound key value hlast.1.2.symm)
      | cons m mid =>
        rw [List.cons_append, List.cons.injEq] at hlast
        obtain ⟨rfl, -⟩ := hlast
        -- The lookup was there before.
        exact h.found pre j key value mid rfl

/-- Every operation keeps the invariant. -/
theorem HitsPut.act {cache cache' : Cache} {trace : List (ℕ × ServeEvent)}
    (h : HitsPut cache trace) (i : ℕ) {o : ServeOp} {r : o.Answer} (hact : o.Acts cache r cache') :
    HitsPut cache' (trace ++ [(i, ⟨o, r⟩)]) := by
  cases o with
  | cacheGet key =>
    -- A lookup returns what is held, which was put there before.
    obtain ⟨rfl, rfl⟩ := Prod.mk.inj hact
    refine h.snoc (ShardedLRUCache.get_wf h.wf key) i _
      (fun k v hv => Or.inl (ShardedLRUCache.holds_get h.wf hv)) fun k v heq => ?_
    simp only [Event.mk.injEq, ServeOp.cacheGet.injEq, heq_eq_eq] at heq
    obtain ⟨rfl, hv⟩ := heq
    exact ShardedLRUCache.holds_of_get h.wf hv
  | cachePut key value =>
    obtain rfl := hact
    refine h.snoc (ShardedLRUCache.put_wf h.wf key value) i _ (fun k v hv => ?_) (by simp)
    rcases ShardedLRUCache.holds_put h.wf hv with ⟨rfl, rfl⟩ | hv
    · exact Or.inr rfl
    · exact Or.inl hv
  | _ =>
    obtain rfl := hact
    exact h.snoc h.wf i _ (fun k v hv => Or.inl hv) (by simp)

/-- In every reachable pool of workers, what was found in the cache was put there before. -/
theorem WorkersReach.hitsPut {acl : AccessControl} {cache : Cache} {capacity shards : UInt64}
    {hasher : Bytes → UInt64} (hnew : ShardedLRUCache.new hasher capacity shards = some cache)
    {p : Pool ServeOp.Answer Call Bool Cache} (h : WorkersReach acl cache p) :
    HitsPut p.shared p.trace := by
  obtain ⟨hwf, hempty⟩ := ShardedLRUCache.new_wf hnew
  refine Pool.Reachable.invariant ⟨hwf, fun k v hv => absurd hv (hempty k v), by simp⟩ ?_ h
  intro s o r s' i t hact hinv
  exact hinv.act i hact

/-- No two of the requests that look into the cache are shifted. -/
def Unshifted (threads : List (Call × Serve Bool)) : Prop :=
  ∀ t ∈ threads, ∀ t' ∈ threads, cacheableRequest t.1.req = true →
    cacheableRequest t'.1.req = true → ¬Shifted t.1.req t'.1.req

/-- The key of the cache tells resources apart exactly for requests that are not shifted. And in a
run of any number of workers without shifted requests, what is sent after a hit was returned by an
upstream fetch, earlier than the hit, for a request for the same resource. -/
theorem hit_same_resource (acl : AccessControl) :
    (∀ r r', cacheableRequest r = true → cacheableRequest r' = true →
      ((cacheKey r = cacheKey r' → SameResource r r') ↔ ¬Shifted r r' ∧ ¬Shifted r' r)) ∧
    ∀ hasher capacity shards cache, ShardedLRUCache.new hasher capacity shards = some cache →
      ∀ p, WorkersReach acl cache p → Unshifted p.threads →
      ∀ pre i key value mid data sent post,
        p.trace = pre ++ (i, ⟨.cacheGet key, some value⟩) :: mid ++
          (i, ⟨.sendAll data, sent⟩) :: post →
        ∃ call q, p.threads[i]? = some (call, q) ∧ ∃ j call' q', p.threads[j]? = some (call', q') ∧
          SameResource call'.req call.req ∧ ∃ up requestBytes, ∃ res : UpstreamResult,
            (j, ⟨.fetchUpstream up requestBytes, res⟩) ∈ pre ∧ res.ok = true ∧ res.raw = data := by
  refine ⟨fun r r' h h' => ?_, ?_⟩
  · rw [cacheKey_eq_iff h h']
    constructor
    · intro hsame
      exact ⟨fun hs => hs.not_same (hsame (Or.inr (Or.inl hs))),
        fun hs => hs.not_same ⟨(hsame (Or.inr (Or.inr hs))).1.symm,
          (hsame (Or.inr (Or.inr hs))).2.1.symm, (hsame (Or.inr (Or.inr hs))).2.2.symm⟩⟩
    · rintro ⟨hs, hs'⟩ (hsame | hshift | hshift)
      · exact hsame
      · exact absurd hshift hs
      · exact absurd hshift hs'
  · intro hasher capacity shards cache hnew p hreach hunshifted pre i key value mid data sent post
      htrace
    have hsat := fun call : Call =>
      serveOneRequest_sat acl call.clientIp call.req call.consumed
    -- The lookup, and the answer that is sent after it.
    have hget : p.trace = pre ++ (i, ⟨.cacheGet key, some value⟩) ::
        (mid ++ (i, ⟨.sendAll data, sent⟩) :: post) := by rw [htrace]; simp
    obtain ⟨call, q, hcall, -, hcacheable, hkey⟩ := hreach.sat_of_mem hsat hget
    obtain ⟨_, _, -, hsend, -⟩ := hreach.sat_of_mem hsat htrace
    have hdata : data = value := hsend key value (by simp)
    -- The value was put there before, by a request with the same key.
    obtain ⟨j, hput⟩ := (hreach.hitsPut hnew).found pre i key value _ hget
    obtain ⟨before, after, rfl⟩ := List.append_of_mem hput
    have hputTrace : p.trace = before ++ (j, ⟨.cachePut key value, ()⟩) ::
        (after ++ (i, ⟨.cacheGet key, some value⟩) ::
          (mid ++ (i, ⟨.sendAll data, sent⟩) :: post)) := by rw [htrace]; simp
    obtain ⟨call', q', hcall', -, hcacheable', hkey', -, up, requestBytes, res, hfetch, hok,
      hraw⟩ :=
      hreach.sat_of_mem hsat hputTrace
    have hmem : (call, q) ∈ p.threads := List.mem_of_getElem? hcall
    have hmem' : (call', q') ∈ p.threads := List.mem_of_getElem? hcall'
    refine ⟨call, q, hcall, j, call', q', hcall', ?_, up, requestBytes, res, ?_, hok, ?_⟩
    · rcases (cacheKey_eq_iff hcacheable' hcacheable).mp (hkey'.symm.trans hkey) with h | h | h
      · exact h
      · exact absurd h (hunshifted _ hmem' _ hmem hcacheable' hcacheable)
      · exact absurd h (hunshifted _ hmem _ hmem' hcacheable hcacheable')
    · exact List.mem_append_left _ (mem_own.mp hfetch)
    · rw [hraw, hdata]

/-- The events that the hit of another resource shows in, as tests on one event. -/
def isFetch : ServeEvent → Bool
  | ⟨.fetchUpstream _ _, _⟩ => true
  | _ => false

/-- The event that finds the value under the key. -/
def isHit (key value : Bytes) : ServeEvent → Bool
  | ⟨.cacheGet k, v⟩ => k = key && v = some value
  | _ => false

/-- The event that sends the bytes. -/
def isSent (data : Bytes) : ServeEvent → Bool
  | ⟨.sendAll d, sent⟩ => d = data && sent
  | _ => false

/-- A hit serves another resource: `GET b/c` for the host `a` and then `GET /c` for the host `ab`.
-/
theorem hit_other_resource :
    let raw := str "HTTP/1.1 200 OK\r\nContent-Length: 2\r\n\r\nhi"
    let call : Call :=
      ⟨str "10.0.0.1", parseRequest (str "GET b/c HTTP/1.1\r\nHost: a\r\n\r\n"), 29⟩
    let call' : Call :=
      ⟨str "10.0.0.2", parseRequest (str "GET /c HTTP/1.1\r\nHost: ab\r\n\r\n"), 29⟩
    call.req.valid = true ∧ call'.req.valid = true ∧ ¬SameResource call.req call'.req ∧
      ∃ cache, ShardedLRUCache.new (fun _ => 0) 2000 16 = some cache ∧
        ∃ p, WorkersReach {} cache p ∧ p.threads.map Prod.fst = [call, call'] ∧
          (∃ e ∈ own 1 p.trace, isHit (cacheKey call'.req) raw e = true) ∧
          (∃ e ∈ own 1 p.trace, isSent raw e = true) ∧
          ∀ e ∈ p.trace, isFetch e.2 = true → e.1 = 0 := by
  intro raw call call'
  refine ⟨by decide +kernel, by decide +kernel, by decide +kernel, ?_⟩
  let env : Outside := {
    now := fun _ => 0
    upstream := fun _ _ => fetchUpstream .sent [.data 72 (raw.drop 1)]
    sends := fun _ => true }
  let cache : Cache := (ShardedLRUCache.new (fun _ => 0) 2000 16).get (by decide)
  refine ⟨cache, (Option.some_get _).symm, ?_⟩
  have hstart : WorkersReach {} cache { shared := cache } := .refl
  -- The first call fetches and puts, and then the second runs.
  have hfirst := Pool.Reachable.start_exec env.onCache_acts hstart call
  have hsecond := Pool.Reachable.start_exec env.onCache_acts hfirst call'
  refine ⟨_, hsecond, rfl, ?_⟩
  simp only [List.nil_append, List.length_nil, List.length_cons, Nat.zero_add, own_append,
    own_map_self, own_map_ne (show 0 ≠ 1 by decide), List.mem_append, List.mem_map]
  refine ⟨?_, ?_, ?_⟩
  · exact List.any_eq_true.mp (by decide +kernel)
  · exact List.any_eq_true.mp (by decide +kernel)
  · rintro e (⟨e, -, rfl⟩ | ⟨e, he, rfl⟩) hfetch
    · rfl
    · have hnone : (((call'.body {}).exec env.onCache
          ((call.body {}).exec env.onCache cache).2.2).1.any isFetch) = false := by decide +kernel
      exact absurd hfetch (List.any_eq_false.mp hnone e he)

end ForwardProxy
