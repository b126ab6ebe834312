import ForwardProxy.Http.Request
import ForwardProxy.Lib.Provenance
import ForwardProxy.Phase4.Concurrent
import ForwardProxy.Server.Serve
import ForwardProxy.Server.StartLine

/-!
# The connection handler of phase 4

`handle_request` of `server_phase4.cpp` reads one request, answers it from the cache or else from
`fetch_from_upstream`, and closes the connection. Any number of connections is handled side by side,
each step on the cache being a step of its own. A response always has what was fetched for the path
of its own request (`sent_was_fetched`), and a handler uses its descriptor until it closes it, once
(`handled_once`).
-/

namespace ForwardProxy.Phase4

open Lib.Interaction

/-! ## The handler -/

/-- `extract_path`: the bytes between the first two spaces. -/
def extractPath (request : Bytes) : Bytes := (betweenSpaces request).getD (str "/")

/-- `build_response`. -/
def buildResponse (body : Bytes) : Bytes :=
  str "HTTP/1.1 200 OK\r\n" ++ str "Content-Type: text/plain\r\n" ++ str "Content-Length: " ++
    decimal body.length ++ str "\r\n" ++ str "Connection: keep-alive\r\n" ++ str "\r\n" ++ body

/-- What `fetch_from_upstream` returns at the time `t`. -/
def upstreamBody (path : Bytes) (t : ℤ) : Bytes :=
  str "Response for: " ++ path ++ str " (fetched at " ++ decimalInt t ++ str ")\n"

/-- What one `recv` into the buffer of 4096 bytes returns, less its terminator. -/
abbrev Received := { b : Bytes // b ≠ [] ∧ b.length ≤ 4095 }

/-- What the handler does besides the cache. -/
inductive HandleOp
  /-- Nothing is received where `recv` returns zero or an error. -/
  | recv (fd : ℕ)
  /-- Sleeps, and reads the clock. -/
  | clock
  | send (fd : ℕ) (data : Bytes)
  | close (fd : ℕ)

/-- What an operation returns. -/
abbrev HandleOp.Answer : HandleOp → Type
  | .recv _ => Option Received
  | .clock => ℤ
  | .send _ _ => Unit
  | .close _ => Unit

/-- A part of the handler: sections of the cache, and operations besides. -/
abbrev Handle := Caller Bytes Bytes HandleOp.Answer

/-- An operation or a section, with what it returned. -/
abbrev HandleEvent := CallerEvent Bytes Bytes HandleOp.Answer

/-- Receives once. -/
abbrev recv (fd : ℕ) : Handle (Option Received) := Prog.perform (Whole.out (HandleOp.recv fd))
/-- Sleeps for the latency of the upstream, and reads the clock. -/
abbrev clock : Handle ℤ := Prog.perform (Whole.out HandleOp.clock)
/-- Sends a response. -/
abbrev send (fd : ℕ) (data : Bytes) : Handle Unit :=
  Prog.perform (Whole.out (HandleOp.send fd data))
/-- Closes the connection. -/
abbrev close (fd : ℕ) : Handle Unit := Prog.perform (Whole.out (HandleOp.close fd))

/-- `fetch_from_upstream`. -/
def fetchFromUpstream (path : Bytes) : Handle Bytes := do
  let t ← clock
  return upstreamBody path t

/-- `handle_request`. -/
def handleRequest (clientFd : ℕ) : Handle Unit := do
  match ← recv clientFd with
  | none => close clientFd
  | some request =>
    let path := extractPath request.1
    match ← get path with
    | some cached =>
      let body := cached ++ str " [CACHE HIT]"
      send clientFd (buildResponse body)
      close clientFd
    | none =>
      let body ← fetchFromUpstream path
      put path body
      let body := body ++ str " [CACHE MISS]"
      send clientFd (buildResponse body)
      close clientFd

/-- Phase 5 builds the same response for a status of 200 and an open connection. -/
theorem buildResponse_eq_phase5 (body : Bytes) :
    buildResponse body = ForwardProxy.buildResponse 200 (str "OK") body true := by
  have hline : str "HTTP/1.1 200 OK\r\n" =
      str "HTTP/1.1 " ++ decimalInt 200 ++ str " " ++ str "OK" ++ str "\r\n" := by decide +kernel
  have htype : str "Content-Type: text/plain\r\n" =
      str "Content-Type: " ++ str "text/plain" ++ str "\r\n" := by decide +kernel
  have hconn : str "Connection: keep-alive\r\n" =
      str "Connection: " ++ str "keep-alive" ++ str "\r\n" := by decide +kernel
  simp only [buildResponse, ForwardProxy.buildResponse, hline, htype, hconn, if_true,
    List.append_assoc]

/-! ## When the handler does what -/

/-- What a handler of `fd` does besides the cache, from the first to the last. -/
inductive Handled (fd : ℕ) : List (Event HandleOp.Answer) → Prop
  | refused : Handled fd [⟨.recv fd, none⟩, ⟨.close fd, ()⟩]
  | hit (request : Received) (data : Bytes) :
    Handled fd [⟨.recv fd, some request⟩, ⟨.send fd data, ()⟩, ⟨.close fd, ()⟩]
  | missed (request : Received) (t : ℤ) (data : Bytes) :
    Handled fd [⟨.recv fd, some request⟩, ⟨.clock, t⟩, ⟨.send fd data, ()⟩, ⟨.close fd, ()⟩]

/-- The event besides the cache, if it is one. -/
def outEvent : HandleEvent → Option (Event HandleOp.Answer)
  | ⟨.out w, r⟩ => some ⟨w, r⟩
  | ⟨.run _, _⟩ => none

/-- The events besides the cache. -/
def outEvents (h : List HandleEvent) : List (Event HandleOp.Answer) := h.filterMap outEvent

/-- A request for `path` has come in. -/
def Got (h : List HandleEvent) (fd : ℕ) (path : Bytes) : Prop :=
  ∃ request : Received, (⟨.out (.recv fd), some request⟩ : HandleEvent) ∈ h ∧
    extractPath request.1 = path

/-- The upstream has answered at the time `t`. -/
def Fetched (h : List HandleEvent) (t : ℤ) : Prop := (⟨.out .clock, t⟩ : HandleEvent) ∈ h

/-- The cache has answered with `value`. -/
def Hit (h : List HandleEvent) (path value : Bytes) : Prop :=
  (⟨.run (.promote path), some value⟩ : HandleEvent) ∈ h

/-- What is put into the cache was fetched for the request's path, and what is sent was fetched for
it or found under it. -/
def Permitted (fd : ℕ) (h : List HandleEvent) : Whole (Section Bytes Bytes) HandleOp → Prop
  | .run (.put key value) => Got h fd key ∧ ∃ t, Fetched h t ∧ value = upstreamBody key t
  | .out (.send fd' data) =>
    fd' = fd ∧ ∃ path, Got h fd path ∧
      ((∃ value, Hit h path value ∧ data = buildResponse (value ++ str " [CACHE HIT]")) ∨
        ∃ t, Fetched h t ∧ data = buildResponse (upstreamBody path t ++ str " [CACHE MISS]"))
  | _ => True

/-- Before an operation the handler is on its way, and the operation is permitted. -/
def OnTheWay (fd : ℕ) (h : List HandleEvent) (o : Whole (Section Bytes Bytes) HandleOp) : Prop :=
  (∃ more, Handled fd (outEvents h ++ more)) ∧ Permitted fd h o

/-- The handler of `fd` does only what is permitted, and all that is to be done. -/
theorem handleRequest_sat (fd : ℕ) :
    Prog.Sat (OnTheWay fd) (fun h _ => Handled fd (outEvents h)) [] (handleRequest fd) := by
  refine ⟨⟨⟨_, .refused⟩, trivial⟩, fun request => ?_⟩
  cases request with
  | none => exact ⟨⟨⟨_, .refused⟩, trivial⟩, fun _ => .refused⟩
  | some request =>
    -- The cache has nothing at the first look, or at the second, or it answers.
    refine ⟨⟨⟨_, .hit request []⟩, trivial⟩, fun there => ?_⟩
    cases there with
    | false =>
      refine ⟨⟨⟨_, .missed request 0 []⟩, trivial⟩, fun t => ?_⟩
      refine ⟨⟨⟨_, .missed request t []⟩, ⟨request, by simp, rfl⟩, t, by simp [Fetched], rfl⟩,
        fun _ => ?_⟩
      refine ⟨⟨⟨_, .missed request t []⟩, rfl, _, ⟨request, by simp, rfl⟩,
        Or.inr ⟨t, by simp [Fetched], rfl⟩⟩, fun _ => ?_⟩
      exact ⟨⟨⟨_, .missed request t _⟩, trivial⟩, fun _ => .missed request t _⟩
    | true =>
      refine ⟨⟨⟨_, .hit request []⟩, trivial⟩, fun result => ?_⟩
      cases result with
      | none =>
        refine ⟨⟨⟨_, .missed request 0 []⟩, trivial⟩, fun t => ?_⟩
        refine ⟨⟨⟨_, .missed request t []⟩, ⟨request, by simp, rfl⟩, t, by simp [Fetched], rfl⟩,
          fun _ => ?_⟩
        refine ⟨⟨⟨_, .missed request t []⟩, rfl, _, ⟨request, by simp, rfl⟩,
          Or.inr ⟨t, by simp [Fetched], rfl⟩⟩, fun _ => ?_⟩
        exact ⟨⟨⟨_, .missed request t _⟩, trivial⟩, fun _ => .missed request t _⟩
      | some value =>
        refine ⟨⟨⟨_, .hit request []⟩, rfl, _, ⟨request, by simp, rfl⟩,
          Or.inl ⟨value, by simp [Hit], rfl⟩⟩, fun _ => ?_⟩
        exact ⟨⟨⟨_, .hit request _⟩, trivial⟩, fun _ => .hit request _⟩

/-! ## What the cache has was put there -/

section Provenance

variable {K V W : Type} {Q : W → Type} [DecidableEq K]

/-- What `get` finds is an entry, and only `put` adds entries. -/
def provenance (cap : ℕ) :
    Provenance (R := Whole.Answer (Section.Answer (K := K) (V := V)) Q)
      (guarded (K := K) (V := V)).WholeActs (K × V) where
  put
    | ⟨.run (.put key value), _⟩ => some (key, value)
    | _ => none
  found
    | ⟨.run (.promote key), some value⟩ => some (key, value)
    | _ => none
  good := GoodStore cap
  holds s e := e ∈ s.items.map fun n => (n.key, n.value)
  good_step {o s r s'} hact hgood := by
    cases o with
    | out w => exact (show s' = s from hact) ▸ hgood
    | run o =>
      have hact : (r, s') = (runSection o s).2 := hact
      have hnext := goodStore_exec o s hgood
      rw [← hact] at hnext
      exact hnext
  kept {o s r s' e} hact hgood hholds := by
    obtain ⟨c, hwf, rfl, -⟩ := hgood
    cases o with
    | out w =>
      obtain rfl := hact
      exact Or.inl hholds
    | run o =>
      have hact : (r, s') = (runSection o (storeOf c)).2 := hact
      cases o with
      | probe key =>
        rw [exec_probe] at hact
        obtain ⟨-, rfl⟩ := Prod.mk.inj hact
        exact Or.inl hholds
      | size =>
        obtain ⟨-, rfl⟩ := Prod.mk.inj hact
        exact Or.inl hholds
      | promote key =>
        rw [exec_promote] at hact
        obtain ⟨-, rfl⟩ := Prod.mk.inj hact
        have hentries : (c.get key).2.entries = Lib.Recency.touch key c.entries :=
          congrArg Lib.Recency.Lru.entries (LRUCache.abs_get hwf key)
        have hmem : e ∈ (c.get key).2.entries := hholds
        rw [hentries] at hmem
        exact Or.inl (Lib.Recency.mem_touch hmem)
      | put key value =>
        rw [exec_put hwf] at hact
        obtain ⟨-, rfl⟩ := Prod.mk.inj hact
        have hentries : (c.put key value).entries =
            Lib.Recency.insert c.capacity key value c.entries :=
          congrArg Lib.Recency.Lru.entries (LRUCache.abs_put hwf key value)
        have hmem : e ∈ (c.put key value).entries := hholds
        rw [hentries] at hmem
        rcases Lib.Recency.mem_insert hmem with rfl | hmem
        · exact Or.inr rfl
        · exact Or.inl hmem
  backed {o s r s' e} hact hgood hfound := by
    obtain ⟨c, hwf, rfl, -⟩ := hgood
    cases o with
    | out w => cases hfound
    | run o =>
      have hact : (r, s') = (runSection o (storeOf c)).2 := hact
      cases o with
      | promote key =>
        rw [exec_promote] at hact
        obtain ⟨rfl, -⟩ := Prod.mk.inj hact
        rw [LRUCache.fst_get hwf] at hfound
        cases hv : ((c.abs hwf).get key).1 with
        | none => simp [hv] at hfound
        | some value =>
          obtain rfl : (key, value) = e := by simpa [hv] using hfound
          exact Lib.Recency.mem_of_lookup hv
      | probe key => cases hfound
      | put key value => cases hfound
      | size => cases hfound

end Provenance

/-! ## Connections side by side -/

/-- The handlers, each with its descriptor, in small steps. -/
abbrev HandlerPool :=
  Pool (Part.Answer (Access.Answer (K := Bytes) (V := Bytes)) HandleOp.Answer) ℕ Unit
    (Locked (Store Bytes Bytes) Counters)

/-- The handlers, with every section of the cache as one step. -/
abbrev WholeHandlers :=
  Pool (Whole.Answer (Section.Answer (K := Bytes) (V := Bytes)) HandleOp.Answer) ℕ Unit
    (Store Bytes Bytes)

/-- What comes of handlers that start on an empty cache. -/
def HandlerReach (cap : ℕ) : HandlerPool → Prop :=
  Pool.Reachable (fun fd => guarded.lower (handleRequest fd)) guarded.PartActs
    { data := { capacity := cap }, counters := {} }

/-- What the handlers do besides the cache, in order. -/
def outside (p : HandlerPool) : List (ℕ × Event HandleOp.Answer) := p.trace.filterMap outOfPart

/-- What one handler does besides the cache is there in the trace of all. -/
theorem own_filterMap_out (i : ℕ) (trace : List (ℕ × HandleEvent)) :
    own i (trace.filterMap outOfWhole) = outEvents (own i trace) := by
  induction trace with
  | nil => rfl
  | cons e trace ih =>
    obtain ⟨j, ⟨o, r⟩⟩ := e
    cases o with
    | run o =>
      rw [List.filterMap_cons_none rfl, ih]
      by_cases hj : j = i
      · subst hj
        rw [own_cons_self]
        rfl
      · rw [own_cons_ne hj]
    | out w =>
      rw [List.filterMap_cons_some (show outOfWhole (j, ⟨.out w, r⟩) = some (j, ⟨w, r⟩) from rfl)]
      by_cases hj : j = i
      · subst hj
        rw [own_cons_self, own_cons_self, ih]
        rfl
      · rw [own_cons_ne hj, own_cons_ne hj, ih]

/-- The pool in whole sections, with the same events besides the cache. -/
theorem HandlerReach.whole {cap : ℕ} (hcap : 0 < cap) {p : HandlerPool} (h : HandlerReach cap p) :
    ∃ (q : WholeHandlers) (held : List (Option Mode)),
      Pool.Reachable handleRequest guarded.WholeActs { capacity := cap } q ∧
      guarded.Simulates (GoodStore cap) p q held := by
  obtain ⟨q, held, hq, hsim⟩ :=
    (guarded.simulates_start (W := HandleOp) (Q := HandleOp.Answer) (τ := ℕ) (α := Unit)
      (goodStore_new hcap).2 ({} : Counters)).steps goodStore_exec h
  exact ⟨q, held, hq, hsim⟩

/-- In whole sections, what is sent was fetched for the path of the request, by this handler or, if
it comes from the cache, by one that put it there. -/
theorem sent_was_fetched_whole {cap : ℕ} (hcap : 0 < cap) {q : WholeHandlers}
    (hq : Pool.Reachable handleRequest guarded.WholeActs { capacity := cap } q)
    {pre post : List (ℕ × HandleEvent)} {i fd : ℕ} {data : Bytes}
    (htrace : q.trace = pre ++ (i, ⟨.out (.send fd data), ()⟩) :: post) :
    ∃ request : Received, (i, ⟨.out (.recv fd), some request⟩) ∈ pre ∧
      ∃ j fd' t, ∃ request' : Received, (j, ⟨.out (.recv fd'), some request'⟩) ∈ pre ∧
        (j, ⟨.out .clock, t⟩) ∈ pre ∧ extractPath request'.1 = extractPath request.1 ∧
        let body := upstreamBody (extractPath request.1) t
        (data = buildResponse (body ++ str " [CACHE HIT]") ∨
          j = i ∧ data = buildResponse (body ++ str " [CACHE MISS]")) := by
  have hsat := fun fd => (handleRequest_sat fd).weaken fun _ _ _ => trivial
  obtain ⟨fd', _, -, -, rfl, path, ⟨request, hgot, rfl⟩, hbody⟩ := hq.sat_of_mem hsat htrace
  refine ⟨request, mem_own.mp hgot, ?_⟩
  rcases hbody with ⟨value, hhit, rfl⟩ | ⟨t, ht, rfl⟩
  · -- What was found was put before, by a handler that had fetched it.
    obtain ⟨pre₁, pre₂, rfl⟩ := List.append_of_mem (mem_own.mp hhit)
    let P := provenance (K := Bytes) (V := Bytes) (Q := HandleOp.Answer) cap
    have hempty : ∀ e, ¬P.holds { capacity := cap } e := by simp [P, provenance]
    have hget := htrace
    rw [List.append_assoc, List.cons_append] at hget
    obtain ⟨j, ev, hmem, hput⟩ := P.put_before (goodStore_new hcap).2 hempty hq hget
      (e := (extractPath request.1, value)) rfl
    obtain ⟨o, r⟩ := ev
    -- The event that put it is a `put` of the same key and value.
    obtain ⟨rfl⟩ : o = .run (.put (extractPath request.1) value) := by
      revert hput
      cases o with
      | out w => exact fun h => by cases h
      | run o =>
        cases o with
        | put key value' =>
          intro h
          obtain ⟨rfl, rfl⟩ : key = extractPath request.1 ∧ value' = value := by
            simpa [P, provenance] using h
          rfl
        | _ => exact fun h => by cases h
    obtain ⟨pre₃, pre₄, rfl⟩ := List.append_of_mem hmem
    rw [List.append_assoc, List.cons_append] at hget
    obtain ⟨fd', _, -, -, ⟨request', hgot', hpath⟩, t, ht, rfl⟩ := hq.sat_of_mem hsat hget
    refine ⟨j, fd', t, request', ?_, ?_, hpath, Or.inl rfl⟩
    · simp [mem_own.mp hgot']
    · simp [mem_own.mp ht]
  -- What was fetched was fetched by this handler.
  · exact ⟨i, _, t, request, mem_own.mp hgot, mem_own.mp ht, rfl, Or.inr ⟨rfl, rfl⟩⟩

/-- However the handlers interleave, what is sent to a client has the body that the upstream
returned for the path of the client's own request: to this handler, or earlier to another one. -/
theorem sent_was_fetched (cap : ℕ) (hcap : 0 < cap) (p : HandlerPool) (h : HandlerReach cap p)
    (pre post : List (ℕ × Event HandleOp.Answer)) (i fd : ℕ) (data : Bytes)
    (htrace : outside p = pre ++ (i, ⟨.send fd data, ()⟩) :: post) :
    ∃ request : Received, (i, ⟨.recv fd, some request⟩) ∈ pre ∧
      ∃ j fd' t, ∃ request' : Received, (j, ⟨.recv fd', some request'⟩) ∈ pre ∧
        (j, ⟨.clock, t⟩) ∈ pre ∧ extractPath request'.1 = extractPath request.1 ∧
        let body := upstreamBody (extractPath request.1) t
        (data = buildResponse (body ++ str " [CACHE HIT]") ∨
          j = i ∧ data = buildResponse (body ++ str " [CACHE MISS]")) := by
  obtain ⟨q, held, hq, hsim⟩ := h.whole hcap
  rw [outside, hsim.outs, List.filterMap_eq_append_iff] at htrace
  obtain ⟨pre₁, rest, hsplit, rfl, hrest⟩ := htrace
  obtain ⟨mid, e, post₁, rfl, hmid, he, rfl⟩ := List.filterMap_eq_cons_iff.mp hrest
  obtain ⟨j, ⟨o, r⟩⟩ := e
  cases o with
  | run o => cases he
  | out w =>
    cases he
    obtain ⟨request, hrecv, j', fd', t, request', hrecv', hclock, hpath, hdata⟩ :=
      sent_was_fetched_whole hcap hq (hsplit.trans (List.append_assoc pre₁ mid _).symm)
    have hout : ∀ {k : ℕ} {w : HandleOp} {r : w.Answer},
        (k, (⟨.out w, r⟩ : HandleEvent)) ∈ pre₁ ++ mid →
          (k, (⟨w, r⟩ : Event HandleOp.Answer)) ∈ pre₁.filterMap outOfWhole := by
      intro k w r hmem
      rcases List.mem_append.mp hmem with hmem | hmem
      · exact List.mem_filterMap.mpr ⟨_, hmem, rfl⟩
      · have := hmid _ hmem
        cases this
    exact ⟨request, hout hrecv, j', fd', t, request', hout hrecv', hout hclock, hpath, hdata⟩

/-- Each handler is always on its way through one of three sequences on its own descriptor, and has
been to the end of it when it returns: refused, answered from the cache, or answered from the
upstream. Each ends in the one `close`. -/
theorem handled_once (cap : ℕ) (hcap : 0 < cap) (p : HandlerPool) (h : HandlerReach cap p)
    (i fd : ℕ) (part : Prog (Part.Answer Access.Answer HandleOp.Answer) Unit)
    (hi : p.threads[i]? = some (fd, part)) :
    (∃ more, Handled fd (own i (outside p) ++ more)) ∧
      (part = .ret () → Handled fd (own i (outside p))) := by
  obtain ⟨q, held, hq, hsim⟩ := h.whole hcap
  obtain ⟨whole, m, hwhole, -, -⟩ := hsim.threads i fd part hi
  have hsat := (handleRequest_sat fd).runs (hq.threads_run.1 i fd whole hwhole)
  rw [outside, hsim.outs, own_filterMap_out]
  rw [List.nil_append] at hsat
  constructor
  · cases whole with
    | ret a => exact ⟨[], by simpa using hsat⟩
    | op o k => exact hsat.1.1
  · rintro rfl
    obtain ⟨hret, -⟩ := hsim.returned hi
    rw [hwhole] at hret
    cases hret
    exact hsat

/-- Both handlers receive a request for `/a`. The first fetches, the second finds. -/
def twoHandlers : Option HandlerPool :=
  let env : (w : HandleOp) → w.Answer
    | .recv _ => some ⟨str "GET /a HTTP/1.1\r\n\r\n", by decide +kernel⟩
    | .clock => 7
    | .send _ _ => ()
    | .close _ => ()
  guarded.turns env (List.replicate 14 0 ++ List.replicate 12 1) {
    shared := { data := { capacity := 1000 }, counters := {} }
    threads := [(5, guarded.lower (handleRequest 5)), (6, guarded.lower (handleRequest 6))] }

/-- The two handlers, turn by turn, are handlers that run. -/
theorem reach_twoHandlers {p : HandlerPool} (h : twoHandlers = some p) : HandlerReach 1000 p := by
  have hstart : HandlerReach 1000 {
      shared := { data := { capacity := 1000 }, counters := {} }
      threads := [(5, guarded.lower (handleRequest 5)), (6, guarded.lower (handleRequest 6))] } :=
    .head (.start _ 5) (.single (.start _ 6))
  exact hstart.trans (guarded.steps_of_turns h)

/-- The second handler sends what the first one fetched. -/
theorem sent_was_fetched_hit : ∃ p pre post data, 0 < 1000 ∧ HandlerReach 1000 p ∧
    outside p = pre ++ (1, ⟨.send 6 data, ()⟩) :: post ∧
    ∃ request : Received, (1, ⟨.recv 6, some request⟩) ∈ pre := by
  have hsome : twoHandlers.isSome = true := by decide +kernel
  obtain ⟨p, hp⟩ := Option.isSome_iff_exists.mp hsome
  let data := buildResponse (upstreamBody (str "/a") 7 ++ str " [CACHE HIT]")
  have hsplit : (twoHandlers.map outside).map (fun es => (es.take 5, es[5]?, es.drop 6)) =
      twoHandlers.map (fun p => ((outside p).take 5, some (1, ⟨.send 6 data, ()⟩),
        (outside p).drop 6)) := rfl
  rw [hp] at hsplit
  simp only [Option.map_some, Option.some.injEq, Prod.mk.injEq, true_and, and_true] at hsplit
  obtain ⟨hlt, hget⟩ := List.getElem?_eq_some_iff.mp hsplit
  have htrace :
      outside p = (outside p).take 5 ++ (1, ⟨.send 6 data, ()⟩) :: (outside p).drop 6 := by
    rw [← hget, List.getElem_cons_drop, List.take_append_drop]
  obtain ⟨request, hrecv, -⟩ :=
    sent_was_fetched 1000 (by decide) p (reach_twoHandlers hp) _ _ 1 6 data htrace
  exact ⟨p, _, _, data, by decide, reach_twoHandlers hp, htrace, request, hrecv⟩

/-- Two handlers, each of which closes its own connection. -/
theorem handled_once_twice : ∃ p, 0 < 1000 ∧ HandlerReach 1000 p ∧
    p.threads = [(5, .ret ()), (6, .ret ())] ∧ Handled 6 (own 1 (outside p)) := by
  have hsome : twoHandlers.isSome = true := by decide +kernel
  obtain ⟨p, hp⟩ := Option.isSome_iff_exists.mp hsome
  have hthreads : twoHandlers.map Pool.threads = some [(5, .ret ()), (6, .ret ())] := rfl
  rw [hp] at hthreads
  have hthreads : p.threads = [(5, .ret ()), (6, .ret ())] := Option.some.inj hthreads
  have hi : p.threads[1]? = some (6, .ret ()) := by rw [hthreads]; rfl
  exact ⟨p, by decide, reach_twoHandlers hp, hthreads,
    (handled_once 1000 (by decide) p (reach_twoHandlers hp) 1 6 _ hi).2 rfl⟩

end ForwardProxy.Phase4
