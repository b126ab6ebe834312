import ForwardProxy.Phase4.Cache

/-!
# The cache of phase 4 used by any number of threads

Threads call `get`, `put` and `size` in any order, and every step of a section on the list, the map
and the counters is a step of its own, between which other threads go on as the `shared_mutex` lets
them. What the calls return is what they would return one after another, and the counters agree with
it (`linearizable`). No thread writes the list or the map while another reads or writes them, and
there is no deadlock (`race_free`).
-/

namespace ForwardProxy.Phase4

open Lib.Interaction
open Lib.Recency (Event Op)
open Lib.Transition (System Run)

variable {K V : Type}

/-! ## The methods -/

/-- A call of a method, with its arguments. -/
inductive Method (K V : Type)
  | get (key : K)
  | put (key : K) (value : V)
  | size

/-- A call of a method with what it returned. -/
inductive Outcome (K V : Type)
  | got (key : K) (result : Option V)
  | wrote (key : K) (value : V)
  | counted (n : ℕ)

/-- The call without its result. -/
def Outcome.method : Outcome K V → Method K V
  | .got key _ => .get key
  | .wrote key value => .put key value
  | .counted _ => .size

/-- The call as one of the sequential cache. -/
def Outcome.event : Outcome K V → Option (Event K V)
  | .got key result => some (.get key result)
  | .wrote key value => some (.put key value)
  | .counted _ => none

section Methods

variable {W : Type} {Q : W → Type}

/-- Programs that run sections, and do other things outside. -/
abbrev Caller (K V : Type) {W : Type} (Q : W → Type) :=
  Prog (Whole.Answer (Section.Answer (K := K) (V := V)) Q)

/-- A section with its result, or another event. -/
abbrev CallerEvent (K V : Type) {W : Type} (Q : W → Type) :=
  Lib.Interaction.Event (Whole.Answer (Section.Answer (K := K) (V := V)) Q)

/-- A section under the lock. -/
abbrev locked (o : Section K V) : Caller K V Q o.Answer := Prog.perform (Whole.run o)

/-- `get`: the first section only tells whether the key is there. -/
def get (key : K) : Caller K V Q (Option V) := do
  if ← locked (.probe key) then
    locked (.promote key)
  else
    return none

/-- `put`: one section. -/
def put (key : K) (value : V) : Caller K V Q Unit := locked (.put key value)

/-- `size`: one section. -/
def size : Caller K V Q ℕ := locked .size

/-- What a method does, with what it returns. -/
def Method.body : Method K V → Caller K V Q (Outcome K V)
  | .get key => do
    let result ← Phase4.get key
    return .got key result
  | .put key value => do
    Phase4.put key value
    return .wrote key value
  | .size => do
    let n ← Phase4.size
    return .counted n

/-- What a thread does: one call after another. -/
def callAll : List (Method K V) → Caller K V Q (List (Outcome K V))
  | [] => return []
  | m :: ms => do
    let r ← m.body
    let rs ← callAll ms
    return r :: rs

end Methods

/-! ## The points -/

variable {W : Type} {Q : W → Type}

/-- A `get` takes effect in its last section, and a `put` in its only one. -/
def point : CallerEvent K V Q → Option (Event K V)
  | ⟨.run (.probe key), false⟩ => some (.get key none)
  | ⟨.run (.promote key), result⟩ => some (.get key result)
  | ⟨.run (.put key value), _⟩ => some (.put key value)
  | _ => none

/-- The points among the events are those of the first calls of `ms`. -/
def Midway (ms : List (Method K V)) (h : List (CallerEvent K V Q)) : Prop :=
  ∃ (done : List (Outcome K V)) (rest : List (Method K V)),
    ms = done.map Outcome.method ++ rest ∧ h.filterMap point = done.filterMap Outcome.event

/-- What a method does, after the events `h`: its point is its last operation. -/
theorem body_points (m : Method K V) (h : List (CallerEvent K V Q)) :
    Prog.Sat (fun h' _ => h'.filterMap point = h.filterMap point)
      (fun h' r => h'.filterMap point = h.filterMap point ++ r.event.toList ∧ r.method = m) h
      m.body := by
  cases m with
  | get key =>
    refine ⟨rfl, fun there => ?_⟩
    cases there with
    | false => exact ⟨by simp [point, Outcome.event], rfl⟩
    | true =>
      refine ⟨by simp [point], fun result => ⟨?_, rfl⟩⟩
      rw [List.filterMap_append, List.filterMap_append, List.append_assoc]
      rfl
  | put key value => exact ⟨rfl, fun _ => ⟨by simp [point, Outcome.event], rfl⟩⟩
  | size => exact ⟨rfl, fun n => ⟨by simp [point, Outcome.event], rfl⟩⟩

/-- What a thread does, where the calls `outs` have returned before. -/
theorem callAll_points (outs : List (Outcome K V)) (ms : List (Method K V))
    (h : List (CallerEvent K V Q))
    (hh : h.filterMap point = outs.filterMap Outcome.event) :
    Prog.Sat (fun h' _ => Midway (outs.map Outcome.method ++ ms) h')
      (fun h' rs => h'.filterMap point = (outs ++ rs).filterMap Outcome.event ∧
        rs.map Outcome.method = ms) h (callAll ms) := by
  induction ms generalizing outs h with
  | nil => exact ⟨by simpa using hh, rfl⟩
  | cons m ms ih =>
    have hmid : ∀ (h' : List (CallerEvent K V Q)) (_ : Whole (Section K V) W),
        h'.filterMap point = h.filterMap point →
          Midway (outs.map Outcome.method ++ m :: ms) h' :=
      fun h' _ hp => ⟨outs, m :: ms, rfl, hp.trans hh⟩
    refine ((body_points m h).mono hmid).bind fun h' r hr => ?_
    obtain ⟨hpoints, rfl⟩ := hr
    have hrest := ih (outs ++ [r]) h' (by
      rw [hpoints, hh, List.filterMap_append]
      cases hr : r.event <;> simp [hr])
    simp only [List.map_append, List.map_cons, List.map_nil, List.append_assoc,
      List.singleton_append] at hrest
    refine hrest.bind fun h'' rs hrs => ?_
    exact ⟨hrs.1, by rw [List.map_cons, hrs.2]⟩

/-! ## The sequential cache -/

variable [DecidableEq K]

/-- The cache of `lru_cache.hpp` with one call after another. -/
def sequential (cap : ℕ) : System (LRUCache K V) (Event K V) where
  init := LRUCache.new cap
  step c e c' := ∃ op, c.step op = (e, c')

/-- A run is one of the cache, with the calls as its history. -/
theorem history_of_run {cap : ℕ} {past : List (Event K V × LRUCache K V)} {c : LRUCache K V}
    (h : Run (sequential cap) past c) : ∃ ops,
      LRUCache.history cap ops = (Lib.Transition.events past).reverse ∧
        LRUCache.after cap ops = c := by
  have hsnoc : ∀ (ops : List (Op K V)) (op : Op K V) (hist : List (Event K V)) (d : LRUCache K V),
      d.run hist (ops ++ [op]) =
        (((d.run hist ops).2.step op).1 :: (d.run hist ops).1, ((d.run hist ops).2.step op).2) := by
    intro ops op
    induction ops with
    | nil => exact fun _ _ => rfl
    | cons op' ops ih => exact fun hist d => ih _ _
  induction h with
  | start => exact ⟨[], rfl, rfl⟩
  | step _ hstep ih =>
    obtain ⟨ops, hhist, hafter⟩ := ih
    obtain ⟨op, hop⟩ := hstep
    refine ⟨ops ++ [op], ?_, ?_⟩
    · rw [LRUCache.history, hsnoc]
      show (((LRUCache.after cap ops).step op).1 :: LRUCache.history cap ops) = _
      rw [hafter, hop, hhist, Lib.Transition.events_append, List.reverse_append]
      rfl
    · rw [LRUCache.after, hsnoc]
      show ((LRUCache.after cap ops).step op).2 = _
      rw [hafter, hop]

/-- The list and the map are those of a cache in good order. -/
def GoodStore (cap : ℕ) (s : Store K V) : Prop :=
  ∃ c : LRUCache K V, c.Wf ∧ storeOf c = s ∧ c.capacity = cap

/-- Sections that find nothing change nothing. -/
theorem get_of_absent {c : LRUCache K V} {key : K} (h : c.index.lookup key = none) :
    (c.get key).1 = none ∧ storeOf (c.get key).2 = storeOf c := by
  rw [LRUCache.get, h]
  exact ⟨rfl, rfl⟩

/-- Each section is a call of the sequential cache, or leaves the cache as it is. -/
def linear (cap : ℕ) :
    Linear (guarded (K := K) (V := V)).WholeActs (sequential (K := K) (V := V) cap)
      (R := Whole.Answer (Section.Answer (K := K) (V := V)) Q) where
  point := point
  rel s c := c.Wf ∧ storeOf c = s
  silent {o s r s' c} hact hrel hpoint := by
    obtain ⟨hwf, rfl⟩ := hrel
    cases o with
    | out w =>
      obtain rfl := hact
      exact ⟨hwf, rfl⟩
    | run o =>
      have hact : (r, s') = (runSection o (storeOf c)).2 := hact
      cases o with
      | probe key =>
        rw [exec_probe] at hact
        obtain ⟨-, rfl⟩ := Prod.mk.inj hact
        exact ⟨hwf, rfl⟩
      | size =>
        obtain ⟨-, rfl⟩ := Prod.mk.inj hact
        exact ⟨hwf, rfl⟩
      | promote key => cases hpoint
      | put key value => cases hpoint
  called {o s r s' c e} hact hrel hpoint := by
    obtain ⟨hwf, rfl⟩ := hrel
    cases o with
    | out w => cases hpoint
    | run o =>
      have hact : (r, s') = (runSection o (storeOf c)).2 := hact
      cases o with
      | probe key =>
        rw [exec_probe] at hact
        obtain ⟨rfl, rfl⟩ := Prod.mk.inj hact
        cases hlookup : (storeOf c).index.lookup key with
        | some it => simp [hlookup, point] at hpoint
        | none =>
          obtain ⟨hnone, hstore⟩ := get_of_absent (c := c) hlookup
          obtain rfl : Event.get key none = e := by simpa [hlookup, point] using hpoint
          exact ⟨_, ⟨.get key, by rw [LRUCache.step, hnone]⟩, LRUCache.get_wf hwf key, hstore⟩
      | promote key =>
        rw [exec_promote] at hact
        obtain ⟨rfl, rfl⟩ := Prod.mk.inj hact
        obtain rfl : Event.get key (c.get key).1 = e := by simpa [point] using hpoint
        exact ⟨_, ⟨.get key, rfl⟩, LRUCache.get_wf hwf key, rfl⟩
      | put key value =>
        rw [exec_put hwf] at hact
        obtain ⟨-, rfl⟩ := Prod.mk.inj hact
        obtain rfl : Event.put key value = e := by simpa [point] using hpoint
        exact ⟨_, ⟨.put key value, rfl⟩, LRUCache.put_wf hwf key value, rfl⟩
      | size => cases hpoint

/-- Every section keeps the store in good order. -/
theorem goodStore_exec {cap : ℕ} (o : Section K V) (s : Store K V) (h : GoodStore cap s) :
    GoodStore cap (runSection o s).2.2 := by
  obtain ⟨c, hwf, rfl, hcap⟩ := h
  cases o with
  | probe key =>
    rw [exec_probe]
    exact ⟨c, hwf, rfl, hcap⟩
  | promote key =>
    rw [exec_promote]
    refine ⟨_, LRUCache.get_wf hwf key, rfl, ?_⟩
    rw [← hcap]
    exact congrArg Lib.Recency.Lru.capacity (LRUCache.abs_get hwf key)
  | put key value =>
    rw [exec_put hwf]
    exact ⟨_, LRUCache.put_wf hwf key value, rfl, (LRUCache.capacity_put c key value).trans hcap⟩
  | size => exact ⟨c, hwf, rfl, hcap⟩

/-! ## Any number of threads -/

/-- Threads that do nothing besides calling methods. -/
abbrev NoOther : Empty → Type := fun _ => Unit

/-- The pools of threads that come of an empty pool and an empty cache, in small steps. -/
abbrev CachePool (K V : Type) :=
  Pool (Part.Answer (Access.Answer (K := K) (V := V)) NoOther) (List (Method K V))
    (List (Outcome K V)) (Locked (Store K V) Counters)

/-- One step of one thread, on the lock, the list and the map, or the counters. -/
def CacheStep : CachePool K V → CachePool K V → Prop :=
  Pool.Step (fun ms => guarded.lower (callAll ms)) guarded.PartActs

/-- What comes of threads that start on an empty cache. -/
def CacheReach (cap : ℕ) : CachePool K V → Prop :=
  Relation.ReflTransGen CacheStep { shared := { data := { capacity := cap }, counters := {} } }

/-- Every thread has returned. -/
def AllReturned (p : CachePool K V) : Prop := ∀ t ∈ p.threads, ∃ outs, t.2 = .ret outs

/-- A lookup that found something. -/
def isFound : Event K V → Bool
  | .get _ (some _) => true
  | _ => false

/-- A call of `get` that found nothing. -/
def isMissed : Event K V → Bool
  | .get _ none => true
  | _ => false

/-- The calls in the order in which they took effect: a history of the sequential cache, of which
each thread has the calls that it has made, in its order and with what they returned, and which the
counters agree with. -/
structure Linearization (cap : ℕ) (p : CachePool K V) (calls : List (ℕ × Event K V)) : Prop where
  sequential : ∃ ops, LRUCache.history cap ops = (calls.map Prod.snd).reverse
  owned : ∀ c ∈ calls, c.1 < p.threads.length
  threads : ∀ (i : ℕ) ms part, p.threads[i]? = some (ms, part) →
    ∃ (done : List (Outcome K V)) (rest : List (Method K V)),
      ms = done.map Outcome.method ++ rest ∧
      (calls.filter fun c => c.1 = i).map Prod.snd = done.filterMap Outcome.event ∧
      ∀ outs, part = .ret outs → outs = done ∧ rest = []
  counters : AllReturned p →
    p.shared.counters.hits = UInt64.ofNat (calls.countP fun c => isFound c.2) ∧
      p.shared.counters.misses = UInt64.ofNat (calls.countP fun c => isMissed c.2)

/-! ## The counters -/

/-- A step that counts a hit. -/
def isAddHit : Lib.Interaction.Event (Access.Answer (K := K) (V := V)) → Bool
  | ⟨.addHit, _⟩ => true
  | _ => false

/-- A step that counts a miss. -/
def isAddMiss : Lib.Interaction.Event (Access.Answer (K := K) (V := V)) → Bool
  | ⟨.addMiss, _⟩ => true
  | _ => false

omit [DecidableEq K] in
/-- `put` counts nothing, whatever it finds. -/
theorem put_counts_nothing (key : K) (value : V) :
    Prog.Sat (fun _ _ => True) (fun h _ => h.countP isAddHit = 0 ∧ h.countP isAddMiss = 0) []
      (Section.steps (.put key value)) := by
  refine ⟨trivial, fun it => ?_⟩
  cases it with
  | some it => exact ⟨trivial, fun _ => ⟨trivial, fun _ => ⟨rfl, rfl⟩⟩⟩
  | none =>
    refine ⟨trivial, fun full => ?_⟩
    cases full with
    | false => exact ⟨trivial, fun _ => ⟨trivial, fun _ => ⟨rfl, rfl⟩⟩⟩
    | true =>
      refine ⟨trivial, fun back => ?_⟩
      cases back with
      | none => exact ⟨trivial, fun _ => ⟨trivial, fun _ => ⟨rfl, rfl⟩⟩⟩
      | some back =>
        exact ⟨trivial, fun _ => ⟨trivial, fun _ => ⟨trivial, fun _ => ⟨trivial, fun _ =>
          ⟨rfl, rfl⟩⟩⟩⟩⟩

/-- What a section counts, from a store in good order. -/
theorem countP_exec {cap : ℕ} (o : Section K V) {s : Store K V} (h : GoodStore cap s) :
    let e : CallerEvent K V Q := ⟨.run o, (runSection o s).2.1⟩
    (runSection o s).1.countP isAddHit = (point e).toList.countP isFound ∧
      (runSection o s).1.countP isAddMiss = (point e).toList.countP isMissed := by
  obtain ⟨c, hwf, rfl, -⟩ := h
  have hmap : ∀ key, (storeOf c).index.lookup key = c.index.lookup key := fun _ => rfl
  cases o with
  | probe key =>
    simp only [runSection, Section.steps, Prog.perform_bind, Prog.exec, Access.handle, hmap]
    cases c.index.lookup key with
    | none => exact ⟨rfl, rfl⟩
    | some it => exact ⟨rfl, rfl⟩
  | promote key =>
    simp only [runSection, Section.steps, Prog.perform_bind, Prog.exec, Access.handle, hmap]
    cases hit : c.index.lookup key with
    | none => exact ⟨rfl, rfl⟩
    | some it =>
      -- The iterator designates a node, so what is counted as a hit has a value.
      obtain ⟨n, hn, -, rfl⟩ := hwf.exists_node hit
      have hnode : LRUCache.node (LRUCache.splice (storeOf c).items n.id) n.id = some n :=
        (node_splice c.items n.id).trans (LRUCache.node_of_mem hwf.ids_nodup hn)
      simp only [Prog.perform, Prog.exec, Access.handle, hnode]
      exact ⟨rfl, rfl⟩
  | put key value =>
    exact (put_counts_nothing key value).result (Prog.runs_exec Access.handle _ (storeOf c))
  | size => exact ⟨rfl, rfl⟩

/-- What the sections of a thread count is what its calls found. -/
theorem countP_expands {cap : ℕ} {es : List (CallerEvent K V Q)}
    {fs : List (Lib.Interaction.Event (Access.Answer (K := K) (V := V)))}
    (h : guarded.Expands (GoodStore cap) es fs) :
    fs.countP isAddHit = (es.filterMap point).countP isFound ∧
      fs.countP isAddMiss = (es.filterMap point).countP isMissed := by
  induction h with
  | nil => exact ⟨rfl, rfl⟩
  | @run es fs o s _ hs ih =>
    obtain ⟨hhits, hmisses⟩ := countP_exec (Q := Q) o hs
    have hlast : ∀ e : CallerEvent K V Q, [e].filterMap point = (point e).toList := by
      intro e
      cases he : point e <;> simp [he]
    rw [List.countP_append, List.countP_append, List.filterMap_append, List.countP_append,
      List.countP_append, ih.1, ih.2, hlast]
    exact ⟨congrArg _ hhits, congrArg _ hmisses⟩
  | @out es fs w r _ ih =>
    rw [List.filterMap_append, List.countP_append, List.countP_append]
    exact ih

/-- The counters are the numbers of the steps that add to them. -/
structure Counts (s : Locked (Store K V) Counters)
    (trace : List (ℕ × Lib.Interaction.Event
      (Part.Answer (Access.Answer (K := K) (V := V)) NoOther))) : Prop where
  hits : s.counters.hits = UInt64.ofNat (trace.countP fun e => (prims [e.2]).any isAddHit)
  misses : s.counters.misses = UInt64.ofNat (trace.countP fun e => (prims [e.2]).any isAddMiss)

/-- The counters are the steps that counted. By induction on the steps of the threads. -/
theorem CacheReach.counts {cap : ℕ} {p : CachePool K V} (h : CacheReach cap p) :
    Counts p.shared p.trace := by
  refine Pool.Reachable.invariant ⟨rfl, rfl⟩ ?_ h
  rintro s o r s' i t hact ⟨hhits, hmisses⟩
  constructor
  · rw [List.countP_append, UInt64.ofNat_add, ← hhits]
    cases o with
    | acquire m => obtain ⟨-, rfl⟩ := hact; exact (UInt64.add_zero _).symm
    | release m => obtain rfl := hact; exact (UInt64.add_zero _).symm
    | out w => obtain rfl := hact; exact (UInt64.add_zero _).symm
    | prim f =>
      obtain ⟨-, rfl⟩ := hact
      cases f <;> first | rfl | exact (UInt64.add_zero _).symm
  · rw [List.countP_append, UInt64.ofNat_add, ← hmisses]
    cases o with
    | acquire m => obtain ⟨-, rfl⟩ := hact; exact (UInt64.add_zero _).symm
    | release m => obtain rfl := hact; exact (UInt64.add_zero _).symm
    | out w => obtain rfl := hact; exact (UInt64.add_zero _).symm
    | prim f =>
      obtain ⟨-, rfl⟩ := hact
      cases f <;> first | rfl | exact (UInt64.add_zero _).symm

/-- The primitive steps of a thread, counted. -/
theorem countP_prims {F : Type} {RF : F → Type} (f : Lib.Interaction.Event RF → Bool)
    (es : List (Lib.Interaction.Event (Part.Answer RF Q))) :
    es.countP (fun e => (prims [e]).any f) = (prims es).countP f := by
  induction es with
  | nil => rfl
  | cons e es ih =>
    have hcons : prims (e :: es) = prims [e] ++ prims es := List.filterMap_append (l := [e])
    have hone : (prims [e]).countP f = if (prims [e]).any f then 1 else 0 := by
      obtain ⟨o, r⟩ := e
      cases o <;> simp [prims, List.countP_cons]
    rw [List.countP_cons, ih, hcons, List.countP_append, hone, Nat.add_comm]

/-! ## The threads together -/

/-- The pool in whole sections. -/
abbrev WholePool (K V : Type) :=
  Pool (Whole.Answer (Section.Answer (K := K) (V := V)) NoOther) (List (Method K V))
    (List (Outcome K V)) (Store K V)

/-- The pool in whole sections that a pool in small steps stands for. -/
def StandsFor (cap : ℕ) (p : CachePool K V) (q : WholePool K V) : Prop :=
  Pool.Reachable callAll guarded.WholeActs { capacity := cap } q ∧
    ∃ held, guarded.Simulates (GoodStore cap) p q held

/-- An empty cache of a capacity that is not zero is in good order. -/
theorem goodStore_new {cap : ℕ} (hcap : 0 < cap) :
    storeOf (LRUCache.new cap : LRUCache K V) = { capacity := cap } ∧
      GoodStore cap ({ capacity := cap } : Store K V) := by
  have hne : cap ≠ 0 := by omega
  have hstore : storeOf (LRUCache.new cap : LRUCache K V) = { capacity := cap } := by
    simp [storeOf, LRUCache.new, hne]
  exact ⟨hstore, _, LRUCache.new_wf cap, hstore, by simp [LRUCache.new, hne]⟩

/-- A pool that stands for one goes on to stand for one that comes of it. -/
theorem StandsFor.later {cap : ℕ} {p p' : CachePool K V} {q : WholePool K V}
    (h : StandsFor cap p q) (hlater : Relation.ReflTransGen CacheStep p p') :
    ∃ q', StandsFor cap p' q' ∧
      Relation.ReflTransGen (Pool.Step callAll guarded.WholeActs) q q' := by
  obtain ⟨hreach, held, hsim⟩ := h
  obtain ⟨q', held', hsteps, hsim'⟩ := hsim.steps goodStore_exec hlater
  exact ⟨q', ⟨hreach.trans hsteps, held', hsim'⟩, hsteps⟩

/-- The sections that are done, each as a whole and in the order in which they gave back the lock,
come to the same cache. -/
theorem CacheReach.standsFor {cap : ℕ} (hcap : 0 < cap) {p : CachePool K V}
    (h : CacheReach cap p) : ∃ q, StandsFor cap p q := by
  have hstart : StandsFor cap ({ shared := { data := { capacity := cap }, counters := {} } } :
      CachePool K V) { shared := { capacity := cap } } :=
    ⟨.refl, [], guarded.simulates_start (goodStore_new hcap).2 {}⟩
  obtain ⟨q, hq, -⟩ := hstart.later h
  exact ⟨q, hq⟩

/-- The points of the pool in whole sections are a linearization. -/
theorem StandsFor.linearization {cap : ℕ} (hcap : 0 < cap) {p : CachePool K V}
    {q : WholePool K V} (hreach : CacheReach cap p) (h : StandsFor cap p q) :
    Linearization cap p ((linear cap).calls q.trace) := by
  obtain ⟨hq, held, hsim⟩ := h
  have hrun := (linear cap).run ⟨LRUCache.new_wf cap, (goodStore_new hcap).1⟩ hq
  obtain ⟨hownPart, hownWhole⟩ := hsim.owned
  constructor
  · obtain ⟨past, c, hpast, hevents, -⟩ := hrun
    obtain ⟨ops, hhist, -⟩ := history_of_run hpast
    exact ⟨ops, by rw [hhist, hevents]⟩
  · intro c hc
    exact (linear cap).of_mem_calls hownWhole hc
  · intro i ms part hi
    obtain ⟨whole, m, hwhole, -, hfollows⟩ := hsim.threads i ms part hi
    have hrunning := (hq.threads_run).1 i ms whole hwhole
    have hsat := callAll_points (Q := NoOther) [] ms [] rfl
    rw [List.map_nil, List.nil_append] at hsat
    rw [(linear cap).calls_own]
    cases hcase : whole with
    | op o k =>
      have hnow := hsat.runs hrunning
      rw [hcase, Prog.sat_op] at hnow
      obtain ⟨⟨done, rest, hms, hpoints⟩, -⟩ := hnow
      refine ⟨done, rest, hms, hpoints, fun outs hret => ?_⟩
      -- A thread that has returned in small steps has returned.
      have hreturned := (hsim.returned (hret ▸ hi)).1
      rw [hwhole, hcase] at hreturned
      cases hreturned
    | ret outs =>
      obtain ⟨hpoints, hms⟩ := hsat.result (hcase ▸ hrunning)
      refine ⟨outs, [], by rw [hms, List.append_nil], hpoints, fun outs' hret => ?_⟩
      have hreturned := (hsim.returned (hret ▸ hi)).1
      rw [hwhole, hcase] at hreturned
      cases hreturned
      exact ⟨rfl, rfl⟩
  · intro hall
    -- Every thread has counted what its calls found.
    have hthread : ∀ i : Fin p.threads.length,
        (own i p.trace).countP (fun e => (prims [e]).any isAddHit) =
            (own i q.trace).countP (fun e => (point e).any isFound) ∧
          (own i p.trace).countP (fun e => (prims [e]).any isAddMiss) =
            (own i q.trace).countP (fun e => (point e).any isMissed) := by
      intro i
      obtain ⟨outs, hret⟩ := hall _ (List.get_mem p.threads i)
      have hi : p.threads[i.1]? = some ((p.threads.get i).1, .ret outs) := by
        rw [← hret]
        simp
      obtain ⟨hhits, hmisses⟩ := countP_expands (hsim.returned hi).2
      rw [countP_prims, countP_prims, hhits, hmisses, List.countP_filterMap, List.countP_filterMap]
      exact ⟨List.countP_congr fun e _ => by cases point e <;> simp,
        List.countP_congr fun e _ => by cases point e <;> simp⟩
    have hcalls : ∀ f : Event K V → Bool, ((linear cap).calls q.trace).countP (fun c => f c.2) =
        ∑ i : Fin p.threads.length, (own i q.trace).countP fun e => (point e).any f := by
      intro f
      rw [← Pool.countP_own (fun e => (point e).any f) hownWhole, Linear.calls,
        List.countP_filterMap]
      refine List.countP_congr fun e _ => ?_
      show _ = true ↔ (point e.2).any f = true
      cases hp : (linear cap).point e.2 with
      | none => simp [show point e.2 = none from hp]
      | some e' => simp [show point e.2 = some e' from hp]
    obtain ⟨hhits, hmisses⟩ := hreach.counts
    rw [hhits, hmisses, hcalls, hcalls,
      Pool.countP_own (fun e => (prims [e]).any isAddHit) hownPart,
      Pool.countP_own (fun e => (prims [e]).any isAddMiss) hownPart]
    exact ⟨congrArg _ (Finset.sum_congr rfl fun i _ => (hthread i).1),
      congrArg _ (Finset.sum_congr rfl fun i _ => (hthread i).2)⟩

/-- Two threads that have been started. -/
def twoThreads (cap : ℕ) (calls calls' : List (Method K V)) : CachePool K V where
  shared := { data := { capacity := cap }, counters := {} }
  threads := [(calls, guarded.lower (callAll calls)), (calls', guarded.lower (callAll calls'))]

/-- Threads that take their turns in an order are threads that run. -/
theorem reach_of_turns {cap : ℕ} {calls calls' : List (Method K V)} {schedule : List ℕ}
    {p : CachePool K V}
    (h : guarded.turns Empty.elim schedule (twoThreads cap calls calls') = some p) :
    CacheReach cap p := by
  have hstart : CacheReach cap (twoThreads cap calls calls') :=
    .head (.start _ calls) (.single (.start _ calls'))
  exact hstart.trans (guarded.steps_of_turns h)

/-- Two threads and room for one entry: the key that the first thread has put and seen under the
shared lock is evicted by the second before the first has the exclusive lock. -/
def evictedBetween : Option (CachePool ℕ Char) :=
  guarded.turns Empty.elim (List.replicate 9 0 ++ List.replicate 9 1 ++ List.replicate 4 0)
    (twoThreads 1 [.put 1 'a', .get 1] [.put 2 'b'])

/-- The steps that write the list or the map. -/
def Access.Writes (a : Access K V) : Prop := ∃ s, (a.handle s).2 ≠ s

/-- While a thread is about to write the list or the map, no other thread is about to read or write
them. And while a thread has not returned, some thread can go on. -/
theorem race_free (cap : ℕ) (hcap : 0 < cap) (p : CachePool K V) (h : CacheReach cap p) :
    (∀ (i j : ℕ) ms ms' (a a' : Access K V) k k',
      p.threads[i]? = some (ms, .op (.prim a) k) → a.Writes →
      p.threads[j]? = some (ms', .op (.prim a') k') → j = i) ∧
    (¬AllReturned p → ∃ i, p.Enabled guarded.PartActs i) := by
  obtain ⟨q, -, held, hsim⟩ := h.standsFor hcap
  refine ⟨fun i j ms ms' a a' k k' hi hw hj => hsim.no_race hi hw hj, fun hnot => ?_⟩
  unfold AllReturned at hnot
  push Not at hnot
  obtain ⟨⟨ms, part⟩, hmem, hnot⟩ := hnot
  obtain ⟨i, hi⟩ := List.mem_iff_getElem?.mp hmem
  cases part with
  | ret outs => exact absurd rfl (hnot outs)
  | op o k => exact hsim.progress hi fun w => w.elim

/-- There the first thread has the exclusive lock, and is about to write. -/
theorem race_free_writing : ∃ p : CachePool ℕ Char, 0 < 1 ∧ CacheReach 1 p ∧
    p.shared.lock.writer = true ∧ ¬AllReturned p ∧ ∃ i, p.Enabled guarded.PartActs i := by
  have hsome : (guarded.turns Empty.elim [0, 0, 0] (twoThreads 1 [.put 1 'a'] [.put 2 'b'] :
    CachePool ℕ Char)).isSome = true := by decide +kernel
  obtain ⟨p, hp⟩ := Option.isSome_iff_exists.mp hsome
  have hreach : CacheReach 1 p := reach_of_turns hp
  have hwriter : (guarded.turns Empty.elim [0, 0, 0] (twoThreads 1 [.put 1 'a'] [.put 2 'b'] :
    CachePool ℕ Char)).map (fun p => p.shared.lock.writer) = some true := rfl
  have hthread : (guarded.turns Empty.elim [0, 0, 0] (twoThreads 1 [.put 1 'a'] [.put 2 'b'] :
    CachePool ℕ Char)).map (fun p => p.threads[1]?) =
      some (some ([.put 2 'b'], guarded.lower (callAll [.put 2 'b']))) := rfl
  rw [hp] at hwriter hthread
  have hnot : ¬AllReturned p := by
    intro hall
    obtain ⟨outs, hret⟩ := hall _ (List.mem_of_getElem? (Option.some.inj hthread))
    cases hret
  exact ⟨p, by decide, hreach, Option.some.inj hwriter, hnot,
    (race_free 1 (by decide) p hreach).2 hnot⟩

end ForwardProxy.Phase4
