import ForwardProxy.Cache.Accounts
import ForwardProxy.Cache.Capacity
import ForwardProxy.Lib.Scan
import ForwardProxy.Lib.Transition

/-!
# The sharded cache used by any number of threads

A call of `get`, `put` or `erase` holds the lock of one shard, and `stats` takes the lock of one
shard after another, so that other calls come between. The calls are a history of the sequential
cache (`Tallied.history`). What `stats` adds up belongs to no single state of it: each shard is read
as it is once the calls before its own reading have been made. Still it counts no fewer lookups than
there were before it began and no more than before it ended, and no more entries than the capacity
(`stats_between`).
-/

namespace ForwardProxy.ShardedLRUCache

open Lib.Interaction
open Lib.Recency (Op)

variable {K V : Type} [DecidableEq K]

/-- What is done with the lock of one shard. -/
inductive ShardOp (K V : Type)
  | get (key : K)
  | put (key : K) (value : V)
  | erase (key : K)
  /-- `stats` of the shard with the index `i`. -/
  | stats (i : ℕ)

/-- What an operation answers. -/
abbrev ShardOp.Answer : ShardOp K V → Type
  | .get _ => Option V
  | .put _ _ => Unit
  | .erase _ => Bool
  | .stats _ => LRUCache.Stats

/-- What an operation does to the cache. -/
def ShardOp.handle : (o : ShardOp K V) → ShardedLRUCache K V → o.Answer × ShardedLRUCache K V
  | .get key, c => c.get key
  | .put key value, c => ((), c.put key value)
  | .erase key, c => c.erase key
  | .stats i, c => ((c.shards[i]?.map LRUCache.stats).getD {}, c)

/-- Nothing else is done to the shard while its lock is held. -/
def ShardOp.Acts (o : ShardOp K V) (c : ShardedLRUCache K V) (r : o.Answer)
    (c' : ShardedLRUCache K V) : Prop := o.handle c = (r, c')

/-- A call of the cache. -/
inductive Call (K V : Type)
  | get (key : K)
  | put (key : K) (value : V)
  | erase (key : K)
  | stats

/-- What a call returns. -/
inductive Returned (V : Type)
  | got (value : Option V)
  | wrote
  | erased (found : Bool)
  | counted (stats : LRUCache.Stats)

/-- The steps of a call, each under the lock of one shard. -/
abbrev Steps (K V : Type) := Prog (ShardOp.Answer (K := K) (V := V))

/-- One turn of the loop of `stats`. -/
def addStats (agg st : LRUCache.Stats) : LRUCache.Stats where
  hits := agg.hits + st.hits
  misses := agg.misses + st.misses
  evictions := agg.evictions + st.evictions
  size := (agg.size + st.size) % 2^64

/-- The loop of `stats` over `n` shards from the index `i` on. -/
def statsFrom (i : ℕ) (agg : LRUCache.Stats) : ℕ → Steps K V LRUCache.Stats
  | 0 => return agg
  | n + 1 => do
    let st ← Prog.perform (ShardOp.stats i)
    statsFrom (i + 1) (addStats agg st) n

/-- The methods of a cache with `n` shards. -/
def Call.body (n : ℕ) : Call K V → Steps K V (Returned V)
  | .get key => do return .got (← Prog.perform (ShardOp.get key))
  | .put key value => do
    Prog.perform (ShardOp.put key value)
    return .wrote
  | .erase key => do return .erased (← Prog.perform (ShardOp.erase key))
  | .stats => do return .counted (← statsFrom 0 {} n)

/-- A step that was taken, with its answer. -/
abbrev ShardEvent (K V : Type) := Lib.Interaction.Event (ShardOp.Answer (K := K) (V := V))

/-- The pools of calls that come of a cache `c` without any. -/
def CallsReach (c : ShardedLRUCache K V) :
    Pool (ShardOp.Answer (K := K) (V := V)) (Call K V) (Returned V) (ShardedLRUCache K V) → Prop :=
  Pool.Reachable (Call.body c.shards.length) ShardOp.Acts c

/-! ## The calls as a history -/

/-- The operation of the sequential cache that an event is. -/
def opOf : ShardEvent K V → Option (Op K V)
  | ⟨.get key, _⟩ => some (.get key)
  | ⟨.put key value, _⟩ => some (.put key value)
  | ⟨.erase key, _⟩ => some (.erase key)
  | ⟨.stats _, _⟩ => none

/-- The same with what was returned. -/
def eventOf : ShardEvent K V → Option (Lib.Recency.Event K V)
  | ⟨.get key, value⟩ => some (.get key value)
  | ⟨.put key value, _⟩ => some (.put key value)
  | ⟨.erase key, found⟩ => some (.erase key found)
  | ⟨.stats _, _⟩ => none

/-- The operations that were made, the first first. -/
def opsOf (t : List (ℕ × ShardEvent K V)) : List (Op K V) := t.filterMap fun e => opOf e.2

/-- What they returned, as events of the cache. -/
def eventsOf (t : List (ℕ × ShardEvent K V)) : List (Lib.Recency.Event K V) :=
  t.filterMap fun e => eventOf e.2

/-- One more operation in a run. -/
theorem run_snoc (c : ShardedLRUCache K V) (h : List (Lib.Recency.Event K V)) (ops : List (Op K V))
    (op : Op K V) : c.run h (ops ++ [op]) =
      (((c.run h ops).2.step op).1 :: (c.run h ops).1, ((c.run h ops).2.step op).2) := by
  induction ops generalizing c h with
  | nil => rfl
  | cons op' ops ih => exact ih _ _

/-- The calls so far, in the order of the trace, are a run of the sequential cache with the same
answers, and the shards read are those of it at the time. -/
structure Tallied (c s : ShardedLRUCache K V) (t : List (ℕ × ShardEvent K V)) : Prop where
  history : c.run [] (opsOf t) = ((eventsOf t).reverse, s)
  read : ∀ pre j i st post, t = pre ++ (j, ⟨.stats i, st⟩) :: post →
    st = (((c.run [] (opsOf pre)).2.shards[i]?).map LRUCache.stats).getD {}

variable {c : ShardedLRUCache K V}
  {p : Pool (ShardOp.Answer (K := K) (V := V)) (Call K V) (Returned V) (ShardedLRUCache K V)}

/-- A step is one of the sequential cache, or only reads. -/
theorem ShardOp.Acts.step {o : ShardOp K V} {s s' : ShardedLRUCache K V} {r : o.Answer}
    (h : o.Acts s r s') :
    (∃ op, opOf ⟨o, r⟩ = some op ∧ eventOf ⟨o, r⟩ = some (s.step op).1 ∧ s' = (s.step op).2) ∨
      opOf ⟨o, r⟩ = none ∧ eventOf ⟨o, r⟩ = none ∧ s' = s := by
  obtain ⟨rfl, rfl⟩ := Prod.mk.inj h
  cases o with
  | get key => exact Or.inl ⟨.get key, rfl, rfl, rfl⟩
  | put key value => exact Or.inl ⟨.put key value, rfl, rfl, rfl⟩
  | erase key => exact Or.inl ⟨.erase key, rfl, rfl, rfl⟩
  | stats i => exact Or.inr ⟨rfl, rfl, rfl⟩

/-- The trace of a pool of calls is tallied. -/
theorem CallsReach.tallied (h : CallsReach c p) : Tallied c p.shared p.trace := by
  refine @Pool.Reachable.invariant _ _ _ _ _ _ _ _ (Tallied c) ⟨rfl, by simp⟩ ?_ _ h
  intro s o r s' i t hact ht
  have hops : opsOf (t ++ [(i, ⟨o, r⟩)]) = opsOf t ++ (opOf ⟨o, r⟩).toList := by
    rw [opsOf, List.filterMap_append, opsOf]
    cases hop : opOf ⟨o, r⟩ <;> simp [hop]
  have hevents : eventsOf (t ++ [(i, ⟨o, r⟩)]) = eventsOf t ++ (eventOf ⟨o, r⟩).toList := by
    rw [eventsOf, List.filterMap_append, eventsOf]
    cases hevent : eventOf ⟨o, r⟩ <;> simp [hevent]
  constructor
  · rw [hops, hevents]
    rcases hact.step with ⟨op, hop, hevent, rfl⟩ | ⟨hop, hevent, rfl⟩
    · rw [hop, hevent, Option.toList_some, Option.toList_some, run_snoc, ht.history,
        List.reverse_append]
      rfl
    · rw [hop, hevent, Option.toList_none, Option.toList_none, List.append_nil, List.append_nil,
        ht.history]
  · intro pre j k st post hsplit
    rcases Lib.Transition.snoc_eq_append_cons hsplit with ⟨rfl, hlast, -⟩ | ⟨post', -, hpast⟩
    · obtain ⟨rfl, he⟩ := Prod.mk.inj hlast
      obtain ⟨rfl, hr⟩ := Event.mk.inj he
      obtain rfl := eq_of_heq hr
      rw [ht.history]
      exact (congrArg Prod.fst hact).symm
    · exact ht.read pre j k st post' hpast

/-! ## The call of `stats` -/

/-- The events of a call of `stats` that has read the figures `sts`. -/
def reads (sts : List LRUCache.Stats) : List (ShardEvent K V) :=
  sts.mapIdx fun i st => ⟨.stats i, st⟩

omit [DecidableEq K] in
/-- `stats` reads every shard once, in order, and adds up what it reads. -/
theorem statsFrom_reads (n i : ℕ) (sts : List LRUCache.Stats) (hi : sts.length = i) :
    Prog.Sat (fun _ _ => True)
      (fun es agg => ∃ sts', es = reads sts' ∧ sts'.length = i + n ∧ agg = sts'.foldl addStats {})
      (reads sts : List (ShardEvent K V)) (statsFrom i (sts.foldl addStats {}) n) := by
  induction n generalizing i sts with
  | zero => exact ⟨sts, rfl, hi, rfl⟩
  | succ n ih =>
    refine ⟨trivial, fun st => ?_⟩
    have hnext := ih (i + 1) (sts ++ [st]) (by simp [hi])
    have hreads : (reads (sts ++ [st]) : List (ShardEvent K V)) =
        reads sts ++ [⟨.stats i, st⟩] := by
      simp [reads, List.mapIdx_append, hi]
    rw [hreads, List.foldl_append] at hnext
    refine hnext.weaken fun es agg h => ?_
    obtain ⟨sts', hes, hlen, hagg⟩ := h
    exact ⟨sts', hes, by omega, hagg⟩

omit [DecidableEq K] in
/-- `stats` reads every shard once, in order, and returns what they add up to. -/
theorem stats_body (n : ℕ) : Prog.Sat (fun _ _ => True)
    (fun (es : List (ShardEvent K V)) r => ∃ sts, es = reads sts ∧ sts.length = n ∧
      r = .counted (sts.foldl addStats {})) [] ((Call.stats : Call K V).body n) := by
  have hloop := statsFrom_reads (K := K) (V := V) n 0 [] rfl
  rw [Nat.zero_add] at hloop
  refine hloop.bind fun es agg h => ?_
  obtain ⟨sts, hes, hlen, rfl⟩ := h
  exact ⟨sts, hes, hlen, rfl⟩

/-- What `stats` adds up is, of each shard, what the calls before its own reading have made of
it. -/
theorem CallsReach.aggregate_eq {share : ℕ}
    (hshards : c.shards = List.replicate c.shards.length (LRUCache.new share))
    (h : CallsReach c p) {j : ℕ} {agg : LRUCache.Stats}
    (hj : p.threads[j]? = some (.stats, .ret (.counted agg))) :
    agg = aggregate ((List.range c.shards.length).map fun i =>
      onShard c.shardIndex share (opsOf (before j i p.trace)) i) := by
  obtain ⟨sts, hown, hlen, hagg⟩ := (stats_body c.shards.length).result
    (h.threads_run.1 j _ _ hj)
  obtain rfl : agg = sts.foldl addStats {} := by simpa using hagg
  have hsts : sts = (List.range c.shards.length).map fun i =>
      (onShard c.shardIndex share (opsOf (before j i p.trace)) i).stats := by
    refine List.ext_getElem (by simp [hlen]) fun i hi _ => ?_
    have hread : (own j p.trace)[i]? = some ⟨.stats i, sts[i]⟩ := by
      rw [hown, reads, List.getElem?_mapIdx, List.getElem?_eq_getElem hi]
      rfl
    obtain ⟨post, hpost⟩ := eq_before_append hread
    have hstat := h.tallied.read _ j i _ post hpost
    rw [(run_new hshards _ (hlen ▸ hi)).1] at hstat
    rw [hstat, List.getElem_map, List.getElem_range]
    rfl
  rw [aggregate, List.foldl_map]
  conv_lhs => rw [hsts, List.foldl_map]
  rfl

/-! ## The lookups that are counted -/

/-- Whether an operation is a lookup. -/
def isGet : Op K V → Bool
  | .get _ => true
  | _ => false

/-- The lookups in a trace. -/
def lookups (t : List (ℕ × ShardEvent K V)) : ℕ := (opsOf t).countP isGet

/-- Those of the shard `i`. -/
def lookupsIn (index : K → ℕ) (i : ℕ) (t : List (ℕ × ShardEvent K V)) : ℕ :=
  (opsOf t).countP fun op => isGet op && inShard index i op

omit [DecidableEq K] in
/-- No call of the pool resets the cache. -/
theorem reset_notMem_opsOf (t : List (ℕ × ShardEvent K V)) : .reset ∉ opsOf t := by
  intro hmem
  obtain ⟨⟨j, o, r⟩, -, ho⟩ := List.mem_filterMap.mp hmem
  cases o <;> cases ho

/-- Each lookup of a run is counted, where none is forgotten. -/
theorem gets_run (calls : LRUCache.Calls) (s : LRUCache K V) {ops : List (Op K V)}
    (hreset : .reset ∉ ops) : (calls.run s ops).gets = calls.gets + ops.countP isGet := by
  induction ops generalizing calls s with
  | nil => rfl
  | cons op ops ih =>
    rw [List.mem_cons, not_or] at hreset
    rw [LRUCache.Calls.run, ih _ _ hreset.2, List.countP_cons]
    cases op with
    | get k => simp [LRUCache.Calls.count, isGet]; omega
    | put k v =>
      simp only [LRUCache.Calls.count, isGet]
      split <;> rfl
    | erase k =>
      simp only [LRUCache.Calls.count, isGet]
      split <;> rfl
    | reset => exact absurd rfl hreset.1

/-- The hits and misses of a shard are the lookups in it. -/
theorem lookups_onShard (index : K → ℕ) (share i : ℕ) (t : List (ℕ × ShardEvent K V)) :
    (onShard index share (opsOf t) i).hits + (onShard index share (opsOf t) i).misses =
      UInt64.ofNat (lookupsIn index i t) := by
  have hreset : .reset ∉ (opsOf t).filter (inShard index i) := fun hmem =>
    reset_notMem_opsOf t (List.mem_filter.mp hmem).1
  have haccounts := LRUCache.Accounts.run (t := {}) ⟨rfl, rfl⟩ (LRUCache.new_wf share) []
    ((opsOf t).filter (inShard index i))
  rw [onShard, LRUCache.after, haccounts.lookups, gets_run _ _ hreset, List.countP_filter,
    Nat.zero_add]
  rfl

omit [DecidableEq K] in
/-- There are no fewer lookups later on. -/
theorem lookupsIn_le (index : K → ℕ) (i : ℕ) (t t' : List (ℕ × ShardEvent K V)) (h : t <+: t') :
    lookupsIn index i t ≤ lookupsIn index i t' :=
  (h.sublist.filterMap _).countP_le

omit [DecidableEq K] in
/-- Every lookup is one in its shard. -/
theorem sum_lookupsIn {index : K → ℕ} {n : ℕ} (hindex : ∀ k, index k < n)
    (t : List (ℕ × ShardEvent K V)) :
    ((List.range n).map fun i => lookupsIn index i t).sum = lookups t := by
  have hone : ∀ n k, ((List.range n).map fun i => if k = i then 1 else 0).sum =
      if k < n then 1 else 0 := by
    intro n k
    induction n with
    | zero => rfl
    | succ n ih =>
      rw [List.sum_range_succ, ih]
      rcases Nat.lt_trichotomy k n with hlt | rfl | hgt
      · simp [hlt, hlt.ne, Nat.lt_succ_of_lt hlt]
      · simp
      · simp [hgt.ne', Nat.not_lt.mpr hgt.le, show ¬k < n + 1 by omega]
  unfold lookupsIn lookups
  generalize opsOf t = ops
  induction ops with
  | nil => simp
  | cons op ops ih =>
    simp only [List.countP_cons, List.sum_map_add, ih]
    cases op with
    | get k => simp [isGet, inShard, hone, hindex k]
    | put k v => simp [isGet]
    | erase k => simp [isGet]
    | reset => simp [isGet]

/-- The lookups that `stats` counts, where each shard is as the calls `ops i` on it have made it. -/
theorem lookups_aggregate (index : K → ℕ) (share n : ℕ) (t : ℕ → List (ℕ × ShardEvent K V)) :
    let agg := aggregate ((List.range n).map fun i => onShard index share (opsOf (t i)) i)
    agg.hits + agg.misses =
      UInt64.ofNat ((List.range n).map fun i => lookupsIn index i (t i)).sum := by
  intro agg
  have hhits : agg.hits = _ :=
    (foldl_counter LRUCache.Stats.hits _ (fun _ _ => rfl) _ {}).trans (UInt64.zero_add _)
  have hmisses : agg.misses = _ :=
    (foldl_counter LRUCache.Stats.misses _ (fun _ _ => rfl) _ {}).trans (UInt64.zero_add _)
  have hsum : ∀ is : List ℕ,
      (is.map fun i => (onShard index share (opsOf (t i)) i).hits).sum +
          (is.map fun i => (onShard index share (opsOf (t i)) i).misses).sum =
        UInt64.ofNat (is.map fun i => lookupsIn index i (t i)).sum := by
    intro is
    induction is with
    | nil => rfl
    | cons i is ih =>
      have hone := lookups_onShard index share i (t i)
      simp only [List.map_cons, List.sum_cons, UInt64.ofNat_add]
      rw [← ih, ← hone]
      grind
  rw [hhits, hmisses, List.map_map, List.map_map]
  exact hsum (List.range n)

/-- The entries that `stats` counts are no more than the shards have room for. -/
theorem size_aggregate_le {index : K → ℕ} {share : ℕ} (hshare : share ≠ 0) (n : ℕ)
    (t : ℕ → List (ℕ × ShardEvent K V)) :
    (aggregate ((List.range n).map fun i => onShard index share (opsOf (t i)) i)).size ≤
      n * share := by
  obtain ⟨-, -, -, hsize⟩ :=
    foldl_stats ((List.range n).map fun i => onShard index share (opsOf (t i)) i) {}
  have hle : (((List.range n).map fun i => onShard index share (opsOf (t i)) i).map
      LRUCache.size).sum ≤ n * share := by
    rw [List.map_map]
    have hbound := List.sum_le_card_nsmul
      ((List.range n).map (LRUCache.size ∘ fun i => onShard index share (opsOf (t i)) i)) share ?_
    · rwa [List.length_map, List.length_range, nsmul_eq_mul, Nat.cast_id] at hbound
    · intro x hx
      obtain ⟨i, -, rfl⟩ := List.mem_map.mp hx
      have hroom := (LRUCache.after_wf share ((opsOf (t i)).filter (inShard index i))).length_le
      rwa [LRUCache.capacity_after, if_neg hshare] at hroom
  have hsize := hsize (by decide)
  rw [Nat.zero_add] at hsize
  exact hsize.trans_le ((Nat.mod_le _ _).trans hle)

/-- A call of `stats` among calls of other threads: the hits and misses that it counts are no fewer
than the lookups made before its first reading and no more than those made before its last, and the
entries are no more than the capacity; and its figures are those of each shard as the calls before
its own reading have made it. The calls themselves are a run of the sequential cache. -/
theorem stats_between {hasher : K → UInt64} {total num : UInt64}
    (hnew : new hasher total num = some c) (h : CallsReach c p) :
    c.run [] (opsOf p.trace) = ((eventsOf p.trace).reverse, p.shared) ∧
      ∀ j agg, p.threads[j]? = some (.stats, .ret (.counted agg)) →
        (∃ counted, agg.hits + agg.misses = UInt64.ofNat counted ∧
          lookups (before j 0 p.trace) ≤ counted ∧
          counted ≤ lookups (before j (c.shards.length - 1) p.trace)) ∧
        agg.size ≤ c.capacity ∧
        agg = aggregate ((List.range c.shards.length).map fun i =>
          onShard c.shardIndex (perShard total.toNat c.shards.length)
            (opsOf (before j i p.trace)) i) := by
  obtain ⟨hlen, -, -, hshards⟩ := new_spec hnew
  refine ⟨h.tallied.history, fun j agg hj => ?_⟩
  have hagg := h.aggregate_eq hshards hj
  have hshare : perShard total.toNat c.shards.length ≠ 0 := by
    unfold perShard
    omega
  obtain ⟨hcapacity, -, -⟩ :=
    held_le_capacity hshare (mul_perShard_lt total.toNat_lt hlen) hshards ([] : List (Op K V))
  obtain ⟨hfirst, hlast⟩ := sum_before_between (lookupsIn_le c.shardIndex) j c.shards.length p.trace
  rw [sum_lookupsIn c.shardIndex_lt] at hfirst hlast
  refine ⟨⟨_, ?_, hfirst, hlast⟩, ?_, hagg⟩
  · rw [hagg]
    exact lookups_aggregate c.shardIndex _ c.shards.length fun i => before j i p.trace
  · rw [hagg]
    exact (size_aggregate_le hshare c.shards.length fun i => before j i p.trace).trans_eq
      hcapacity.symm

/-- Between the two readings of `stats` a lookup in each of two shards: that in the second alone is
counted. -/
theorem stats_between_two_lookups :
    ∃ (c : ShardedLRUCache ℕ Char)
      (p : Pool (ShardOp.Answer (K := ℕ) (V := Char)) (Call ℕ Char) (Returned Char)
        (ShardedLRUCache ℕ Char)) (agg : LRUCache.Stats),
      CallsReach c p ∧ p.threads[0]? = some (.stats, .ret (.counted agg)) ∧ agg.misses = 1 ∧
        lookups p.trace = 2 ∧
        ∃ counted, agg.hits + agg.misses = UInt64.ofNat counted ∧
          lookups (before 0 0 p.trace) ≤ counted ∧
          counted ≤ lookups (before 0 (c.shards.length - 1) p.trace) := by
  let c : ShardedLRUCache ℕ Char := (new UInt64.ofNat 4 2).get (by decide)
  have hnew : new UInt64.ofNat 4 2 = some c := (Option.some_get _).symm
  have h₀ : CallsReach c { shared := c } := .refl
  have h₁ := h₀.tail (.start _ .stats)
  have h₂ := h₁.tail (.perform (i := 0) rfl rfl)
  have h₃ := h₂.tail (.start _ (.get 0))
  have h₄ := h₃.tail (.perform (i := 1) rfl rfl)
  have h₅ := h₄.tail (.start _ (.get 2))
  have h₆ := h₅.tail (.perform (i := 2) rfl rfl)
  have h₇ := h₆.tail (.perform (i := 0) rfl rfl)
  exact ⟨c, _, _, h₇, rfl, by decide +kernel, by decide +kernel,
    ((stats_between hnew h₇).2 0 _ rfl).1⟩

end ForwardProxy.ShardedLRUCache
