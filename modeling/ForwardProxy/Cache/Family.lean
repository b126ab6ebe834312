import Mathlib.Algebra.Order.BigOperators.Group.List
import Mathlib.Algebra.Order.Ring.Nat
import ForwardProxy.Cache.RoundUp

/-!
# The shards are independent caches

What a `ShardedLRUCache` does is what each of its shards does on its own: a shard is at every point
the `LRUCache` that comes of the operations on its own keys, and the operations return what that
cache returns (`run_shard`). So no operation on a key of another shard is seen in it.
-/

namespace ForwardProxy.ShardedLRUCache

open Lib.Recency (Op Event latestPut)

variable {K V : Type} [DecidableEq K]

/-- One operation, and the event it is. -/
def step (c : ShardedLRUCache K V) : Op K V → Event K V × ShardedLRUCache K V
  | .get k => (.get k (c.get k).1, (c.get k).2)
  | .put k v => (.put k v, c.put k v)
  | .erase k => (.erase k (c.erase k).1, (c.erase k).2)
  | .reset => (.reset, c.reset)

/-- A sequence of operations, with the history that they add to `h`, the latest event first. -/
def run (c : ShardedLRUCache K V) (h : List (Event K V)) : List (Op K V) →
    List (Event K V) × ShardedLRUCache K V
  | [] => (h, c)
  | op :: ops => (c.step op).2.run ((c.step op).1 :: h) ops

/-- The operations that shard `i` sees: those on its keys, and `reset`. -/
def inShard (index : K → ℕ) (i : ℕ) : Op K V → Bool
  | .get k => index k = i
  | .put k _ => index k = i
  | .erase k => index k = i
  | .reset => true

/-- The events of those operations. -/
def eventInShard (index : K → ℕ) (i : ℕ) : Event K V → Bool
  | .get k _ => index k = i
  | .put k _ => index k = i
  | .erase k _ => index k = i
  | .reset => true

/-! ## One shard -/

section Shard

variable {c : ShardedLRUCache K V} {i : ℕ} {s : LRUCache K V}

omit [DecidableEq K] in
/-- A key is routed to its shard by `shardFor`. -/
theorem getElem?_shardIndex (c : ShardedLRUCache K V) (k : K) :
    c.shards[c.shardIndex k]? = some (c.shardFor k) :=
  List.getElem?_eq_getElem (c.shardIndex_lt k)

omit [DecidableEq K] in
/-- The shard of a key that is set is the one that is read. -/
theorem getElem?_setShard_self (c : ShardedLRUCache K V) (k : K) (t : LRUCache K V) :
    (c.setShard k t).shards[c.shardIndex k]? = some t :=
  List.getElem?_set_self (c.shardIndex_lt k)

omit [DecidableEq K] in
/-- The other shards stay as they are. -/
theorem getElem?_setShard_ne {k : K} (h : c.shardIndex k ≠ i) (t : LRUCache K V) :
    (c.setShard k t).shards[i]? = c.shards[i]? :=
  List.getElem?_set_ne h

/-- No operation changes which shard a key is in. -/
theorem shardIndex_step (c : ShardedLRUCache K V) (op : Op K V) :
    (c.step op).2.shardIndex = c.shardIndex := by
  cases op <;> rfl

/-- An event is in the shard that its operation is in. -/
theorem eventInShard_step (c : ShardedLRUCache K V) (index : K → ℕ) (i : ℕ) (op : Op K V) :
    eventInShard index i (c.step op).1 = inShard index i op := by
  cases op <;> rfl

/-- An operation that the shard does not see leaves it as it is. -/
theorem step_other {op : Op K V} (h : inShard c.shardIndex i op = false) :
    (c.step op).2.shards[i]? = c.shards[i]? := by
  cases op with
  | get k => exact getElem?_setShard_ne (by simpa [inShard] using h) _
  | put k v => exact getElem?_setShard_ne (by simpa [inShard] using h) _
  | erase k => exact getElem?_setShard_ne (by simpa [inShard] using h) _
  | reset => simp [inShard] at h

/-- An operation that the shard sees is one of the shard, with the same event. -/
theorem step_shard (hs : c.shards[i]? = some s) {op : Op K V}
    (h : inShard c.shardIndex i op = true) :
    (c.step op).1 = (s.step op).1 ∧ (c.step op).2.shards[i]? = some (s.step op).2 := by
  -- The shard that the key is routed to is `s`.
  have hfor : ∀ k, c.shardIndex k = i → c.shardFor k = s := by
    rintro k rfl
    rw [getElem?_shardIndex] at hs
    exact Option.some.inj hs
  cases op with
  | get k =>
    have hk : c.shardIndex k = i := by simpa [inShard] using h
    have hset := getElem?_setShard_self c k ((c.shardFor k).get k).2
    rw [hk, hfor k hk] at hset
    refine ⟨?_, by simpa only [step, get, LRUCache.step, hfor k hk] using hset⟩
    simp only [step, get, LRUCache.step, hfor k hk]
  | put k v =>
    have hk : c.shardIndex k = i := by simpa [inShard] using h
    have hset := getElem?_setShard_self c k ((c.shardFor k).put k v)
    rw [hk, hfor k hk] at hset
    exact ⟨rfl, by simpa only [step, put, LRUCache.step, hfor k hk] using hset⟩
  | erase k =>
    have hk : c.shardIndex k = i := by simpa [inShard] using h
    have hset := getElem?_setShard_self c k ((c.shardFor k).erase k).2
    rw [hk, hfor k hk] at hset
    refine ⟨?_, by simpa only [step, erase, LRUCache.step, hfor k hk] using hset⟩
    simp only [step, erase, LRUCache.step, hfor k hk]
  | reset =>
    refine ⟨rfl, ?_⟩
    show (c.shards.map LRUCache.reset)[i]? = _
    rw [List.getElem?_map, hs]
    rfl

/-- A run of the cache is, in each shard, the run of the operations that the shard sees. -/
theorem run_shard (hs : c.shards[i]? = some s) (h : List (Event K V)) (ops : List (Op K V)) :
    (c.run h ops).2.shards[i]? =
        some (s.run (h.filter (eventInShard c.shardIndex i))
          (ops.filter (inShard c.shardIndex i))).2 ∧
      (c.run h ops).1.filter (eventInShard c.shardIndex i) =
        (s.run (h.filter (eventInShard c.shardIndex i))
          (ops.filter (inShard c.shardIndex i))).1 := by
  induction ops generalizing c s h with
  | nil => exact ⟨hs, rfl⟩
  | cons op ops ih =>
    cases hop : inShard c.shardIndex i op with
    | true =>
      obtain ⟨hevent, hshard⟩ := step_shard hs hop
      have hrest := ih hshard ((c.step op).1 :: h)
      rw [shardIndex_step, List.filter_cons_of_pos (by rw [eventInShard_step]; exact hop)] at hrest
      rw [run, List.filter_cons_of_pos hop, LRUCache.run, ← hevent]
      exact hrest
    | false =>
      have hrest := ih ((step_other hop).trans hs) ((c.step op).1 :: h)
      rw [shardIndex_step, List.filter_cons_of_neg (by rw [eventInShard_step, hop]; simp)] at hrest
      rw [run, List.filter_cons_of_neg (by simp [hop])]
      exact hrest

/-- A run does not change where the keys belong. -/
theorem shardIndex_run (c : ShardedLRUCache K V) (h : List (Event K V)) (ops : List (Op K V)) :
    (c.run h ops).2.shardIndex = c.shardIndex := by
  induction ops generalizing c h with
  | nil => rfl
  | cons op ops ih => exact (ih _ _).trans (shardIndex_step c op)

/-- A run does not change the number of shards. -/
theorem length_run (c : ShardedLRUCache K V) (h : List (Event K V)) (ops : List (Op K V)) :
    (c.run h ops).2.shards.length = c.shards.length := by
  induction ops generalizing c h with
  | nil => rfl
  | cons op ops ih =>
    refine (ih _ _).trans ?_
    cases op with
    | get k => exact List.length_set
    | put k v => exact List.length_set
    | erase k => exact List.length_set
    | reset => exact List.length_map _

end Shard

/-! ## The sums over the shards -/

omit [DecidableEq K] in
/-- What the loop of `stats` comes to from `agg`. -/
theorem foldl_stats (shards : List (LRUCache K V)) (agg : LRUCache.Stats) :
    let r := shards.foldl (fun agg s =>
      let st := s.stats
      { hits := agg.hits + st.hits
        misses := agg.misses + st.misses
        evictions := agg.evictions + st.evictions
        size := (agg.size + st.size) % 2^64 : LRUCache.Stats }) agg
    r.hits.toNat = (agg.hits.toNat + (shards.map fun s => s.hits.toNat).sum) % 2^64 ∧
      r.misses.toNat = (agg.misses.toNat + (shards.map fun s => s.misses.toNat).sum) % 2^64 ∧
      r.evictions.toNat =
        (agg.evictions.toNat + (shards.map fun s => s.evictions.toNat).sum) % 2^64 ∧
      (agg.size < 2^64 → r.size = (agg.size + (shards.map LRUCache.size).sum) % 2^64) := by
  induction shards generalizing agg with
  | nil =>
    refine ⟨?_, ?_, ?_, fun hsize => ?_⟩
    · simp [Nat.mod_eq_of_lt agg.hits.toNat_lt]
    · simp [Nat.mod_eq_of_lt agg.misses.toNat_lt]
    · simp [Nat.mod_eq_of_lt agg.evictions.toNat_lt]
    · exact (Nat.mod_eq_of_lt hsize).symm
  | cons s shards ih =>
    obtain ⟨hhits, hmisses, hevictions, hsize⟩ := ih {
      hits := agg.hits + s.stats.hits
      misses := agg.misses + s.stats.misses
      evictions := agg.evictions + s.stats.evictions
      size := (agg.size + s.stats.size) % 2^64 }
    rw [UInt64.toNat_add] at hhits hmisses hevictions
    have hlt : (agg.size + s.stats.size) % 2^64 < 2^64 := Nat.mod_lt _ (by omega)
    have hsize := hsize hlt
    simp only [LRUCache.stats] at hhits hmisses hevictions hsize
    simp only [List.foldl_cons, List.map_cons, List.sum_cons, LRUCache.stats]
    refine ⟨?_, ?_, ?_, fun _ => ?_⟩
    · rw [hhits]; omega
    · rw [hmisses]; omega
    · rw [hevictions]; omega
    · rw [hsize]; omega

omit [DecidableEq K] in
/-- The statistics are the sums over the shards, as 64-bit words. -/
theorem stats_eq (c : ShardedLRUCache K V) :
    c.stats.hits.toNat = (c.shards.map fun s => s.hits.toNat).sum % 2^64 ∧
      c.stats.misses.toNat = (c.shards.map fun s => s.misses.toNat).sum % 2^64 ∧
      c.stats.evictions.toNat = (c.shards.map fun s => s.evictions.toNat).sum % 2^64 ∧
      c.stats.size = (c.shards.map LRUCache.size).sum % 2^64 := by
  obtain ⟨hhits, hmisses, hevictions, hsize⟩ := foldl_stats c.shards {}
  have hsize := hsize (by decide)
  simp only [UInt64.toNat_zero, Nat.zero_add] at hhits hmisses hevictions hsize
  exact ⟨hhits, hmisses, hevictions, hsize⟩

/-! ## The whole cache -/

/-- A value put is that of a `put` in the history. -/
theorem put_mem_of_latestPut {k : K} {v : V} {h : List (Event K V)}
    (hput : latestPut k h = some v) : Event.put k v ∈ h := by
  induction h with
  | nil => cases hput
  | cons e h ih =>
    cases e with
    | get j r => exact List.mem_cons_of_mem _ (ih hput)
    | put j w =>
      rw [latestPut] at hput
      split at hput
      · rename_i hj
        cases hput
        subst hj
        exact List.mem_cons_self
      · exact List.mem_cons_of_mem _ (ih hput)
    | erase j b =>
      rw [latestPut] at hput
      split at hput
      · cases hput
      · exact List.mem_cons_of_mem _ (ih hput)
    | reset => cases hput

/-- The `LRUCache` of capacity `cap` that sees only what shard `i` sees of `ops`. -/
def onShard (index : K → ℕ) (cap : ℕ) (ops : List (Op K V)) (i : ℕ) : LRUCache K V :=
  LRUCache.after cap (ops.filter (inShard index i))

/-- The capacities of the shards add up to no more than a word holds. -/
theorem mul_perShard_lt {total n : ℕ} (htotal : total < 2^64) (hn : n ≤ 2^59) :
    n * perShard total n < 2^64 := by
  unfold perShard
  rcases Nat.le_total (total / n) 1 with h | h
  · rw [Nat.max_eq_left h]
    omega
  · rw [Nat.max_eq_right h]
    exact (Nat.mul_div_le total n).trans_lt htotal

section New

variable {c : ShardedLRUCache K V} {cap : ℕ}
  (hshards : c.shards = List.replicate c.shards.length (LRUCache.new cap)) (ops : List (Op K V))
include hshards

/-- Every shard starts as the same empty cache, and is run on what it sees. -/
theorem run_new {i : ℕ} (hi : i < c.shards.length) :
    (c.run [] ops).2.shards[i]? = some (onShard c.shardIndex cap ops i) ∧
      (c.run [] ops).1.filter (eventInShard c.shardIndex i) =
        LRUCache.history cap (ops.filter (inShard c.shardIndex i)) := by
  have hstart : c.shards[i]? = some (LRUCache.new cap) := by
    rw [hshards, List.getElem?_replicate, if_pos hi]
  exact run_shard hstart [] ops

/-- After a run of a new cache each shard has seen its own operations. -/
theorem shards_run : (c.run [] ops).2.shards =
    (List.range c.shards.length).map (onShard c.shardIndex cap ops) := by
  have hlength := length_run c [] ops
  apply List.ext_getElem?
  intro i
  rcases Nat.lt_or_ge i c.shards.length with hi | hi
  · rw [(run_new hshards ops hi).1, List.getElem?_map, List.getElem?_range hi]
    rfl
  · rw [List.getElem?_eq_none (hlength ▸ hi), List.getElem?_eq_none (by simpa using hi)]

/-- A key of a shard was put there, so it is one of the keys that the shard sees. -/
theorem shardIndex_of_mem {i : ℕ} {s : LRUCache K V} (hs : (c.run [] ops).2.shards[i]? = some s)
    {m : Node K V} (hm : m ∈ s.items) : c.shardIndex m.key = i := by
  have hi : i < c.shards.length := by
    by_contra hge
    have hlength := length_run c [] ops
    rw [List.getElem?_eq_none (by omega)] at hs
    cases hs
  obtain ⟨hshard, hevents⟩ := run_new hshards ops hi
  obtain rfl : onShard c.shardIndex cap ops i = s := Option.some.inj (hshard.symm.trans hs)
  have htracks := LRUCache.tracks_after cap (ops.filter (inShard c.shardIndex i))
  have hmem := put_mem_of_latestPut (htracks.value m.key m.value (List.mem_map_of_mem hm))
  rw [← hevents] at hmem
  simpa [eventInShard] using (List.mem_filter.mp hmem).2

/-- After a run every shard has its capacity, and holds no more. -/
theorem shard_bounded (hcap : cap ≠ 0) {s : LRUCache K V} (hs : s ∈ (c.run [] ops).2.shards) :
    s.capacity = cap ∧ s.size ≤ cap := by
  rw [shards_run hshards ops] at hs
  obtain ⟨i, -, rfl⟩ := List.mem_map.mp hs
  have hcapacity := LRUCache.capacity_after cap (ops.filter (inShard c.shardIndex i))
  have hle := (LRUCache.after_wf cap (ops.filter (inShard c.shardIndex i))).length_le
  rw [if_neg hcap] at hcapacity
  rw [hcapacity] at hle
  exact ⟨hcapacity, hle⟩

/-- The sizes of the shards add up to no more than their capacities. -/
theorem sum_size_le (hcap : cap ≠ 0) :
    ((c.run [] ops).2.shards.map LRUCache.size).sum ≤ c.shards.length * cap := by
  have hle : ((c.run [] ops).2.shards.map LRUCache.size).sum ≤
      ((c.run [] ops).2.shards.map LRUCache.size).length • cap := by
    apply List.sum_le_card_nsmul
    intro x hx
    obtain ⟨s, hs, rfl⟩ := List.mem_map.mp hx
    exact (shard_bounded hshards ops hcap hs).2
  rwa [List.length_map, length_run, nsmul_eq_mul, Nat.cast_id] at hle

/-- A single shard sees every operation. -/
theorem run_one_shard (hone : c.shards.length = 1) :
    (c.run [] ops).1 = LRUCache.history cap ops ∧
      (c.run [] ops).2.shards = [LRUCache.after cap ops] := by
  have hindex : ∀ k, c.shardIndex k = 0 := by
    intro k
    have := c.shardIndex_lt k
    omega
  have hops : ops.filter (inShard c.shardIndex 0) = ops := by
    apply List.filter_eq_self.mpr
    intro op _
    cases op <;> simp [inShard, hindex]
  have hevents : (c.run [] ops).1.filter (eventInShard c.shardIndex 0) = (c.run [] ops).1 := by
    apply List.filter_eq_self.mpr
    intro e _
    cases e <;> simp [eventInShard, hindex]
  have hhistory := (run_new hshards ops (i := 0) (by omega)).2
  rw [hevents, hops] at hhistory
  refine ⟨hhistory, ?_⟩
  rw [shards_run hshards ops, hone, List.range_one, List.map_singleton, onShard, hops]

end New

/-- A cache is made exactly up to `2^59` shards, and its shards are independent: after every run
each shard is the `LRUCache` of capacity `max 1 (total / n)` that sees only the operations on keys
of the shard, and the results of these operations are those that it returns. So an operation on a
key of another shard changes nothing in it, a key is only ever in its own shard, the statistics are
the sums over the shards, and a single shard is the `LRUCache` of the whole capacity. -/
theorem shards_independent (hasher : K → UInt64) (total num : UInt64) :
    ((∃ c : ShardedLRUCache K V, new hasher total num = some c) ↔ num.toNat ≤ 2^59) ∧
    ∀ c : ShardedLRUCache K V, new hasher total num = some c →
      (∀ k, c.shardIndex k < c.shards.length) ∧ (num.toNat ≤ 1 → c.shards.length = 1) ∧
      ∀ ops : List (Op K V),
        let n := c.shards.length
        let shard := onShard c.shardIndex (perShard total.toNat n) ops
        let d := (c.run [] ops).2
        d.shards = (List.range n).map shard ∧
          (∀ i < n, (c.run [] ops).1.filter (eventInShard c.shardIndex i) =
            LRUCache.history (perShard total.toNat n) (ops.filter (inShard c.shardIndex i))) ∧
          (∀ i op, inShard c.shardIndex i op = false → (d.step op).2.shards[i]? = d.shards[i]?) ∧
          (∀ i s, d.shards[i]? = some s → ∀ m ∈ s.items, c.shardIndex m.key = i) ∧
          d.stats.hits.toNat = ((List.range n).map fun i => (shard i).hits.toNat).sum % 2^64 ∧
          d.stats.misses.toNat = ((List.range n).map fun i => (shard i).misses.toNat).sum % 2^64 ∧
          d.stats.evictions.toNat =
            ((List.range n).map fun i => (shard i).evictions.toNat).sum % 2^64 ∧
          d.size = ((List.range n).map fun i => (shard i).size).sum ∧
          (n = 1 → (c.run [] ops).1 = LRUCache.history total.toNat ops ∧
            d.stats = (LRUCache.after total.toNat ops).stats) := by
  refine ⟨exists_new_iff hasher total num, fun c hnew => ?_⟩
  obtain ⟨hlen, hleast, -, hshards⟩ := new_spec hnew
  refine ⟨c.shardIndex_lt, fun hle => ?_, fun ops => ?_⟩
  · have hone : c.shards.length ≤ 1 := hleast.2 ⟨⟨0, rfl⟩, by omega⟩
    have := hleast.1.2
    omega
  intro n shard d
  have hmap : d.shards = (List.range n).map shard := shards_run hshards ops
  have hpos : perShard total.toNat n ≠ 0 := by
    unfold perShard
    omega
  have hbound := (sum_size_le hshards ops hpos).trans_lt (mul_perShard_lt total.toNat_lt hlen)
  obtain ⟨hhits, hmisses, hevictions, hsize⟩ := stats_eq d
  rw [Nat.mod_eq_of_lt hbound] at hsize
  refine ⟨hmap, fun i hi => (run_new hshards ops hi).2, fun i op hop => ?_,
    fun i s hs m hm => shardIndex_of_mem hshards ops hs hm, ?_, ?_, ?_, ?_, fun hn => ?_⟩
  · exact step_other (by rwa [shardIndex_run])
  · rw [hhits, hmap, List.map_map]
    rfl
  · rw [hmisses, hmap, List.map_map]
    rfl
  · rw [hevictions, hmap, List.map_map]
    rfl
  · show d.stats.size = _
    rw [hsize, hmap, List.map_map]
    rfl
  · obtain ⟨hhistory, hshard⟩ := run_one_shard hshards ops hn
    -- The one shard has the whole capacity, and zero counts as one there too.
    have hcapacity : (LRUCache.new (perShard total.toNat n) : LRUCache K V) =
        LRUCache.new total.toNat := by
      rw [hn, perShard, Nat.div_one, LRUCache.new, LRUCache.new]
      congr 1
      split <;> split <;> omega
    have hafter : LRUCache.after (perShard total.toNat n) ops = LRUCache.after total.toNat ops := by
      rw [LRUCache.after, LRUCache.after, hcapacity]
    have hsingle : d.shards = [LRUCache.after total.toNat ops] := hshard.trans (by rw [hafter])
    refine ⟨?_, ?_⟩
    · rw [hhistory, LRUCache.history, LRUCache.history, hcapacity]
    · rw [hsingle] at hhits hmisses hevictions hsize
      simp only [List.map_cons, List.map_nil, List.sum_cons, List.sum_nil, Nat.add_zero]
        at hhits hmisses hevictions hsize
      rw [Nat.mod_eq_of_lt (UInt64.toNat_lt _)] at hhits hmisses hevictions
      exact LRUCache.Stats.ext (UInt64.toNat_inj.mp hhits) (UInt64.toNat_inj.mp hmisses)
        (UInt64.toNat_inj.mp hevictions) hsize

/-- Sixteen shards, with a hash that tells no keys apart. -/
theorem sixteen_shards_independent :
    ∃ c : ShardedLRUCache ℕ ℕ, new (fun _ => 7) 2000 16 = some c ∧
      ∀ ops, (c.run [] ops).2.shards =
        (List.range c.shards.length).map
          (onShard c.shardIndex (perShard 2000 c.shards.length) ops) := by
  obtain ⟨hmade, hall⟩ := shards_independent (V := ℕ) (fun _ : ℕ => 7) (2000 : UInt64) 16
  obtain ⟨c, hnew⟩ := hmade.mpr (by decide)
  exact ⟨c, hnew, fun ops => ((hall c hnew).2.2 ops).1⟩

end ForwardProxy.ShardedLRUCache
