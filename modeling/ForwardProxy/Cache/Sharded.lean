import Mathlib.Algebra.Ring.Nat
import Mathlib.Data.UInt
import ForwardProxy.Cache.History

/-!
# The sharded cache

`ShardedLRUCache` of `lru_cache.hpp`: a power of two of `LRUCache`s, of which a mix of the hash of a
key picks one. `std::hash` is a parameter. What a shard holds was put there (`holds_put`), and a
value that `get` returns is held (`holds_of_get`).
-/

namespace ForwardProxy

/-- `ShardedLRUCache`. -/
structure ShardedLRUCache (K V : Type) where
  shards : List (LRUCache K V)
  shardMask : UInt64
  hasher : K → UInt64
  /-- Every masked hash is the index of a shard. -/
  mask_lt : shardMask.toNat < shards.length

namespace ShardedLRUCache

variable {K V : Type} [DecidableEq K]

/-- The loop of `round_up_pow2` from `p`. Once `p` is shifted out to zero it stays so, so a loop of
more turns than a word has bits does not end. -/
def roundUpLoop : ℕ → UInt64 → UInt64 → Option UInt64
  | 0, _, _ => none
  | fuel + 1, n, p => if p < n then roundUpLoop fuel n (p <<< 1) else some p

/-- `round_up_pow2`. -/
def roundUpPow2 (n : UInt64) : Option UInt64 := roundUpLoop 66 n 1

/-- What the loop ends with is not below its argument. -/
theorem le_of_roundUpLoop {fuel : ℕ} {n p r : UInt64} (h : roundUpLoop fuel n p = some r) :
    n ≤ r := by
  induction fuel generalizing p with
  | zero => cases h
  | succ fuel ih =>
    rw [roundUpLoop] at h
    split at h
    · exact ih h
    · rename_i hp
      cases h
      exact UInt64.not_lt.mp hp

/-- The number of shards is not zero, so the mask that is one less is below it. -/
theorem pred_lt_of_roundUpPow2 {num n : UInt64}
    (h : roundUpPow2 (if num = 0 then 1 else num) = some n) : (n - 1).toNat < n.toNat := by
  have hle := UInt64.le_iff_toNat_le.mp (le_of_roundUpLoop h)
  have hpos : 0 < (if num = 0 then (1 : UInt64) else num).toNat := by
    split
    · decide
    · rename_i hnum
      exact Nat.pos_of_ne_zero fun h0 => hnum (UInt64.toNat_inj.mp h0)
  -- The subtraction does not wrap.
  rw [UInt64.toNat_sub_of_le _ _ (UInt64.le_iff_toNat_le.mpr (by rw [UInt64.toNat_one]; omega)),
    UInt64.toNat_one]
  omega

/-- `max_size()` of a vector of pointers, whose bytes a `ptrdiff_t` has to count. -/
def maxShards : ℕ := (2^63 - 1) / 8

/-- The capacity is split evenly. `none` is a constructor that does not return: its rounding does
not end, or `reserve` throws a `length_error`. -/
def new (hasher : K → UInt64) (totalCapacity numShards : UInt64) : Option (ShardedLRUCache K V) :=
  match h : roundUpPow2 (if numShards = 0 then 1 else numShards) with
  | none => none
  | some n =>
    let perShard := if totalCapacity / n = 0 then 1 else totalCapacity / n
    if maxShards < n.toNat then none
    else
      some {
        shards := List.replicate n.toNat (LRUCache.new perShard.toNat)
        shardMask := n - 1
        hasher := hasher
        mask_lt := by rw [List.length_replicate]; exact pred_lt_of_roundUpPow2 h }

omit [DecidableEq K] in
/-- The shards of a new cache are alike and new. -/
theorem shards_of_new {hasher : K → UInt64} {totalCapacity numShards : UInt64}
    {c : ShardedLRUCache K V} (h : new hasher totalCapacity numShards = some c) :
    ∃ n share, c.shards = List.replicate n (LRUCache.new share) := by
  unfold new at h
  split at h
  · cases h
  · obtain ⟨-, h⟩ := Option.ite_none_left_eq_some.mp h
    cases h
    exact ⟨_, _, rfl⟩

/-- The mixing step, for hashes that are the identity. -/
def mix (h : UInt64) : UInt64 :=
  let h := h ^^^ (h >>> 33)
  let h := h * 0xff51afd7ed558ccd
  h ^^^ (h >>> 33)

/-- Below a number that the mask is below, every masked hash is. -/
theorem masked_lt {mask : UInt64} {n : ℕ} (hmask : mask.toNat < n) (h : UInt64) :
    (h &&& mask).toNat < n := by
  have hle : (h &&& mask).toNat ≤ mask.toNat := by
    rw [UInt64.toNat_and]
    exact Nat.and_le_right
  exact hle.trans_lt hmask

/-- The index that `shard_for` selects a shard by. -/
def shardIndex (c : ShardedLRUCache K V) (key : K) : ℕ := (mix (c.hasher key) &&& c.shardMask).toNat

omit [DecidableEq K] in
/-- The index is that of a shard. -/
theorem shardIndex_lt (c : ShardedLRUCache K V) (key : K) : c.shardIndex key < c.shards.length :=
  masked_lt c.mask_lt _

/-- `shard_for`. -/
def shardFor (c : ShardedLRUCache K V) (key : K) : LRUCache K V :=
  c.shards.get ⟨c.shardIndex key, c.shardIndex_lt key⟩

/-- The cache with `s` in place of the shard of `key`. -/
def setShard (c : ShardedLRUCache K V) (key : K) (s : LRUCache K V) : ShardedLRUCache K V :=
  { c with
    shards := c.shards.set (c.shardIndex key) s
    mask_lt := by rw [List.length_set]; exact c.mask_lt }

/-- `get`. -/
def get (c : ShardedLRUCache K V) (key : K) : Option V × ShardedLRUCache K V :=
  let (v, s) := (c.shardFor key).get key
  (v, c.setShard key s)

/-- `put`. -/
def put (c : ShardedLRUCache K V) (key : K) (value : V) : ShardedLRUCache K V :=
  c.setShard key ((c.shardFor key).put key value)

/-- `erase`. -/
def erase (c : ShardedLRUCache K V) (key : K) : Bool × ShardedLRUCache K V :=
  let (b, s) := (c.shardFor key).erase key
  (b, c.setShard key s)

/-- `reset`. -/
def reset (c : ShardedLRUCache K V) : ShardedLRUCache K V :=
  { c with
    shards := c.shards.map LRUCache.reset
    mask_lt := by rw [List.length_map]; exact c.mask_lt }

/-- The loop of `stats` over the shards. Counters and sizes are 64-bit words. -/
def aggregate (shards : List (LRUCache K V)) : LRUCache.Stats :=
  shards.foldl (fun agg s =>
    let st := s.stats
    { hits := agg.hits + st.hits
      misses := agg.misses + st.misses
      evictions := agg.evictions + st.evictions
      size := (agg.size + st.size) % 2^64 }) {}

/-- `stats`. -/
def stats (c : ShardedLRUCache K V) : LRUCache.Stats := aggregate c.shards

/-- `size`. -/
def size (c : ShardedLRUCache K V) : ℕ := c.stats.size

/-! ## What the shards hold -/

/-- Every shard is in good order. -/
def Wf (c : ShardedLRUCache K V) : Prop := ∀ s ∈ c.shards, s.Wf

/-- Some shard has the entry. -/
def Holds (c : ShardedLRUCache K V) (key : K) (value : V) : Prop :=
  ∃ s ∈ c.shards, (key, value) ∈ s.entries

omit [DecidableEq K] in
/-- The shard of a key is one of the shards. -/
theorem shardFor_mem (c : ShardedLRUCache K V) (key : K) : c.shardFor key ∈ c.shards :=
  List.get_mem _ _

omit [DecidableEq K] in
/-- A shard of `setShard` is the new one or was there before. -/
theorem mem_setShard {c : ShardedLRUCache K V} {key : K} {s t : LRUCache K V}
    (h : t ∈ (c.setShard key s).shards) : t = s ∨ t ∈ c.shards :=
  (List.mem_or_eq_of_mem_set h).symm

/-- A well-formed shard in place of another keeps the cache well formed. -/
theorem wf_setShard {c : ShardedLRUCache K V} (h : c.Wf) {key : K} {s : LRUCache K V} (hs : s.Wf) :
    (c.setShard key s).Wf := by
  intro t ht
  rcases mem_setShard ht with rfl | ht
  · exact hs
  · exact h t ht

/-- `get` keeps a cache well formed. -/
theorem get_wf {c : ShardedLRUCache K V} (h : c.Wf) (key : K) : (c.get key).2.Wf :=
  wf_setShard h (LRUCache.get_wf (h _ (c.shardFor_mem key)) key)

/-- `put` keeps a cache well formed. -/
theorem put_wf {c : ShardedLRUCache K V} (h : c.Wf) (key : K) (value : V) : (c.put key value).Wf :=
  wf_setShard h (LRUCache.put_wf (h _ (c.shardFor_mem key)) key value)

/-- A value that `get` returns is held. -/
theorem holds_of_get {c : ShardedLRUCache K V} (h : c.Wf) {key : K} {value : V}
    (hget : (c.get key).1 = some value) : c.Holds key value := by
  have hs := h _ (c.shardFor_mem key)
  have hlookup : (c.shardFor key).entries.lookup key = some value :=
    (LRUCache.fst_get hs key).symm.trans hget
  exact ⟨_, c.shardFor_mem key, Lib.Recency.mem_of_lookup hlookup⟩

/-- `get` puts nothing into the cache. -/
theorem holds_get {c : ShardedLRUCache K V} (h : c.Wf) {key key' : K} {value : V}
    (hheld : (c.get key).2.Holds key' value) : c.Holds key' value := by
  obtain ⟨s, hs, hmem⟩ := hheld
  -- Only the shard of the key changes, and a lookup only moves an entry of it.
  rcases mem_setShard (s := ((c.shardFor key).get key).2) hs with rfl | hs
  · refine ⟨_, c.shardFor_mem key, ?_⟩
    have hwf := h _ (c.shardFor_mem key)
    have hentries : ((c.shardFor key).get key).2.entries =
        Lib.Recency.touch key (c.shardFor key).entries :=
      congrArg Lib.Recency.Lru.entries (LRUCache.abs_get hwf key)
    rw [hentries] at hmem
    exact Lib.Recency.mem_touch hmem
  · exact ⟨s, hs, hmem⟩

/-- What the cache holds after a `put` is the entry put or was held before. -/
theorem holds_put {c : ShardedLRUCache K V} (h : c.Wf) {key key' : K} {value value' : V}
    (hheld : (c.put key value).Holds key' value') :
    key' = key ∧ value' = value ∨ c.Holds key' value' := by
  obtain ⟨s, hs, hmem⟩ := hheld
  rcases mem_setShard hs with rfl | hs
  · have hwf := h _ (c.shardFor_mem key)
    have hentries : ((c.shardFor key).put key value).entries =
        Lib.Recency.insert (c.shardFor key).capacity key value (c.shardFor key).entries :=
      congrArg Lib.Recency.Lru.entries (LRUCache.abs_put hwf key value)
    rw [hentries] at hmem
    rcases Lib.Recency.mem_insert hmem with hmem | hmem
    · exact Or.inl (Prod.mk.inj hmem)
    · exact Or.inr ⟨_, c.shardFor_mem key, hmem⟩
  · exact Or.inr ⟨s, hs, hmem⟩

/-- A new cache is in good order and holds nothing. -/
theorem new_wf {hasher : K → UInt64} {totalCapacity numShards : UInt64} {c : ShardedLRUCache K V}
    (h : new hasher totalCapacity numShards = some c) :
    c.Wf ∧ ∀ key value, ¬c.Holds key value := by
  obtain ⟨n, share, hshards⟩ := shards_of_new h
  refine ⟨fun s hs => ?_, fun key value => ?_⟩
  · rw [hshards] at hs
    rw [List.eq_of_mem_replicate hs]
    exact LRUCache.new_wf _
  · rintro ⟨s, hs, hmem⟩
    rw [hshards] at hs
    rw [List.eq_of_mem_replicate hs] at hmem
    simp [LRUCache.new, LRUCache.entries] at hmem

/-! ## The statistics -/

omit [DecidableEq K] in
/-- A counter that a loop over the shards adds up. -/
theorem foldl_counter {add : LRUCache.Stats → LRUCache K V → LRUCache.Stats}
    (counter : LRUCache.Stats → UInt64) (part : LRUCache K V → UInt64)
    (hadd : ∀ agg s, counter (add agg s) = counter agg + part s) (shards : List (LRUCache K V))
    (agg : LRUCache.Stats) :
    counter (shards.foldl add agg) = counter agg + (shards.map part).sum := by
  induction shards generalizing agg with
  | nil => exact (UInt64.add_zero _).symm
  | cons s shards ih =>
    rw [List.foldl_cons, ih, hadd, List.map_cons, List.sum_cons, UInt64.add_assoc]

/-- One of the words of a sum has grown. -/
theorem sum_set_add {l : List UInt64} {i : ℕ} {a : UInt64} (hi : l[i]? = some a) (d : UInt64) :
    (l.set i (a + d)).sum = l.sum + d := by
  induction l generalizing i with
  | nil => simp at hi
  | cons b l ih =>
    cases i with
    | zero =>
      obtain rfl : b = a := by simpa using hi
      simp only [List.set_cons_zero, List.sum_cons]
      rw [UInt64.add_assoc, UInt64.add_comm d, UInt64.add_assoc]
    | succ i =>
      simp only [List.set_cons_succ, List.sum_cons]
      rw [ih hi, UInt64.add_assoc]

omit [DecidableEq K] in
/-- The hits are those of all shards. -/
theorem hits_stats (c : ShardedLRUCache K V) :
    c.stats.hits = (c.shards.map LRUCache.hits).sum :=
  (foldl_counter LRUCache.Stats.hits _ (fun _ _ => rfl) c.shards {}).trans (UInt64.zero_add _)

omit [DecidableEq K] in
/-- The misses are those of all shards. -/
theorem misses_stats (c : ShardedLRUCache K V) :
    c.stats.misses = (c.shards.map LRUCache.misses).sum :=
  (foldl_counter LRUCache.Stats.misses _ (fun _ _ => rfl) c.shards {}).trans (UInt64.zero_add _)

omit [DecidableEq K] in
/-- A new cache has counted nothing. -/
theorem stats_new {hasher : K → UInt64} {totalCapacity numShards : UInt64} {c : ShardedLRUCache K V}
    (h : new hasher totalCapacity numShards = some c) : c.stats.hits = 0 ∧ c.stats.misses = 0 := by
  have hzero : ∀ n, (List.replicate n (0 : UInt64)).sum = 0 := by
    intro n
    induction n with
    | zero => rfl
    | succ n ih => rw [List.replicate_succ, List.sum_cons, ih, UInt64.add_zero]
  obtain ⟨n, share, hshards⟩ := shards_of_new h
  rw [hits_stats, misses_stats, hshards]
  simp only [List.map_replicate]
  exact ⟨hzero n, hzero n⟩

omit [DecidableEq K] in
/-- What is counted in a shard is counted in the statistics. -/
theorem stats_setShard {c : ShardedLRUCache K V} {key : K} {s : LRUCache K V} {hits misses : UInt64}
    (hhits : s.hits = (c.shardFor key).hits + hits)
    (hmisses : s.misses = (c.shardFor key).misses + misses) :
    (c.setShard key s).stats.hits = c.stats.hits + hits ∧
      (c.setShard key s).stats.misses = c.stats.misses + misses := by
  have hget : ∀ part : LRUCache K V → UInt64,
      (c.shards.map part)[c.shardIndex key]? = some (part (c.shardFor key)) := by
    intro part
    rw [List.getElem?_map, List.getElem?_eq_getElem (c.shardIndex_lt key)]
    rfl
  constructor
  · rw [hits_stats, hits_stats, setShard, List.map_set, hhits, sum_set_add (hget _)]
  · rw [misses_stats, misses_stats, setShard, List.map_set, hmisses, sum_set_add (hget _)]

/-- A lookup counts one hit or one miss. -/
theorem stats_get {c : ShardedLRUCache K V} (h : c.Wf) (key : K) :
    (c.get key).2.stats.hits = c.stats.hits + (if (c.get key).1.isSome then 1 else 0) ∧
      (c.get key).2.stats.misses = c.stats.misses + (if (c.get key).1.isSome then 0 else 1) := by
  obtain ⟨hhits, hmisses⟩ := LRUCache.counters_get (h _ (c.shardFor_mem key)) key
  exact stats_setShard hhits hmisses

/-- An insert counts neither. -/
theorem stats_put (c : ShardedLRUCache K V) (key : K) (value : V) :
    (c.put key value).stats.hits = c.stats.hits ∧
      (c.put key value).stats.misses = c.stats.misses := by
  obtain ⟨hhits, hmisses⟩ := LRUCache.counters_put (c.shardFor key) key value
  have hput := @stats_setShard _ _ c key ((c.shardFor key).put key value) 0 0
    (by rw [hhits, UInt64.add_zero]) (by rw [hmisses, UInt64.add_zero])
  rwa [UInt64.add_zero, UInt64.add_zero] at hput

end ShardedLRUCache

end ForwardProxy
