import ForwardProxy.Cache.Family

/-!
# The capacity of the sharded cache

The capacity that is configured is divided by the number of shards after that number was rounded up,
and a share of zero is made one. So the cache holds no more than it was configured for exactly when
there is an entry for every shard, which is when a power of two is between the two numbers
(`held_bounded`).
-/

namespace ForwardProxy.ShardedLRUCache

open Lib.Recency (Op)

variable {K V : Type} [DecidableEq K]

/-- The loop of `capacity`, in 64-bit words. -/
def capacity (c : ShardedLRUCache K V) : ℕ := c.shards.foldl (fun n s => (n + s.capacity) % 2^64) 0

/-- The number of entries that the shards hold. -/
def held (c : ShardedLRUCache K V) : ℕ := (c.shards.map LRUCache.size).sum

omit [DecidableEq K] in
/-- The capacity is the sum of those of the shards, in a word. -/
theorem capacity_eq (c : ShardedLRUCache K V) :
    c.capacity = (c.shards.map LRUCache.capacity).sum % 2^64 := by
  have hloop : ∀ (shards : List (LRUCache K V)) (n : ℕ), n < 2^64 →
      shards.foldl (fun n s => (n + s.capacity) % 2^64) n =
        (n + (shards.map LRUCache.capacity).sum) % 2^64 := by
    intro shards
    induction shards with
    | nil => exact fun n hn => (Nat.mod_eq_of_lt hn).symm
    | cons s shards ih =>
      intro n hn
      rw [List.foldl_cons, ih _ (Nat.mod_lt _ (by omega)), List.map_cons, List.sum_cons]
      omega
  rw [capacity, hloop _ 0 (by omega), Nat.zero_add]

/-- After every run of a new cache each of its shards has its share, and holds no more. -/
theorem held_le_capacity {c : ShardedLRUCache K V} {share : ℕ} (hpos : share ≠ 0)
    (hbound : c.shards.length * share < 2^64)
    (hshards : c.shards = List.replicate c.shards.length (LRUCache.new share))
    (ops : List (Op K V)) :
    (c.run [] ops).2.capacity = c.shards.length * share ∧
      (c.run [] ops).2.held ≤ c.shards.length * share ∧
      (c.run [] ops).2.size = (c.run [] ops).2.held := by
  have hconst : (c.run [] ops).2.shards.map LRUCache.capacity =
      List.replicate c.shards.length share := by
    rw [List.eq_replicate_iff, List.length_map, length_run]
    refine ⟨rfl, fun x hx => ?_⟩
    obtain ⟨s, hs, rfl⟩ := List.mem_map.mp hx
    exact (shard_bounded hshards ops hpos hs).1
  have hheld : (c.run [] ops).2.held ≤ c.shards.length * share := sum_size_le hshards ops hpos
  refine ⟨?_, hheld, ?_⟩
  · rw [capacity_eq, hconst, List.sum_replicate, nsmul_eq_mul, Nat.cast_id,
      Nat.mod_eq_of_lt hbound]
  · obtain ⟨-, -, -, hsize⟩ := stats_eq (c.run [] ops).2
    exact hsize.trans (Nat.mod_eq_of_lt (hheld.trans_lt hbound))

/-- The shares of `n` shards add up to more than what is left of the total without `n`, and to more
than the total only where there is not one entry for each. -/
theorem mul_perShard_bounds {total n : ℕ} (hn : 0 < n) :
    total < n * perShard total n + n ∧ (n ≤ total → n * perShard total n ≤ total) ∧
      (total < n → n * perShard total n = n) := by
  have hdiv := Nat.div_add_mod total n
  have hmod := Nat.mod_lt total hn
  unfold perShard
  refine ⟨?_, fun hle => ?_, fun hlt => ?_⟩
  · have : n * (total / n) ≤ n * max 1 (total / n) := Nat.mul_le_mul_left n (Nat.le_max_right _ _)
    omega
  · have hone : 1 ≤ total / n := (Nat.one_le_div_iff hn).mpr hle
    rw [Nat.max_eq_right hone]
    omega
  · rw [Nat.div_eq_of_lt hlt, Nat.max_eq_left (by omega), Nat.mul_one]

/-- A cache is made exactly up to `2^59` shards, and it never holds more than its capacity. That is
more than the total without the number of shards, at most the total or one entry for each shard, and
at most the total exactly when there are no more shards, which is when the rounding up does not go
past the total. -/
theorem held_bounded (hasher : K → UInt64) (total num : UInt64) :
    ((∃ c : ShardedLRUCache K V, new hasher total num = some c) ↔ num.toNat ≤ 2^59) ∧
    ∀ c : ShardedLRUCache K V, new hasher total num = some c →
      (c.shards.length ≤ total.toNat ↔
        ∃ m, max 1 num.toNat ≤ 2^m ∧ 2^m ≤ total.toNat) ∧
      ∀ ops : List (Op K V),
        let d := (c.run [] ops).2
        d.held ≤ d.capacity ∧ d.size = d.held ∧
          d.capacity ≤ max total.toNat c.shards.length ∧
          total.toNat < d.capacity + c.shards.length ∧
          (d.capacity ≤ total.toNat ↔ c.shards.length ≤ total.toNat) := by
  refine ⟨exists_new_iff hasher total num, fun c hnew => ?_⟩
  obtain ⟨hlen, hleast, -, hshards⟩ := new_spec hnew
  have hpos : 0 < c.shards.length := by
    have := hleast.1.2
    omega
  refine ⟨⟨fun hle => ?_, ?_⟩, fun ops => ?_⟩
  · obtain ⟨⟨m, hm⟩, hge⟩ := hleast.1
    exact ⟨m, hm ▸ hge, hm ▸ hle⟩
  · rintro ⟨m, hge, hle⟩
    exact (hleast.2 ⟨⟨m, rfl⟩, hge⟩).trans hle
  -- No share is zero, so the shards hold at most their shares, which the totals bound.
  · have hshare : perShard total.toNat c.shards.length ≠ 0 := by
      unfold perShard
      omega
    obtain ⟨hcapacity, hheld, hsize⟩ := held_le_capacity hshare
      (mul_perShard_lt total.toNat_lt hlen) hshards ops
    obtain ⟨hmore, hatMost, hfew⟩ := @mul_perShard_bounds total.toNat _ hpos
    intro d
    rw [hcapacity]
    refine ⟨hheld, hsize, ?_, hmore, ?_⟩ <;>
      rcases Nat.lt_or_ge total.toNat c.shards.length with hlt | hge
    · rw [hfew hlt]
      exact Nat.le_max_right _ _
    · exact (hatMost hge).trans (Nat.le_max_left _ _)
    · rw [hfew hlt]
    · exact ⟨fun _ => hge, fun _ => hatMost hge⟩

/-- A total of 2000 in 16 shards is a bound. -/
theorem held_bounded_2000 :
    ∃ c : ShardedLRUCache ℕ ℕ, new (fun _ => 7) 2000 16 = some c ∧
      ∀ ops, (c.run [] ops).2.held ≤ 2000 := by
  obtain ⟨hmade, hbounded⟩ := held_bounded (V := ℕ) (fun _ : ℕ => 7) (2000 : UInt64) 16
  obtain ⟨c, hnew⟩ := hmade.mpr (by decide)
  obtain ⟨hiff, hall⟩ := hbounded c hnew
  refine ⟨c, hnew, fun ops => ?_⟩
  have hfit : c.shards.length ≤ (2000 : UInt64).toNat := hiff.mpr ⟨4, by decide, by decide⟩
  obtain ⟨hheld, -, -, -, hle⟩ := hall ops
  exact hheld.trans (hle.mpr hfit)

/-- A total of one in two shards holds two entries, and that is its capacity. -/
theorem held_exceeds :
    (new id 1 2 : Option (ShardedLRUCache UInt64 Char)).map (fun c =>
      ((c.run [] [.put 1 'a', .put 2 'b']).2.held, c.capacity)) = some (2, 2) := by
  decide +kernel

end ForwardProxy.ShardedLRUCache
