import Mathlib.Order.Bounds.Basic
import ForwardProxy.Bytes
import ForwardProxy.Cache.Sharded

/-!
# The number of shards

`round_up_pow2` doubles a word until it is not below its argument. It finds the least power of two
where a word holds one, and where none is large enough the word is shifted out to zero and the loop
does not end (`roundUp_iff`). The constructor makes as many shards, where a vector has room for
them (`exists_new_iff`).
-/

namespace ForwardProxy.ShardedLRUCache

variable {K V : Type} [DecidableEq K]

/-! ## The loop -/

/-- The powers of two that are not below `n`. -/
def powersFrom (n : ℕ) : Set ℕ := {p | (∃ m, p = 2^m) ∧ n ≤ p}

/-- A power of two below `2^63` is doubled by a shift. -/
theorem toNat_double {p : UInt64} {j : ℕ} (hj : j < 63) (hp : p.toNat = 2^j) :
    (p <<< 1).toNat = 2^(j + 1) := by
  have hle : 2^(j + 1) ≤ 2^63 := Nat.pow_le_pow_right (by omega) hj
  rw [UInt64.toNat_shiftLeft, hp]
  rw [UInt64.toNat_one, Nat.shiftLeft_eq, show 1 % 64 = 1 from rfl, pow_one, ← pow_succ]
  exact Nat.mod_eq_of_lt (by omega)

/-- The loop of `round_up_pow2` ends for every number up to `2^63`, the largest power of two that a
word holds, and each power that it went past was below the number. -/
theorem exists_roundUpLoop {n : UInt64} (hn : n.toNat ≤ 2^63) {j fuel : ℕ} (hj : j ≤ 63)
    (hfuel : 64 - j ≤ fuel) {p : UInt64} (hp : p.toNat = 2^j) :
    ∃ m r, roundUpLoop fuel n p = some r ∧ r.toNat = 2^m ∧ m ≤ 63 ∧ n.toNat ≤ 2^m ∧
      ∀ i, j ≤ i → i < m → 2^i < n.toNat := by
  induction fuel generalizing j p with
  | zero => omega
  | succ fuel ih =>
    rw [roundUpLoop]
    split
    · rename_i hlt
      have hbelow : 2^j < n.toNat := by
        have := UInt64.lt_iff_toNat_lt.mp hlt
        rwa [hp] at this
      -- The power is below `2^63`, so the shift does not lose its bit.
      have hj' : j < 63 := (Nat.pow_lt_pow_iff_right (by omega)).mp (hbelow.trans_le hn)
      obtain ⟨m, r, hr, hpow, hm, hle, hpast⟩ := ih (j := j + 1) (by omega) (by omega)
        (toNat_double hj' hp)
      refine ⟨m, r, hr, hpow, hm, hle, fun i hji him => ?_⟩
      rcases Nat.eq_or_lt_of_le hji with rfl | hji
      · exact hbelow
      · exact hpast i hji him
    · rename_i hge
      refine ⟨j, p, rfl, hp, hj, ?_, fun i hji hij => by omega⟩
      have := UInt64.le_iff_toNat_le.mp (UInt64.not_lt.mp hge)
      rwa [hp] at this

/-- Above `2^63` no word is a power of two that is large enough, and the loop does not end. -/
theorem roundUpLoop_none {n : UInt64} (hn : 2^63 < n.toNat) (fuel : ℕ) {p : UInt64}
    (hp : p = 0 ∨ ∃ j ≤ 63, p.toNat = 2^j) : roundUpLoop fuel n p = none := by
  induction fuel generalizing p with
  | zero => rfl
  | succ fuel ih =>
    have hlt : p < n := by
      rw [UInt64.lt_iff_toNat_lt]
      rcases hp with rfl | ⟨j, hj, hp⟩
      · rw [UInt64.toNat_zero]
        omega
      · have : 2^j ≤ 2^63 := Nat.pow_le_pow_right (by omega) hj
        omega
    rw [roundUpLoop, if_pos hlt]
    apply ih
    rcases hp with rfl | ⟨j, hj, hp⟩
    · exact Or.inl (by decide)
    · rcases Nat.eq_or_lt_of_le hj with rfl | hj
      · -- The one bit of `2^63` is shifted out.
        obtain rfl : p = 0x8000000000000000 := UInt64.toNat_inj.mp hp
        exact Or.inl (by decide)
      · exact Or.inr ⟨j + 1, hj, toNat_double hj hp⟩

/-- The number that the constructor rounds up. -/
theorem toNat_atLeastOne (num : UInt64) :
    (if num = 0 then 1 else num).toNat = max 1 num.toNat := by
  split
  · rename_i hzero
    rw [hzero]
    rfl
  · rename_i hne
    have hpos : num.toNat ≠ 0 := fun h0 => hne (UInt64.toNat_inj.mp h0)
    omega

/-- Above `2^63` shards, the rounding of the constructor does not end. -/
theorem roundUpLoop_atLeastOne {num : UInt64} (hnum : 2^63 < num.toNat) (fuel : ℕ) :
    roundUpLoop fuel (if num = 0 then 1 else num) 1 = none := by
  have hbig : 2^63 < (if num = 0 then 1 else num).toNat := by
    rw [toNat_atLeastOne]
    omega
  exact roundUpLoop_none hbig fuel (Or.inr ⟨0, by omega, rfl⟩)

/-- Up to `2^63` shards, the constructor rounds up to the least power of two, in the turns that
`roundUpPow2` allows. -/
theorem roundUpPow2_isLeast {num : UInt64} (hnum : num.toNat ≤ 2^63) :
    ∃ n, roundUpPow2 (if num = 0 then 1 else num) = some n ∧ n.toNat ≤ 2^63 ∧
      IsLeast (powersFrom (max 1 num.toNat)) n.toNat := by
  have hle : (if num = 0 then 1 else num).toNat ≤ 2^63 := by
    rw [toNat_atLeastOne]
    omega
  obtain ⟨m, n, hround, hpow, hm, hge, hpast⟩ := exists_roundUpLoop hle (show 0 ≤ 63 by omega)
    (show 64 - 0 ≤ 66 by omega) (p := 1) rfl
  rw [toNat_atLeastOne] at hge hpast
  refine ⟨n, hround, ?_, ⟨⟨m, hpow⟩, by rwa [hpow]⟩, ?_⟩
  · rw [hpow]
    exact Nat.pow_le_pow_right (by omega) hm
  · rintro _ ⟨⟨i, rfl⟩, hi⟩
    rw [hpow]
    -- A smaller power would have been gone past.
    by_contra hlt
    have him : i < m := (Nat.pow_lt_pow_iff_right (by omega)).mp (Nat.not_le.mp hlt)
    have := hpast i (Nat.zero_le i) him
    omega

/-! ## The constructor -/

/-- The capacity of each of `n` shards. -/
def perShard (totalCapacity n : ℕ) : ℕ := max 1 (totalCapacity / n)

/-- A power of two up to `2^63` is one that a vector has room for exactly up to `2^59`. -/
theorem pow_le_maxShards {m : ℕ} : ¬maxShards < 2^m ↔ 2^m ≤ 2^59 := by
  have hmax : maxShards = 2^60 - 1 := by decide
  rw [hmax, Nat.pow_le_pow_iff_right (by omega : 1 < 2)]
  rcases Nat.lt_or_ge 59 m with hlt | hge
  · have : 2^60 ≤ 2^m := Nat.pow_le_pow_right (by omega) hlt
    omega
  · have : 2^m ≤ 2^59 := Nat.pow_le_pow_right (by omega) hge
    omega

/-- The share of a shard, as the constructor computes it in words. -/
theorem toNat_share (totalCapacity n : UInt64) :
    (if totalCapacity / n = 0 then 1 else totalCapacity / n).toNat =
      perShard totalCapacity.toNat n.toNat := by
  rw [perShard]
  split
  · rename_i hzero
    have := congrArg UInt64.toNat hzero
    rw [UInt64.toNat_div, UInt64.toNat_zero] at this
    rw [this]
    rfl
  · rename_i hne
    have hpos : (totalCapacity / n).toNat ≠ 0 := fun h0 => hne (UInt64.toNat_inj.mp h0)
    rw [UInt64.toNat_div] at hpos ⊢
    generalize totalCapacity.toNat / n.toNat = d at hpos
    omega

/-- The mask is one less than the number of shards. -/
theorem toNat_pred {n : UInt64} (hone : 1 ≤ n.toNat) : (n - 1).toNat + 1 = n.toNat := by
  have hle : (1 : UInt64) ≤ n := UInt64.le_iff_toNat_le.mpr hone
  rw [UInt64.toNat_sub_of_le _ _ hle, UInt64.toNat_one]
  omega

omit [DecidableEq K] in
/-- A cache that the constructor returns has the least power of two of shards, none of them with an
operation yet, and the mask is one less. -/
theorem new_spec {hasher : K → UInt64} {totalCapacity numShards : UInt64}
    {c : ShardedLRUCache K V} (h : new hasher totalCapacity numShards = some c) :
    c.shards.length ≤ 2^59 ∧ IsLeast (powersFrom (max 1 numShards.toNat)) c.shards.length ∧
      c.shardMask.toNat + 1 = c.shards.length ∧
      c.shards = List.replicate c.shards.length
        (LRUCache.new (perShard totalCapacity.toNat c.shards.length)) := by
  unfold new at h
  split at h
  · cases h
  rename_i n hround
  obtain ⟨hroom, h⟩ := Option.ite_none_left_eq_some.mp h
  cases h
  have hnum : numShards.toNat ≤ 2^63 := by
    by_contra hlt
    have hnone : roundUpPow2 (if numShards = 0 then 1 else numShards) = none :=
      roundUpLoop_atLeastOne (Nat.not_le.mp hlt) 66
    rw [hnone] at hround
    cases hround
  obtain ⟨n', hround', -, hleast⟩ := roundUpPow2_isLeast hnum
  rw [hround, Option.some.injEq] at hround'
  subst hround'
  obtain ⟨⟨m, hm⟩, hge⟩ := hleast.1
  rw [hm, pow_le_maxShards] at hroom
  simp only [List.length_replicate, toNat_share]
  exact ⟨hm ▸ hroom, hleast, toNat_pred (by omega), trivial⟩

omit [DecidableEq K] in
/-- The constructor returns exactly up to `2^59` shards: above it the vector has no room for them,
and above `2^63` the rounding does not end. -/
theorem exists_new_iff (hasher : K → UInt64) (totalCapacity numShards : UInt64) :
    (∃ c : ShardedLRUCache K V, new hasher totalCapacity numShards = some c) ↔
      numShards.toNat ≤ 2^59 := by
  constructor
  · rintro ⟨c, hnew⟩
    obtain ⟨hlen, hleast, -⟩ := new_spec hnew
    have := hleast.1.2
    omega
  · intro hnum
    obtain ⟨n, hround, -, hleast⟩ := roundUpPow2_isLeast (hnum.trans (by omega))
    have hfew : n.toNat ≤ 2^59 := hleast.2 ⟨⟨59, rfl⟩, by omega⟩
    obtain ⟨m, hm⟩ := hleast.1.1
    have hroom : ¬maxShards < n.toNat := by
      rw [hm, pow_le_maxShards, ← hm]
      exact hfew
    unfold new
    split
    · rename_i hnone
      rw [hround] at hnone
      cases hnone
    · rename_i n' hsome
      rw [hround] at hsome
      cases hsome
      exact ⟨_, if_neg hroom⟩

omit [DecidableEq K] in
/-- The loop of `round_up_pow2` ends, with the least power of two that there are to be, from which a
mask that is one less selects with every hash, and a cache that is made has that many shards and
that mask, exactly up to `2^63`. -/
theorem roundUp_iff (hasher : K → UInt64) (totalCapacity numShards : UInt64) :
    ((∃ fuel n, roundUpLoop fuel (if numShards = 0 then 1 else numShards) 1 = some n ∧
        IsLeast (powersFrom (max 1 numShards.toNat)) n.toNat ∧ (n - 1).toNat + 1 = n.toNat ∧
        ∀ h : UInt64, (h &&& (n - 1)).toNat < n.toNat) ∧
      ∀ c : ShardedLRUCache K V, new hasher totalCapacity numShards = some c →
        IsLeast (powersFrom (max 1 numShards.toNat)) c.shards.length ∧
        c.shardMask.toNat + 1 = c.shards.length ∧
        ∀ h : UInt64, (h &&& c.shardMask).toNat < c.shards.length) ↔
      numShards.toNat ≤ 2^63 := by
  constructor
  · rintro ⟨⟨fuel, n, hloop, -⟩, -⟩
    by_contra hlt
    rw [roundUpLoop_atLeastOne (Nat.not_le.mp hlt) fuel] at hloop
    cases hloop
  · intro hnum
    obtain ⟨n, hround, -, hleast⟩ := roundUpPow2_isLeast hnum
    have hone : 1 ≤ n.toNat := by
      have := hleast.1.2
      omega
    have hpred := toNat_pred hone
    refine ⟨⟨66, n, hround, hleast, hpred, masked_lt (by omega)⟩, fun c hnew => ?_⟩
    obtain ⟨-, hleast, hmask, -⟩ := new_spec hnew
    exact ⟨hleast, hmask, masked_lt c.mask_lt⟩

/-- The loop for `--shards -1` does not end. -/
theorem roundUpLoop_minusOne :
    UInt64.ofInt (strtol (str "-1")).value = 0xffffffffffffffff ∧
      ∀ fuel, roundUpLoop fuel (UInt64.ofInt (strtol (str "-1")).value) 1 = none := by
  have hcast : UInt64.ofInt (strtol (str "-1")).value = 0xffffffffffffffff := by decide +kernel
  refine ⟨hcast, fun fuel => ?_⟩
  rw [hcast]
  exact roundUpLoop_none (by decide) fuel (Or.inr ⟨0, by omega, rfl⟩)

end ForwardProxy.ShardedLRUCache
