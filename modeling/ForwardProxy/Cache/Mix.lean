import ForwardProxy.Cache.RoundUp
import ForwardProxy.Lib.Mixing

/-!
# The mixing step

`shard_for` mixes the hash of a key before it masks off the low bits. No two hashes are mixed into
one, and each shard has the same number of the `2^64` hashes (`mix_balanced`).
-/

namespace ForwardProxy.ShardedLRUCache

open Lib.Mixing (xorShift)

/-- The mixing step in terms of its three parts. -/
theorem toBitVec_mix (h : UInt64) :
    (mix h).toBitVec = xorShift 33 (xorShift 33 h.toBitVec * 0xff51afd7ed558ccd#64) := rfl

/-- The mixing step does not take two hashes to one. -/
theorem mix_injective : Function.Injective mix := by
  intro g h hgh
  have hbits := congrArg UInt64.toBitVec hgh
  rw [toBitVec_mix, toBitVec_mix] at hbits
  have hodd : (0xff51afd7ed558ccd#64).toNat % 2 = 1 := by decide
  have hmul := Lib.Mixing.xorShift_injective (by omega) hbits
  have hfirst := Lib.Mixing.mul_odd_injective hodd hmul
  exact UInt64.toBitVec_inj.mp (Lib.Mixing.xorShift_injective (by omega) hfirst)

/-- There are finitely many words, so every word is mixed from one. -/
theorem mix_bijective : Function.Bijective mix := by
  have : Finite UInt64 := by
    apply Finite.of_injective fun h : UInt64 => h.toBitVec.toFin
    intro g h hgh
    exact UInt64.toBitVec_inj.mp (BitVec.eq_of_toFin_eq hgh)
  exact Finite.injective_iff_bijective.mp mix_injective

/-- Of the hashes, `2^(64-m)` are mixed into words whose low `m` bits are `i`. -/
theorem ncard_mix {m i : ℕ} (hm : m ≤ 64) (hi : i < 2^m) {mask : UInt64}
    (hmask : mask.toNat = 2^m - 1) :
    {h : UInt64 | (mix h &&& mask).toNat = i}.ncard = 2^(64 - m) := by
  have hlow : ∀ h : UInt64, (h &&& mask).toNat = h.toBitVec.toNat % 2^m := by
    intro h
    rw [UInt64.toNat_and, hmask, Nat.and_two_pow_sub_one_eq_mod]
    rfl
  have hpreimage : {h : UInt64 | (mix h &&& mask).toNat = i} =
      Set.preimage (fun h => (mix h).toBitVec) {v : BitVec 64 | v.toNat % 2^m = i} := by
    ext h
    rw [Set.mem_preimage, Set.mem_ofPred_eq, Set.mem_ofPred_eq, hlow]
  have hinj : Function.Injective fun h => (mix h).toBitVec := fun g h hgh =>
    mix_injective (UInt64.toBitVec_inj.mp hgh)
  have hrange : {v : BitVec 64 | v.toNat % 2^m = i} ⊆
      Set.range fun h => (mix h).toBitVec := by
    intro v _
    obtain ⟨h, hv⟩ := mix_bijective.surjective ⟨v⟩
    exact ⟨h, congrArg UInt64.toBitVec hv⟩
  rw [hpreimage, Set.ncard_preimage_of_injective_subset_range hinj hrange,
    Lib.Mixing.ncard_low_bits hm hi]

variable {K V : Type}

/-- The mixing step is a bijection of the words. So each of `2^m` shards has `2^(64-m)` of the
hashes, and every cache that the constructor makes has such a number of shards. -/
theorem mix_balanced :
    Function.Bijective mix ∧
      (∀ m i : ℕ, m ≤ 63 → i < 2^m →
        {h : UInt64 | (mix h &&& (UInt64.ofNat (2^m) - 1)).toNat = i}.ncard = 2^(64 - m)) ∧
      ∀ (hasher : K → UInt64) (total num : UInt64) (c : ShardedLRUCache K V),
        new hasher total num = some c → ∃ m ≤ 63, c.shards.length = 2^m ∧
          ∀ i < 2^m, {h : UInt64 | (mix h &&& c.shardMask).toNat = i}.ncard = 2^(64 - m) := by
  refine ⟨mix_bijective, fun m i hm hi => ?_, fun hasher total num c hnew => ?_⟩
  · apply ncard_mix (by omega) hi
    have hle : 2^m ≤ 2^63 := Nat.pow_le_pow_right (by omega) hm
    have hword : (UInt64.ofNat (2^m)).toNat = 2^m := by
      rw [UInt64.toNat_ofNat', Nat.mod_eq_of_lt (by omega)]
    have hone : (1 : UInt64) ≤ UInt64.ofNat (2^m) := by
      rw [UInt64.le_iff_toNat_le, hword]
      exact Nat.one_le_two_pow
    rw [UInt64.toNat_sub_of_le _ _ hone, hword, UInt64.toNat_one]
  · obtain ⟨hle, ⟨⟨⟨m, hm⟩, -⟩, -⟩, hmask, -⟩ := new_spec hnew
    have hm59 : m ≤ 59 := by
      rw [hm] at hle
      exact (Nat.pow_le_pow_iff_right (by omega)).mp hle
    exact ⟨m, by omega, hm, fun i hi => ncard_mix (by omega) hi (by omega)⟩

/-- With 16 shards, shard 5 has one hash in 16. -/
theorem mix_balanced_sixteen :
    {h : UInt64 | (mix h &&& (UInt64.ofNat (2^4) - 1)).toNat = 5}.ncard = 2^60 ∧
      ∃ c : ShardedLRUCache ℕ ℕ, new (fun _ => 7) 2000 16 = some c ∧
        ∃ m ≤ 63, c.shards.length = 2^m ∧
          ∀ i < 2^m, {h : UInt64 | (mix h &&& c.shardMask).toNat = i}.ncard = 2^(64 - m) := by
  have hbalanced := mix_balanced (K := ℕ) (V := ℕ)
  obtain ⟨c, hnew⟩ := (exists_new_iff (K := ℕ) (V := ℕ) (fun _ => 7) 2000 16).mpr (by decide)
  exact ⟨hbalanced.2.1 4 5 (by omega) (by omega), c, hnew, hbalanced.2.2 _ _ _ c hnew⟩

end ForwardProxy.ShardedLRUCache
