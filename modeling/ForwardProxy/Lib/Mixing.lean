import Mathlib.Algebra.Ring.Nat
import Mathlib.Data.Nat.ModEq
import Mathlib.Data.Nat.Prime.Basic
import Mathlib.Data.Set.Card
import Mathlib.Logic.Function.Basic

/-!
# Mixing of words

The steps of which mixers of hashes are made, on words of `w` bits: a word xored with itself shifted
down, and a product with an odd word. Each tells all words apart. The low bits of a word take each
of their values equally often (`ncard_low_bits`), and so do those of a mixed word.
-/

namespace Lib.Mixing

variable {w : ℕ}

/-- A word xored with its own upper bits. -/
def xorShift (s : ℕ) (v : BitVec w) : BitVec w := v ^^^ (v >>> s)

/-- The bits of a word can be read off its xor with its upper bits, the highest bit first. -/
theorem xorShift_injective {s : ℕ} (hs : 0 < s) : Function.Injective (xorShift s (w := w)) := by
  intro u v huv
  have hbits : ∀ k i, w ≤ i + k → u.getLsbD i = v.getLsbD i := by
    intro k
    induction k with
    | zero =>
      intro i hi
      rw [BitVec.getLsbD_of_ge u i hi, BitVec.getLsbD_of_ge v i hi]
    | succ k ih =>
      intro i hi
      have hupper : u.getLsbD (s + i) = v.getLsbD (s + i) := ih (s + i) (by omega)
      have hbit := congrArg (fun x => x.getLsbD i) huv
      simp only [xorShift, BitVec.getLsbD_xor, BitVec.getLsbD_ushiftRight, hupper] at hbit
      exact Bool.xor_left_inj.mp hbit
  exact BitVec.eq_of_getLsbD_eq fun i _ => hbits w i (by omega)

/-- An odd word has no factor with the modulus in common. -/
theorem mul_odd_injective {a : BitVec w} (ha : a.toNat % 2 = 1) :
    Function.Injective fun v : BitVec w => v * a := by
  intro u v huv
  have hmod : u.toNat * a.toNat ≡ v.toNat * a.toNat [MOD 2^w] := by
    have hnat := congrArg BitVec.toNat huv
    simp only [BitVec.toNat_mul] at hnat
    exact hnat
  have hcoprime : Nat.gcd (2^w) a.toNat = 1 :=
    Nat.Coprime.pow_left w (Nat.coprime_two_left.mpr (Nat.odd_iff.mpr ha))
  have hcancel : u.toNat % 2^w = v.toNat % 2^w :=
    Nat.ModEq.cancel_right_of_coprime hcoprime hmod
  rw [Nat.mod_eq_of_lt u.isLt, Nat.mod_eq_of_lt v.isLt] at hcancel
  exact BitVec.eq_of_toNat_eq hcancel

/-- Of the words of `w` bits, each value of the low `m` bits is that of `2^(w-m)`. -/
theorem ncard_low_bits {m i : ℕ} (hm : m ≤ w) (hi : i < 2^m) :
    {v : BitVec w | v.toNat % 2^m = i}.ncard = 2^(w - m) := by
  have hsplit : 2^w = 2^m * 2^(w - m) := by rw [← pow_add, Nat.add_sub_cancel' hm]
  have hlt : ∀ j < 2^(w - m), i + 2^m * j < 2^w := by
    intro j hj
    have hstep : 2^m * (j + 1) ≤ 2^m * 2^(w - m) := Nat.mul_le_mul_left _ hj
    rw [Nat.mul_add, Nat.mul_one] at hstep
    omega
  -- The words are `i + 2^m j`, one for each value `j` of the bits above.
  have himage : {v : BitVec w | v.toNat % 2^m = i} =
      (fun j => BitVec.ofNat w (i + 2^m * j)) '' (Finset.range (2^(w - m)) : Set ℕ) := by
    ext v
    simp only [Set.mem_ofPred_eq, Set.mem_image, Finset.coe_range, Set.mem_Iio]
    constructor
    · intro hv
      refine ⟨v.toNat / 2^m, Nat.div_lt_of_lt_mul (hsplit ▸ v.isLt), ?_⟩
      rw [← hv, Nat.mod_add_div, BitVec.ofNat_toNat, BitVec.setWidth_eq]
    · rintro ⟨j, hj, rfl⟩
      rw [BitVec.toNat_ofNat, Nat.mod_eq_of_lt (hlt j hj), Nat.add_mul_mod_self_left,
        Nat.mod_eq_of_lt hi]
  have hinj : Set.InjOn (fun j => BitVec.ofNat w (i + 2^m * j))
      (Finset.range (2^(w - m)) : Set ℕ) := by
    intro j hj k hk hjk
    rw [Finset.coe_range, Set.mem_Iio] at hj hk
    have hnat := congrArg BitVec.toNat hjk
    simp only [BitVec.toNat_ofNat, Nat.mod_eq_of_lt (hlt j hj), Nat.mod_eq_of_lt (hlt k hk)]
      at hnat
    exact Nat.eq_of_mul_eq_mul_left (Nat.two_pow_pos m) (Nat.add_left_cancel hnat)
  rw [himage, hinj.ncard_image, Set.ncard_coe_finset, Finset.card_range]

end Lib.Mixing
