import Mathlib.Algebra.Order.BigOperators.Group.List
import Mathlib.Algebra.Order.Group.Nat
import ForwardProxy.Lib.Pool

/-!
# Reading one part after another

A thread that reads the parts of a shared state one after another sees each part as it is at its own
time. `before` is what comes in a trace before an event of a thread, and of measures that only grow
with the trace, what is read of each part at its time adds up to a sum between that at the first
reading and that at the last (`sum_before_between`).
-/

namespace Lib.Interaction

variable {O : Type} {R : O → Type}

/-- What comes before the event number `n` of the thread `j`, or all where `j` has no more
events. -/
def before (j : ℕ) : ℕ → List (ℕ × Event R) → List (ℕ × Event R)
  | _, [] => []
  | 0, e :: t => if e.1 = j then [] else e :: before j 0 t
  | n + 1, e :: t => e :: before j (if e.1 = j then n else n + 1) t

/-- What was done before the first readings was done before the later ones. -/
theorem before_le (j : ℕ) {m n : ℕ} (h : m ≤ n) (t : List (ℕ × Event R)) :
    before j m t <+: before j n t := by
  induction t generalizing m n with
  | nil => cases m <;> cases n <;> exact List.prefix_rfl
  | cons e t ih =>
    cases m with
    | zero =>
      by_cases he : e.1 = j
      · rw [before, if_pos he]
        exact List.nil_prefix
      · cases n with
        | zero => exact List.prefix_rfl
        | succ n =>
          rw [before, before, if_neg he, if_neg he]
          exact List.cons_prefix_cons.mpr ⟨rfl, ih (Nat.zero_le _)⟩
    | succ m =>
      cases n with
      | zero => omega
      | succ n =>
        rw [before, before]
        refine List.cons_prefix_cons.mpr ⟨rfl, ih ?_⟩
        split <;> omega

/-- The event number `n` comes right after what comes before it. -/
theorem eq_before_append {j n : ℕ} {t : List (ℕ × Event R)} {e : Event R}
    (h : (own j t)[n]? = some e) : ∃ post, t = before j n t ++ (j, e) :: post := by
  induction t generalizing n with
  | nil => simp at h
  | cons d t ih =>
    obtain ⟨i, d⟩ := d
    by_cases hi : i = j
    · subst hi
      rw [own_cons_self] at h
      cases n with
      | zero =>
        obtain rfl : d = e := by simpa using h
        exact ⟨t, by rw [before, if_pos rfl, List.nil_append]⟩
      | succ n =>
        obtain ⟨post, hpost⟩ := ih (n := n) (by simpa using h)
        refine ⟨post, ?_⟩
        rw [before, if_pos rfl, List.cons_append, ← hpost]
    · rw [own_cons_ne hi] at h
      obtain ⟨post, hpost⟩ := ih h
      refine ⟨post, ?_⟩
      cases n with
      | zero => rw [before, if_neg hi, List.cons_append, ← hpost]
      | succ n => rw [before, if_neg hi, List.cons_append, ← hpost]

/-- What is read of `n` parts, of each before an event of its own, is between what they come to
before the first event and before the last. -/
theorem sum_before_between {f : ℕ → List (ℕ × Event R) → ℕ}
    (hf : ∀ i t t', t <+: t' → f i t ≤ f i t') (j n : ℕ) (t : List (ℕ × Event R)) :
    ((List.range n).map fun i => f i (before j 0 t)).sum ≤
        ((List.range n).map fun i => f i (before j i t)).sum ∧
      ((List.range n).map fun i => f i (before j i t)).sum ≤
        ((List.range n).map fun i => f i (before j (n - 1) t)).sum := by
  constructor
  · refine List.sum_le_sum fun i _ => hf i _ _ (before_le j (Nat.zero_le i) t)
  · refine List.sum_le_sum fun i hi => hf i _ _ (before_le j ?_ t)
    have := List.mem_range.mp hi
    omega

end Lib.Interaction
