import Mathlib.Data.List.Infix
import Mathlib.Data.Nat.Find

/-!
# First occurrence of a pattern in a list

`find pat s` is the least position at which `pat` occurs in `s`, as `std::string::find` returns it.
An occurrence is a position, `OccursAt`, and on a literal pattern it unfolds into one fact for each
element (`occursAt_cons`), so that two patterns that overlap are compared by arithmetic on
positions. What a reader of a growing buffer needs is that a position once found stays the first one
when more elements arrive (`find_append`), and what it says about the parts of a longer list
(`find_take`).
-/

namespace Lib.Search

variable {α : Type*} [DecidableEq α]

/-- `pat` occurs in `s` at position `i`. -/
def OccursAt (pat s : List α) (i : ℕ) : Prop := pat <+: s.drop i

instance (pat s : List α) (i : ℕ) : Decidable (OccursAt pat s i) :=
  inferInstanceAs (Decidable (pat <+: s.drop i))

/-- The least position at which `pat` occurs in `s`. -/
def find (pat : List α) : List α → Option ℕ
  | [] => if pat = [] then some 0 else none
  | b :: s => if pat.isPrefixOf (b :: s) then some 0 else (find pat s).map (· + 1)

/-! ## Occurrences -/

omit [DecidableEq α] in
/-- The empty pattern occurs everywhere. -/
@[simp]
theorem occursAt_nil (s : List α) (i : ℕ) : OccursAt [] s i := List.nil_prefix

omit [DecidableEq α] in
/-- An occurrence of a non-empty pattern is its first element followed by an occurrence of the
rest. -/
@[simp]
theorem occursAt_cons (a : α) (pat s : List α) (i : ℕ) :
    OccursAt (a :: pat) s i ↔ s[i]? = some a ∧ OccursAt pat s (i + 1) := by
  unfold OccursAt
  rcases lt_or_ge i s.length with h | h
  · rw [List.drop_eq_getElem_cons h, List.cons_prefix_cons, List.getElem?_eq_getElem h]
    simp [eq_comm]
  · simp [List.drop_eq_nil_of_le h, List.getElem?_eq_none h]

omit [DecidableEq α] in
/-- A non-empty pattern that occurs ends inside the list. -/
theorem OccursAt.end_le {pat s : List α} {i : ℕ} (h : OccursAt pat s i) (hne : pat ≠ []) :
    i + pat.length ≤ s.length := by
  have hle := List.IsPrefix.length_le h
  have hpos := List.length_pos_iff.mpr hne
  rw [List.length_drop] at hle
  omega

omit [DecidableEq α] in
/-- Appending to the list keeps an occurrence. -/
theorem OccursAt.append {pat s : List α} {i : ℕ} (h : OccursAt pat s i) (t : List α) :
    OccursAt pat (s ++ t) i := by
  rcases eq_or_ne pat [] with rfl | hne
  · simp
  · have hle := h.end_le hne
    unfold OccursAt at h ⊢
    rw [List.drop_append_of_le_length (by omega)]
    exact h.trans (List.prefix_append _ _)

omit [DecidableEq α] in
/-- An occurrence that ends in the first part of a list is one of that part. -/
theorem OccursAt.of_append {pat s t : List α} {i : ℕ} (h : OccursAt pat (s ++ t) i)
    (hle : i + pat.length ≤ s.length) : OccursAt pat s i := by
  unfold OccursAt at h ⊢
  rw [List.drop_append_of_le_length (by omega)] at h
  exact List.prefix_of_prefix_length_le h (List.prefix_append _ _) (by simp; omega)

omit [DecidableEq α] in
/-- An occurrence past the first part of a list is one of the second part. -/
theorem occursAt_append_right (pat s t : List α) (i : ℕ) :
    OccursAt pat (s ++ t) (s.length + i) ↔ OccursAt pat t i := by
  unfold OccursAt
  rw [List.drop_append, List.drop_eq_nil_of_le (by omega), List.nil_append, Nat.add_sub_cancel_left]

omit [DecidableEq α] in
/-- An occurrence in a list cut short is one that ends before the cut. -/
theorem occursAt_take {pat : List α} (hne : pat ≠ []) (s : List α) (n i : ℕ) :
    OccursAt pat (s.take n) i ↔ OccursAt pat s i ∧ i + pat.length ≤ n := by
  constructor
  · intro h
    have hle := h.end_le hne
    have happ := h.append (s.drop n)
    rw [List.take_append_drop] at happ
    rw [List.length_take] at hle
    exact ⟨happ, by omega⟩
  · rintro ⟨h, hle⟩
    have hend := h.end_le hne
    rw [← List.take_append_drop n s] at h
    exact h.of_append (by rw [List.length_take]; omega)

omit [DecidableEq α] in
/-- An occurrence in a list without its first elements is one past them. -/
theorem occursAt_drop (pat s : List α) (n i : ℕ) :
    OccursAt pat (s.drop n) i ↔ OccursAt pat s (n + i) := by
  unfold OccursAt
  rw [List.drop_drop]

/-! ## The first occurrence -/

/-- The position returned is that of an occurrence, and no earlier position is. -/
theorem find_eq_some_iff {pat s : List α} {p : ℕ} :
    find pat s = some p ↔ OccursAt pat s p ∧ ∀ i < p, ¬ OccursAt pat s i := by
  induction s generalizing p with
  | nil =>
    by_cases hp : pat = []
    · subst hp
      simp only [find, if_true, Option.some.injEq, occursAt_nil, not_true_eq_false, true_and]
      constructor
      · rintro rfl; simp
      · intro h
        by_contra hne
        exact h 0 (by omega)
    · simp [find, OccursAt, hp]
  | cons b s ih =>
    by_cases hp : pat.isPrefixOf (b :: s)
    -- It occurs at the front, and nowhere before.
    · have h0 : OccursAt pat (b :: s) 0 := List.isPrefixOf_iff_prefix.mp hp
      simp only [find, hp, if_true, Option.some.injEq]
      constructor
      · rintro rfl; exact ⟨h0, by simp⟩
      · rintro ⟨-, h⟩
        by_contra hne
        exact h 0 (by omega) h0
    -- It does not, so every occurrence is one in the rest, moved by one.
    · have h0 : ¬ OccursAt pat (b :: s) 0 := fun h => hp (List.isPrefixOf_iff_prefix.mpr h)
      simp only [find, hp, Bool.false_eq_true, if_false, Option.map_eq_some_iff]
      constructor
      · rintro ⟨q, hq, rfl⟩
        obtain ⟨hocc, hmin⟩ := ih.mp hq
        refine ⟨hocc, fun i hi => ?_⟩
        cases i with
        | zero => exact h0
        | succ i => exact hmin i (by omega)
      · rintro ⟨hocc, hmin⟩
        cases p with
        | zero => exact absurd hocc h0
        | succ q => exact ⟨q, ih.mpr ⟨hocc, fun i hi => hmin (i + 1) (by omega)⟩, rfl⟩

/-- The position found is that of an occurrence. -/
theorem find_occursAt {pat s : List α} {p : ℕ} (h : find pat s = some p) : OccursAt pat s p :=
  (find_eq_some_iff.mp h).1

/-- No position before the one found is that of an occurrence. -/
theorem not_occursAt_of_find {pat s : List α} {p : ℕ} (h : find pat s = some p) :
    ∀ i < p, ¬ OccursAt pat s i :=
  (find_eq_some_iff.mp h).2

/-- The least position of an occurrence is found. -/
theorem find_of_least {pat s : List α} {p : ℕ} (hocc : OccursAt pat s p)
    (hmin : ∀ i < p, ¬ OccursAt pat s i) : find pat s = some p :=
  find_eq_some_iff.mpr ⟨hocc, hmin⟩

/-- Nothing is found exactly when the pattern occurs nowhere. -/
theorem find_eq_none_iff {pat s : List α} : find pat s = none ↔ ∀ i, ¬ OccursAt pat s i := by
  constructor
  · intro h i hi
    classical
    have hex : ∃ j, OccursAt pat s j := ⟨i, hi⟩
    have hsome : find pat s = some (Nat.find hex) :=
      find_of_least (Nat.find_spec hex) fun j hj => Nat.find_min hex hj
    rw [h] at hsome
    cases hsome
  · intro h
    cases hf : find pat s with
    | none => rfl
    | some p => exact absurd (find_occursAt hf) (h p)

/-- A position found stays the first when the list grows. -/
theorem find_append {pat s : List α} {p : ℕ} (hne : pat ≠ []) (h : find pat s = some p)
    (t : List α) : find pat (s ++ t) = some p := by
  have hocc := find_occursAt h
  have hmin := not_occursAt_of_find h
  have hle := hocc.end_le hne
  exact find_of_least (hocc.append t) fun i hi hi' => hmin i hi (hi'.of_append (by omega))

/-- The first occurrence is found in every initial part that holds it. -/
theorem find_take {pat s : List α} {p m : ℕ} (h : find pat s = some p) (hm : p + pat.length ≤ m) :
    find pat (s.take m) = some p := by
  have hocc := find_occursAt h
  have hmin := not_occursAt_of_find h
  rcases eq_or_ne pat [] with rfl | hne
  · have hp : p = 0 := by
      by_contra hp
      exact hmin 0 (by omega) (occursAt_nil _ _)
    exact find_of_least (occursAt_nil _ _) (by omega)
  · have hle := hocc.end_le hne
    rw [← List.take_append_drop m s] at hocc hmin
    refine find_of_least (hocc.of_append (by simp; omega)) fun i hi hi' => ?_
    exact hmin i hi (hi'.append _)

/-- What an initial part does not hold is found no earlier than its end. -/
theorem lt_of_find_take_eq_none {pat s : List α} {p m : ℕ} (h : find pat s = some p)
    (hm : find pat (s.take m) = none) : m < p + pat.length := by
  by_contra hle
  rw [find_take h (by omega)] at hm
  cases hm

/-- A single element is found at the end of the part before it. -/
theorem find_singleton_append {a : α} {s : List α} (h : a ∉ s) (t : List α) :
    find [a] (s ++ a :: t) = some s.length := by
  refine find_of_least (by simp) fun i hi => ?_
  simp only [occursAt_cons, occursAt_nil, and_true]
  rw [List.getElem?_append_left hi]
  exact fun hs => h (List.mem_of_getElem? hs)

/-- A single element that is found splits the string at its first place. -/
theorem eq_append_of_find_singleton {a : α} {s : List α} {p : ℕ} (h : find [a] s = some p) :
    s = s.take p ++ a :: s.drop (p + 1) ∧ a ∉ s.take p := by
  have hocc := find_occursAt h
  have hmin := not_occursAt_of_find h
  simp only [occursAt_cons, occursAt_nil, and_true] at hocc hmin
  obtain ⟨hlt, hget⟩ := List.getElem?_eq_some_iff.mp hocc
  refine ⟨?_, fun hmem => ?_⟩
  · rw [← hget, List.cons_getElem_drop_succ, List.take_append_drop]
  · obtain ⟨i, hi, hval⟩ := List.mem_take_iff_getElem.mp hmem
    exact hmin i (by omega) (List.getElem?_eq_some_iff.mpr ⟨by omega, hval⟩)

/-- A pair of different elements is found at the end of a part without it. -/
theorem find_pair_append {a b : α} (hab : a ≠ b) {s : List α} (h : find [a, b] s = none)
    (t : List α) : find [a, b] (s ++ a :: b :: t) = some s.length := by
  refine find_of_least (by simp) fun i hi hocc => ?_
  rcases Nat.lt_or_ge (i + 1) s.length with hlt | hge
  · exact find_eq_none_iff.mp h i (hocc.of_append hlt)
  · -- The pair would start at the last element of the part and end at `a`.
    simp only [occursAt_cons, occursAt_nil, and_true] at hocc
    have hend := hocc.2
    rw [List.getElem?_append_right hge, show i + 1 - s.length = 0 by omega] at hend
    exact hab (Option.some.inj hend)

/-- What stands before a pair found does not hold it. -/
theorem find_take_eq_none {pat s : List α} (hne : pat ≠ []) {p : ℕ} (h : find pat s = some p) :
    find pat (s.take p) = none := by
  have hmin := not_occursAt_of_find h
  rw [find_eq_none_iff]
  intro i hi
  obtain ⟨hocc, hend⟩ := (occursAt_take hne s p i).mp hi
  have := List.length_pos_iff.mpr hne
  exact hmin i (by omega) hocc

end Lib.Search
