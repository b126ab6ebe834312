import Mathlib.Data.List.Basic

/-!
# First match wins

`firstMatch` is the outcome of the first element of a list that a predicate picks, and a default
where it picks none (`firstMatch_eq_split`). Two predicates that pick differently may still have the
same outcome; `firstMatch_eq_iff` says when, by the first element that only one of them picks.
-/

namespace Lib.FirstMatch

variable {α β : Type*}

/-- The outcome of the first element that `p` picks, and `d` where it picks none. -/
def firstMatch (outcome : α → β) (d : β) (p : α → Bool) (l : List α) : β :=
  ((l.find? p).map outcome).getD d

/-- An empty list leaves the default. -/
@[simp]
theorem firstMatch_nil (outcome : α → β) (d : β) (p : α → Bool) :
    firstMatch outcome d p [] = d := rfl

/-- The first element decides if it is picked, and the others do if it is not. -/
theorem firstMatch_cons (outcome : α → β) (d : β) (p : α → Bool) (a : α) (l : List α) :
    firstMatch outcome d p (a :: l) = if p a then outcome a else firstMatch outcome d p l := by
  cases h : p a <;> simp [firstMatch, h]

/-- Elements that are not picked do not count. -/
theorem firstMatch_append {p : α → Bool} {pre : List α} (h : ∀ a ∈ pre, p a = false)
    (outcome : α → β) (d : β) (l : List α) :
    firstMatch outcome d p (pre ++ l) = firstMatch outcome d p l := by
  induction pre with
  | nil => rfl
  | cons a pre ih =>
    obtain ⟨ha, hpre⟩ := List.forall_mem_cons.mp h
    rw [List.cons_append, firstMatch_cons, ha, ih hpre]
    rfl

/-- Where every outcome is the default, so is the first. -/
theorem firstMatch_const {outcome : α → β} {d : β} {l : List α} (h : ∀ a ∈ l, outcome a = d)
    (p : α → Bool) : firstMatch outcome d p l = d := by
  induction l with
  | nil => rfl
  | cons a l ih =>
    obtain ⟨ha, hl⟩ := List.forall_mem_cons.mp h
    rw [firstMatch_cons, ha, ih hl, ite_self]

/-- The outcome is `b` by an element that is picked first, or by the default where none is. -/
theorem firstMatch_eq_split {outcome : α → β} {d b : β} {p : α → Bool} {l : List α} :
    firstMatch outcome d p l = b ↔
      (∃ pre a post, l = pre ++ a :: post ∧ (∀ x ∈ pre, p x = false) ∧ p a = true ∧
        outcome a = b) ∨ (∀ x ∈ l, p x = false) ∧ d = b := by
  cases hfind : l.find? p with
  | none =>
    have hnone : ∀ x ∈ l, p x = false := by simpa using hfind
    rw [firstMatch, hfind]
    constructor
    · exact fun h => .inr ⟨hnone, h⟩
    · rintro (⟨pre, a, post, rfl, -, ha, -⟩ | ⟨-, h⟩)
      · rw [hnone a (by simp)] at ha
        cases ha
      · exact h
  | some a =>
    obtain ⟨ha, pre, post, rfl, hpre⟩ := List.find?_eq_some_iff_append.mp hfind
    have hnot : ∀ x ∈ pre, p x = false := by simpa using hpre
    have hout : firstMatch outcome d p (pre ++ a :: post) = outcome a := by
      rw [firstMatch_append hnot, firstMatch_cons, if_pos ha]
    constructor
    · exact fun h => .inl ⟨pre, a, post, rfl, hnot, ha, hout.symm.trans h⟩
    · rintro (⟨pre', a', post', heq, hpre', ha', h⟩ | ⟨hall, -⟩)
      · rw [heq, firstMatch_append hpre', firstMatch_cons, if_pos ha', h]
      · rw [hall a (by simp)] at ha
        cases ha

/-- The same by a function that gives the outcome of an element that `p` picks. -/
theorem firstMatch_eq_findSome? (outcome : α → β) (d : β) (p : α → Bool) (l : List α) :
    firstMatch outcome d p l =
      (l.findSome? fun a => if p a then some (outcome a) else none).getD d := by
  induction l with
  | nil => rfl
  | cons a l ih =>
    rw [firstMatch_cons, List.findSome?_cons]
    cases h : p a with
    | true => simp
    | false => simpa using ih

/-- The outcomes under `p` and `q` are the same exactly when an element that only one of the two
picks, and before which neither picks any, has the outcome that the other finds after it. -/
theorem firstMatch_eq_iff (outcome : α → β) (d : β) (p q : α → Bool) (l : List α) :
    firstMatch outcome d p l = firstMatch outcome d q l ↔
      ∀ pre r post, l = pre ++ r :: post → (∀ a ∈ pre, p a = false ∧ q a = false) → p r ≠ q r →
        firstMatch outcome d (if p r then q else p) post = outcome r := by
  induction l with
  | nil => simp
  | cons a l ih =>
    rw [firstMatch_cons, firstMatch_cons]
    -- A split with an element before `r` needs `a` to be picked by neither.
    have hlater : ∀ pre r post, a :: l = pre ++ r :: post → pre = [] ∧ a = r ∧ l = post ∨
        ∃ pre', pre = a :: pre' ∧ l = pre' ++ r :: post := by
      intro pre r post h
      cases pre with
      | nil =>
        obtain ⟨rfl, rfl⟩ := List.cons.inj h
        exact Or.inl ⟨rfl, rfl, rfl⟩
      | cons b pre =>
        obtain ⟨rfl, hl⟩ := List.cons.inj h
        exact Or.inr ⟨pre, rfl, hl⟩
    by_cases hneither : p a = false ∧ q a = false
    · simp only [hneither.1, hneither.2, Bool.false_eq_true, if_false]
      rw [ih]
      constructor
      · intro h pre r post hsplit hpre hr
        rcases hlater pre r post hsplit with ⟨-, rfl, -⟩ | ⟨pre', rfl, hsplit'⟩
        · exact absurd (hneither.1.trans hneither.2.symm) hr
        · exact h pre' r post hsplit' (fun b hb => hpre b (by simp [hb])) hr
      · intro h pre r post hsplit hpre hr
        refine h (a :: pre) r post (by rw [hsplit]; rfl) (fun b hb => ?_) hr
        rcases List.mem_cons.mp hb with rfl | hb
        · exact hneither
        · exact hpre b hb
    · have honly : ∀ pre r post, a :: l = pre ++ r :: post →
          (∀ b ∈ pre, p b = false ∧ q b = false) → pre = [] ∧ a = r ∧ l = post := by
        intro pre r post hsplit hpre
        rcases hlater pre r post hsplit with h | ⟨pre', rfl, -⟩
        · exact h
        · exact absurd (hpre a (by simp)) hneither
      constructor
      · intro h pre r post hsplit hpre hr
        obtain ⟨-, rfl, rfl⟩ := honly pre r post hsplit hpre
        cases hp : p a with
        | true =>
          have hq : q a = false := by simpa [hp] using hr.symm
          simpa [hp, hq] using h.symm
        | false =>
          have hq : q a = true := by simpa [hp] using hr.symm
          simpa [hp, hq] using h
      · intro h
        have hfirst := h [] a l rfl (by simp)
        cases hp : p a with
        | true =>
          cases hq : q a with
          | true => rfl
          | false => simpa [hp, hq, eq_comm] using hfirst
        | false =>
          cases hq : q a with
          | true => simpa [hp, hq] using hfirst
          | false => exact absurd ⟨hp, hq⟩ hneither

end Lib.FirstMatch
