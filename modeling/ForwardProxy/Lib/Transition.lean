import Mathlib.Data.List.Basic
import Mathlib.Order.Lattice.Nat

/-!
# Systems and their runs

A system has a first state and labelled steps. A run is the list of the steps taken, each its label
and the state after it. What the first state has and every step keeps holds after every run
(`Run.invariant`); what a run once passed it came to by a run and a step (`Run.split`). A flag that
no step takes back separates the steps that need it unset from those after it (`Run.never_after`),
and a register that follows a measure upwards holds the largest measure of the run
(`Run.running_max`).
-/

namespace Lib.Transition

/-- A first state, and the steps from one state to another with what they show. -/
structure System (σ ε : Type*) where
  init : σ
  step : σ → ε → σ → Prop

variable {σ ε : Type*} {S : System σ ε}

/-- The runs of a system, with the state that each comes to. -/
inductive Run (S : System σ ε) : List (ε × σ) → σ → Prop
  | start : Run S [] S.init
  | step {past : List (ε × σ)} {s s' : σ} {e : ε} (h : Run S past s) (hstep : S.step s e s') :
      Run S (past ++ [(e, s')]) s'

/-- What the steps of a run show, the first first. -/
def events (past : List (ε × σ)) : List ε := past.map Prod.fst

/-- The states of a run, the first state first. -/
def visited (S : System σ ε) (past : List (ε × σ)) : List σ := S.init :: past.map Prod.snd

/-- The events of two parts of a run are those of the one and of the other. -/
@[simp]
theorem events_append (past past' : List (ε × σ)) :
    events (past ++ past') = events past ++ events past' := List.map_append

/-- The first step shows the first of the events. -/
@[simp]
theorem events_cons (e : ε) (s : σ) (past : List (ε × σ)) :
    events ((e, s) :: past) = e :: events past := rfl

/-- A run of no steps shows nothing. -/
@[simp]
theorem events_nil : events ([] : List (ε × σ)) = [] := rfl

/-- What holds at the start and is kept by every step holds of every run and the state after it. -/
theorem Run.invariant {I : List (ε × σ) → σ → Prop} (hinit : I [] S.init)
    (hstep : ∀ past s e s', I past s → S.step s e s' → I (past ++ [(e, s')]) s')
    {past : List (ε × σ)} {s : σ} (h : Run S past s) : I past s := by
  induction h with
  | start => exact hinit
  | step _ hs ih => exact hstep _ _ _ _ ih hs

/-- A run goes through states with the invariant only. -/
theorem Run.restrict {I : σ → Prop} (hinit : I S.init)
    (hstep : ∀ s e s', I s → S.step s e s' → I s') {past : List (ε × σ)} {s : σ}
    (h : Run S past s) :
    I s ∧ Run { init := S.init, step := fun s e s' => I s ∧ S.step s e s' } past s := by
  induction h with
  | start => exact ⟨hinit, .start⟩
  | step _ hs ih => exact ⟨hstep _ _ _ ih.1 hs, ih.2.step ⟨ih.1, hs⟩⟩

/-- An element of a list with one more at its end is that one, or one before it. -/
theorem snoc_eq_append_cons {α : Type*} {l pre post : List α} {a b : α}
    (h : l ++ [a] = pre ++ b :: post) :
    (l = pre ∧ a = b ∧ post = []) ∨ ∃ post', post = post' ++ [a] ∧ l = pre ++ b :: post' := by
  rcases List.eq_nil_or_concat post with rfl | ⟨post', last, rfl⟩
  · obtain ⟨hl, ha⟩ := List.append_inj' h rfl
    exact Or.inl ⟨hl, by simpa using ha, rfl⟩
  · rw [List.concat_eq_append, ← List.cons_append, ← List.append_assoc] at h
    obtain ⟨hl, ha⟩ := List.append_inj' h rfl
    obtain rfl : a = last := by simpa using ha
    exact Or.inr ⟨post', by simp, hl⟩

/-- A step of a run is a step from a state that the run had come to. -/
theorem Run.split {pre post : List (ε × σ)} {e : ε} {s s' : σ}
    (h : Run S (pre ++ (e, s') :: post) s) : ∃ s₁, Run S pre s₁ ∧ S.step s₁ e s' := by
  generalize hpast : pre ++ (e, s') :: post = past at h
  induction h generalizing post with
  | start => simp at hpast
  | @step past s₁ s₂ e' h hs ih =>
    rcases snoc_eq_append_cons hpast.symm with ⟨rfl, hlast, -⟩ | ⟨post', -, hpre⟩
    · obtain ⟨rfl, rfl⟩ := Prod.mk.inj hlast
      exact ⟨s₁, h, hs⟩
    · exact ih hpre.symm

/-- Where a step sets a flag that no step takes back, no step that needs the flag unset comes after
it. -/
theorem Run.never_after (flag : σ → Prop) {p q : ε → Prop}
    (hset : ∀ s e s', S.step s e s' → p e → flag s')
    (hkeep : ∀ s e s', S.step s e s' → flag s → flag s')
    (hneed : ∀ s e s', S.step s e s' → q e → ¬flag s)
    {past : List (ε × σ)} {s : σ} (h : Run S past s) {pre post : List ε} {e : ε}
    (hevents : events past = pre ++ e :: post) (hp : p e) : ∀ e' ∈ post, ¬q e' := by
  have hall : ∀ past s, Run S past s → ((∃ e ∈ events past, p e) → flag s) ∧
      ∀ pre e post, events past = pre ++ e :: post → p e → ∀ e' ∈ post, ¬q e' := by
    intro past s h
    induction h with
    | start => simp
    | @step past s s' e h hs ih =>
      obtain ⟨ihflag, ihpost⟩ := ih
      constructor
      · rintro ⟨e', he', hp'⟩
        rw [events_append, List.mem_append] at he'
        rcases he' with he' | he'
        · exact hkeep s e s' hs (ihflag ⟨e', he', hp'⟩)
        · obtain rfl : e' = e := by simpa using he'
          exact hset s e' s' hs hp'
      · intro pre e₁ post hev hp₁ e' he' hq
        rw [events_append, events_cons, events_nil] at hev
        rcases snoc_eq_append_cons hev with ⟨-, -, rfl⟩ | ⟨post', rfl, hpast⟩
        · cases he'
        · rcases List.mem_append.mp he' with he' | he'
          · exact ihpost pre e₁ post' hpast hp₁ e' he' hq
          · obtain rfl : e' = e := by simpa using he'
            exact hneed s e' s' hs hq (ihflag ⟨e₁, by simp [hpast], hp₁⟩)
  exact (hall past s h).2 pre e post hevents hp

/-- A register that starts at a measure of the state, and that every step that does not lower the
measure raises to it, holds the largest measure of the states of the run. -/
theorem Run.running_max (m register : σ → ℕ) (hinit : register S.init = m S.init)
    (hstep : ∀ s e s', S.step s e s' → register s' = max (register s) (m s') ∨
      register s' = register s ∧ m s' ≤ m s)
    {past : List (ε × σ)} {s : σ} (h : Run S past s) :
    (∀ t ∈ visited S past, m t ≤ register s) ∧ ∃ t ∈ visited S past, m t = register s := by
  have hall : m s ≤ register s ∧ (∀ t ∈ visited S past, m t ≤ register s) ∧
      ∃ t ∈ visited S past, m t = register s := by
    induction h with
    | start => simp [visited, hinit]
    | @step past s s' e h hs ih =>
      obtain ⟨hnow, hle, t, ht, heq⟩ := ih
      have hvisited : visited S (past ++ [(e, s')]) = visited S past ++ [s'] := by
        simp [visited]
      have hmem : ∀ t', t' ∈ visited S (past ++ [(e, s')]) ↔ t' ∈ visited S past ∨ t' = s' := by
        intro t'
        rw [hvisited, List.mem_append, List.mem_singleton]
      have hmax : register s' = max (register s) (m s') := by
        rcases hstep s e s' hs with h | ⟨hreg, hm⟩
        · exact h
        · rw [hreg, max_eq_left (hm.trans hnow)]
      refine ⟨hmax ▸ le_max_right _ _, fun t' ht' => ?_, ?_⟩
      · rcases (hmem t').mp ht' with ht' | rfl
        · exact hmax ▸ (hle t' ht').trans (le_max_left _ _)
        · exact hmax ▸ le_max_right _ _
      · rcases le_total (m s') (register s) with hcmp | hcmp
        · exact ⟨t, (hmem t).mpr (Or.inl ht), by rw [hmax, max_eq_left hcmp, heq]⟩
        · exact ⟨s', (hmem s').mpr (Or.inr rfl), by rw [hmax, max_eq_right hcmp]⟩
  exact hall.2

end Lib.Transition
