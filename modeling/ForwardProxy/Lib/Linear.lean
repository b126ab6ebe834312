import ForwardProxy.Lib.Pool
import ForwardProxy.Lib.Transition

/-!
# Calls that take effect at a point

An object that threads share is described by a sequential system, whose labels are the calls with
what they returned. Each call is made of operations, of which one is its point: the operation where
the call takes effect (`Linear`). Whatever the interleaving, the points in their order are a run of
the sequential system (`Linear.run`), and what comes later is only added to it (`Linear.later`).
-/

namespace Lib.Interaction

open Lib.Transition (System Run events)

variable {O : Type} {R : O → Type} {α τ σ ς ε : Type}

/-- What each operation is for the object: a call of it that takes effect, or nothing. -/
structure Linear (act : (o : O) → σ → R o → σ → Prop) (S : System ς ε) where
  point : Event R → Option ε
  rel : σ → ς → Prop
  silent : ∀ {o s r s' t}, act o s r s' → rel s t → point ⟨o, r⟩ = none → rel s' t
  called : ∀ {o s r s' t e}, act o s r s' → rel s t → point ⟨o, r⟩ = some e →
    ∃ t', S.step t e t' ∧ rel s' t'

namespace Linear

variable {act : (o : O) → σ → R o → σ → Prop} {S : System ς ε} (L : Linear act S)

/-- The calls that took effect, in their order, each with its thread. -/
def calls (trace : List (ℕ × Event R)) : List (ℕ × ε) :=
  trace.filterMap fun e => (L.point e.2).map fun call => (e.1, call)

/-- The calls of two parts of a trace are those of the one and of the other. -/
@[simp]
theorem calls_append (t t' : List (ℕ × Event R)) : L.calls (t ++ t') = L.calls t ++ L.calls t' :=
  List.filterMap_append

/-- The calls of one thread are the points of its events. -/
theorem calls_own (i : ℕ) (trace : List (ℕ × Event R)) :
    ((L.calls trace).filter fun c => c.1 = i).map Prod.snd =
      (own i trace).filterMap L.point := by
  induction trace with
  | nil => rfl
  | cons e trace ih =>
    obtain ⟨j, e⟩ := e
    have hcons : L.calls ((j, e) :: trace) =
        ((L.point e).map fun call => (j, call)).toList ++ L.calls trace := by
      cases hp : L.point e <;> simp [calls, hp]
    rw [hcons, List.filter_append, List.map_append, ih]
    by_cases hj : j = i
    · subst hj
      rw [own_cons_self, List.filterMap_cons]
      cases L.point e <;> simp
    · rw [own_cons_ne hj]
      cases L.point e <;> simp [hj]

/-- The calls come from the threads of the trace. -/
theorem of_mem_calls {n : ℕ} {trace : List (ℕ × Event R)} (h : ∀ e ∈ trace, e.1 < n) {c : ℕ × ε}
    (hc : c ∈ L.calls trace) : c.1 < n := by
  obtain ⟨e, he, hpoint⟩ := List.mem_filterMap.mp hc
  obtain ⟨call, -, rfl⟩ := Option.map_eq_some_iff.mp hpoint
  exact h e he

/-- The calls are a run of the sequential system, to a state that the shared one stands for. -/
def RunTo (s : σ) (trace : List (ℕ × Event R)) : Prop :=
  ∃ past t, Run S past t ∧ events past = (L.calls trace).map Prod.snd ∧ L.rel s t

/-- In every reachable pool the calls, one after another, are a run of the sequential system. -/
theorem run {body : τ → Prog R α} {s : σ} {p : Pool R τ α σ} (hinit : L.rel s S.init)
    (h : Pool.Reachable body act s p) :
    L.RunTo p.shared p.trace := by
  refine Pool.Reachable.invariant (s := s) (p := p) (?_ : L.RunTo s []) ?_ h
  · exact ⟨[], _, .start, rfl, hinit⟩
  rintro s' o r s'' i trace hact ⟨past, t, hrun, hevents, hrel⟩
  cases hpoint : L.point ⟨o, r⟩ with
  | none =>
    refine ⟨past, t, hrun, ?_, L.silent hact hrel hpoint⟩
    rw [calls_append, hevents]
    simp [calls, hpoint]
  | some e =>
    obtain ⟨t', hstep, hrel'⟩ := L.called hact hrel hpoint
    refine ⟨past ++ [(e, t')], t', hrun.step hstep, ?_, hrel'⟩
    rw [calls_append, Transition.events_append, hevents]
    simp [calls, hpoint]

/-- A pool that comes later has the calls of before, and then others. -/
theorem later {body : τ → Prog R α} {p p' : Pool R τ α σ}
    (h : Relation.ReflTransGen (Pool.Step body act) p p') :
    ∃ more, L.calls p'.trace = L.calls p.trace ++ more := by
  induction h with
  | refl => exact ⟨[], (List.append_nil _).symm⟩
  | tail _ hstep ih =>
    obtain ⟨more, hmore⟩ := ih
    cases hstep with
    | start job => exact ⟨more, hmore⟩
    | @perform i job o k r s' hi hact =>
      exact ⟨more ++ L.calls [(i, ⟨o, r⟩)], by rw [calls_append, hmore, List.append_assoc]⟩

end Linear

end Lib.Interaction
