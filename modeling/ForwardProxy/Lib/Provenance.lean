import ForwardProxy.Lib.Pool

/-!
# What is found was put

Threads put entries into a store that they share and find entries there. Where an operation leaves
only entries that were held before it or that it puts, and finds only what is held, whatever a
thread finds was put before by some thread (`Provenance.put_before`).
-/

namespace Lib.Interaction

variable {O : Type} {R : O → Type} {α τ σ E : Type}

/-- The operations on a store that put and find entries. -/
structure Provenance (act : (o : O) → σ → R o → σ → Prop) (E : Type) where
  put : Event R → Option E
  found : Event R → Option E
  good : σ → Prop
  holds : σ → E → Prop
  good_step : ∀ {o s r s'}, act o s r s' → good s → good s'
  kept : ∀ {o s r s' e}, act o s r s' → good s → holds s' e → holds s e ∨ put ⟨o, r⟩ = some e
  backed : ∀ {o s r s' e}, act o s r s' → good s → found ⟨o, r⟩ = some e → holds s e

namespace Provenance

variable {act : (o : O) → σ → R o → σ → Prop} (P : Provenance act E)

/-- An entry was put by an operation of the trace. -/
def WasPut (e : E) (trace : List (ℕ × Event R)) : Prop :=
  ∃ j ev, (j, ev) ∈ trace ∧ P.put ev = some e

/-- What was put before stays put. -/
theorem WasPut.append {e : E} {trace : List (ℕ × Event R)} (h : P.WasPut e trace)
    (more : List (ℕ × Event R)) : P.WasPut e (trace ++ more) := by
  obtain ⟨j, ev, hmem, hput⟩ := h
  exact ⟨j, ev, List.mem_append_left _ hmem, hput⟩

/-- What is held was put, and what was found was put before. -/
structure Ok (s : σ) (trace : List (ℕ × Event R)) : Prop where
  good : P.good s
  held : ∀ e, P.holds s e → P.WasPut e trace
  before : ∀ pre i ev e post, trace = pre ++ (i, ev) :: post → P.found ev = some e →
    P.WasPut e pre

/-- One more operation keeps that what is held was put. -/
theorem Ok.snoc {s s' : σ} {trace : List (ℕ × Event R)} (h : P.Ok s trace) (i : ℕ) {o : O} {r : R o}
    (hact : act o s r s') : P.Ok s' (trace ++ [(i, ⟨o, r⟩)]) := by
  refine ⟨P.good_step hact h.good, fun e he => ?_, fun pre j ev e post heq hfound => ?_⟩
  · rcases P.kept hact h.good he with hheld | hput
    · exact (h.held e hheld).append P _
    · exact ⟨i, ⟨o, r⟩, by simp, hput⟩
  · rcases List.eq_nil_or_concat post with rfl | ⟨post, last, rfl⟩
    · -- The lookup is the last event, and finds what is held.
      obtain ⟨rfl, hlast⟩ := List.append_inj' heq rfl
      obtain ⟨rfl, rfl⟩ : i = j ∧ (⟨o, r⟩ : Event R) = ev := by simpa using hlast
      exact h.held e (P.backed hact h.good hfound)
    · rw [List.concat_eq_append, ← List.cons_append, ← List.append_assoc] at heq
      obtain ⟨hpre, -⟩ := List.append_inj' heq rfl
      exact h.before pre j ev e post hpre hfound

/-- In every reachable pool, what a thread found was put before it. -/
theorem put_before {body : τ → Prog R α} {s : σ} (hgood : P.good s) (hempty : ∀ e, ¬P.holds s e)
    {p : Pool R τ α σ} (h : Pool.Reachable body act s p) {pre post : List (ℕ × Event R)} {i : ℕ}
    {ev : Event R} {e : E} (htrace : p.trace = pre ++ (i, ev) :: post)
    (hfound : P.found ev = some e) : P.WasPut e pre := by
  have hstart : P.Ok s [] := ⟨hgood, fun e he => absurd he (hempty e), by simp⟩
  have hok : P.Ok p.shared p.trace :=
    Pool.Reachable.invariant hstart (fun _ _ _ _ i _ hact hinv => hinv.snoc P i hact) h
  exact hok.before pre i ev e post htrace hfound

end Provenance

end Lib.Interaction
