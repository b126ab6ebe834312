import Mathlib.Data.List.Count
import Mathlib.Data.List.Induction
import ForwardProxy.Lib.Interaction

/-!
# What a program holds

Operations of a program acquire resources, use them, and release them. A ledger says which do which,
and `held` is what is held after some events. A program is careful when it uses and releases only
what it holds. Then each resource has been acquired as often as it has been released, and once more
for each time that it is still held (`Careful.count_acquired`): where nothing is held at the end,
nothing has leaked, and nothing was released twice.
-/

namespace Lib.Interaction

variable {O : Type} {R : O → Type} {α ρ : Type} [DecidableEq ρ]

/-- Which operations acquire, use and release a resource. -/
structure Ledger (R : O → Type) (ρ : Type) where
  acquired : Event R → Option ρ
  released : O → Option ρ
  used : O → List ρ

namespace Ledger

variable (L : Ledger R ρ)

/-- What is held after an event. -/
def next (held : List ρ) (e : Event R) : List ρ :=
  (L.acquired e).toList ++
    match L.released e.op with
    | none => held
    | some r => held.erase r

/-- What is held after the events. -/
def held (es : List (Event R)) : List ρ := es.foldl L.next []

/-- Nothing is held at first. -/
@[simp]
theorem held_nil : L.held [] = [] := rfl

/-- One more event changes what is held. -/
@[simp]
theorem held_snoc (es : List (Event R)) (e : Event R) : L.held (es ++ [e]) = L.next (L.held es) e :=
  List.foldl_concat ..

/-- And so do more of them. -/
theorem held_append (es es' : List (Event R)) :
    L.held (es ++ es') = es'.foldl L.next (L.held es) :=
  List.foldl_append ..

/-- Events that neither acquire nor release leave what is held. -/
theorem held_append_quiet {es more : List (Event R)}
    (h : ∀ e ∈ more, L.acquired e = none ∧ L.released e.op = none) :
    L.held (es ++ more) = L.held es := by
  induction more generalizing es with
  | nil => rw [List.append_nil]
  | cons e more ih =>
    obtain ⟨⟨hacquired, hreleased⟩, hmore⟩ := List.forall_mem_cons.mp h
    rw [List.append_cons, ih hmore, held_snoc, next, hacquired, hreleased]
    rfl

/-- An operation may use and release what is held. -/
def May (held : List ρ) (o : O) : Prop :=
  (∀ r ∈ L.used o, r ∈ held) ∧ ∀ r ∈ L.released o, r ∈ held

/-- Every operation uses and releases what was held before it. -/
def Careful (es : List (Event R)) : Prop :=
  ∀ pre e post, es = pre ++ e :: post → L.May (L.held pre) e.op

/-- A program whose operations may only use what is held is careful in every run. -/
theorem careful_of_runs {Q : List (Event R) → α → Prop} {p q : Prog R α} {es : List (Event R)}
    (hsat : Prog.Sat (fun h o => L.May (L.held h) o) Q [] p) (hruns : Prog.Runs p es q) :
    L.Careful es := by
  rintro pre e post rfl
  simpa using hsat.perform hruns

variable {L}

/-- What was acquired was released as often, or is held. -/
theorem Careful.count_acquired {es : List (Event R)} (h : L.Careful es) (r : ρ) :
    es.countP (fun e => L.acquired e = some r) =
      es.countP (fun e => L.released e.op = some r) + (L.held es).count r := by
  induction es using List.reverseRecOn with
  | nil => rfl
  | append_singleton es e ih =>
    have hes : L.Careful es := by
      rintro pre d post rfl
      exact h pre d (post ++ [e]) (by simp)
    have hmay := (h es e [] rfl).2
    rw [List.countP_append, List.countP_append, ih hes, held_snoc, next, List.count_append,
      List.countP_singleton, List.countP_singleton]
    have hacquired : (L.acquired e).toList.count r = if L.acquired e = some r then 1 else 0 := by
      cases L.acquired e with
      | none => rfl
      | some r' => simp [List.count_singleton]
    cases hreleased : L.released e.op with
    | none =>
      rw [hacquired]
      simp only [reduceCtorEq, decide_false, Bool.false_eq_true, if_false, decide_eq_true_eq]
      omega
    | some r' =>
      have hheld : r' ∈ L.held es := hmay r' hreleased
      rw [hacquired]
      by_cases hr : r' = r
      · subst hr
        have hpos := List.count_pos_iff.mpr hheld
        rw [List.count_erase_self]
        simp only [decide_true, if_true, decide_eq_true_eq]
        omega
      · have hne : ¬some r' = some r := fun heq => hr (Option.some.inj heq)
        rw [List.count_erase_of_ne (Ne.symm hr)]
        simp only [hne, decide_false, Bool.false_eq_true, if_false, decide_eq_true_eq]
        omega

/-- Where nothing is held, everything was released as often as it was acquired. -/
theorem Careful.balanced {es : List (Event R)} (h : L.Careful es) (hnone : L.held es = []) (r : ρ) :
    es.countP (fun e => L.acquired e = some r) =
      es.countP (fun e => L.released e.op = some r) := by
  rw [h.count_acquired r, hnone, List.count_nil, Nat.add_zero]

end Ledger

end Lib.Interaction
