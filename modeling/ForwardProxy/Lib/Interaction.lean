import Mathlib.Data.List.Basic

/-!
# Programs that act on the outside

A program either returns, or performs an operation and goes on with the answer. `Runs` is what a
program can do, whatever the answers are; `Sat` gives each operation that it may perform, and its
result, a property of the events before, and `Sat.perform` and `Sat.result` carry it over to every
run. `exec` runs a program against a handler that answers from a state.
-/

namespace Lib.Interaction

/-- A program over the operations `O`, where `R o` is the type of the answers to `o`. -/
inductive Prog {O : Type} (R : O → Type) (α : Type)
  | ret (a : α)
  | op (o : O) (k : R o → Prog R α)

/-- An operation and its answer. -/
structure Event {O : Type} (R : O → Type) where
  op : O
  answer : R op

variable {O : Type} {R : O → Type} {α β σ : Type}

namespace Prog

/-- Goes on with the result of the first program. -/
def bind : Prog R α → (α → Prog R β) → Prog R β
  | ret a, f => f a
  | op o k, f => op o fun r => (k r).bind f

instance : Monad (Prog R) where
  pure := ret
  bind := bind

/-- The program that performs one operation and returns the answer. -/
def perform (o : O) : Prog R (R o) := op o ret

/-- What is pure returns. -/
@[simp]
theorem pure_eq_ret (a : α) : (pure a : Prog R α) = ret a := rfl

/-- A program that has returned goes on at once. -/
@[simp]
theorem ret_bind (a : α) (f : α → Prog R β) : (ret a : Prog R α) >>= f = f a := rfl

/-- An operation is performed before what comes after it. -/
@[simp]
theorem op_bind (o : O) (k : R o → Prog R α) (f : α → Prog R β) :
    op o k >>= f = op o fun r => k r >>= f := rfl

/-- One operation, and what comes after it. -/
@[simp]
theorem perform_bind (o : O) (f : R o → Prog R β) : perform o >>= f = op o f := rfl

/-! ## What a program can do -/

/-- `p` performs the events `es`, the first first, and is then at `q`. -/
inductive Runs : Prog R α → List (Event R) → Prog R α → Prop
  | nil (p : Prog R α) : Runs p [] p
  | cons {o : O} {k : R o → Prog R α} {es : List (Event R)} {q : Prog R α} (r : R o)
      (h : Runs (k r) es q) : Runs (op o k) (⟨o, r⟩ :: es) q

/-- A run goes on by the next operation of the program that it is at. -/
theorem Runs.snoc {p : Prog R α} {es : List (Event R)} {o : O} {k : R o → Prog R α}
    (h : Runs p es (op o k)) (r : R o) : Runs p (es ++ [⟨o, r⟩]) (k r) := by
  generalize hq : op o k = q at h
  induction h with
  | nil p =>
    subst hq
    exact Runs.cons r (Runs.nil _)
  | cons r' h ih => exact Runs.cons r' (ih hq)

/-- Every operation that the program may perform has `P` of the events before it, of which `h` are
those before the program starts, and every result has `Q`. -/
def Sat (P : List (Event R) → O → Prop) (Q : List (Event R) → α → Prop) :
    List (Event R) → Prog R α → Prop
  | h, ret a => Q h a
  | h, op o k => P h o ∧ ∀ r, Sat P Q (h ++ [⟨o, r⟩]) (k r)

section Sat

variable {P : List (Event R) → O → Prop} {Q : List (Event R) → α → Prop}

/-- A result has to have its property. -/
@[simp]
theorem sat_ret (h : List (Event R)) (a : α) : Sat P Q h (ret a) ↔ Q h a := Iff.rfl

/-- An operation has to have its property, and what follows every answer too. -/
@[simp]
theorem sat_op (h : List (Event R)) (o : O) (k : R o → Prog R α) :
    Sat P Q h (op o k) ↔ P h o ∧ ∀ r, Sat P Q (h ++ [⟨o, r⟩]) (k r) := Iff.rfl

/-- So has one operation that is performed. -/
@[simp]
theorem sat_perform_bind (h : List (Event R)) (o : O) (f : R o → Prog R α) :
    Sat P Q h (perform o >>= f) ↔ P h o ∧ ∀ r, Sat P Q (h ++ [⟨o, r⟩]) (f r) := Iff.rfl

/-- The property of the operations may be weakened. -/
theorem Sat.mono {P' : List (Event R) → O → Prop} (hP : ∀ h o, P h o → P' h o) {p : Prog R α}
    {h : List (Event R)} (hp : Sat P Q h p) : Sat P' Q h p := by
  induction p generalizing h with
  | ret a => exact hp
  | op o k ih => exact ⟨hP h o hp.1, fun r => ih r (hp.2 r)⟩

/-- The property of the results may be weakened. -/
theorem Sat.weaken {Q' : List (Event R) → α → Prop} (hQ : ∀ h a, Q h a → Q' h a) {p : Prog R α}
    {h : List (Event R)} (hp : Sat P Q h p) : Sat P Q' h p := by
  induction p generalizing h with
  | ret a => exact hQ h a hp
  | op o k ih => exact ⟨hp.1, fun r => ih r (hp.2 r)⟩

/-- A program goes on with what its first part comes to. -/
theorem Sat.bind {Q' : List (Event R) → β → Prop} {p : Prog R α} {f : α → Prog R β}
    {h : List (Event R)} (hp : Sat P Q h p) (hf : ∀ h' a, Q h' a → Sat P Q' h' (f a)) :
    Sat P Q' h (p >>= f) := by
  induction p generalizing h with
  | ret a => exact hf h a hp
  | op o k ih => exact ⟨hp.1, fun r => ih r (hp.2 r)⟩

/-- What a run comes to has the property that the program has. -/
theorem Sat.runs {p q : Prog R α} {h es : List (Event R)} (hp : Sat P Q h p) (hr : Runs p es q) :
    Sat P Q (h ++ es) q := by
  induction hr generalizing h with
  | nil p => simpa using hp
  | cons r hr ih => simpa using ih (hp.2 r)

/-- In a run, every operation has `P` of the events before it. -/
theorem Sat.perform {p q : Prog R α} {h pre post : List (Event R)} {e : Event R}
    (hp : Sat P Q h p) (hr : Runs p (pre ++ e :: post) q) : P (h ++ pre) e.op := by
  induction pre generalizing p h with
  | nil =>
    cases hr with
    | cons r hr => simpa using hp.1
  | cons d pre ih =>
    cases hr with
    | cons r hr => simpa using ih (hp.2 r) hr

/-- The result of a run has `Q` of its events. -/
theorem Sat.result {p : Prog R α} {es : List (Event R)} {a : α} (hp : Sat P Q [] p)
    (hr : Runs p es (ret a)) : Q es a :=
  hp.runs hr

end Sat

/-! ## Running a program against a handler -/

/-- Runs a program to its end: the events, the result, and the state that the handler leaves. -/
def exec (handle : (o : O) → σ → R o × σ) : Prog R α → σ → List (Event R) × α × σ
  | ret a, s => ([], a, s)
  | op o k, s =>
    let (r, s) := handle o s
    let (es, a, s) := exec handle (k r) s
    (⟨o, r⟩ :: es, a, s)

/-- The events and the result of `exec` are a run of the program. -/
theorem runs_exec (handle : (o : O) → σ → R o × σ) (p : Prog R α) (s : σ) :
    Runs p (exec handle p s).1 (ret (exec handle p s).2.1) := by
  induction p generalizing s with
  | ret a => exact Runs.nil _
  | op o k ih => exact Runs.cons (handle o s).1 (ih _ _)

/-- Every answer among the events is one of the handler. -/
theorem answer_of_mem_exec {handle : (o : O) → σ → R o × σ} {p : Prog R α} {s : σ} {e : Event R}
    (he : e ∈ (exec handle p s).1) : ∃ s', e.answer = (handle e.op s').1 := by
  induction p generalizing s with
  | ret a => cases he
  | op o k ih =>
    rcases List.mem_cons.mp he with rfl | he
    · exact ⟨s, rfl⟩
    · exact ih _ he

/-- A part of the state that no operation of the program changes is the same after it. -/
theorem exec_frame {τ : Type} {handle : (o : O) → σ → R o × σ} (part : σ → τ) {p : Prog R α}
    {Q : List (Event R) → α → Prop} {h : List (Event R)}
    (hp : Sat (fun _ o => ∀ s, part (handle o s).2 = part s) Q h p) (s : σ) :
    part (exec handle p s).2.2 = part s := by
  induction p generalizing s h with
  | ret a => rfl
  | op o k ih =>
    obtain ⟨ho, hk⟩ := hp
    exact (ih _ (hk _) _).trans (ho s)

end Prog

end Lib.Interaction
