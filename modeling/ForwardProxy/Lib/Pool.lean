import Mathlib.Algebra.BigOperators.Fin
import Mathlib.Logic.Relation
import ForwardProxy.Lib.Interaction

/-!
# Programs that run side by side

A pool is any number of threads over one shared state. Each is at some point of the program that its
job asks for, and a step lets one thread perform its next operation, or starts another. What a
program does on its own (`Sat`) therefore holds of the operations of a thread in every reachable
pool (`sat_of_mem`), and what every operation keeps of the shared state and the trace holds of both
there (`Reachable.invariant`). The events of the trace are counted thread by thread
(`Reachable.countP_eq`).
-/

namespace Lib.Interaction

variable {O : Type} {R : O → Type} {α τ σ : Type}

/-- The threads, each with its job and where it is in its program, the state that they share, and
what they have done. -/
structure Pool (R : O → Type) (τ α σ : Type) where
  shared : σ
  /-- The job of each thread, and where its program is. -/
  threads : List (τ × Prog R α) := []
  /-- The operations performed, the first first, each with the thread that performed it. -/
  trace : List (ℕ × Event R) := []

/-- `act o s r s'` says that `o` may turn the state `s` into `s'` and answer `r`. -/
inductive Pool.Step (body : τ → Prog R α) (act : (o : O) → σ → R o → σ → Prop) :
    Pool R τ α σ → Pool R τ α σ → Prop
  | start (p : Pool R τ α σ) (job : τ) :
      Step body act p { p with threads := p.threads ++ [(job, body job)] }
  | perform {p : Pool R τ α σ} {i : ℕ} {job : τ} {o : O} {k : R o → Prog R α} {r : R o} {s : σ}
      (hi : p.threads[i]? = some (job, .op o k)) (hact : act o p.shared r s) :
      Step body act p {
        shared := s
        threads := p.threads.set i (job, k r)
        trace := p.trace ++ [(i, ⟨o, r⟩)] }

/-- The pools that come of a state without threads. -/
def Pool.Reachable (body : τ → Prog R α) (act : (o : O) → σ → R o → σ → Prop) (s : σ) :
    Pool R τ α σ → Prop :=
  Relation.ReflTransGen (Pool.Step body act) { shared := s }

/-- The events of one thread. -/
def own (i : ℕ) (trace : List (ℕ × Event R)) : List (Event R) :=
  (trace.filter fun e => e.1 = i).map Prod.snd

/-- Nothing was done by no thread. -/
@[simp]
theorem own_nil (i : ℕ) : own i ([] : List (ℕ × Event R)) = [] := rfl

/-- A thread has done what it did in the first part and in the second. -/
@[simp]
theorem own_append (i : ℕ) (t t' : List (ℕ × Event R)) : own i (t ++ t') = own i t ++ own i t' := by
  simp [own]

/-- An event of the thread itself is its own. -/
@[simp]
theorem own_cons_self (i : ℕ) (e : Event R) (t : List (ℕ × Event R)) :
    own i ((i, e) :: t) = e :: own i t := by
  simp [own]

/-- An event of another thread is not. -/
theorem own_cons_ne {i j : ℕ} (h : j ≠ i) (e : Event R) (t : List (ℕ × Event R)) :
    own i ((j, e) :: t) = own i t := by
  simp [own, h]

/-- What a thread has done is what the trace has of it. -/
theorem mem_own {i : ℕ} {e : Event R} {t : List (ℕ × Event R)} : e ∈ own i t ↔ (i, e) ∈ t := by
  simp [own]

/-- Of its own events a thread has done all. -/
theorem own_map_self (i : ℕ) (es : List (Event R)) : own i (es.map fun e => (i, e)) = es := by
  induction es with
  | nil => rfl
  | cons e es ih => rw [List.map_cons, own_cons_self, ih]

/-- Of another's events it has done none. -/
theorem own_map_ne {i j : ℕ} (h : j ≠ i) (es : List (Event R)) :
    own i (es.map fun e => (j, e)) = [] := by
  induction es with
  | nil => rfl
  | cons e es ih => rw [List.map_cons, own_cons_ne h, ih]

namespace Pool

variable {body : τ → Prog R α} {act : (o : O) → σ → R o → σ → Prop} {s : σ}

/-- The events of a thread are a run of its job's program, to where the thread is; and there are no
other events. -/
theorem Reachable.threads_run {p : Pool R τ α σ} (h : Reachable body act s p) :
    (∀ i job q, p.threads[i]? = some (job, q) → Prog.Runs (body job) (own i p.trace) q) ∧
      ∀ e ∈ p.trace, e.1 < p.threads.length := by
  induction h with
  | refl => simp
  | @tail p _ _ hstep ih =>
    obtain ⟨hruns, hbound⟩ := ih
    cases hstep with
    | start job =>
      refine ⟨fun i job' q hi => ?_, fun e he => ?_⟩
      · rcases Nat.lt_or_ge i p.threads.length with hlt | hge
        · rw [List.getElem?_append_left hlt] at hi
          exact hruns i job' q hi
        · -- The new thread has no event yet.
          rw [List.getElem?_append_right hge] at hi
          have hfresh : own i p.trace = [] := by
            rw [own, List.map_eq_nil_iff, List.filter_eq_nil_iff]
            intro e he
            have := hbound e he
            simp only [decide_eq_true_eq]
            omega
          have hnew : i - p.threads.length = 0 := by
            by_contra hpos
            rw [List.getElem?_eq_none (by simp; omega)] at hi
            cases hi
          rw [hnew] at hi
          cases hi
          show Prog.Runs _ (own i p.trace) _
          rw [hfresh]
          exact Prog.Runs.nil _
      · have := hbound e he
        simp only [List.length_append]
        omega
    | @perform j job o k r s' hj hact =>
      -- One event more, of the thread `j`.
      have hlen : j < p.threads.length := by
        by_contra hge
        rw [List.getElem?_eq_none (by omega)] at hj
        cases hj
      refine ⟨fun i job' q hi => ?_, fun e he => ?_⟩
      · dsimp only at hi ⊢
        rw [own_append]
        by_cases hij : j = i
        · subst hij
          rw [List.getElem?_set_self hlen] at hi
          cases hi
          rw [own_cons_self, own_nil]
          exact (hruns j job _ hj).snoc r
        · rw [List.getElem?_set_ne hij] at hi
          rw [own_cons_ne hij, own_nil, List.append_nil]
          exact hruns i job' q hi
      · rw [List.length_set]
        rcases List.mem_append.mp he with he | he
        · exact hbound e he
        · rw [List.mem_singleton.mp he]
          exact hlen

/-- An operation in the trace is one of the program of a thread, with the property `P` of the events
that the thread had before it. -/
theorem Reachable.sat_of_mem {P : τ → List (Event R) → O → Prop} {Q : List (Event R) → α → Prop}
    (hsat : ∀ job, Prog.Sat (P job) Q [] (body job)) {p : Pool R τ α σ}
    (h : Reachable body act s p) {pre post : List (ℕ × Event R)} {i : ℕ} {e : Event R}
    (htrace : p.trace = pre ++ (i, e) :: post) :
    ∃ job q, p.threads[i]? = some (job, q) ∧ P job (own i pre) e.op := by
  obtain ⟨hruns, hbound⟩ := h.threads_run
  have hi : i < p.threads.length := hbound (i, e) (by simp [htrace])
  obtain ⟨⟨job, q⟩, hjob⟩ : ∃ t, p.threads[i]? = some t := ⟨_, List.getElem?_eq_getElem hi⟩
  refine ⟨job, q, hjob, ?_⟩
  have hrun := hruns i job q hjob
  rw [htrace, own_append, own_cons_self] at hrun
  simpa using (hsat job).perform hrun

/-- Where a thread is, the program has what it has of the events of the thread. -/
theorem Reachable.sat_thread {P : τ → List (Event R) → O → Prop}
    {Q : τ → List (Event R) → α → Prop} (hsat : ∀ job, Prog.Sat (P job) (Q job) [] (body job))
    {p : Pool R τ α σ} (h : Reachable body act s p) (i : Fin p.threads.length) :
    Prog.Sat (P (p.threads.get i).1) (Q (p.threads.get i).1) (own i p.trace)
      (p.threads.get i).2 := by
  have hrun := h.threads_run.1 i (p.threads.get i).1 (p.threads.get i).2 (by simp)
  simpa using (hsat _).runs hrun

/-- The number of threads that have a property of their job, of where they are, and of their events.
-/
def number (p : Pool R τ α σ) (f : τ → Prog R α → List (Event R) → Bool) : ℕ :=
  (Finset.univ.filter fun i : Fin p.threads.length =>
    f (p.threads.get i).1 (p.threads.get i).2 (own i p.trace)).card

/-- The number of threads is a sum over the threads. -/
theorem number_eq_sum (p : Pool R τ α σ) (f : τ → Prog R α → List (Event R) → Bool) :
    p.number f = ∑ i : Fin p.threads.length,
      (f (p.threads.get i).1 (p.threads.get i).2 (own i p.trace)).toNat := by
  rw [number, Finset.card_filter]
  apply Finset.sum_congr rfl
  intro i _
  cases f (p.threads.get i).1 (p.threads.get i).2 (own i p.trace) <;> rfl

/-- The events of a trace are those of its threads. -/
theorem countP_own {n : ℕ} (f : Event R → Bool) {t : List (ℕ × Event R)} (h : ∀ e ∈ t, e.1 < n) :
    t.countP (fun e => f e.2) = ∑ i : Fin n, (own i t).countP f := by
  induction t with
  | nil => simp
  | cons e t ih =>
    obtain ⟨j, e⟩ := e
    rw [List.forall_mem_cons] at h
    have hcons : ∀ i : Fin n, (own i ((j, e) :: t)).countP f =
        (own i t).countP f + if i = ⟨j, h.1⟩ then (if f e then 1 else 0) else 0 := by
      intro i
      by_cases hij : i = ⟨j, h.1⟩
      · subst hij
        rw [own_cons_self, List.countP_cons, if_pos rfl]
      · have hne : j ≠ i := fun hj => hij (Fin.ext hj.symm)
        rw [own_cons_ne hne, if_neg hij, Nat.add_zero]
    simp only [hcons, Finset.sum_add_distrib, List.countP_cons, ih h.2]
    simp

/-- The events of a trace are counted thread by thread. -/
theorem Reachable.countP_eq {p : Pool R τ α σ} (h : Reachable body act s p)
    (f : Event R → Bool) :
    p.trace.countP (fun e => f e.2) =
      ∑ i : Fin p.threads.length, (own i p.trace).countP f :=
  countP_own f h.threads_run.2

/-- What holds of the first state, and what every operation keeps of the shared state and the trace,
holds in every reachable pool. -/
theorem Reachable.invariant {Inv : σ → List (ℕ × Event R) → Prop} (hinit : Inv s [])
    (hact : ∀ s' o r s'' i t, act o s' r s'' → Inv s' t → Inv s'' (t ++ [(i, ⟨o, r⟩)]))
    {p : Pool R τ α σ} (h : Reachable body act s p) : Inv p.shared p.trace := by
  induction h with
  | refl => exact hinit
  | tail _ hstep ih =>
    cases hstep with
    | start job => exact ih
    | perform hi ha => exact hact _ _ _ _ _ _ ha ih

/-- A pool whose operations do less is one of those that do more. -/
theorem Reachable.mono {act' : (o : O) → σ → R o → σ → Prop}
    (hact : ∀ o s r s', act o s r s' → act' o s r s') {p : Pool R τ α σ}
    (h : Reachable body act s p) : Reachable body act' s p := by
  induction h with
  | refl => exact .refl
  | tail _ hstep ih =>
    cases hstep with
    | start job => exact ih.tail (Step.start _ job)
    | perform hi ha => exact ih.tail (Step.perform hi (hact _ _ _ _ ha))

/-- A thread may run its program to the end with no other in between, where the handler does as
operations may. -/
theorem Reachable.exec {handle : (o : O) → σ → R o × σ}
    (hact : ∀ o s, act o s (handle o s).1 (handle o s).2) {p : Pool R τ α σ}
    (h : Reachable body act s p) {i : ℕ} {job : τ} {q : Prog R α}
    (hi : p.threads[i]? = some (job, q)) :
    Reachable body act s {
      shared := (q.exec handle p.shared).2.2
      threads := p.threads.set i (job, .ret (q.exec handle p.shared).2.1)
      trace := p.trace ++ (q.exec handle p.shared).1.map fun e => (i, e) } := by
  induction q generalizing p with
  | ret a =>
    have hset : p.threads.set i (job, .ret a) = p.threads := by
      obtain ⟨hlt, hget⟩ := List.getElem?_eq_some_iff.mp hi
      rw [← hget, List.set_getElem_self]
    simpa [Prog.exec, hset] using h
  | op o k ih =>
    have hlt : i < p.threads.length := (List.getElem?_eq_some_iff.mp hi).1
    have hstep := h.tail (Step.perform hi (hact o p.shared))
    have hrest := ih _ hstep (List.getElem?_set_self hlt)
    simpa [Prog.exec] using hrest

/-- A job may be started and run to the end with no other in between. -/
theorem Reachable.start_exec {handle : (o : O) → σ → R o × σ}
    (hact : ∀ o s, act o s (handle o s).1 (handle o s).2) {p : Pool R τ α σ}
    (h : Reachable body act s p) (job : τ) :
    Reachable body act s {
      shared := ((body job).exec handle p.shared).2.2
      threads := p.threads ++ [(job, .ret ((body job).exec handle p.shared).2.1)]
      trace := p.trace ++
        ((body job).exec handle p.shared).1.map fun e => (p.threads.length, e) } := by
  have hstart : Reachable body act s { p with threads := p.threads ++ [(job, body job)] } :=
    h.tail (Step.start p job)
  have hlast : (p.threads ++ [(job, body job)])[p.threads.length]? = some (job, body job) := by simp
  simpa using hstart.exec hact hlast

end Pool

end Lib.Interaction
