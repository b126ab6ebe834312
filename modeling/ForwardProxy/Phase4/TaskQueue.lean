import Mathlib.Algebra.BigOperators.Fin
import Mathlib.Logic.Function.Basic
import ForwardProxy.Lib.Transition

/-!
# The task queue of phases 3 and 4

`TaskQueue` and `ThreadPool` of `server_phase3.cpp` and `server_phase4.cpp`, which are the same.
Other than in phase 5, `stop` sets the flag without the lock. A worker that has found the queue
empty and the flag unset holds the lock until it waits, but between the two the flag may be set and
all be notified, and then nobody wakes the worker.

No wake-up for a task is lost, also while the pool is shut down (`tasksSafe_of_run`). At most one
worker misses the shutdown, and it does exactly if all of that happens between its look at the queue
and its wait (`waits_iff_missed`). With a worker that missed it `shutdown` does not return, and
nothing else keeps it from returning (`stuck_iff_missed`). Every worker of every pool may be that
one (`shutdown_hangs`).
-/

namespace ForwardProxy.Phase4

open Lib.Transition

/-- `TaskQueue`: the tasks that wait, oldest first, and the flag. -/
structure TaskQueue (τ : Type) where
  tasks : List τ := []
  shutdown : Bool := false

variable {τ W : Type}

namespace TaskQueue

/-- The critical section of `push`, which takes tasks also after `stop`. -/
def push (q : TaskQueue τ) (task : τ) : TaskQueue τ := { q with tasks := q.tasks ++ [task] }

/-- `pop` with the lock: `none` where the predicate of the wait is false, and else the task, or no
task for `nullptr`. -/
def pop (q : TaskQueue τ) : Option (Option τ × TaskQueue τ) :=
  if !q.tasks.isEmpty || q.shutdown then
    -- An empty queue comes to this point only with `shutdown` set.
    match q.tasks with
    | [] => some (none, q)
    | task :: tasks => some (some task, { q with tasks := tasks })
  else none

/-- The predicate of the wait is false exactly where there is no task and no shutdown. -/
theorem pop_eq_none_iff {q : TaskQueue τ} :
    q.pop = none ↔ q.tasks = [] ∧ q.shutdown = false := by
  unfold pop
  cases htasks : q.tasks <;> cases hdown : q.shutdown <;> simp

/-- A task is popped exactly where it is the oldest. -/
theorem pop_eq_some_iff {q q' : TaskQueue τ} {task : τ} :
    q.pop = some (some task, q') ↔ q.tasks = task :: q'.tasks ∧ q'.shutdown = q.shutdown := by
  unfold pop
  cases htasks : q.tasks with
  | nil => cases hdown : q.shutdown <;> simp
  | cons t ts =>
    obtain ⟨ts', down'⟩ := q'
    simp only [List.isEmpty_cons, Bool.not_false, Bool.true_or, if_true, Option.some.injEq,
      Prod.mk.injEq, TaskQueue.mk.injEq, List.cons.injEq]
    grind

/-- No task is popped, for `nullptr`, exactly where there is none and the flag is set. -/
theorem pop_eq_nullptr_iff {q q' : TaskQueue τ} :
    q.pop = some (none, q') ↔ q.tasks = [] ∧ q.shutdown = true ∧ q' = q := by
  unfold pop
  cases htasks : q.tasks <;> cases hdown : q.shutdown <;> simp [eq_comm]

end TaskQueue

/-! ## The pool -/

/-- Where a worker is: about to test `running`; in `pop`, without the lock; about to wait in it,
with the lock; waiting; running a task; past the loop. -/
inductive Worker (τ : Type)
  | ready
  | popping
  | looked
  | asleep
  | busy (task : τ)
  | done

/-- What a worker is about with the result of `pop`. -/
def Worker.ofPop : Option τ → Worker τ
  | some task => .busy task
  | none => .done

/-- What `notify_all` does to a worker. -/
def Worker.notified : Worker τ → Worker τ
  | .asleep => .popping
  | w => w

/-- The worker is about to look at the queue. -/
def Worker.isPopping : Worker τ → Bool
  | .popping => true
  | _ => false

/-- With a result of `pop` the worker is past it. -/
@[simp]
theorem Worker.isPopping_ofPop (r : Option τ) : (ofPop r).isPopping = false := by cases r <;> rfl

/-- Where the call of `shutdown` is, which the destructor makes: before it, past `running = false`,
past `shutdown = true`, past `notify_all`, and past the last `join`. -/
inductive Closer
  | idle
  | lowered
  | flagged
  | joining
  | joined
  deriving DecidableEq

/-- A pool: its queue, `running`, where each worker is, and how far the calls of `push` and
`shutdown` are. -/
structure PoolState (W τ : Type) where
  queue : TaskQueue τ := {}
  running : Bool := true
  workers : W → Worker τ := fun _ => .ready
  /-- The calls of `push` that are past the critical section and before `notify_one`. -/
  pushing : ℕ := 0
  closer : Closer := .idle

/-- The steps of a pool. -/
inductive PoolEvent (W τ : Type)
  | push (task : τ)
  /-- With the worker that wakes up. -/
  | notifyOne (w : Option W)
  | lower
  | flag
  | notifyAll
  | join
  | enter (w : W)
  | look (w : W)
  | sleep (w : W)
  | wake (w : W)
  | pop (w : W) (result : Option τ)
  | finish (w : W)

namespace PoolState

/-- Nobody holds the lock over a step. -/
def Free (s : PoolState W τ) : Prop := ∀ w, s.workers w ≠ .looked

/-- What a worker does, with where it is after that and what it makes of the queue. -/
inductive Act (s : PoolState W τ) (w : W) : PoolEvent W τ → Worker τ → TaskQueue τ → Prop
  | enter (hw : s.workers w = .ready) :
      Act s w (.enter w) (if s.running then .popping else .done) s.queue
  | pop {r : Option τ} {q : TaskQueue τ} (hw : s.workers w = .popping) (hfree : s.Free)
      (hpop : s.queue.pop = some (r, q)) : Act s w (.pop w r) (.ofPop r) q
  /-- The predicate of the wait is false. -/
  | look (hw : s.workers w = .popping) (hfree : s.Free) (hpop : s.queue.pop = none) :
      Act s w (.look w) .looked s.queue
  /-- The lock is given back and the wait begins, at once. -/
  | sleep (hw : s.workers w = .looked) : Act s w (.sleep w) .asleep s.queue
  /-- A wake-up without a notification. -/
  | wake (hw : s.workers w = .asleep) : Act s w (.wake w) .popping s.queue
  | finish {task : τ} (hw : s.workers w = .busy task) : Act s w (.finish w) .ready s.queue

section Step

variable [DecidableEq W]

/-- The pool with one worker elsewhere. -/
def setWorker (s : PoolState W τ) (w : W) (worker : Worker τ) : PoolState W τ :=
  { s with workers := Function.update s.workers w worker }

/-- What a step does to the pool. Sections under the lock come only while nobody holds it. -/
inductive Step : PoolState W τ → PoolEvent W τ → PoolState W τ → Prop
  | push {s : PoolState W τ} (task : τ) (hfree : s.Free) :
      Step s (.push task) { s with queue := s.queue.push task, pushing := s.pushing + 1 }
  | notifyOne {s : PoolState W τ} {n : ℕ} {w : W} (hn : s.pushing = n + 1)
      (hw : s.workers w = .asleep) :
      Step s (.notifyOne (some w)) ({ s with pushing := n }.setWorker w .popping)
  /-- Without a waiting worker a notification has no effect. -/
  | notifyNobody {s : PoolState W τ} {n : ℕ} (hn : s.pushing = n + 1)
      (hw : ∀ w, s.workers w ≠ .asleep) : Step s (.notifyOne none) { s with pushing := n }
  | lower {s : PoolState W τ} (hc : s.closer = .idle) :
      Step s .lower { s with running := false, closer := .lowered }
  | flag {s : PoolState W τ} (hc : s.closer = .lowered) :
      Step s .flag { s with queue := { s.queue with shutdown := true }, closer := .flagged }
  | notifyAll {s : PoolState W τ} (hc : s.closer = .flagged) :
      Step s .notifyAll
        { s with workers := fun w => (s.workers w).notified, closer := .joining }
  | join {s : PoolState W τ} (hc : s.closer = .joining) (hw : ∀ w, s.workers w = .done) :
      Step s .join { s with closer := .joined }
  | act {s : PoolState W τ} {w : W} {e : PoolEvent W τ} {worker : Worker τ} {q : TaskQueue τ}
      (h : Act s w e worker q) : Step s e ({ s with queue := q }.setWorker w worker)

end Step

end PoolState

/-- The pool from its construction on. -/
def poolSystem (W τ : Type) [DecidableEq W] : System (PoolState W τ) (PoolEvent W τ) where
  init := {}
  step := PoolState.Step

namespace PoolState

variable [DecidableEq W]

/-- A step of a worker leaves the queue alone. -/
@[simp]
theorem setWorker_queue (s : PoolState W τ) (w : W) (worker : Worker τ) :
    (s.setWorker w worker).queue = s.queue := rfl

/-- A step of a worker leaves the call of `shutdown` alone. -/
@[simp]
theorem setWorker_closer (s : PoolState W τ) (w : W) (worker : Worker τ) :
    (s.setWorker w worker).closer = s.closer := rfl

/-- A step of a worker leaves `running` alone. -/
@[simp]
theorem setWorker_running (s : PoolState W τ) (w : W) (worker : Worker τ) :
    (s.setWorker w worker).running = s.running := rfl

/-- A step of a worker leaves the calls of `push` alone. -/
@[simp]
theorem setWorker_pushing (s : PoolState W τ) (w : W) (worker : Worker τ) :
    (s.setWorker w worker).pushing = s.pushing := rfl

/-- The worker is where it was set to. -/
theorem setWorker_self (s : PoolState W τ) (w : W) (worker : Worker τ) :
    (s.setWorker w worker).workers w = worker := Function.update_self ..

/-- The other workers are where they were. -/
theorem setWorker_of_ne (s : PoolState W τ) {w w' : W} (h : w' ≠ w) (worker : Worker τ) :
    (s.setWorker w worker).workers w' = s.workers w' := Function.update_of_ne h ..

end PoolState

/-! ## The tasks -/

/-- The task that a push put into the queue. -/
def PoolEvent.pushed : PoolEvent W τ → Option τ
  | .push task => some task
  | _ => none

/-- The task that a pop took out of the queue. -/
def PoolEvent.popped : PoolEvent W τ → Option τ
  | .pop _ result => result
  | _ => none

namespace PoolState

variable [DecidableEq W] {s s' : PoolState W τ} {e : PoolEvent W τ}

/-- A task that is pushed comes to the end, and one that is popped is taken from the front. -/
theorem Step.tasks (h : Step s e s') :
    s.queue.tasks ++ e.pushed.toList = e.popped.toList ++ s'.queue.tasks := by
  cases h with
  | push task => rfl
  | notifyOne | notifyNobody | lower | flag | notifyAll | join => exact List.append_nil _
  | act h =>
    cases h with
    | @pop r _ _ _ hpop =>
      cases r with
      | some task => exact (List.append_nil _).trans (TaskQueue.pop_eq_some_iff.mp hpop).1
      | none =>
        obtain ⟨-, -, rfl⟩ := TaskQueue.pop_eq_nullptr_iff.mp hpop
        exact List.append_nil _
    | enter | look | sleep | wake | finish => exact List.append_nil _

/-- The flag is set by `stop` alone, and stays. -/
theorem Step.shutdown (h : Step s e s') :
    s'.queue.shutdown = true ↔ s.queue.shutdown = true ∨ e = .flag := by
  cases h with
  | flag => simp
  | push | notifyOne | notifyNobody | lower | notifyAll | join => simp [TaskQueue.push]
  | @act _ _ _ q h =>
    cases h with
    | @pop r _ _ _ hpop =>
      have hq : q.shutdown = s.queue.shutdown := by
        cases r with
        | some task => exact (TaskQueue.pop_eq_some_iff.mp hpop).2
        | none => rw [(TaskQueue.pop_eq_nullptr_iff.mp hpop).2.2]
      simp [hq]
    | enter | look | sleep | wake | finish => simp

end PoolState

/-! ## The lock -/

namespace PoolState

/-- One worker at most has the lock between two steps, and then the queue is empty. -/
structure Locked (s : PoolState W τ) : Prop where
  alone : ∀ w w', s.workers w = .looked → s.workers w' = .looked → w = w'
  empty : ∀ w, s.workers w = .looked → s.queue.tasks = []

variable [DecidableEq W] {s s' : PoolState W τ} {e : PoolEvent W τ}

/-- A worker that is about to wait was it before, or has just looked at the queue. -/
theorem Step.looked (h : Step s e s') {w : W} (hw : s'.workers w = .looked) :
    (s.workers w = .looked ∧ s'.queue.tasks = s.queue.tasks) ∨
      e = .look w ∧ s.Free ∧ s.queue.pop = none ∧ s'.queue = s.queue ∧
        ∀ w', w' ≠ w → s'.workers w' = s.workers w' := by
  cases h with
  | push task hfree => exact absurd hw (hfree w)
  | @notifyOne n w₀ _ _ =>
    by_cases hne : w = w₀
    · subst hne
      rw [setWorker_self] at hw
      cases hw
    · exact Or.inl ⟨by rwa [setWorker_of_ne _ hne] at hw, rfl⟩
  | notifyAll =>
    dsimp only at hw
    cases hold : s.workers w <;> simp [hold, Worker.notified] at hw ⊢
  | notifyNobody | lower | flag | join => exact Or.inl ⟨hw, rfl⟩
  | @act w₀ _ worker q h =>
    by_cases hne : w = w₀
    · subst hne
      rw [setWorker_self] at hw
      subst hw
      generalize hworker : Worker.looked = worker at h
      cases h with
      | look _ hfree hpop =>
        exact Or.inr ⟨rfl, hfree, hpop, rfl, fun w' hw' => setWorker_of_ne _ hw' _⟩
      | enter => split at hworker <;> cases hworker
      | @pop r => cases r <;> cases hworker
      | sleep | wake | finish => cases hworker
    · rw [setWorker_of_ne _ hne] at hw
      refine Or.inl ⟨hw, ?_⟩
      cases h with
      | pop _ hfree _ => exact absurd hw (hfree w)
      | enter | look | sleep | wake | finish => rfl

/-- A step leaves at most one worker with the lock, and that one as it found the queue. -/
theorem Step.locked (h : Step s e s') (hs : s.Locked) : s'.Locked where
  alone w w' hw hw' := by
    rcases h.looked hw with ⟨hold, -⟩ | ⟨he, hfree, -, -, hothers⟩
    · rcases h.looked hw' with ⟨hold', -⟩ | ⟨he', hfree', -, -, hothers'⟩
      · exact hs.alone w w' hold hold'
      · exact absurd hold (hfree' w)
    · by_contra hne
      rw [hothers w' (Ne.symm hne)] at hw'
      exact hfree w' hw'
  empty w hw := by
    rcases h.looked hw with ⟨hold, htasks⟩ | ⟨-, -, hpop, hqueue, -⟩
    · rw [htasks]
      exact hs.empty w hold
    · rw [hqueue]
      exact (TaskQueue.pop_eq_none_iff.mp hpop).1

end PoolState

/-! ## Notifications of tasks -/

namespace PoolState

variable [Fintype W]

/-- The workers that are about to look at the queue. -/
def popping (s : PoolState W τ) : ℕ := ∑ w, (s.workers w).isPopping.toNat

/-- While a worker sleeps, there is for each queued task a notification to be sent or a worker about
to look at the queue. -/
def Covered (s : PoolState W τ) : Prop :=
  ∀ w, s.workers w = .asleep → s.queue.tasks.length ≤ s.pushing + s.popping

variable [DecidableEq W] {s s' : PoolState W τ} {e : PoolEvent W τ}

/-- One worker elsewhere changes the number of those about to look by that worker. -/
theorem popping_setWorker (s : PoolState W τ) (w : W) (worker : Worker τ) :
    (s.setWorker w worker).popping + (s.workers w).isPopping.toNat =
      s.popping + worker.isPopping.toNat := by
  have hothers : ∑ w' ∈ Finset.univ.erase w, ((s.setWorker w worker).workers w').isPopping.toNat =
      ∑ w' ∈ Finset.univ.erase w, (s.workers w').isPopping.toNat := by
    apply Finset.sum_congr rfl
    intro w' hw'
    rw [setWorker_of_ne _ (Finset.ne_of_mem_erase hw')]
  have hw := Finset.mem_univ w
  have hnew := Finset.add_sum_erase Finset.univ
    (fun w' => ((s.setWorker w worker).workers w').isPopping.toNat) hw
  have hold := Finset.add_sum_erase Finset.univ (fun w' => (s.workers w').isPopping.toNat) hw
  rw [setWorker_self, hothers] at hnew
  unfold popping
  omega

/-- A step keeps a notification or a look for each task that waits. -/
theorem Step.covered (h : Step s e s') (hlocked : s.Locked) (hs : s.Covered) : s'.Covered := by
  intro w' hw'
  cases h with
  | push task =>
    have hold := hs w' hw'
    have hpopping : popping { s with
      queue := s.queue.push task, pushing := s.pushing + 1 } = s.popping := rfl
    rw [hpopping]
    simp only [TaskQueue.push, List.length_append, List.length_singleton]
    omega
  | @notifyOne n w hn hw =>
    have hold := hs w hw
    have hcount := popping_setWorker { s with pushing := n } w .popping
    have hpopping : popping { s with pushing := n } = s.popping := rfl
    simp only [hw, hpopping, Worker.isPopping, Bool.toNat_true, Bool.toNat_false] at hcount
    simp only [setWorker_queue, setWorker_pushing]
    omega
  | notifyNobody _ hw => exact absurd hw' (hw w')
  | notifyAll =>
    dsimp only at hw'
    cases hold : s.workers w' <;> simp [hold, Worker.notified] at hw'
  | lower | flag | join => exact hs w' hw'
  | @act w _ worker q h =>
    have hcount := popping_setWorker { s with queue := q } w worker
    have hpopping : popping { s with queue := q } = s.popping := rfl
    rw [hpopping] at hcount
    simp only [setWorker_queue, setWorker_pushing]
    -- A worker other than the one that acts has slept before.
    have hold : w' ≠ w → s.queue.tasks.length ≤ s.pushing + s.popping := fun hne =>
      hs w' (by rwa [setWorker_of_ne _ hne] at hw')
    have hself : w' = w → worker = .asleep := by
      rintro rfl
      rwa [setWorker_self] at hw'
    cases h with
    | enter hw =>
      have hne : w' ≠ w := by
        intro heq
        have hworker := hself heq
        split at hworker <;> cases hworker
      have hle := hold hne
      simp only [hw, Worker.isPopping, Bool.toNat_false] at hcount
      omega
    | @pop r _ hw _ hpop =>
      have hne : w' ≠ w := by
        intro heq
        have hworker := hself heq
        cases r <;> cases hworker
      have hle := hold hne
      cases r with
      | some task =>
        obtain ⟨htasks, -⟩ := TaskQueue.pop_eq_some_iff.mp hpop
        simp only [hw, Worker.isPopping_ofPop, Bool.toNat_false] at hcount
        simp only [Worker.isPopping, Bool.toNat_true] at hcount
        simp only [htasks, List.length_cons] at hle
        omega
      | none =>
        obtain ⟨htasks, -, rfl⟩ := TaskQueue.pop_eq_nullptr_iff.mp hpop
        simp [htasks]
    | look _ _ hpop => simp [(TaskQueue.pop_eq_none_iff.mp hpop).1]
    | sleep hw => simp [hlocked.empty w hw]
    | wake hw =>
      have hle := hs w hw
      simp only [hw, Worker.isPopping, Bool.toNat_true, Bool.toNat_false] at hcount
      omega
    | finish hw =>
      have hne : w' ≠ w := fun heq => by cases hself heq
      have hle := hold hne
      simp only [hw, Worker.isPopping, Bool.toNat_false] at hcount
      omega

end PoolState

/-! ## One task more -/

/-- A worker is in `pop`. -/
def Worker.inPop : Worker τ → Bool
  | .popping | .looked | .asleep => true
  | _ => false

section Pops

variable [DecidableEq W]

/-- The worker gets a task. -/
def PoolEvent.pops (w : W) : PoolEvent W τ → Bool
  | .pop w' (some _) => w' = w
  | _ => false

namespace PoolState

variable {s s' : PoolState W τ} {e : PoolEvent W τ}

/-- `running` is never set again. -/
theorem Step.running (h : Step s e s') (hrun : s.running = false) : s'.running = false := by
  cases h with
  | lower => rfl
  | push | notifyOne | notifyNobody | flag | notifyAll | join => exact hrun
  | act h => exact hrun

/-- Once `running` is false, no worker gets to `pop` again. -/
theorem Step.inPop (h : Step s e s') (hrun : s.running = false) (w : W) :
    ((s'.workers w).inPop = true → (s.workers w).inPop = true ∧ e.pops w = false) ∧
      (e.pops w = true → (s.workers w).inPop = true) := by
  cases h with
  | push | notifyNobody | flag | join | lower => exact ⟨fun hw => ⟨hw, rfl⟩, nofun⟩
  | @notifyOne n w₀ _ hw₀ =>
    refine ⟨fun hw => ⟨?_, rfl⟩, nofun⟩
    by_cases hne : w = w₀
    · rw [hne, hw₀]
      rfl
    · rwa [setWorker_of_ne _ hne] at hw
  | notifyAll =>
    refine ⟨fun hw => ⟨?_, rfl⟩, nofun⟩
    dsimp only at hw
    cases hold : s.workers w <;> simp [hold, Worker.notified, Worker.inPop] at hw ⊢
  | @act w₀ _ worker q h =>
    by_cases hne : w = w₀
    · subst hne
      rw [setWorker_self]
      cases h with
      -- A worker that finds `running` false is past the loop.
      | enter hw =>
        rw [hrun]
        exact ⟨nofun, nofun⟩
      | @pop r _ hw =>
        rw [hw]
        exact ⟨fun h => (by cases r <;> cases h), fun _ => rfl⟩
      | look hw | sleep hw | wake hw =>
        rw [hw]
        exact ⟨fun _ => ⟨rfl, rfl⟩, fun _ => rfl⟩
      | finish => exact ⟨nofun, nofun⟩
    · rw [setWorker_of_ne _ hne]
      have hother : e.pops w = false := by
        cases h with
        | @pop r => cases r <;> simp [PoolEvent.pops, Ne.symm hne]
        | enter | look | sleep | wake | finish => rfl
      exact ⟨fun hw => ⟨hw, hother⟩, fun hpops => by simp [hother] at hpops⟩

end PoolState

end Pops

/-! ## The notification of the shutdown -/

/-- The event wakes the worker, if it waits. -/
def PoolEvent.Wakes (w : W) : PoolEvent W τ → Prop
  | .notifyOne w' => w' = some w
  | .notifyAll => True
  | .wake w' => w' = w
  | _ => False

/-- The worker has looked at the queue before `shutdown` set the flag and notified all, has begun to
wait after that, and was not woken since. -/
def Missed (w : W) (es : List (PoolEvent W τ)) : Prop :=
  ∃ before between after, es = before ++ .look w :: (between ++ .sleep w :: after) ∧
    .flag ∈ between ∧ .notifyAll ∈ between ∧ ∀ e ∈ after, ¬e.Wakes w

namespace PoolState

/-- A worker that waits or is about to. -/
def Parked (s : PoolState W τ) (w : W) : Prop := s.workers w = .looked ∨ s.workers w = .asleep

variable [DecidableEq W] {s s' : PoolState W τ} {e : PoolEvent W τ}

/-- A worker that waits has waited before and was not woken, or has begun to. -/
theorem Step.asleep_iff (h : Step s e s') (w : W) : s'.workers w = .asleep ↔
    (s.workers w = .asleep ∧ ¬e.Wakes w) ∨ s.workers w = .looked ∧ e = .sleep w := by
  cases h with
  | push | notifyNobody | lower | flag | join => simp [PoolEvent.Wakes]
  | @notifyOne n w₀ _ hw₀ =>
    by_cases hne : w = w₀
    · subst hne
      simp [setWorker_self, PoolEvent.Wakes]
    · simp [setWorker_of_ne _ hne, PoolEvent.Wakes, Ne.symm hne]
  | notifyAll =>
    dsimp only
    cases hold : s.workers w <;> simp [Worker.notified, PoolEvent.Wakes]
  | @act w₀ _ worker q h =>
    by_cases hne : w = w₀
    · subst hne
      rw [setWorker_self]
      cases h with
      | enter hw => cases s.running <;> simp [hw]
      | @pop r _ hw => cases r <;> simp [hw, Worker.ofPop]
      | look hw => simp [hw]
      | sleep hw => simp [hw]
      | wake hw => simp [hw, PoolEvent.Wakes]
      | finish hw => simp [hw]
    · rw [setWorker_of_ne _ hne]
      cases h <;> simp [PoolEvent.Wakes, Ne.symm hne]

end PoolState

section Closing

variable {past : List (PoolEvent W τ × PoolState W τ)} {s : PoolState W τ}

/-- What the steps of the shutdown have come to. -/
structure Closing (es : List (PoolEvent W τ)) (s : PoolState W τ) : Prop where
  flag : .flag ∈ es ↔ s.queue.shutdown = true
  notifyAll : .notifyAll ∈ es ↔ s.closer = .joining ∨ s.closer = .joined
  flagged : s.closer = .flagged ∨ s.closer = .joining ∨ s.closer = .joined →
    s.queue.shutdown = true

/-- All are notified only after the flag was set. -/
theorem Closing.flag_of_notifyAll {es : List (PoolEvent W τ)} (h : Closing es s)
    (hes : .notifyAll ∈ es) : .flag ∈ es :=
  h.flag.mpr (h.flagged (Or.inr (h.notifyAll.mp hes)))

variable [DecidableEq W]

/-- How far the call of `shutdown` is tells which of its steps were done. -/
theorem closing_of_run (h : Run (poolSystem W τ) past s) : Closing (events past) s := by
  refine h.invariant (I := fun past s => Closing (events past) s) ?_ ?_
  · exact ⟨by simp [poolSystem], by simp [poolSystem], by simp [poolSystem]⟩
  · intro past s e s' hs hstep
    have hmem : ∀ e₁, e₁ ∈ events (past ++ [(e, s')]) ↔ e₁ ∈ events past ∨ e = e₁ := by
      intro e₁
      simp [eq_comm]
    have hkeep : s.queue.shutdown = true → s'.queue.shutdown = true := fun hdown =>
      hstep.shutdown.mpr (Or.inl hdown)
    refine ⟨by rw [hmem, hs.flag, hstep.shutdown], ?_, ?_⟩
    · rw [hmem, hs.notifyAll]
      cases hstep with
      | push | notifyOne | notifyNobody => simp
      | lower hc | flag hc | notifyAll hc | join hc => simp [hc]
      | act h => cases h <;> simp
    · have hflagged := hs.flagged
      cases hstep with
      | push | notifyOne | notifyNobody => exact hflagged
      | lower hc => simp
      | flag hc => simp
      | notifyAll hc => exact fun _ => hflagged (Or.inl hc)
      | join hc => exact fun _ => hflagged (Or.inr (Or.inl hc))
      | act h => exact fun hclosed => hkeep (hflagged hclosed)

/-- After its look at the queue, a worker has kept the lock, and the flag and the notification of
all have come later. -/
theorem looked_of_run (h : Run (poolSystem W τ) past s) {w : W} (hw : s.workers w = .looked) :
    ∃ before between, events past = before ++ .look w :: between ∧
      (.flag ∈ events past → .flag ∈ between) ∧
      (.notifyAll ∈ events past → .notifyAll ∈ between) := by
  induction h with
  | start => cases hw
  | @step past s s' e h hstep ih =>
    rw [events_append, events_cons, events_nil]
    rcases PoolState.Step.looked hstep hw with ⟨hold, -⟩ | ⟨rfl, -, hpop, -, -⟩
    · obtain ⟨before, between, hes, hflag, hall⟩ := ih hold
      refine ⟨before, between ++ [e], by simp [hes], fun hmem => ?_, fun hmem => ?_⟩
      · exact (List.mem_append.mp hmem).elim (fun h => by simp [hflag h]) (fun h => by simp_all)
      · exact (List.mem_append.mp hmem).elim (fun h => by simp [hall h]) (fun h => by simp_all)
    · -- The flag is not set yet.
      have hclosing := closing_of_run h
      have hflag : .flag ∉ events past := by
        rw [hclosing.flag, (TaskQueue.pop_eq_none_iff.mp hpop).2]
        simp
      have hall : .notifyAll ∉ events past := fun hmem => hflag (hclosing.flag_of_notifyAll hmem)
      exact ⟨events past, [], rfl, by simp [hflag], by simp [hall]⟩

/-- Once all were notified, a worker that waits has missed it. The wait began after that, so the
look came before the flag. -/
theorem missed_of_asleep (h : Run (poolSystem W τ) past s) (hall : .notifyAll ∈ events past) {w : W}
    (hw : s.workers w = .asleep) : Missed w (events past) := by
  induction h with
  | start => cases hw
  | @step past s s' e h hstep ih =>
    rw [events_append, events_cons, events_nil] at hall ⊢
    rcases (PoolState.Step.asleep_iff hstep w).mp hw with ⟨hold, hwakes⟩ | ⟨hlooked, rfl⟩
    · have hall' : .notifyAll ∈ events past := by
        refine (List.mem_append.mp hall).resolve_right fun hmem => hwakes ?_
        rw [← List.mem_singleton.mp hmem]
        trivial
      obtain ⟨before, between, after, hes, hflag, hnotified, hafter⟩ := ih hall' hold
      refine ⟨before, between, after ++ [e], by simp [hes], hflag, hnotified, ?_⟩
      simp only [List.forall_mem_append, List.forall_mem_singleton]
      exact ⟨hafter, hwakes⟩
    · have hall' : .notifyAll ∈ events past := by simpa using hall
      obtain ⟨before, between, hes, hflag, hnotified⟩ := looked_of_run h hlooked
      exact ⟨before, between, [], by simp [hes],
        hflag ((closing_of_run h).flag_of_notifyAll hall'), hnotified hall', by simp⟩

/-- A worker that has begun to wait does so until it is woken. -/
theorem asleep_of_run (h : Run (poolSystem W τ) past s) {w : W} {pre post : List (PoolEvent W τ)}
    (hes : events past = pre ++ .sleep w :: post) (hpost : ∀ e ∈ post, ¬e.Wakes w) :
    s.workers w = .asleep := by
  induction h generalizing post with
  | start => simp at hes
  | @step past s s' e h hstep ih =>
    rw [events_append, events_cons, events_nil] at hes
    rw [PoolState.Step.asleep_iff hstep w]
    rcases snoc_eq_append_cons hes with ⟨-, rfl, -⟩ | ⟨post', rfl, hpast⟩
    · generalize he : PoolEvent.sleep w = e at hstep
      cases hstep with
      | act h =>
        cases h with
        | sleep hw =>
          cases he
          exact Or.inr ⟨hw, rfl⟩
        | enter | pop | look | wake | finish => cases he
      | push | notifyOne | notifyNobody | lower | flag | notifyAll | join => cases he
    · simp only [List.forall_mem_append, List.forall_mem_singleton] at hpost
      exact Or.inl ⟨ih hpast hpost.1, hpost.2⟩

/-- At most one worker holds the lock, all along a run. -/
theorem locked_of_run (h : Run (poolSystem W τ) past s) : s.Locked := by
  refine h.invariant (I := fun _ s => s.Locked) ?_ fun _ _ _ _ hs hstep =>
    PoolState.Step.locked hstep hs
  constructor <;> intros <;> contradiction

/-- After the notification of all, one worker at most waits or is about to. -/
theorem parked_of_run (h : Run (poolSystem W τ) past s) (hall : .notifyAll ∈ events past) {w w' : W}
    (hw : s.Parked w) (hw' : s.Parked w') : w = w' := by
  induction h with
  | start => simp at hall
  | @step past s s' e h hstep ih =>
    rw [events_append, events_cons, events_nil] at hall
    rcases List.mem_append.mp hall with hall | hlast
    · -- No worker looks at the queue any more without a result.
      have hclosing := closing_of_run h
      have hdown := hclosing.flag.mp (hclosing.flag_of_notifyAll hall)
      have hbefore : ∀ w₀, s'.Parked w₀ → s.Parked w₀ := by
        rintro w₀ (hlooked | hasleep)
        · rcases PoolState.Step.looked hstep hlooked with ⟨hold, -⟩ | ⟨-, -, hpop, -, -⟩
          · exact Or.inl hold
          · rw [(TaskQueue.pop_eq_none_iff.mp hpop).2] at hdown
            cases hdown
        · rcases (PoolState.Step.asleep_iff hstep w₀).mp hasleep with ⟨hold, -⟩ | ⟨hold, -⟩
          · exact Or.inr hold
          · exact Or.inl hold
      exact ih hall (hbefore w hw) (hbefore w' hw')
    · -- All that waited are woken, so those that are parked have the lock.
      obtain rfl := List.mem_singleton.mp hlast
      have hlooked : ∀ w₀, s'.Parked w₀ → s'.workers w₀ = .looked := by
        rintro w₀ (hlooked | hasleep)
        · exact hlooked
        · rcases (PoolState.Step.asleep_iff hstep w₀).mp hasleep with ⟨-, hwakes⟩ | ⟨-, he⟩
          · exact absurd trivial hwakes
          · cases he
      exact (PoolState.Step.locked hstep (locked_of_run h)).alone w w' (hlooked w hw)
        (hlooked w' hw')

end Closing

/-! ## Whole runs -/

section Runs

variable [DecidableEq W] {past : List (PoolEvent W τ × PoolState W τ)} {s : PoolState W τ}

/-- What holds of the tasks in a run of a pool and the state that it comes to. -/
structure TasksSafe [Fintype W] (past : List (PoolEvent W τ × PoolState W τ))
    (s : PoolState W τ) : Prop where
  /-- Tasks are popped in the order in which they were pushed, none is popped twice or lost. -/
  in_order : (events past).filterMap PoolEvent.pushed =
    (events past).filterMap PoolEvent.popped ++ s.queue.tasks
  covered : s.Covered
  /-- From the call of `shutdown` on, a worker gets one task more at most. -/
  once_more : ∀ pre post, events past = pre ++ .lower :: post →
    ∀ w, post.countP (PoolEvent.pops w) ≤ 1

/-- After `running = false` a worker that is in `pop` may come out of it with a task, and after that
it gets none. -/
theorem once_more_of_run (h : Run (poolSystem W τ) past s) {pre post : List (PoolEvent W τ)}
    (hes : events past = pre ++ .lower :: post) : s.running = false ∧
      ∀ w, post.countP (PoolEvent.pops w) + (s.workers w).inPop.toNat ≤ 1 := by
  induction h generalizing post with
  | start => simp at hes
  | @step past s s' e h hstep ih =>
    rw [events_append, events_cons, events_nil] at hes
    rcases snoc_eq_append_cons hes with ⟨-, rfl, rfl⟩ | ⟨post', rfl, hpast⟩
    · generalize he : PoolEvent.lower = e at hstep
      cases hstep with
      | lower => exact ⟨rfl, fun w => by simpa using Bool.toNat_le _⟩
      | act h => cases h <;> cases he
      | push | notifyOne | notifyNobody | flag | notifyAll | join => cases he
    · obtain ⟨hrun, hcount⟩ := ih hpast
      refine ⟨PoolState.Step.running hstep hrun, fun w => ?_⟩
      obtain ⟨hafter, hpops⟩ := PoolState.Step.inPop hstep hrun w
      have hold := hcount w
      rw [List.countP_append, List.countP_singleton]
      cases he : e.pops w with
      | true =>
        have hgone : (s'.workers w).inPop = false := by
          by_contra hin
          rw [(hafter (by simpa using hin)).2] at he
          cases he
        rw [hpops he] at hold
        simp only [hgone, if_true, Bool.toNat_true, Bool.toNat_false] at hold ⊢
        omega
      | false =>
        have hle : (s'.workers w).inPop.toNat ≤ (s.workers w).inPop.toNat := by
          cases hin : (s'.workers w).inPop with
          | false => exact Nat.zero_le _
          | true => rw [(hafter hin).1]
        simp only [Bool.false_eq_true, if_false]
        omega

/-- Every run of a pool is safe for its tasks: they are popped in their order, none twice, none is
left to workers that all sleep, and after a shutdown each worker gets one more at most. -/
theorem tasksSafe_of_run [Fintype W] (h : Run (poolSystem W τ) past s) : TasksSafe past s where
  in_order := by
    refine h.invariant (I := fun past s => (events past).filterMap PoolEvent.pushed =
      (events past).filterMap PoolEvent.popped ++ s.queue.tasks) rfl ?_
    intro past s e s' ih hstep
    have hlist : ∀ (f : PoolEvent W τ → Option τ), (events (past ++ [(e, s')])).filterMap f =
        (events past).filterMap f ++ (f e).toList := by
      intro f
      rw [events_append, List.filterMap_append]
      cases hf : f e <;> simp [hf]
    rw [hlist, hlist, ih, List.append_assoc, PoolState.Step.tasks hstep, List.append_assoc]
  covered := by
    have hboth : s.Locked ∧ s.Covered := by
      refine h.invariant (I := fun _ s => s.Locked ∧ s.Covered) ?_ ?_
      · exact ⟨locked_of_run .start, fun w hw => by cases hw⟩
      · intro _ s e s' hs hstep
        exact ⟨PoolState.Step.locked hstep hs.1, PoolState.Step.covered hstep hs.1 hs.2⟩
    exact hboth.2
  once_more pre post hes w := by
    have hcount := (once_more_of_run h hes).2 w
    omega

/-- A worker whose task ends after the call of `shutdown` leaves the next task in the queue. -/
theorem tasksSafe_left_over :
    ∃ (past : List (PoolEvent (Fin 1) ℕ × PoolState (Fin 1) ℕ)) (s : PoolState (Fin 1) ℕ),
      events past = [.enter 0, .push 7, .push 8, .pop 0 (some 7), .lower, .finish 0, .enter 0] ∧
        s.workers 0 = .done ∧ s.queue.tasks = [8] ∧ TasksSafe past s := by
  have hfree : ∀ (s : PoolState (Fin 1) ℕ), s.workers 0 = .popping → s.Free := by
    intro s hs w hw
    rw [Subsingleton.elim w 0, hs] at hw
    cases hw
  have h₁ := (Run.start (S := poolSystem (Fin 1) ℕ)).step (.act (.enter (w := 0) rfl))
  have h₂ := h₁.step (.push 7 (hfree _ rfl))
  have h₃ := h₂.step (.push 8 (hfree _ rfl))
  have h₄ := h₃.step (.act (.pop (w := 0) rfl (hfree _ rfl) rfl))
  have h₅ := h₄.step (.lower rfl)
  have h₆ := h₅.step (.act (.finish (w := 0) rfl))
  have h₇ := h₆.step (.act (.enter (w := 0) rfl))
  exact ⟨_, _, rfl, rfl, rfl, tasksSafe_of_run h₇⟩

/-- Once `shutdown` has notified all, the workers that wait are those that have missed it, and there
is one at most. -/
theorem waits_iff_missed (h : Run (poolSystem W τ) past s) (hall : .notifyAll ∈ events past) :
    (∀ w, s.workers w = .asleep ↔ Missed w (events past)) ∧
      ∀ w w', Missed w (events past) → Missed w' (events past) → w = w' := by
  have hiff : ∀ w, s.workers w = .asleep ↔ Missed w (events past) := by
    intro w
    refine ⟨missed_of_asleep h hall, ?_⟩
    rintro ⟨before, between, after, hes, -, -, hafter⟩
    rw [← List.cons_append, ← List.append_assoc] at hes
    exact asleep_of_run h hes hafter
  refine ⟨hiff, fun w w' hw hw' => ?_⟩
  exact parked_of_run h hall (Or.inr ((hiff w).mpr hw)) (Or.inr ((hiff w').mpr hw'))

/-- The only worker of a pool misses the shutdown. -/
theorem one_misses : ∃ (past : List (PoolEvent (Fin 1) ℕ × PoolState (Fin 1) ℕ))
    (s : PoolState (Fin 1) ℕ), Run (poolSystem (Fin 1) ℕ) past s ∧
      events past = [.enter 0, .look 0, .lower, .flag, .notifyAll, .sleep 0] ∧
        s.closer = .joining ∧ s.pushing = 0 ∧ s.workers 0 = .asleep := by
  have h₁ := (Run.start (S := poolSystem (Fin 1) ℕ)).step (.act (.enter (w := 0) rfl))
  have h₂ := h₁.step (.act (.look (w := 0) rfl (fun w hw => by
    rw [Subsingleton.elim w 0] at hw
    cases hw) rfl))
  have h₃ := h₂.step (.lower rfl)
  have h₄ := h₃.step (.flag rfl)
  have h₅ := h₄.step (.notifyAll rfl)
  exact ⟨_, _, h₅.step (.act (.sleep (w := 0) rfl)), rfl, rfl, rfl, rfl⟩

/-- A pool of one worker, which misses its shutdown. -/
theorem waits_iff_missed_one : ∃ (past : List (PoolEvent (Fin 1) ℕ × PoolState (Fin 1) ℕ))
    (s : PoolState (Fin 1) ℕ), Run (poolSystem (Fin 1) ℕ) past s ∧ s.workers 0 = .asleep ∧
      Missed 0 (events past) := by
  obtain ⟨past, s, h, hes, -, -, hasleep⟩ := one_misses
  have hall : .notifyAll ∈ events past := by simp [hes]
  exact ⟨past, s, h, hasleep, ((waits_iff_missed h hall).1 0).mp hasleep⟩

/-! ## The end of the shutdown -/

/-- Tasks are pushed, and workers wake up without a notification, from outside of the pool. -/
def PoolEvent.External : PoolEvent W τ → Prop
  | .push _ | .wake _ => True
  | _ => False

/-- The pool does nothing more of its own. -/
def PoolState.Stuck (s : PoolState W τ) : Prop := ∀ e s', s.Step e s' → e.External

/-- With one worker that waits and the others at their end, `join` waits for ever. -/
theorem stuck_of_asleep {w : W} (hc : s.closer = .joining) (hpushing : s.pushing = 0)
    (hw : s.workers w = .asleep) (hothers : ∀ w', w' ≠ w → s.workers w' = .done) : s.Stuck := by
  intro e s' hstep
  cases hstep with
  | push => trivial
  | notifyOne hn | notifyNobody hn =>
    rw [hpushing] at hn
    cases hn
  | lower hc' | flag hc' | notifyAll hc' =>
    rw [hc] at hc'
    cases hc'
  | join _ hall =>
    have hdone := hall w
    rw [hw] at hdone
    cases hdone
  | @act w' _ _ _ h =>
    have hwhere : s.workers w' = .asleep ∨ s.workers w' = .done := by
      by_cases hne : w' = w
      · exact Or.inl (hne ▸ hw)
      · exact Or.inr (hothers w' hne)
    cases h with
    | wake => trivial
    | enter hold | pop hold | look hold | sleep hold | finish hold => simp [hold] at hwhere

/-- Of a pool that does nothing more of its own, the workers wait or are at their end. -/
theorem PoolState.Stuck.workers (hs : s.Stuck) (w : W) :
    s.workers w = .asleep ∨ s.workers w = .done := by
  have hfree : s.Free := fun w' hw' => hs _ _ (.act (.sleep hw'))
  cases hw : s.workers w with
  | ready => exact (hs _ _ (.act (.enter hw))).elim
  | popping =>
    cases hpop : s.queue.pop with
    | none => exact (hs _ _ (.act (.look hw hfree hpop))).elim
    | some r => exact (hs _ _ (.act (.pop hw hfree hpop))).elim
  | looked => exact absurd hw (hfree w)
  | asleep => exact Or.inl rfl
  | busy task => exact (hs _ _ (.act (.finish hw))).elim
  | done => exact Or.inr rfl

/-- `shutdown` comes to a halt in `join` exactly where a worker has missed it, the others are at
their end, and no notification is to be sent. -/
theorem stuck_iff_missed (h : Run (poolSystem W τ) past s) (hc : s.closer = .joining) :
    s.Stuck ↔ s.pushing = 0 ∧
      ∃ w, Missed w (events past) ∧ ∀ w', w' ≠ w → s.workers w' = .done := by
  have hall : .notifyAll ∈ events past := (closing_of_run h).notifyAll.mpr (Or.inl hc)
  constructor
  · intro hs
    refine ⟨?_, ?_⟩
    · by_contra hne
      obtain ⟨n, hn⟩ := Nat.exists_eq_succ_of_ne_zero hne
      by_cases hwaits : ∃ w, s.workers w = .asleep
      · obtain ⟨w, hw⟩ := hwaits
        exact hs _ _ (.notifyOne hn hw)
      · exact hs _ _ (.notifyNobody hn (not_exists.mp hwaits))
    · obtain ⟨w, hw⟩ : ∃ w, s.workers w ≠ .done := by
        by_contra hnone
        exact hs _ _ (.join hc fun w => by_contra fun hw => hnone ⟨w, hw⟩)
      have hasleep := (hs.workers w).resolve_right hw
      refine ⟨w, missed_of_asleep h hall hasleep, fun w' hne => ?_⟩
      refine (hs.workers w').resolve_left fun hasleep' => hne ?_
      exact parked_of_run h hall (Or.inr hasleep') (Or.inr hasleep)
  · rintro ⟨hpushing, w, ⟨before, between, after, hes, -, -, hafter⟩, hothers⟩
    rw [← List.cons_append, ← List.append_assoc] at hes
    exact stuck_of_asleep hc hpushing (asleep_of_run h hes hafter) hothers

/-- A pool of one worker, whose shutdown does not return. -/
theorem stuck_iff_missed_one : ∃ (past : List (PoolEvent (Fin 1) ℕ × PoolState (Fin 1) ℕ))
    (s : PoolState (Fin 1) ℕ), Run (poolSystem (Fin 1) ℕ) past s ∧ s.closer = .joining ∧
      s.Stuck := by
  obtain ⟨past, s, h, hes, hc, hpushing, -⟩ := one_misses
  have hmissed : Missed 0 (events past) :=
    ⟨[.enter 0], [.lower, .flag, .notifyAll], [], hes, by simp, by simp, by simp⟩
  have hothers : ∀ w', w' ≠ 0 → s.workers w' = .done := fun w' hne =>
    absurd (Subsingleton.elim w' 0) hne
  exact ⟨past, s, h, hc, (stuck_iff_missed h hc).mpr ⟨hpushing, 0, hmissed, hothers⟩⟩

/-- A worker may miss the shutdown before the others have begun. -/
theorem missed_first (w : W) :
    ∃ (past : List (PoolEvent W τ × PoolState W τ)) (s : PoolState W τ),
      Run (poolSystem W τ) past s ∧ s.closer = .joining ∧ s.running = false ∧ s.pushing = 0 ∧
        s.workers w = .asleep ∧ ∀ w', w' ≠ w → s.workers w' = .ready := by
  have h₁ := (Run.start (S := poolSystem W τ)).step (.act (.enter (w := w) rfl))
  have hfree : PoolState.Free (({} : PoolState W τ).setWorker w .popping) := by
    intro w' hw'
    by_cases hne : w' = w
    · rw [hne, PoolState.setWorker_self] at hw'
      cases hw'
    · rw [PoolState.setWorker_of_ne _ hne] at hw'
      cases hw'
  have h₂ := h₁.step (.act (.look (w := w) (PoolState.setWorker_self ..) hfree rfl))
  have h₃ := h₂.step (.lower rfl)
  have h₄ := h₃.step (.flag rfl)
  have h₅ := h₄.step (.notifyAll rfl)
  have hlooked := congrArg Worker.notified (PoolState.setWorker_self
    (({} : PoolState W τ).setWorker w .popping) w .looked)
  have h₆ := h₅.step (.act (.sleep (w := w) hlooked))
  refine ⟨_, _, h₆, rfl, rfl, rfl, PoolState.setWorker_self .., fun w' hne => ?_⟩
  rw [PoolState.setWorker_of_ne _ hne]
  show Worker.notified
    (((({} : PoolState W τ).setWorker w .popping).setWorker w .looked).workers w') = _
  rw [PoolState.setWorker_of_ne _ hne, PoolState.setWorker_of_ne _ hne]
  rfl

/-- Every worker of every pool may miss the shutdown, with all others at their end. -/
theorem shutdown_hangs [Fintype W] (w : W) :
    ∃ (past : List (PoolEvent W τ × PoolState W τ)) (s : PoolState W τ),
      Run (poolSystem W τ) past s ∧ s.closer = .joining ∧ s.workers w = .asleep ∧
        (∀ w', w' ≠ w → s.workers w' = .done) ∧ s.Stuck := by
  -- The others come to their end one after another, as `running` is false.
  have hsome : ∀ t : Finset W, w ∉ t → ∃ (past : List (PoolEvent W τ × PoolState W τ))
      (s : PoolState W τ), Run (poolSystem W τ) past s ∧ s.closer = .joining ∧
        s.running = false ∧ s.pushing = 0 ∧ s.workers w = .asleep ∧
          ∀ w', w' ≠ w → s.workers w' = if w' ∈ t then .done else .ready := by
    intro t
    induction t using Finset.induction_on with
    | empty => exact fun _ => by simpa using missed_first w
    | @insert w₀ t hnew ih =>
      intro hw
      have hne₀ : w ≠ w₀ := fun heq => hw (heq ▸ Finset.mem_insert_self _ _)
      obtain ⟨past, s, h, hc, hrun, hpushing, hasleep, hothers⟩ :=
        ih fun hmem => hw (Finset.mem_insert_of_mem hmem)
      have hready : s.workers w₀ = .ready := by rw [hothers w₀ hne₀.symm, if_neg hnew]
      have hexit := h.step (.act (.enter hready))
      rw [hrun] at hexit
      refine ⟨_, _, hexit, hc, rfl, hpushing, ?_, fun w' hne => ?_⟩
      · rw [PoolState.setWorker_of_ne _ hne₀]
        exact hasleep
      · by_cases heq : w' = w₀
        · subst heq
          rw [PoolState.setWorker_self, if_pos (Finset.mem_insert_self _ _)]
          rfl
        · rw [PoolState.setWorker_of_ne _ heq]
          simpa [heq] using hothers w' hne
  obtain ⟨past, s, h, hc, -, hpushing, hasleep, hothers⟩ :=
    hsome (Finset.univ.erase w) (Finset.notMem_erase _ _)
  have hdone : ∀ w', w' ≠ w → s.workers w' = .done := fun w' hne => by
    rw [hothers w' hne, if_pos (Finset.mem_erase.mpr ⟨hne, Finset.mem_univ _⟩)]
  exact ⟨past, s, h, hc, hasleep, hdone, stuck_of_asleep hc hpushing hasleep hdone⟩

end Runs

end ForwardProxy.Phase4
