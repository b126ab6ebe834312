import Mathlib.Logic.Function.Basic
import ForwardProxy.Lib.Transition

/-!
# The task queue and its workers

`TaskQueue` and `ThreadPool` of `server_phase5.cpp`. A step of a pool is a critical section of
`push`, `pop` or `stop`, a notification that is sent after one, a worker that wakes up without a
notification, or a worker that is done with its task. Callers push and stop; between the critical
section of a call and its notification any other step may come. In every run no task is lost or
popped twice, and no wake-up is lost (`poolSafe_of_run`).
-/

namespace ForwardProxy

open Lib.Transition

/-- `TaskQueue`: the tasks that wait, oldest first, whether it is shut down, and the most that
waited at once. -/
structure TaskQueue (τ : Type) where
  tasks : List τ := []
  shutdown : Bool := false
  highWater : ℕ := 0

variable {τ W C : Type}

namespace TaskQueue

/-- The critical section of `push`, and whether a notification follows. -/
def push (q : TaskQueue τ) (task : τ) : TaskQueue τ × Bool :=
  if q.shutdown then (q, false)
  else
    let tasks := q.tasks ++ [task]
    let highWater := if q.highWater < tasks.length then tasks.length else q.highWater
    ({ q with tasks := tasks, highWater := highWater }, true)

/-- The critical section of `pop`: `none` where the caller has to wait, and else the task, or no
task for `nullptr`. -/
def pop (q : TaskQueue τ) : Option (Option τ × TaskQueue τ) :=
  if !q.tasks.isEmpty || q.shutdown then
    match q.tasks with
    | [] => some (none, q)
    | task :: tasks => some (some task, { q with tasks := tasks })
  else none

/-- The critical section of `stop`. -/
def stop (q : TaskQueue τ) : TaskQueue τ := { q with shutdown := true }

/-- How many tasks wait. -/
def depth (q : TaskQueue τ) : ℕ := q.tasks.length

/-- A queue that is shut down refuses the task. -/
theorem push_of_shutdown {q : TaskQueue τ} (h : q.shutdown = true) (task : τ) :
    q.push task = (q, false) := by
  rw [push, if_pos h]

/-- A running queue takes the task at its end. -/
theorem push_of_running {q : TaskQueue τ} (h : q.shutdown = false) (task : τ) : q.push task =
    ({ q with
      tasks := q.tasks ++ [task]
      highWater := max q.highWater (q.tasks.length + 1) }, true) := by
  rw [push, if_neg (by simp [h])]
  dsimp only
  rw [List.length_append, List.length_singleton]
  congr 2
  split <;> omega

/-- A caller of `pop` has to wait exactly where there is no task and no shutdown. -/
theorem pop_eq_none_iff {q : TaskQueue τ} :
    q.pop = none ↔ q.tasks = [] ∧ q.shutdown = false := by
  unfold pop
  cases htasks : q.tasks <;> cases hdown : q.shutdown <;> simp

/-- `pop` takes the first task, and returns `nullptr` only of a queue that is stopped and empty. -/
theorem pop_cases {q q' : TaskQueue τ} {r : Option τ} (h : q.pop = some (r, q')) :
    (∃ task, r = some task ∧ q.tasks = task :: q'.tasks ∧ q' = { q with tasks := q'.tasks }) ∨
      r = none ∧ q.tasks = [] ∧ q.shutdown = true ∧ q' = q := by
  unfold pop at h
  split at h
  · rename_i hready
    split at h
    · rename_i htasks
      cases h
      rw [htasks] at hready
      exact Or.inr ⟨rfl, htasks, by simpa using hready, rfl⟩
    · rename_i task tasks htasks
      cases h
      exact Or.inl ⟨task, rfl, htasks, rfl⟩
  · cases h

end TaskQueue

/-! ## The pool -/

/-- Where a worker is in its loop: about to enter the critical section of `pop`, waiting in it,
running a task, or past the loop. -/
inductive Worker (τ : Type)
  | ready
  | blocked
  | busy (task : τ)
  | done

/-- Where a caller is: in no call, or past the critical section of one and before its
notification. -/
inductive Caller
  | idle
  | pushed
  | stopped
  deriving DecidableEq

/-- A pool: its queue, what each worker is about, and how far each caller is in its call. -/
structure PoolState (W C τ : Type) where
  queue : TaskQueue τ := {}
  workers : W → Worker τ := fun _ => .ready
  callers : C → Caller := fun _ => .idle

/-- The steps of a pool. Pushes and pops carry their result. -/
inductive PoolEvent (W C τ : Type)
  | push (c : C) (task : τ) (accepted : Bool)
  | notifyOne (c : C)
  | stop (c : C)
  | notifyAll (c : C)
  | wake (w : W)
  | pop (w : W) (result : Option τ)
  | block (w : W)
  | finish (w : W)

/-- What a worker is about with the result of `pop`. -/
def Worker.ofPop : Option τ → Worker τ
  | some task => .busy task
  | none => .done

/-- What `notify_all` does to a worker. -/
def Worker.notified : Worker τ → Worker τ
  | .blocked => .ready
  | w => w

namespace PoolState

section Workers

variable [DecidableEq W] (s : PoolState W C τ)

/-- The pool with one worker at something else. -/
def setWorker (w : W) (worker : Worker τ) : PoolState W C τ :=
  { s with workers := Function.update s.workers w worker }

/-- A step of a worker leaves the queue alone. -/
@[simp]
theorem setWorker_queue (w : W) (worker : Worker τ) : (s.setWorker w worker).queue = s.queue := rfl

/-- A step of a worker leaves the callers alone. -/
@[simp]
theorem setWorker_callers (w : W) (worker : Worker τ) :
    (s.setWorker w worker).callers = s.callers := rfl

/-- The worker is at what it was set to. -/
theorem setWorker_self (w : W) (worker : Worker τ) : (s.setWorker w worker).workers w = worker :=
  Function.update_self ..

/-- The other workers are where they were. -/
theorem setWorker_of_ne {w w' : W} (h : w' ≠ w) (worker : Worker τ) :
    (s.setWorker w worker).workers w' = s.workers w' := Function.update_of_ne h ..

variable {s}

/-- A worker that waits after one was moved to another place waited before. -/
theorem blocked_of_setWorker {w w' : W} {worker : Worker τ} (hne : worker ≠ .blocked)
    (h : (s.setWorker w worker).workers w' = .blocked) : s.workers w' = .blocked := by
  by_cases hw : w' = w
  · rw [hw, setWorker_self] at h
    exact absurd h hne
  · rwa [setWorker_of_ne s hw] at h

end Workers

section Callers

variable [DecidableEq C] (s : PoolState W C τ)

/-- The pool with one caller somewhere else in its call. -/
def setCaller (c : C) (caller : Caller) : PoolState W C τ :=
  { s with callers := Function.update s.callers c caller }

/-- A step of a caller leaves the queue alone. -/
@[simp]
theorem setCaller_queue (c : C) (caller : Caller) : (s.setCaller c caller).queue = s.queue := rfl

/-- A step of a caller leaves the workers alone. -/
@[simp]
theorem setCaller_workers (c : C) (caller : Caller) :
    (s.setCaller c caller).workers = s.workers := rfl

/-- The caller is where it was set to. -/
theorem setCaller_self (c : C) (caller : Caller) : (s.setCaller c caller).callers c = caller :=
  Function.update_self ..

/-- A caller in another place than one that moves stays there. -/
theorem setCaller_of_ne {c c' : C} {caller : Caller} (h : s.callers c' ≠ s.callers c) :
    (s.setCaller c caller).callers c' = s.callers c' := by
  apply Function.update_of_ne
  rintro rfl
  exact h rfl

end Callers

end PoolState

section Pool

variable [DecidableEq W] [DecidableEq C]

/-- What a step does to the pool: a critical section with what it leaves its caller or its worker
at, a notification, a worker that wakes up, and a worker that is done with a task. -/
inductive PoolState.Step : PoolState W C τ → PoolEvent W C τ → PoolState W C τ → Prop
  | push {s : PoolState W C τ} {c : C} (task : τ) (hc : s.callers c = .idle) :
      Step s (.push c task (s.queue.push task).2)
        ({ s with queue := (s.queue.push task).1 }.setCaller c
          (if (s.queue.push task).2 then .pushed else .idle))
  | notifyOne {s : PoolState W C τ} {c : C} {w : W} (hc : s.callers c = .pushed)
      (hw : s.workers w = .blocked) :
      Step s (.notifyOne c) ((s.setWorker w .ready).setCaller c .idle)
  /-- Without a waiting worker a notification has no effect. -/
  | notifyNobody {s : PoolState W C τ} {c : C} (hc : s.callers c = .pushed)
      (hw : ∀ w, s.workers w ≠ .blocked) : Step s (.notifyOne c) (s.setCaller c .idle)
  | stop {s : PoolState W C τ} {c : C} (hc : s.callers c = .idle) :
      Step s (.stop c) ({ s with queue := s.queue.stop }.setCaller c .stopped)
  | notifyAll {s : PoolState W C τ} {c : C} (hc : s.callers c = .stopped) :
      Step s (.notifyAll c)
        ({ s with workers := fun w => (s.workers w).notified }.setCaller c .idle)
  /-- A wake-up without a notification. -/
  | wake {s : PoolState W C τ} {w : W} (hw : s.workers w = .blocked) :
      Step s (.wake w) (s.setWorker w .ready)
  | pop {s : PoolState W C τ} {w : W} {r : Option τ} {q : TaskQueue τ}
      (hw : s.workers w = .ready) (hpop : s.queue.pop = some (r, q)) :
      Step s (.pop w r) ({ s with queue := q }.setWorker w (.ofPop r))
  | block {s : PoolState W C τ} {w : W} (hw : s.workers w = .ready) (hpop : s.queue.pop = none) :
      Step s (.block w) (s.setWorker w .blocked)
  | finish {s : PoolState W C τ} {w : W} {task : τ} (hw : s.workers w = .busy task) :
      Step s (.finish w) (s.setWorker w .ready)

/-- The pool from its construction on. -/
def poolSystem (W C τ : Type) [DecidableEq W] [DecidableEq C] :
    System (PoolState W C τ) (PoolEvent W C τ) where
  init := {}
  step := PoolState.Step

/-! ## What is accepted and popped -/

/-- The task that a push put into the queue. -/
def PoolEvent.accepted : PoolEvent W C τ → Option τ
  | .push _ task true => some task
  | _ => none

/-- The task that a pop took out of the queue. -/
def PoolEvent.popped : PoolEvent W C τ → Option τ
  | .pop _ result => result
  | _ => none

/-- What a step does to the queue. -/
structure QueueStep (q : TaskQueue τ) (e : PoolEvent W C τ) (q' : TaskQueue τ) : Prop where
  /-- A task that is accepted comes to the end, and one that is popped is taken from the front. -/
  tasks : q.tasks ++ e.accepted.toList = e.popped.toList ++ q'.tasks
  running : e.accepted.isSome = true → q.shutdown = false
  stopped : q.shutdown = true → q'.shutdown = true
  /-- The high-water mark follows the length upwards. -/
  highWater : q'.highWater = max q.highWater q'.depth ∨
    q'.highWater = q.highWater ∧ q'.depth ≤ q.depth

omit [DecidableEq W] [DecidableEq C] in
/-- A step that neither takes nor gives a task leaves the queue as it was. -/
theorem queueStep_same {e : PoolEvent W C τ} (haccepted : e.accepted = none)
    (hpopped : e.popped = none) (q : TaskQueue τ) : QueueStep q e q where
  tasks := by simp [haccepted, hpopped]
  running := by simp [haccepted]
  stopped := id
  highWater := Or.inr ⟨rfl, le_rfl⟩

/-- What a step does to the queue, by its kind. -/
theorem PoolState.Step.queue {s s' : PoolState W C τ} {e : PoolEvent W C τ} (h : Step s e s') :
    QueueStep s.queue e s'.queue := by
  cases h with
  | @push c task hc =>
    rw [setCaller_queue]
    cases hdown : s.queue.shutdown with
    | true =>
      rw [TaskQueue.push_of_shutdown hdown task]
      exact queueStep_same rfl rfl _
    | false =>
      rw [TaskQueue.push_of_running hdown task]
      exact ⟨rfl, fun _ => hdown, fun h => h, Or.inl (by simp [TaskQueue.depth])⟩
  | notifyOne hc hw => exact queueStep_same rfl rfl _
  | notifyNobody hc hw => exact queueStep_same rfl rfl _
  | stop hc => exact ⟨List.append_nil _, by simp [PoolEvent.accepted], fun _ => rfl,
      Or.inr ⟨rfl, le_rfl⟩⟩
  | notifyAll hc => exact queueStep_same rfl rfl _
  | wake hw => exact queueStep_same rfl rfl _
  | @pop w r q hw hpop =>
    rw [setWorker_queue]
    rcases TaskQueue.pop_cases hpop with ⟨task, rfl, htasks, hq⟩ | ⟨rfl, -, -, rfl⟩
    · refine ⟨?_, by simp [PoolEvent.accepted], by rw [hq]; exact id, Or.inr ⟨by rw [hq], ?_⟩⟩
      · simp [PoolEvent.accepted, PoolEvent.popped, htasks]
      · simp [TaskQueue.depth, htasks]
    · exact queueStep_same rfl rfl _
  | block hw hpop => exact queueStep_same rfl rfl _
  | finish hw => exact queueStep_same rfl rfl _

/-- `pop` returns `nullptr` only of a queue that is stopped and empty. -/
theorem PoolState.Step.nullptr {s s' : PoolState W C τ} {w : W} (h : Step s (.pop w none) s') :
    s.queue.tasks = [] ∧ s.queue.shutdown = true := by
  cases h with
  | pop hw hpop =>
    rcases TaskQueue.pop_cases hpop with ⟨task, h, -⟩ | ⟨-, htasks, hdown, -⟩
    · cases h
    · exact ⟨htasks, hdown⟩

/-! ## Wake-ups -/

/-- No wake-up is lost: where all workers wait and a task is queued, a notification is to be sent,
and where a worker waits after the stop, a notification of all is. -/
structure PoolState.Awake (s : PoolState W C τ) : Prop where
  queued : s.queue.tasks ≠ [] → (∀ w, s.workers w = .blocked) → ∃ c, s.callers c ≠ .idle
  stopped : s.queue.shutdown = true → ∀ w, s.workers w = .blocked → ∃ c, s.callers c = .stopped

namespace PoolState

omit [DecidableEq C] in
/-- A worker that does not come to wait leaves the pool awake. -/
theorem Awake.setWorker {s : PoolState W C τ} (hs : s.Awake) (w : W) {worker : Worker τ}
    (hne : worker ≠ .blocked) : (s.setWorker w worker).Awake where
  queued _ hall := absurd ((s.setWorker_self w worker).symm.trans (hall w)) hne
  stopped hdown w' hw' := hs.stopped hdown w' (blocked_of_setWorker hne hw')

/-- A step leaves the pool awake. A worker waits only where there is nothing to do, and who changes
that still has its notification to send. -/
theorem Step.awake [Nonempty W] {s s' : PoolState W C τ} {e : PoolEvent W C τ}
    (h : Step s e s') (hs : s.Awake) : s'.Awake := by
  cases h with
  | @push c task hc =>
    cases hdown : s.queue.shutdown with
    | true =>
      -- Nothing is pushed, and the caller is idle before and after.
      rw [TaskQueue.push_of_shutdown hdown]
      constructor
      · intro htasks hall
        obtain ⟨c', hc'⟩ := hs.queued htasks hall
        exact ⟨c', by rwa [setCaller_of_ne _ (by simpa [hc] using hc')]⟩
      · intro _ w hw
        obtain ⟨c', hc'⟩ := hs.stopped hdown w hw
        exact ⟨c', by rwa [setCaller_of_ne _ (by simp [hc, hc'])]⟩
    | false =>
      rw [TaskQueue.push_of_running hdown]
      refine ⟨fun _ _ => ⟨c, by simp [setCaller_self]⟩, fun hdown' => ?_⟩
      exact absurd (hdown.symm.trans hdown') (by simp)
  | @notifyOne c w hc hw =>
    have hready := hs.setWorker w (show Worker.ready ≠ .blocked by simp)
    constructor
    · intro htasks hall
      exact absurd ((s.setWorker_self w .ready).symm.trans (hall w)) (by simp)
    · intro hdown w' hw'
      obtain ⟨c', hc'⟩ := hready.stopped hdown w' hw'
      have hother : s.callers c' ≠ s.callers c := by
        rw [hc, show s.callers c' = .stopped from hc']
        simp
      exact ⟨c', by rwa [setCaller_of_ne (s.setWorker w .ready) hother]⟩
  | notifyNobody hc hw =>
    obtain ⟨w⟩ := ‹Nonempty W›
    exact ⟨fun _ hall => absurd (hall w) (hw w), fun _ w' hw' => absurd hw' (hw w')⟩
  | @stop c hc =>
    exact ⟨fun _ _ => ⟨c, by simp [setCaller_self]⟩, fun _ _ _ => ⟨c, setCaller_self ..⟩⟩
  | @notifyAll c hc =>
    obtain ⟨w⟩ := ‹Nonempty W›
    have hnone : ∀ w, (s.workers w).notified ≠ .blocked := by
      intro w
      cases s.workers w <;> simp [Worker.notified]
    exact ⟨fun _ hall => absurd (hall w) (hnone w), fun _ w' hw' => absurd hw' (hnone w')⟩
  | wake hw => exact hs.setWorker _ (by simp)
  | @pop w r q hw hpop =>
    have hne : Worker.ofPop r ≠ .blocked := by cases r <;> simp [Worker.ofPop]
    constructor
    · intro _ hall
      exact absurd ((setWorker_self _ w _).symm.trans (hall w)) hne
    · intro hdown w' hw'
      have hdown' : s.queue.shutdown = true := by
        rcases TaskQueue.pop_cases hpop with ⟨task, -, -, hq⟩ | ⟨-, -, h, -⟩
        · rw [setWorker_queue, hq] at hdown
          exact hdown
        · exact h
      exact hs.stopped hdown' w' (blocked_of_setWorker (s := { s with queue := q }) hne hw')
  | block hw hpop =>
    obtain ⟨htasks, hdown⟩ := TaskQueue.pop_eq_none_iff.mp hpop
    refine ⟨fun h => absurd htasks h, fun hdown' => ?_⟩
    exact absurd (hdown.symm.trans hdown') (by simp)
  | finish hw => exact hs.setWorker _ (by simp)

end PoolState

/-! ## Whole runs -/

/-- What holds of a run of a pool and the state that it comes to. -/
structure PoolSafe (past : List (PoolEvent W C τ × PoolState W C τ)) (s : PoolState W C τ) :
    Prop where
  /-- Tasks are popped in the order in which they were pushed, none is popped twice or lost. -/
  in_order : (events past).filterMap PoolEvent.accepted =
    (events past).filterMap PoolEvent.popped ++ s.queue.tasks
  refused : ∀ pre c post, events past = pre ++ .stop c :: post →
    ∀ c' task, .push c' task true ∉ post
  nullptr : ∀ pre w s' post, past = pre ++ (.pop w none, s') :: post →
    ∃ s₁, Run (poolSystem W C τ) pre s₁ ∧ s₁.queue.tasks = [] ∧ s₁.queue.shutdown = true
  high_water : (∀ t ∈ visited (poolSystem W C τ) past, t.queue.depth ≤ s.queue.highWater) ∧
    ∃ t ∈ visited (poolSystem W C τ) past, t.queue.depth = s.queue.highWater
  woken : ¬((∀ w, s.workers w = .blocked) ∧ s.queue.tasks ≠ [] ∧ ∀ c, s.callers c = .idle)
  released : ¬(s.queue.shutdown = true ∧ (∃ w, s.workers w = .blocked) ∧
    ∀ c, s.callers c ≠ .stopped)

/-- Every run of a pool is safe: no task is lost or popped twice, the oldest goes first, a push
after a stop is refused, and no wake-up is lost. -/
theorem poolSafe_of_run [Nonempty W] {past : List (PoolEvent W C τ × PoolState W C τ)}
    {s : PoolState W C τ} (h : Run (poolSystem W C τ) past s) : PoolSafe past s := by
  have hawake : s.Awake := by
    refine h.invariant (I := fun _ s => s.Awake) ?_ fun _ _ _ _ hs hstep =>
      PoolState.Step.awake hstep hs
    exact ⟨fun h => absurd rfl h, fun h => absurd h (by simp [poolSystem])⟩
  constructor
  · refine h.invariant (I := fun past s => (events past).filterMap PoolEvent.accepted =
      (events past).filterMap PoolEvent.popped ++ s.queue.tasks) rfl ?_
    -- What was accepted is what was popped and what is still there, step by step.
    intro past s e s' ih hstep
    have hlist : ∀ (f : PoolEvent W C τ → Option τ), (events (past ++ [(e, s')])).filterMap f =
        (events past).filterMap f ++ (f e).toList := by
      intro f
      rw [events_append, List.filterMap_append]
      cases hf : f e <;> simp [hf]
    rw [hlist, hlist, ih, List.append_assoc, hstep.queue.tasks, List.append_assoc]
  · intro pre c post hevents c' task hmem
    -- Once it is set, `shutdown` stays set, and a push is refused.
    refine h.never_after (fun s => s.queue.shutdown = true) (p := fun e => ∃ c, e = .stop c)
      (q := fun e => e.accepted.isSome = true) ?_ ?_ ?_ hevents ⟨c, rfl⟩ _ hmem rfl
    · rintro s e s' hstep ⟨c, rfl⟩
      cases hstep with
      | stop hc => rfl
    · intro s e s' hstep
      exact hstep.queue.stopped
    · intro s e s' hstep he hdown
      rw [hstep.queue.running he] at hdown
      cases hdown
  · rintro pre w s' post rfl
    obtain ⟨s₁, hrun, hstep⟩ := h.split
    exact ⟨s₁, hrun, hstep.nullptr⟩
  · refine h.running_max (fun t => t.queue.depth) (fun t => t.queue.highWater) rfl ?_
    intro s e s' hstep
    exact hstep.queue.highWater
  · rintro ⟨hall, htasks, hidle⟩
    obtain ⟨c, hc⟩ := hawake.queued htasks hall
    exact hc (hidle c)
  · rintro ⟨hdown, ⟨w, hw⟩, hnone⟩
    obtain ⟨c, hc⟩ := hawake.stopped hdown w hw
    exact hnone c hc

/-- One worker, and a caller whose second push comes after its stop. -/
theorem poolSafe_push_stop_push :
    ∃ (past : List (PoolEvent (Fin 1) (Fin 1) ℕ × PoolState (Fin 1) (Fin 1) ℕ))
      (s : PoolState (Fin 1) (Fin 1) ℕ), Run (poolSystem (Fin 1) (Fin 1) ℕ) past s ∧
        events past = [.push 0 7 true, .notifyOne 0, .stop 0, .notifyAll 0, .push 0 8 false,
          .pop 0 (some 7)] ∧ PoolSafe past s := by
  have h₁ := (Run.start (S := poolSystem (Fin 1) (Fin 1) ℕ)).step (.push 7 (c := 0) rfl)
  have h₂ := h₁.step (.notifyNobody (c := 0) rfl fun w hw => by cases hw)
  have h₃ := h₂.step (.stop (c := 0) rfl)
  have h₄ := h₃.step (.notifyAll (c := 0) rfl)
  have h₅ := h₄.step (.push 8 (c := 0) rfl)
  have h₆ := h₅.step (.pop (w := 0) rfl rfl)
  exact ⟨_, _, h₆, rfl, poolSafe_of_run h₆⟩

end Pool

end ForwardProxy
