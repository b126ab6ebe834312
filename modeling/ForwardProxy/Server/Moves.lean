import ForwardProxy.Server.Stage

/-!
# The moves of a connection

Every step of the server moves one connection from a stage to another, and leaves the views of the
others as they are; a batch of events moves those that it delivers. So the invariant holds in every
reachable state (`owned_init`, `Owned.step`).
-/

namespace ForwardProxy

open Lib.Transition

variable {W : Type} [DecidableEq W]

/-! ## Steps of the kernel -/

namespace Server

variable {s : Server W} {j fd : ℕ}

omit [DecidableEq W]

/-- The socket behind the descriptor is armed with the pointer. -/
theorem armedPtr_arm (hj : s.table j = some fd) (ptr : ℕ) :
    (s.register fd (some (.armed ptr))).armedPtr j = some ptr := by
  simp [armedPtr, register, hj]

/-- A socket that is taken off the interest list is not armed. -/
theorem armedPtr_unregister (hj : s.table j = some fd) :
    (s.register fd none).armedPtr j = none := by
  simp [armedPtr, register, hj]

/-- The other sockets are armed as before. -/
theorem armedPtr_register_of_ne (hj : s.table j ≠ some fd) (r : Option Registration) :
    (s.register fd r).armedPtr j = s.armedPtr j := by
  simp [armedPtr, register, hj]

/-- A closed socket is not armed. -/
theorem armedPtr_close (hj : s.table j = some fd) : (s.close fd).armedPtr j = none := by
  simp [armedPtr, close, hj]

/-- The sockets with other descriptors are armed as before. -/
theorem armedPtr_close_of_ne (hj : s.table j ≠ some fd) :
    (s.close fd).armedPtr j = s.armedPtr j := by
  simp [armedPtr, close, hj]

/-- The main thread is with one connection only. -/
theorem phase_of_ne {pc : AcceptPc} {k : ℕ} (hmain : s.main = .setup pc k fd) (hj : j ≠ k) :
    s.main.phase j = none := by
  rw [hmain]
  exact if_neg (Ne.symm hj)

/-- However far the main thread comes with its connection, it is with no other one. -/
theorem phase_setup_of_ne {pc : AcceptPc} {k : ℕ} (hmain : s.main = .setup pc k fd) (hj : j ≠ k)
    (pc' : AcceptPc) : Main.phase j (.setup pc' k fd) = s.main.phase j := by
  rw [phase_of_ne hmain hj]
  exact if_neg (Ne.symm hj)

end Server

/-! ## Steps of the main thread -/

namespace Owned

variable {s : Server W} {stage : ℕ → Stage W} {counted : Finset ℕ} {k fd : ℕ}

/-- Nothing has moved. -/
theorem stay (h : Owned s stage counted) {s' : Server W} (hgood : s'.Good)
    (hview : ∀ j, s'.view j = s.view j) (hactive : s'.activeConnections = s.activeConnections) :
    Owned s' stage counted :=
  ⟨hgood, fun j => (hview j).trans (h.view j), h.ok, h.counted_iff, hactive.trans h.active⟩

/-- The listener is ready: the main thread goes to accept, and no connection moves. -/
theorem listener (h : Owned s stage counted) {rest : List (Option ℕ)}
    (hmain : s.main = .dispatching) (hbatch : s.batch = none :: rest) :
    Owned { s with main := .accepting, batch := rest } stage counted := by
  refine h.stay ⟨h.good.fds, h.good.sound, h.good.running⟩ (fun j => ?_) rfl
  have hcount : rest.count (some j) = s.batch.count (some j) := by
    rw [hbatch, List.count_cons_of_ne (by simp)]
  exact View.ext rfl (congrArg (Main.phase j) hmain).symm rfl hcount rfl rfl rfl rfl

/-- No more is to be accepted, and no connection moves. -/
theorem acceptEnds (h : Owned s stage counted) (hmain : s.main = .accepting) :
    Owned { s with main := .dispatching } stage counted :=
  h.stay ⟨h.good.fds, h.good.sound, h.good.running⟩
    (fun j => View.ext rfl (congrArg (Main.phase j) hmain).symm rfl rfl rfl rfl rfl rfl) rfl

/-- A new connection is with the main thread, which has its socket. -/
theorem accept (h : Owned s stage counted) (hmain : s.main = .accepting)
    (hfd : ∀ i, s.table i ≠ some fd) :
    ∃ stage' counted', Owned { s with
      main := .setup .accepted s.accepted fd
      accepted := s.accepted + 1
      table := Function.update s.table s.accepted (some fd) } stage' counted' := by
  have hst := h.of_fresh le_rfl
  obtain ⟨-, -, harmed, hdelivered, hqueued, hheld, hheap, -⟩ := h.fields hst
  -- The descriptor is new in the table.
  have hfds : ∀ i j fd', Function.update s.table s.accepted (some fd) i = some fd' →
      Function.update s.table s.accepted (some fd) j = some fd' → i = j := by
    intro i j fd' hi hj
    simp only [Function.update_apply] at hi hj
    split at hi <;> split at hj
    · simp_all
    · exact absurd (hj.trans hi.symm) (hfd j)
    · exact absurd (hi.trans hj.symm) (hfd i)
    · exact h.good.fds i j fd' hi hj
  refine h.move_same s.accepted (.at .setup .accepted fd {}) ⟨hfds, h.good.sound, h.good.running⟩
    ⟨by simp, by simp, by simp⟩ ?_ ?_ (by rw [hst]; rfl) rfl
  · exact View.ext (decide_eq_true (Nat.lt_succ_self _)) (if_pos rfl) harmed hdelivered hqueued
      hheld hheap (Function.update_self ..)
  · intro j hj
    have hlt : decide (j < s.accepted + 1) = decide (j < s.accepted) := by
      rw [decide_eq_decide]
      omega
    exact View.ext hlt ((if_neg (Ne.symm hj)).trans (congrArg (Main.phase j) hmain).symm) rfl rfl
      rfl rfl rfl (Function.update_of_ne hj ..)

/-- The socket cannot be made non-blocking: it is closed, and the connection is gone. -/
theorem blocking (h : Owned s stage counted) (hmain : s.main = .setup .accepted k fd) :
    ∃ stage' counted', Owned { s.close fd with main := .accepting } stage' counted' := by
  obtain ⟨conn, hst⟩ := h.of_main hmain
  obtain ⟨haccepted, -, harmed, hdelivered, hqueued, hheld, hheap, hopen⟩ := h.fields hst
  have hgood := h.good.close fd
  refine h.move_same k .gone ⟨hgood.fds, hgood.sound, hgood.running⟩ trivial ?_ ?_
    (by rw [hst]; rfl) rfl
  · exact View.ext haccepted rfl (Server.armedPtr_close hopen) hdelivered hqueued hheld hheap
      (if_pos hopen)
  · intro j hj
    have hne := h.good.table_ne hopen hj
    exact View.ext rfl (Server.phase_of_ne hmain hj).symm (Server.armedPtr_close_of_ne hne) rfl rfl
      rfl rfl (if_neg hne)

/-- The connection gets its `Conn`. -/
theorem create (h : Owned s stage counted) (hmain : s.main = .setup .accepted k fd)
    (clientIp : Bytes) :
    ∃ stage' counted', Owned
      { s.setHeap k (some ⟨fd, { clientIp := clientIp }⟩) with main := .setup .created k fd }
      stage' counted' := by
  obtain ⟨conn, hst⟩ := h.of_main hmain
  obtain ⟨haccepted, -, harmed, hdelivered, hqueued, hheld, -, hopen⟩ := h.fields hst
  refine h.move_same k (.at .setup .created fd { clientIp := clientIp })
    ⟨h.good.fds, h.good.sound, h.good.running⟩ ⟨by simp, by simp, by simp⟩ ?_ ?_ (by rw [hst]; rfl)
    rfl
  · exact View.ext haccepted (if_pos rfl) harmed hdelivered hqueued hheld (Function.update_self ..)
      hopen
  · intro j hj
    exact View.ext rfl (Server.phase_setup_of_ne hmain hj _) rfl rfl rfl rfl
      (Function.update_of_ne hj ..) rfl

/-- The connection is counted. -/
theorem countUp (h : Owned s stage counted) (hmain : s.main = .setup .created k fd)
    (total peak : UInt64) :
    ∃ stage' counted', Owned { s with
      main := .setup .counted k fd
      activeConnections := s.activeConnections + 1
      totalConnections := total
      peakConnections := peak } stage' counted' := by
  obtain ⟨conn, hst⟩ := h.of_main hmain
  obtain ⟨haccepted, -, harmed, hdelivered, hqueued, hheld, hheap, hopen⟩ := h.fields hst
  refine h.move_up k (.at .setup .whole fd conn) ⟨h.good.fds, h.good.sound, h.good.running⟩
    ⟨by simp, by simp, h.fits hst⟩ ?_ ?_ (by rw [hst]; rfl) rfl rfl
  · exact View.ext haccepted (if_pos rfl) harmed hdelivered hqueued hheld hheap hopen
  · intro j hj
    exact View.ext rfl (Server.phase_setup_of_ne hmain hj _) rfl rfl rfl rfl rfl rfl

/-- The connection is armed, and the main thread goes on. -/
theorem add (h : Owned s stage counted) (hmain : s.main = .setup .counted k fd) :
    ∃ stage' counted', Owned { s.register fd (some (.armed k)) with main := .accepting }
      stage' counted' := by
  obtain ⟨conn, hst⟩ := h.of_main hmain
  obtain ⟨haccepted, -, harmed, hdelivered, hqueued, hheld, hheap, hopen⟩ := h.fields hst
  refine h.move_same k (.at .armed .whole fd conn) ⟨h.good.fds, h.good.sound, h.good.running⟩
    ⟨by simp, by simp, h.fits hst⟩ ?_ ?_ (by rw [hst]; rfl) rfl
  · exact View.ext haccepted rfl (Server.armedPtr_arm hopen _) hdelivered hqueued hheld hheap hopen
  · intro j hj
    have hne := h.good.table_ne hopen hj
    exact View.ext rfl (Server.phase_of_ne hmain hj).symm (Server.armedPtr_register_of_ne hne _) rfl
      rfl rfl rfl rfl

/-- The connection cannot be armed, and stays with the main thread. -/
theorem addFails (h : Owned s stage counted) (hmain : s.main = .setup .counted k fd) :
    ∃ stage' counted', Owned { s.register fd none with main := .setup .refused k fd }
      stage' counted' := by
  obtain ⟨conn, hst⟩ := h.of_main hmain
  obtain ⟨haccepted, -, -, hdelivered, hqueued, hheld, hheap, hopen⟩ := h.fields hst
  refine h.move_same k (.at .setup .whole fd conn) ⟨h.good.fds, h.good.sound, h.good.running⟩
    ⟨by simp, by simp, h.fits hst⟩ ?_ ?_ (by rw [hst]; rfl) rfl
  · exact View.ext haccepted (if_pos rfl) (Server.armedPtr_unregister hopen) hdelivered hqueued
      hheld hheap hopen
  · intro j hj
    have hne := h.good.table_ne hopen hj
    exact View.ext rfl (Server.phase_setup_of_ne hmain hj _)
      (Server.armedPtr_register_of_ne hne _) rfl rfl rfl rfl rfl

/-- The socket of a refused connection is closed. -/
theorem refuse (h : Owned s stage counted) (hmain : s.main = .setup .refused k fd) :
    ∃ stage' counted', Owned { s.close fd with main := .setup .shut k fd } stage' counted' := by
  obtain ⟨conn, hst⟩ := h.of_main hmain
  obtain ⟨haccepted, -, -, hdelivered, hqueued, hheld, hheap, hopen⟩ := h.fields hst
  have hgood := h.good.close fd
  refine h.move_same k (.at .setup .shut fd conn) ⟨hgood.fds, hgood.sound, hgood.running⟩
    ⟨by simp, by simp, h.fits hst⟩ ?_ ?_ (by rw [hst]; rfl) rfl
  · exact View.ext haccepted (if_pos rfl) (Server.armedPtr_close hopen) hdelivered hqueued hheld
      hheap (if_pos hopen)
  · intro j hj
    have hne := h.good.table_ne hopen hj
    exact View.ext rfl (Server.phase_setup_of_ne hmain hj _)
      (Server.armedPtr_close_of_ne hne) rfl rfl rfl rfl (if_neg hne)

/-- A refused connection is counted off. -/
theorem uncountRefused (h : Owned s stage counted) (hmain : s.main = .setup .shut k fd) :
    ∃ stage' counted', Owned { s with
      main := .setup .uncounted k fd
      activeConnections := s.activeConnections - 1 } stage' counted' := by
  obtain ⟨conn, hst⟩ := h.of_main hmain
  obtain ⟨haccepted, -, harmed, hdelivered, hqueued, hheld, hheap, hopen⟩ := h.fields hst
  refine h.move_down k (.at .setup .uncounted fd conn)
    ⟨h.good.fds, h.good.sound, h.good.running⟩ ⟨by simp, by simp, h.fits hst⟩ ?_ ?_
    (by rw [hst]; rfl) rfl rfl
  · exact View.ext haccepted (if_pos rfl) harmed hdelivered hqueued hheld hheap hopen
  · intro j hj
    exact View.ext rfl (Server.phase_setup_of_ne hmain hj _) rfl rfl rfl rfl rfl rfl

/-- The `Conn` of a refused connection is deleted, and it is gone. -/
theorem deleteRefused (h : Owned s stage counted) (hmain : s.main = .setup .uncounted k fd) :
    ∃ stage' counted', Owned { s.setHeap k none with main := .accepting } stage' counted' := by
  obtain ⟨conn, hst⟩ := h.of_main hmain
  obtain ⟨haccepted, -, harmed, hdelivered, hqueued, hheld, -, hopen⟩ := h.fields hst
  refine h.move_same k .gone ⟨h.good.fds, h.good.sound, h.good.running⟩ trivial ?_ ?_
    (by rw [hst]; rfl) rfl
  · exact View.ext haccepted rfl harmed hdelivered hqueued hheld (Function.update_self ..) hopen
  · intro j hj
    exact View.ext rfl (Server.phase_of_ne hmain hj).symm rfl rfl rfl rfl
      (Function.update_of_ne hj ..) rfl

/-! ## Steps of the batch and the queue -/

omit [DecidableEq W] in
/-- Of the sockets that `epoll_wait` reports, each is armed with its own `Conn`. -/
theorem map_tag {s : Server W} {sources : List (Option ℕ)}
    (harmed : ∀ i, some i ∈ sources → s.armedPtr i = some i) : sources.map s.tag = sources := by
  have hid : ∀ i ∈ sources, s.tag i = id i := by
    intro i hi
    cases i with
    | none => rfl
    | some i => exact harmed i hi
  rw [List.map_congr_left hid, List.map_id]

/-- The sockets reported move from epoll to the batch. -/
theorem wait (h : Owned s stage counted) {sources : List (Option ℕ)} (hbatch : s.batch = [])
    (hnodup : sources.Nodup) (harmed : ∀ i, some i ∈ sources → (s.armedPtr i).isSome) :
    ∃ stage' counted', Owned { s with
      batch := sources.map s.tag
      epoll := fun i => if some i ∈ sources then some .disarmed else s.epoll i }
      stage' counted' := by
  -- A socket that is reported is armed with its own connection, which goes on to be delivered.
  have hstage : ∀ i, some i ∈ sources →
      s.armedPtr i = some i ∧ ∃ fd conn, stage i = .at .armed .whole fd conn := by
    intro i hi
    obtain ⟨ptr, hptr⟩ := Option.isSome_iff_exists.mp (harmed i hi)
    obtain ⟨rfl, hst⟩ := h.of_armed hptr
    exact ⟨hptr, hst⟩
  rw [map_tag fun i hi => (hstage i hi).1]
  refine ⟨fun i => if some i ∈ sources then (stage i).deliver else stage i, counted,
    ⟨h.good.fds, h.good.sound, h.good.running⟩, fun i => ?_, fun i => ?_, fun i => ?_, h.active⟩
  · have hcount : sources.count (some i) = if some i ∈ sources then 1 else 0 :=
      List.Nodup.count hnodup
    by_cases hi : some i ∈ sources
    · obtain ⟨-, fd, conn, hst⟩ := hstage i hi
      obtain ⟨haccepted, hmain, -, -, hqueued, hheld, hheap, hopen⟩ := h.fields hst
      rw [if_pos hi, hst]
      refine View.ext haccepted hmain ?_ (hcount.trans (if_pos hi)) hqueued hheld hheap hopen
      simp [Server.view, Server.armedPtr, hi, Stage.deliver, Stage.view]
    · rw [if_neg hi]
      obtain ⟨haccepted, hmain, harmed, hdelivered, hqueued, hheld, hheap, hopen⟩ :=
        h.fields (k := i) rfl
      refine View.ext haccepted hmain ?_ ?_ hqueued hheld hheap hopen
      · rw [← harmed]
        simp [Server.view, Server.armedPtr, hi]
      · rw [← hdelivered]
        simpa [Server.view, hbatch, hi] using hcount
  · by_cases hi : some i ∈ sources
    · obtain ⟨-, fd, conn, hst⟩ := hstage i hi
      rw [if_pos hi, hst]
      exact ⟨fun _ => rfl, by simp, h.fits hst⟩
    · rw [if_neg hi]
      exact h.ok i
  · rw [h.counted_iff]
    by_cases hi : some i ∈ sources
    · obtain ⟨-, fd, conn, hst⟩ := hstage i hi
      rw [if_pos hi, hst]
      rfl
    · rw [if_neg hi]

/-- A delivered connection is pushed, and is in the queue then. -/
theorem push (h : Owned s stage counted) {rest : List (Option ℕ)} {ok : Bool}
    {pool : PoolState W Unit ℕ} (hbatch : s.batch = some k :: rest)
    (hpool : PoolState.Step s.pool (.push () k ok) pool) :
    ∃ stage' counted', Owned { s with pool := pool, batch := rest } stage' counted' := by
  obtain ⟨fd, conn, hst⟩ := h.of_delivered (k := k) (by simp [hbatch])
  obtain ⟨haccepted, hmain, harmed, hdelivered, hqueued, hheld, hheap, hopen⟩ := h.fields hst
  -- The queue runs, so it takes the task.
  obtain ⟨htasks, hdown⟩ : pool.queue.tasks = s.pool.queue.tasks ++ [k] ∧
      pool.queue.shutdown = false := by
    cases hpool with
    | push task hc => simp [TaskQueue.push_of_running h.good.running, h.good.running]
  -- The connection is the one event that leaves the batch.
  have hcount : ∀ j, s.batch.count (some j) = rest.count (some j) + if j = k then 1 else 0 := by
    intro j
    rw [hbatch]
    by_cases hj : j = k
    · rw [if_pos hj, hj, List.count_cons_self]
    · rw [if_neg hj, List.count_cons_of_ne (by simpa using Ne.symm hj), Nat.add_zero]
  refine h.move_same k (.at .queued .whole fd conn) ⟨h.good.fds, h.good.sound, hdown⟩
    ⟨fun _ => rfl, by simp, h.fits hst⟩ ?_ ?_ (by rw [hst]; rfl) rfl
  · refine View.ext haccepted hmain harmed ?_ ?_ hheld hheap hopen
    · have hone : s.batch.count (some k) = 1 := hdelivered
      rw [hcount, if_pos rfl] at hone
      exact Nat.succ.inj hone
    · have hzero : s.pool.queue.tasks.count k = 0 := hqueued
      show pool.queue.tasks.count k = 1
      rw [htasks, List.count_append, hzero]
      simp
  · intro j hj
    refine View.ext rfl rfl rfl ?_ ?_ rfl rfl rfl
    · have hother := hcount j
      rw [if_neg hj, Nat.add_zero] at hother
      exact hother.symm
    · show pool.queue.tasks.count j = s.pool.queue.tasks.count j
      rw [htasks, List.count_append]
      simp [Ne.symm hj]

/-- A step of the pool that leaves the queue alone moves no connection. -/
theorem pool (h : Owned s stage counted) {pool : PoolState W Unit ℕ}
    (hqueue : pool.queue = s.pool.queue) : Owned { s with pool := pool } stage counted := by
  have htasks : pool.queue.tasks = s.pool.queue.tasks := congrArg TaskQueue.tasks hqueue
  refine h.stay ⟨h.good.fds, h.good.sound, ?_⟩ (fun j => ?_) rfl
  · exact (congrArg TaskQueue.shutdown hqueue).trans h.good.running
  · exact View.ext rfl rfl rfl rfl (congrArg (List.count j) htasks) rfl rfl rfl

/-! ## Steps of the workers -/

/-- What the workers have of a connection after one of them has gone on. -/
theorem held_setHandler (s : Server W) (w : W) (handler : Handler) (k : ℕ) :
    ((s.setHandler w handler).view k).held =
      Function.update (s.view k).held w (handler.phase k) := by
  funext w'
  by_cases hw : w' = w
  · subst hw
    simp [Server.view, Server.setHandler]
  · simp [Server.view, Server.setHandler, hw]

/-- A worker that goes on with another connection. -/
theorem held_setHandler_of_none {s : Server W} {w : W} {handler : Handler} {j : ℕ}
    (hold : (s.handlers w).phase j = none) (hnew : handler.phase j = none) :
    ((s.setHandler w handler).view j).held = (s.view j).held := by
  rw [held_setHandler, hnew]
  exact Function.update_eq_self_iff.mpr hold.symm

/-- A worker that has the connection, and no other has it. -/
theorem held_setHandler_self {s : Server W} {w : W} {handler : Handler} {phase : Phase}
    (hheld : ∀ w', w' ≠ w → (s.view k).held w' = none) (hnew : handler.phase k = some phase) :
    ((s.setHandler w handler).view k).held =
      fun w' => if Place.held w = Place.held w' then some phase else none := by
  rw [held_setHandler, hnew]
  funext w'
  by_cases hw : w' = w
  · rw [hw, Function.update_self, if_pos rfl]
  · rw [Function.update_of_ne hw, hheld w' hw, if_neg (by simpa using Ne.symm hw)]

/-- A worker that has no more to do with it. -/
theorem held_setHandler_none {s : Server W} {w : W} {handler : Handler}
    (hheld : ∀ w', w' ≠ w → (s.view k).held w' = none) (hnew : handler.phase k = none) :
    ((s.setHandler w handler).view k).held = fun _ => none := by
  rw [held_setHandler, hnew]
  funext w'
  by_cases hw : w' = w
  · rw [hw, Function.update_self]
  · rw [Function.update_of_ne hw, hheld w' hw]

/-- A call has to do with one connection only. -/
theorem phase_inCall_of_ne {pc : HandlerPc} {todo : List ConnEvent} {final : Conn} {j : ℕ}
    (hj : j ≠ k) : (Handler.inCall pc k todo final).phase j = none := by
  cases pc <;> cases todo <;> simp [Handler.phase, Ne.symm hj]

/-- A call with something left to do has its connection. -/
theorem phase_inCall {pc : HandlerPc} {todo : List ConnEvent} {final : Conn}
    (h : pc ≠ .running ∨ todo ≠ []) : (Handler.inCall pc k todo final).phase k = some pc.phase := by
  cases pc <;> cases todo <;> simp_all [Handler.phase]

omit [DecidableEq W] in
/-- The worker of such a call has the connection. -/
theorem phase_self {s : Server W} {w : W} {pc : HandlerPc} {todo : List ConnEvent} {final : Conn}
    (hw : s.handlers w = .inCall pc k todo final) (hcall : pc ≠ .running ∨ todo ≠ []) :
    (s.handlers w).phase k = some pc.phase := by
  rw [hw, phase_inCall hcall]

omit [DecidableEq W] in
/-- The worker has no other connection. -/
theorem phase_other {s : Server W} {w : W} {pc : HandlerPc} {todo : List ConnEvent} {final : Conn}
    (hw : s.handlers w = .inCall pc k todo final) (j : ℕ) (hj : j ≠ k) :
    (s.handlers w).phase j = none := by
  rw [hw, phase_inCall_of_ne hj]

/-- What a worker is about is sound. -/
theorem sound (h : Owned s stage counted) {w : W} {handler : Handler}
    (hw : s.handlers w = handler) : handler.Sound :=
  hw ▸ h.good.sound w

/-- The connection that a worker has, which no other worker has. -/
theorem held_fields (h : Owned s stage counted) {w : W} {phase : Phase}
    (hw : (s.handlers w).phase k = some phase) :
    ∃ fd conn, stage k = .at (.held w) phase fd conn ∧
      ∀ w', w' ≠ w → (s.view k).held w' = none := by
  obtain ⟨fd, conn, hst⟩ := h.of_held hw
  obtain ⟨-, -, -, -, -, hheld, -⟩ := h.fields hst
  refine ⟨fd, conn, hst, fun w' hne => ?_⟩
  rw [hheld]
  exact if_neg (by simpa using Ne.symm hne)

/-- A worker takes a connection off the queue. -/
theorem pop (h : Owned s stage counted) {w : W} {pool : PoolState W Unit ℕ}
    (hw : s.handlers w = .idle) (hpool : PoolState.Step s.pool (.pop w (some k)) pool) :
    ∃ stage' counted', Owned ({ s with pool := pool }.setHandler w (.called k)) stage'
      counted' := by
  obtain ⟨htasks, hdown⟩ : s.pool.queue.tasks = k :: pool.queue.tasks ∧
      pool.queue.shutdown = false := by
    cases hpool with
    | pop hready hpop =>
      rcases TaskQueue.pop_cases hpop with ⟨task, hr, htasks, hq⟩ | ⟨hr, -⟩
      · cases hr
        refine ⟨htasks, ?_⟩
        rw [hq]
        exact h.good.running
      · cases hr
  obtain ⟨fd, conn, hst⟩ := h.of_queued (k := k) (by simp [htasks])
  obtain ⟨haccepted, hmain, harmed, hdelivered, hqueued, hheld, hheap, hopen⟩ := h.fields hst
  have hidle : ∀ j, (s.handlers w).phase j = none := by
    intro j
    rw [hw]
    rfl
  have hgood : ({ s with pool := pool } : Server W).Good := ⟨h.good.fds, h.good.sound, hdown⟩
  refine h.move_same k (.at (.held w) .whole fd conn) (hgood.setHandler w trivial)
    ⟨fun _ => rfl, by simp, h.fits hst⟩ ?_ ?_ (by rw [hst]; rfl) rfl
  · refine View.ext haccepted hmain harmed hdelivered ?_ ?_ hheap hopen
    · have hone : s.pool.queue.tasks.count k = 1 := hqueued
      rw [htasks, List.count_cons_self] at hone
      exact Nat.succ.inj hone
    · exact held_setHandler_self (fun w' _ => congrFun hheld w') (if_pos rfl)
  · intro j hj
    refine View.ext rfl rfl rfl rfl ?_ ?_ rfl rfl
    · show pool.queue.tasks.count j = s.pool.queue.tasks.count j
      rw [htasks, List.count_cons_of_ne (Ne.symm hj)]
    · exact held_setHandler_of_none (hidle j) (if_neg (Ne.symm hj))

/-- A worker goes on with a connection that stays whole. -/
theorem run (h : Owned s stage counted) {w : W} {handler : Handler}
    (hold : (s.handlers w).phase k = some .whole)
    (hother : ∀ j, j ≠ k → (s.handlers w).phase j = none)
    (hnew : handler.phase k = some .whole) (hother' : ∀ j, j ≠ k → handler.phase j = none)
    (hsound : handler.Sound) :
    ∃ stage' counted', Owned (s.setHandler w handler) stage' counted' := by
  obtain ⟨fd, conn, hst, hothers⟩ := h.held_fields hold
  obtain ⟨haccepted, hmain, harmed, hdelivered, hqueued, -, hheap, hopen⟩ := h.fields hst
  refine h.move_same k (.at (.held w) .whole fd conn) (h.good.setHandler w hsound)
    ⟨fun _ => rfl, by simp, h.fits hst⟩ ?_ ?_ (by rw [hst]) rfl
  · exact View.ext haccepted hmain harmed hdelivered hqueued (held_setHandler_self hothers hnew)
      hheap hopen
  · intro j hj
    exact View.ext rfl rfl rfl rfl rfl (held_setHandler_of_none (hother j hj) (hother' j hj)) rfl
      rfl

/-- And its socket leaves the interest list. -/
theorem unregister (h : Owned s stage counted) {w : W} {handler : Handler}
    (hold : (s.handlers w).phase k = some .whole)
    (hother : ∀ j, j ≠ k → (s.handlers w).phase j = none)
    (hfd : ∀ c, s.heap k = some c → c.fd = fd)
    (hnew : handler.phase k = some .whole) (hother' : ∀ j, j ≠ k → handler.phase j = none)
    (hsound : handler.Sound) :
    ∃ stage' counted', Owned ((s.register fd none).setHandler w handler) stage' counted' := by
  obtain ⟨fd', conn, hst, hothers⟩ := h.held_fields hold
  obtain ⟨haccepted, hmain, -, hdelivered, hqueued, -, hheap, hopen⟩ := h.fields hst
  obtain rfl : fd' = fd := hfd _ hheap
  have hgood : (s.register fd' none).Good := ⟨h.good.fds, h.good.sound, h.good.running⟩
  refine h.move_same k (.at (.held w) .whole fd' conn) (hgood.setHandler w hsound)
    ⟨fun _ => rfl, by simp, h.fits hst⟩ ?_ ?_ (by rw [hst]) rfl
  · exact View.ext haccepted hmain (Server.armedPtr_unregister hopen) hdelivered hqueued
      (held_setHandler_self hothers hnew) hheap hopen
  · intro j hj
    exact View.ext rfl rfl (Server.armedPtr_register_of_ne (h.good.table_ne hopen hj) _) rfl rfl
      (held_setHandler_of_none (hother j hj) (hother' j hj)) rfl rfl

/-- The worker closes the socket of its connection. -/
theorem close (h : Owned s stage counted) {w : W} {todo : List ConnEvent} {final : Conn}
    (hw : s.handlers w = .inCall .deregistered k todo final)
    (hfd : ∀ c, s.heap k = some c → c.fd = fd) :
    ∃ stage' counted',
      Owned ((s.close fd).setHandler w (.inCall .shut k todo final)) stage' counted' := by
  have hsound := h.sound hw
  obtain ⟨fd', conn, hst, hothers⟩ :=
    h.held_fields (phase_self hw (Or.inl (by simp)))
  obtain ⟨haccepted, hmain, -, hdelivered, hqueued, -, hheap, hopen⟩ := h.fields hst
  obtain rfl : fd' = fd := hfd _ hheap
  refine h.move_same k (.at (.held w) .shut fd' conn) ((h.good.close fd').setHandler w hsound)
    ⟨by simp, by simp, h.fits hst⟩ ?_ ?_ (by rw [hst]; rfl) rfl
  · exact View.ext haccepted hmain (Server.armedPtr_close hopen) hdelivered hqueued
      (held_setHandler_self hothers (phase_inCall (Or.inl (by simp)))) hheap (if_pos hopen)
  · intro j hj
    have hne := h.good.table_ne hopen hj
    exact View.ext rfl rfl (Server.armedPtr_close_of_ne hne) rfl rfl
      (held_setHandler_of_none (phase_other hw j hj) (phase_inCall_of_ne hj)) rfl (if_neg hne)

/-- The worker counts its connection off. -/
theorem uncount (h : Owned s stage counted) {w : W} {todo : List ConnEvent} {final : Conn}
    (hw : s.handlers w = .inCall .shut k todo final) :
    ∃ stage' counted', Owned ({ s with activeConnections := s.activeConnections - 1 }.setHandler w
      (.inCall .uncounted k todo final)) stage' counted' := by
  have hsound := h.sound hw
  obtain ⟨fd, conn, hst, hothers⟩ :=
    h.held_fields (phase_self hw (Or.inl (by simp)))
  obtain ⟨haccepted, hmain, harmed, hdelivered, hqueued, -, hheap, hopen⟩ := h.fields hst
  have hgood : ({ s with activeConnections := s.activeConnections - 1 } : Server W).Good :=
    ⟨h.good.fds, h.good.sound, h.good.running⟩
  refine h.move_down k (.at (.held w) .uncounted fd conn) (hgood.setHandler w hsound)
    ⟨by simp, by simp, h.fits hst⟩ ?_ ?_ (by rw [hst]; rfl) rfl rfl
  · exact View.ext haccepted hmain harmed hdelivered hqueued
      (held_setHandler_self hothers (phase_inCall (Or.inl (by simp)))) hheap hopen
  · intro j hj
    exact View.ext rfl rfl rfl rfl rfl
      (held_setHandler_of_none (phase_other hw j hj) (phase_inCall_of_ne hj)) rfl rfl

/-- The worker deletes the `Conn`, and the connection is gone. -/
theorem delete (h : Owned s stage counted) {w : W} {todo : List ConnEvent} {final : Conn}
    (hw : s.handlers w = .inCall .uncounted k todo final) :
    ∃ stage' counted', Owned ((s.setHeap k none).setHandler w (.inCall .running k todo final))
      stage' counted' := by
  -- Nothing is left to do after `close_conn`.
  obtain rfl : todo = [] := h.sound hw
  obtain ⟨fd, conn, hst, hothers⟩ :=
    h.held_fields (phase_self hw (Or.inl (by simp)))
  obtain ⟨haccepted, hmain, harmed, hdelivered, hqueued, -, -, hopen⟩ := h.fields hst
  have hgood : (s.setHeap k none).Good := ⟨h.good.fds, h.good.sound, h.good.running⟩
  refine h.move_same k .gone (hgood.setHandler w fun hne => absurd rfl hne) trivial ?_ ?_
    (by rw [hst]; rfl) rfl
  · exact View.ext haccepted hmain harmed hdelivered hqueued (held_setHandler_none hothers rfl)
      (Function.update_self ..) hopen
  · intro j hj
    exact View.ext rfl rfl rfl rfl rfl
      (held_setHandler_of_none (phase_other hw j hj) (phase_inCall_of_ne hj))
      (Function.update_of_ne hj ..) rfl

/-- The worker re-arms its connection, with the `Conn` as the call leaves it. -/
theorem rearm (h : Owned s stage counted) {w : W} {todo : List ConnEvent} {final : Conn}
    (hw : s.handlers w = .inCall .running k (.rearmed :: todo) final)
    (hfd : ∀ c, s.heap k = some c → c.fd = fd) :
    ∃ stage' counted', Owned (((s.register fd (some (.armed k))).setHeap k
      ((s.heap k).map fun c => { c with conn := final })).setHandler w
        (.inCall .running k todo final)) stage' counted' := by
  obtain ⟨rfl, hfits⟩ := (h.sound hw (by simp)).last (Or.inr rfl)
  obtain ⟨fd', conn, hst, hothers⟩ :=
    h.held_fields (phase_self hw (Or.inr (by simp)))
  obtain ⟨haccepted, hmain, -, hdelivered, hqueued, -, hheap, hopen⟩ := h.fields hst
  obtain rfl : fd' = fd := hfd _ hheap
  have hwritten : (s.heap k).map (fun c => { c with conn := final }) = some ⟨fd', final⟩ :=
    congrArg (Option.map fun c : Client => { c with conn := final }) hheap
  rw [hwritten]
  have hgood : ((s.register fd' (some (.armed k))).setHeap k (some ⟨fd', final⟩)).Good :=
    ⟨h.good.fds, h.good.sound, h.good.running⟩
  refine h.move_same k (.at .armed .whole fd' final)
    (hgood.setHandler w fun hne => absurd rfl hne) ⟨fun _ => rfl, by simp, hfits rfl⟩ ?_ ?_
    (by rw [hst]; rfl) rfl
  · exact View.ext haccepted hmain (Server.armedPtr_arm hopen _) hdelivered hqueued
      (held_setHandler_none hothers rfl) (Function.update_self ..) hopen
  · intro j hj
    exact View.ext rfl rfl (Server.armedPtr_register_of_ne (h.good.table_ne hopen hj) _) rfl rfl
      (held_setHandler_of_none (phase_other hw j hj) (phase_inCall_of_ne hj))
      (Function.update_of_ne hj ..) rfl

/-- A worker that is done has no connection any more. -/
theorem finish (h : Owned s stage counted) {w : W} {final : Conn} {pool : PoolState W Unit ℕ}
    (hw : s.handlers w = .inCall .running k [] final) (hqueue : pool.queue = s.pool.queue) :
    Owned ({ s with pool := pool }.setHandler w .idle) stage counted := by
  have hpool := h.pool hqueue
  refine hpool.stay (hpool.good.setHandler w trivial) (fun j => ?_) rfl
  have hold : (s.handlers w).phase j = none := by
    rw [hw]
    rfl
  exact View.ext rfl rfl rfl rfl rfl (held_setHandler_of_none hold rfl) rfl rfl

/-- A worker starts with a connection, whose call comes to an end. -/
theorem begin (h : Owned s stage counted) {w : W} {conn : Conn} {σ : Type}
    (serve : σ → Request → ℕ → Bool × σ) (world : σ) (script : List Recv)
    (hw : s.handlers w = .called k) (hconn : ∀ c, s.heap k = some c → c.conn = conn) :
    ∃ stage' counted', Owned (s.setHandler w (.inCall .running k
      (handleReady serve world conn script).events (handleReady serve world conn script).conn))
      stage' counted' := by
  have hself : (s.handlers w).phase k = some .whole := by
    rw [hw]
    exact if_pos rfl
  have hother : ∀ j, j ≠ k → (s.handlers w).phase j = none := by
    intro j hj
    rw [hw]
    exact if_neg (Ne.symm hj)
  obtain ⟨fd, conn', hst, -⟩ := h.held_fields hself
  obtain ⟨-, -, -, -, -, -, hheap, -⟩ := h.fields hst
  obtain rfl : conn' = conn := hconn _ hheap
  have hending := ending_handleReady serve world script (h.fits hst)
  exact h.run hself hother (phase_inCall (Or.inr hending.ne_nil))
    (fun j hj => phase_inCall_of_ne hj) fun _ => hending

/-- What a worker does in between leaves the connection with it. -/
theorem act (h : Owned s stage counted) {w : W} {e : ConnEvent} {todo : List ConnEvent}
    {final : Conn} (hw : s.handlers w = .inCall .running k (e :: todo) final)
    (hclosed : e ≠ .closed) (hrearmed : e ≠ .rearmed) :
    ∃ stage' counted', Owned (s.setHandler w (.inCall .running k todo final)) stage' counted' := by
  have hending := (h.sound hw (by simp)).tail hclosed hrearmed
  exact h.run (phase_self hw (Or.inr (by simp))) (phase_other hw)
    (phase_inCall (Or.inr hending.ne_nil)) (fun j hj => phase_inCall_of_ne hj) fun _ => hending

/-- Every step leaves every connection at a stage. -/
theorem step (h : Owned s stage counted) {e : ServerEvent W} {s' : Server W}
    (hstep : Server.Step s e s') : ∃ stage' counted', Owned s' stage' counted' := by
  cases hstep with
  | wait hmain hbatch hlen hnodup harmed => exact h.wait hbatch hnodup harmed
  | listener hmain hbatch => exact ⟨_, _, h.listener hmain.1 hbatch⟩
  | accept hmain hfd => exact h.accept hmain.1 hfd
  | acceptEnds hmain => exact ⟨_, _, h.acceptEnds hmain.1⟩
  | blocking hmain => exact h.blocking hmain.1
  | create clientIp hmain => exact h.create hmain.1 clientIp
  | countUp hmain => exact h.countUp hmain.1 _ _
  | add hmain => exact h.add hmain.1
  | addFails hmain => exact h.addFails hmain.1
  | refuse hmain => exact h.refuse hmain.1
  | uncountRefused hmain => exact h.uncountRefused hmain.1
  | deleteRefused hmain => exact h.deleteRefused hmain.1
  | push hmain hbatch hpool => exact h.push hbatch hpool
  | pool he hpool =>
    refine ⟨_, _, h.pool ?_⟩
    cases hpool with
    | notifyOne => rfl
    | notifyNobody => rfl
    | wake => rfl
    | block => rfl
    | push => exact he.elim
    | stop => exact he.elim
    | notifyAll => exact he.elim
    | pop => exact he.elim
    | finish => exact he.elim
  | pop hw hpool => exact h.pop hw hpool
  | begin serve world script hw hconn => exact h.begin serve world script hw hconn
  | act hw hclosed hrearmed => exact h.act hw hclosed hrearmed
  | @deregister w k fd todo final hw hfd =>
    obtain ⟨rfl, -⟩ := (h.sound hw (by simp)).last (Or.inl rfl)
    exact h.unregister (phase_self hw (Or.inr (by simp))) (phase_other hw)
      hfd (phase_inCall (Or.inl (by simp))) (fun j hj => phase_inCall_of_ne hj) rfl
  | close hw hfd => exact h.close hw hfd
  | uncount hw => exact h.uncount hw
  | delete hw => exact h.delete hw
  | rearm hw hfd => exact h.rearm hw hfd
  | @rearmFails w k fd todo final hw hfd =>
    -- The connection is closed in its place.
    obtain ⟨rfl, -⟩ := (h.sound hw (by simp)).last (Or.inr rfl)
    exact h.unregister (phase_self hw (Or.inr (by simp))) (phase_other hw)
      hfd (phase_inCall (Or.inr (by simp))) (fun j hj => phase_inCall_of_ne hj)
      fun _ => ending_singleton (Or.inl rfl)
  | finish hw hpool =>
    refine ⟨_, _, h.finish hw ?_⟩
    cases hpool
    rfl

end Owned

/-- Before anything was accepted every connection is fresh. -/
theorem owned_init : Owned (W := W) {} (fun _ => .fresh) ∅ where
  good := ⟨by simp, fun _ => trivial, rfl⟩
  view _ := rfl
  ok _ := trivial
  counted_iff _ := by simp [Stage.isCounted]
  active := rfl

end ForwardProxy
