import Mathlib.Data.Finset.Card
import ForwardProxy.Server.EventLoop

/-!
# The stages of a connection

What the state of the server has about one connection is its `View`. Under the invariant `Owned` the
view of each connection is that of a `Stage`: it has not come yet, it is gone, or it is at one
place, with its descriptor and its `Conn`. So a thread that has a connection finds it at the one
place where it is (`Owned.of_main`, `Owned.of_held`, …), and a step that changes the view of one
connection moves it to another stage (`Owned.move`).
-/

namespace ForwardProxy

open Lib.Transition

variable {W : Type} [DecidableEq W]

/-! ## Views -/

/-- How far a connection is set up or taken down: its socket is open, its `Conn` is live, and it is
counted as active. -/
inductive Phase
  | accepted
  | created
  | whole
  | shut
  | uncounted
  deriving DecidableEq

namespace Phase

/-- The socket is open. -/
def isOpen : Phase → Bool
  | accepted | created | whole => true
  | shut | uncounted => false

/-- The `Conn` is live. -/
def isLive : Phase → Bool
  | accepted => false
  | _ => true

/-- The connection is counted as active. -/
def isCounted : Phase → Bool
  | whole | shut => true
  | _ => false

end Phase

/-- How far the connection is at each point of its accept. -/
def AcceptPc.phase : AcceptPc → Phase
  | accepted => .accepted
  | created => .created
  | counted | refused => .whole
  | shut => .shut
  | uncounted => .uncounted

/-- How far the main thread is with a connection, and by which descriptor. -/
def Main.phase (k : ℕ) : Main → Option (Phase × ℕ)
  | .setup pc j fd => if j = k then some (pc.phase, fd) else none
  | _ => none

/-- How far the connection is at each point of a call. -/
def HandlerPc.phase : HandlerPc → Phase
  | running | deregistered => .whole
  | shut => .shut
  | uncounted => .uncounted

/-- How far a worker is with a connection. It has no more to do with it once nothing is left to do.
-/
def Handler.phase (k : ℕ) : Handler → Option Phase
  | .called j => if j = k then some .whole else none
  | .inCall .running _ [] _ => none
  | .inCall pc j _ _ => if j = k then some pc.phase else none
  | .idle => none

/-- What the state has about one connection. -/
@[ext]
structure View (W : Type) where
  accepted : Bool
  main : Option (Phase × ℕ)
  armed : Option ℕ
  delivered : ℕ
  queued : ℕ
  held : W → Option Phase
  heap : Option Client
  fd : Option ℕ

/-- What the server has about the connection `k`. -/
def Server.view (s : Server W) (k : ℕ) : View W where
  accepted := decide (k < s.accepted)
  main := s.main.phase k
  armed := s.armedPtr k
  delivered := s.batch.count (some k)
  queued := s.pool.queue.tasks.count k
  held w := (s.handlers w).phase k
  heap := s.heap k
  fd := s.table k

/-- Where a connection can be: with the main thread as long as its accept is half done, and then at
one of the four others. -/
inductive Place (W : Type)
  | setup
  | armed
  | delivered
  | queued
  | held (w : W)
  deriving DecidableEq

/-- A connection has not come yet, is gone, or is at one place. -/
inductive Stage (W : Type)
  | fresh
  | gone
  | at (place : Place W) (phase : Phase) (fd : ℕ) (conn : Conn)

namespace Stage

/-- What the state has about a connection at a stage. -/
def view (k : ℕ) : Stage W → View W
  | fresh => ⟨false, none, none, 0, 0, fun _ => none, none, none⟩
  | gone => ⟨true, none, none, 0, 0, fun _ => none, none, none⟩
  | .at place phase fd conn => {
      accepted := true
      main := if place = .setup then some (phase, fd) else none
      armed := if place = .armed then some k else none
      delivered := if place = .delivered then 1 else 0
      queued := if place = .queued then 1 else 0
      held := fun w => if place = .held w then some phase else none
      heap := if phase.isLive then some ⟨fd, conn⟩ else none
      fd := if phase.isOpen then some fd else none }

/-- A connection at this stage counts as active. -/
def isCounted : Stage W → Bool
  | .at _ phase _ _ => phase.isCounted
  | _ => false

/-- The stage once the socket is reported. -/
def deliver : Stage W → Stage W
  | .at _ phase fd conn => .at .delivered phase fd conn
  | st => st

/-- A connection that no thread has is whole, only the main thread has one without a `Conn`, and
there is room in the buffer. -/
def Ok : Stage W → Prop
  | .at place phase _ conn =>
    (place = .armed ∨ place = .delivered ∨ place = .queued → phase = .whole) ∧
      (phase = .accepted → place = .setup) ∧
      conn.inbuf.length ≤ maxHeaderBytes + maxBodyBytes
  | _ => True

end Stage

/-! ## Calls of `handle_ready` -/

/-- What is left of a call ends with closing or re-arming the connection, and has neither before. -/
def Ending (todo : List ConnEvent) (final : Conn) : Prop :=
  ∃ pre last, todo = pre ++ [last] ∧ (∀ e ∈ pre, e ≠ .closed ∧ e ≠ .rearmed) ∧
    (last = .closed ∨ last = .rearmed ∧ final.inbuf.length ≤ maxHeaderBytes + maxBodyBytes)

/-- A worker that runs `handle_ready` comes to an end of it, and has nothing left to do once it
closes the connection. -/
def Handler.Sound : Handler → Prop
  | .inCall .running _ todo final => todo ≠ [] → Ending todo final
  | .inCall _ _ todo _ => todo = []
  | _ => True

/-- Closing or re-arming alone is an end. -/
theorem ending_singleton {last : ConnEvent} {final : Conn} (h : last = .closed ∨ last = .rearmed ∧
    final.inbuf.length ≤ maxHeaderBytes + maxBodyBytes) : Ending [last] final :=
  ⟨[], last, rfl, by simp, h⟩

namespace Ending

variable {e : ConnEvent} {todo : List ConnEvent} {final : Conn}

/-- Whatever else is done leaves the end. -/
theorem tail (h : Ending (e :: todo) final) (hclosed : e ≠ .closed) (hrearmed : e ≠ .rearmed) :
    Ending todo final := by
  obtain ⟨pre, last, heq, hpre, hlast⟩ := h
  cases pre with
  | nil =>
    obtain ⟨rfl, rfl⟩ : e = last ∧ todo = [] := by simpa using heq
    rcases hlast with rfl | ⟨rfl, -⟩
    · exact absurd rfl hclosed
    · exact absurd rfl hrearmed
  | cons d pre =>
    obtain ⟨rfl, rfl⟩ : e = d ∧ todo = pre ++ [last] := by simpa using heq
    exact ⟨pre, last, rfl, fun d hd => hpre d (List.mem_cons_of_mem _ hd), hlast⟩

/-- There is an end, so something is left to do. -/
theorem ne_nil (h : Ending todo final) : todo ≠ [] := by
  obtain ⟨pre, last, heq, -⟩ := h
  simp [heq]

/-- Nothing comes after the end. -/
theorem last (h : Ending (e :: todo) final) (he : e = .closed ∨ e = .rearmed) :
    todo = [] ∧ (e = .rearmed → final.inbuf.length ≤ maxHeaderBytes + maxBodyBytes) := by
  obtain ⟨pre, last, heq, hpre, hlast⟩ := h
  cases pre with
  | nil =>
    obtain ⟨rfl, rfl⟩ : e = last ∧ todo = [] := by simpa using heq
    refine ⟨rfl, ?_⟩
    rintro rfl
    rcases hlast with h | ⟨-, hfits⟩
    · cases h
    · exact hfits
  | cons d pre =>
    obtain ⟨rfl, -⟩ : e = d ∧ todo = pre ++ [last] := by simpa using heq
    obtain ⟨hclosed, hrearmed⟩ := hpre e (by simp)
    rcases he with he | he
    · exact absurd he hclosed
    · exact absurd he hrearmed

end Ending

/-- Every call of `handle_ready` ends with closing or re-arming the connection. -/
theorem ending_handleReady {σ : Type} (serve : σ → Request → ℕ → Bool × σ) (world : σ) {conn : Conn}
    (script : List Recv) (hfits : conn.inbuf.length ≤ maxHeaderBytes + maxBodyBytes) :
    Ending (handleReady serve world conn script).events
      (handleReady serve world conn script).conn := by
  obtain ⟨⟨body, p, exit, hexits⟩, -⟩ := handleReady_exit serve world script hfits
  have hbody : ∀ e ∈ body, e ≠ .closed ∧ e ≠ .rearmed := by
    intro e he
    obtain ⟨req, need, rfl⟩ := hexits.served e he
    exact ⟨by simp, by simp⟩
  -- Each way out closes the connection last, or re-arms it.
  have hexit : ∃ pre last, exit.events = pre ++ [last] ∧ (∀ e ∈ pre, e ≠ .closed ∧ e ≠ .rearmed) ∧
      (last = .closed ∨ last = .rearmed ∧ exit = .rearmed) := by
    cases exit with
    | tooLarge => exact ⟨[_], _, rfl, by simp, Or.inl rfl⟩
    | failed => exact ⟨[], _, rfl, by simp, Or.inl rfl⟩
    | headerTooLarge => exact ⟨[_, _], _, rfl, by simp, Or.inl rfl⟩
    | badRequest clientIp req => exact ⟨[_, _, _], _, rfl, by simp, Or.inl rfl⟩
    | notKept req need => exact ⟨[_], _, rfl, by simp, Or.inl rfl⟩
    | peerClosed => exact ⟨[], _, rfl, by simp, Or.inl rfl⟩
    | rearmed => exact ⟨[], _, rfl, by simp, Or.inr ⟨rfl, rfl⟩⟩
  obtain ⟨pre, last, hevents, hpre, hlast⟩ := hexit
  refine ⟨body ++ pre, last, by rw [hexits.events, hevents, List.append_assoc], ?_, ?_⟩
  · exact List.forall_mem_append.mpr ⟨hbody, hpre⟩
  · rcases hlast with rfl | ⟨rfl, hrearmed⟩
    · exact Or.inl rfl
    · exact Or.inr ⟨rfl, (hexits.rearmed hrearmed).2.fits⟩

/-! ## The invariant -/

/-- What does not depend on where connections are: no two open sockets have one descriptor, every
call of `handle_ready` comes to its end, and the queue is not stopped. -/
structure Server.Good (s : Server W) : Prop where
  fds : ∀ i j fd, s.table i = some fd → s.table j = some fd → i = j
  sound : ∀ w, (s.handlers w).Sound
  running : s.pool.queue.shutdown = false

/-- Every connection is at a stage, and those that are counted are as many as
`active_connections` says. -/
structure Owned (s : Server W) (stage : ℕ → Stage W) (counted : Finset ℕ) : Prop where
  good : s.Good
  view : ∀ k, s.view k = (stage k).view k
  ok : ∀ k, (stage k).Ok
  counted_iff : ∀ k, k ∈ counted ↔ (stage k).isCounted = true
  active : s.activeConnections = UInt64.ofNat counted.card

namespace Server.Good

variable {s : Server W}

omit [DecidableEq W] in
/-- Two connections with an open socket have different descriptors. -/
theorem table_ne (h : s.Good) {k j fd : ℕ} (hk : s.table k = some fd) (hj : j ≠ k) :
    s.table j ≠ some fd :=
  fun heq => hj (h.fds j k fd heq hk)

/-- A worker that is set to something sound leaves the server good. -/
theorem setHandler (h : s.Good) (w : W) {handler : Handler} (hsound : handler.Sound) :
    (s.setHandler w handler).Good where
  fds := h.fds
  sound w' := by
    show (Function.update s.handlers w handler w').Sound
    by_cases hw : w' = w
    · rw [hw, Function.update_self]
      exact hsound
    · rw [Function.update_of_ne hw]
      exact h.sound w'
  running := h.running

omit [DecidableEq W] in
/-- Closing a descriptor leaves the server good. -/
theorem close (h : s.Good) (fd : ℕ) : (s.close fd).Good where
  fds i j fd' hi hj := by
    simp only [Server.close] at hi hj
    split at hi
    · cases hi
    · split at hj
      · cases hj
      · exact h.fds i j fd' hi hj
  sound := h.sound
  running := h.running

end Server.Good

namespace Owned

variable {s : Server W} {stage : ℕ → Stage W} {counted : Finset ℕ}

/-- One connection has moved to another stage, and the others are where they were. -/
theorem move (h : Owned s stage counted) {s' : Server W} (k : ℕ) (new : Stage W)
    (hgood : s'.Good) (hok : new.Ok) (hnew : s'.view k = new.view k)
    (hframe : ∀ j, j ≠ k → s'.view j = s.view j) {counted' : Finset ℕ}
    (hself : k ∈ counted' ↔ new.isCounted = true)
    (hother : ∀ j, j ≠ k → (j ∈ counted' ↔ j ∈ counted))
    (hactive : s'.activeConnections = UInt64.ofNat counted'.card) :
    Owned s' (Function.update stage k new) counted' where
  good := hgood
  view j := by
    by_cases hj : j = k
    · rw [hj, Function.update_self, hnew]
    · rw [Function.update_of_ne hj, hframe j hj, h.view]
  ok j := by
    by_cases hj : j = k
    · rw [hj, Function.update_self]
      exact hok
    · rw [Function.update_of_ne hj]
      exact h.ok j
  counted_iff j := by
    by_cases hj : j = k
    · rw [hj, Function.update_self, hself]
    · rw [Function.update_of_ne hj, hother j hj, h.counted_iff]
  active := hactive

/-- A move that does not change the count. -/
theorem move_same (h : Owned s stage counted) {s' : Server W} (k : ℕ) (new : Stage W)
    (hgood : s'.Good) (hok : new.Ok) (hnew : s'.view k = new.view k)
    (hframe : ∀ j, j ≠ k → s'.view j = s.view j) (hsame : new.isCounted = (stage k).isCounted)
    (hactive : s'.activeConnections = s.activeConnections) :
    ∃ stage' counted', Owned s' stage' counted' :=
  ⟨_, counted, h.move k new hgood hok hnew hframe (by rw [hsame, h.counted_iff])
    (fun _ _ => Iff.rfl) (hactive.trans h.active)⟩

/-- A connection moves to a stage where it is counted, and the count goes up. -/
theorem move_up (h : Owned s stage counted) {s' : Server W} (k : ℕ) (new : Stage W)
    (hgood : s'.Good) (hok : new.Ok) (hnew : s'.view k = new.view k)
    (hframe : ∀ j, j ≠ k → s'.view j = s.view j) (hold : (stage k).isCounted = false)
    (hcounted : new.isCounted = true) (hactive : s'.activeConnections = s.activeConnections + 1) :
    ∃ stage' counted', Owned s' stage' counted' := by
  have hk : k ∉ counted := by simp [h.counted_iff, hold]
  refine ⟨_, insert k counted, h.move k new hgood hok hnew hframe (by simp [hcounted])
    (fun j hj => by simp [hj]) ?_⟩
  rw [hactive, h.active, Finset.card_insert_of_notMem hk, UInt64.ofNat_add]
  rfl

/-- A connection moves to a stage where it is not counted any more, and the count goes down. -/
theorem move_down (h : Owned s stage counted) {s' : Server W} (k : ℕ) (new : Stage W)
    (hgood : s'.Good) (hok : new.Ok) (hnew : s'.view k = new.view k)
    (hframe : ∀ j, j ≠ k → s'.view j = s.view j) (hold : (stage k).isCounted = true)
    (hcounted : new.isCounted = false) (hactive : s'.activeConnections = s.activeConnections - 1) :
    ∃ stage' counted', Owned s' stage' counted' := by
  have hk : k ∈ counted := (h.counted_iff k).mpr hold
  refine ⟨_, counted.erase k, h.move k new hgood hok hnew hframe (by simp [hcounted])
    (fun j hj => by simp [hj]) ?_⟩
  rw [hactive, h.active, ← Finset.card_erase_add_one hk, UInt64.ofNat_add]
  exact UInt64.add_sub_cancel _ _

/-! ### Where a connection is -/

/-- A connection that no thread has is whole. -/
theorem whole (h : Owned s stage counted) {k : ℕ} {place : Place W} {phase : Phase} {fd : ℕ}
    {conn : Conn} (hst : stage k = .at place phase fd conn)
    (hplace : place = .armed ∨ place = .delivered ∨ place = .queued) : phase = .whole := by
  have hok := h.ok k
  rw [hst] at hok
  exact hok.1 hplace

/-- The connection that the main thread sets up is with it, as far as the main thread is. -/
theorem of_main (h : Owned s stage counted) {pc : AcceptPc} {k fd : ℕ}
    (hmain : s.main = .setup pc k fd) : ∃ conn, stage k = .at .setup pc.phase fd conn := by
  have hview := congrArg View.main (h.view k)
  simp only [Server.view, hmain, Main.phase, if_true] at hview
  cases hst : stage k with
  | fresh => simp [hst, Stage.view] at hview
  | gone => simp [hst, Stage.view] at hview
  | «at» place phase fd' conn =>
    simp only [hst, Stage.view] at hview
    split at hview
    · rename_i hplace
      obtain ⟨rfl, rfl⟩ : pc.phase = phase ∧ fd = fd' := by simpa using hview
      exact ⟨conn, by rw [hplace]⟩
    · cases hview

/-- The connection of a worker is with it, as far as the worker is. -/
theorem of_held (h : Owned s stage counted) {w : W} {k : ℕ} {phase : Phase}
    (hw : (s.handlers w).phase k = some phase) :
    ∃ fd conn, stage k = .at (.held w) phase fd conn := by
  have hview := congrFun (congrArg View.held (h.view k)) w
  simp only [Server.view, hw] at hview
  cases hst : stage k with
  | fresh => simp [hst, Stage.view] at hview
  | gone => simp [hst, Stage.view] at hview
  | «at» place phase' fd conn =>
    simp only [hst, Stage.view] at hview
    split at hview
    · rename_i hplace
      obtain rfl : phase = phase' := by simpa using hview
      exact ⟨fd, conn, by rw [hplace]⟩
    · cases hview

/-- A connection whose event is to be dispatched is whole, and delivered. -/
theorem of_delivered (h : Owned s stage counted) {k : ℕ} (hk : some k ∈ s.batch) :
    ∃ fd conn, stage k = .at .delivered .whole fd conn := by
  have hview := congrArg View.delivered (h.view k)
  have hpos := List.count_pos_iff.mpr hk
  simp only [Server.view] at hview
  cases hst : stage k with
  | fresh => simp [hst, Stage.view] at hview; omega
  | gone => simp [hst, Stage.view] at hview; omega
  | «at» place phase fd conn =>
    simp only [hst, Stage.view] at hview
    split at hview
    · rename_i hplace
      exact ⟨fd, conn, by rw [hplace, h.whole hst (Or.inr (Or.inl hplace))]⟩
    · omega

/-- A connection in the queue is whole, and queued. -/
theorem of_queued (h : Owned s stage counted) {k : ℕ} (hk : k ∈ s.pool.queue.tasks) :
    ∃ fd conn, stage k = .at .queued .whole fd conn := by
  have hview := congrArg View.queued (h.view k)
  have hpos := List.count_pos_iff.mpr hk
  simp only [Server.view] at hview
  cases hst : stage k with
  | fresh => simp [hst, Stage.view] at hview; omega
  | gone => simp [hst, Stage.view] at hview; omega
  | «at» place phase fd conn =>
    simp only [hst, Stage.view] at hview
    split at hview
    · rename_i hplace
      exact ⟨fd, conn, by rw [hplace, h.whole hst (Or.inr (Or.inr hplace))]⟩
    · omega

/-- A socket that is armed has its own connection behind its pointer, which is whole, and armed. -/
theorem of_armed (h : Owned s stage counted) {i ptr : ℕ} (hi : s.armedPtr i = some ptr) :
    ptr = i ∧ ∃ fd conn, stage i = .at .armed .whole fd conn := by
  have hview := congrArg View.armed (h.view i)
  simp only [Server.view, hi] at hview
  cases hst : stage i with
  | fresh => simp [hst, Stage.view] at hview
  | gone => simp [hst, Stage.view] at hview
  | «at» place phase fd conn =>
    simp only [hst, Stage.view] at hview
    split at hview
    · rename_i hplace
      exact ⟨by simpa using hview, fd, conn, by rw [hplace, h.whole hst (Or.inl hplace)]⟩
    · cases hview

/-- A connection that is not accepted yet is fresh. -/
theorem of_fresh (h : Owned s stage counted) {k : ℕ} (hk : s.accepted ≤ k) : stage k = .fresh := by
  have hview := congrArg View.accepted (h.view k)
  simp only [Server.view, Nat.not_lt.mpr hk, decide_false] at hview
  cases hst : stage k with
  | fresh => rfl
  | gone => simp [hst, Stage.view] at hview
  | «at» place phase fd conn => simp [hst, Stage.view] at hview

/-- What the state has about a connection whose stage is known. -/
theorem fields (h : Owned s stage counted) {k : ℕ} {st : Stage W} (hst : stage k = st) :
    (s.view k).accepted = (st.view k).accepted ∧ (s.view k).main = (st.view k).main ∧
      (s.view k).armed = (st.view k).armed ∧ (s.view k).delivered = (st.view k).delivered ∧
      (s.view k).queued = (st.view k).queued ∧ (s.view k).held = (st.view k).held ∧
      (s.view k).heap = (st.view k).heap ∧ (s.view k).fd = (st.view k).fd :=
  View.ext_iff.mp (hst ▸ h.view k)

/-- The buffer of a connection fits. -/
theorem fits (h : Owned s stage counted) {k : ℕ} {place : Place W} {phase : Phase} {fd : ℕ}
    {conn : Conn} (hst : stage k = .at place phase fd conn) :
    conn.inbuf.length ≤ maxHeaderBytes + maxBodyBytes := by
  have hok := h.ok k
  rw [hst] at hok
  exact hok.2.2

end Owned

end ForwardProxy
