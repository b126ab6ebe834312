import Mathlib.Data.Set.Card
import ForwardProxy.Server.Moves

/-!
# Who owns a connection

In every reachable state of the server before `stop` a live `Conn` is in exactly one place: with the
main thread as long as its accept is half done, and then armed in epoll, in the batch of events, in
the queue, or with one worker. No step goes by a `Conn` that was deleted, every accepted descriptor
is closed at most once, and `active_connections` is the number of live `Conn`s where no accept or
close is half done (`serverSafe_of_run`).
-/

namespace ForwardProxy

open Lib.Transition

variable {W : Type} [DecidableEq W]

/-! ## Places -/

/-- Where the state of the server has the connection `k`. -/
def Server.InPlace (s : Server W) (k : ℕ) : Place W → Prop
  | .setup => ∃ pc fd, s.main = .setup pc k fd
  | .armed => ∃ i, s.epoll i = some (.armed k)
  | .delivered => some k ∈ s.batch
  | .queued => k ∈ s.pool.queue.tasks
  | .held w => ((s.handlers w).phase k).isSome

/-- No accept is half done, and no close. -/
structure Server.Settled (s : Server W) : Prop where
  accept : ∀ pc k fd, s.main ≠ .setup pc k fd
  close : ∀ w pc k todo final, s.handlers w = .inCall pc k todo final → pc = .running

namespace Owned

variable {s : Server W} {stage : ℕ → Stage W} {counted : Finset ℕ} {k : ℕ}

/-- A connection that the state has at a place is at that place. -/
theorem of_inPlace (h : Owned s stage counted) {place : Place W} (hplace : s.InPlace k place) :
    ∃ phase fd conn, stage k = .at place phase fd conn := by
  cases place with
  | setup =>
    obtain ⟨pc, fd, hmain⟩ := hplace
    obtain ⟨conn, hst⟩ := h.of_main hmain
    exact ⟨_, _, _, hst⟩
  | armed =>
    obtain ⟨i, hi⟩ := hplace
    obtain ⟨rfl, fd, conn, hst⟩ := h.of_armed (i := i) (by rw [Server.armedPtr, hi])
    exact ⟨_, _, _, hst⟩
  | delivered =>
    obtain ⟨fd, conn, hst⟩ := h.of_delivered hplace
    exact ⟨_, _, _, hst⟩
  | queued =>
    obtain ⟨fd, conn, hst⟩ := h.of_queued hplace
    exact ⟨_, _, _, hst⟩
  | held w =>
    obtain ⟨phase, hphase⟩ := Option.isSome_iff_exists.mp hplace
    obtain ⟨fd, conn, hst⟩ := h.of_held hphase
    exact ⟨_, _, _, hst⟩

/-- And a connection at a place is there in the state. -/
theorem inPlace (h : Owned s stage counted) {place : Place W} {phase : Phase} {fd : ℕ} {conn : Conn}
    (hst : stage k = .at place phase fd conn) : s.InPlace k place := by
  obtain ⟨-, hmain, harmed, hdelivered, hqueued, hheld, -, -⟩ := h.fields hst
  cases place with
  | setup =>
    have hphase : s.main.phase k = some (phase, fd) := hmain
    cases hs : s.main with
    | setup pc j fd' =>
      rw [hs, Main.phase] at hphase
      split at hphase
      · rename_i hj
        exact ⟨pc, fd', by rw [hs, hj]⟩
      · cases hphase
    | dispatching => rw [hs] at hphase; cases hphase
    | accepting => rw [hs] at hphase; cases hphase
  | armed =>
    have hptr : s.armedPtr k = some k := harmed
    refine ⟨k, ?_⟩
    rw [Server.armedPtr] at hptr
    split at hptr
    · rename_i ptr hepoll
      cases hptr
      exact hepoll
    · cases hptr
  | delivered =>
    have hone : s.batch.count (some k) = 1 := hdelivered
    exact List.count_pos_iff.mp (by omega)
  | queued =>
    have hone : s.pool.queue.tasks.count k = 1 := hqueued
    exact List.count_pos_iff.mp (by omega)
  | held w =>
    have hphase : (s.handlers w).phase k = some phase := (congrFun hheld w).trans (if_pos rfl)
    exact Option.isSome_iff_exists.mpr ⟨phase, hphase⟩

/-- A live `Conn` is at a stage. -/
theorem of_live (h : Owned s stage counted) (hlive : (s.heap k).isSome) :
    ∃ place phase fd conn, stage k = .at place phase fd conn ∧ phase.isLive = true := by
  cases hst : stage k with
  | fresh =>
    obtain ⟨-, -, -, -, -, -, hheap, -⟩ := h.fields hst
    rw [show s.heap k = none from hheap] at hlive
    cases hlive
  | gone =>
    obtain ⟨-, -, -, -, -, -, hheap, -⟩ := h.fields hst
    rw [show s.heap k = none from hheap] at hlive
    cases hlive
  | «at» place phase fd conn =>
    obtain ⟨-, -, -, -, -, -, hheap, -⟩ := h.fields hst
    refine ⟨place, phase, fd, conn, rfl, ?_⟩
    by_contra hdead
    rw [show s.heap k = none from hheap.trans (if_neg hdead)] at hlive
    cases hlive

/-- A live connection has its descriptor and its `Conn` on the heap. -/
theorem heap_eq (h : Owned s stage counted) {place : Place W} {phase : Phase} {fd : ℕ} {conn : Conn}
    (hst : stage k = .at place phase fd conn) (hlive : phase.isLive = true) :
    s.heap k = some ⟨fd, conn⟩ := by
  obtain ⟨-, -, -, -, -, -, hheap, -⟩ := h.fields hst
  exact hheap.trans (if_pos hlive)

/-- A live `Conn` is in one place and no other. -/
theorem one_place (h : Owned s stage counted) (hlive : (s.heap k).isSome) :
    ∃! place, s.InPlace k place := by
  obtain ⟨place, phase, fd, conn, hst, -⟩ := h.of_live hlive
  refine ⟨place, h.inPlace hst, fun place' hplace' => ?_⟩
  obtain ⟨phase', fd', conn', hst'⟩ := h.of_inPlace hplace'
  rw [hst] at hst'
  cases hst'
  rfl

/-- A connection is delivered and queued once at most. -/
theorem once (h : Owned s stage counted) (k : ℕ) :
    s.batch.count (some k) ≤ 1 ∧ s.pool.queue.tasks.count k ≤ 1 := by
  have hstage : ((stage k).view k).delivered ≤ 1 ∧ ((stage k).view k).queued ≤ 1 := by
    cases stage k with
    | fresh => exact ⟨Nat.zero_le _, Nat.zero_le _⟩
    | gone => exact ⟨Nat.zero_le _, Nat.zero_le _⟩
    | «at» place phase fd conn =>
      simp only [Stage.view]
      constructor <;> split <;> omega
  rw [← h.view k] at hstage
  exact hstage

/-- Only the main thread has a connection without a live `Conn`. -/
theorem live (h : Owned s stage counted) {place : Place W} (hne : place ≠ .setup)
    (hplace : s.InPlace k place) : (s.heap k).isSome := by
  obtain ⟨phase, fd, conn, hst⟩ := h.of_inPlace hplace
  have hlive : phase.isLive = true := by
    have hok := h.ok k
    rw [hst] at hok
    cases phase with
    | accepted => exact absurd (hok.2.1 rfl) hne
    | _ => rfl
  rw [h.heap_eq hst hlive]
  rfl

/-- The connections that are counted are those with a live `Conn`, where nothing is half done. -/
theorem active_eq (h : Owned s stage counted) (hsettled : s.Settled) :
    s.activeConnections = UInt64.ofNat (Set.ncard {k | (s.heap k).isSome}) := by
  -- In a settled state no accept and no closing is half done, so every connection is whole.
  have hwhole : ∀ {k place phase fd conn}, stage k = .at place phase fd conn → phase = .whole := by
    intro k place phase fd conn hst
    have hok := h.ok k
    rw [hst] at hok
    have hplace := h.inPlace hst
    cases place with
    | setup =>
      obtain ⟨pc, fd, hmain⟩ := hplace
      exact absurd hmain (hsettled.accept pc k fd)
    | armed => exact hok.1 (Or.inl rfl)
    | delivered => exact hok.1 (Or.inr (Or.inl rfl))
    | queued => exact hok.1 (Or.inr (Or.inr rfl))
    | held w =>
      obtain ⟨-, -, -, -, -, hheld, -, -⟩ := h.fields hst
      have hphase : (s.handlers w).phase k = some phase := (congrFun hheld w).trans (if_pos rfl)
      cases hw : s.handlers w with
      | idle => rw [hw] at hphase; cases hphase
      | called j =>
        rw [hw, Handler.phase] at hphase
        split at hphase
        · cases hphase
          rfl
        · cases hphase
      | inCall pc j todo final =>
        obtain rfl := hsettled.close w pc j todo final hw
        rw [hw] at hphase
        cases todo with
        | nil => cases hphase
        | cons e todo =>
          rw [Handler.phase] at hphase
          · split at hphase
            · cases hphase
              rfl
            · cases hphase
          · simp
  -- So the live connections are those that are counted.
  have hset : {k | (s.heap k).isSome} = (counted : Set ℕ) := by
    ext k
    rw [Set.mem_ofPred_eq, Finset.mem_coe, h.counted_iff]
    constructor
    · intro hlive
      obtain ⟨place, phase, fd, conn, hst, -⟩ := h.of_live hlive
      obtain rfl := hwhole hst
      rw [hst]
      rfl
    · intro hcounted
      cases hst : stage k with
      | fresh => rw [hst] at hcounted; cases hcounted
      | gone => rw [hst] at hcounted; cases hcounted
      | «at» place phase fd conn =>
        obtain rfl := hwhole hst
        rw [h.heap_eq hst rfl]
        rfl
  rw [hset, Set.ncard_coe_finset, h.active]

end Owned

/-! ## After a close -/

/-- The step goes by the `Conn`: it reads it, or takes or hands on its address. -/
def ServerEvent.Refers (k : ℕ) : ServerEvent W → Prop
  | .wait batch => some k ∈ batch
  | .add j _ | .push j | .pop _ j | .begin _ j | .act _ j _ | .deregister _ j | .close (some _) j _
  | .delete _ j | .rearm _ j _ => j = k
  | _ => False

/-- The `Conn` was deleted. -/
structure Server.Gone (s : Server W) (k : ℕ) : Prop where
  accepted : k < s.accepted
  main : s.main.phase k = none
  heap : s.heap k = none

/-- The socket was closed. -/
structure Server.Closed (s : Server W) (k : ℕ) : Prop where
  accepted : k < s.accepted
  table : s.table k = none

namespace Server

variable {s s' : Server W} {e : ServerEvent W} {k : ℕ}

omit [DecidableEq W] in
/-- A connection that the main thread does not have is not the one that it sets up. -/
theorem ne_of_phase {pc : AcceptPc} {j fd : ℕ} (hmain : s.main = .setup pc j fd)
    (hk : s.main.phase k = none) : j ≠ k := by
  rintro rfl
  rw [hmain, Main.phase, if_pos rfl] at hk
  cases hk

/-- No step brings a deleted `Conn` back. -/
theorem Gone.step (h : s.Gone k) (hstep : Step s e s') : s'.Gone k := by
  obtain ⟨haccepted, hmain, hheap⟩ := h
  have hset : ∀ (j : ℕ) (c : Option Client), (j = k → c = none) →
      (s.setHeap j c).heap k = none := by
    intro j c hc
    by_cases hj : k = j
    · subst hj
      exact (Function.update_self ..).trans (hc rfl)
    · exact (Function.update_of_ne hj ..).trans hheap
  cases hstep with
  | accept =>
    exact ⟨Nat.lt_succ_of_lt haccepted, if_neg (Nat.ne_of_gt haccepted), hheap⟩
  | create clientIp hm =>
    have hne := ne_of_phase hm.1 hmain
    exact ⟨haccepted, if_neg hne, hset _ _ fun h => absurd h hne⟩
  | countUp hm => exact ⟨haccepted, if_neg (ne_of_phase hm.1 hmain), hheap⟩
  | addFails hm => exact ⟨haccepted, if_neg (ne_of_phase hm.1 hmain), hheap⟩
  | refuse hm => exact ⟨haccepted, if_neg (ne_of_phase hm.1 hmain), hheap⟩
  | uncountRefused hm => exact ⟨haccepted, if_neg (ne_of_phase hm.1 hmain), hheap⟩
  | deleteRefused => exact ⟨haccepted, rfl, hset _ _ fun _ => rfl⟩
  | listener => exact ⟨haccepted, rfl, hheap⟩
  | acceptEnds => exact ⟨haccepted, rfl, hheap⟩
  | blocking => exact ⟨haccepted, rfl, hheap⟩
  | add => exact ⟨haccepted, rfl, hheap⟩
  | delete => exact ⟨haccepted, hmain, hset _ _ fun _ => rfl⟩
  | rearm =>
    refine ⟨haccepted, hmain, hset _ _ ?_⟩
    rintro rfl
    rw [hheap]
    rfl
  | _ => exact ⟨haccepted, hmain, hheap⟩

/-- No step opens a closed socket again. -/
theorem Closed.step (h : s.Closed k) (hstep : Step s e s') : s'.Closed k := by
  obtain ⟨haccepted, htable⟩ := h
  have hclose : ∀ fd, (s.close fd).table k = none := by
    intro fd
    simp [Server.close, htable]
  cases hstep with
  | accept =>
    exact ⟨Nat.lt_succ_of_lt haccepted,
      (Function.update_of_ne (Nat.ne_of_lt haccepted) ..).trans htable⟩
  | blocking => exact ⟨haccepted, hclose _⟩
  | refuse => exact ⟨haccepted, hclose _⟩
  | close => exact ⟨haccepted, hclose _⟩
  | _ => exact ⟨haccepted, htable⟩

end Server

namespace Owned

variable {s s' : Server W} {stage : ℕ → Stage W} {counted : Finset ℕ} {e : ServerEvent W} {k : ℕ}

/-- A connection with a place was accepted. -/
theorem lt_accepted (h : Owned s stage counted) {place : Place W} {phase : Phase} {fd : ℕ}
    {conn : Conn} (hst : stage k = .at place phase fd conn) : k < s.accepted := by
  obtain ⟨haccepted, -⟩ := h.fields hst
  exact of_decide_eq_true haccepted

/-- What a worker is in a call for is live. -/
theorem live_of_inCall (h : Owned s stage counted) {w : W} {pc : HandlerPc}
    {todo : List ConnEvent} {final : Conn} (hw : s.handlers w = .inCall pc k todo final)
    (hcall : pc ≠ .running ∨ todo ≠ []) : (s.heap k).isSome := by
  apply h.live (show Place.held w ≠ .setup by simp)
  rw [Server.InPlace, hw, phase_inCall hcall]
  rfl

/-- A step that goes by a `Conn` finds it live. -/
theorem refers_live (h : Owned s stage counted) (hstep : Server.Step s e s') (he : e.Refers k) :
    (s.heap k).isSome := by
  cases hstep with
  | @wait sources hmain hbatch hlen hnodup harmed =>
    -- A reported socket is armed, and behind the pointer of an armed socket is its own connection.
    obtain ⟨i, hi, htag⟩ := List.mem_map.mp he
    cases i with
    | none => cases htag
    | some i =>
      obtain ⟨rfl, fd, conn, hst⟩ := h.of_armed htag
      rw [h.heap_eq hst rfl]
      rfl
  | add hmain =>
    obtain rfl := he
    obtain ⟨conn, hst⟩ := h.of_main hmain.1
    rw [h.heap_eq hst rfl]
    rfl
  | addFails hmain =>
    obtain rfl := he
    obtain ⟨conn, hst⟩ := h.of_main hmain.1
    rw [h.heap_eq hst rfl]
    rfl
  | deleteRefused hmain =>
    obtain rfl := he
    obtain ⟨conn, hst⟩ := h.of_main hmain.1
    rw [h.heap_eq hst rfl]
    rfl
  | push hmain hbatch hpool =>
    obtain rfl := he
    exact h.live (show Place.delivered ≠ .setup by simp) (by simp [Server.InPlace, hbatch])
  | pop hw hpool =>
    obtain rfl := he
    -- A task is a queued connection.
    apply h.live (show Place.queued ≠ .setup by simp)
    cases hpool with
    | pop hready hpop =>
      rcases TaskQueue.pop_cases hpop with ⟨task, hr, htasks, -⟩ | ⟨hr, -⟩
      · cases hr
        simp [Server.InPlace, htasks]
      · cases hr
  | @begin w _ conn σ serve world script hw hconn =>
    obtain rfl := he
    apply h.live (show Place.held w ≠ .setup by simp)
    rw [Server.InPlace, hw, Handler.phase, if_pos rfl]
    rfl
  | act hw hclosed hrearmed =>
    obtain rfl := he
    -- A call that has something left to do has its `Conn`.
    exact h.live_of_inCall hw (Or.inr (by simp))
  | deregister hw hfd =>
    obtain rfl := he
    exact h.live_of_inCall hw (Or.inr (by simp))
  | close hw hfd =>
    obtain rfl := he
    exact h.live_of_inCall hw (Or.inl (by simp))
  | delete hw =>
    obtain rfl := he
    exact h.live_of_inCall hw (Or.inl (by simp))
  | rearm hw hfd =>
    obtain rfl := he
    exact h.live_of_inCall hw (Or.inr (by simp))
  | rearmFails hw hfd =>
    obtain rfl := he
    exact h.live_of_inCall hw (Or.inr (by simp))
  | _ => exact he.elim

/-- A connection whose `Conn` is deleted is gone. -/
theorem gone_of_delete (h : Owned s stage counted) {who : Option W}
    (hstep : Server.Step s (.delete who k) s') : s'.Gone k := by
  cases hstep with
  | deleteRefused hmain =>
    obtain ⟨conn, hst⟩ := h.of_main hmain.1
    exact ⟨h.lt_accepted hst, rfl, Function.update_self ..⟩
  | delete hw =>
    obtain ⟨fd, conn, hst⟩ := h.of_held (phase_self hw (Or.inl (by simp)))
    obtain ⟨-, hmain, -⟩ := h.fields hst
    exact ⟨h.lt_accepted hst, hmain, Function.update_self ..⟩

/-- A close finds the socket open under the descriptor that it closes. -/
theorem table_of_close (h : Owned s stage counted) {who : Option W} {fd : ℕ}
    (hstep : Server.Step s (.close who k fd) s') : s.table k = some fd ∧ s'.Closed k := by
  have hclosed : s.table k = some fd → (s.close fd).table k = none := fun hopen => if_pos hopen
  cases hstep with
  | blocking hmain =>
    obtain ⟨conn, hst⟩ := h.of_main hmain.1
    obtain ⟨-, -, -, -, -, -, -, hopen⟩ := h.fields hst
    exact ⟨hopen, h.lt_accepted hst, hclosed hopen⟩
  | refuse hmain =>
    obtain ⟨conn, hst⟩ := h.of_main hmain.1
    obtain ⟨-, -, -, -, -, -, -, hopen⟩ := h.fields hst
    exact ⟨hopen, h.lt_accepted hst, hclosed hopen⟩
  | @close w _ _ todo final hw hfd =>
    obtain ⟨fd', conn, hst⟩ := h.of_held (phase_self hw (Or.inl (by simp)))
    obtain ⟨-, -, -, -, -, -, hheap, hopen⟩ := h.fields hst
    obtain rfl : fd' = fd := hfd _ hheap
    exact ⟨hopen, h.lt_accepted hst, hclosed hopen⟩

end Owned

/-! ## Whole runs -/

/-- What holds of a run of the server and the state that it comes to. -/
structure ServerSafe (past : List (ServerEvent W × Server W)) (s : Server W) : Prop where
  /-- A live `Conn` is in one place. -/
  one_place : ∀ k, (s.heap k).isSome → ∃! place, s.InPlace k place
  delivered_once : ∀ k, s.batch.count (some k) ≤ 1
  queued_once : ∀ k, s.pool.queue.tasks.count k ≤ 1
  /-- What is armed, delivered, queued or handled is live. -/
  live : ∀ k place, place ≠ .setup → s.InPlace k place → (s.heap k).isSome
  refers_live : ∀ pre e s' post k, past = pre ++ (e, s') :: post → e.Refers k →
    ∃ s₁, Run (serverSystem W) pre s₁ ∧ (s₁.heap k).isSome
  /-- No step goes by a `Conn` after it was deleted. -/
  deleted : ∀ pre who k post, events past = pre ++ .delete who k :: post →
    ∀ e ∈ post, ¬e.Refers k
  /-- A descriptor is closed at most once, and is then that of its own socket. -/
  closed_once : ∀ pre who k fd post, events past = pre ++ .close who k fd :: post →
    ∀ who' fd', .close who' k fd' ∉ post
  closed_own : ∀ pre who k fd s' post, past = pre ++ (.close who k fd, s') :: post →
    ∃ s₁, Run (serverSystem W) pre s₁ ∧ s₁.table k = some fd
  active : s.Settled → s.activeConnections = UInt64.ofNat (Set.ncard {k | (s.heap k).isSome})

/-- The invariant holds all along a run. -/
theorem owned_of_run {past : List (ServerEvent W × Server W)} {s : Server W}
    (h : Run (serverSystem W) past s) : (∃ stage counted, Owned s stage counted) ∧
      Run { init := {}, step := fun s e s' => (∃ stage counted, Owned s stage counted) ∧
        Server.Step s e s' } past s :=
  h.restrict (I := fun s => ∃ stage counted, Owned s stage counted) ⟨_, _, owned_init⟩
    fun _ _ _ ⟨_, _, hs⟩ hstep => hs.step hstep

/-- Every run of the server is safe: a live `Conn` is in one place, no step goes by a deleted one, a
descriptor is closed at most once, and the count of active connections is that of the live ones. -/
theorem serverSafe_of_run {past : List (ServerEvent W × Server W)} {s : Server W}
    (h : Run (serverSystem W) past s) : ServerSafe past s := by
  obtain ⟨⟨stage, counted, howned⟩, hrun⟩ := owned_of_run h
  constructor
  · exact fun k hlive => howned.one_place hlive
  · exact fun k => (howned.once k).1
  · exact fun k => (howned.once k).2
  · exact fun k place hne hplace => howned.live hne hplace
  · rintro pre e s' post k rfl he
    obtain ⟨s₁, hrun₁, hstep⟩ := h.split
    obtain ⟨⟨stage₁, counted₁, howned₁⟩, -⟩ := owned_of_run hrun₁
    exact ⟨s₁, hrun₁, howned₁.refers_live hstep he⟩
  · intro pre who k post hevents e he hrefers
    -- A deletion leaves the connection gone for good, and no step refers to one that is gone.
    refine hrun.never_after (fun s => s.Gone k) (p := fun e => ∃ who, e = .delete who k)
      (q := fun e => e.Refers k) ?_ ?_ ?_ hevents ⟨who, rfl⟩ e he hrefers
    · rintro s e s' ⟨⟨_, _, hs⟩, hstep⟩ ⟨who, rfl⟩
      exact hs.gone_of_delete hstep
    · rintro s e s' ⟨-, hstep⟩ hgone
      exact hgone.step hstep
    · rintro s e s' ⟨⟨_, _, hs⟩, hstep⟩ hrefers hgone
      have hlive := hs.refers_live hstep hrefers
      rw [hgone.heap] at hlive
      cases hlive
  · intro pre who k fd post hevents who' fd' hmem
    -- And so a closed socket is closed for good.
    refine hrun.never_after (fun s => s.Closed k) (p := fun e => ∃ who fd, e = .close who k fd)
      (q := fun e => ∃ who fd, e = .close who k fd) ?_ ?_ ?_ hevents ⟨who, fd, rfl⟩ _ hmem
      ⟨who', fd', rfl⟩
    · rintro s e s' ⟨⟨_, _, hs⟩, hstep⟩ ⟨who, fd, rfl⟩
      exact (hs.table_of_close hstep).2
    · rintro s e s' ⟨-, hstep⟩ hclosed
      exact hclosed.step hstep
    · rintro s e s' ⟨⟨_, _, hs⟩, hstep⟩ ⟨who, fd, rfl⟩ hclosed
      have hopen := (hs.table_of_close hstep).1
      rw [hclosed.table] at hopen
      cases hopen
  · rintro pre who k fd s' post rfl
    obtain ⟨s₁, hrun₁, hstep⟩ := h.split
    obtain ⟨⟨stage₁, counted₁, howned₁⟩, -⟩ := owned_of_run hrun₁
    exact ⟨s₁, hrun₁, (howned₁.table_of_close hstep).1⟩
  · exact howned.active_eq

/-- A connection from its accept to its close, with one worker and an EOF as the first that is
received. -/
theorem serverSafe_eof :
    ∃ (past : List (ServerEvent (Fin 1) × Server (Fin 1))) (s : Server (Fin 1)),
      Run (serverSystem (Fin 1)) past s ∧
        events past = [.wait [none], .listener, .accept 0 7, .create 0, .countUp 0, .add 0 true,
          .acceptEnds, .wait [some 0], .push 0, .pop 0 0, .begin 0 0, .deregister 0 0,
          .close (some 0) 0 7, .uncount (some 0) 0, .delete (some 0) 0] ∧
        ServerSafe past s := by
  have h₁ := (Run.start (S := serverSystem (Fin 1))).step (.wait ⟨rfl, rfl⟩ rfl
    (show ([none] : List (Option ℕ)).length ≤ 1024 by decide) (by decide) (by simp))
  have h₂ := h₁.step (.listener ⟨rfl, rfl⟩ rfl)
  have h₃ := h₂.step (.accept ⟨rfl, rfl⟩ (show ∀ i, _ ≠ some 7 by
    intro i h
    cases h))
  have h₄ := h₃.step (.create (str "10.0.0.1") ⟨rfl, rfl⟩)
  have h₅ := h₄.step (.countUp ⟨rfl, rfl⟩)
  have h₆ := h₅.step (.add ⟨rfl, rfl⟩)
  have h₇ := h₆.step (.acceptEnds ⟨rfl, rfl⟩)
  have h₈ := h₇.step (.wait ⟨rfl, rfl⟩ rfl
    (show ([some 0] : List (Option ℕ)).length ≤ 1024 by decide) (by decide) (by
      intro i hi
      obtain rfl : i = 0 := by simpa using hi
      rfl))
  have h₉ := h₈.step (.push ⟨rfl, rfl⟩ rfl (.push 0 rfl))
  have h₁₀ := h₉.step (.pop (w := 0) (k := 0) rfl (.pop rfl rfl))
  have h₁₁ := h₁₀.step (.begin (w := 0) (k := 0) (fun (_ : Unit) _ _ => (false, ())) () [.eof] rfl
    (show ∀ c : Client, _ = some c → c.conn = ({ clientIp := str "10.0.0.1" } : Conn) by
      rintro c h
      cases h
      rfl))
  have h₁₂ := h₁₁.step (.deregister (w := 0) (k := 0) rfl
    (show ∀ c : Client, _ = some c → c.fd = 7 by
      rintro c h
      cases h
      rfl))
  have h₁₃ := h₁₂.step (.close (w := 0) (k := 0) rfl (show ∀ c : Client, _ = some c → c.fd = 7 by
    rintro c h
    cases h
    rfl))
  have h₁₄ := h₁₃.step (.uncount (w := 0) (k := 0) rfl)
  have h₁₅ := h₁₄.step (.delete (w := 0) (k := 0) rfl)
  exact ⟨_, _, h₁₅, rfl, serverSafe_of_run h₁₅⟩

/-- A `Conn` whose accept is half done is live, and neither in epoll nor with a worker. -/
theorem half_accepted :
    ∃ (past : List (ServerEvent (Fin 1) × Server (Fin 1))) (s : Server (Fin 1)),
      Run (serverSystem (Fin 1)) past s ∧
        events past = [.wait [none], .listener, .accept 0 7, .create 0] ∧
        (s.heap 0).isSome ∧ ∀ place, place ≠ .setup → ¬s.InPlace 0 place := by
  have h₁ := (Run.start (S := serverSystem (Fin 1))).step (.wait ⟨rfl, rfl⟩ rfl
    (show ([none] : List (Option ℕ)).length ≤ 1024 by decide) (by decide) (by simp))
  have h₂ := h₁.step (.listener ⟨rfl, rfl⟩ rfl)
  have h₃ := h₂.step (.accept ⟨rfl, rfl⟩ (show ∀ i, _ ≠ some 7 by
    intro i h
    cases h))
  have h₄ := h₃.step (.create (str "10.0.0.1") ⟨rfl, rfl⟩)
  refine ⟨_, _, h₄, rfl, rfl, ?_⟩
  intro place hne hplace
  cases place with
  | setup => exact hne rfl
  | armed =>
    obtain ⟨i, hi⟩ := hplace
    cases i <;> cases hi
  | delivered => cases hplace
  | queued => cases hplace
  | held w => cases hplace

end ForwardProxy
