import Mathlib.Logic.Relation
import ForwardProxy.Server.Inspect

/-!
# The exits of a connection

`handle_ready` has many ways out. `Next` is its small-step reading: a point is the head of the drain
loop or of the serving loop, and from a point there is one next point or one exit (`Leaves`). A call
of `handle_ready` runs from a drain to an exit (`handleReady_exit`), and a connection from its
accept to an exit that closes it, or to the end of the script (`serveConnection_exit`). So a call
ends with closing the connection or with re-arming it, once and as the last thing it does.
-/

namespace ForwardProxy

open Relation

/-- The ways out of a call of `handle_ready`. -/
inductive Exit
  | tooLarge
  | failed
  | headerTooLarge
  | badRequest (clientIp : Bytes) (req : Request)
  | notKept (req : Request) (need : ℕ)
  | peerClosed
  | rearmed

/-- A buffer that is too large is answered with `413`. -/
def tooLargeEvents : List ConnEvent :=
  [.sent (buildResponse 413 (str "Payload Too Large") (str "413 Payload Too Large\n") false),
    .closed]

/-- What is done on the way out. -/
def Exit.events : Exit → List ConnEvent
  | tooLarge => tooLargeEvents
  | failed => [.closed]
  | headerTooLarge => headerTooLargeEvents
  | badRequest clientIp req => badRequestEvents clientIp req
  | notKept req need => [.served req need false, .closed]
  | peerClosed => [.closed]
  | rearmed => [.rearmed]

/-- A connection is at the head of the drain loop, or at the head of the serving loop, with whether
the drain has met an EOF and whether the turn has served a request. -/
inductive Point (σ : Type)
  | drain (w : σ) (c : Conn) (script : List Recv)
  | serve (w : σ) (c : Conn) (eof any : Bool) (rest : List Recv)

/-- A connection after a request of `need` bytes was served. -/
def Conn.consume (c : Conn) (need : ℕ) : Conn :=
  { c with inbuf := c.inbuf.drop need, requestsServed := c.requestsServed + 1 }

section

variable {σ : Type} (serve : σ → Request → ℕ → Bool × σ)

/-- From one head of a loop to the next, over a drain or a request that is served. -/
inductive Next : Point σ → Point σ → Prop
  | drained {w : σ} {c : Conn} {script : List Recv}
      (h : (ForwardProxy.drain c.inbuf script).ending = .drained) :
      Next (.drain w c script) (.serve w
        { c with inbuf := (ForwardProxy.drain c.inbuf script).inbuf } false false
        (ForwardProxy.drain c.inbuf script).rest)
  | eof {w : σ} {c : Conn} {script : List Recv}
      (h : (ForwardProxy.drain c.inbuf script).ending = .peerClosed) :
      Next (.drain w c script) (.serve w
        { c with inbuf := (ForwardProxy.drain c.inbuf script).inbuf } true false
        (ForwardProxy.drain c.inbuf script).rest)
  | served {w : σ} {c : Conn} {eof any : Bool} {rest : List Recv} {req : Request} {need : ℕ}
      (h : inspect c.inbuf = .ready req need) (hkeep : (serve w req need).1 = true) :
      Next (.serve w c eof any rest) (.serve (serve w req need).2 (c.consume need) eof true rest)
  | again {w : σ} {c : Conn} {rest : List Recv} (h : inspect c.inbuf = .needMore) :
      Next (.serve w c false true rest) (.drain w c rest)
  /-- The connection is re-armed, and reported readable once more. -/
  | readable {w : σ} {c : Conn} {rest : List Recv} (h : inspect c.inbuf = .needMore)
      (hrest : rest ≠ []) : Next (.serve w c false false rest) (.drain w c rest)

/-- The way out at a point. -/
inductive Leaves : Point σ → Exit → Prop
  | tooLarge {w : σ} {c : Conn} {script : List Recv}
      (h : (ForwardProxy.drain c.inbuf script).ending = .tooLarge) :
      Leaves (.drain w c script) .tooLarge
  | failed {w : σ} {c : Conn} {script : List Recv}
      (h : (ForwardProxy.drain c.inbuf script).ending = .failed) :
      Leaves (.drain w c script) .failed
  | headerTooLarge {w : σ} {c : Conn} {eof any : Bool} {rest : List Recv}
      (h : inspect c.inbuf = .headerTooLarge) : Leaves (.serve w c eof any rest) .headerTooLarge
  | badRequest {w : σ} {c : Conn} {eof any : Bool} {rest : List Recv} {req : Request}
      (h : inspect c.inbuf = .badRequest req) :
      Leaves (.serve w c eof any rest) (.badRequest c.clientIp req)
  | notKept {w : σ} {c : Conn} {eof any : Bool} {rest : List Recv} {req : Request} {need : ℕ}
      (h : inspect c.inbuf = .ready req need) (hkeep : (serve w req need).1 = false) :
      Leaves (.serve w c eof any rest) (.notKept req need)
  | peerClosed {w : σ} {c : Conn} {any : Bool} {rest : List Recv}
      (h : inspect c.inbuf = .needMore) : Leaves (.serve w c true any rest) .peerClosed
  | rearmed {w : σ} {c : Conn} {rest : List Recv} (h : inspect c.inbuf = .needMore) :
      Leaves (.serve w c false false rest) .rearmed

variable {serve}

/-- A point has one next point. -/
theorem Next.unique {p q q' : Point σ} (h : Next serve p q) (h' : Next serve p q') : q = q' := by
  cases h with
  | drained h =>
    cases h' with
    | drained => rfl
    | eof h' => simp [h] at h'
  | eof h =>
    cases h' with
    | drained h' => simp [h] at h'
    | eof => rfl
  | served h =>
    cases h' with
    | served h' =>
      rw [h] at h'
      cases h'
      rfl
    | again h' => simp [h] at h'
    | readable h' => simp [h] at h'
  | again h =>
    cases h' with
    | served h' => simp [h] at h'
    | again => rfl
  | readable h =>
    cases h' with
    | served h' => simp [h] at h'
    | readable => rfl

/-- An exit that closes the connection is taken at a point that has no next. -/
theorem Leaves.last {p q : Point σ} {exit : Exit} (h : Leaves serve p exit)
    (hexit : exit ≠ .rearmed) : ¬Next serve p q := by
  intro h'
  cases h with
  | tooLarge h => cases h' with
    | drained h' => simp [h] at h'
    | eof h' => simp [h] at h'
  | failed h => cases h' with
    | drained h' => simp [h] at h'
    | eof h' => simp [h] at h'
  | headerTooLarge h => cases h' with
    | served h' => simp [h] at h'
    | again h' => simp [h] at h'
    | readable h' => simp [h] at h'
  | badRequest h => cases h' with
    | served h' => simp [h] at h'
    | again h' => simp [h] at h'
    | readable h' => simp [h] at h'
  | notKept h hkeep => cases h' with
    | served h' hkeep' =>
      rw [h] at h'
      cases h'
      rw [hkeep] at hkeep'
      cases hkeep'
    | again h' => simp [h] at h'
    | readable h' => simp [h] at h'
  | peerClosed h => cases h' with
    | served h' => simp [h] at h'
  | rearmed h => exact hexit rfl

/-- The way out that there would be at a point. -/
def Point.exit : Point σ → Exit
  | .drain _ c script =>
    if (ForwardProxy.drain c.inbuf script).ending = .tooLarge then .tooLarge else .failed
  | .serve _ c eof _ _ =>
    match inspect c.inbuf with
    | .headerTooLarge => .headerTooLarge
    | .badRequest req => .badRequest c.clientIp req
    | .ready req need => .notKept req need
    | .needMore => if eof then .peerClosed else .rearmed

/-- The way out at a point is the one that there would be. -/
theorem Leaves.eq_exit {p : Point σ} {exit : Exit} (h : Leaves serve p exit) : exit = p.exit := by
  cases h with
  | tooLarge h => simp [Point.exit, h]
  | failed h => simp [Point.exit, h]
  | headerTooLarge h => simp [Point.exit, h]
  | badRequest h => simp [Point.exit, h]
  | notKept h => simp [Point.exit, h]
  | peerClosed h => simp [Point.exit, h]
  | rearmed h => simp [Point.exit, h]

/-- A point has one way out. -/
theorem Leaves.unique {p : Point σ} {exit exit' : Exit} (h : Leaves serve p exit)
    (h' : Leaves serve p exit') : exit = exit' := h.eq_exit.trans h'.eq_exit.symm

end

/-! ## The drain -/

/-- The buffer that a drain leaves, and what it takes off the script. -/
theorem drain_bounds (script : List Recv) {inbuf : Bytes}
    (h : inbuf.length ≤ maxHeaderBytes + maxBodyBytes) :
    ((drain inbuf script).ending ≠ .tooLarge →
        (drain inbuf script).inbuf.length ≤ maxHeaderBytes + maxBodyBytes) ∧
      (drain inbuf script).rest.length ≤ script.length ∧
      (script ≠ [] → (drain inbuf script).rest.length < script.length) := by
  induction script generalizing inbuf with
  | nil => exact ⟨fun _ => h, le_refl _, by simp⟩
  | cons e script ih =>
    cases e with
    | data b bs =>
      rw [drain]
      split
      · exact ⟨by simp, by simp, by simp⟩
      · rename_i hfits
        obtain ⟨hlen, hrest, -⟩ := @ih (inbuf ++ b :: bs) (by omega)
        exact ⟨hlen, by simp only [List.length_cons]; omega,
          fun _ => by simp only [List.length_cons]; omega⟩
    | eof => exact ⟨fun _ => h, by simp [drain], by simp [drain]⟩
    | intr =>
      obtain ⟨hlen, hrest, -⟩ := ih h
      exact ⟨hlen, by simp only [drain, List.length_cons]; omega,
        fun _ => by simp only [drain, List.length_cons]; omega⟩
    | again => exact ⟨fun _ => h, by simp [drain], by simp [drain]⟩
    | error reason => exact ⟨fun _ => h, by simp [drain], by simp [drain]⟩

/-- A drain is left as too large once the buffer is above the limit. -/
theorem drain_tooLarge {inbuf : Bytes} {script : List Recv}
    (h : (drain inbuf script).ending = .tooLarge) :
    maxHeaderBytes + maxBodyBytes < (drain inbuf script).inbuf.length := by
  induction script generalizing inbuf with
  | nil => cases h
  | cons e script ih =>
    cases e with
    | data b bs =>
      rw [drain] at h ⊢
      split
      · assumption
      · rename_i hfits
        rw [if_neg hfits] at h
        exact ih h
    | intr => exact ih h
    | eof => cases h
    | again => cases h
    | error reason => cases h

/-- The buffer at the head of a loop is not too large. -/
def Point.Fits {σ : Type} : Point σ → Prop
  | .drain _ c _ => c.inbuf.length ≤ maxHeaderBytes + maxBodyBytes
  | .serve _ c _ _ _ => c.inbuf.length ≤ maxHeaderBytes + maxBodyBytes

/-! ## The loops -/

section Loops

variable {σ : Type} {serve : σ → Request → ℕ → Bool × σ}

/-- The next point has a buffer within the limit. -/
theorem Next.fits {p q : Point σ} (h : Next serve p q) (hp : p.Fits) : q.Fits := by
  cases h with
  | drained h => exact (drain_bounds _ hp).1 (by simp [h])
  | eof h => exact (drain_bounds _ hp).1 (by simp [h])
  | served h hkeep =>
    simp only [Point.Fits, Conn.consume, List.length_drop] at hp ⊢
    omega
  | again h => exact hp
  | readable h hrest => exact hp

/-- Every later point has a buffer within the limit. -/
theorem fits_of_reflTransGen {p q : Point σ} (h : ReflTransGen (Next serve) p q) (hp : p.Fits) :
    q.Fits := by
  induction h with
  | refl => exact hp
  | tail _ hstep ih => exact hstep.fits ih

/-- What happens on the way from a point to another: requests are served, and the connection stays
open after each. -/
def AllServed (events : List ConnEvent) : Prop :=
  ∀ e ∈ events, ∃ req need, e = .served req need true

/-- A connection between two turns: what is in its buffer is not yet a request. -/
structure Waiting (c : Conn) : Prop where
  needMore : inspect c.inbuf = .needMore
  fits : c.inbuf.length ≤ maxHeaderBytes + maxBodyBytes

variable (serve) in
/-- The serving loop goes on to where more bytes are needed, or to an exit. -/
theorem serveLoop_exit (fuel : ℕ) (w : σ) (c : Conn) (eof any : Bool) (rest : List Recv)
    (hfits : c.inbuf.length ≤ maxHeaderBytes + maxBodyBytes) (hfuel : c.inbuf.length < fuel) :
    let r := serveLoop serve fuel w c
    ∃ body p, AllServed body ∧ ReflTransGen (Next serve) (.serve w c eof any rest) p ∧
      ((r.alive = true ∧ p = .serve r.world r.conn eof (any || r.servedAny) rest ∧
          Waiting r.conn ∧ r.events = body) ∨
        (r.alive = false ∧ ∃ exit, Leaves serve p exit ∧ exit ≠ .rearmed ∧
          r.events = body ++ exit.events)) := by
  induction fuel generalizing w c any with
  | zero => omega
  | succ fuel ih =>
    have hnone : AllServed [] := by simp [AllServed]
    dsimp only
    rw [serveLoop]
    cases hinspect : inspect c.inbuf with
    | needMore =>
      refine ⟨[], _, hnone, .refl, Or.inl ⟨rfl, ?_, ⟨hinspect, hfits⟩, rfl⟩⟩
      rw [Bool.or_false]
    | headerTooLarge =>
      exact ⟨[], _, hnone, .refl, Or.inr ⟨rfl, _, .headerTooLarge hinspect, by simp, rfl⟩⟩
    | badRequest req =>
      exact ⟨[], _, hnone, .refl, Or.inr ⟨rfl, _, .badRequest hinspect, by simp, rfl⟩⟩
    | ready req need =>
      cases hkeep : (serve w req need).1 with
      | false =>
        refine ⟨[], _, hnone, .refl, Or.inr ?_⟩
        simp only [hkeep]
        exact ⟨rfl, _, .notKept hinspect hkeep, by simp, rfl⟩
      | true =>
        -- The request takes bytes off the buffer, so the fuel is enough for the rest.
        have hbounds := inspect_ready_bounds (lt_of_le_total hfits) hinspect
        have hlen : (c.consume need).inbuf.length = c.inbuf.length - need := List.length_drop
        obtain ⟨body, p, hbody, hrun, hend⟩ := ih (serve w req need).2 (c.consume need)
          true (by omega) (by omega)
        have hserved : AllServed (.served req need true :: body) :=
          List.forall_mem_cons.mpr ⟨⟨req, need, rfl⟩, hbody⟩
        refine ⟨_, p, hserved, .head (.served hinspect hkeep) hrun, ?_⟩
        simp only [hkeep, if_true]
        rcases hend with ⟨halive, hp, hwait, hevents⟩ | ⟨halive, exit, hleaves, hne, hevents⟩
        · refine Or.inl ⟨halive, ?_, hwait, congrArg _ hevents⟩
          rw [Bool.true_or] at hp
          rw [Bool.or_true]
          exact hp
        · exact Or.inr ⟨halive, exit, hleaves, hne, congrArg _ hevents⟩

/-- What a turn comes to: an exit that closes the connection, or the end of the serving loop, from
where it is re-armed or drained once more. -/
structure TurnExits (serve : σ → Request → ℕ → Bool × σ) (start : Point σ) (t : TurnEnd σ)
    (body : List ConnEvent) (p : Point σ) : Prop where
  served : AllServed body
  run : ReflTransGen (Next serve) start p
  closed : t.next = .closed →
    ∃ exit, Leaves serve p exit ∧ exit ≠ .rearmed ∧ t.events = body ++ exit.events
  open_ : t.next ≠ .closed → Waiting t.conn ∧ t.events = body
  rearm : t.next = .rearm → p = .serve t.world t.conn false false t.rest
  again : t.next = .again → p = .drain t.world t.conn t.rest

/-- A turn that closes the connection at an exit, after the requests that it served. -/
theorem TurnExits.of_closed {start p : Point σ} {t : TurnEnd σ} {body : List ConnEvent}
    {exit : Exit} (hserved : AllServed body) (hrun : ReflTransGen (Next serve) start p)
    (hleaves : Leaves serve p exit) (hne : exit ≠ .rearmed)
    (ht : t.next = .closed ∧ t.events = body ++ exit.events) :
    TurnExits serve start t body p where
  served := hserved
  run := hrun
  closed _ := ⟨exit, hleaves, hne, ht.2⟩
  open_ h := absurd ht.1 h
  rearm h := absurd (ht.1.symm.trans h) (by simp)
  again h := absurd (ht.1.symm.trans h) (by simp)

variable (serve) in
/-- A turn comes to an exit that closes the connection, or to the end of its serving loop. -/
theorem turn_exit (w : σ) {c : Conn} (script : List Recv)
    (hfits : c.inbuf.length ≤ maxHeaderBytes + maxBodyBytes) :
    ∃ body p, TurnExits serve (.drain w c script) (turn serve w c script) body p := by
  have hnone : AllServed [] := by simp [AllServed]
  obtain ⟨hlen, -, -⟩ := drain_bounds script hfits
  have hloop := fun eof => serveLoop_exit serve ((drain c.inbuf script).inbuf.length + 1) w
    { c with inbuf := (drain c.inbuf script).inbuf } eof false (drain c.inbuf script).rest
  dsimp only at hloop
  cases hending : (drain c.inbuf script).ending with
  | tooLarge =>
    have hturn : (turn serve w c script).next = .closed ∧
        (turn serve w c script).events = tooLargeEvents := by
      simp [turn, hending, tooLargeEvents]
    exact ⟨[], _, .of_closed hnone .refl (.tooLarge hending) (by simp) hturn⟩
  | failed =>
    have hturn : (turn serve w c script).next = .closed ∧
        (turn serve w c script).events = [.closed] := by
      simp [turn, hending]
    exact ⟨[], _, .of_closed hnone .refl (.failed hending) (by simp) hturn⟩
  | peerClosed =>
    -- What came before the EOF is served, and then the connection is closed in any case.
    obtain ⟨body, p, hbody, hrun, hend⟩ := hloop true (hlen (by simp [hending])) (by simp)
    have hrun' := ReflTransGen.head (Next.eof hending) hrun
    rcases hend with ⟨halive, hp, hwait, hevents⟩ | ⟨halive, exit, hleaves, hne, hevents⟩
    · have hturn : (turn serve w c script).next = .closed ∧
          (turn serve w c script).events = body ++ [.closed] := by
        simp [turn, hending, halive, hevents]
      have hleaves : Leaves serve p .peerClosed := hp ▸ .peerClosed hwait.needMore
      exact ⟨body, p, .of_closed hbody hrun' hleaves (by simp) hturn⟩
    · have hturn : (turn serve w c script).next = .closed ∧
          (turn serve w c script).events = body ++ exit.events := by
        simp [turn, hending, halive, hevents]
      exact ⟨body, p, .of_closed hbody hrun' hleaves hne hturn⟩
  | drained =>
    -- The serving loop stops for more bytes, or at an exit. In the first case the turn ends by
    -- whether it has served anything.
    obtain ⟨body, p, hbody, hrun, hend⟩ := hloop false (hlen (by simp [hending])) (by simp)
    have hrun' := ReflTransGen.head (Next.drained hending) hrun
    obtain ⟨r, hr⟩ : ∃ r, r = serveLoop serve ((drain c.inbuf script).inbuf.length + 1) w
        { c with inbuf := (drain c.inbuf script).inbuf } := ⟨_, rfl⟩
    rw [← hr] at hend
    rcases hend with ⟨halive, hp, hwait, hevents⟩ | ⟨halive, exit, hleaves, hne, hevents⟩
    · cases hany : r.servedAny with
      | true =>
        have hturn : turn serve w c script =
            ⟨r.world, r.conn, .again, r.events, (drain c.inbuf script).rest⟩ := by
          simp [turn, hending, ← hr, halive, hany]
        rw [hany] at hp
        rw [hturn]
        exact ⟨body, _, hbody, hrun'.tail (hp ▸ .again hwait.needMore), by simp,
          fun _ => ⟨hwait, hevents⟩, by simp, fun _ => rfl⟩
      | false =>
        have hturn : turn serve w c script =
            ⟨r.world, r.conn, .rearm, r.events, (drain c.inbuf script).rest⟩ := by
          simp [turn, hending, ← hr, halive, hany]
        rw [hany] at hp
        rw [hturn]
        exact ⟨body, p, hbody, hrun', by simp, fun _ => ⟨hwait, hevents⟩, fun _ => hp, by simp⟩
    · have hturn : (turn serve w c script).next = .closed ∧
          (turn serve w c script).events = body ++ exit.events := by
        simp [turn, hending, ← hr, halive, hevents]
      exact ⟨body, p, .of_closed hbody hrun' hleaves hne hturn⟩

variable (serve) in
/-- A turn takes what its drain takes off the script. -/
theorem turn_rest (w : σ) (c : Conn) (script : List Recv) :
    (turn serve w c script).rest = (drain c.inbuf script).rest := by
  unfold turn
  dsimp only
  repeat' split
  all_goals rfl

/-- Without new bytes a waiting connection is served nothing. -/
theorem turn_waiting (w : σ) {c : Conn} (hc : Waiting c) : (turn serve w c []).next = .rearm := by
  have hloop : serveLoop serve (c.inbuf.length + 1) w c = { world := w, conn := c } := by
    rw [serveLoop, hc.needMore]
  simp [turn, drain, hloop]

/-- A turn after which there is another has served a request, so the buffer was not at rest or the
script gave bytes. -/
theorem turn_again_lt {fuel : ℕ} (w : σ) {c : Conn} {script : List Recv}
    (hfits : c.inbuf.length ≤ maxHeaderBytes + maxBodyBytes)
    (hfuel : script.length + 1 < fuel + 1 ∨ script.length < fuel + 1 ∧ Waiting c)
    (hnext : (turn serve w c script).next = .again) :
    (turn serve w c script).rest.length < fuel := by
  obtain ⟨-, hle, hlt⟩ := drain_bounds script hfits
  rw [← turn_rest serve w] at hle hlt
  rcases hfuel with hfuel | ⟨hfuel, hc⟩
  · omega
  · have hscript : script ≠ [] := by
      rintro rfl
      rw [turn_waiting w hc] at hnext
      cases hnext
    have := hlt hscript
    omega

/-- What a call of `handle_ready` comes to: an exit, which is the last that it does. -/
structure Exits (serve : σ → Request → ℕ → Bool × σ) (start : Point σ) (r : ReadyEnd σ)
    (body : List ConnEvent) (p : Point σ) (exit : Exit) : Prop where
  served : AllServed body
  run : ReflTransGen (Next serve) start p
  leaves : Leaves serve p exit
  events : r.events = body ++ exit.events
  alive_iff : r.alive = true ↔ exit = .rearmed
  rearmed : exit = .rearmed → p = .serve r.world r.conn false false r.rest ∧ Waiting r.conn

/-- A call of `handle_ready` with enough turns comes to an exit, after the requests that it served.
By induction on the turns. -/
theorem readyLoop_exit {fuel : ℕ} (w : σ) {c : Conn} (script : List Recv)
    (hfits : c.inbuf.length ≤ maxHeaderBytes + maxBodyBytes)
    (hfuel : script.length + 1 < fuel ∨ script.length < fuel ∧ Waiting c) :
    let r := readyLoop serve fuel w c script
    (∃ body p exit, Exits serve (.drain w c script) r body p exit) ∧
      (script ≠ [] → r.rest.length < script.length) ∧ r.rest.length ≤ script.length := by
  induction fuel generalizing w c script with
  | zero => omega
  | succ fuel ih =>
    obtain ⟨body, p, ht⟩ := turn_exit serve w script hfits
    obtain ⟨-, hle, hlt⟩ := drain_bounds script hfits
    rw [← turn_rest serve w] at hle hlt
    dsimp only
    rw [readyLoop]
    dsimp only
    cases hnext : (turn serve w c script).next with
    | closed =>
      obtain ⟨exit, hleaves, hne, hevents⟩ := ht.closed hnext
      exact ⟨⟨body, p, exit, ht.served, ht.run, hleaves, hevents, by simp [hne],
        fun h => absurd h hne⟩, hlt, hle⟩
    | rearm =>
      obtain ⟨hwait, hevents⟩ := ht.open_ (by simp [hnext])
      have hp := ht.rearm hnext
      exact ⟨⟨body, p, .rearmed, ht.served, ht.run, hp ▸ .rearmed hwait.needMore,
        congrArg (· ++ [.rearmed]) hevents, by simp, fun _ => ⟨hp, hwait⟩⟩, hlt, hle⟩
    | again =>
      obtain ⟨hwait, hevents⟩ := ht.open_ (by simp [hnext])
      -- A turn that served something and goes on has read something, so there is fuel for the next.
      have hfuel' := turn_again_lt w hfits hfuel hnext
      obtain ⟨⟨body', p', exit, hexits⟩, -, hle'⟩ :=
        ih (turn serve w c script).world (turn serve w c script).rest hwait.fits
          (Or.inr ⟨hfuel', hwait⟩)
      dsimp only at hexits hle' ⊢
      refine ⟨⟨body ++ body', p', exit, ?_, ?_, hexits.leaves, ?_, hexits.alive_iff,
        hexits.rearmed⟩, fun h => lt_of_le_of_lt hle' (hlt h), hle'.trans hle⟩
      · exact List.forall_mem_append.mpr ⟨ht.served, hexits.served⟩
      · have hrun := ht.run
        rw [ht.again hnext] at hrun
        exact hrun.trans hexits.run
      · rw [hevents, hexits.events, List.append_assoc]

variable (serve) in
/-- `handle_ready` comes to an exit, after the requests that it served. -/
theorem handleReady_exit (w : σ) {c : Conn} (script : List Recv)
    (hfits : c.inbuf.length ≤ maxHeaderBytes + maxBodyBytes) :
    let r := handleReady serve w c script
    (∃ body p exit, Exits serve (.drain w c script) r body p exit) ∧
      (script ≠ [] → r.rest.length < script.length) ∧ r.rest.length ≤ script.length :=
  readyLoop_exit w script hfits (Or.inl (by omega))

/-! ## Connections -/

/-- Requests are served, and the connection is re-armed. -/
def AllKept (events : List ConnEvent) : Prop :=
  ∀ e ∈ events, e = .rearmed ∨ ∃ req need, e = .served req need true

/-- What a connection comes to: an exit at a point without a next. It is closed there, or it is
re-armed and its script has come to its end. -/
structure Ends (serve : σ → Request → ℕ → Bool × σ) (start : Point σ) (r : ReadyEnd σ)
    (body : List ConnEvent) (p : Point σ) (exit : Exit) : Prop where
  kept : AllKept body
  run : ReflTransGen (Next serve) start p
  leaves : Leaves serve p exit
  last : ∀ q, ¬Next serve p q
  events : exit ≠ .rearmed → r.events = body ++ exit.events
  idle : exit = .rearmed → r.events = body

/-- All points of a connection lie on one path, so it has one last point. -/
theorem Ends.eq_of_last {start p q : Point σ} {r : ReadyEnd σ} {body : List ConnEvent} {exit : Exit}
    (h : Ends serve start r body p exit) (hq : ReflTransGen (Next serve) start q)
    (hlast : ∀ q', ¬Next serve q q') : p = q := by
  have hunique : Relator.RightUnique (Next serve) := fun _ _ _ h h' => h.unique h'
  rcases ReflTransGen.total_of_right_unique hunique h.run hq with hpq | hqp
  · rcases ReflTransGen.cases_head hpq with heq | ⟨p', hp', -⟩
    · exact heq
    · exact absurd hp' (h.last p')
  · rcases ReflTransGen.cases_head hqp with heq | ⟨q', hq', -⟩
    · exact heq.symm
    · exact absurd hq' (hlast q')

/-- The exit that is taken at a point of a connection is the one that it comes to. -/
theorem Ends.eq_of_leaves {start p q : Point σ} {r : ReadyEnd σ} {body : List ConnEvent}
    {exit exit' : Exit} (h : Ends serve start r body p exit)
    (hq : ReflTransGen (Next serve) start q) (hleaves : Leaves serve q exit')
    (hne : exit' ≠ .rearmed) : exit = exit' := by
  obtain rfl := h.eq_of_last hq fun q' => hleaves.last hne
  exact h.leaves.unique hleaves

/-- A connection without data waits at the head of its serving loop. -/
theorem Waiting.ends (w : σ) {c : Conn} (hc : Waiting c) {r : ReadyEnd σ} (hr : r.events = []) :
    ∃ body p exit, Ends serve (.drain w c []) r body p exit := by
  have hnext : Next serve (.drain w c []) (.serve w c false false []) :=
    Next.drained (show (drain c.inbuf []).ending = .drained from rfl)
  refine ⟨[], _, _, by simp [AllKept], .single hnext, .rearmed hc.needMore, ?_, by simp,
    fun _ => hr⟩
  intro q hq
  cases hq with
  | served h => simp [hc.needMore] at h
  | readable _ hrest => exact hrest rfl

/-- Without anything to come the connection is idle. -/
theorem connectionLoop_nil (fuel : ℕ) (w : σ) (c : Conn) :
    connectionLoop serve fuel w c [] = { world := w, conn := c, rest := [] } := by
  cases fuel <;> simp [connectionLoop]

/-- A connection comes to an exit at a last point. By induction on the times that it is reported
readable. -/
theorem connectionLoop_exit {fuel : ℕ} (w : σ) {c : Conn} (hc : Waiting c) (script : List Recv)
    (hfuel : script.length ≤ fuel) :
    ∃ body p exit, Ends serve (.drain w c script) (connectionLoop serve fuel w c script) body p
      exit := by
  induction fuel generalizing w c script with
  | zero =>
    obtain rfl : script = [] := List.length_eq_zero_iff.mp (by omega)
    exact hc.ends w rfl
  | succ fuel ih =>
    rw [connectionLoop]
    split
    · rename_i hscript
      subst hscript
      exact hc.ends w rfl
    · rename_i hscript
      obtain ⟨⟨body, p, exit, hexits⟩, hlt, -⟩ :=
        handleReady_exit serve w script hc.fits
      have hkept : AllKept body := fun e he => Or.inr (hexits.served e he)
      dsimp only
      cases halive : (handleReady serve w c script).alive with
      | false =>
        -- The call closed the connection, so its exit is the last.
        have hne : exit ≠ .rearmed := by
          intro h
          rw [hexits.alive_iff.mpr h] at halive
          cases halive
        exact ⟨body, p, exit, hkept, hexits.run, hexits.leaves,
          fun q => hexits.leaves.last hne, fun _ => hexits.events, fun h => absurd h hne⟩
      | true =>
        obtain rfl := hexits.alive_iff.mp halive
        -- The call re-armed the connection: it is idle, or there is more to read.
        obtain ⟨hp, hwait⟩ := hexits.rearmed rfl
        have hbody : AllKept (body ++ [.rearmed]) :=
          List.forall_mem_append.mpr ⟨hkept, fun e he => Or.inl (List.mem_singleton.mp he)⟩
        simp only [if_true]
        by_cases hrest : (handleReady serve w c script).rest = []
        · rw [hrest, connectionLoop_nil]
          refine ⟨body ++ [.rearmed], p, .rearmed, hbody, hexits.run, hexits.leaves, ?_, by simp,
            fun _ => by rw [List.append_nil, hexits.events]; rfl⟩
          intro q hq
          rw [hp, hrest] at hq
          cases hq with
          | served h => simp [hwait.needMore] at h
          | readable _ h => exact h rfl
        · -- More of the script is read by the next call.
          obtain ⟨body', p', exit', hends⟩ := ih (handleReady serve w c script).world hwait
            (handleReady serve w c script).rest (by have := hlt hscript; omega)
          have hreadable : ReflTransGen (Next serve) (.drain w c script)
              (.drain (handleReady serve w c script).world (handleReady serve w c script).conn
                (handleReady serve w c script).rest) :=
            hexits.run.tail (hp ▸ .readable hwait.needMore hrest)
          have hevents : (handleReady serve w c script).events = body ++ [.rearmed] :=
            hexits.events
          refine ⟨body ++ [.rearmed] ++ body', p', exit', ?_, hreadable.trans hends.run,
            hends.leaves, hends.last, fun h => ?_, fun h => ?_⟩
          · exact List.forall_mem_append.mpr ⟨hbody, hends.kept⟩
          · rw [hends.events h, hevents, List.append_assoc _ body']
          · rw [hends.idle h, hevents]

variable (serve) in
/-- Every connection comes to an exit at a last point. -/
theorem serveConnection_exit (w : σ) (clientIp : Bytes) (script : List Recv) :
    ∃ body p exit, Ends serve (.drain w { clientIp := clientIp } script)
      (serveConnection serve w clientIp script) body p exit :=
  connectionLoop_exit w ⟨rfl, by simp⟩ script (le_refl _)

/-! ## The rest of the program -/

section World

variable {I : σ → Prop} (hserve : ∀ w req need, I w → I (serve w req need).2)
include hserve

/-- What serving a request keeps of the rest of the program, the loops keep. -/
theorem serveLoop_world (fuel : ℕ) {w : σ} (hw : I w) (c : Conn) :
    I (serveLoop serve fuel w c).world := by
  induction fuel generalizing w c with
  | zero => exact hw
  | succ fuel ih =>
    rw [serveLoop]
    split
    · exact hw
    · exact hw
    · exact hw
    · dsimp only
      split
      · exact ih (hserve _ _ _ hw) _
      · exact hserve _ _ _ hw

/-- What each request keeps, a turn keeps. -/
theorem turn_world {w : σ} (hw : I w) (c : Conn) (script : List Recv) :
    I (turn serve w c script).world := by
  unfold turn
  dsimp only
  repeat' split
  all_goals first
    | exact hw
    | exact serveLoop_world hserve _ hw _

/-- What each request keeps, `handle_ready` keeps. -/
theorem readyLoop_world (fuel : ℕ) {w : σ} (hw : I w) (c : Conn) (script : List Recv) :
    I (readyLoop serve fuel w c script).world := by
  induction fuel generalizing w c script with
  | zero => exact hw
  | succ fuel ih =>
    rw [readyLoop]
    dsimp only
    split
    · exact turn_world hserve hw c script
    · exact turn_world hserve hw c script
    · exact ih (turn_world hserve hw c script) _ _

/-- What each request keeps, a connection keeps. -/
theorem connectionLoop_world (fuel : ℕ) {w : σ} (hw : I w) (c : Conn) (script : List Recv) :
    I (connectionLoop serve fuel w c script).world := by
  induction fuel generalizing w c script with
  | zero => exact hw
  | succ fuel ih =>
    have hready := readyLoop_world hserve (script.length + 2) hw c script
    rw [connectionLoop]
    split
    · exact hw
    · dsimp only
      split
      · exact ih hready _ _
      · exact hready

end World

end Loops

end ForwardProxy
