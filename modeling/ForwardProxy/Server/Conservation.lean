import ForwardProxy.Server.Exits
import ForwardProxy.Server.Reading

/-!
# No byte of a connection is lost

With a record of the requests that are passed to `serve_one_request` (`recorded`), the bytes that a
connection has received are at every point those that the requests took up, in order, and then the
buffer (`Accounted.received`). Where the connection is re-armed the buffer holds no complete
request, and the socket was read dry (`Accounted.rearmed`).
-/

namespace ForwardProxy

open Relation

/-! ## The record -/

section

variable {σ : Type} (serve : σ → Request → ℕ → Bool × σ)

/-- Serving a request, with a record of the requests so far and the bytes that each takes up. -/
def recorded (w : σ × List (Request × ℕ)) (req : Request) (need : ℕ) :
    Bool × (σ × List (Request × ℕ)) :=
  ((serve w.1 req need).1, ((serve w.1 req need).2, w.2 ++ [(req, need)]))

/-- The bytes that are forwarded for a request. -/
def slice (pass : Request × ℕ) : Bytes := pass.1.raw.take pass.2

/-- The bytes that the requests took up, in order. -/
def consumed (passes : List (Request × ℕ)) : Bytes := passes.flatMap slice

/-! ## Points -/

/-- The state that serving a request changes. -/
def Point.world : Point σ → σ
  | .drain w _ _ => w
  | .serve w _ _ _ _ => w

/-- The connection at the point. -/
def Point.conn : Point σ → Conn
  | .drain _ c _ => c
  | .serve _ c _ _ _ => c

/-- The script that is left. -/
def Point.script : Point σ → List Recv
  | .drain _ _ script => script
  | .serve _ _ _ _ rest => rest

/-- The point is the head of the serving loop. -/
def Point.Serving : Point σ → Prop
  | .drain _ _ _ => False
  | .serve _ _ _ _ _ => True

/-- The state after what is done at a point. -/
def Point.after : Point σ → σ × Conn × List Recv
  | .drain w c script => (w, { c with inbuf := (ForwardProxy.drain c.inbuf script).inbuf },
      (ForwardProxy.drain c.inbuf script).rest)
  | .serve w c _ _ rest =>
    match inspect c.inbuf with
    | .ready req need => ((serve w req need).2, c.consume need, rest)
    | _ => (w, c, rest)

end

/-! ## What a drain reads -/

/-- A drain appends to the buffer what it takes off the script. -/
theorem drain_reads (inbuf : Bytes) (script : List Recv) :
    ∃ taken, script = taken ++ (drain inbuf script).rest ∧
      (drain inbuf script).inbuf = inbuf ++ scriptBytes taken := by
  induction script generalizing inbuf with
  | nil => exact ⟨[], rfl, by simp [drain, scriptBytes]⟩
  | cons e script ih =>
    have hone : ∀ {d : Drained} (bs : Bytes), e.bytes = bs → d.inbuf = inbuf ++ bs →
        d.rest = script → ∃ taken, e :: script = taken ++ d.rest ∧
          d.inbuf = inbuf ++ scriptBytes taken := by
      rintro d bs rfl hinbuf rfl
      exact ⟨[e], rfl, by simp [hinbuf, scriptBytes]⟩
    cases e with
    | data b bs =>
      rw [drain]
      split
      · exact hone (b :: bs) rfl rfl rfl
      · obtain ⟨taken, hscript, hinbuf⟩ := ih (inbuf ++ b :: bs)
        refine ⟨.data b bs :: taken, congrArg _ hscript, ?_⟩
        rw [hinbuf, List.append_assoc]
        rfl
    | eof => exact hone [] rfl (by simp [drain]) rfl
    | intr =>
      obtain ⟨taken, hscript, hinbuf⟩ := ih inbuf
      exact ⟨.intr :: taken, congrArg _ hscript, hinbuf⟩
    | again => exact hone [] rfl (by simp [drain]) rfl
    | error reason => exact hone [] rfl (by simp [drain]) rfl

/-- From the first script down to the second there are data, and then `EAGAIN`, or the end. -/
inductive ReadsDry : List Recv → List Recv → Prop
  | nil : ReadsDry [] []
  | again (rest : List Recv) : ReadsDry (.again :: rest) rest
  | intr {script rest : List Recv} (h : ReadsDry script rest) : ReadsDry (.intr :: script) rest
  | data {script rest : List Recv} (b : Byte) (bs : Bytes) (h : ReadsDry script rest) :
      ReadsDry (.data b bs :: script) rest

/-- A drain that ended with `EAGAIN` has read up to it. -/
theorem readsDry_of_drained {inbuf : Bytes} {script : List Recv}
    (h : (drain inbuf script).ending = .drained) :
    ReadsDry script (drain inbuf script).rest := by
  induction script generalizing inbuf with
  | nil => exact .nil
  | cons e script ih =>
    cases e with
    | data b bs =>
      rw [drain] at h ⊢
      split
      · rename_i hlarge
        rw [if_pos hlarge] at h
        cases h
      · rename_i hfits
        rw [if_neg hfits] at h
        exact .data b bs (ih h)
    | eof => simp [drain] at h
    | intr => exact .intr (ih h)
    | again => exact .again script
    | error reason => simp [drain] at h

/-! ## The loops come to the state after their last point -/

section Loops

variable {σ : Type} {serve : σ → Request → ℕ → Bool × σ}

/-- The serving loop ends with what is done at a point that it reaches. By induction on its fuel. -/
theorem serveLoop_after (fuel : ℕ) (w : σ) (c : Conn) (eof any : Bool) (rest : List Recv)
    (hfits : c.inbuf.length ≤ maxHeaderBytes + maxBodyBytes) (hfuel : c.inbuf.length < fuel) :
    ∃ p, ReflTransGen (Next serve) (.serve w c eof any rest) p ∧ p.after serve =
      ((serveLoop serve fuel w c).world, (serveLoop serve fuel w c).conn, rest) := by
  induction fuel generalizing w c any with
  | zero => omega
  | succ fuel ih =>
    rw [serveLoop]
    cases hinspect : inspect c.inbuf with
    | needMore => exact ⟨_, .refl, by simp [Point.after, hinspect]⟩
    | headerTooLarge => exact ⟨_, .refl, by simp [Point.after, hinspect]⟩
    | badRequest req => exact ⟨_, .refl, by simp [Point.after, hinspect]⟩
    | ready req need =>
      cases hkeep : (serve w req need).1 with
      | false => exact ⟨_, .refl, by simp [Point.after, hinspect, hkeep, Conn.consume]⟩
      | true =>
        have hbounds := inspect_ready_bounds (lt_of_le_total hfits) hinspect
        have hlen : (c.consume need).inbuf.length = c.inbuf.length - need := List.length_drop
        obtain ⟨p, hrun, hafter⟩ := ih (serve w req need).2 (c.consume need) true (by omega)
          (by omega)
        refine ⟨p, .head (.served hinspect hkeep) hrun, ?_⟩
        rw [hafter]
        simp [hkeep, Conn.consume]

variable (serve) in
/-- A turn ends with what is done at a point that it reaches. -/
theorem turn_after (w : σ) {c : Conn} (script : List Recv)
    (hfits : c.inbuf.length ≤ maxHeaderBytes + maxBodyBytes) :
    ∃ p, ReflTransGen (Next serve) (.drain w c script) p ∧ p.after serve =
      ((turn serve w c script).world, (turn serve w c script).conn,
        (turn serve w c script).rest) := by
  obtain ⟨hlen, -, -⟩ := drain_bounds script hfits
  have hloop := fun eof hfits => @serveLoop_after _ serve ((drain c.inbuf script).inbuf.length + 1)
    w { c with inbuf := (drain c.inbuf script).inbuf } eof false (drain c.inbuf script).rest hfits
    (Nat.lt_succ_self _)
  have hdrain : (turn serve w c script).rest = (drain c.inbuf script).rest := turn_rest serve w c
    script
  -- Whatever the serving loop comes to, the turn leaves what it leaves.
  have hserved : ∀ {eof : Bool},
      Next serve (.drain w c script) (.serve w { c with inbuf := (drain c.inbuf script).inbuf } eof
        false (drain c.inbuf script).rest) →
      (drain c.inbuf script).ending ≠ .tooLarge →
      (turn serve w c script).world = (serveLoop serve ((drain c.inbuf script).inbuf.length + 1) w
        { c with inbuf := (drain c.inbuf script).inbuf }).world ∧
      (turn serve w c script).conn = (serveLoop serve ((drain c.inbuf script).inbuf.length + 1) w
        { c with inbuf := (drain c.inbuf script).inbuf }).conn →
      ∃ p, ReflTransGen (Next serve) (.drain w c script) p ∧ p.after serve =
        ((turn serve w c script).world, (turn serve w c script).conn,
          (turn serve w c script).rest) := by
    rintro eof hnext hne ⟨hworld, hconn⟩
    obtain ⟨p, hrun, hafter⟩ := hloop eof (hlen hne)
    exact ⟨p, .head hnext hrun, by rw [hafter, hworld, hconn, hdrain]⟩
  cases hending : (drain c.inbuf script).ending with
  | tooLarge => exact ⟨_, .refl, by simp [Point.after, turn, hending]⟩
  | failed => exact ⟨_, .refl, by simp [Point.after, turn, hending]⟩
  | peerClosed =>
    refine hserved (.eof hending) (by simp [hending]) ?_
    unfold turn
    simp only [hending]
    split <;> exact ⟨rfl, rfl⟩
  | drained =>
    refine hserved (.drained hending) (by simp [hending]) ?_
    unfold turn
    simp only [hending]
    repeat' split
    all_goals exact ⟨rfl, rfl⟩

/-- A call of `handle_ready` ends with what is done at a point that it reaches. By induction on the
turns. -/
theorem readyLoop_after {fuel : ℕ} (w : σ) {c : Conn} (script : List Recv)
    (hfits : c.inbuf.length ≤ maxHeaderBytes + maxBodyBytes)
    (hfuel : script.length + 1 < fuel ∨ script.length < fuel ∧ Waiting c) :
    ∃ p, ReflTransGen (Next serve) (.drain w c script) p ∧ p.after serve =
      ((readyLoop serve fuel w c script).world, (readyLoop serve fuel w c script).conn,
        (readyLoop serve fuel w c script).rest) := by
  induction fuel generalizing w c script with
  | zero => omega
  | succ fuel ih =>
    rw [readyLoop]
    dsimp only
    cases hnext : (turn serve w c script).next with
    | closed => exact turn_after serve w script hfits
    | rearm => exact turn_after serve w script hfits
    | again =>
      obtain ⟨body, p, ht⟩ := turn_exit serve w script hfits
      obtain ⟨hwait, -⟩ := ht.open_ (by simp [hnext])
      obtain ⟨p', hrun, hafter⟩ := ih (turn serve w c script).world (turn serve w c script).rest
        hwait.fits (Or.inr ⟨turn_again_lt w hfits hfuel hnext, hwait⟩)
      exact ⟨p', (ht.again hnext ▸ ht.run).trans hrun, hafter⟩

/-- A connection ends with what is done at a point that it reaches. By induction on the times that
it is reported readable. -/
theorem connectionLoop_after {fuel : ℕ} (w : σ) {c : Conn} (hc : Waiting c) (script : List Recv)
    (hfuel : script.length ≤ fuel) :
    ∃ p, ReflTransGen (Next serve) (.drain w c script) p ∧ p.after serve =
      ((connectionLoop serve fuel w c script).world, (connectionLoop serve fuel w c script).conn,
        (connectionLoop serve fuel w c script).rest) := by
  induction fuel generalizing w c script with
  | zero =>
    obtain rfl : script = [] := List.length_eq_zero_iff.mp (by omega)
    exact ⟨_, .refl, rfl⟩
  | succ fuel ih =>
    rw [connectionLoop]
    split
    · rename_i hscript
      subst hscript
      exact ⟨_, .refl, rfl⟩
    · rename_i hscript
      dsimp only
      split
      · rename_i halive
        obtain ⟨⟨body, p, exit, hexits⟩, hlt, -⟩ := handleReady_exit serve w script hc.fits
        obtain ⟨hp, hwait⟩ := hexits.rearmed (hexits.alive_iff.mp halive)
        by_cases hrest : (handleReady serve w c script).rest = []
        · refine ⟨p, hexits.run, ?_⟩
          rw [hp, hrest, connectionLoop_nil]
          simp [Point.after, hwait.needMore]
        · obtain ⟨p', hrun, hafter⟩ := ih (handleReady serve w c script).world hwait
            (handleReady serve w c script).rest (by have := hlt hscript; omega)
          exact ⟨p', (hexits.run.tail (hp ▸ .readable hwait.needMore hrest)).trans hrun, hafter⟩
      · exact readyLoop_after w script hc.fits (Or.inl (Nat.lt_succ_self _))

variable (serve) in
/-- A connection comes to the state after its last point. -/
theorem serveConnection_after (w : σ) (clientIp : Bytes) (script : List Recv) :
    ∃ p, ReflTransGen (Next serve) (.drain w { clientIp := clientIp } script) p ∧ p.after serve =
      ((serveConnection serve w clientIp script).world,
        (serveConnection serve w clientIp script).conn,
        (serveConnection serve w clientIp script).rest) :=
  connectionLoop_after w ⟨rfl, by simp⟩ script (le_refl _)

end Loops

/-! ## Accounting -/

section Accounting

variable {σ : Type} {serve : σ → Request → ℕ → Bool × σ}

/-- The bytes taken off `script`, down to `rest`, are those that the requests took up and those in
the buffer. -/
def Conserves (script : List Recv) (passes : List (Request × ℕ)) (inbuf : Bytes)
    (rest : List Recv) : Prop :=
  ∃ taken, script = taken ++ rest ∧ consumed passes ++ inbuf = scriptBytes taken

/-- A drain moves bytes from the script to the buffer. -/
theorem Conserves.drain {script rest : List Recv} {passes : List (Request × ℕ)} {inbuf : Bytes}
    (h : Conserves script passes inbuf rest) :
    Conserves script passes (ForwardProxy.drain inbuf rest).inbuf
      (ForwardProxy.drain inbuf rest).rest := by
  obtain ⟨taken, hscript, hbytes⟩ := h
  obtain ⟨more, hrest, hinbuf⟩ := drain_reads inbuf rest
  refine ⟨taken ++ more, ?_, ?_⟩
  · rw [hscript, List.append_assoc, ← hrest]
  · rw [hinbuf, ← List.append_assoc, hbytes]
    exact List.flatMap_append.symm

/-- A request takes its bytes off the front of the buffer. -/
theorem slice_append_drop {inbuf : Bytes} {req : Request} {need : ℕ}
    (hbuf : inbuf.length < 2^63) (h : inspect inbuf = .ready req need) :
    slice (req, need) ++ inbuf.drop need = inbuf := by
  obtain ⟨rfl, -⟩ := (inspect_ready_iff hbuf).mp h
  rw [slice, raw_parseRequest, List.take_append_drop]

/-- A request that is served takes its bytes off the front of the buffer. -/
theorem Conserves.served {script rest : List Recv} {passes : List (Request × ℕ)} {inbuf : Bytes}
    {req : Request} {need : ℕ} (h : Conserves script passes inbuf rest)
    (hbuf : inbuf.length < 2^63) (hinspect : inspect inbuf = .ready req need) :
    Conserves script (passes ++ [(req, need)]) (inbuf.drop need) rest := by
  obtain ⟨taken, hscript, hbytes⟩ := h
  refine ⟨taken, hscript, ?_⟩
  calc consumed (passes ++ [(req, need)]) ++ inbuf.drop need
      = consumed passes ++ (slice (req, need) ++ inbuf.drop need) := by simp [consumed]
    _ = consumed passes ++ inbuf := by rw [slice_append_drop hbuf hinspect]
    _ = scriptBytes taken := hbytes

/-- At this point no byte is lost and none is there twice. -/
def Point.Conserves (script : List Recv) (p : Point (σ × List (Request × ℕ))) : Prop :=
  ForwardProxy.Conserves script p.world.2 p.conn.inbuf p.script

/-- The next point conserves the bytes. -/
theorem Next.conserves {script : List Recv} {p q : Point (σ × List (Request × ℕ))}
    (h : Next (recorded serve) p q) (hp : p.Conserves script) (hfits : p.Fits) :
    q.Conserves script := by
  cases h with
  | drained => exact hp.drain
  | eof => exact hp.drain
  | served hinspect => exact hp.served (lt_of_le_total hfits) hinspect
  | again => exact hp
  | readable => exact hp

/-- What is done at a point conserves the bytes. -/
theorem Point.Conserves.after {script : List Recv} {p : Point (σ × List (Request × ℕ))}
    (hp : p.Conserves script) (hfits : p.Fits) :
    ForwardProxy.Conserves script (p.after (recorded serve)).1.2
      (p.after (recorded serve)).2.1.inbuf (p.after (recorded serve)).2.2 := by
  cases p with
  | drain => exact hp.drain
  | serve w c eof any rest =>
    rw [Point.after]
    cases hinspect : inspect c.inbuf with
    | ready req need => exact hp.served (lt_of_le_total hfits) hinspect
    | needMore => exact hp
    | headerTooLarge => exact hp
    | badRequest req => exact hp

/-- No end of a head is in the buffer, or fewer bytes than its request takes up. -/
def Incomplete (inbuf : Bytes) : Prop :=
  findHeaderEnd inbuf = none ∨ inbuf.length < expectedRequestBytes (parseRequest inbuf)

/-- A buffer that needs more is incomplete. -/
theorem incomplete_of_needMore {inbuf : Bytes} (h : inspect inbuf = .needMore) :
    Incomplete inbuf := by
  unfold inspect at h
  split at h
  · rename_i hend
    exact Or.inl hend
  · dsimp only at h
    split at h
    · cases h
    · split at h
      · rename_i hlen
        exact Or.inr hlen
      · cases h

/-- The buffer holds no complete request, and is what the last drain left, which came to `EAGAIN`.
-/
def Settled (serve : σ → Request → ℕ → Bool × σ) (start : Point (σ × List (Request × ℕ)))
    (w : σ × List (Request × ℕ)) (inbuf : Bytes) (rest : List Recv) : Prop :=
  Incomplete inbuf ∧ ∃ c script, ReflTransGen (Next (recorded serve)) start (.drain w c script) ∧
    ReadsDry script rest ∧ inbuf = (drain c.inbuf script).inbuf

/-- What a point of a connection accounts for. -/
structure Accounted (serve : σ → Request → ℕ → Bool × σ) (start : Point (σ × List (Request × ℕ)))
    (p : Point (σ × List (Request × ℕ))) : Prop where
  /-- What was received is what the requests took up, and the buffer. -/
  received : p.Conserves start.script
  /-- A pass takes the bytes of its request off the front of the buffer, and at least one. -/
  pass : p.Serving → ∀ req need, inspect p.conn.inbuf = .ready req need →
    p.conn.inbuf = slice (req, need) ++ (p.conn.consume need).inbuf ∧
      (p.conn.consume need).inbuf.length < p.conn.inbuf.length
  /-- The size of a request is below that of the machine word. -/
  size : ∀ e, findHeaderEnd p.conn.inbuf = some e →
    e + (parseRequest p.conn.inbuf).contentLength.toNat < 2^64 ∧
      expectedRequestBytes (parseRequest p.conn.inbuf) =
        e + (parseRequest p.conn.inbuf).contentLength.toNat
  /-- The connection is re-armed only where there is nothing to do. -/
  rearmed : Leaves (recorded serve) p .rearmed →
    Settled serve start p.world p.conn.inbuf p.script

/-- Every point that is reached is accounted for. -/
theorem accounted_of_reached {start p : Point (σ × List (Request × ℕ))}
    (hstart : start.Conserves start.script) (hdrain : ¬start.Serving) (hfits : start.Fits)
    (h : ReflTransGen (Next (recorded serve)) start p) : Accounted serve start p := by
  have hpfits := fits_of_reflTransGen h hfits
  have hlt : p.conn.inbuf.length < 2^63 := by
    cases p with
    | drain => exact lt_of_le_total hpfits
    | serve => exact lt_of_le_total hpfits
  refine ⟨?_, ?_, ?_, ?_⟩
  · clear hpfits hlt
    induction h with
    | refl => exact hstart
    | tail hrun hstep ih => exact hstep.conserves ih (fits_of_reflTransGen hrun hfits)
  · intro _ req need hinspect
    obtain ⟨hpos, hle⟩ := inspect_ready_bounds hlt hinspect
    have hlen : (p.conn.consume need).inbuf.length = p.conn.inbuf.length - need := List.length_drop
    exact ⟨(slice_append_drop hlt hinspect).symm, by omega⟩
  · intro e he
    have hhead := headerBytes_parseRequest he
    have hle := headerEnd_le_length he
    have hcl := contentLength_parseRequest p.conn.inbuf
    unfold LONG_MAX at hcl
    have hexpected := expectedRequestBytes_eq hlt (hhead ▸ hle)
    rw [hhead] at hexpected
    exact ⟨by omega, hexpected⟩
  · intro hleaves
    cases hleaves with
    | rearmed hinspect =>
      refine ⟨incomplete_of_needMore hinspect, ?_⟩
      -- Nothing was served since the drain, so the step before this point is the drain.
      rcases ReflTransGen.cases_tail h with heq | ⟨q, hrun, hstep⟩
      · rw [← heq] at hdrain
        exact absurd trivial hdrain
      · cases hstep with
        | @drained _ c script hending =>
          exact ⟨c, script, hrun, readsDry_of_drained hending, rfl⟩

end Accounting

/-- A connection accounts for every byte at each of its points and in the state that it comes to,
and each call of `handle_ready` that re-arms it leaves nothing to do. -/
theorem connection_accounted {σ : Type} (serve : σ → Request → ℕ → Bool × σ) (w : σ)
    (clientIp : Bytes) (script : List Recv) :
    let start : Point (σ × List (Request × ℕ)) := .drain (w, []) { clientIp := clientIp } script
    let last := serveConnection (recorded serve) (w, []) clientIp script
    (∀ p, ReflTransGen (Next (recorded serve)) start p → Accounted serve start p) ∧
      (∀ w c script, ReflTransGen (Next (recorded serve)) start (.drain w c script) →
        (handleReady (recorded serve) w c script).alive = true →
        Settled serve start (handleReady (recorded serve) w c script).world
          (handleReady (recorded serve) w c script).conn.inbuf
          (handleReady (recorded serve) w c script).rest) ∧
      Conserves script last.world.2 last.conn.inbuf last.rest := by
  intro start last
  have hstart : start.Conserves start.script := ⟨[], rfl, rfl⟩
  have hfits : start.Fits := Nat.zero_le _
  have hall : ∀ p, ReflTransGen (Next (recorded serve)) start p → Accounted serve start p :=
    fun p h => accounted_of_reached hstart id hfits h
  refine ⟨hall, fun w c script hrun halive => ?_, ?_⟩
  · obtain ⟨⟨body, p, exit, hexits⟩, -⟩ :=
      handleReady_exit (recorded serve) w script (fits_of_reflTransGen hrun hfits)
    have hexit := hexits.alive_iff.mp halive
    obtain ⟨hp, -⟩ := hexits.rearmed hexit
    have hsettled := (hall p (hrun.trans hexits.run)).rearmed (hexit ▸ hexits.leaves)
    rw [hp] at hsettled
    exact hsettled
  · obtain ⟨p, hrun, hafter⟩ := serveConnection_after (recorded serve) (w, []) clientIp script
    have hconserves := @Point.Conserves.after _ serve _ _ (hall p hrun).received
      (fits_of_reflTransGen hrun hfits)
    rw [hafter] at hconserves
    exact hconserves

end ForwardProxy
