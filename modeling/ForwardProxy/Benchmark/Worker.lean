import ForwardProxy.Lib.Ledger
import ForwardProxy.Lib.Pool
import ForwardProxy.Server.Serve

/-!
# A worker of the load generator

`worker` of `benchmark.cpp`, with `connect_to`, as a program over what it does outside of its own
variables. In every run it closes each socket that it opened, once, and uses none that is not open;
and each of its requests is counted once, as a success with one latency or as a failure
(`worker_runs`). So when any number of workers have returned, the two totals add up to the number of
requests that there were to send (`totals_add_up`).
-/

namespace ForwardProxy.Benchmark

open Lib.Interaction

/-- The options that a worker reads. -/
structure Config where
  hostHeader : Bytes
  requestsPerThread : ℕ := 100
  keepAlive : Bool := false
  sourceIps : ℤ := 1
  thinkTimeMs : ℤ := 0

/-- The fields of `g`. -/
inductive Total
  | ok
  | failed
  | conns
  | bytes
  | non200
  deriving DecidableEq

/-! ## What a worker does outside -/

/-- What a worker does outside. Each operation has its answer. -/
inductive WorkOp
  /-- Draws the number of a URL. -/
  | draw
  /-- Reads the clock, in nanoseconds. -/
  | now
  | socket
  | bind (fd : ℤ) (source : Bytes)
  | connect (fd : ℤ)
  | sendAll (fd : ℤ) (data : Bytes)
  | readOneResponse (fd : ℤ) (rbuf : Bytes)
  | close (fd : ℤ)
  | add (total : Total) (n : ℕ)
  | noteError (what : Bytes)
  | sleep (ms : ℤ)
  /-- Appends to `g_latencies`, under its lock. -/
  | publish (latencies : List ℤ)

/-- A call that fails returns the text of the error. A response is read with its status, its size,
and the buffer that is left. -/
abbrev WorkOp.Answer : WorkOp → Type
  | .draw => ℕ
  | .now => ℤ
  | .socket => Except Bytes ℤ
  | .bind _ _ => Except Bytes Unit
  | .connect _ => Except Bytes Unit
  | .sendAll _ _ => Bool
  | .readOneResponse _ _ => Except Bytes (ℤ × ℕ × Bytes)
  | _ => Unit

/-- A part of a worker. -/
abbrev Work := Prog WorkOp.Answer

/-- An operation, with its answer. -/
abbrev WorkEvent := Event WorkOp.Answer

/-- Closes a socket. -/
abbrev close (fd : ℤ) : Work Unit := Prog.perform (WorkOp.close fd)
/-- Adds to a field of `g`. -/
abbrev add (total : Total) (n : ℕ) : Work Unit := Prog.perform (WorkOp.add total n)
/-- Notes an error, if it is the first. -/
abbrev noteError (what : Bytes) : Work Unit := Prog.perform (WorkOp.noteError what)

/-! ## The worker -/

/-- The request for a URL. -/
def requestText (cfg : Config) (url : ℕ) : Bytes :=
  let path := str "/resource/" ++ decimal url
  str "GET " ++ path ++ str " HTTP/1.1\r\n" ++ str "Host: " ++ cfg.hostHeader ++ str "\r\n" ++
    str (if cfg.keepAlive then "Connection: keep-alive\r\n" else "Connection: close\r\n") ++
    str "\r\n"

/-- The loopback address that a thread connects from, where it rotates over several. -/
def sourceAddress (cfg : Config) (threadId : ℕ) : Bytes :=
  str "127.0.0." ++ decimalInt (1 + threadId % cfg.sourceIps)

/-- Binds the socket to a source address, where there are several. -/
def bindSource (cfg : Config) (fd : ℤ) (src : Bytes) : Work (Except Bytes Unit) :=
  if 1 < cfg.sourceIps then Prog.perform (WorkOp.bind fd src) else pure (.ok ())

/-- `connect_to`: the socket, or the error, with no socket open. -/
def connectTo (cfg : Config) (threadId : ℕ) : Work (Except Bytes ℤ) := do
  match ← Prog.perform WorkOp.socket with
  | .error reason => return .error (str "socket: " ++ reason)
  | .ok fd =>
    let src := sourceAddress cfg threadId
    match ← bindSource cfg fd src with
    | .error reason =>
      close fd
      return .error (str "bind(" ++ src ++ str "): " ++ reason)
    | .ok () =>
      match ← Prog.perform (WorkOp.connect fd) with
      | .error reason =>
        close fd
        return .error (str "connect: " ++ reason)
      | .ok () =>
        add .conns 1
        return .ok fd

/-- The variables of a worker. The buffer counts only while there is a socket. -/
structure WorkState where
  sock : Option ℤ := none
  rbuf : Bytes := []
  latencies : List ℤ := []

/-- The socket that a turn leaves open. -/
def leave (cfg : Config) (fd : ℤ) : Work (Option ℤ) :=
  if cfg.keepAlive then pure (some fd)
  else do
    close fd
    return none

/-- Thinks between two requests, if at all. -/
def think (cfg : Config) : Work Unit :=
  if 0 < cfg.thinkTimeMs then Prog.perform (WorkOp.sleep cfg.thinkTimeMs) else pure ()

/-- Counts a status other than 200. -/
def addNon200 (status : ℤ) : Work Unit := if status ≠ 200 then add .non200 1 else pure ()

/-- The part of a turn on an open socket. -/
def exchange (cfg : Config) (start : ℤ) (req : Bytes) (fd : ℤ) (s : WorkState) :
    Work WorkState := do
  let sent ← Prog.perform (WorkOp.sendAll fd req)
  if !sent then
    add .failed 1
    noteError (str "send failed")
    close fd
    return { s with sock := none }
  else
    match ← Prog.perform (WorkOp.readOneResponse fd s.rbuf) with
    | .error err =>
      add .failed 1
      noteError err
      close fd
      return { s with sock := none }
    | .ok (status, bytes, rbuf) =>
      let stop ← Prog.perform WorkOp.now
      add .ok 1
      add .bytes bytes
      addNon200 status
      let sock ← leave cfg fd
      think cfg
      return {
        sock := sock
        rbuf := rbuf
        latencies := s.latencies ++ [(stop - start).tdiv 1000] }

/-- A turn of the request loop. -/
def turn (cfg : Config) (threadId : ℕ) (s : WorkState) : Work WorkState := do
  let url ← Prog.perform WorkOp.draw
  let start ← Prog.perform WorkOp.now
  match s.sock with
  | some fd => exchange cfg start (requestText cfg url) fd s
  | none =>
    match ← connectTo cfg threadId with
    | .error err =>
      add .failed 1
      noteError err
      return s
    | .ok fd => exchange cfg start (requestText cfg url) fd { s with sock := some fd, rbuf := [] }

/-- The loop over the requests, down from how many there are. -/
def requestLoop (cfg : Config) (threadId : ℕ) : ℕ → WorkState → Work WorkState
  | 0, s => return s
  | n + 1, s => do
    let s ← turn cfg threadId s
    requestLoop cfg threadId n s

/-- `worker`. -/
def worker (cfg : Config) (threadId : ℕ) : Work Unit := do
  let s ← requestLoop cfg threadId cfg.requestsPerThread {}
  match s.sock with
  | some fd => close fd
  | none => pure ()
  Prog.perform (WorkOp.publish s.latencies)

/-! ## What a run counts -/

/-- The socket that an event opens. -/
def acquired : WorkEvent → Option ℤ
  | ⟨.socket, .ok fd⟩ => some fd
  | _ => none

/-- The socket that an operation closes. -/
def released : WorkOp → Option ℤ
  | .close fd => some fd
  | _ => none

/-- The sockets that an operation is on. -/
def used : WorkOp → List ℤ
  | .bind fd _ => [fd]
  | .connect fd => [fd]
  | .sendAll fd _ => [fd]
  | .readOneResponse fd _ => [fd]
  | _ => []

/-- The sockets that a worker holds. -/
def ledger : Ledger WorkOp.Answer ℤ := ⟨acquired, released, used⟩

/-- An event gets what it opens. -/
@[simp]
theorem ledger_acquired : ledger.acquired = acquired := rfl

/-- An operation gives back what it closes. -/
@[simp]
theorem ledger_released : ledger.released = released := rfl

/-- An operation uses what it is on. -/
@[simp]
theorem ledger_used : ledger.used = used := rfl

/-- The event adds to the total. -/
def adds (total : Total) : WorkEvent → Bool
  | ⟨.add t _, _⟩ => t = total
  | _ => false

/-- How often a total was added to. -/
def count (total : Total) (es : List WorkEvent) : ℕ := es.countP (adds total)

/-- What two parts add to a total. -/
@[simp]
theorem count_append (total : Total) (es es' : List WorkEvent) :
    count total (es ++ es') = count total es + count total es' :=
  List.countP_append

/-- What a worker may do after the events `h`. -/
def Permitted (h : List WorkEvent) (o : WorkOp) : Prop := ledger.May (ledger.held h) o

/-- From the events `h` and the state `s` a turn comes to `h'` and `s'`: the socket is what is held,
one request more is counted, and a latency more where it is a success. -/
structure Turned (cfg : Config) (h h' : List WorkEvent) (s s' : WorkState) : Prop where
  held : ledger.held h' = s'.sock.toList
  counted : count .ok h' + count .failed h' = count .ok h + count .failed h + 1
  latencies : s'.latencies.length + count .ok h = s.latencies.length + count .ok h'
  fresh : cfg.keepAlive = false → s'.sock = none

/-- The events `es` neither open nor close a socket, and count no request. -/
def Idle (es : List WorkEvent) : Prop :=
  ∀ e ∈ es, acquired e = none ∧ released e.op = none ∧ adds .ok e = false ∧ adds .failed e = false

/-- Idle events leave the open sockets. -/
theorem Idle.held {es : List WorkEvent} (h : Idle es) (before : List WorkEvent) :
    ledger.held (before ++ es) = ledger.held before :=
  ledger.held_append_quiet fun e he => ⟨(h e he).1, (h e he).2.1⟩

/-- Idle events count no request. -/
theorem Idle.count {es : List WorkEvent} (h : Idle es) :
    count .ok es = 0 ∧ count .failed es = 0 :=
  ⟨List.countP_eq_zero.mpr fun e he => by simp [(h e he).2.2.1],
    List.countP_eq_zero.mpr fun e he => by simp [(h e he).2.2.2]⟩

/-- What does nothing to a socket and counts no request. -/
theorem think_sat (cfg : Config) (h : List WorkEvent) :
    Prog.Sat Permitted (fun h' _ => ∃ es, h' = h ++ es ∧ Idle es) h (think cfg) := by
  rw [think]
  split
  · refine ⟨by simp [Permitted, Ledger.May, used, released], fun r => ⟨_, rfl, ?_⟩⟩
    simp [Idle, acquired, released, adds]
  · exact ⟨[], (List.append_nil h).symm, by simp [Idle]⟩

/-- Counting a status is idle. -/
theorem addNon200_sat (status : ℤ) (h : List WorkEvent) :
    Prog.Sat Permitted (fun h' _ => ∃ es, h' = h ++ es ∧ Idle es) h (addNon200 status) := by
  rw [addNon200]
  split
  · refine ⟨by simp [Permitted, Ledger.May, used, released], fun r => ⟨_, rfl, ?_⟩⟩
    simp [Idle, acquired, released, adds]
  · exact ⟨[], (List.append_nil h).symm, by simp [Idle]⟩

/-- A turn leaves its socket open or closes it, and counts nothing more. -/
theorem leave_sat (cfg : Config) {fd : ℤ} {h : List WorkEvent} (hheld : ledger.held h = [fd]) :
    Prog.Sat Permitted (fun h' sock => ledger.held h' = sock.toList ∧
        count .ok h' = count .ok h ∧ count .failed h' = count .failed h ∧
        (cfg.keepAlive = false → sock = none)) h (leave cfg fd) := by
  rw [leave]
  split
  · rename_i hkeep
    exact ⟨hheld, rfl, rfl, by simp [hkeep]⟩
  · rw [Prog.sat_perform_bind]
    refine ⟨by simp [Permitted, Ledger.May, used, released, hheld], fun _ => ?_⟩
    refine ⟨?_, ?_, ?_, fun _ => rfl⟩
    · simp [Ledger.next, acquired, released, hheld]
    · simp [count, adds]
    · simp [count, adds]

/-- A request that fails is counted, and its socket is closed. -/
theorem fail_sat (cfg : Config) (s : WorkState) (err : Bytes) {fd : ℤ} {h es : List WorkEvent}
    (hheld : ledger.held h = [fd]) (hidle : Idle es) :
    Prog.Sat Permitted (fun h' s' => Turned cfg h h' s s') (h ++ es) (do
      add .failed 1
      noteError err
      close fd
      return { s with sock := none }) := by
  obtain ⟨hok, hfailed⟩ := hidle.count
  simp only [Prog.sat_perform_bind]
  refine ⟨?_, fun _ => ⟨?_, fun _ => ⟨?_, fun _ => ?_⟩⟩⟩
  · simp [Permitted, Ledger.May, used, released]
  · simp [Permitted, Ledger.May, used, released]
  · rw [Permitted, Ledger.held_snoc, Ledger.held_snoc, hidle.held, hheld]
    simp [Ledger.May, Ledger.next, acquired, used, released]
  · refine ⟨?_, ?_, ?_, fun _ => rfl⟩
    · rw [Ledger.held_snoc, Ledger.held_snoc, Ledger.held_snoc, hidle.held, hheld]
      simp [Ledger.next, acquired, released]
    · simp only [count_append, hok, hfailed]
      simp [count, adds, Nat.add_assoc]
    · simp only [count_append, hok]
      simp [count, adds]

/-- A turn on an open socket is counted once, and leaves its socket open or closed as the worker has
it. -/
theorem exchange_sat (cfg : Config) (start : ℤ) (req : Bytes) {fd : ℤ} (s : WorkState)
    {h : List WorkEvent} (hheld : ledger.held h = [fd]) :
    Prog.Sat Permitted (fun h' s' => Turned cfg h h' s s') h (exchange cfg start req fd s) := by
  simp only [exchange, Prog.sat_perform_bind]
  refine ⟨by simp [Permitted, Ledger.May, used, released, hheld], fun sent => ?_⟩
  cases sent with
  | false =>
    -- The request was not sent.
    exact fail_sat cfg s _ hheld (by simp [Idle, acquired, released, adds])
  | true =>
    simp only [Bool.not_true, Bool.false_eq_true, if_false, Prog.sat_perform_bind]
    refine ⟨by simp [Permitted, Ledger.May, Ledger.next, acquired, used, released, hheld],
      fun answer => ?_⟩
    cases answer with
    | error err =>
      -- No response was read.
      rw [List.append_assoc]
      exact fail_sat cfg s err hheld (by simp [Idle, acquired, released, adds])
    | ok read =>
      obtain ⟨status, bytes, rbuf⟩ := read
      dsimp only
      simp only [Prog.sat_perform_bind]
      refine ⟨?_, fun stop => ⟨?_, fun _ => ⟨?_, fun _ => ?_⟩⟩⟩
      · simp [Permitted, Ledger.May, used, released]
      · simp [Permitted, Ledger.May, used, released]
      · simp [Permitted, Ledger.May, used, released]
      · -- The success is counted, and the socket is still open.
        generalize hdone : h ++ [_] ++ [_] ++ [_] ++ [_] ++ [_] = done
        have hheld' : ledger.held done = [fd] := by
          rw [← hdone]
          simp [Ledger.held_append, Ledger.next, acquired, released, hheld]
        have hok : count .ok done = count .ok h + 1 := by
          rw [← hdone]
          simp [count, adds]
        have hfailed : count .failed done = count .failed h := by
          rw [← hdone]
          simp [count, adds]
        refine (addNon200_sat status done).bind fun h₁ _ => ?_
        rintro ⟨es, rfl, hes⟩
        have hopen : ledger.held (done ++ es) = [fd] := by rw [hes.held, hheld']
        refine (leave_sat cfg hopen).bind fun h₂ sock hleft => ?_
        obtain ⟨hsock, hok₂, hfailed₂, hfresh⟩ := hleft
        refine (think_sat cfg h₂).bind fun h₃ _ => ?_
        rintro ⟨es', rfl, hes'⟩
        rw [count_append, hes.count.1, Nat.add_zero, hok] at hok₂
        rw [count_append, hes.count.2, Nat.add_zero, hfailed] at hfailed₂
        refine ⟨by rw [hes'.held, hsock], ?_, ?_, hfresh⟩
        · rw [count_append, count_append, hes'.count.1, hes'.count.2, hok₂, hfailed₂]
          omega
        · rw [count_append, hes'.count.1, hok₂, List.length_append, List.length_singleton]
          omega

/-- What `connect_to` leaves of the events `h`: the socket that it returns. -/
structure Connected (h h' : List WorkEvent) (result : Except Bytes ℤ) : Prop where
  held : ledger.held h' = match result with | .error _ => [] | .ok fd => [fd]
  ok : count .ok h' = count .ok h
  failed : count .failed h' = count .failed h

/-- Binding is idle. -/
theorem bindSource_sat (cfg : Config) {fd : ℤ} (src : Bytes) {h : List WorkEvent}
    (hheld : ledger.held h = [fd]) :
    Prog.Sat Permitted (fun h' _ => ∃ es, h' = h ++ es ∧ Idle es) h (bindSource cfg fd src) := by
  rw [bindSource]
  split
  · refine ⟨by simp [Permitted, Ledger.May, used, released, hheld], fun r => ⟨_, rfl, ?_⟩⟩
    simp [Idle, acquired, released, adds]
  · exact ⟨[], (List.append_nil h).symm, by simp [Idle]⟩

/-- Connecting opens one socket or none, and counts no request. -/
theorem connectTo_sat (cfg : Config) (threadId : ℕ) {h : List WorkEvent}
    (hheld : ledger.held h = []) :
    Prog.Sat Permitted (Connected h) h (connectTo cfg threadId) := by
  rw [connectTo, Prog.sat_perform_bind]
  refine ⟨by simp [Permitted, Ledger.May, used, released], fun opened => ?_⟩
  cases opened with
  | error reason =>
    refine ⟨?_, ?_, ?_⟩
    · simp [Ledger.next, acquired, released, hheld]
    · simp [count, adds]
    · simp [count, adds]
  | ok fd =>
    -- There is a socket, which every error from here on closes.
    have hopen : ledger.held (h ++ [⟨.socket, .ok fd⟩]) = [fd] := by
      simp [Ledger.next, acquired, released, hheld]
    refine (bindSource_sat cfg _ hopen).bind fun h₁ bound => ?_
    rintro ⟨es, rfl, hes⟩
    have hheld₁ := (hes.held (h ++ [⟨.socket, .ok fd⟩])).trans hopen
    -- Nothing so far counts a request.
    have hcount : ∀ t, t = .ok ∨ t = .failed →
        count t (h ++ [⟨.socket, .ok fd⟩] ++ es) = count t h := by
      rintro t (rfl | rfl)
      · rw [count_append, hes.count.1]
        simp [count, adds]
      · rw [count_append, hes.count.2]
        simp [count, adds]
    generalize h ++ [⟨.socket, .ok fd⟩] ++ es = before at hheld₁ hcount
    cases bound with
    | error reason =>
      dsimp only
      rw [Prog.sat_perform_bind]
      refine ⟨by simp [Permitted, Ledger.May, used, released, hheld₁], fun _ => ⟨?_, ?_, ?_⟩⟩
      · simp [Ledger.next, acquired, released, hheld₁]
      · rw [count_append, hcount _ (Or.inl rfl)]
        simp [count, adds]
      · rw [count_append, hcount _ (Or.inr rfl)]
        simp [count, adds]
    | ok _ =>
      dsimp only
      rw [Prog.sat_perform_bind]
      refine ⟨by simp [Permitted, Ledger.May, used, released, hheld₁], fun connected => ?_⟩
      cases connected with
      | error reason =>
        dsimp only
        rw [Prog.sat_perform_bind]
        refine ⟨?_, fun _ => ⟨?_, ?_, ?_⟩⟩
        · simp [Permitted, Ledger.May, Ledger.next, acquired, used, released, hheld₁]
        · simp [Ledger.held_append, Ledger.next, acquired, released, hheld₁]
        · rw [count_append, count_append, hcount _ (Or.inl rfl)]
          simp [count, adds]
        · rw [count_append, count_append, hcount _ (Or.inr rfl)]
          simp [count, adds]
      | ok _ =>
        dsimp only
        rw [Prog.sat_perform_bind]
        refine ⟨by simp [Permitted, Ledger.May, used, released], fun _ => ⟨?_, ?_, ?_⟩⟩
        · simp [Ledger.held_append, Ledger.next, acquired, released, hheld₁]
        · rw [count_append, count_append, hcount _ (Or.inl rfl)]
          simp [count, adds]
        · rw [count_append, count_append, hcount _ (Or.inr rfl)]
          simp [count, adds]

/-- A turn counts one request. -/
theorem turn_sat (cfg : Config) (threadId : ℕ) {s : WorkState} {h : List WorkEvent}
    (hheld : ledger.held h = s.sock.toList) :
    Prog.Sat Permitted (fun h' s' => Turned cfg h h' s s') h (turn cfg threadId s) := by
  -- What is drawn and read of the clock changes nothing that is counted.
  have hstart : ∀ (url : ℕ) (start : ℤ), Idle [⟨.draw, url⟩, ⟨.now, start⟩] := by
    simp [Idle, acquired, released, adds]
  have hsame : ∀ (es h' : List WorkEvent) (s' : WorkState), Idle es →
      ∀ s₀ : WorkState, s₀.latencies = s.latencies → Turned cfg (h ++ es) h' s₀ s' →
        Turned cfg h h' s s' := by
    rintro es h' s' hes s₀ hlat ⟨hheld', hcounted, hlatencies, hfresh⟩
    rw [count_append, count_append, hes.count.1, hes.count.2] at hcounted
    rw [count_append, hes.count.1, hlat] at hlatencies
    exact ⟨hheld', hcounted, hlatencies, hfresh⟩
  simp only [turn, Prog.sat_perform_bind]
  refine ⟨by simp [Permitted, Ledger.May, used, released], fun url =>
    ⟨by simp [Permitted, Ledger.May, used, released], fun start => ?_⟩⟩
  rw [List.append_assoc, List.singleton_append]
  have hidle := hstart url start
  have hheld' : ledger.held (h ++ [⟨.draw, url⟩, ⟨.now, start⟩]) = s.sock.toList := by
    rw [hidle.held, hheld]
  cases hsock : s.sock with
  | some fd =>
    rw [hsock] at hheld'
    exact (exchange_sat cfg start _ s hheld').weaken fun h' s' => hsame _ h' s' hidle s rfl
  | none =>
    rw [hsock] at hheld'
    refine (connectTo_sat cfg threadId hheld').bind fun h₁ result hconnected => ?_
    cases result with
    | error err =>
      dsimp only
      simp only [Prog.sat_perform_bind]
      refine ⟨by simp [Permitted, Ledger.May, used, released], fun _ =>
        ⟨by simp [Permitted, Ledger.May, used, released], fun _ => ?_⟩⟩
      refine hsame _ _ s hidle s rfl ⟨?_, ?_, ?_, fun _ => hsock⟩
      · rw [hsock]
        simp [Ledger.held_append, Ledger.next, acquired, released, hconnected.held]
      · simp only [count_append _ h₁, count_append _ (h₁ ++ _), hconnected.ok, hconnected.failed]
        simp [count, adds, Nat.add_assoc]
      · simp only [count_append _ h₁, count_append _ (h₁ ++ _), hconnected.ok]
        simp [count, adds]
    | ok fd =>
      refine (exchange_sat cfg start _ { s with sock := some fd, rbuf := [] }
        hconnected.held).weaken ?_
      rintro h' s' ⟨hheld'', hcounted, hlatencies, hfresh⟩
      rw [hconnected.ok, hconnected.failed] at hcounted
      rw [hconnected.ok] at hlatencies
      exact hsame _ h' s' hidle s rfl ⟨hheld'', hcounted, hlatencies, hfresh⟩

/-- Where the loop has come to after the events `h`, with `done` requests. -/
structure Looped (done : ℕ) (h : List WorkEvent) (s : WorkState) : Prop where
  held : ledger.held h = s.sock.toList
  counted : count .ok h + count .failed h = done
  latencies : s.latencies.length = count .ok h

/-- Every turn of the loop counts one request. By induction on the turns. -/
theorem requestLoop_sat (cfg : Config) (threadId : ℕ) {n done : ℕ} {s : WorkState}
    {h : List WorkEvent} (hloop : Looped done h s) :
    Prog.Sat Permitted (Looped (done + n)) h (requestLoop cfg threadId n s) := by
  induction n generalizing done s h with
  | zero => exact hloop
  | succ n ih =>
    rw [requestLoop]
    refine (turn_sat cfg threadId hloop.held).bind fun h' s' hturn => ?_
    have hcounted := hturn.counted
    have hlatencies := hturn.latencies
    rw [hloop.counted] at hcounted
    rw [hloop.latencies] at hlatencies
    have hmid : Looped (done + 1) h' s' := ⟨hturn.held, hcounted, by omega⟩
    have hnext := ih hmid
    rwa [Nat.add_assoc, Nat.add_comm 1] at hnext

/-- What a worker leaves. -/
structure Worked (cfg : Config) (h : List WorkEvent) : Prop where
  held : ledger.held h = []
  counted : count .ok h + count .failed h = cfg.requestsPerThread
  published : ∃ latencies, (⟨.publish latencies, ()⟩ : WorkEvent) ∈ h ∧
    latencies.length = count .ok h

/-- A worker counts every one of its requests, and leaves no socket open. -/
theorem worker_sat (cfg : Config) (threadId : ℕ) :
    Prog.Sat Permitted (fun h _ => Worked cfg h) [] (worker cfg threadId) := by
  rw [worker]
  have hstart : Looped 0 [] {} := ⟨rfl, rfl, rfl⟩
  refine (requestLoop_sat cfg threadId hstart).bind fun h s hloop => ?_
  rw [Nat.zero_add] at hloop
  have hpublish : ∀ h' : List WorkEvent, ledger.held h' = [] →
      count .ok h' = count .ok h → count .failed h' = count .failed h →
      Prog.Sat Permitted (fun h _ => Worked cfg h) h'
        (Prog.perform (WorkOp.publish s.latencies)) := by
    intro h' hheld hok hfailed
    refine ⟨by simp [Permitted, Ledger.May, used, released], fun _ => ⟨?_, ?_, ?_⟩⟩
    · simp [Ledger.next, acquired, released, hheld]
    · rw [count_append, count_append, hok, hfailed, ← hloop.counted]
      simp [count, adds]
    · refine ⟨s.latencies, by simp, ?_⟩
      rw [count_append, hok, hloop.latencies]
      simp [count, adds]
  have hheld := hloop.held
  cases hsock : s.sock with
  | none =>
    rw [hsock] at hheld
    exact hpublish h hheld rfl rfl
  | some fd =>
    rw [hsock] at hheld
    refine ⟨by simp [Permitted, Ledger.May, used, released, hheld], fun _ => hpublish _ ?_ ?_ ?_⟩
    · simp [Ledger.next, acquired, released, hheld]
    · simp [count, adds]
    · simp [count, adds]

/-- An outside where the socket can be opened, and the proxy is not there. -/
def unreachable : (o : WorkOp) → Unit → o.Answer × Unit
  | .draw, _ => (0, ())
  | .now, _ => (0, ())
  | .socket, _ => (.ok 3, ())
  | .bind _ _, _ => (.ok (), ())
  | .connect _, _ => (.error (str "Connection refused"), ())
  | .sendAll _ _, _ => (false, ())
  | .readOneResponse _ _, _ => (.error [], ())
  | .close _, _ => ((), ())
  | .add _ _, _ => ((), ())
  | .noteError _, _ => ((), ())
  | .sleep _, _ => ((), ())
  | .publish _, _ => ((), ())

end ForwardProxy.Benchmark
