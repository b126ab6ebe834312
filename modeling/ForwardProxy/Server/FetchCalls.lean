import ForwardProxy.Http.Acl
import ForwardProxy.Lib.Ledger
import ForwardProxy.Server.SendAll
import ForwardProxy.Server.Upstream

/-!
# The calls of `fetch_upstream`

`fetch_upstream` of `server_phase5.cpp` as a program over the system and library calls that it
makes. In every run, to wherever it has come, a call uses what is held and nothing that was given
back, and what was sent is a start of the request; a run that returns holds nothing, has given back
each descriptor and address list as often as it got it, and returns what `fetchUpstream` makes of
the answers (`fetchUpstreamCalls_runs`).
-/

namespace ForwardProxy.Socket

open Lib.Interaction

/-! ## Calls -/

/-- What `send` returns, for the bytes that are left. -/
inductive Sent
  /-- `n + 1` bytes are taken, or all that are left if they are fewer. -/
  | taken (n : ℕ)
  | zero
  | wouldBlock
  | interrupted
  | error

/-- An option that is set on the upstream's socket. -/
inductive SockOpt
  | receiveTimeout (sec : ℤ)
  | sendTimeout (sec : ℤ)
  | noDelay

/-- The system calls of `fetch_upstream`. -/
inductive FetchOp
  | getaddrinfo (host service : Bytes)
  | freeaddrinfo
  | socket
  | setsockopt (fd : ℤ) (option : SockOpt)
  | connect (fd : ℤ)
  | send (fd : ℤ) (data : Bytes)
  | poll (fd : ℤ)
  /-- `strerror(errno)` after a failed `send_all`. -/
  | lastError
  | recv (fd : ℤ)
  | close (fd : ℤ)

/-- A call that fails returns the text of the error. -/
abbrev FetchOp.Answer : FetchOp → Type
  | .getaddrinfo _ _ => Except Bytes Unit
  | .socket => Except Bytes ℤ
  | .connect _ => Except Bytes Unit
  | .send _ _ => Sent
  | .poll _ => ℤ
  | .lastError => Bytes
  | .recv _ => Recv
  | _ => Unit

/-- A part of `fetch_upstream`, as calls whose answers are up to the system. -/
abbrev Calls := Prog FetchOp.Answer

/-- A call, with its answer. -/
abbrev CallEvent := Event FetchOp.Answer

/-- Looks up the addresses of a host. -/
abbrev getaddrinfo (host service : Bytes) : Calls (Except Bytes Unit) :=
  Prog.perform (FetchOp.getaddrinfo host service)
/-- Gives back the list of addresses. -/
abbrev freeaddrinfo : Calls Unit := Prog.perform FetchOp.freeaddrinfo
/-- A new socket, by its descriptor. -/
abbrev socket : Calls (Except Bytes ℤ) := Prog.perform FetchOp.socket
/-- Sets an option of a socket. -/
abbrev setsockopt (fd : ℤ) (option : SockOpt) : Calls Unit :=
  Prog.perform (FetchOp.setsockopt fd option)
/-- Connects a socket. -/
abbrev connect (fd : ℤ) : Calls (Except Bytes Unit) := Prog.perform (FetchOp.connect fd)
/-- Sends bytes, of which the kernel takes some. -/
abbrev send (fd : ℤ) (data : Bytes) : Calls Sent := Prog.perform (FetchOp.send fd data)
/-- Waits until the socket takes more. -/
abbrev poll (fd : ℤ) : Calls ℤ := Prog.perform (FetchOp.poll fd)
/-- The text of the last error. -/
abbrev lastError : Calls Bytes := Prog.perform FetchOp.lastError
/-- Receives what has come. -/
abbrev recv (fd : ℤ) : Calls Recv := Prog.perform (FetchOp.recv fd)
/-- Closes a socket. -/
abbrev close (fd : ℤ) : Calls Unit := Prog.perform (FetchOp.close fd)

/-- `send_all`, for as many turns as there is fuel. -/
def sendCalls (fd : ℤ) (data : Bytes) : ℕ → Sending → Calls (Option Bool)
  | 0, _ => return none
  | fuel + 1, s =>
    if s.sent < data.length then do
      match ← send fd (data.drop s.sent) with
      | .taken n => sendCalls fd data fuel (sendTurn data s (.accepted n)).1
      | .zero => return some false
      | .wouldBlock =>
        if 1000 < s.spins + 1 then return some false
        else
          let ready ← poll fd
          if ready ≤ 0 then return some false
          else sendCalls fd data fuel { s with spins := s.spins + 1 }
      | .interrupted => sendCalls fd data fuel s
      | .error => return some false
    else return some true

/-- The receive loop, for as many turns as there is fuel. -/
def recvCalls (fd : ℤ) : ℕ → FetchState → Calls (Option (Except Bytes FetchState))
  | 0, _ => return none
  | fuel + 1, s => do
    let r ← recv fd
    match fetchTurn s r with
    | .more s => recvCalls fd fuel s
    | .stop s => return some (.ok s)
    | .fail error => return some (.error error)

/-- The part of `fetch_upstream` on a connected socket. -/
def exchange (fd : ℤ) (requestBytes : Bytes) (fuel : ℕ) : Calls (Option UpstreamResult) := do
  match ← sendCalls fd requestBytes fuel {} with
  | none => return none
  | some false =>
    let reason ← lastError
    close fd
    return some { error := str "send: " ++ reason }
  | some true =>
    match ← recvCalls fd fuel {} with
    | none => return none
    | some (.error error) =>
      close fd
      return some { error := error }
    | some (.ok s) =>
      close fd
      return some (fetchDone s)

/-- `fetch_upstream`, with `fuel` turns for each of its loops. -/
def fetchUpstreamCalls (timeoutSec : ℤ) (up : Upstream) (requestBytes : Bytes) (fuel : ℕ) :
    Calls (Option UpstreamResult) := do
  match ← getaddrinfo up.host (decimalInt up.port) with
  | .error reason => return some { error := str "dns: " ++ reason }
  | .ok () =>
    match ← socket with
    | .error reason =>
      freeaddrinfo
      return some { error := str "socket: " ++ reason }
    | .ok fd =>
      setsockopt fd (.receiveTimeout timeoutSec)
      setsockopt fd (.sendTimeout timeoutSec)
      setsockopt fd .noDelay
      match ← connect fd with
      | .error reason =>
        freeaddrinfo
        close fd
        return some { error := str "connect: " ++ reason }
      | .ok () =>
        freeaddrinfo
        exchange fd requestBytes fuel

/-! ## What is held, and what was answered -/

/-- What a call can hold. -/
inductive Resource
  /-- The list that `getaddrinfo` allocates. -/
  | addresses
  | descriptor (fd : ℤ)
  deriving DecidableEq

/-- Which calls get a resource, which give one back, and what each needs. -/
def ledger : Ledger FetchOp.Answer Resource where
  acquired
    | ⟨.getaddrinfo _ _, .ok ()⟩ => some .addresses
    | ⟨.socket, .ok fd⟩ => some (.descriptor fd)
    | _ => none
  released
    | .freeaddrinfo => some .addresses
    | .close fd => some (.descriptor fd)
    | _ => none
  used
    | .socket => [.addresses]
    | .setsockopt fd _ => [.descriptor fd]
    | .connect fd => [.addresses, .descriptor fd]
    | .send fd _ => [.descriptor fd]
    | .poll fd => [.descriptor fd]
    | .recv fd => [.descriptor fd]
    | _ => []

/-- The failure that an event before the first `recv` stands for. -/
def failure : CallEvent → Option Connect
  | ⟨.getaddrinfo _ _, .error reason⟩ => some (.noAddress reason)
  | ⟨.socket, .error reason⟩ => some (.noSocket reason)
  | ⟨.connect _, .error reason⟩ => some (.refused reason)
  | ⟨.lastError, reason⟩ => some (.notSent reason)
  | _ => none

/-- How far the steps before the first `recv` got. -/
def connectOf (es : List CallEvent) : Connect := (es.findSome? failure).getD .sent

/-- A call never fails with everything sent. -/
theorem failure_ne_sent (e : CallEvent) : failure e ≠ some .sent := by
  unfold failure
  split <;> simp

/-- The answers to `recv`. -/
def recvsOf (es : List CallEvent) : List Recv :=
  es.filterMap fun
    | ⟨.recv _, r⟩ => some r
    | _ => none

/-- The bytes that the socket took. -/
def taken (es : List CallEvent) : Bytes :=
  es.flatMap fun
    | ⟨.send _ data, .taken n⟩ => data.take (n + 1)
    | _ => []

/-- The answers of the receives of two parts, one after the other. -/
@[simp]
theorem recvsOf_append (es es' : List CallEvent) :
    recvsOf (es ++ es') = recvsOf es ++ recvsOf es' :=
  List.filterMap_append

/-- What the socket took in two parts, one after the other. -/
@[simp]
theorem taken_append (es es' : List CallEvent) : taken (es ++ es') = taken es ++ taken es' :=
  List.flatMap_append

/-! ## The loops -/

/-- When a call may come after the events `h`. -/
def Permitted (requestBytes : Bytes) (h : List CallEvent) (o : FetchOp) : Prop :=
  ledger.May (ledger.held h) o ∧ taken h <+: requestBytes

/-- A call of a loop, which neither gets nor gives back a resource. -/
structure InLoop (e : CallEvent) : Prop where
  acquired : ledger.acquired e = none
  released : ledger.released e.op = none
  failure : failure e = none

/-- The calls of a loop leave what is held. -/
theorem held_inLoop {h es : List CallEvent} (hes : ∀ e ∈ es, InLoop e) :
    ledger.held (h ++ es) = ledger.held h :=
  ledger.held_append_quiet fun e he => ⟨(hes e he).acquired, (hes e he).released⟩

/-- The calls of a loop leave how the connection came about. -/
theorem connectOf_inLoop {h es : List CallEvent} (hes : ∀ e ∈ es, InLoop e) :
    connectOf (h ++ es) = connectOf h := by
  have hnone : es.findSome? failure = none := List.findSome?_eq_none_iff.mpr fun e he =>
    (hes e he).failure
  rw [connectOf, List.findSome?_append, hnone, Option.or_none, connectOf]

/-- What `send_all` does from the events `h` on: it keeps what is held, the socket takes a start of
what is left, and all of it where the result is true. -/
structure SendsFrom (requestBytes : Bytes) (fuel : ℕ) (h : List CallEvent) (result : Option Bool)
    (h' es : List CallEvent) : Prop where
  events : h' = h ++ es
  inLoop : ∀ e ∈ es, InLoop e
  recvs : recvsOf es = []
  start : taken h' <+: requestBytes
  whole : result = some true → taken h' = requestBytes
  spent : result = none → fuel ≤ es.length

/-- One call before what `send_all` does. -/
theorem SendsFrom.cons {data : Bytes} {fuel fuel' : ℕ} {h h' es : List CallEvent}
    {result : Option Bool} {e : CallEvent} (H : SendsFrom data fuel (h ++ [e]) result h' es)
    (hloop : InLoop e) (hrecv : recvsOf [e] = []) (hfuel : fuel' ≤ fuel + 1) :
    SendsFrom data fuel' h result h' (e :: es) where
  events := by rw [H.events, List.append_assoc, List.singleton_append]
  inLoop := List.forall_mem_cons.mpr ⟨hloop, H.inLoop⟩
  recvs := by rw [← List.singleton_append, recvsOf_append, hrecv, H.recvs, List.nil_append]
  start := H.start
  whole := H.whole
  spent hnone := by
    have := H.spent hnone
    rw [List.length_cons]
    omega

/-- A call after which `send_all` returns false. -/
theorem SendsFrom.stop {data : Bytes} {fuel : ℕ} {h : List CallEvent} {e : CallEvent}
    (hloop : InLoop e) (hrecv : recvsOf [e] = []) (hstart : taken (h ++ [e]) <+: data) :
    SendsFrom data fuel h (some false) (h ++ [e]) [e] :=
  ⟨rfl, by simpa using hloop, hrecv, hstart, by simp, by simp⟩

/-- `send_all` is at the state `s` of its loop, and the socket is open. -/
structure SendsAt (data : Bytes) (fd : ℤ) (s : Sending) (h : List CallEvent) : Prop where
  wf : s.Wf data
  fd : .descriptor fd ∈ ledger.held h
  taken : taken h = s.accepted

section SendsAt

variable {data : Bytes} {fd : ℤ} {s : Sending} {h : List CallEvent}

/-- What was taken is a start of the data. -/
theorem SendsAt.start (H : SendsAt data fd s h) : Socket.taken h <+: data := by
  rw [H.taken, H.wf.accepted_eq]
  exact List.take_prefix _ _

/-- The loop may send and poll. -/
theorem SendsAt.permitted (H : SendsAt data fd s h) (rest : Bytes) :
    Permitted data h (.send fd rest) ∧ Permitted data h (.poll fd) :=
  ⟨⟨⟨by simpa [ledger] using H.fd, by simp [ledger]⟩, H.start⟩,
    ⟨⟨by simpa [ledger] using H.fd, by simp [ledger]⟩, H.start⟩⟩

/-- A call by which the socket takes nothing leaves the state. -/
theorem SendsAt.idle (H : SendsAt data fd s h) {e : CallEvent} (hloop : InLoop e)
    (hnone : Socket.taken [e] = []) : SendsAt data fd s (h ++ [e]) where
  wf := H.wf
  fd := by
    rw [held_inLoop (List.forall_mem_singleton.mpr hloop)]
    exact H.fd
  taken := by rw [taken_append, hnone, List.append_nil, H.taken]

/-- A call by which the socket takes bytes is a turn of the loop. -/
theorem SendsAt.took (H : SendsAt data fd s h) (hlt : s.sent < data.length) (n : ℕ) :
    SendsAt data fd (sendTurn data s (.accepted n)).1
      (h ++ [⟨.send fd (data.drop s.sent), .taken n⟩]) where
  wf := by
    obtain ⟨-, -, -, hwf, -⟩ | ⟨_, heq, -⟩ | ⟨heq, -⟩ | ⟨hfalse, -⟩ :=
      sendTurn_cases H.wf hlt (.accepted n)
    · exact hwf
    · cases heq
    · cases heq
    · cases hfalse
  fd := by
    have hloop : InLoop ⟨.send fd (data.drop s.sent), .taken n⟩ := ⟨rfl, rfl, rfl⟩
    rw [held_inLoop (List.forall_mem_singleton.mpr hloop)]
    exact H.fd
  taken := by
    have hcount : (data.drop s.sent).take (min (n + 1) (data.length - s.sent)) =
        (data.drop s.sent).take (n + 1) := by
      rw [← List.length_drop, ← List.take_eq_take_min]
    rw [taken_append, H.taken]
    simp [Socket.taken, sendTurn, hcount]

/-- Where the loop ends with `false`, by a call that takes nothing. -/
theorem SendsAt.stop (H : SendsAt data fd s h) {e : CallEvent} (hloop : InLoop e)
    (hrecv : recvsOf [e] = []) (hnone : Socket.taken [e] = []) (fuel : ℕ) :
    SendsFrom data fuel h (some false) (h ++ [e]) [e] :=
  .stop hloop hrecv (H.idle hloop hnone).start

/-- The loop from `s` on, for `fuel` turns, in the terms of `SendsFrom`. -/
def SendsWell (data : Bytes) (fd : ℤ) (fuel : ℕ) (s : Sending) : Prop :=
  ∀ h, SendsAt data fd s h →
    Prog.Sat (Permitted data) (fun h' result => ∃ es, SendsFrom data fuel h result h' es) h
      (sendCalls fd data fuel s)

/-- A turn that ends in `EAGAIN` gives up after too many of them, or polls. -/
theorem wouldBlock_sat {fuel : ℕ} (ih : ∀ s, SendsWell data fd fuel s) (H : SendsAt data fd s h) :
    Prog.Sat (Permitted data) (fun h' result => ∃ es, SendsFrom data (fuel + 1) h result h' es)
      (h ++ [⟨.send fd (data.drop s.sent), .wouldBlock⟩])
      (if 1000 < s.spins + 1 then return some false
        else do
          let ready ← poll fd
          if ready ≤ 0 then return some false
          else sendCalls fd data fuel { s with spins := s.spins + 1 }) := by
  have hblock : InLoop ⟨.send fd (data.drop s.sent), .wouldBlock⟩ := ⟨rfl, rfl, rfl⟩
  split
  · exact ⟨_, H.stop hblock rfl rfl _⟩
  · rename_i hspins
    have Hblock := H.idle hblock rfl
    rw [Prog.sat_perform_bind]
    refine ⟨(Hblock.permitted []).2, fun ready => ?_⟩
    have hpoll : InLoop ⟨.poll fd, ready⟩ := ⟨rfl, rfl, rfl⟩
    split
    · exact ⟨_, (Hblock.stop hpoll rfl rfl fuel).cons hblock rfl (le_refl _)⟩
    · have Hpoll := Hblock.idle hpoll rfl
      have hspin := H.wf.spin (show s.spins < 1000 by omega)
      refine (ih _ _ ⟨hspin, Hpoll.fd, Hpoll.taken⟩).weaken fun h' r ⟨es, Hes⟩ => ?_
      exact ⟨_, (Hes.cons hpoll rfl (le_refl _)).cons hblock rfl (by omega)⟩

/-- A turn of the loop, by the answer to `send`. -/
theorem sendCalls_step {fuel : ℕ} (ih : ∀ s, SendsWell data fd fuel s)
    (hlt : s.sent < data.length) (H : SendsAt data fd s h) :
    Prog.Sat (Permitted data) (fun h' result => ∃ es, SendsFrom data (fuel + 1) h result h' es) h
      (sendCalls fd data (fuel + 1) s) := by
  rw [sendCalls, if_pos hlt, Prog.sat_perform_bind]
  refine ⟨(H.permitted _).1, fun r => ?_⟩
  have hloop : InLoop ⟨.send fd (data.drop s.sent), r⟩ := ⟨rfl, rfl, rfl⟩
  cases r with
  | taken n =>
    exact (ih _ _ (H.took hlt n)).weaken fun h' r ⟨es, Hes⟩ => ⟨_, Hes.cons hloop rfl (le_refl _)⟩
  | zero => exact ⟨_, H.stop hloop rfl rfl _⟩
  | error => exact ⟨_, H.stop hloop rfl rfl _⟩
  | interrupted =>
    exact (ih _ _ (H.idle hloop rfl)).weaken fun h' r ⟨es, Hes⟩ =>
      ⟨_, Hes.cons hloop rfl (le_refl _)⟩
  | wouldBlock => exact wouldBlock_sat ih H

end SendsAt

/-- The loop sends as `SendsFrom` says, by induction on the fuel. -/
theorem sendCalls_sat (data : Bytes) (fd : ℤ) (fuel : ℕ) (s : Sending) :
    SendsWell data fd fuel s := by
  induction fuel generalizing s with
  | zero =>
    intro h H
    exact ⟨[], (List.append_nil h).symm, by simp, rfl, H.start, by simp, fun _ => le_refl _⟩
  | succ fuel ih =>
    intro h H
    by_cases hlt : s.sent < data.length
    · exact sendCalls_step ih hlt H
    · have hall : taken h = data := by
        rw [H.taken, H.wf.accepted_eq, List.take_of_length_le (by omega)]
      rw [sendCalls, if_neg hlt]
      exact ⟨[], (List.append_nil h).symm, by simp, rfl, H.start, fun _ => hall, by simp⟩

/-- What the receive loop does from the events `h` on: its result is that of `fetchLoop` on the
answers. -/
structure RecvsFrom (s : FetchState) (fuel : ℕ) (h : List CallEvent)
    (result : Option (Except Bytes FetchState)) (h' es : List CallEvent) : Prop where
  events : h' = h ++ es
  inLoop : ∀ e ∈ es, InLoop e
  taken : taken es = []
  loop : ∀ r, result = some r → fetchLoop s (recvsOf es) = r
  spent : result = none → fuel ≤ es.length

/-- The receive loop only receives, and its result is that of `fetchLoop`. By induction on its
fuel. -/
theorem recvCalls_sat {data : Bytes} (fd : ℤ) (fuel : ℕ) (s : FetchState) {h : List CallEvent}
    (hfd : .descriptor fd ∈ ledger.held h) (hstart : taken h <+: data) :
    Prog.Sat (Permitted data) (fun h' result => ∃ es, RecvsFrom s fuel h result h' es) h
      (recvCalls fd fuel s) := by
  induction fuel generalizing s h with
  | zero => exact ⟨[], (List.append_nil h).symm, by simp, rfl, by simp, fun _ => le_refl _⟩
  | succ fuel ih =>
    rw [recvCalls, Prog.sat_perform_bind]
    refine ⟨⟨⟨by simpa [ledger] using hfd, by simp [ledger]⟩, hstart⟩, fun r => ?_⟩
    have hloop : InLoop ⟨.recv fd, r⟩ := ⟨rfl, rfl, rfl⟩
    -- A turn that ends the loop is its last call.
    have hlast : ∀ result, (fetchLoop s [r] = result) →
        RecvsFrom s (fuel + 1) h (some result) (h ++ [⟨.recv fd, r⟩]) [⟨.recv fd, r⟩] := by
      intro result hresult
      exact ⟨rfl, by simpa using hloop, rfl, by rintro _ ⟨⟩; exact hresult, by simp⟩
    cases hturn : fetchTurn s r with
    | stop s' => exact ⟨_, hlast (.ok s') (by rw [fetchLoop, hturn])⟩
    | fail error => exact ⟨_, hlast (.error error) (by rw [fetchLoop, hturn])⟩
    | more s' =>
      -- The socket is still held, and nothing more was sent, so the rest of the loop goes on from
      -- here.
      have hmem : .descriptor fd ∈ ledger.held (h ++ [⟨.recv fd, r⟩]) := by
        rwa [held_inLoop (List.forall_mem_singleton.mpr hloop)]
      have hsame : taken (h ++ [⟨.recv fd, r⟩]) = taken h := by
        rw [taken_append]
        exact List.append_nil _
      refine (ih s' hmem (by rwa [hsame])).weaken fun h' result => ?_
      rintro ⟨es, H⟩
      refine ⟨⟨.recv fd, r⟩ :: es, ?_, List.forall_mem_cons.mpr ⟨hloop, H.inLoop⟩, ?_, ?_, ?_⟩
      · rw [H.events, List.append_assoc, List.singleton_append]
      · rw [← List.singleton_append, taken_append, H.taken]
        rfl
      · intro r' hr'
        rw [← H.loop r' hr']
        exact (by rw [fetchLoop, hturn] : fetchLoop s (r :: recvsOf es) = fetchLoop s' (recvsOf es))
      · intro hnone
        have := H.spent hnone
        rw [List.length_cons]
        omega

/-! ## The whole of it -/

/-- What `fetch_upstream` leaves after the events `es`. -/
structure Returns (requestBytes : Bytes) (fuel : ℕ) (es : List CallEvent)
    (result : Option UpstreamResult) : Prop where
  start : taken es <+: requestBytes
  released : ∀ res, result = some res → ledger.held es = []
  answers : ∀ res, result = some res → res = fetchUpstream (connectOf es) (recvsOf es)
  whole : ∀ res, result = some res → connectOf es = .sent → taken es = requestBytes
  spent : result = none → fuel ≤ es.length

/-- A return before the first `recv`, with the failure that was met. -/
theorem Returns.failed {requestBytes : Bytes} {fuel : ℕ} {es : List CallEvent}
    {res : UpstreamResult} {c : Connect} (hstart : taken es <+: requestBytes)
    (hheld : ledger.held es = []) (hconnect : connectOf es = c) (hne : c ≠ .sent)
    (hres : res = fetchUpstream c (recvsOf es)) : Returns requestBytes fuel es (some res) where
  start := hstart
  released _ _ := hheld
  answers := by
    rintro _ ⟨⟩
    rw [hconnect, hres]
  whole := by
    rintro _ - hsent
    exact absurd (hconnect.symm.trans hsent) hne
  spent := by simp

/-- Once the request is sent, a return with what `fetchLoop` came to. -/
theorem Returns.received {requestBytes : Bytes} {fuel : ℕ} {es : List CallEvent}
    {loop : Except Bytes FetchState} {res : UpstreamResult}
    (hres : res = match loop with | .error error => { error := error } | .ok s => fetchDone s)
    (htaken : taken es = requestBytes) (hheld : ledger.held es = [])
    (hconnect : connectOf es = .sent) (hloop : fetchLoop {} (recvsOf es) = loop) :
    Returns requestBytes fuel es (some res) where
  start := htaken ▸ List.prefix_refl _
  released _ _ := hheld
  answers := by
    rintro _ ⟨⟩
    cases loop <;> simp [hconnect, fetchUpstream, hloop, hres]
  whole _ _ _ := htaken
  spent := by simp

/-- The socket is all that is held, and nothing has failed. -/
structure Connected (fd : ℤ) (h : List CallEvent) : Prop where
  held : ledger.held h = [.descriptor fd]
  connect : connectOf h = .sent

section Connected

variable {fd : ℤ} {requestBytes : Bytes} {h : List CallEvent}

/-- The calls of a loop leave the socket as it is. -/
theorem Connected.append (H : Connected fd h) {es : List CallEvent} (hes : ∀ e ∈ es, InLoop e) :
    Connected fd (h ++ es) :=
  ⟨by rw [held_inLoop hes, H.held], by rw [connectOf_inLoop hes, H.connect]⟩

/-- The socket may be closed, and then nothing is held. -/
theorem close_held {es : List CallEvent} (hes : ledger.held es = [.descriptor fd]) :
    ledger.May (ledger.held es) (.close fd) ∧ ledger.held (es ++ [⟨.close fd, ()⟩]) = [] := by
  constructor
  · rw [hes]
    simp [Ledger.May, ledger]
  · rw [Ledger.held_snoc, hes]
    simp [Ledger.next, ledger]

/-- Where the steps before the first `recv` have not failed, no event of theirs has. -/
theorem Connected.no_failure (H : Connected fd h) : h.findSome? failure = none := by
  have hconnect := H.connect
  rw [connectOf] at hconnect
  cases hfind : h.findSome? failure with
  | none => rfl
  | some c =>
    obtain ⟨e, -, he⟩ := List.exists_of_findSome?_eq_some hfind
    rw [hfind] at hconnect
    obtain rfl : c = .sent := hconnect
    exact absurd he (failure_ne_sent e)

/-- After a failed `send_all` the text of the error is asked for before the socket is closed. -/
theorem notSent_sat (H : Connected fd h) (hstart : taken h <+: requestBytes) (fuel : ℕ) :
    Prog.Sat (Permitted requestBytes) (Returns requestBytes fuel) h (do
      let reason ← lastError
      close fd
      return some { error := str "send: " ++ reason }) := by
  simp only [Prog.sat_perform_bind]
  refine ⟨⟨by simp [Ledger.May, ledger], hstart⟩, fun reason => ?_⟩
  have hasked : ledger.held (h ++ [⟨.lastError, reason⟩]) = [.descriptor fd] := by
    rw [Ledger.held_snoc, H.held]
    rfl
  obtain ⟨hmay, hclosed⟩ := close_held hasked
  have hsame : ∀ more : List CallEvent, taken more = [] → taken (h ++ more) <+: requestBytes := by
    intro more hmore
    rwa [taken_append, hmore, List.append_nil]
  refine ⟨⟨hmay, hsame _ rfl⟩, fun _ => ?_⟩
  refine .failed (c := .notSent reason) ?_ hclosed ?_ (by simp) rfl
  · rw [List.append_assoc]
    exact hsame _ rfl
  · rw [connectOf, List.append_assoc, List.findSome?_append, H.no_failure]
    rfl

/-- After the receive loop the socket is closed, and what the loop came to is returned. -/
theorem received_sat {loop : Except Bytes FetchState} {res : UpstreamResult}
    (hres : res = match loop with | .error error => { error := error } | .ok s => fetchDone s)
    (H : Connected fd h) (htaken : taken h = requestBytes) (fuel : ℕ)
    (hloop : fetchLoop {} (recvsOf h) = loop) :
    Prog.Sat (Permitted requestBytes) (Returns requestBytes fuel) h (do
      close fd
      return some res) := by
  obtain ⟨hmay, hclosed⟩ := close_held H.held
  rw [Prog.sat_perform_bind]
  refine ⟨⟨hmay, htaken ▸ List.prefix_refl _⟩, fun _ => ?_⟩
  refine .received hres ?_ hclosed ?_ ?_
  · rw [taken_append, htaken]
    exact List.append_nil _
  · rw [connectOf, List.findSome?_append, H.no_failure]
    rfl
  · rw [recvsOf_append, ← hloop]
    exact congrArg _ (List.append_nil _)

/-- Once the request is sent, the receive loop and what follows it. -/
theorem sent_sat (H : Connected fd h) (hrecvs : recvsOf h = []) (htaken : taken h = requestBytes)
    (fuel : ℕ) :
    Prog.Sat (Permitted requestBytes) (Returns requestBytes fuel) h (do
      match ← recvCalls fd fuel {} with
      | none => return none
      | some (.error error) =>
        close fd
        return some { error := error }
      | some (.ok s) =>
        close fd
        return some (fetchDone s)) := by
  have hfd : .descriptor fd ∈ ledger.held h := by simp [H.held]
  refine (recvCalls_sat fd fuel {} hfd (htaken ▸ List.prefix_refl _)).bind fun h' result => ?_
  rintro ⟨es, Hes⟩
  have H' : Connected fd h' := by
    rw [Hes.events]
    exact H.append Hes.inLoop
  have htaken' : taken h' = requestBytes := by
    rw [Hes.events, taken_append, Hes.taken, List.append_nil, htaken]
  have hrecvs' : recvsOf h' = recvsOf es := by
    rw [Hes.events, recvsOf_append, hrecvs, List.nil_append]
  cases result with
  | none =>
    refine ⟨htaken' ▸ List.prefix_refl _, by simp, by simp, by simp, fun _ => ?_⟩
    have := Hes.spent rfl
    rw [Hes.events, List.length_append]
    omega
  | some result =>
    have hloop : fetchLoop {} (recvsOf h') = result := by rw [hrecvs', Hes.loop result rfl]
    cases result with
    | error error => exact received_sat rfl H' htaken' fuel hloop
    | ok s => exact received_sat rfl H' htaken' fuel hloop

/-- The part of `fetch_upstream` on a connected socket, from its start. -/
theorem exchange_sat (H : Connected fd h) (hrecvs : recvsOf h = []) (htaken : taken h = [])
    (fuel : ℕ) :
    Prog.Sat (Permitted requestBytes) (Returns requestBytes fuel) h
      (exchange fd requestBytes fuel) := by
  have hfirst : SendsAt requestBytes fd {} h :=
    ⟨⟨Nat.zero_le _, rfl, Nat.zero_le _⟩, by simp [H.held], htaken⟩
  rw [exchange]
  refine (sendCalls_sat requestBytes fd fuel {} h hfirst).bind fun h' sent => ?_
  rintro ⟨es, Hes⟩
  have H' : Connected fd h' := by
    rw [Hes.events]
    exact H.append Hes.inLoop
  cases sent with
  | none =>
    refine ⟨Hes.start, by simp, by simp, by simp, fun _ => ?_⟩
    have := Hes.spent rfl
    rw [Hes.events, List.length_append]
    omega
  | some sent =>
    cases sent with
    | false => exact notSent_sat H' Hes.start fuel
    | true =>
      have hrecvs' : recvsOf h' = [] := by
        rw [Hes.events, recvsOf_append, hrecvs, Hes.recvs, List.append_nil]
      exact sent_sat H' hrecvs' (Hes.whole rfl) fuel

end Connected

/-- Nothing has failed and nothing was sent yet, and `held` is what is held. -/
structure Early (held : List Resource) (h : List CallEvent) : Prop where
  held : ledger.held h = held
  failure : h.findSome? failure = none
  recvs : recvsOf h = []
  taken : taken h = []

section Early

variable {held : List Resource} {requestBytes : Bytes} {h : List CallEvent}

/-- A call that does not fail, and neither sends nor receives. -/
theorem Early.step (H : Early held h) {e : CallEvent} {held' : List Resource}
    (hnext : ledger.next held e = held') (hfailure : Socket.failure e = none)
    (hrecv : recvsOf [e] = []) (hnone : Socket.taken [e] = []) : Early held' (h ++ [e]) where
  held := by rw [Ledger.held_snoc, H.held, hnext]
  failure := by
    rw [List.findSome?_append, H.failure]
    simpa using hfailure
  recvs := by rw [recvsOf_append, H.recvs, hrecv, List.append_nil]
  taken := by rw [taken_append, H.taken, hnone, List.append_nil]

/-- A call may be made on what is held. -/
theorem Early.permitted (H : Early held h) {o : FetchOp} (hmay : ledger.May held o) :
    Permitted requestBytes h o :=
  ⟨H.held ▸ hmay, H.taken ▸ List.nil_prefix⟩

/-- A call may be made right after one that failed. -/
theorem Early.permitted_after (H : Early held h) {es : List CallEvent} {o : FetchOp}
    {held' : List Resource} (hheld : es.foldl ledger.next held = held')
    (hnone : Socket.taken es = []) (hmay : ledger.May held' o) :
    Permitted requestBytes (h ++ es) o := by
  refine ⟨?_, ?_⟩
  · rwa [Ledger.held_append, H.held, hheld]
  · rw [taken_append, H.taken, hnone]
    exact List.nil_prefix

/-- A return after a call that failed, and what is given back after it. -/
theorem Early.failed (H : Early held h) {es : List CallEvent} {c : Connect}
    {res : UpstreamResult} (hheld : es.foldl ledger.next held = [])
    (hnone : Socket.taken es = []) (hrecv : recvsOf es = [])
    (hfailure : es.findSome? Socket.failure = some c) (hne : c ≠ .sent)
    (hres : res = fetchUpstream c []) (fuel : ℕ) :
    Returns requestBytes fuel (h ++ es) (some res) := by
  refine .failed (c := c) ?_ ?_ ?_ hne ?_
  · rw [taken_append, H.taken, hnone]
    exact List.nil_prefix
  · rw [Ledger.held_append, H.held, hheld]
  · rw [connectOf, List.findSome?_append, H.failure, hfailure]
    rfl
  · rw [recvsOf_append, H.recvs, hrecv]
    exact hres

/-- The options of the socket are set, and the connection is made or not. -/
theorem connect_sat {fd : ℤ} (H : Early [.descriptor fd, .addresses] h) (timeoutSec : ℤ)
    (fuel : ℕ) :
    Prog.Sat (Permitted requestBytes) (Returns requestBytes fuel) h (do
      setsockopt fd (.receiveTimeout timeoutSec)
      setsockopt fd (.sendTimeout timeoutSec)
      setsockopt fd .noDelay
      match ← connect fd with
      | .error reason =>
        freeaddrinfo
        close fd
        return some { error := str "connect: " ++ reason }
      | .ok () =>
        freeaddrinfo
        exchange fd requestBytes fuel) := by
  have hset : ∀ option, ledger.May [.descriptor fd, .addresses] (.setsockopt fd option) := by
    simp [Ledger.May, ledger]
  have H₁ : Early [.descriptor fd, .addresses] _ :=
    H.step (e := ⟨.setsockopt fd (.receiveTimeout timeoutSec), ()⟩) rfl rfl rfl rfl
  have H₂ : Early [.descriptor fd, .addresses] _ :=
    H₁.step (e := ⟨.setsockopt fd (.sendTimeout timeoutSec), ()⟩) rfl rfl rfl rfl
  have H₃ : Early [.descriptor fd, .addresses] _ :=
    H₂.step (e := ⟨.setsockopt fd .noDelay, ()⟩) rfl rfl rfl rfl
  simp only [Prog.sat_perform_bind]
  refine ⟨H.permitted (hset _), fun _ => ⟨H₁.permitted (hset _), fun _ =>
    ⟨H₂.permitted (hset _), fun _ => ⟨H₃.permitted (by simp [Ledger.May, ledger]), fun r => ?_⟩⟩⟩⟩
  cases r with
  | error reason =>
    -- A refused connection gives back the addresses and the socket.
    simp only [Prog.sat_perform_bind]
    refine ⟨H₃.permitted_after rfl rfl (by simp [Ledger.May, ledger, Ledger.next]), fun _ => ?_⟩
    rw [List.append_assoc]
    refine ⟨H₃.permitted_after rfl rfl (by simp [Ledger.May, ledger, Ledger.next]), fun _ => ?_⟩
    rw [List.append_assoc]
    exact H₃.failed (c := .refused reason) (by simp [ledger, Ledger.next]) rfl rfl rfl (by simp)
      rfl fuel
  | ok _ =>
    -- The addresses are given back as soon as the socket is connected.
    have H₄ : Early [.descriptor fd, .addresses] _ :=
      H₃.step (e := ⟨.connect fd, .ok ()⟩) rfl rfl rfl rfl
    have H₅ : Early [.descriptor fd] _ :=
      H₄.step (e := ⟨.freeaddrinfo, ()⟩) (by simp [ledger, Ledger.next]) rfl rfl rfl
    rw [Prog.sat_perform_bind]
    refine ⟨H₄.permitted (by simp [Ledger.May, ledger]), fun _ => ?_⟩
    exact exchange_sat ⟨H₅.held, by rw [connectOf, H₅.failure]; rfl⟩ H₅.recvs H₅.taken fuel

end Early

/-- `fetch_upstream` returns as `Returns` says. -/
theorem fetchUpstreamCalls_sat (timeoutSec : ℤ) (up : Upstream) (requestBytes : Bytes) (fuel : ℕ) :
    Prog.Sat (Permitted requestBytes) (Returns requestBytes fuel) []
      (fetchUpstreamCalls timeoutSec up requestBytes fuel) := by
  have H : Early [] [] := ⟨rfl, rfl, rfl, rfl⟩
  rw [fetchUpstreamCalls, Prog.sat_perform_bind]
  refine ⟨H.permitted (by simp [Ledger.May, ledger]), fun r => ?_⟩
  cases r with
  | error reason => exact H.failed (c := .noAddress reason) rfl rfl rfl rfl (by simp) rfl fuel
  | ok _ =>
    have H₁ := H.step (e := ⟨.getaddrinfo up.host (decimalInt up.port), .ok ()⟩) rfl rfl rfl rfl
    rw [Prog.sat_perform_bind]
    refine ⟨H₁.permitted (by simp [Ledger.May, ledger, Ledger.next]), fun r => ?_⟩
    cases r with
    | error reason =>
      rw [Prog.sat_perform_bind]
      refine ⟨H₁.permitted_after rfl rfl (by simp [Ledger.May, ledger, Ledger.next]), fun _ => ?_⟩
      rw [List.append_assoc]
      exact H₁.failed (c := .noSocket reason) (by simp [ledger, Ledger.next]) rfl rfl rfl (by simp)
        rfl fuel
    | ok fd => exact connect_sat (H₁.step rfl rfl rfl rfl) timeoutSec fuel

/-- Wherever a run of `fetch_upstream` has come, each call has used what was held and given back
nothing twice, and what was sent is a start of the request. A run that has returned has given back
what it got, and its result is that of `fetchUpstream` on the answers; and one that has sent the
request has sent all of it. Only a run of at least `fuel` calls can go on past the fuel. -/
theorem fetchUpstreamCalls_runs (timeoutSec : ℤ) (up : Upstream) (requestBytes : Bytes) (fuel : ℕ)
    {es : List CallEvent} {q : Calls (Option UpstreamResult)}
    (h : Prog.Runs (fetchUpstreamCalls timeoutSec up requestBytes fuel) es q) :
    ledger.Careful es ∧ taken es <+: requestBytes ∧
      (∀ res, q = .ret (some res) →
        (∀ r, es.countP (fun e => ledger.acquired e = some r) =
            es.countP (fun e => ledger.released e.op = some r)) ∧
          res = fetchUpstream (connectOf es) (recvsOf es) ∧
          (connectOf es = .sent → taken es = requestBytes)) ∧
      (q = .ret none → fuel ≤ es.length) := by
  have hsat := fetchUpstreamCalls_sat timeoutSec up requestBytes fuel
  have hcareful : ledger.Careful es :=
    ledger.careful_of_runs (hsat.mono fun _ _ hpermitted => hpermitted.1) h
  have hrest := hsat.runs h
  rw [List.nil_append] at hrest
  refine ⟨hcareful, ?_, ?_, ?_⟩
  · cases q with
    | ret result => exact hrest.start
    | op o k => exact hrest.1.2
  · rintro res rfl
    exact ⟨hcareful.balanced (hrest.released res rfl), hrest.answers res rfl, hrest.whole res rfl⟩
  · rintro rfl
    exact hrest.spent rfl

/-- An outside where the upstream refuses the connection. -/
def refusing : (o : FetchOp) → Unit → o.Answer × Unit
  | .getaddrinfo _ _, _ => (.ok (), ())
  | .socket, _ => (.ok 3, ())
  | .connect _, _ => (.error (str "refused"), ())
  | .send _ _, _ => (.error, ())
  | .poll _, _ => (0, ())
  | .lastError, _ => ([], ())
  | .recv _, _ => (.eof, ())
  | .freeaddrinfo, _ => ((), ())
  | .setsockopt _ _, _ => ((), ())
  | .close _, _ => ((), ())

/-- After a refused connection the socket is closed once. -/
theorem fetchUpstreamCalls_refused :
    let run := (fetchUpstreamCalls 5 ⟨str "h", 80⟩ (str "GET") 1).exec refusing ()
    ledger.Careful run.1 ∧
      run.1.countP (fun e => ledger.released e.op = some (.descriptor 3)) = 1 ∧
      run.2.1 = some (fetchUpstream (.refused (str "refused")) []) := by
  intro run
  have hresult : run.2.1 = some { error := str "connect: " ++ str "refused" } := rfl
  have hruns := Prog.runs_exec refusing (fetchUpstreamCalls 5 ⟨str "h", 80⟩ (str "GET") 1) ()
  obtain ⟨hcareful, -, hreturn, -⟩ := fetchUpstreamCalls_runs 5 ⟨str "h", 80⟩ (str "GET") 1 hruns
  have hbalanced := (hreturn _ (congrArg _ hresult)).1 (.descriptor 3)
  exact ⟨hcareful, hbalanced.symm.trans rfl, hresult⟩

end ForwardProxy.Socket
