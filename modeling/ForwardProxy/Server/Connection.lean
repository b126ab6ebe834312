import ForwardProxy.Server.Serve

/-!
# A client connection

`handle_ready` of `server_phase5.cpp`: drain the socket, serve every complete request in the buffer,
and once more as long as something was served. What each `recv` returns is a script, which a call
takes up where the last left it, and a script that has come to its end is a socket without data. How
a request is served is a parameter: a function of the state of the rest of the program.
-/

namespace ForwardProxy

/-- What a connection does: requests served, with the result, and what it does on its own. -/
inductive ConnEvent
  | served (req : Request) (consumed : ℕ) (keep : Bool)
  | sent (data : Bytes)
  | bumped (counter : Counter)
  | logged (entry : Entry)
  | closed
  | rearmed
  deriving DecidableEq

/-- `Conn`: a client connection with what it has sent and is not served yet. -/
structure Conn where
  clientIp : Bytes := []
  /-- Bytes received, not yet consumed. -/
  inbuf : Bytes := []
  requestsServed : UInt64 := 0

/-! ## Draining the socket -/

/-- Why the drain loop is left. -/
inductive DrainEnd
  | drained
  | peerClosed
  | tooLarge
  | failed
  deriving DecidableEq

/-- What a drain leaves: the buffer, why it stopped, and what is still to come. -/
structure Drained where
  inbuf : Bytes
  ending : DrainEnd
  rest : List Recv

/-- The drain loop: read until `EAGAIN`, EOF, an error, or a buffer that is too large. -/
def drain (inbuf : Bytes) : List Recv → Drained
  | [] => ⟨inbuf, .drained, []⟩
  | .data b bs :: script =>
    -- The size is looked at after the bytes were appended.
    if maxHeaderBytes + maxBodyBytes < (inbuf ++ b :: bs).length then
      ⟨inbuf ++ b :: bs, .tooLarge, script⟩
    else drain (inbuf ++ b :: bs) script
  | .eof :: script => ⟨inbuf, .peerClosed, script⟩
  | .intr :: script => drain inbuf script
  | .again :: script => ⟨inbuf, .drained, script⟩
  | .error _ :: script => ⟨inbuf, .failed, script⟩

/-! ## Serving the buffer -/

/-- What the buffer holds. -/
inductive Verdict
  | needMore
  | headerTooLarge
  | badRequest (req : Request)
  | ready (req : Request) (need : ℕ)
  deriving DecidableEq

/-- What the head of the serving loop makes of the buffer. -/
def inspect (inbuf : Bytes) : Verdict :=
  match findHeaderEnd inbuf with
  | none => if maxHeaderBytes < inbuf.length then .headerTooLarge else .needMore
  | some _ =>
    let req := parseRequest inbuf
    if !req.valid then .badRequest req
    else
      let need := expectedRequestBytes req
      if inbuf.length < need then .needMore else .ready req need

/-- `s`, and a dash in place of nothing. -/
def orDash (s : Bytes) : Bytes := if s = [] then str "-" else s

/-- A head that is too large is answered with `431`. -/
def headerTooLargeEvents : List ConnEvent :=
  [.sent (buildResponse 431 (str "Request Header Fields Too Large")
    (str "431 Header Too Large\n") false),
    .bumped .badRequests, .closed]

/-- A head that is not valid is answered with `400`, and logged. -/
def badRequestEvents (clientIp : Bytes) (req : Request) : List ConnEvent :=
  let resp := buildResponse 400 (str "Bad Request")
    (str "400 Bad Request: " ++ req.parseError ++ str "\n") false
  let entry : Entry := {
    clientIp := clientIp
    method := orDash req.method
    path := orDash req.path
    version := orDash req.version
    status := 400
    bytes := resp.length
    acl := str "-"
    rule := req.parseError }
  [.bumped .badRequests, .sent resp, .logged entry, .closed]

/-- What the serving loop leaves. -/
structure LoopEnd (σ : Type) where
  world : σ
  conn : Conn
  servedAny : Bool := false
  alive : Bool := true
  events : List ConnEvent := []

variable {σ : Type} (serve : σ → Request → ℕ → Bool × σ)

/-- The serving loop. A request takes bytes off the buffer, so `fuel` above the length of the buffer
is never used up. -/
def serveLoop : ℕ → σ → Conn → LoopEnd σ
  | 0, w, c => { world := w, conn := c }
  | fuel + 1, w, c =>
    match inspect c.inbuf with
    | .needMore => { world := w, conn := c }
    | .headerTooLarge => { world := w, conn := c, alive := false, events := headerTooLargeEvents }
    | .badRequest req =>
      { world := w, conn := c, alive := false, events := badRequestEvents c.clientIp req }
    | .ready req need =>
      let (keep, w) := serve w req need
      -- The bytes are erased also when the connection is closed after it.
      let c := { c with inbuf := c.inbuf.drop need, requestsServed := c.requestsServed + 1 }
      if keep then
        let r := serveLoop fuel w c
        { r with servedAny := true, events := .served req need true :: r.events }
      else
        { world := w, conn := c, servedAny := true, alive := false
          events := [.served req need false, .closed] }

/-! ## Handling a readiness event -/

/-- What comes after a turn of the outer loop. -/
inductive TurnNext
  | again
  | rearm
  | closed
  deriving DecidableEq

/-- What a turn leaves, and what it did. -/
structure TurnEnd (σ : Type) where
  world : σ
  conn : Conn
  next : TurnNext
  events : List ConnEvent
  rest : List Recv

/-- A turn of the outer loop: drain, then serve. -/
def turn (w : σ) (c : Conn) (script : List Recv) : TurnEnd σ :=
  let d := drain c.inbuf script
  let c := { c with inbuf := d.inbuf }
  match d.ending with
  | .tooLarge =>
    ⟨w, c, .closed,
      [.sent (buildResponse 413 (str "Payload Too Large") (str "413 Payload Too Large\n") false),
        .closed], d.rest⟩
  | .failed => ⟨w, c, .closed, [.closed], d.rest⟩
  | .drained | .peerClosed =>
    let r := serveLoop serve (c.inbuf.length + 1) w c
    if !r.alive then ⟨r.world, r.conn, .closed, r.events, d.rest⟩
    -- After an EOF what is complete was served, and what is not is given up.
    else if d.ending = .peerClosed then
      ⟨r.world, r.conn, .closed, r.events ++ [.closed], d.rest⟩
    -- Edge-triggered: what came while a request was served is not notified again.
    else if r.servedAny then ⟨r.world, r.conn, .again, r.events, d.rest⟩
    else ⟨r.world, r.conn, .rearm, r.events, d.rest⟩

/-- What a call of `handle_ready` leaves. A connection that is not alive has been closed. -/
structure ReadyEnd (σ : Type) where
  world : σ
  conn : Conn
  alive : Bool := true
  events : List ConnEvent := []
  rest : List Recv

/-- The outer loop, and the `EPOLL_CTL_MOD` after it. Every turn but the last serves a request or
takes up an element of the script, so `fuel` above the length of the script by two is never used up.
-/
def readyLoop : ℕ → σ → Conn → List Recv → ReadyEnd σ
  | 0, w, c, script => { world := w, conn := c, rest := script }
  | fuel + 1, w, c, script =>
    let t := turn serve w c script
    match t.next with
    | .closed => ⟨t.world, t.conn, false, t.events, t.rest⟩
    | .rearm => ⟨t.world, t.conn, true, t.events ++ [.rearmed], t.rest⟩
    | .again =>
      let r := readyLoop fuel t.world t.conn t.rest
      { r with events := t.events ++ r.events }

/-- `handle_ready`, where `EPOLL_CTL_MOD` succeeds. -/
def handleReady (w : σ) (c : Conn) (script : List Recv) : ReadyEnd σ :=
  readyLoop serve (script.length + 2) w c script

/-- A connection over its readiness events: `handle_ready` is called as long as the connection is
open and the script goes on. -/
def connectionLoop : ℕ → σ → Conn → List Recv → ReadyEnd σ
  | 0, w, c, script => { world := w, conn := c, rest := script }
  | fuel + 1, w, c, script =>
    if script = [] then { world := w, conn := c, rest := [] }
    else
      let r := handleReady serve w c script
      if r.alive then
        let r' := connectionLoop fuel r.world r.conn r.rest
        { r' with events := r.events ++ r'.events }
      else r

/-- A connection from its accept to the end of the script. -/
def serveConnection (w : σ) (clientIp : Bytes) (script : List Recv) : ReadyEnd σ :=
  connectionLoop serve script.length w { clientIp := clientIp } script

end ForwardProxy
