import Mathlib.Data.List.Nodup
import ForwardProxy.Server.Exits
import ForwardProxy.Server.TaskQueue

/-!
# The event loop

`main` of `server_phase5.cpp` up to `stop`, with its workers and the kernel: the accept loop, the
batch of events, `push` and `pop`, `handle_ready` event by event, and `close_conn` in its four
steps. The `k`-th socket that was accepted and the `Conn` that is made for it are both called `k`,
so that neither is taken for a later one with the same descriptor or address. No step asks whether
the `Conn` that it goes by is live: what a deleted one holds may be anything.
-/

namespace ForwardProxy

open Lib.Transition

variable {W : Type}

/-- A `Conn`, with its descriptor. -/
structure Client where
  fd : ℕ
  conn : Conn

/-! ## Where the threads are -/

/-- Where the main thread is with a connection that it has accepted. -/
inductive AcceptPc
  | accepted
  | created
  | counted
  /-- `EPOLL_CTL_ADD` failed. -/
  | refused
  | shut
  | uncounted
  deriving DecidableEq

/-- The main thread is at the next event of the batch, which is `epoll_wait` where there is none, or
in the accept loop. -/
inductive Main
  | dispatching
  | accepting
  | setup (pc : AcceptPc) (k fd : ℕ)

/-- Where a worker is in `handle_ready`, or in `close_conn` inside of it. -/
inductive HandlerPc
  | running
  | deregistered
  | shut
  | uncounted
  deriving DecidableEq

/-- A worker in `handle_ready` has a connection, what it is still to do with it, and what the buffer
will be after it. -/
inductive Handler
  | idle
  | called (k : ℕ)
  | inCall (pc : HandlerPc) (k : ℕ) (todo : List ConnEvent) (final : Conn)

/-! ## The kernel -/

/-- A socket in the interest list of epoll. With `EPOLLONESHOT` a delivery disarms it. -/
inductive Registration
  | armed (ptr : ℕ)
  | disarmed
  deriving DecidableEq

/-- The server: the pool, what each thread is about, the live `Conn`s, the sockets and their
registrations as the kernel has them, and the counters of connections. -/
structure Server (W : Type) where
  pool : PoolState W Unit ℕ := {}
  main : Main := .dispatching
  handlers : W → Handler := fun _ => .idle
  /-- The `data.ptr` of the events that `epoll_wait` returned and that are not yet dispatched. The
  listener has the null pointer. -/
  batch : List (Option ℕ) := []
  /-- The number of sockets accepted so far. -/
  accepted : ℕ := 0
  heap : ℕ → Option Client := fun _ => none
  /-- The descriptor of a socket, as long as it is open. -/
  table : ℕ → Option ℕ := fun _ => none
  epoll : ℕ → Option Registration := fun _ => none
  activeConnections : UInt64 := 0
  totalConnections : UInt64 := 0
  peakConnections : UInt64 := 0

namespace Server

/-- `epoll_ctl` on a descriptor: the registration of the socket that it designates. -/
def register (s : Server W) (fd : ℕ) (r : Option Registration) : Server W :=
  { s with epoll := fun i => if s.table i = some fd then r else s.epoll i }

/-- `close`: the socket that the descriptor designates is closed, and leaves the interest list. -/
def close (s : Server W) (fd : ℕ) : Server W :=
  { s with
    table := fun i => if s.table i = some fd then none else s.table i
    epoll := fun i => if s.table i = some fd then none else s.epoll i }

/-- The pointer that a socket is armed with. -/
def armedPtr (s : Server W) (i : ℕ) : Option ℕ :=
  match s.epoll i with
  | some (.armed ptr) => some ptr
  | _ => none

/-- `data.ptr` of an event of the listener or of a socket. -/
def tag (s : Server W) : Option ℕ → Option ℕ
  | none => none
  | some i => s.armedPtr i

/-- The main thread is at `pc`, and in no call of `push`. -/
def MainAt (s : Server W) (main : Main) : Prop := s.main = main ∧ s.pool.callers () = .idle

end Server

/-! ## Steps -/

/-- What is done by the main thread (`none`) or a worker carries the connection that it is about. -/
inductive ServerEvent (W : Type)
  | wait (batch : List (Option ℕ))
  | listener
  | accept (k fd : ℕ)
  | acceptEnds
  | create (k : ℕ)
  | countUp (k : ℕ)
  | add (k : ℕ) (ok : Bool)
  | push (k : ℕ)
  | pool
  | pop (w : W) (k : ℕ)
  | begin (w : W) (k : ℕ)
  | act (w : W) (k : ℕ) (e : ConnEvent)
  | deregister (w : W) (k : ℕ)
  | close (who : Option W) (k fd : ℕ)
  | uncount (who : Option W) (k : ℕ)
  | delete (who : Option W) (k : ℕ)
  | rearm (w : W) (k : ℕ) (ok : Bool)
  | finish (w : W)

/-- Events of the pool that move no task. -/
def PoolEvent.Silent {C τ : Type} : PoolEvent W C τ → Prop
  | .notifyOne _ | .wake _ | .block _ => True
  | _ => False

variable [DecidableEq W]

namespace Server

/-- The server with one worker at something else. -/
def setHandler (s : Server W) (w : W) (handler : Handler) : Server W :=
  { s with handlers := Function.update s.handlers w handler }

/-- The server with one `Conn` set or deleted. -/
def setHeap (s : Server W) (k : ℕ) (c : Option Client) : Server W :=
  { s with heap := Function.update s.heap k c }

/-- What a thread or the kernel does in one step. -/
inductive Step : Server W → ServerEvent W → Server W → Prop
  /-- `epoll_wait` reports sockets that are armed, each once, and disarms them. -/
  | wait {s : Server W} {sources : List (Option ℕ)} (hmain : s.MainAt .dispatching)
      (hbatch : s.batch = []) (hlen : sources.length ≤ 1024) (hnodup : sources.Nodup)
      (harmed : ∀ i, some i ∈ sources → (s.armedPtr i).isSome) :
      Step s (.wait (sources.map s.tag)) { s with
        batch := sources.map s.tag
        epoll := fun i => if some i ∈ sources then some .disarmed else s.epoll i }
  | listener {s : Server W} {rest : List (Option ℕ)} (hmain : s.MainAt .dispatching)
      (hbatch : s.batch = none :: rest) :
      Step s .listener { s with main := .accepting, batch := rest }
  /-- The descriptor is one that is not in use. -/
  | accept {s : Server W} {fd : ℕ} (hmain : s.MainAt .accepting)
      (hfd : ∀ i, s.table i ≠ some fd) :
      Step s (.accept s.accepted fd) { s with
        main := .setup .accepted s.accepted fd
        accepted := s.accepted + 1
        table := Function.update s.table s.accepted (some fd) }
  | acceptEnds {s : Server W} (hmain : s.MainAt .accepting) :
      Step s .acceptEnds { s with main := .dispatching }
  /-- `set_nonblocking` failed. -/
  | blocking {s : Server W} {k fd : ℕ} (hmain : s.MainAt (.setup .accepted k fd)) :
      Step s (.close none k fd) { s.close fd with main := .accepting }
  | create {s : Server W} {k fd : ℕ} (clientIp : Bytes)
      (hmain : s.MainAt (.setup .accepted k fd)) :
      Step s (.create k)
        { s.setHeap k (some ⟨fd, { clientIp := clientIp }⟩) with main := .setup .created k fd }
  /-- Only the main thread writes the total and the peak. -/
  | countUp {s : Server W} {k fd : ℕ} (hmain : s.MainAt (.setup .created k fd)) :
      Step s (.countUp k) { s with
        main := .setup .counted k fd
        activeConnections := s.activeConnections + 1
        totalConnections := s.totalConnections + 1
        peakConnections :=
          if s.peakConnections < s.activeConnections + 1 then s.activeConnections + 1
          else s.peakConnections }
  | add {s : Server W} {k fd : ℕ} (hmain : s.MainAt (.setup .counted k fd)) :
      Step s (.add k true) { s.register fd (some (.armed k)) with main := .accepting }
  | addFails {s : Server W} {k fd : ℕ} (hmain : s.MainAt (.setup .counted k fd)) :
      Step s (.add k false) { s.register fd none with main := .setup .refused k fd }
  | refuse {s : Server W} {k fd : ℕ} (hmain : s.MainAt (.setup .refused k fd)) :
      Step s (.close none k fd) { s.close fd with main := .setup .shut k fd }
  | uncountRefused {s : Server W} {k fd : ℕ} (hmain : s.MainAt (.setup .shut k fd)) :
      Step s (.uncount none k) { s with
        main := .setup .uncounted k fd
        activeConnections := s.activeConnections - 1 }
  | deleteRefused {s : Server W} {k fd : ℕ} (hmain : s.MainAt (.setup .uncounted k fd)) :
      Step s (.delete none k) { s.setHeap k none with main := .accepting }
  | push {s : Server W} {k : ℕ} {rest : List (Option ℕ)} {ok : Bool} {pool : PoolState W Unit ℕ}
      (hmain : s.MainAt .dispatching) (hbatch : s.batch = some k :: rest)
      (hpool : PoolState.Step s.pool (.push () k ok) pool) :
      Step s (.push k) { s with pool := pool, batch := rest }
  | pool {s : Server W} {e : PoolEvent W Unit ℕ} {pool : PoolState W Unit ℕ} (he : e.Silent)
      (hpool : PoolState.Step s.pool e pool) : Step s .pool { s with pool := pool }
  | pop {s : Server W} {w : W} {k : ℕ} {pool : PoolState W Unit ℕ} (hw : s.handlers w = .idle)
      (hpool : PoolState.Step s.pool (.pop w (some k)) pool) :
      Step s (.pop w k) ({ s with pool := pool }.setHandler w (.called k))
  /-- What `recv` will return in this call, and how requests will be served, may be anything. -/
  | begin {s : Server W} {w : W} {k : ℕ} {conn : Conn} {σ : Type}
      (serve : σ → Request → ℕ → Bool × σ) (world : σ) (script : List Recv)
      (hw : s.handlers w = .called k) (hconn : ∀ c, s.heap k = some c → c.conn = conn) :
      Step s (.begin w k) (s.setHandler w (.inCall .running k
        (handleReady serve world conn script).events (handleReady serve world conn script).conn))
  | act {s : Server W} {w : W} {k : ℕ} {e : ConnEvent} {todo : List ConnEvent} {final : Conn}
      (hw : s.handlers w = .inCall .running k (e :: todo) final) (hclosed : e ≠ .closed)
      (hrearmed : e ≠ .rearmed) :
      Step s (.act w k e) (s.setHandler w (.inCall .running k todo final))
  | deregister {s : Server W} {w : W} {k fd : ℕ} {todo : List ConnEvent} {final : Conn}
      (hw : s.handlers w = .inCall .running k (.closed :: todo) final)
      (hfd : ∀ c, s.heap k = some c → c.fd = fd) :
      Step s (.deregister w k)
        ((s.register fd none).setHandler w (.inCall .deregistered k todo final))
  | close {s : Server W} {w : W} {k fd : ℕ} {todo : List ConnEvent} {final : Conn}
      (hw : s.handlers w = .inCall .deregistered k todo final)
      (hfd : ∀ c, s.heap k = some c → c.fd = fd) :
      Step s (.close (some w) k fd) ((s.close fd).setHandler w (.inCall .shut k todo final))
  | uncount {s : Server W} {w : W} {k : ℕ} {todo : List ConnEvent} {final : Conn}
      (hw : s.handlers w = .inCall .shut k todo final) :
      Step s (.uncount (some w) k)
        ({ s with activeConnections := s.activeConnections - 1 }.setHandler w
          (.inCall .uncounted k todo final))
  | delete {s : Server W} {w : W} {k : ℕ} {todo : List ConnEvent} {final : Conn}
      (hw : s.handlers w = .inCall .uncounted k todo final) :
      Step s (.delete (some w) k)
        ((s.setHeap k none).setHandler w (.inCall .running k todo final))
  /-- The buffer is written before `EPOLL_CTL_MOD`, and the worker has no more to do with the
  connection after it. -/
  | rearm {s : Server W} {w : W} {k fd : ℕ} {todo : List ConnEvent} {final : Conn}
      (hw : s.handlers w = .inCall .running k (.rearmed :: todo) final)
      (hfd : ∀ c, s.heap k = some c → c.fd = fd) :
      Step s (.rearm w k true)
        (((s.register fd (some (.armed k))).setHeap k
          ((s.heap k).map fun c => { c with conn := final })).setHandler w
            (.inCall .running k todo final))
  | rearmFails {s : Server W} {w : W} {k fd : ℕ} {todo : List ConnEvent} {final : Conn}
      (hw : s.handlers w = .inCall .running k (.rearmed :: todo) final)
      (hfd : ∀ c, s.heap k = some c → c.fd = fd) :
      Step s (.rearm w k false)
        ((s.register fd none).setHandler w (.inCall .running k (.closed :: todo) final))
  | finish {s : Server W} {w : W} {k : ℕ} {final : Conn} {pool : PoolState W Unit ℕ}
      (hw : s.handlers w = .inCall .running k [] final)
      (hpool : PoolState.Step s.pool (.finish w) pool) :
      Step s (.finish w) ({ s with pool := pool }.setHandler w .idle)

end Server

/-- The server from its first `epoll_wait` on, up to `stop`. -/
def serverSystem (W : Type) [DecidableEq W] : System (Server W) (ServerEvent W) where
  init := {}
  step := Server.Step

end ForwardProxy
