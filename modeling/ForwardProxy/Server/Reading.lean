import ForwardProxy.Lib.Reader
import ForwardProxy.Server.Inspect

/-!
# What a connection reads

The serving loop is a reader of the buffer (`connReader`), and a connection feeds it what each drain
takes off the socket: one batch up to each `EAGAIN` (`batches`). `serveConnection_follows` says that
the requests served and the answers of the connection's own are those of the reader, for every
script without an error whose bytes fit into the buffer.
-/

namespace ForwardProxy

open Lib.Reader (Action Outcome feedAll run)

/-- A request with no more of the buffer than the bytes that it takes up. -/
def Request.trim (req : Request) (n : ℕ) : Request := { req with raw := req.raw.take n }

/-- An event as it is told apart: a request by its fields and the bytes it takes up, and whatever
else the connection does but closing and waiting. -/
def ConnEvent.call : ConnEvent → Option ConnEvent
  | .served req n keep => some (.served (req.trim n) n keep)
  | .closed => none
  | .rearmed => none
  | e => some e

/-- The calls of `serve_one_request`, and the answers of the connection's own. -/
def calls (events : List ConnEvent) : List ConnEvent := events.filterMap ConnEvent.call

/-- No events, no calls. -/
@[simp]
theorem calls_nil : calls [] = [] := rfl

/-- The calls of two parts, one after the other. -/
@[simp]
theorem calls_append (es es' : List ConnEvent) : calls (es ++ es') = calls es ++ calls es' :=
  List.filterMap_append

/-- Closing is no call. -/
@[simp]
theorem calls_closed : calls [.closed] = [] := rfl

/-- Re-arming is no call. -/
@[simp]
theorem calls_rearmed : calls [.rearmed] = [] := rfl

/-! ## Scripts -/

/-- The bytes that a client sends. -/
def scriptBytes (script : List Recv) : Bytes := script.flatMap Recv.bytes

/-- No `recv` fails, and nothing comes after an EOF. -/
def Orderly : List Recv → Prop
  | [] => True
  | .error _ :: _ => False
  | .eof :: script => script = []
  | _ :: script => Orderly script

/-- Puts bytes in front of the first batch. -/
def prepend (d : Bytes) : List Bytes → List Bytes
  | [] => [d]
  | e :: es => (d ++ e) :: es

/-- What each drain takes off the socket. -/
def batches : List Recv → List Bytes
  | [] => []
  | .data b bs :: script => prepend (b :: bs) (batches script)
  | .intr :: script => prepend [] (batches script)
  | _ :: script => [] :: batches script

/-- The batches are all that the client sends. -/
theorem flatten_batches (script : List Recv) : (batches script).flatten = scriptBytes script := by
  have hprepend : ∀ d bs, (prepend d bs).flatten = d ++ bs.flatten := by
    intro d bs
    cases bs <;> simp [prepend]
  induction script with
  | nil => rfl
  | cons e script ih => cases e <;> simp [batches, hprepend, ih, scriptBytes, Recv.bytes]

/-- A drain of a script that goes on takes up the first batch. -/
theorem drain_batches {script : List Recv} (hne : script ≠ []) (h : Orderly script) {inbuf : Bytes}
    (hlen : inbuf.length + (scriptBytes script).length ≤ maxHeaderBytes + maxBodyBytes) :
    ∃ d, (drain inbuf script).inbuf = inbuf ++ d ∧
      batches script = d :: batches (drain inbuf script).rest ∧ Orderly (drain inbuf script).rest ∧
      (drain inbuf script).rest.length < script.length ∧
      ((drain inbuf script).ending = .drained ∨
        (drain inbuf script).ending = .peerClosed ∧ (drain inbuf script).rest = []) := by
  induction script generalizing inbuf with
  | nil => exact absurd rfl hne
  | cons e script ih =>
    cases e with
    | data b bs =>
      have hlen' : (inbuf ++ b :: bs).length + (scriptBytes script).length ≤
          maxHeaderBytes + maxBodyBytes := by
        simpa [scriptBytes, Recv.bytes, Nat.add_assoc, Nat.add_comm, Nat.add_left_comm] using hlen
      -- The bytes fit, so the drain goes on, and they come first in its batch.
      rw [drain, if_neg (by omega), batches]
      cases script with
      | nil => exact ⟨b :: bs, rfl, rfl, trivial, Nat.zero_lt_one, Or.inl rfl⟩
      | cons e' script =>
        obtain ⟨d, hinbuf, hbatches, horderly, hlt, hending⟩ := ih (by simp) h hlen'
        refine ⟨b :: bs ++ d, ?_, ?_, horderly, by simpa using hlt.trans (Nat.lt_succ_self _),
          hending⟩
        · rw [hinbuf, List.append_assoc]
        · rw [hbatches, prepend]
    | intr =>
      rw [drain, batches]
      cases script with
      | nil => exact ⟨[], by simp [drain], rfl, trivial, Nat.zero_lt_one, Or.inl rfl⟩
      | cons e' script =>
        have hlen' : inbuf.length + (scriptBytes (e' :: script)).length ≤
            maxHeaderBytes + maxBodyBytes := by
          simpa [scriptBytes, Recv.bytes] using hlen
        obtain ⟨d, hinbuf, hbatches, horderly, hlt, hending⟩ := ih (by simp) h hlen'
        refine ⟨d, hinbuf, ?_, horderly, by simpa using hlt.trans (Nat.lt_succ_self _), hending⟩
        rw [hbatches, prepend, List.nil_append]
    | eof =>
      -- After an EOF nothing comes.
      rw [Orderly] at h
      subst h
      exact ⟨[], by simp [drain], rfl, trivial, Nat.zero_lt_one, Or.inr ⟨rfl, rfl⟩⟩
    | again =>
      exact ⟨[], by simp [drain], rfl, h, by simp [drain], Or.inl rfl⟩
    | error reason => exact absurd h id

/-! ## The serving loop is a reader -/

section Connection

variable {σ : Type} (serve : σ → Request → ℕ → Bool × σ) (clientIp : Bytes)

/-- What the serving loop does with its buffer. -/
def connReader (w : σ) (buf : Bytes) : Action σ ConnEvent :=
  match inspect buf with
  | .needMore => .wait
  | .headerTooLarge => .halt w (calls headerTooLargeEvents)
  | .badRequest req => .halt w (calls (badRequestEvents clientIp req))
  | .ready req need =>
    let (keep, w) := serve w req need
    if keep then .take need w [.served (req.trim need) need true]
    else .halt w [.served (req.trim need) need false]

/-- A request that is taken up has a byte at least, so the loop makes progress. -/
theorem connReader_progress :
    Lib.Reader.Progress (connReader serve clientIp) (maxHeaderBytes + maxBodyBytes) := by
  intro w buf n w' out hlen htake
  have hbuf := lt_of_le_total hlen
  unfold connReader at htake
  split at htake
  · cases htake
  · cases htake
  · cases htake
  · rename_i req need hready
    dsimp only at htake
    split at htake
    · cases htake
      exact inspect_ready_bounds hbuf hready
    · cases htake

/-- What the reader comes to is what the connection did. -/
structure Follows (o : Outcome Byte σ ConnEvent) (world : σ) (conn : Conn)
    (events : List ConnEvent) : Prop where
  out : calls events = o.out
  state : world = o.state
  rest : o.alive = true → conn.inbuf = o.rest
  client : conn.clientIp = clientIp

/-- The serving loop does what the reader does with the buffer. By induction on the fuel. -/
theorem serveLoop_follows (fuel : ℕ) (w : σ) {c : Conn} (hip : c.clientIp = clientIp) :
    Follows clientIp (run (connReader serve clientIp) fuel w c.inbuf)
        (serveLoop serve fuel w c).world
        (serveLoop serve fuel w c).conn (serveLoop serve fuel w c).events ∧
      (serveLoop serve fuel w c).alive =
        (run (connReader serve clientIp) fuel w c.inbuf).alive := by
  induction fuel generalizing w c with
  | zero => exact ⟨⟨rfl, rfl, fun _ => rfl, hip⟩, rfl⟩
  | succ fuel ih =>
    rw [serveLoop, run]
    unfold connReader
    cases inspect c.inbuf with
    | needMore => exact ⟨⟨rfl, rfl, fun _ => rfl, hip⟩, rfl⟩
    | headerTooLarge => exact ⟨⟨rfl, rfl, by simp, hip⟩, rfl⟩
    | badRequest req =>
      subst hip
      exact ⟨⟨rfl, rfl, by simp, rfl⟩, rfl⟩
    | ready req need =>
      dsimp only
      cases (serve w req need).1 with
      | false => exact ⟨⟨rfl, rfl, by simp, hip⟩, rfl⟩
      | true =>
        obtain ⟨hfollows, halive⟩ := ih (serve w req need).2
          (c := { c with inbuf := c.inbuf.drop need, requestsServed := c.requestsServed + 1 }) hip
        -- The request served is put before what the rest of the loop does.
        exact ⟨⟨congrArg (_ :: ·) hfollows.out, hfollows.state, hfollows.rest, hfollows.client⟩,
          halive⟩

/-! ## A connection feeds it -/

/-- A connection between two drains: the reader waits, and what is still to come fits. -/
structure Ready (w : σ) (c : Conn) (script : List Recv) : Prop where
  client : c.clientIp = clientIp
  waits : connReader serve clientIp w c.inbuf = .wait
  orderly : Orderly script
  fits : c.inbuf.length + (scriptBytes script).length ≤ maxHeaderBytes + maxBodyBytes

/-- From one point of a connection to another, the reader was fed the batches `bs`. A connection
that is closed has a reader that has halted, or has come to its EOF. -/
structure Goes (w : σ) (c : Conn) (script : List Recv) (bs : List Bytes) (r : ReadyEnd σ) :
    Prop where
  batches : batches script = bs ++ batches r.rest
  follows :
    Follows clientIp (feedAll (connReader serve clientIp) w c.inbuf bs) r.world r.conn r.events
  ready : r.alive = true → Ready serve clientIp r.world r.conn r.rest ∧
    (feedAll (connReader serve clientIp) w c.inbuf bs).alive = true
  closed : r.alive = false →
    (feedAll (connReader serve clientIp) w c.inbuf bs).alive = false ∨ r.rest = []

variable {serve clientIp}

/-- A call of `handle_ready` that is ready has not read anything yet. -/
theorem Ready.goes {w : σ} {c : Conn} {script : List Recv} (h : Ready serve clientIp w c script) :
    Goes serve clientIp w c script [] { world := w, conn := c, rest := script } :=
  ⟨rfl, ⟨rfl, rfl, fun _ => rfl, h.client⟩, fun _ => ⟨h, rfl⟩, by simp⟩

/-- A connection goes on from where it has got to. -/
theorem Goes.trans {w : σ} {c : Conn} {script : List Recv} {bs bs' : List Bytes} {r r' : ReadyEnd σ}
    (h : Goes serve clientIp w c script bs r) (halive : r.alive = true)
    (h' : Goes serve clientIp r.world r.conn r.rest bs' r') :
    Goes serve clientIp w c script (bs ++ bs') { r' with events := r.events ++ r'.events } := by
  have hfed := (h.ready halive).2
  have hfeed : feedAll (connReader serve clientIp) w c.inbuf (bs ++ bs') =
      (feedAll (connReader serve clientIp) r.world r.conn.inbuf bs').after (calls r.events) := by
    rw [Lib.Reader.feedAll_append, Outcome.andThen, if_pos hfed, h.follows.rest hfed,
      h.follows.state, h.follows.out]
  refine ⟨?_, ?_, ?_, ?_⟩
  · rw [h.batches, h'.batches, List.append_assoc]
  · rw [hfeed]
    refine ⟨?_, h'.follows.state, h'.follows.rest, h'.follows.client⟩
    rw [calls_append, h'.follows.out]
    rfl
  · rw [hfeed]
    exact h'.ready
  · rw [hfeed]
    exact h'.closed

/-- What a turn of the outer loop does once the socket is drained. -/
theorem turn_drained (w : σ) {c : Conn} {script : List Recv}
    (hending : (drain c.inbuf script).ending = .drained ∨
      (drain c.inbuf script).ending = .peerClosed) :
    let r := serveLoop serve ((drain c.inbuf script).inbuf.length + 1) w
      { c with inbuf := (drain c.inbuf script).inbuf }
    let t := turn serve w c script
    t.world = r.world ∧ t.conn = r.conn ∧ calls t.events = calls r.events ∧
      t.rest = (drain c.inbuf script).rest ∧ (t.next ≠ .closed → r.alive = true) ∧
      (t.next = .closed → r.alive = false ∨ (drain c.inbuf script).ending = .peerClosed) := by
  intro r t
  have hturn : t = if !r.alive then
      ⟨r.world, r.conn, .closed, r.events, (drain c.inbuf script).rest⟩
      else if (drain c.inbuf script).ending = .peerClosed then
        ⟨r.world, r.conn, .closed, r.events ++ [.closed], (drain c.inbuf script).rest⟩
      else if r.servedAny then ⟨r.world, r.conn, .again, r.events, (drain c.inbuf script).rest⟩
      else ⟨r.world, r.conn, .rearm, r.events, (drain c.inbuf script).rest⟩ := by
    rcases hending with h | h
    · simp only [t, turn, h, r]
    · simp only [t, turn, h, r]
  rw [hturn]
  split
  · rename_i hdead
    rw [Bool.not_eq_true'] at hdead
    exact ⟨rfl, rfl, rfl, rfl, fun h => absurd rfl h, fun _ => Or.inl hdead⟩
  · rename_i halive
    rw [Bool.not_eq_true', Bool.not_eq_false] at halive
    split
    · rename_i hclosed
      exact ⟨rfl, rfl, by simp, rfl, fun _ => halive, fun _ => Or.inr hclosed⟩
    · split
      · exact ⟨rfl, rfl, rfl, rfl, fun _ => halive, by simp⟩
      · exact ⟨rfl, rfl, rfl, rfl, fun _ => halive, by simp⟩

/-- The batch that the drain of a turn takes up, where there is one. -/
theorem Ready.drain {w : σ} {c : Conn} {script : List Recv} (h : Ready serve clientIp w c script) :
    ∃ bs, batches script = bs ++ batches (drain c.inbuf script).rest ∧
      feedAll (connReader serve clientIp) w c.inbuf bs =
        Lib.Reader.read (connReader serve clientIp) w (drain c.inbuf script).inbuf ∧
      Orderly (drain c.inbuf script).rest ∧
      (drain c.inbuf script).rest.length ≤ script.length ∧
      (script ≠ [] → (drain c.inbuf script).rest.length < script.length) ∧
      ((drain c.inbuf script).ending = .drained ∨
        (drain c.inbuf script).ending = .peerClosed ∧ (drain c.inbuf script).rest = []) ∧
      (drain c.inbuf script).inbuf.length + (scriptBytes (drain c.inbuf script).rest).length ≤
        maxHeaderBytes + maxBodyBytes := by
  cases script with
  | nil =>
    exact ⟨[], rfl, (Lib.Reader.read_wait h.waits).symm, trivial, le_refl _, by simp, Or.inl rfl,
      h.fits⟩
  | cons e script =>
    obtain ⟨d, hinbuf, hbatches, horderly, hlt, hending⟩ := drain_batches (by simp) h.orderly h.fits
    refine ⟨[d], hbatches, ?_, horderly, hlt.le, fun _ => hlt, hending, ?_⟩
    · rw [Lib.Reader.feedAll_singleton, hinbuf]
    · have hfits := h.fits
      rw [← flatten_batches (e :: script), hbatches, List.flatten_cons, flatten_batches,
        List.length_append] at hfits
      rw [hinbuf, List.length_append]
      omega

/-- A turn of the outer loop feeds a batch, where there is one. -/
theorem turn_goes {w : σ} {c : Conn} {script : List Recv} (h : Ready serve clientIp w c script) :
    ∃ bs, Goes serve clientIp w c script bs {
        world := (turn serve w c script).world
        conn := (turn serve w c script).conn
        alive := decide ((turn serve w c script).next ≠ .closed)
        events := (turn serve w c script).events
        rest := (turn serve w c script).rest } ∧
      (turn serve w c script).rest.length ≤ script.length ∧
      (script ≠ [] → (turn serve w c script).rest.length < script.length) := by
  obtain ⟨bs, hbatches, hfeed, horderly, hle, hlt, hending, hfits⟩ := h.drain
  obtain ⟨hworld, hconn, hevents, hrest, hopen, hclosed⟩ :=
    turn_drained w (hending.imp id And.left)
  obtain ⟨hfollows, halive⟩ := serveLoop_follows serve clientIp
    ((drain c.inbuf script).inbuf.length + 1) w
    (c := { c with inbuf := (drain c.inbuf script).inbuf })
    h.client
  rw [halive] at hopen hclosed
  rw [← hworld, ← hconn] at hfollows
  change Follows _ (Lib.Reader.read _ _ _) _ _ _ at hfollows
  change _ → (Lib.Reader.read _ _ _).alive = true at hopen
  change _ → (Lib.Reader.read _ _ _).alive = false ∨ _ at hclosed
  have hlen : (drain c.inbuf script).inbuf.length ≤ maxHeaderBytes + maxBodyBytes := by omega
  have hsettled :
      (Lib.Reader.read (connReader serve clientIp) w (drain c.inbuf script).inbuf).alive =
      true → _ := Lib.Reader.read_settled (connReader_progress serve clientIp) hlen
  rw [← hfeed] at hfollows hopen hclosed hsettled
  rw [hrest]
  refine ⟨bs, ⟨hbatches, ⟨?_, hfollows.state, hfollows.rest, hfollows.client⟩, ?_, ?_⟩, hle, hlt⟩
  · exact hevents.trans hfollows.out
  · intro hnext
    have hfed := hopen (of_decide_eq_true hnext)
    obtain ⟨hwaits, hlen⟩ := hsettled hfed
    have hinbuf := hfollows.rest hfed
    refine ⟨⟨hfollows.client, ?_, horderly, ?_⟩, hfed⟩
    -- What the serving loop leaves waits for more, so the next drain finds the connection so.
    · rw [hinbuf, hfollows.state]
      exact hwaits
    · rw [hinbuf]
      exact (Nat.add_le_add_right hlen _).trans hfits
  · intro hnext
    have hnext := of_not_not (of_decide_eq_false hnext)
    rcases hclosed hnext with hdead | hpeer
    · exact Or.inl hdead
    · rcases hending with hdrained | ⟨-, hnil⟩
      · rw [hdrained] at hpeer
        cases hpeer
      · exact Or.inr hnil

/-- A call of `handle_ready` reads some batches, and does what the reader does with them. By
induction on the turns. -/
theorem readyLoop_goes (fuel : ℕ) {w : σ} {c : Conn} {script : List Recv}
    (h : Ready serve clientIp w c script) :
    ∃ bs, Goes serve clientIp w c script bs (readyLoop serve fuel w c script) ∧
      (readyLoop serve fuel w c script).rest.length ≤ script.length ∧
      (0 < fuel → script ≠ [] → (readyLoop serve fuel w c script).rest.length < script.length) := by
  induction fuel generalizing w c script with
  | zero => exact ⟨[], h.goes, le_refl _, by simp⟩
  | succ fuel ih =>
    obtain ⟨bs, hgoes, hle, hlt⟩ := turn_goes h
    rw [readyLoop]
    dsimp only
    split
    · rename_i hnext
      rw [hnext] at hgoes
      exact ⟨bs, hgoes, hle, fun _ => hlt⟩
    · rename_i hnext
      rw [hnext] at hgoes
      refine ⟨bs, ⟨hgoes.batches,
        ⟨?_, hgoes.follows.state, hgoes.follows.rest, hgoes.follows.client⟩,
        hgoes.ready, hgoes.closed⟩, hle, fun _ => hlt⟩
      rw [calls_append, calls_rearmed, List.append_nil]
      exact hgoes.follows.out
    · rename_i hnext
      rw [hnext] at hgoes
      obtain ⟨bs', hgoes', hle', -⟩ := ih (hgoes.ready rfl).1
      exact ⟨bs ++ bs', hgoes.trans rfl hgoes', hle'.trans hle,
        fun _ hne => hle'.trans_lt (hlt hne)⟩

/-- A connection does what the reader does with its batches. By induction on the times that it is
reported readable. -/
theorem connectionLoop_follows (fuel : ℕ) {w : σ} {c : Conn} {script : List Recv}
    (h : Ready serve clientIp w c script) (hfuel : script.length ≤ fuel) :
    Follows clientIp (feedAll (connReader serve clientIp) w c.inbuf (batches script))
      (connectionLoop serve fuel w c script).world (connectionLoop serve fuel w c script).conn
      (connectionLoop serve fuel w c script).events := by
  induction fuel generalizing w c script with
  | zero =>
    rw [List.length_eq_zero_iff.mp (Nat.le_zero.mp hfuel)]
    exact h.goes.follows
  | succ fuel ih =>
    rw [connectionLoop]
    split
    · rename_i hnil
      subst hnil
      exact h.goes.follows
    · rename_i hne
      obtain ⟨bs, hgoes, -, hlt⟩ := readyLoop_goes (script.length + 2) h
      have hlt := hlt (by omega) hne
      change Goes _ _ _ _ _ _ (handleReady serve w c script) at hgoes
      change (handleReady serve w c script).rest.length < _ at hlt
      rw [hgoes.batches, Lib.Reader.feedAll_append]
      dsimp only
      split
      · rename_i halive
        obtain ⟨hready, hfed⟩ := hgoes.ready halive
        have hrest := ih hready (by omega)
        rw [Outcome.andThen, if_pos hfed, ← hgoes.follows.rest hfed, ← hgoes.follows.state,
          ← hgoes.follows.out]
        refine ⟨?_, hrest.state, hrest.rest, hrest.client⟩
        rw [calls_append, hrest.out]
        rfl
      · rename_i hdead
        rw [Bool.not_eq_true] at hdead
        -- A reader that has halted takes no more, and after an EOF there is no more.
        have hsame : ((feedAll (connReader serve clientIp) w c.inbuf bs).andThen fun s rest =>
            feedAll (connReader serve clientIp) s rest
              (batches (handleReady serve w c script).rest)) =
            feedAll (connReader serve clientIp) w c.inbuf bs := by
          unfold Outcome.andThen
          split
          · rename_i hfed
            have hnil := (hgoes.closed hdead).resolve_left (by simp [hfed])
            rw [hnil]
            simp [batches, feedAll, Outcome.after, ← hfed]
          · rfl
        rw [hsame]
        exact hgoes.follows

/-- A connection does what its reader does with the batches that its drains take up. -/
theorem serveConnection_follows (w : σ) {script : List Recv} (h : Orderly script)
    (hlen : (scriptBytes script).length ≤ maxHeaderBytes + maxBodyBytes) :
    Follows clientIp (feedAll (connReader serve clientIp) w [] (batches script))
      (serveConnection serve w clientIp script).world (serveConnection serve w clientIp script).conn
      (serveConnection serve w clientIp script).events :=
  connectionLoop_follows script.length
    (c := { clientIp := clientIp }) ⟨rfl, rfl, h, by simpa using hlen⟩ le_rfl

end Connection

end ForwardProxy
