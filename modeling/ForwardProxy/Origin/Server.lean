import ForwardProxy.Server.Reading
import ForwardProxy.Server.StartLine

/-!
# The origin server

`origin_server.cpp`, the upstream of the benchmarks. A call of `handle` drains the socket, and
answers every head in the buffer: the serving loop is a reader (`serve`). However a stream is cut
into segments and readiness events, each head is answered in its order, up to the first after which
the connection is closed (`connection_heads`). The body of a response starts with the path that it
is for, so that a response replayed for another path is told apart, where the body has room for it
(`response_eq_iff`).
-/

namespace ForwardProxy.Origin

open Lib.Reader (Action Outcome)

/-- `g_body_size` and `g_keep_alive`. -/
structure Settings where
  bodySize : ℕ := 512
  keepAlive : Bool := true

/-! ## One response -/

/-- The request-target of a head, which only the body depends on. -/
def path (head : Bytes) : Bytes := (betweenSpaces head).getD (str "/")

/-- The head asks for the connection to be closed. -/
def clientWantsClose (head : Bytes) : Bool := contains (toLower head) (str "connection: close")

/-- The text of a body before it is brought to its size. -/
def bodyText (path : Bytes) : Bytes := str "origin-response path=" ++ path ++ str " "

/-- The text, filled up with `x` or cut to `g_body_size` bytes. -/
def body (cfg : Settings) (path : Bytes) : Bytes :=
  let text := bodyText path
  (text ++ List.replicate (cfg.bodySize - text.length) 120).take cfg.bodySize

/-- The response to a head for `path`. -/
def response (cfg : Settings) (path : Bytes) (keep : Bool) : Bytes :=
  str "HTTP/1.1 200 OK\r\n" ++
  str "Content-Type: text/plain\r\n" ++
  str "Content-Length: " ++ decimal (body cfg path).length ++ str "\r\n" ++
  str "Cache-Control: max-age=60\r\n" ++
  str "Connection: " ++ str (if keep then "keep-alive" else "close") ++ str "\r\n" ++
  str "\r\n" ++ body cfg path

/-! ## A connection -/

section Connection

variable (cfg : Settings) (sends : ℕ → Bool)

/-- Whether the connection stays open after a head. -/
def keeps (head : Bytes) : Bool := cfg.keepAlive && !clientWantsClose head

/-- The serving loop, as a reader that counts the responses. `client_wants_close` outlives a head
only where the connection does not. -/
def serve (n : ℕ) (inbuf : Bytes) : Action ℕ Bytes :=
  match find inbuf [CR, LF, CR, LF] with
  | none => .wait
  | some hend =>
    let head := inbuf.take hend
    let keep := keeps cfg head
    let resp := response cfg (path head) keep
    if !sends n then .halt (n + 1) [resp]
    else if !keep then .halt (n + 1) [resp]
    else .take (hend + 4) (n + 1) [resp]

/-- The drain loop, which has no limit. -/
def drain (inbuf : Bytes) : List Recv → Drained
  | [] => ⟨inbuf, .drained, []⟩
  | .data b bs :: script => drain (inbuf ++ b :: bs) script
  | .eof :: script => ⟨inbuf, .peerClosed, script⟩
  | .intr :: script => drain inbuf script
  | .again :: script => ⟨inbuf, .drained, script⟩
  | .error _ :: script => ⟨inbuf, .failed, script⟩

/-- A call of `handle`, where `EPOLL_CTL_MOD` succeeds: the responses handed to `send_all`, and
whether the connection is still there. -/
def handle (n : ℕ) (inbuf : Bytes) (script : List Recv) : Outcome Byte ℕ Bytes × List Recv :=
  let d := drain inbuf script
  match d.ending with
  -- An error closes the connection with what is in the buffer unanswered.
  | .failed => (⟨[], n, [], false⟩, d.rest)
  | .peerClosed =>
    let r := Lib.Reader.read (serve cfg sends) n d.inbuf
    ({ r with rest := [], alive := false }, d.rest)
  | _ => (Lib.Reader.read (serve cfg sends) n d.inbuf, d.rest)

/-- `handle` is called as long as the connection is open and the script goes on. Each call takes up
an element of it. -/
def connectionLoop : ℕ → ℕ → Bytes → List Recv → List Bytes
  | 0, _, _, _ => []
  | fuel + 1, n, inbuf, script =>
    if script = [] then []
    else
      let (r, script) := handle cfg sends n inbuf script
      if r.alive then r.out ++ connectionLoop fuel r.state r.rest script else r.out

/-- The responses on a connection from its accept to the end of the script. -/
def connection (script : List Recv) : List Bytes :=
  connectionLoop cfg sends script.length 0 [] script

end Connection

/-! ## How the bytes of a client are cut -/

section Cuts

variable {cfg : Settings} {sends : ℕ → Bool}

/-- Without the end of a head in it, the buffer waits for more. -/
theorem serve_wait {n : ℕ} {inbuf : Bytes} (h : find inbuf [CR, LF, CR, LF] = none) :
    serve cfg sends n inbuf = .wait := by
  unfold serve
  rw [h]

/-- Every head that is answered is taken off the buffer, so the loop makes progress. -/
theorem serve_progress (limit : ℕ) : Lib.Reader.Progress (serve cfg sends) limit := by
  intro n buf taken n' out _ htake
  unfold serve at htake
  cases hfind : find buf [CR, LF, CR, LF] with
  | none =>
    rw [hfind] at htake
    cases htake
  | some hend =>
    rw [hfind] at htake
    dsimp only at htake
    have hle := (Lib.Search.find_occursAt hfind).end_le (by simp)
    simp only [List.length_cons, List.length_nil] at hle
    split at htake
    · cases htake
    · split at htake
      · cases htake
      · cases htake
        exact ⟨by omega, hle⟩

/-- More bytes never change what is made of those that are there. -/
theorem serve_stable (n : ℕ) (stream : Bytes) :
    Lib.Reader.Stable (serve cfg sends) n stream := by
  rintro n' t - buf more rfl
  unfold serve
  cases hfind : find buf [CR, LF, CR, LF] with
  | none => exact Or.inl rfl
  | some hend =>
    have hle := (Lib.Search.find_occursAt hfind).end_le (by simp)
    simp only [List.length_cons, List.length_nil] at hle
    have hmore : find (buf ++ more) [CR, LF, CR, LF] = some hend :=
      Lib.Search.find_append (by simp) hfind more
    rw [hmore]
    dsimp only
    rw [List.take_append_of_le_length (by omega)]
    exact Or.inr rfl

/-- A drain of a script that goes on takes up the bytes of a part of it. -/
theorem drain_cases {script : List Recv} (hne : script ≠ []) (h : Orderly script)
    (inbuf : Bytes) :
    ∃ d, (drain inbuf script).inbuf = inbuf ++ d ∧
      scriptBytes script = d ++ scriptBytes (drain inbuf script).rest ∧
      Orderly (drain inbuf script).rest ∧
      (drain inbuf script).rest.length < script.length ∧
      ((drain inbuf script).ending = .drained ∨
        (drain inbuf script).ending = .peerClosed ∧ (drain inbuf script).rest = []) := by
  induction script generalizing inbuf with
  | nil => exact absurd rfl hne
  | cons e script ih =>
    cases e with
    | data b bs =>
      rw [drain]
      cases script with
      | nil => exact ⟨b :: bs, rfl, rfl, trivial, Nat.zero_lt_one, Or.inl rfl⟩
      | cons e' script =>
        obtain ⟨d, hinbuf, hbytes, horderly, hlt, hending⟩ := ih (by simp) h (inbuf ++ b :: bs)
        refine ⟨b :: bs ++ d, ?_, ?_, horderly, by simpa using hlt.trans (Nat.lt_succ_self _),
          hending⟩
        · rw [hinbuf, List.append_assoc]
        · rw [List.append_assoc, ← hbytes]
          rfl
    | intr =>
      rw [drain]
      cases script with
      | nil => exact ⟨[], by simp [drain], rfl, trivial, Nat.zero_lt_one, Or.inl rfl⟩
      | cons e' script =>
        obtain ⟨d, hinbuf, hbytes, horderly, hlt, hending⟩ := ih (by simp) h inbuf
        refine ⟨d, hinbuf, ?_, horderly, by simpa using hlt.trans (Nat.lt_succ_self _), hending⟩
        rw [← hbytes]
        rfl
    | eof =>
      -- After an EOF nothing comes.
      rw [Orderly] at h
      subst h
      exact ⟨[], by simp [drain], rfl, trivial, Nat.zero_lt_one, Or.inr ⟨rfl, rfl⟩⟩
    | again => exact ⟨[], by simp [drain], rfl, h, by simp [drain], Or.inl rfl⟩
    | error reason => exact absurd h id

/-- The responses are those of all the bytes read at once. -/
theorem connectionLoop_eq_read {fuel n : ℕ} {inbuf : Bytes} {script : List Recv}
    (hfuel : script.length ≤ fuel) (horderly : Orderly script)
    (hwait : serve cfg sends n inbuf = .wait) :
    connectionLoop cfg sends fuel n inbuf script =
      (Lib.Reader.read (serve cfg sends) n (inbuf ++ scriptBytes script)).out := by
  induction fuel generalizing n inbuf script with
  | zero =>
    obtain rfl := List.length_eq_zero_iff.mp (Nat.le_zero.mp hfuel)
    rw [show scriptBytes [] = [] from rfl, List.append_nil, Lib.Reader.read_wait hwait]
    rfl
  | succ fuel ih =>
    rw [connectionLoop]
    by_cases hnil : script = []
    · subst hnil
      rw [show scriptBytes [] = [] from rfl, List.append_nil, Lib.Reader.read_wait hwait]
      rfl
    -- A call reads what has come, and what it makes of that is what the reader makes of a first
    -- part.
    · obtain ⟨d, hinbuf, hbytes, hrest, hlt, hending⟩ := drain_cases hnil horderly inbuf
      have hstable : Lib.Reader.Stable (serve cfg sends) n
          (inbuf ++ d ++ scriptBytes (drain inbuf script).rest) := serve_stable n _
      obtain ⟨happend, -⟩ := Lib.Reader.read_append (serve_progress _) (le_refl _) hstable
      rw [if_neg hnil, hbytes, ← List.append_assoc, ← happend]
      unfold Outcome.andThen
      rcases hending with hending | ⟨hending, hdone⟩
      · have hhandle : handle cfg sends n inbuf script =
            (Lib.Reader.read (serve cfg sends) n (inbuf ++ d), (drain inbuf script).rest) := by
          simp only [handle, hending, hinbuf]
        rw [hhandle]
        dsimp only
        split
        · rename_i halive
          have hsettled := Lib.Reader.read_settled (serve_progress _) (le_refl _) halive
          exact congrArg (_ ++ ·) (ih (by omega) hrest hsettled.1)
        · rfl
      · -- What came with the EOF is answered, and nothing comes after it.
        have hhandle : handle cfg sends n inbuf script =
            ({ Lib.Reader.read (serve cfg sends) n (inbuf ++ d) with rest := [], alive := false },
              (drain inbuf script).rest) := by
          simp only [handle, hending, hinbuf]
        rw [hhandle, hdone, show scriptBytes [] = [] from rfl]
        dsimp only
        rw [if_neg (by decide)]
        split
        · rename_i halive
          have hsettled := Lib.Reader.read_settled (serve_progress _) (le_refl _) halive
          rw [List.append_nil, Lib.Reader.read_wait hsettled.1]
          exact (List.append_nil _).symm
        · rfl

end Cuts

/-! ## The heads of a stream -/

/-- The text of a head, which the first `CR LF CR LF` ends. -/
structure HeadText where
  text : Bytes
  first : find (text ++ [CR, LF, CR, LF]) [CR, LF, CR, LF] = some text.length

namespace HeadText

/-- The head as it is sent. -/
def encode (head : HeadText) : Bytes := head.text ++ [CR, LF, CR, LF]

/-- The end of a head is where its text is. -/
theorem find_encode (head : HeadText) (rest : Bytes) :
    find (head.encode ++ rest) [CR, LF, CR, LF] = some head.text.length :=
  Lib.Search.find_append (by simp) head.first rest

end HeadText

variable (cfg : Settings) (sends : ℕ → Bool)

/-- The response to each head, up to the first that is not kept open or not sent. -/
def answers : ℕ → List HeadText → List Bytes
  | _, [] => []
  | n, head :: heads =>
    response cfg (path head.text) (keeps cfg head.text) ::
      if sends n && keeps cfg head.text then answers (n + 1) heads else []

/-- Heads one behind another are answered in their order. By induction on the heads. -/
theorem read_heads (n : ℕ) (heads : List HeadText) {rest : Bytes}
    (hrest : find rest [CR, LF, CR, LF] = none) :
    (Lib.Reader.read (serve cfg sends) n (heads.flatMap HeadText.encode ++ rest)).out =
      answers cfg sends n heads := by
  induction heads generalizing n with
  | nil =>
    rw [List.flatMap_nil, List.nil_append, Lib.Reader.read_wait (serve_wait hrest)]
    rfl
  | cons head heads ih =>
    rw [List.flatMap_cons, List.append_assoc, answers]
    have hfind := head.find_encode (heads.flatMap HeadText.encode ++ rest)
    have htext : (head.encode ++ (heads.flatMap HeadText.encode ++ rest)).take head.text.length =
        head.text := by
      rw [HeadText.encode, List.append_assoc, List.take_left]
    have hserve : serve cfg sends n (head.encode ++ (heads.flatMap HeadText.encode ++ rest)) =
        if !sends n then
          .halt (n + 1) [response cfg (path head.text) (keeps cfg head.text)]
        else if !keeps cfg head.text then
          .halt (n + 1) [response cfg (path head.text) (keeps cfg head.text)]
        else .take (head.text.length + 4) (n + 1)
          [response cfg (path head.text) (keeps cfg head.text)] := by
      unfold serve
      rw [hfind]
      dsimp only
      rw [htext]
    by_cases hsent : sends n = true
    · by_cases hkeep : keeps cfg head.text = true
      · rw [hsent, hkeep] at hserve
        have hdrop : (head.encode ++ (heads.flatMap HeadText.encode ++ rest)).drop
            (head.text.length + 4) = heads.flatMap HeadText.encode ++ rest := by
          have hlen : head.text.length + 4 = head.encode.length := by simp [HeadText.encode]
          rw [hlen, List.drop_left]
        rw [Lib.Reader.read_take (serve_progress _) (le_refl _) hserve, hdrop, hsent, hkeep]
        exact congrArg (_ :: ·) (ih (n + 1))
      · rw [Bool.not_eq_true] at hkeep
        rw [hsent, hkeep] at hserve
        rw [Lib.Reader.read_halt hserve, hsent, hkeep]
        rfl
    · rw [Bool.not_eq_true] at hsent
      rw [hsent] at hserve
      rw [Lib.Reader.read_halt hserve, hsent]
      rfl

/-- A connection is answered as the reader answers all of its bytes at once. -/
theorem connection_eq_read {script : List Recv} (horderly : Orderly script) :
    connection cfg sends script =
      (Lib.Reader.read (serve cfg sends) 0 (scriptBytes script)).out := by
  rw [connection, connectionLoop_eq_read (le_refl _) horderly (serve_wait (by decide)),
    List.nil_append]

/-- However the heads of a client are cut into segments and readiness events, they are answered in
their order, up to the first after which the connection is closed. What comes after them without the
end of a head is not. -/
theorem connection_heads (heads : List HeadText) {rest : Bytes}
    (hrest : find rest [CR, LF, CR, LF] = none) {script : List Recv} (horderly : Orderly script)
    (hbytes : scriptBytes script = heads.flatMap HeadText.encode ++ rest) :
    connection cfg sends script = answers cfg sends 0 heads := by
  rw [connection_eq_read cfg sends horderly, hbytes, read_heads cfg sends 0 heads hrest]

/-- Two heads that are cut inside of the first end of a head, and the second asks to close. -/
theorem connection_heads_cut :
    connection {} (fun _ => true) [.data 71 (str "ET /a HTTP/1.1\r\n\r"), .again,
        .data 10 (str "GET /b HTTP/1.1\r\nConnection: close\r\n\r\n"), .eof] =
      [response {} (str "/a") true, response {} (str "/b") false] := by
  have hnil : find ([] : Bytes) [CR, LF, CR, LF] = none := by decide
  have hheads := @connection_heads {} (fun _ => true)
    [⟨str "GET /a HTTP/1.1", by decide⟩, ⟨str "GET /b HTTP/1.1\r\nConnection: close", by decide⟩]
    [] hnil [.data 71 (str "ET /a HTTP/1.1\r\n\r"), .again,
      .data 10 (str "GET /b HTTP/1.1\r\nConnection: close\r\n\r\n"), .eof] rfl (by decide)
  have hfirst : path (str "GET /a HTTP/1.1") = str "/a" := by decide
  have hsecond : path (str "GET /b HTTP/1.1\r\nConnection: close") = str "/b" := by decide
  have hopen : keeps {} (str "GET /a HTTP/1.1") = true := by decide
  have hclose : keeps {} (str "GET /b HTTP/1.1\r\nConnection: close") = false := by decide
  rw [hheads]
  simp only [answers, hfirst, hsecond, hopen, hclose, Bool.and_self, Bool.and_false,
    Bool.false_eq_true, if_true, if_false]

end ForwardProxy.Origin
