import ForwardProxy.Http.Response

/-!
# The upstream side

`fetch_upstream` of `server_phase5.cpp`. How the steps up to the first `recv` go, and what each
`recv` then returns, are the inputs. `send_all`, `getaddrinfo` and the socket calls are not modelled
further.
-/

namespace ForwardProxy

/-- `g_opt.max_header_bytes`, which no command line option sets. -/
def maxHeaderBytes : ℕ := 64 * 1024

/-- `g_opt.max_body_bytes`, which no command line option sets. -/
def maxBodyBytes : ℕ := 8 * 1024 * 1024

/-- What a `recv` returns. Data is never empty: the byte `b`, and the bytes `bs` after it. -/
inductive Recv
  | data (b : Byte) (bs : Bytes)
  | eof
  | intr
  | again
  | error (reason : Bytes)
  deriving DecidableEq

/-- The bytes that a `recv` adds to the buffer. -/
def Recv.bytes : Recv → Bytes
  | .data b bs => b :: bs
  | _ => []

/-- How far the steps before the first `recv` get, with the reason that the library gives. -/
inductive Connect
  | noAddress (reason : Bytes)
  | noSocket (reason : Bytes)
  | refused (reason : Bytes)
  | notSent (reason : Bytes)
  | sent
  deriving DecidableEq

/-- `UpstreamResult`. -/
structure UpstreamResult where
  raw : Bytes := []
  status : ℤ := 0
  ok : Bool := false
  error : Bytes := []
  deriving DecidableEq

/-- The buffer, and the head once it is there (`parsed` where `have_headers`). -/
structure FetchState where
  buf : Bytes := []
  parsed : Option Response := none

/-- What a turn of the receive loop ends in. -/
inductive FetchTurn
  | more (s : FetchState)
  | stop (s : FetchState)
  | fail (error : Bytes)

/-- The part of a turn once there is a head. -/
def checkBody (buf : Bytes) (parsed : Response) : FetchTurn :=
  if maxBodyBytes < buf.length then .fail (str "upstream body too large")
  else if !parsed.closeDelimited && responseComplete buf parsed then .stop ⟨buf, some parsed⟩
  else .more ⟨buf, some parsed⟩

/-- A turn of the receive loop in which data came. -/
def fetchData (s : FetchState) (data : Bytes) : FetchTurn :=
  let buf := s.buf ++ data
  match s.parsed with
  | some parsed => checkBody buf parsed
  | none =>
    if (findHeaderEnd buf).isSome then
      let parsed := parseResponseHeaders buf
      if !parsed.valid then .fail (str "malformed upstream response") else checkBody buf parsed
    else if maxHeaderBytes < buf.length then .fail (str "upstream headers too large")
    else .more ⟨buf, none⟩

/-- A turn of the receive loop. `SO_RCVTIMEO` ends a wait with `EAGAIN`. -/
def fetchTurn (s : FetchState) : Recv → FetchTurn
  | .data b bs => fetchData s (b :: bs)
  | .eof => .stop s
  | .intr => .more s
  | .again => .fail (str "upstream timeout")
  | .error reason => .fail (str "recv: " ++ reason)

/-- The receive loop. An upstream that has sent all it will, and stays open, is a timeout. -/
def fetchLoop (s : FetchState) : List Recv → Except Bytes FetchState
  | [] => .error (str "upstream timeout")
  | r :: rs =>
    match fetchTurn s r with
    | .more s => fetchLoop s rs
    | .stop s => .ok s
    | .fail error => .error error

/-- What `fetch_upstream` makes of the buffer once the loop is left by `break`. -/
def fetchDone (s : FetchState) : UpstreamResult :=
  if s.buf = [] then { error := str "empty upstream response" }
  else
    match s.parsed with
    | some parsed => { raw := s.buf, status := parsed.status, ok := true }
    | none =>
      let parsed := parseResponseHeaders s.buf
      if !parsed.valid then { error := str "malformed upstream response" }
      else { raw := s.buf, status := parsed.status, ok := true }

/-- `fetch_upstream`: the steps before the first `recv`, and then the loop and what is made of its
buffer. -/
def fetchUpstream (connect : Connect) (recvs : List Recv) : UpstreamResult :=
  match connect with
  | .noAddress reason => { error := str "dns: " ++ reason }
  | .noSocket reason => { error := str "socket: " ++ reason }
  | .refused reason => { error := str "connect: " ++ reason }
  | .notSent reason => { error := str "send: " ++ reason }
  | .sent =>
    match fetchLoop {} recvs with
    | .error error => { error := error }
    | .ok s => fetchDone s

end ForwardProxy
