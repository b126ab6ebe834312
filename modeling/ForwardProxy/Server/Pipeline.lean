import ForwardProxy.Http.Message
import ForwardProxy.Server.Segments

/-!
# Pipelines of well-formed requests

A connection on which a client writes messages one after another serves each of them, with its
fields and the bytes of its encoding, and nothing else, however the bytes are cut
(`pipeline_served`).
-/

namespace ForwardProxy

open Lib.Reader (Action Outcome feedAll read)

/-- The messages one after another. -/
def encodeAll (ms : List Message) : Bytes := ms.flatMap Message.encode

/-- One message before the others. -/
@[simp]
theorem encodeAll_cons (m : Message) (ms : List Message) :
    encodeAll (m :: ms) = m.encode ++ encodeAll ms := rfl

/-! ## One message at the start of a buffer -/

namespace Message

/-- The declared length is that of the body. -/
theorem toNat_contentLength (m : Message) : m.contentLength.toNat = m.body.length := by
  unfold contentLength
  rcases m.body_ok with ⟨hnone, hbody⟩ | ⟨v, hv, -⟩
  · rw [fields, hnone, hbody]
    rfl
  · rw [fields, hv]
    simp

/-- A buffer that starts with the head of a message holds the message, when its body is there. -/
theorem inspect_headText (m : Message) {rest : Bytes} (hbody : m.body.length < 2^63)
    (hlen : (m.headText ++ rest).length < 2^63) :
    inspect (m.headText ++ rest) = if rest.length < m.body.length then .needMore
      else .ready { m.request with raw := m.headText ++ rest } m.encode.length := by
  have hend := m.findHeaderEnd_message rest
  have hencode : m.encode.length = m.headText.length + m.body.length := List.length_append
  rw [inspect_of_headerEnd hlen hend, m.parseRequest_message hbody]
  have hvalid : m.request.valid = true := rfl
  have hcl : m.request.contentLength.toNat = m.body.length := m.toNat_contentLength
  simp only [hvalid, hcl, Bool.true_eq_false, if_false, List.length_append, Nat.add_lt_add_iff_left,
    hencode]

/-- Where the body follows the head, the message is what the request takes up. -/
theorem trim_request (m : Message) (rest : Bytes) :
    Request.trim { m.request with raw := m.encode ++ rest } m.encode.length = m.request := by
  rw [Request.trim]
  simp only [List.take_left]
  rfl

/-- At the front of a buffer a message is ready, with its fields and its length. -/
theorem inspect_encode (m : Message) {rest : Bytes} (hlen : (m.encode ++ rest).length < 2^63) :
    inspect (m.encode ++ rest) =
      .ready { m.request with raw := m.encode ++ rest } m.encode.length := by
  have happend : m.encode ++ rest = m.headText ++ (m.body ++ rest) := by
    rw [encode, List.append_assoc]
  have hbody : m.body.length < 2^63 := by
    rw [happend, List.length_append, List.length_append] at hlen
    omega
  rw [happend] at hlen ⊢
  rw [m.inspect_headText hbody hlen, if_neg (by rw [List.length_append]; omega)]

/-- Of the start of a stream that starts with a message nothing is made but the message. -/
theorem agrees_encode (m : Message) {rest : Bytes} (hhead : m.headText.length ≤ maxHeaderBytes)
    (hlen : (m.encode ++ rest).length < 2^63) : Agrees (m.encode ++ rest) := by
  intro buf more hbuf
  have happend : m.headText ++ (m.body ++ rest) = buf ++ more := by
    rw [← hbuf, encode, List.append_assoc]
  have hbody : m.body.length < 2^63 := by
    rw [encode, List.length_append, List.length_append] at hlen
    omega
  rcases Nat.lt_or_ge buf.length m.headText.length with hlt | hge
  · -- The head is not there yet.
    left
    rw [inspect, m.findHeaderEnd_prefix happend hlt]
    simp only
    rw [if_neg (by omega)]
  · obtain ⟨rest', rfl⟩ : ∃ rest', buf = m.headText ++ rest' := by
      obtain ⟨rest', hrest'⟩ :=
        List.prefix_of_prefix_length_le (List.prefix_append _ _) ⟨more, happend.symm⟩ hge
      exact ⟨rest', hrest'.symm⟩
    have hshort : (m.headText ++ rest').length < 2^63 := by
      rw [hbuf, List.length_append] at hlen
      omega
    rw [m.inspect_headText hbody hshort, m.inspect_encode hlen]
    split
    · exact Or.inl rfl
    · rename_i hall
      right
      -- The body is there, and the request takes up the same bytes.
      have htaken : (m.headText ++ rest').take m.encode.length = m.encode := by
        have htake : (m.encode ++ rest).take m.encode.length = m.encode := List.take_left
        rw [hbuf, List.take_append_of_le_length (by
          rw [encode, List.length_append, List.length_append]; omega)] at htake
        exact htake
      simp only [Verdict.view, Verdict.ready.injEq, and_true]
      rw [m.trim_request, Request.trim]
      simp only [htaken]
      rfl

end Message

/-! ## The messages of a stream -/

section Messages

variable {ms : List Message} (hhead : ∀ m ∈ ms, m.headText.length ≤ maxHeaderBytes)
  (htotal : (encodeAll ms).length ≤ maxHeaderBytes + maxBodyBytes)

include htotal

/-- At every boundary of the stream a message starts, or the stream is at its end. -/
theorem exists_suffix_of_boundary {t : Bytes} (h : Boundary (encodeAll ms) t) :
    ∃ ms', ms' <:+ ms ∧ t = encodeAll ms' := by
  induction h with
  | start => exact ⟨ms, List.suffix_rfl, rfl⟩
  | @next t req need hboundary hready ih =>
    obtain ⟨ms', hsuffix, rfl⟩ := ih
    have hlen := hboundary.length_le.trans htotal
    cases ms' with
    | nil => cases hready
    | cons m ms' =>
      rw [encodeAll_cons] at hready hlen
      rw [m.inspect_encode (lt_of_le_total hlen)] at hready
      cases hready
      exact ⟨ms', (List.suffix_cons m ms').trans hsuffix, by simp⟩

include hhead in
/-- Of the start of a pipeline nothing else is made than of all of it. -/
theorem agrees_of_boundary {t : Bytes} (h : Boundary (encodeAll ms) t) : Agrees t := by
  obtain ⟨ms', hsuffix, rfl⟩ := exists_suffix_of_boundary htotal h
  have hlen := h.length_le.trans htotal
  cases ms' with
  | nil =>
    intro buf more hbuf
    obtain ⟨rfl, -⟩ := List.append_eq_nil_iff.mp hbuf.symm
    exact Or.inl rfl
  | cons m ms' =>
    exact m.agrees_encode (hhead m (hsuffix.subset (by simp))) (lt_of_le_total hlen)

/-- All at once, each message is served. -/
theorem read_encodeAll (clientIp : Bytes) :
    read (connReader (trimmed keeping) clientIp) () (encodeAll ms) = {
      out := ms.map fun m => .served m.request m.encode.length true
      state := ()
      rest := []
      alive := true } := by
  induction ms with
  | nil => rfl
  | cons m ms ih =>
    rw [encodeAll_cons] at htotal
    have hready := m.inspect_encode (lt_of_le_total htotal)
    have hrest : (encodeAll ms).length ≤ maxHeaderBytes + maxBodyBytes := by
      rw [List.length_append] at htotal
      omega
    calc read (connReader (trimmed keeping) clientIp) () (encodeAll (m :: ms))
        = (read (connReader (trimmed keeping) clientIp) () (encodeAll ms)).after
            [.served m.request m.encode.length true] := by
          rw [encodeAll_cons, read_keeping clientIp htotal hready, List.drop_left, m.trim_request]
      _ = _ := by
          rw [ih hrest]
          rfl

end Messages

/-! ## Connections on which messages come -/

/-- A request that is served keeps the connection open. -/
def Keeps (e : ConnEvent) : Prop := ∀ req need keep, e = .served req need keep → keep = true

/-- As long as requests keep the connection open, the reader does what it does when all of them do.
-/
theorem connReader_matches {σ : Type} (serve : σ → Request → ℕ → Bool × σ) (clientIp : Bytes)
    (w : σ)
    (buf : Bytes) (h : ∀ e ∈ (connReader serve clientIp w buf).out, Keeps e) :
    (connReader serve clientIp w buf).Matches (fun _ _ => True)
      (connReader (trimmed keeping) clientIp () buf) := by
  unfold connReader at h ⊢
  generalize inspect buf = v at h ⊢
  cases v with
  | needMore => exact .wait
  | headerTooLarge => exact .halt _ trivial
  | badRequest req => exact .halt _ trivial
  | ready req need =>
    dsimp only at h ⊢
    split at h
    · rename_i hkeep
      rw [if_pos hkeep]
      exact .take _ _ trivial
    · have hfalse := h (.served (req.trim need) need false) (by simp [Action.out]) _ _ _ rfl
      cases hfalse

/-- What is called is the call of an event. -/
theorem mem_calls {e : ConnEvent} {events : List ConnEvent} :
    e ∈ calls events ↔ ∃ e' ∈ events, e'.call = some e :=
  List.mem_filterMap

/-- Where every request keeps the connection open, each does so among the calls. -/
theorem keeps_of_mem_calls {events : List ConnEvent} (h : ∀ e ∈ events, Keeps e) :
    ∀ e ∈ calls events, Keeps e := by
  rintro e he req need keep rfl
  obtain ⟨e', he', hcall⟩ := mem_calls.mp he
  cases e' with
  | served req' need' keep' =>
    rw [ConnEvent.call, Option.some.injEq, ConnEvent.served.injEq] at hcall
    rw [← hcall.2.2]
    exact h _ he' _ _ _ rfl
  | _ => simp [ConnEvent.call] at hcall

/-- However the bytes of messages are cut, with an EOF at the end or without, a connection on which
every request that is served keeps it open serves each message once and in order, with its fields
and exactly the bytes of its encoding, sends nothing of its own, and is left with an empty buffer.
-/
theorem pipeline_served (ms : List Message) (hhead : ∀ m ∈ ms, m.headText.length ≤ maxHeaderBytes)
    (htotal : (encodeAll ms).length ≤ maxHeaderBytes + maxBodyBytes) {σ : Type}
    (serve : σ → Request → ℕ → Bool × σ) (w : σ) (clientIp : Bytes) (script : List Recv)
    (horderly : Orderly script) (hbytes : scriptBytes script = encodeAll ms)
    (hkeeps : ∀ e ∈ (serveConnection serve w clientIp script).events, Keeps e) :
    calls (serveConnection serve w clientIp script).events =
        (ms.map fun m => .served m.request m.encode.length true) ∧
      (∀ m ∈ ms, m.request.method = m.method ∧ m.request.target = m.target ∧
        m.request.version = m.version ∧ m.request.headers = m.fields.foldl Headers.fold ∅ ∧
        m.request.raw = m.headText ++ m.body ∧ m.request.headerBytes = m.headText.length) ∧
      (∀ data, .sent data ∉ (serveConnection serve w clientIp script).events) ∧
      (serveConnection serve w clientIp script).conn.inbuf = [] := by
  have hfollows :
      Follows clientIp (feedAll (connReader serve clientIp) w [] (batches script)) _ _ _ :=
    serveConnection_follows w horderly (hbytes ▸ htotal)
  have hgood : ∀ e ∈ (feedAll (connReader serve clientIp) w [] (batches script)).out, Keeps e := by
    rw [← hfollows.out]
    exact keeps_of_mem_calls hkeeps
  have hsame : Outcome.Matches (fun _ _ => True)
      (feedAll (connReader serve clientIp) w [] (batches script))
      (feedAll (connReader (trimmed keeping) clientIp) () [] (batches script)) :=
    Lib.Reader.feedAll_matches (fun s _ buf _ => connReader_matches serve clientIp s buf) trivial
      hgood
  rw [serveConnection_at_once keeping clientIp () (fun t => agrees_of_boundary hhead htotal) htotal
    hbytes, read_encodeAll htotal] at hsame
  have hcalls : calls (serveConnection serve w clientIp script).events =
      ms.map fun m => .served m.request m.encode.length true := hfollows.out.trans hsame.out
  refine ⟨hcalls, fun m _ => m.request_fields, ?_, (hfollows.rest hsame.alive).trans hsame.rest⟩
  · intro data hsent
    have hmem : .sent data ∈ calls (serveConnection serve w clientIp script).events :=
      mem_calls.mpr ⟨_, hsent, rfl⟩
    rw [hcalls] at hmem
    simp at hmem

/-- A message whose body looks like another. -/
def postMessage : Message where
  method := str "POST"
  target := str "/a"
  version := str "HTTP/1.1"
  lines := [str "Host: h", str "Content-Length: 19"]
  body := str "GET /b HTTP/1.1\r\n\r\n"
  method_ok := by decide +kernel
  target_ok := by decide +kernel
  version_ok := by decide +kernel
  lines_ok := by decide +kernel
  host_ok := Or.inr (by decide +kernel)
  body_ok := Or.inr
    ⟨str "19", by decide +kernel, by decide +kernel, by decide +kernel, by decide +kernel⟩

/-- A request without a body. -/
def getMessage : Message where
  method := str "GET"
  target := str "http://h/c"
  version := str "HTTP/1.1"
  lines := [str "Accept: */*"]
  body := []
  method_ok := by decide +kernel
  target_ok := by decide +kernel
  version_ok := by decide +kernel
  lines_ok := by decide +kernel
  host_ok := Or.inl (by decide +kernel)
  body_ok := Or.inl ⟨by decide +kernel, rfl⟩

/-- Two messages, cut in the body of the first. -/
theorem pipeline_served_cut :
    let bytes := encodeAll [postMessage, getMessage]
    let script :=
      bytewise (bytes.take 60) ++ .again :: (bytewise (bytes.drop 60) ++ .again :: [.eof])
    calls (serveConnection (trimmed keeping) () [] script).events =
        [.served postMessage.request 68 true, .served getMessage.request 40 true] ∧
      (serveConnection (trimmed keeping) () [] script).conn.inbuf = [] := by
  intro bytes script
  have heof : Orderly [.eof] := rfl
  have hkeeps : ((serveConnection (trimmed keeping) () [] script).events.all fun e =>
      match e with
      | .served _ _ keep => keep
      | _ => true) = true := by decide +kernel
  have hserved := pipeline_served [postMessage, getMessage] (by decide +kernel) (by decide +kernel)
    (trimmed keeping) () [] script (orderly_bytewise (orderly_bytewise heof _) _)
    (by decide +kernel)
    (by
      rintro e he req need keep rfl
      exact List.all_eq_true.mp hkeeps _ he)
  have hpost : postMessage.encode.length = 68 := by decide +kernel
  have hget : getMessage.encode.length = 40 := by decide +kernel
  rw [List.map_cons, List.map_singleton, hpost, hget] at hserved
  exact ⟨hserved.1, hserved.2.2.2⟩

end ForwardProxy
