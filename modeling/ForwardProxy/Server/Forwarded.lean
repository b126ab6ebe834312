import ForwardProxy.Server.Inspect
import ForwardProxy.Server.World

/-!
# What is forwarded

The access control is checked on the lines that the parser reads, and what is forwarded is the
buffer up to the end that `find_header_end` finds, and the body after it. Where no blank line comes
before that end, what is forwarded is the request that was checked; where one does, bytes of the
next request are forwarded with it (`fetched_one_message_iff`).
-/

namespace ForwardProxy

open Lib.Interaction

/-- The bytes are one message at the start of `req.raw`: the lines that the request was parsed from,
the first blank line, and as many bytes as the length of the body. -/
def OneMessage (req : Request) (bytes : Bytes) : Prop :=
  ∃ hd : Head, ∃ rest, req.raw = hd.bytes ++ rest ∧
    { req with raw := [], headerBytes := 0 } = parseRequestLines (hd.line :: hd.lines) ∧
    req.contentLength.toNat ≤ rest.length ∧
    bytes = hd.bytes ++ rest.take req.contentLength.toNat

/-- Lines are parsed to the same fields, whatever the bytes they come of. -/
theorem parseRequestLines_raw (lines : List Bytes) :
    { parseRequestLines lines with raw := [], headerBytes := 0 } = parseRequestLines lines := by
  obtain ⟨_, _, _, _, _, _, _, _, _, _, heq, -⟩ := parseRequestLines_eq lines
  rw [heq]

/-- The end of the head of a valid request is that of the lines it was parsed from exactly where no
blank line comes before the terminator. -/
theorem headerBytes_eq_iff {raw : Bytes} (hvalid : (parseRequest raw).valid = true) :
    ∃ hd : Head, ∃ rest, raw = hd.bytes ++ rest ∧
      { parseRequest raw with raw := [], headerBytes := 0 } =
        parseRequestLines (hd.line :: hd.lines) ∧
      hd.bytes.length ≤ (parseRequest raw).headerBytes ∧
      ((parseRequest raw).headerBytes = hd.bytes.length ↔ TerminatorFirst raw) := by
  have hend := headerEnd_of_valid hvalid
  obtain ⟨hd, rest, hraw⟩ := exists_head_of_headerEnd hend
  generalize (parseRequest raw).headerBytes = e at hend ⊢
  subst hraw
  obtain ⟨hle, hiff⟩ := hd.length_le_headerEnd rest hend
  refine ⟨hd, rest, rfl, ?_, hle, hiff⟩
  rw [parseRequest_head hd rest hend]
  exact parseRequestLines_raw _

/-- What is forwarded for a request in the buffer is one message exactly where no blank line comes
before the terminator. -/
theorem oneMessage_iff {raw : Bytes} (hvalid : (parseRequest raw).valid = true)
    (hlen : (parseRequest raw).headerBytes + (parseRequest raw).contentLength.toNat ≤ raw.length) :
    OneMessage (parseRequest raw)
        (raw.take ((parseRequest raw).headerBytes + (parseRequest raw).contentLength.toNat)) ↔
      TerminatorFirst raw := by
  obtain ⟨hd, rest, hraw, hfields, hle, hiff⟩ := headerBytes_eq_iff hvalid
  rw [← hiff]
  have hlenRaw : raw.length = hd.bytes.length + rest.length := by rw [hraw, List.length_append]
  constructor
  · rintro ⟨hd', rest', hraw', -, hbody, hbytes⟩
    rw [raw_parseRequest, hraw] at hraw'
    -- Any head of the buffer is as long, so the bytes taken up must end with the body of this one.
    have hsame := Head.length_bytes_unique hraw'
    have hlength := congrArg List.length hbytes
    rw [List.length_take, List.length_append, List.length_take] at hlength
    omega
  -- The ends agree: the bytes taken up are the head, and the body after it.
  · intro heq
    refine ⟨hd, rest, ?_, hfields, by omega, ?_⟩
    · rw [raw_parseRequest, hraw]
    · rw [heq, hraw, List.take_append, List.take_of_length_le (by omega), Nat.add_sub_cancel_left]

/-! ## The requests of a connection -/

/-- A request that is served was ready in a buffer within the limits. -/
def FromBuffer : ConnEvent → Prop
  | .served req need _ =>
    ∃ buf : Bytes, buf.length ≤ maxHeaderBytes + maxBodyBytes ∧ inspect buf = .ready req need
  | _ => True

/-- A drain that is not left as too large leaves a buffer within the limit. -/
theorem drain_length {inbuf : Bytes} {script : List Recv}
    (h : inbuf.length ≤ maxHeaderBytes + maxBodyBytes)
    (hend : (drain inbuf script).ending ≠ .tooLarge) :
    (drain inbuf script).inbuf.length ≤ maxHeaderBytes + maxBodyBytes := by
  fun_induction drain inbuf script with
  | case2 inbuf b bs script hlarge => exact absurd rfl hend
  | case3 inbuf b bs script hfits ih => exact ih (by omega) hend
  | case5 inbuf script ih => exact ih h hend
  | case1 | case4 | case6 | case7 => exact h

section Requests

variable {σ : Type} (serve : σ → Request → ℕ → Bool × σ)

/-- What the serving loop serves was ready in its buffer. By induction on its fuel. -/
theorem serveLoop_fromBuffer (fuel : ℕ) (w : σ) {c : Conn}
    (h : c.inbuf.length ≤ maxHeaderBytes + maxBodyBytes) :
    (∀ e ∈ (serveLoop serve fuel w c).events, FromBuffer e) ∧
      (serveLoop serve fuel w c).conn.inbuf.length ≤ maxHeaderBytes + maxBodyBytes := by
  induction fuel generalizing w c with
  | zero => exact ⟨by simp [serveLoop], h⟩
  | succ fuel ih =>
    rw [serveLoop]
    split
    · exact ⟨by simp, h⟩
    · exact ⟨by simp [headerTooLargeEvents, FromBuffer], h⟩
    · exact ⟨by simp [badRequestEvents, FromBuffer], h⟩
    · rename_i req need hready
      have hfrom : ∀ keep, FromBuffer (.served req need keep) := fun _ => ⟨c.inbuf, h, hready⟩
      have hdrop : (c.inbuf.drop need).length ≤ maxHeaderBytes + maxBodyBytes := by
        rw [List.length_drop]
        omega
      dsimp only
      split
      · obtain ⟨hevents, hlen⟩ := ih (serve w req need).2
          (c := { c with
            inbuf := c.inbuf.drop need
            requestsServed := c.requestsServed + 1 }) hdrop
        exact ⟨List.forall_mem_cons.mpr ⟨hfrom true, hevents⟩, hlen⟩
      · exact ⟨List.forall_mem_cons.mpr ⟨hfrom false, by simp [FromBuffer]⟩, hdrop⟩

/-- What a turn serves was ready in the buffer. -/
theorem turn_fromBuffer (w : σ) {c : Conn} (script : List Recv)
    (h : c.inbuf.length ≤ maxHeaderBytes + maxBodyBytes) :
    (∀ e ∈ (turn serve w c script).events, FromBuffer e) ∧
      ((turn serve w c script).next ≠ .closed →
        (turn serve w c script).conn.inbuf.length ≤ maxHeaderBytes + maxBodyBytes) := by
  have hloop : ∀ inbuf : Bytes, inbuf = (drain c.inbuf script).inbuf →
      (drain c.inbuf script).ending ≠ .tooLarge → _ := fun inbuf hinbuf hend =>
    serveLoop_fromBuffer serve (inbuf.length + 1) w (c := { c with inbuf := inbuf })
      (hinbuf ▸ drain_length h hend)
  unfold turn
  dsimp only
  split
  · exact ⟨by simp [FromBuffer], by simp⟩
  · exact ⟨by simp [FromBuffer], by simp⟩
  all_goals
    rename_i hending
    obtain ⟨hevents, hlen⟩ := hloop _ rfl (by simp [hending])
    repeat' split
    all_goals refine ⟨?_, fun _ => hlen⟩
    all_goals simpa [FromBuffer, or_imp, forall_and] using hevents

/-- What `handle_ready` serves was ready in the buffer. By induction on the turns. -/
theorem readyLoop_fromBuffer (fuel : ℕ) (w : σ) {c : Conn} (script : List Recv)
    (h : c.inbuf.length ≤ maxHeaderBytes + maxBodyBytes) :
    (∀ e ∈ (readyLoop serve fuel w c script).events, FromBuffer e) ∧
      ((readyLoop serve fuel w c script).alive = true →
        (readyLoop serve fuel w c script).conn.inbuf.length ≤ maxHeaderBytes + maxBodyBytes) := by
  induction fuel generalizing w c script with
  | zero => exact ⟨by simp [readyLoop], fun _ => h⟩
  | succ fuel ih =>
    obtain ⟨hevents, hlen⟩ := turn_fromBuffer serve w script h
    rw [readyLoop]
    dsimp only
    split
    · exact ⟨hevents, by simp⟩
    · rename_i hnext
      refine ⟨?_, fun _ => hlen (by simp [hnext])⟩
      simpa [FromBuffer, or_imp, forall_and] using hevents
    · rename_i hnext
      obtain ⟨hevents', hlen'⟩ := ih (turn serve w c script).world (turn serve w c script).rest
        (hlen (by simp [hnext]))
      refine ⟨fun e he => ?_, hlen'⟩
      exact (List.mem_append.mp he).elim (hevents e) (hevents' e)

/-- What a connection serves was ready in its buffer. By induction on the times that it is reported
readable. -/
theorem connectionLoop_fromBuffer (fuel : ℕ) (w : σ) {c : Conn} (script : List Recv)
    (h : c.inbuf.length ≤ maxHeaderBytes + maxBodyBytes) :
    ∀ e ∈ (connectionLoop serve fuel w c script).events, FromBuffer e := by
  induction fuel generalizing w c script with
  | zero => simp [connectionLoop]
  | succ fuel ih =>
    obtain ⟨hevents, hlen⟩ := readyLoop_fromBuffer serve (script.length + 2) w script h
    rw [connectionLoop]
    split
    · simp
    · dsimp only
      split
      · rename_i halive
        intro e he
        rcases List.mem_append.mp he with he | he
        · exact hevents e he
        · exact ih _ _ (hlen halive) e he
      · exact hevents

/-- Every request that a connection serves was ready in its buffer. -/
theorem served_fromBuffer (w : σ) (clientIp : Bytes) (script : List Recv) {req : Request}
    {need : ℕ} {keep : Bool}
    (h : .served req need keep ∈ (serveConnection serve w clientIp script).events) :
    req = parseRequest req.raw ∧ req.valid = true ∧
      need = req.headerBytes + req.contentLength.toNat ∧ need ≤ req.raw.length := by
  obtain ⟨buf, hlen, hready⟩ := connectionLoop_fromBuffer serve script.length w script
    (c := { clientIp := clientIp }) (Nat.zero_le _) _ h
  have hbuf := lt_of_le_total hlen
  obtain ⟨rfl, hvalid, hneed, hle⟩ := (inspect_ready_iff hbuf).mp hready
  rw [raw_parseRequest]
  exact ⟨rfl, hvalid, hneed, hle⟩

end Requests

/-! ## What is forwarded -/

/-- The end of the head of a valid request is the end of the lines that were read exactly where no
blank line comes before the terminator; and whatever a client sends, however it is cut, and whatever
the rules are, what is forwarded for a request that is served was allowed, and is the one message
that was checked exactly there. -/
theorem fetched_one_message_iff (acl : AccessControl) {σ : Type}
    (serve : σ → Request → ℕ → Bool × σ) (w : σ) (clientIp : Bytes) (script : List Recv) :
    (∀ raw, (parseRequest raw).valid = true → ∃ hd : Head, ∃ rest, raw = hd.bytes ++ rest ∧
      { parseRequest raw with raw := [], headerBytes := 0 } =
        parseRequestLines (hd.line :: hd.lines) ∧
      ((parseRequest raw).headerBytes = hd.bytes.length ↔ TerminatorFirst raw)) ∧
    ∀ req consumed keep,
      .served req consumed keep ∈ (serveConnection serve w clientIp script).events →
        ∀ es q, Prog.Runs (serveOneRequest acl clientIp req consumed) es q →
          ∀ up bytes res, (⟨.fetchUpstream up bytes, res⟩ : ServeEvent) ∈ es →
            Allowed acl req ∧ (OneMessage req bytes ↔ TerminatorFirst req.raw) := by
  refine ⟨fun raw hvalid => ?_, ?_⟩
  · obtain ⟨hd, rest, hraw, hfields, -, hiff⟩ := headerBytes_eq_iff hvalid
    exact ⟨hd, rest, hraw, hfields, hiff⟩
  · intro req consumed keep hserved es q hrun up bytes res hfetch
    obtain ⟨hreq, hvalid, rfl, hlen⟩ := served_fromBuffer serve w clientIp script hserved
    obtain ⟨pre, post, rfl⟩ := List.append_of_mem hfetch
    obtain ⟨hallowed, -, rfl⟩ := (serveOneRequest_sat ..).perform hrun
    refine ⟨hallowed, ?_⟩
    generalize hraw : req.raw = raw at hreq hlen
    subst hreq
    exact oneMessage_iff hvalid hlen

/-- The fetch that sends the bytes upstream. -/
def forwards (bytes : Bytes) : ServeEvent → Bool
  | ⟨.fetchUpstream _ b, _⟩ => b = bytes
  | _ => false

/-- A request to `/admin`, which is denied, is forwarded with the request before it, whose lines end
in line feeds only. -/
theorem fetched_two_messages :
    let first := str "GET / HTTP/1.1\nHost: a\n\n"
    let second := str "GET /admin HTTP/1.1\r\nHost: b\r\n\r\n"
    let raw := first ++ second
    let acl := ({} : AccessControl).addRule .deny (str "path") (str "/admin")
    let req := parseRequest raw
    .served req raw.length true ∈ (serveConnection (fun _ _ _ => (true, ())) ()
        (str "10.0.0.1") [.data 71 (raw.drop 1)]).events ∧
      (acl.check (parseRequest second)).decision = .deny ∧ ¬OneMessage req raw ∧
      ∃ es q, Prog.Runs (serveOneRequest acl (str "10.0.0.1") req raw.length) es q ∧
        ∃ e ∈ es, forwards raw e = true := by
  intro first second raw acl req
  refine ⟨by decide +kernel, by decide +kernel, ?_, ?_⟩
  · have hvalid : (parseRequest raw).valid = true := by decide +kernel
    have hlen : (parseRequest raw).headerBytes + (parseRequest raw).contentLength.toNat =
      raw.length := by decide +kernel
    have hiff := oneMessage_iff hvalid hlen.le
    rw [hlen, List.take_length] at hiff
    rw [hiff]
    intro h
    refine h _ (show terminator raw = some 53 by decide +kernel) 22 (by decide) ?_
    exact ⟨by decide +kernel, Or.inl (by decide +kernel)⟩
  · let env : Outside := {
      now := fun _ => 0
      upstream := fun _ _ => {}
      sends := fun _ => true }
    let cache : Cache := ⟨[LRUCache.new 1], 0, fun _ => 0, by decide⟩
    exact ⟨_, _, Prog.runs_exec env.handle _ (cache, 0), List.any_eq_true.mp (by decide +kernel)⟩

end ForwardProxy
