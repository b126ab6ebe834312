import ForwardProxy.Http.Framing
import ForwardProxy.Server.World

/-!
# Connections that stay open

`serve_one_request` keeps a connection open because of the request alone, and relays a response as
it is. The client is in sync exactly where the response relayed is not ended by EOF.
-/

namespace ForwardProxy

/-- The proxy's own denial has a length. -/
theorem framed_forbidden (keepAlive : Bool) :
    Framed (buildResponse 403 (str "Forbidden") forbiddenBody keepAlive) := by
  cases keepAlive <;> decide +kernel

/-- A connection that is kept open has been sent a response that is framed, exactly where a response
relayed on a connection that the client asks to keep is valid and not ended by EOF. -/
theorem keep_open_framed_iff (acl : AccessControl) (cache : Cache) (job : Job) :
    ((serveJob acl cache job).2.1 = true → Framed (serveJob acl cache job).1) ↔
      (job.req.keepAlive = true → ∀ data, relayed acl cache job = some data →
        job.env.sends data = true → (parseResponseHeaders data).valid = true ∧
          (parseResponseHeaders data).closeDelimited = false) := by
  have hserve := serveJob_eq acl cache job
  cases hrelayed : relayed acl cache job with
  | none =>
    rw [hrelayed] at hserve
    -- Nothing is relayed: only a denial keeps the connection open.
    simp only [reduceCtorEq, false_implies, implies_true, iff_true]
    intro hkeep
    rw [hserve hkeep]
    exact framed_forbidden _
  | some data =>
    rw [hrelayed] at hserve
    -- The bytes relayed are those sent, and the connection is kept when the client asks and they
    -- are sent.
    rw [hserve.1, hserve.2, framed_iff]
    simp only [Bool.and_eq_true, Option.some.injEq, forall_eq']
    exact ⟨fun h hkeep hsent => h ⟨hsent, hkeep⟩, fun h hboth => h hboth.2 hboth.1⟩

/-- A response ended by EOF is relayed to a client whose connection stays open: it never sees the
end of the response. -/
theorem keep_open_close_delimited :
    let raw := str "HTTP/1.1 200 OK\r\n\r\nhello"
    let job : Job := {
      clientIp := str "10.0.0.1"
      req := parseRequest (str "GET /a HTTP/1.1\r\nHost: h\r\n\r\n")
      consumed := 28
      env := {
        now := fun _ => 0
        upstream := fun _ _ => fetchUpstream .sent [.data 72 (raw.drop 1), .eof]
        sends := fun _ => true } }
    let cache : Cache := ⟨[LRUCache.new 1], 0, fun _ => 0, by decide⟩
    job.req.valid = true ∧ (serveJob {} cache job).2.1 = true ∧
      (serveJob {} cache job).1 = raw ∧ ¬Framed (serveJob {} cache job).1 := by
  decide +kernel

end ForwardProxy
