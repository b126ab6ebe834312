import ForwardProxy.Http.Framing
import ForwardProxy.Server.World

/-!
# What is put into the cache

`is_cacheable` looks at the map of header fields, in which `parse_response_headers` lets a repeated
field replace the one before. So of several `Cache-Control` lines only the last is looked at, while
a `Set-Cookie` line is found wherever it stands.
-/

namespace ForwardProxy

open Lib.Interaction

/-- Of a response that has a status in range, the map has the last field of each name. -/
theorem header_parseResponseHeaders {raw : Bytes} (h : (parseResponseHeaders raw).status = 200)
    (name : Bytes) :
    (parseResponseHeaders raw).header name = lastValue name (responseFields raw) := by
  rcases parseResponseHeaders_cases raw with ⟨-, hrange, -⟩ | ⟨hend, status, chunked, cl, -, heq, -⟩
  · omega
  · rw [heq, Response.header, lookup_foldl_assign]
    simp

/-! ## Lines that keep a response private -/

/-- A `Set-Cookie` line, or a `Cache-Control` line that forbids to store. -/
def PrivateField (f : Bytes × Bytes) : Prop :=
  f.1 = str "set-cookie" ∨ f.1 = str "cache-control" ∧ forbidsStore f.2 = true

/-- A response that may be stored for a request. -/
def Public (req : Request) (raw : Bytes) : Prop :=
  (req.method = str "GET" ∨ req.method = str "HEAD") ∧ req.header (str "authorization") = none ∧
    (parseResponseHeaders raw).status = 200 ∧ ∀ f ∈ responseFields raw, ¬PrivateField f

/-- All but the `Cache-Control` lines allow to store a response. -/
def PublicButControl (req : Request) (raw : Bytes) : Prop :=
  (req.method = str "GET" ∨ req.method = str "HEAD") ∧ req.header (str "authorization") = none ∧
    (parseResponseHeaders raw).status = 200 ∧ ∀ f ∈ responseFields raw, f.1 ≠ str "set-cookie"

/-- The last `Cache-Control` line forbids to store wherever any does. -/
def LastControlDecides (raw : Bytes) : Prop :=
  (∃ f ∈ responseFields raw, f.1 = str "cache-control" ∧ forbidsStore f.2 = true) →
    ∃ v, lastValue (str "cache-control") (responseFields raw) = some v ∧ forbidsStore v = true

/-- What `is_cacheable` says, by the lines of the response. -/
theorem isCacheable_iff (req : Request) (raw : Bytes) :
    isCacheable req (parseResponseHeaders raw) = true ↔ PublicButControl req raw ∧
      ∀ v, lastValue (str "cache-control") (responseFields raw) = some v →
        forbidsStore v = false := by
  unfold PublicButControl
  by_cases hstatus : (parseResponseHeaders raw).status = 200
  · have hcookie := header_parseResponseHeaders hstatus (str "set-cookie")
    have hcontrol := header_parseResponseHeaders hstatus (str "cache-control")
    rw [← lastValue_eq_none_iff, ← hcookie, ← hcontrol]
    unfold isCacheable
    by_cases hget : req.method = str "GET" ∨ req.method = str "HEAD"
    · have hmethod : ¬(req.method ≠ str "GET" ∧ req.method ≠ str "HEAD") := by tauto
      rw [if_neg hmethod, if_neg (not_not.mpr hstatus)]
      cases req.header (str "authorization") <;>
        cases (parseResponseHeaders raw).header (str "cache-control") <;>
        cases (parseResponseHeaders raw).header (str "set-cookie") <;> simp [hget, hstatus]
    · have hmethod : req.method ≠ str "GET" ∧ req.method ≠ str "HEAD" := by tauto
      simp [hmethod]
  · unfold isCacheable
    simp [hstatus]

/-- A response that `is_cacheable` accepts is public exactly where the last `Cache-Control` line
decides. -/
theorem public_iff {req : Request} {raw : Bytes}
    (h : isCacheable req (parseResponseHeaders raw) = true) :
    Public req raw ↔ LastControlDecides raw := by
  obtain ⟨⟨hmethod, hauth, hstatus, hcookie⟩, hlast⟩ := (isCacheable_iff req raw).mp h
  constructor
  · rintro ⟨-, -, -, hpublic⟩ ⟨f, hf, hname, hforbids⟩
    exact absurd (Or.inr ⟨hname, hforbids⟩) (hpublic f hf)
  · intro hdecides
    refine ⟨hmethod, hauth, hstatus, ?_⟩
    rintro f hf (hname | ⟨hname, hforbids⟩)
    · exact hcookie f hf hname
    -- The last line would forbid to store too, and it does not.
    · obtain ⟨v, hv, hforbids⟩ := hdecides ⟨f, hf, hname, hforbids⟩
      rw [hlast v hv] at hforbids
      cases hforbids

/-- A response is put into the cache only if it is public, exactly where the last `Cache-Control`
line decides, or another line or the request keeps it out. In a run of `serve_one_request`, whatever
the outside answers, what is put into the cache was fetched, and it is public exactly where the last
`Cache-Control` line decides. -/
theorem put_public_iff (acl : AccessControl) (clientIp : Bytes) (req : Request) (consumed : ℕ) :
    (∀ raw, (isCacheable req (parseResponseHeaders raw) = true → Public req raw) ↔
      (PublicButControl req raw →
        (∀ v, lastValue (str "cache-control") (responseFields raw) = some v →
          forbidsStore v = false) → LastControlDecides raw)) ∧
      ∀ es q, Prog.Runs (serveOneRequest acl clientIp req consumed) es q →
        ∀ key raw, ⟨.cachePut key raw, ()⟩ ∈ es →
          Fetched es raw ∧ (Public req raw ↔ LastControlDecides raw) := by
  refine ⟨fun raw => ?_, fun es q hrun key raw hput => ?_⟩
  · rw [isCacheable_iff]
    constructor
    · intro h hbut hlast
      exact (public_iff ((isCacheable_iff req raw).mpr ⟨hbut, hlast⟩)).mp (h ⟨hbut, hlast⟩)
    · rintro h ⟨hbut, hlast⟩
      exact (public_iff ((isCacheable_iff req raw).mpr ⟨hbut, hlast⟩)).mpr (h hbut hlast)
  -- The events before the put are those that it was permitted after.
  · obtain ⟨pre, post, rfl⟩ := List.append_of_mem hput
    obtain ⟨-, -, -, hcacheable, hfetched⟩ := (serveOneRequest_sat ..).perform hrun
    rw [List.nil_append] at hfetched
    exact ⟨by simp [hfetched], public_iff hcacheable⟩

/-- A response with `no-store` is put into the cache: a later `Cache-Control` line hides it. -/
theorem put_no_store :
    let raw := str "HTTP/1.1 200 OK\r\nCache-Control: no-store\r\nCache-Control: max-age=9\r\n\r\n"
    let req := parseRequest (str "GET /a HTTP/1.1\r\nHost: h\r\n\r\n")
    let cache : Cache := ⟨[LRUCache.new 1], 0, fun _ => 0, by decide⟩
    let job : Job := {
      clientIp := str "10.0.0.1"
      req := req
      consumed := 28
      env := {
        now := fun _ => 0
        upstream := fun _ _ => fetchUpstream .sent [.data 72 (raw.drop 1), .eof]
        sends := fun _ => true } }
    req.valid = true ∧ ((serveJob {} cache job).2.2.get (cacheKey req)).1 = some raw ∧
      (str "cache-control", str "no-store") ∈ responseFields raw ∧ ¬Public req raw := by
  intro raw req cache job
  have hfield : (str "cache-control", str "no-store") ∈ responseFields raw := by decide +kernel
  refine ⟨by decide +kernel, by decide +kernel, hfield, ?_⟩
  rintro ⟨-, -, -, hpublic⟩
  exact hpublic _ hfield (Or.inr ⟨rfl, by decide +kernel⟩)

end ForwardProxy
