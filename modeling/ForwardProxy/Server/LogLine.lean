import ForwardProxy.Http.AclConfig
import ForwardProxy.Http.LineFields
import ForwardProxy.Server.Connection

/-!
# The lines of the access log

What `AccessLog::write` of `http.hpp` puts on a line: the time, as `gmtime_r` and `strftime` give
it, and the fields of the entry, without any escape. `Entry.Genuine` says where the program takes
the fields of an entry from, and every line of such an entry is one line (`lf_notMem_logLine`).
-/

namespace ForwardProxy

open Lib.Interaction

/-- A quote. -/
abbrev QUOTE : Byte := 34

/-! ## The time -/

/-- A broken-down time, with the year and the month as they are written. -/
structure Tm where
  year : ℤ := 1900
  mon : ℕ := 1
  mday : ℕ := 0
  hour : ℕ := 0
  min : ℕ := 0
  sec : ℕ := 0
  deriving DecidableEq

/-- The date of a day since the epoch. Days are counted from the first of March of year zero, so
that a leap day is the last of its year, and in eras of 400 years. -/
def civilDate (days : ℤ) : ℤ × ℕ × ℕ :=
  let z := days + 719468
  let era := z / 146097
  let doe := (z % 146097).toNat
  let yoe := (doe - doe / 1460 + doe / 36524 - doe / 146096) / 365
  let doy := doe - (365 * yoe + yoe / 4 - yoe / 100)
  let mp := (5 * doy + 2) / 153
  let mday := doy - (153 * mp + 2) / 5 + 1
  let mon := if mp < 10 then mp + 3 else mp - 9
  ((yoe : ℤ) + era * 400 + (if mon ≤ 2 then 1 else 0), mon, mday)

/-- `gmtime_r`. Where the year does not fit into an `int` nothing is written into the struct, whose
members are zero. How a C library fails there differs, and such clocks, past the year 2 147 485 547,
are not covered: no result depends on the digits. -/
def gmtime (t : ℤ) : Tm :=
  let (year, mon, mday) := civilDate (t / 86400)
  let s := (t % 86400).toNat
  if year - 1900 < INT_MIN ∨ INT_MAX < year - 1900 then {}
  else { year, mon, mday, hour := s / 3600, min := s / 60 % 60, sec := s % 60 }

/-- A number in decimal, with zeros before it up to `width` digits. -/
def padded (width n : ℕ) : Bytes := List.replicate (width - (decimal n).length) 48 ++ decimal n

/-- `strftime` with `"%Y-%m-%dT%H:%M:%S"`, for the times that `gmtime` covers. -/
def formatTime (tm : Tm) : Bytes :=
  decimalInt tm.year ++ str "-" ++ padded 2 tm.mon ++ str "-" ++ padded 2 tm.mday ++ str "T" ++
  padded 2 tm.hour ++ str ":" ++ padded 2 tm.min ++ str ":" ++ padded 2 tm.sec

example : formatTime (gmtime 951782400) = str "2000-02-29T00:00:00" := by decide +kernel

/-- The bytes of a time, and of the address of a client. -/
def isStamp (c : Byte) : Bool := isDigit c || c = 45 || c = 46 || c = 58 || c = 84 || c = 90

/-- The digits of a number are characters of a stamp. -/
theorem isStamp_decimal {n : ℕ} {c : Byte} (h : c ∈ decimal n) : isStamp c = true := by
  simp [isStamp, isDigit_of_mem_decimal h]

/-- The digits of a padded number are characters of a stamp. -/
theorem isStamp_padded {width n : ℕ} {c : Byte} (h : c ∈ padded width n) : isStamp c = true := by
  rcases List.mem_append.mp h with h | h
  · rw [List.eq_of_mem_replicate h]
    decide
  · exact isStamp_decimal h

/-- A time as it is written has the characters of a stamp only. -/
theorem isStamp_formatTime {tm : Tm} {c : Byte} (h : c ∈ formatTime tm) : isStamp c = true := by
  have hyear : ∀ n : ℤ, c ∈ decimalInt n → isStamp c = true := by
    intro n hn
    unfold decimalInt at hn
    split at hn
    · rcases List.mem_cons.mp hn with rfl | hn
      · decide
      · exact isStamp_decimal hn
    · exact isStamp_decimal hn
  have hdash : c ∈ str "-" → isStamp c = true := by
    intro hc
    obtain rfl : c = 45 := by simpa [str] using hc
    decide
  have hcolon : c ∈ str ":" → isStamp c = true := by
    intro hc
    obtain rfl : c = 58 := by simpa [str] using hc
    decide
  have hT : c ∈ str "T" → isStamp c = true := by
    intro hc
    obtain rfl : c = 84 := by simpa [str] using hc
    decide
  simp only [formatTime, List.mem_append] at h
  rcases h with ((((((((((h | h) | h) | h) | h) | h) | h) | h) | h) | h) | h)
  · exact hyear _ h
  · exact hdash h
  · exact isStamp_padded h
  · exact hdash h
  · exact isStamp_padded h
  · exact hT h
  · exact isStamp_padded h
  · exact hcolon h
  · exact isStamp_padded h
  · exact hcolon h
  · exact isStamp_padded h

/-! ## The line -/

/-- The request of an entry, as it stands between quotes. -/
def requestText (e : Entry) : Bytes := e.method ++ SP :: e.path ++ SP :: e.version

/-- The line that `write` builds, without the newline. -/
def logLine (ts : Bytes) (e : Entry) : Bytes :=
  ts ++ str " " ++ orDash e.clientIp ++
  str " \"" ++ requestText e ++ [QUOTE] ++
  str " host=" ++ orDash e.host ++
  str " upstream=" ++ orDash e.upstream ++
  str " status=" ++ decimalInt e.status ++
  str " bytes=" ++ decimal e.bytes ++
  str " cache=" ++ e.cache ++
  str " acl=" ++ e.acl ++
  str " rule=\"" ++ e.rule ++ [QUOTE] ++
  str " dur_us=" ++ decimalInt e.durationUs

/-! ## Where the fields come from -/

/-- An access control that was loaded, from one text or several. -/
inductive AccessControl.Loaded : AccessControl → Prop
  | new : Loaded {}
  | load {acl : AccessControl} (h : Loaded acl) (text : Bytes) : Loaded (acl.loadString text).acl

/-- The texts that a log line takes from an access control are of one line. -/
structure AccessControl.Unbroken (acl : AccessControl) : Prop where
  sources : ∀ r ∈ acl.rules, LF ∉ r.source
  hosts : ∀ route ∈ acl.routes.routes, LF ∉ route.2.host

/-- A word of a line without a line feed, and what is after it, have none. -/
theorem lf_notMem_nextWord {s : Bytes} (h : LF ∉ s) :
    LF ∉ (nextWord s).1 ∧ LF ∉ (nextWord s).2 := by
  have hdrop : LF ∉ s.dropWhile isSpace := fun hmem => h ((List.dropWhile_sublist _).subset hmem)
  unfold nextWord
  rw [List.span_eq_takeWhile_dropWhile]
  exact ⟨fun hmem => hdrop ((List.takeWhile_sublist _).subset hmem),
    fun hmem => hdrop ((List.dropWhile_sublist _).subset hmem)⟩

/-- A line that is loaded adds a rule with the line for its source, or a route to a word of it. -/
theorem AccessControl.Unbroken.loadLine {acl acl' : AccessControl} (h : acl.Unbroken) {lineno : ℕ}
    {line : Bytes} (hline : LF ∉ line) (hload : loadLine lineno acl line = .ok acl') :
    acl'.Unbroken := by
  have htrim : LF ∉ trim line := notMem_trim hline
  unfold ForwardProxy.loadLine at hload
  dsimp only at hload
  split at hload
  · cases hload
    exact h
  · rename_i hsome
    have hne : trim line ≠ [] := fun hnil => hsome (Or.inl hnil)
    split at hload
    · -- `default` sets the policy.
      unfold loadDefault at hload
      dsimp only at hload
      split at hload
      · cases hload
        exact ⟨h.sources, h.hosts⟩
      · split at hload
        · cases hload
          exact ⟨h.sources, h.hosts⟩
        · cases hload
    · split at hload
      -- `allow` and `deny` add a rule, with the line as its source.
      · unfold loadRule at hload
        dsimp only at hload
        split at hload
        · cases hload
        · split at hload
          · cases hload
          · cases hload
            refine ⟨fun r hr => ?_, h.hosts⟩
            rcases List.mem_append.mp hr with hr | hr
            · exact h.sources r hr
            · rw [List.mem_singleton.mp hr]
              dsimp only
              rw [if_neg hne]
              exact htrim
      · split at hload
        -- `route` adds a route, with a word of the line as its host.
        · unfold loadRoute at hload
          dsimp only at hload
          split at hload
          · cases hload
          · cases hload
            refine ⟨h.sources, fun route hroute => ?_⟩
            rcases List.mem_append.mp hroute with hroute | hroute
            · exact h.hosts route hroute
            · rw [List.mem_singleton.mp hroute]
              have hrest := (lf_notMem_nextWord htrim).2
              exact (lf_notMem_nextWord (lf_notMem_nextWord hrest).2).1
        · cases hload

/-- An access control that is loaded from lines has no line feed in its rules. -/
theorem AccessControl.Unbroken.loadLines {acl : AccessControl} (h : acl.Unbroken)
    {lines : List Bytes} (hlines : ∀ l ∈ lines, LF ∉ l) (lineno : ℕ) :
    (loadLines lineno acl lines).acl.Unbroken := by
  induction lines generalizing acl lineno with
  | nil => exact h
  | cons line lines ih =>
    obtain ⟨hline, hlines⟩ := List.forall_mem_cons.mp hlines
    rw [ForwardProxy.loadLines]
    split
    · rename_i acl' hload
      exact ih (h.loadLine hline hload) hlines _
    · exact h

/-- Whatever is loaded, the sources of the rules and the hosts of the routes are of one line. -/
theorem AccessControl.Loaded.unbroken {acl : AccessControl} (h : acl.Loaded) : acl.Unbroken := by
  induction h with
  | new => exact ⟨by simp, by simp⟩
  | load _ text ih => exact ih.loadLines (fun l hl => Lib.Lines.notMem_of_mem_lines hl) 0

/-- Nor has the rule that a check reports. -/
theorem AccessControl.Unbroken.matchedRule {acl : AccessControl} (h : acl.Unbroken)
    (req : Request) : LF ∉ (acl.check req).matchedRule := by
  have hloop : ∀ rules : List Rule, (∀ r ∈ rules, LF ∉ r.source) →
      LF ∉ (checkRules acl.defaultPolicy req rules).matchedRule := by
    intro rules
    induction rules with
    | nil =>
      have hdefault : LF ∉ str "default" := by decide +kernel
      exact fun _ => hdefault
    | cons r rules ih =>
      intro hrules
      obtain ⟨hr, hrules⟩ := List.forall_mem_cons.mp hrules
      rw [checkRules]
      split
      · exact hr
      · exact ih hrules
  exact hloop acl.rules h.sources

/-- The host that is contacted is that of a route, or a part of the authority. -/
theorem AccessControl.Unbroken.resolve {acl : AccessControl} (h : acl.Unbroken) {host : Bytes}
    (hhost : LF ∉ host) : LF ∉ (acl.routes.resolve host).host := by
  unfold RouteTable.resolve
  dsimp only
  split
  · rename_i route hroute
    exact h.hosts route (List.mem_of_find?_eq_some hroute)
  · have htake : ∀ n, LF ∉ host.take n := fun n hmem => hhost (List.mem_of_mem_take hmem)
    unfold splitAuthority
    split
    · exact hhost
    · dsimp only
      split
      · split
        · exact htake _
        · exact htake _
      · exact hhost

/-- An entry as the program makes it: for a request that was parsed from `raw`, valid or not, and
with what the access control `acl` says of it, or the text of an error. -/
structure Entry.Genuine (acl : AccessControl) (raw : Bytes) (e : Entry) : Prop where
  /-- An IPv4 address from `inet_ntop`. -/
  clientIp : ∀ c ∈ e.clientIp, isStamp c = true
  method : e.method = (parseRequest raw).method ∨ e.method = str "-"
  path : e.path = (parseRequest raw).path ∨ e.path = str "-"
  version : e.version = (parseRequest raw).version ∨ e.version = str "-"
  host : e.host = (parseRequest raw).host ∨ e.host = []
  upstream : e.upstream = [] ∨
    e.upstream = (acl.routes.resolve (parseRequest raw).host).host ++ str ":" ++
      decimalInt (acl.routes.resolve (parseRequest raw).host).port
  cache : e.cache ∈ [str "-", str "HIT", str "MISS", str "BYPASS"]
  decision : e.acl ∈ [str "-", str "ALLOW", str "DENY"]
  rule : e.rule = (acl.check (parseRequest raw)).matchedRule ∨ LF ∉ e.rule

/-- A number has no line feed. -/
theorem lf_notMem_decimal (n : ℕ) : LF ∉ decimal n := fun h =>
  absurd (isDigit_of_mem_decimal h) (by decide)

/-- Nor has one with a sign. -/
theorem lf_notMem_decimalInt (n : ℤ) : LF ∉ decimalInt n := by
  have hminus : LF ≠ 45 := by decide
  unfold decimalInt
  split <;> simp [hminus, lf_notMem_decimal]

/-- A dash for an empty text has no line feed. -/
theorem lf_notMem_orDash {s : Bytes} (h : LF ∉ s) : LF ∉ orDash s := by
  have hdash : LF ∉ str "-" := by decide +kernel
  unfold orDash
  split
  · exact hdash
  · exact h

/-- No field of an entry of the program has a line feed. -/
theorem Entry.Genuine.unbroken {acl : AccessControl} (hacl : acl.Loaded) {raw : Bytes} {e : Entry}
    (h : e.Genuine acl raw) : LF ∉ e.clientIp ∧ LF ∉ requestText e ∧ LF ∉ e.host ∧
      LF ∉ e.upstream ∧ LF ∉ e.cache ∧ LF ∉ e.acl ∧ LF ∉ e.rule := by
  obtain ⟨hfree, -⟩ := unbroken_parseRequest raw
  have hacl := hacl.unbroken
  have hdash : LF ∉ str "-" := by decide +kernel
  have hcolon : LF ∉ str ":" := by decide +kernel
  have hsp : LF ≠ SP := by decide
  have hcache : ∀ s ∈ [str "-", str "HIT", str "MISS", str "BYPASS"], LF ∉ s := by decide +kernel
  have hdecision : ∀ s ∈ [str "-", str "ALLOW", str "DENY"], LF ∉ s := by decide +kernel
  refine ⟨fun hmem => absurd (h.clientIp LF hmem) (by decide), ?_, ?_, ?_, hcache _ h.cache,
    hdecision _ h.decision, ?_⟩
  -- The words of the request line come from a line of the request, or are a dash.
  · have hmethod : LF ∉ e.method := by
      rcases h.method with heq | heq <;> rw [heq]
      · exact hfree.method
      · exact hdash
    have hpath : LF ∉ e.path := by
      rcases h.path with heq | heq <;> rw [heq]
      · exact hfree.path
      · exact hdash
    have hversion : LF ∉ e.version := by
      rcases h.version with heq | heq <;> rw [heq]
      · exact hfree.version
      · exact hdash
    simp [requestText, hmethod, hpath, hversion, hsp]
  · rcases h.host with heq | heq <;> rw [heq]
    · exact hfree.host
    · simp
  · rcases h.upstream with heq | heq <;> rw [heq]
    · simp
    · simp [hacl.resolve hfree.host, hcolon, lf_notMem_decimalInt]
  · rcases h.rule with heq | hrule
    · rw [heq]
      exact hacl.matchedRule _
    · exact hrule

/-- The line of an entry of the program is one line, whatever the client has sent. -/
theorem lf_notMem_logLine {acl : AccessControl} (hacl : acl.Loaded) {raw ts : Bytes} {e : Entry}
    (h : e.Genuine acl raw) (hts : LF ∉ ts) : LF ∉ logLine ts e := by
  obtain ⟨hip, hrequest, hhost, hupstream, hcache, hdecision, hrule⟩ := h.unbroken hacl
  have hkeys : ∀ s ∈ [str " ", str " \"", [QUOTE], str " host=", str " upstream=", str " status=",
      str " bytes=", str " cache=", str " acl=", str " rule=\"", str " dur_us="], LF ∉ s := by
    decide +kernel
  simp only [List.forall_mem_cons] at hkeys
  obtain ⟨hblank, hopen, hclose, hk1, hk2, hk3, hk4, hk5, hk6, hk7, hk8, -⟩ := hkeys
  unfold logLine
  simp only [List.mem_append, not_or]
  simp only [hts, hblank, hopen, hclose, hk1, hk2, hk3, hk4, hk5, hk6, hk7, hk8, hrequest, hcache,
    hdecision, hrule, lf_notMem_orDash hip, lf_notMem_orDash hhost, lf_notMem_orDash hupstream,
    lf_notMem_decimal, lf_notMem_decimalInt, not_false_eq_true, and_self]

/-! ## The entries of the program -/

/-- Every upstream that failed so far gave its reason on one line. -/
def ErrorsUnbroken (h : List ServeEvent) : Prop :=
  ∀ up bytes, ∀ res : UpstreamResult, (⟨.fetchUpstream up bytes, res⟩ : ServeEvent) ∈ h →
    LF ∉ res.error

/-- An entry for a request that was parsed from `raw` and is served: the fields of the request, what
the access control says of it, and for the rule, where an upstream failed, the reason of the
failure. -/
structure Entry.Served (acl : AccessControl) (raw : Bytes) (h : List ServeEvent) (e : Entry) :
    Prop where
  clientIp : ∀ c ∈ e.clientIp, isStamp c = true
  method : e.method = (parseRequest raw).method
  path : e.path = (parseRequest raw).path
  version : e.version = (parseRequest raw).version
  host : e.host = (parseRequest raw).host
  upstream : e.upstream = [] ∨
    e.upstream = (acl.routes.resolve (parseRequest raw).host).host ++ str ":" ++
      decimalInt (acl.routes.resolve (parseRequest raw).host).port
  cache : e.cache ∈ [str "-", str "HIT", str "MISS", str "BYPASS"]
  decision : e.acl ∈ [str "-", str "ALLOW", str "DENY"]
  rule : e.rule = (acl.check (parseRequest raw)).matchedRule ∨ ∃ up bytes, ∃ res : UpstreamResult,
    (⟨.fetchUpstream up bytes, res⟩ : ServeEvent) ∈ h ∧ e.rule = res.error

/-- What is logged for a request is an entry for the request. -/
def LogsServed (acl : AccessControl) (raw : Bytes) (h : List ServeEvent) : ServeOp → Prop
  | .logWrite e => e.Served acl raw h
  | _ => True

/-- What is logged for a request is genuine. -/
def LogsGenuine (acl : AccessControl) (raw : Bytes) (h : List ServeEvent) : ServeOp → Prop
  | .logWrite e => ErrorsUnbroken h → e.Genuine acl raw
  | _ => True

section Program

variable {acl : AccessControl} {raw : Bytes} {h : List ServeEvent}

/-- More events leave the entry that of the request. -/
theorem Entry.Served.append {e : Entry} (hlog : e.Served acl raw h) (es : List ServeEvent) :
    e.Served acl raw (h ++ es) := by
  refine ⟨hlog.clientIp, hlog.method, hlog.path, hlog.version, hlog.host, hlog.upstream, hlog.cache,
    hlog.decision, hlog.rule.imp_right ?_⟩
  rintro ⟨up, bytes, res, hmem, herror⟩
  exact ⟨up, bytes, res, List.mem_append_left _ hmem, herror⟩

/-- Where the upstream gives its reasons on one line, the entry of a request that is served is
genuine. -/
theorem Entry.Served.genuine {e : Entry} (hlog : e.Served acl raw h) (herrors : ErrorsUnbroken h) :
    e.Genuine acl raw := by
  refine ⟨hlog.clientIp, Or.inl hlog.method, Or.inl hlog.path, Or.inl hlog.version,
    Or.inl hlog.host, hlog.upstream, hlog.cache, hlog.decision, hlog.rule.imp_right ?_⟩
  rintro ⟨up, bytes, res, hmem, herror⟩
  rw [herror]
  exact herrors up bytes res hmem

/-- `finish` adds to an entry what its caller has counted and measured. -/
theorem finish_served {log : Entry} (hlog : log.Served acl raw h) (t0 : ℤ) (status : ℤ) (bytes : ℕ)
    {cacheState : Bytes} (hcache : cacheState ∈ [str "-", str "HIT", str "MISS", str "BYPASS"])
    (keepAlive : Bool) : Prog.Sat (LogsServed acl raw) (fun _ _ => True) h
      (finish t0 log status bytes cacheState keepAlive) := by
  refine ⟨trivial, fun t => ⟨?_, fun _ => trivial⟩⟩
  have hpast := hlog.append [⟨.now, t⟩]
  exact ⟨hpast.clientIp, hpast.method, hpast.path, hpast.version, hpast.host, hpast.upstream,
    hcache, hpast.decision, hpast.rule⟩

/-- What is logged of the cache, where nothing was found, is one of its states. -/
theorem missState_mem (req : Request) :
    missState req ∈ [str "-", str "HIT", str "MISS", str "BYPASS"] := by
  unfold missState
  split <;> simp

/-- Forwarding logs an entry of the request. -/
theorem forward_served {log : Entry} (hlog : log.Served acl raw h) (t0 : ℤ) (up : Upstream)
    (req : Request) (consumed : ℕ) : Prog.Sat (LogsServed acl raw) (fun _ _ => True) h
      (forward t0 log up req consumed) := by
  rw [forward, Prog.sat_perform_bind]
  refine ⟨trivial, fun ur => ?_⟩
  have hfetched := hlog.append [⟨.fetchUpstream up (req.raw.take consumed), ur⟩]
  split
  · simp only [Prog.sat_perform_bind]
    refine ⟨trivial, fun _ => ⟨trivial, fun _ => finish_served ?_ _ _ _ (missState_mem req) _⟩⟩
    -- The rule gives way to the error of the upstream.
    refine ⟨hlog.clientIp, hlog.method, hlog.path, hlog.version, hlog.host, hlog.upstream,
      hlog.cache, hlog.decision, Or.inr ⟨up, req.raw.take consumed, ur, by simp, rfl⟩⟩
  · simp only [Prog.sat_perform_bind]
    refine ⟨trivial, fun _ => ?_⟩
    split
    · simp only [Prog.sat_perform_bind]
      exact ⟨trivial, fun _ => ⟨trivial, fun _ => finish_served
        (((hfetched.append _).append _).append _) _ _ _ (missState_mem req) _⟩⟩
    · simp only [Prog.sat_perform_bind]
      exact ⟨trivial, fun _ => finish_served ((hfetched.append _).append _) _ _ _
        (missState_mem req) _⟩

/-- Serving a request logs entries for the request. -/
theorem serveOneRequest_served (acl : AccessControl) {clientIp : Bytes}
    (hip : ∀ c ∈ clientIp, isStamp c = true) (raw : Bytes) (consumed : ℕ) :
    Prog.Sat (LogsServed acl raw) (fun _ _ => True) []
      (serveOneRequest acl clientIp (parseRequest raw) consumed) := by
  -- The entry before it is ended, whether it has an upstream yet or not.
  have hlog : ∀ upstream h, (upstream = [] ∨
      upstream = (acl.routes.resolve (parseRequest raw).host).host ++ str ":" ++
        decimalInt (acl.routes.resolve (parseRequest raw).host).port) → ∀ decision : Decision,
      ({ clientIp := clientIp
         method := (parseRequest raw).method
         path := (parseRequest raw).path
         version := (parseRequest raw).version
         host := (parseRequest raw).host
         upstream := upstream
         acl := if decision = .allow then str "ALLOW" else str "DENY"
         rule := (acl.check (parseRequest raw)).matchedRule } : Entry).Served acl raw h := by
    intro upstream h hupstream decision
    refine ⟨hip, rfl, rfl, rfl, rfl, hupstream, by simp, ?_, Or.inl rfl⟩
    dsimp only
    split <;> simp
  simp only [serveOneRequest, Prog.sat_perform_bind]
  refine ⟨trivial, fun t0 => ⟨trivial, fun _ => ?_⟩⟩
  split
  · simp only [Prog.sat_perform_bind]
    exact ⟨trivial, fun _ => ⟨trivial, fun _ => finish_served (hlog _ _ (Or.inl rfl) _) _ _ _
      (by simp) _⟩⟩
  · split
    · rw [Prog.sat_perform_bind]
      refine ⟨trivial, fun hit => ?_⟩
      cases hit with
      | some hit =>
        simp only [Prog.sat_perform_bind]
        exact ⟨trivial, fun _ => ⟨trivial, fun _ => finish_served (hlog _ _ (Or.inr rfl) _) _ _ _
          (by simp) _⟩⟩
      | none => exact forward_served (hlog _ _ (Or.inr rfl) _) ..
    · exact forward_served (hlog _ _ (Or.inr rfl) _) ..

/-- So they are genuine. -/
theorem serveOneRequest_genuine (acl : AccessControl) {clientIp : Bytes}
    (hip : ∀ c ∈ clientIp, isStamp c = true) (raw : Bytes) (consumed : ℕ) :
    Prog.Sat (LogsGenuine acl raw) (fun _ _ => True) []
      (serveOneRequest acl clientIp (parseRequest raw) consumed) := by
  refine (serveOneRequest_served acl hip raw consumed).mono fun h o ho => ?_
  cases o with
  | logWrite e => exact fun herrors => Entry.Served.genuine ho herrors
  | _ => trivial

/-- So does a request that is rejected. -/
theorem badRequestEvents_genuine (acl : AccessControl) {clientIp : Bytes}
    (hip : ∀ c ∈ clientIp, isStamp c = true) (raw : Bytes) {e : Entry}
    (he : .logged e ∈ badRequestEvents clientIp (parseRequest raw)) : e.Genuine acl raw := by
  have hdash : ∀ s, orDash s = s ∨ orDash s = str "-" := by
    intro s
    unfold orDash
    split
    · exact Or.inr rfl
    · exact Or.inl rfl
  simp only [badRequestEvents, List.mem_cons, reduceCtorEq, ConnEvent.logged.injEq,
    List.not_mem_nil, or_false, false_or] at he
  rw [he]
  exact ⟨hip, hdash _, hdash _, hdash _, Or.inr rfl, Or.inl rfl, by simp, by simp,
    Or.inr (unbroken_parseRequest raw).2⟩

end Program

end ForwardProxy
