import ForwardProxy.Lib.Fields
import ForwardProxy.Server.LogLine

/-!
# The fields of a log line

The comment on `AccessLog` has its lines of the form key=value with spaces between them, so that
they parse without a schema, and the request and the rule are written in quotes. Nothing is escaped.
So what was written is read back for the entries whose texts do not break out of their places, and
for no others (`log_readable_iff`).
-/

namespace ForwardProxy

open Lib.Fields Lib.Interaction

/-- A text in quotes. -/
def quoted (s : Bytes) : Bytes := QUOTE :: (s ++ [QUOTE])

/-- What is before the keys. -/
def logStart (ts : Bytes) (e : Entry) : Bytes :=
  ts ++ SP :: (orDash e.clientIp ++ SP :: quoted (requestText e))

/-- The keys that name places, with the values of the entry. -/
def logPlaces (e : Entry) : List (Bytes × Bytes) :=
  [(str "host=", orDash e.host), (str "upstream=", orDash e.upstream)]

/-- The keys that say what came of the request. -/
def logOutcome (e : Entry) : List (Bytes × Bytes) :=
  [(str "status=", decimalInt e.status), (str "bytes=", decimal e.bytes), (str "cache=", e.cache),
    (str "acl=", e.acl)]

/-- The keys of a line, with the values of the entry. -/
def logFields (e : Entry) : List (Bytes × Bytes) :=
  logPlaces e ++ logOutcome e ++
    [(str "rule=", quoted e.rule), (str "dur_us=", decimalInt e.durationUs)]

/-- The keys of a line. -/
def logKeys : List Bytes :=
  [str "host=", str "upstream=", str "status=", str "bytes=", str "cache=", str "acl=", str "rule=",
    str "dur_us="]

/-- The entry is read back from the line: each key once, with its value, and the path as the fourth
word. -/
structure ReadsBack (ts : Bytes) (e : Entry) : Prop where
  fields : ∀ kv ∈ logFields e,
    (fields SP QUOTE (logLine ts e)).filter (fun f => kv.1 <+: f) = [kv.1 ++ kv.2]
  path : (Lib.Lines.lines SP (logLine ts e))[3]? = some e.path

/-- The texts of an entry that stay in their places: the quotes of each are paired, no space outside
quotes is in the host, the upstream or the rule, and none in the request has a key behind it. -/
structure Entry.Legible (e : Entry) : Prop where
  request : inside QUOTE false (quoted (requestText e)) = false
  unforged : ∀ k ∈ logKeys, ∀ a b, quoted (requestText e) = a ++ SP :: b →
    inside QUOTE false a = false → ¬k <+: b
  host : Whole SP QUOTE (orDash e.host)
  upstream : Whole SP QUOTE (orDash e.upstream)
  rule : Whole SP QUOTE (quoted e.rule)

/-! ## The line as keys and values -/

/-- A line is its start, and then its keys with their values. -/
theorem logLine_eq (ts : Bytes) (e : Entry) :
    logLine ts e = logStart ts e ++ keyed SP (logFields e) := by
  have hkeys : str " " = [SP] ∧ str " \"" = [SP, QUOTE] ∧ str " host=" = SP :: str "host=" ∧
      str " upstream=" = SP :: str "upstream=" ∧ str " status=" = SP :: str "status=" ∧
      str " bytes=" = SP :: str "bytes=" ∧ str " cache=" = SP :: str "cache=" ∧
      str " acl=" = SP :: str "acl=" ∧ str " rule=\"" = SP :: (str "rule=" ++ [QUOTE]) ∧
      str " dur_us=" = SP :: str "dur_us=" :=
    ⟨rfl, rfl, rfl, rfl, rfl, rfl, rfl, rfl, rfl, rfl⟩
  obtain ⟨h₀, h₁, h₂, h₃, h₄, h₅, h₆, h₇, h₈, h₉⟩ := hkeys
  unfold logLine
  rw [h₀, h₁, h₂, h₃, h₄, h₅, h₆, h₇, h₈, h₉]
  simp [logStart, logFields, logPlaces, logOutcome, keyed, quoted]

/-- The keys have no space and no quote. -/
theorem bare_key {k : Bytes} (hk : k ∈ logKeys) : Bare SP QUOTE k := by
  have hkeys : ∀ k ∈ logKeys, SP ∉ k ∧ QUOTE ∉ k := by decide
  exact ⟨(hkeys k hk).1, (hkeys k hk).2⟩

/-- The fields of a line have its keys. -/
theorem map_fst_logFields (e : Entry) : (logFields e).map Prod.fst = logKeys := rfl

/-- No key of a line is a start of another one. -/
theorem logFields_pairwise (e : Entry) :
    (logFields e).Pairwise fun kv kv' => ¬kv.1 <+: kv'.1 ∧ ¬kv'.1 <+: kv.1 := by
  have hkeys : logKeys.Pairwise fun k k' => ¬k <+: k' ∧ ¬k' <+: k := by decide
  rw [← map_fst_logFields e] at hkeys
  exact List.pairwise_map.mp hkeys

/-- A stamp has neither spaces nor quotes. -/
theorem bare_of_isStamp {s : Bytes} (h : ∀ c ∈ s, isStamp c = true) : Bare SP QUOTE s :=
  ⟨fun hc => absurd (h SP hc) (by decide), fun hc => absurd (h QUOTE hc) (by decide)⟩

/-- A number has neither spaces nor quotes. -/
theorem bare_decimalInt (n : ℤ) : Bare SP QUOTE (decimalInt n) := by
  refine bare_of_isStamp fun c hc => ?_
  unfold decimalInt at hc
  split at hc
  · rcases List.mem_cons.mp hc with rfl | hc
    · decide
    · exact isStamp_decimal hc
  · exact isStamp_decimal hc

section Entry

variable {acl : AccessControl} {raw : Bytes} {h : List ServeEvent} {e : Entry}

/-- The values between the upstream and the rule have no space and no quote. -/
theorem bare_logOutcome (he : e.Served acl raw h) :
    ∀ kv ∈ logOutcome e, Bare SP QUOTE kv.1 ∧ Bare SP QUOTE kv.2 := by
  have hcache : ∀ s ∈ [str "-", str "HIT", str "MISS", str "BYPASS"], SP ∉ s ∧ QUOTE ∉ s := by
    decide
  have hdecision : ∀ s ∈ [str "-", str "ALLOW", str "DENY"], SP ∉ s ∧ QUOTE ∉ s := by
    decide
  simp only [logOutcome, List.forall_mem_cons, List.not_mem_nil, false_implies, implies_true,
    and_true]
  refine ⟨⟨bare_key (by simp [logKeys]), bare_decimalInt _⟩,
    ⟨bare_key (by simp [logKeys]), bare_of_isStamp fun c hc => isStamp_decimal hc⟩,
    ⟨bare_key (by simp [logKeys]), ?_⟩, bare_key (by simp [logKeys]), ?_⟩
  · exact ⟨(hcache _ he.cache).1, (hcache _ he.cache).2⟩
  · exact ⟨(hdecision _ he.decision).1, (hdecision _ he.decision).2⟩

/-- A field that says what came of the request is one word without quotes. -/
theorem whole_logOutcome (he : e.Served acl raw h) :
    ∀ kv ∈ logOutcome e, Whole SP QUOTE (kv.1 ++ kv.2) := fun kv hkv =>
  (whole_append_iff (bare_logOutcome he kv hkv).1).mpr (bare_logOutcome he kv hkv).2.whole

/-- What is written for a stamp is a stamp. -/
theorem isStamp_orDash {s : Bytes} (hs : ∀ c ∈ s, isStamp c = true) :
    ∀ c ∈ orDash s, isStamp c = true := by
  unfold orDash
  split
  · intro c hc
    obtain rfl : c = 45 := by simpa [str] using hc
    decide
  · exact hs

/-- Before the keys stand the time, the address and the fields of the request in its quotes. -/
theorem fields_logStart (he : e.Served acl raw h) {ts : Bytes} (hts : ∀ c ∈ ts, isStamp c = true) :
    fields SP QUOTE (logStart ts e) =
      ts :: orDash e.clientIp :: fields SP QUOTE (quoted (requestText e)) := by
  have hsep : SP ≠ QUOTE := by decide
  have hstart := (bare_of_isStamp hts).whole
  have hip := (bare_of_isStamp (isStamp_orDash he.clientIp)).whole
  rw [logStart, fields_append_cons hsep hstart.closed, fields_append_cons hsep hip.closed,
    hstart.fields_eq, hip.fields_eq]
  rfl

/-- What is before the keys leaves off inside quotes exactly where the quoted request does. -/
theorem inside_logStart (he : e.Served acl raw h) {ts : Bytes} (hts : ∀ c ∈ ts, isStamp c = true) :
    inside QUOTE false (logStart ts e) = inside QUOTE false (quoted (requestText e)) := by
  have hsep : SP ≠ QUOTE := by decide
  rw [logStart, inside_append, inside_of_notMem (bare_of_isStamp hts).quote, inside, if_neg hsep,
    inside_append, inside_of_notMem (bare_of_isStamp (isStamp_orDash he.clientIp)).quote, inside,
    if_neg hsep]

/-- No field before the keys has a key exactly if there is none in the request. -/
theorem logStart_unforged_iff (he : e.Served acl raw h) {ts : Bytes}
    (hts : ∀ c ∈ ts, isStamp c = true) {k : Bytes} (hk : k ∈ logKeys) :
    (∀ f ∈ fields SP QUOTE (logStart ts e), ¬k <+: f) ↔
      ∀ a b, quoted (requestText e) = a ++ SP :: b → inside QUOTE false a = false → ¬k <+: b := by
  have hfirst : ∀ k ∈ logKeys, ∃ c ∈ k.head?, isStamp c = false := by decide
  obtain ⟨c, hc, hstamp⟩ := hfirst k hk
  obtain ⟨k, rfl⟩ : ∃ t, k = c :: t := by
    cases k with
    | nil => cases hc
    | cons d t => exact ⟨t, by rw [Option.mem_some.mp hc]⟩
  have hother : ∀ s : Bytes, (∀ c ∈ s, isStamp c = true) → ¬c :: k <+: s := by
    intro s hs hpre
    rw [hs c (hpre.subset List.mem_cons_self)] at hstamp
    cases hstamp
  have hquote : ¬c :: k <+: quoted (requestText e) := by
    intro hpre
    obtain ⟨rfl, -⟩ := List.cons_prefix_cons.mp hpre
    exact (bare_key hk).quote List.mem_cons_self
  have hkey := @exists_key_iff _ _ SP QUOTE (quoted (requestText e)) (by decide) _ (bare_key hk)
  rw [fields_logStart he hts]
  simp only [List.forall_mem_cons, hother ts hts, hother _ (isStamp_orDash he.clientIp),
    not_false_eq_true, true_and]
  constructor
  · intro hnone a b hab ha hb
    obtain ⟨f, hf, hkf⟩ := hkey.mpr (Or.inr ⟨a, b, hab, ha, hb⟩)
    exact hnone f hf hkf
  · intro hnone f hf hkf
    rcases hkey.mp ⟨f, hf, hkf⟩ with hpre | ⟨a, b, hab, ha, hb⟩
    · exact hquote hpre
    · exact hnone a b hab ha hb

/-- The path is the fourth word, whatever the entry. -/
theorem path_logLine (he : e.Served acl raw h) {ts : Bytes} (hts : ∀ c ∈ ts, isStamp c = true) :
    (Lib.Lines.lines SP (logLine ts e))[3]? = some e.path := by
  obtain ⟨hmethod, hpath⟩ := space_parseRequest raw
  rw [← he.method] at hmethod
  rw [← he.path] at hpath
  have hquote : SP ∉ QUOTE :: e.method := by
    have hne : SP ≠ QUOTE := by decide
    simp [hne, hmethod]
  have hsplit : logLine ts e = ts ++ SP :: (orDash e.clientIp ++ SP :: (QUOTE :: e.method ++
      SP :: (e.path ++ SP :: (e.version ++ [QUOTE] ++ keyed SP (logFields e))))) := by
    rw [logLine_eq]
    simp [logStart, quoted, requestText]
  rw [hsplit, Lib.Lines.lines_append_cons (bare_of_isStamp hts).sep,
    Lib.Lines.lines_append_cons (bare_of_isStamp (isStamp_orDash he.clientIp)).sep,
    Lib.Lines.lines_append_cons hquote, Lib.Lines.lines_append_cons hpath]
  rfl

/-! ## Reading back -/

/-- The values are whole where those that are not the proxy's own are. -/
theorem whole_logFields (he : e.Served acl raw h) (hhost : Whole SP QUOTE (orDash e.host))
    (hupstream : Whole SP QUOTE (orDash e.upstream)) (hrule : Whole SP QUOTE (quoted e.rule)) :
    ∀ kv ∈ logFields e, Whole SP QUOTE (kv.1 ++ kv.2) := by
  have hkeyed : ∀ {k v}, k ∈ logKeys → Whole SP QUOTE v → Whole SP QUOTE (k ++ v) :=
    fun hk hv => (whole_append_iff (bare_key hk)).mpr hv
  have hdur := bare_decimalInt e.durationUs
  simp only [logFields, List.forall_mem_append]
  refine ⟨⟨?_, whole_logOutcome he⟩, ?_⟩
  · simp only [logPlaces, List.forall_mem_cons, List.not_mem_nil, false_implies, implies_true,
      and_true]
    exact ⟨hkeyed (by simp [logKeys]) hhost, hkeyed (by simp [logKeys]) hupstream⟩
  · simp only [List.forall_mem_cons, List.not_mem_nil, false_implies, implies_true, and_true]
    exact ⟨hkeyed (by simp [logKeys]) hrule, hkeyed (by simp [logKeys]) hdur.whole⟩

/-- A legible entry of a request that is served is read back from its line. -/
theorem Entry.Legible.readsBack (hlegible : e.Legible) (he : e.Served acl raw h) {ts : Bytes}
    (hts : ∀ c ∈ ts, isStamp c = true) : ReadsBack ts e := by
  refine ⟨fun kv hkv => ?_, path_logLine he hts⟩
  have hk : kv.1 ∈ logKeys := List.mem_map_of_mem hkv
  have hclosed := (inside_logStart he hts).trans hlegible.request
  rw [logLine_eq]
  have hwhole := whole_logFields he hlegible.host hlegible.upstream hlegible.rule
  exact (filter_fields_iff (by decide) hclosed hwhole (logFields_pairwise e) hkv).mpr
    ((logStart_unforged_iff he hts hk).mpr (hlegible.unforged kv.1 hk))

/-- Another status leaves the entry that of the request. -/
theorem Entry.Served.withStatus (he : e.Served acl raw h) (status : ℤ) :
    Entry.Served acl raw h { e with status } :=
  ⟨he.clientIp, he.method, he.path, he.version, he.host, he.upstream, he.cache, he.decision,
    he.rule⟩

/-- What is read back of an entry with any status. -/
theorem filter_of_readsBack {ts : Bytes} {status : ℤ} (hback : ReadsBack ts { e with status })
    (kv : Bytes × Bytes) (hkv : kv ∈ logFields { e with status }) :
    (fields SP QUOTE (logStart ts e ++ keyed SP (logFields { e with status }))).filter
      (fun f => kv.1 <+: f) = [kv.1 ++ kv.2] := by
  have hfilter := hback.fields kv hkv
  rw [logLine_eq] at hfilter
  exact hfilter

/-- Where an entry is read back with every status, no quote is open in front of the status. -/
theorem closed_before_status {ts : Bytes} (hback : ∀ status, ReadsBack ts { e with status })
    (he : e.Served acl raw h) :
    inside QUOTE false (logStart ts e ++ keyed SP (logPlaces e)) = false := by
  have hbare : ∀ s ∈ [str "status=", decimalInt 200, decimalInt 404], Bare SP QUOTE s := by
    simp only [List.forall_mem_cons, List.not_mem_nil, false_implies, implies_true, and_true]
    exact ⟨bare_key (by simp [logKeys]), bare_decimalInt 200, bare_decimalInt 404⟩
  set w := keyed SP [(str "bytes=", decimal e.bytes), (str "cache=", e.cache),
    (str "acl=", e.acl)] ++ SP :: str "rule=" with hw
  set y := e.rule ++ [QUOTE] ++ keyed SP [(str "dur_us=", decimalInt e.durationUs)] with hy
  have hquote : QUOTE ∉ w := by
    have houtcome := bare_logOutcome he
    have hrule := (@bare_key (str "rule=") (by simp [logKeys])).quote
    have hne : QUOTE ≠ SP := by decide
    simp only [logOutcome, List.forall_mem_cons, List.not_mem_nil, false_implies, implies_true,
      and_true] at houtcome
    obtain ⟨-, ⟨hk₁, hv₁⟩, ⟨hk₂, hv₂⟩, hk₃, hv₃⟩ := houtcome
    simp [hw, keyed, hne, hrule, hk₁.quote, hv₁.quote, hk₂.quote, hv₂.quote, hk₃.quote, hv₃.quote]
  refine @closed_of_filter _ _ SP QUOTE _ (by decide) (str "status=") (decimalInt 200)
    (decimalInt 404) w y (by decide) hbare hquote ?_
  have hread : ∀ status : ℤ, (fields SP QUOTE (logStart ts e ++ keyed SP (logPlaces e) ++
      SP :: (str "status=" ++ decimalInt status ++ w ++ QUOTE :: y))).filter
        (fun f => str "status=" <+: f) = [str "status=" ++ decimalInt status] := by
    intro status
    have hline : logStart ts e ++ keyed SP (logFields { e with status }) =
        logStart ts e ++ keyed SP (logPlaces e) ++
          SP :: (str "status=" ++ decimalInt status ++ w ++ QUOTE :: y) := by
      simp [hw, hy, logFields, logPlaces, logOutcome, keyed, quoted]
    rw [← hline]
    exact filter_of_readsBack (hback status) (str "status=", decimalInt status)
      (by simp [logFields, logOutcome])
  simp only [List.forall_mem_cons, List.not_mem_nil, false_implies, implies_true, and_true]
  exact ⟨hread 200, hread 404⟩

/-- An entry that is read back with every status is legible. No quote is open in front of the
status, so the rule is whole, and the quotes of the line are paired; with them those of the host and
of the upstream, which are fields, and so those of the request. -/
theorem legible_of_readsBack (he : e.Served acl raw h) {ts : Bytes}
    (hts : ∀ c ∈ ts, isStamp c = true) (hback : ∀ status, ReadsBack ts { e with status }) :
    e.Legible := by
  have hsep : SP ≠ QUOTE := by decide
  have hfilter := filter_of_readsBack (hback e.status)
  have hstatus := closed_before_status hback he
  have houtcome := whole_logOutcome he
  have hdur := (whole_append_iff (@bare_key (str "dur_us=") (by simp [logKeys]))).mpr
    (bare_decimalInt e.durationUs).whole
  set start := logStart ts e with hstart
  -- No quote is open before the rule, as the status is read back.
  have hclosed : inside QUOTE false (start ++ keyed SP (logPlaces e ++ logOutcome e)) = false := by
    have hsplit : start ++ keyed SP (logPlaces e ++ logOutcome e) =
        start ++ keyed SP (logPlaces e) ++ keyed SP (logOutcome e) := by
      simp [keyed]
    rw [hsplit, inside_append_keyed hsep fun kv hkv => (houtcome kv hkv).closed]
    exact hstatus
  -- So the rule is one field, and closes its quotes.
  have hrule : Whole SP QUOTE (str "rule=" ++ quoted e.rule) :=
    whole_of_filter hsep hclosed (bare_key (by simp [logKeys]))
      (hfilter (str "rule=", quoted e.rule) (by simp [logFields]))
  have hline : inside QUOTE false (start ++ keyed SP (logFields e)) = false := by
    have hsplit : start ++ keyed SP (logFields e) =
        start ++ keyed SP (logPlaces e ++ logOutcome e) ++
          keyed SP [(str "rule=", quoted e.rule), (str "dur_us=", decimalInt e.durationUs)] := by
      simp [logFields, keyed]
    rw [hsplit, inside_append_keyed hsep]
    · exact hclosed
    · simp only [List.forall_mem_cons, List.not_mem_nil, false_implies, implies_true, and_true]
      exact ⟨hrule.closed, hdur.closed⟩
  -- The fields before it are found among the fields of the line, so they close their quotes too.
  have hplaces : ∀ kv ∈ logPlaces e, inside QUOTE false (kv.1 ++ kv.2) = false := by
    intro kv hkv
    have hfield : kv.1 ++ kv.2 ∈ (fields SP QUOTE (start ++ keyed SP (logFields e))).filter
        fun f => kv.1 <+: f := by
      rw [hfilter kv (by simp [logFields, hkv])]
      exact List.mem_singleton_self _
    exact inside_of_mem_fields hsep hline _ (List.mem_of_mem_filter hfield)
  have hrequest : inside QUOTE false start = false := by
    rw [← inside_append_keyed hsep hplaces]
    exact hstatus
  -- Now the host and the upstream are single fields, one after the other.
  have hhost : Whole SP QUOTE (str "host=" ++ orDash e.host) := by
    refine @whole_of_filter _ _ SP QUOTE start hsep [] _ ?_ _ _ (bare_key (by simp [logKeys])) _
      (hfilter (str "host=", orDash e.host) (by simp [logFields, logPlaces]))
    simpa [keyed] using hrequest
  have hupstream : Whole SP QUOTE (str "upstream=" ++ orDash e.upstream) := by
    refine @whole_of_filter _ _ SP QUOTE start hsep [(str "host=", orDash e.host)] _ ?_ _ _
      (bare_key (by simp [logKeys])) _
      (hfilter (str "upstream=", orDash e.upstream) (by simp [logFields, logPlaces]))
    rw [inside_append_keyed hsep fun kv hkv => ?_]
    · exact hrequest
    · rw [List.mem_singleton.mp hkv]
      exact hhost.closed
  have hvalue : ∀ {k v}, k ∈ logKeys → Whole SP QUOTE (k ++ v) → Whole SP QUOTE v :=
    fun hk hv => (whole_append_iff (bare_key hk)).mp hv
  have hwhole := whole_logFields he (hvalue (by simp [logKeys]) hhost)
    (hvalue (by simp [logKeys]) hupstream) (hvalue (by simp [logKeys]) hrule)
  -- What is left is that no key stands in the quoted request, since each is there once.
  refine ⟨(inside_logStart he hts).symm.trans hrequest, fun k hk => ?_,
    hvalue (by simp [logKeys]) hhost, hvalue (by simp [logKeys]) hupstream,
    hvalue (by simp [logKeys]) hrule⟩
  rw [← map_fst_logFields e] at hk
  obtain ⟨kv, hkv, rfl⟩ := List.mem_map.mp hk
  exact (logStart_unforged_iff he hts hk).mp
    ((filter_fields_iff hsep hrequest hwhole (logFields_pairwise e) hkv).mp (hfilter kv hkv))

end Entry

/-- The line of a request that is served reads back, with every status, exactly if the entry is
legible: whatever the request, the access control, the events before it and the time are. -/
theorem log_readable_iff {acl : AccessControl} {raw : Bytes} {h : List ServeEvent} {e : Entry}
    (he : e.Served acl raw h) :
    (∀ ts, (∀ c ∈ ts, isStamp c = true) → ∀ status, ReadsBack ts { e with status }) ↔
      e.Legible := by
  constructor
  · intro hback
    exact legible_of_readsBack he (by simp) (hback [] (by simp))
  · intro hlegible ts hts status
    have hkept : Entry.Legible { e with status } := ⟨hlegible.request, hlegible.unforged,
      hlegible.host, hlegible.upstream, hlegible.rule⟩
    exact hkept.readsBack (he.withStatus status) hts

instance (s : Bytes) : Decidable (Whole SP QUOTE s) :=
  decidable_of_iff _ (whole_iff (by decide)).symm

/-- With no space outside quotes in the request either, nothing is forged. -/
theorem Entry.Legible.of_whole {e : Entry} (hrequest : Whole SP QUOTE (quoted (requestText e)))
    (hhost : Whole SP QUOTE (orDash e.host)) (hupstream : Whole SP QUOTE (orDash e.upstream))
    (hrule : Whole SP QUOTE (quoted e.rule)) : e.Legible := by
  refine ⟨hrequest.closed, fun k _ a b hab ha => ?_, hhost, hupstream, hrule⟩
  rw [hrequest.shielded a b hab] at ha
  cases ha

/-- The entry that is logged for a request where everything is denied. -/
def deniedEntry (raw : Bytes) : Entry :=
  { clientIp := str "10.0.0.1"
    method := (parseRequest raw).method
    path := (parseRequest raw).path
    version := (parseRequest raw).version
    host := (parseRequest raw).host
    status := 403
    bytes := (buildResponse 403 (str "Forbidden") forbiddenBody (parseRequest raw).keepAlive).length
    cache := str "BYPASS"
    acl := str "DENY"
    rule := str "default" }

/-- The entry of a denied request is that of a request that is served. -/
theorem served_deniedEntry (raw : Bytes) (h : List ServeEvent) :
    (deniedEntry raw).Served { defaultPolicy := .deny } raw h := by
  have hip : ∀ c ∈ str "10.0.0.1", isStamp c = true := by decide +kernel
  exact ⟨hip, rfl, rfl, rfl, rfl, Or.inl rfl, by simp [deniedEntry], by simp [deniedEntry],
    Or.inl rfl⟩

/-- It is logged, where nothing fails. -/
theorem logs_deniedEntry (raw : Bytes) (consumed : ℕ) : ∃ es, Prog.Runs
    (serveOneRequest { defaultPolicy := .deny } (str "10.0.0.1") (parseRequest raw) consumed)
    (es ++ [⟨.logWrite (deniedEntry raw), ()⟩]) (.ret (parseRequest raw).keepAlive) := by
  set resp := buildResponse 403 (str "Forbidden") forbiddenBody (parseRequest raw).keepAlive
  refine ⟨[⟨.now, 0⟩, ⟨.bump .totalRequests, ()⟩, ⟨.bump .deniedRequests, ()⟩,
    ⟨.sendAll resp, true⟩, ⟨.now, 0⟩], ?_⟩
  have hdeny : (({ defaultPolicy := .deny } : AccessControl).check (parseRequest raw)).decision =
      .deny := rfl
  simp only [serveOneRequest, finish, Prog.perform_bind, hdeny, if_true]
  refine .cons _ (.cons _ (.cons _ (.cons _ (.cons _ (.cons _ ?_)))))
  exact .nil _

/-- The line of a denied request is read back. -/
theorem log_readable_denied : ReadsBack (str "2024-01-01T00:00:00.000Z")
    (deniedEntry (str "GET / HTTP/1.1\r\nHost: h\r\n\r\n")) := by
  have hts : ∀ c ∈ str "2024-01-01T00:00:00.000Z", isStamp c = true := by decide +kernel
  have hlegible : (deniedEntry (str "GET / HTTP/1.1\r\nHost: h\r\n\r\n")).Legible :=
    .of_whole (by decide +kernel) (by decide +kernel) (by decide +kernel) (by decide +kernel)
  exact (log_readable_iff (served_deniedEntry _ [])).mpr hlegible _ hts 403

/-- The head of a request whose host has a key in it. -/
def forgedHead : Bytes := str "GET / HTTP/1.1\r\nHost: h status=200\r\n\r\n"

/-- The request is accepted, and denied, and its line has the status of the client besides the
status of the response. -/
theorem log_forged : (parseRequest forgedHead).valid = true ∧
    (∃ es, Prog.Runs (serveOneRequest { defaultPolicy := .deny } (str "10.0.0.1")
        (parseRequest forgedHead) forgedHead.length)
      (es ++ [⟨.logWrite (deniedEntry forgedHead), ()⟩])
      (.ret (parseRequest forgedHead).keepAlive)) ∧
    (fields SP QUOTE (logLine (str "2024-01-01T00:00:00.000Z") (deniedEntry forgedHead))).filter
      (fun f => str "status=" <+: f) = [str "status=200", str "status=403"] ∧
    ¬ReadsBack (str "2024-01-01T00:00:00.000Z") (deniedEntry forgedHead) := by
  have hfilter : (fields SP QUOTE (logLine (str "2024-01-01T00:00:00.000Z")
      (deniedEntry forgedHead))).filter (fun f => str "status=" <+: f) =
        [str "status=200", str "status=403"] := by
    decide +kernel
  refine ⟨by decide +kernel, logs_deniedEntry forgedHead _, hfilter, fun hback => ?_⟩
  have hone := hback.fields (str "status=", decimalInt 403)
    (by simp [logFields, logOutcome, deniedEntry])
  rw [hfilter] at hone
  exact absurd (congrArg List.length hone) (by decide)

end ForwardProxy
