import ForwardProxy.Http.AclMeaning

/-!
# Host rules and the port of an authority

`check` matches host rules against the whole authority of a request, port included, while the
upstream that is contacted is the authority without its port. A pattern tells `h` from `h:d` in five
ways (`PatternBareOnly`, `PatternPortOnly`). Both are decided alike, whatever the rules decide,
exactly when no rule that is reached does so; and for given decisions exactly when the first rule
that does so is borne out by the rules after it (`check_bareHost_iff`).
-/

namespace ForwardProxy

open Lib.FirstMatch

/-! ## The last colon -/

/-- A byte that is not there is not found. -/
theorem rfind_eq_none {s : Bytes} {c : Byte} (h : c ∉ s) : rfind s c = none := by
  induction s with
  | nil => rfl
  | cons b s ih =>
    have hb : b ≠ c := fun hb => h (by simp [hb])
    simp [rfind, ih fun hs => h (by simp [hs]), hb]

/-- The last occurrence is the one that no other follows. -/
theorem rfind_append_cons (s : Bytes) {t : Bytes} {c : Byte} (h : c ∉ t) :
    rfind (s ++ c :: t) c = some s.length := by
  induction s with
  | nil => simp [rfind, rfind_eq_none h]
  | cons b s ih => simp [rfind, ih]

/-- Digits have no colon. -/
theorem colon_notMem_digits {ds : Bytes} (h : ds.all isDigit) : COLON ∉ ds := by
  intro hmem
  have := List.all_eq_true.mp h COLON hmem
  revert this
  decide

/-- `h:d` is the host `h`, and the port is what `atoi` makes of `d`, if that is in range. -/
theorem splitAuthority_digits (h : Bytes) {ds : Bytes} (hne : ds ≠ []) (hds : ds.all isDigit) :
    splitAuthority (h ++ COLON :: ds) =
      { host := h, port := if 0 < atoi ds ∧ atoi ds < 65536 then atoi ds else 80 } := by
  have hlen : h.length + 1 < (h ++ COLON :: ds).length := by
    have := List.length_pos_iff.mpr hne
    simp only [List.length_append, List.length_cons]
    omega
  have hdrop : (h ++ COLON :: ds).drop (h.length + 1) = ds := by simp
  have htake : (h ++ COLON :: ds).take h.length = h := by simp
  rw [splitAuthority, rfind_append_cons h (colon_notMem_digits hds)]
  simp only [hdrop, htake, hlen, hds, and_self, if_true]
  split <;> rfl

/-- The host of `h:d` is `h`, whatever the value of the digits `d`. -/
theorem host_splitAuthority (h : Bytes) {ds : Bytes} (hne : ds ≠ []) (hds : ds.all isDigit) :
    (splitAuthority (h ++ COLON :: ds)).host = h := by
  rw [splitAuthority_digits h hne hds]

/-- What follows the last colon of a string that has one. -/
theorem exists_lastColon {s : Bytes} (h : COLON ∈ s) :
    ∃ p d, s = p ++ COLON :: d ∧ COLON ∉ d := by
  obtain ⟨d, p, hrev, hd⟩ := List.eq_append_cons_of_mem (List.mem_reverse.mpr h)
  refine ⟨p.reverse, d.reverse, ?_, by simpa using hd⟩
  calc s = s.reverse.reverse := by simp
    _ = p.reverse ++ COLON :: d.reverse := by simp [hrev]

/-- Where there are no digits from a last colon to the end, the whole authority is the host. -/
theorem splitAuthority_whole {s : Bytes}
    (hs : ∀ h d, s = h ++ COLON :: d → COLON ∉ d → d = [] ∨ ¬d.all isDigit) :
    splitAuthority s = { host := s } := by
  by_cases hcolon : COLON ∈ s
  · obtain ⟨h, d, rfl, hd⟩ := exists_lastColon hcolon
    have hno : ¬(h.length + 1 < (h ++ COLON :: d).length ∧
        ((h ++ COLON :: d).drop (h.length + 1)).all isDigit = true) := by
      rintro ⟨hlen, hall⟩
      have hdrop : (h ++ COLON :: d).drop (h.length + 1) = d := by simp
      rw [hdrop] at hall
      rcases hs h d rfl hd with rfl | hdigits
      · simp at hlen
      · exact hdigits hall
    rw [splitAuthority, rfind_append_cons h hd]
    exact if_neg hno
  · rw [splitAuthority, rfind_eq_none hcolon]

/-! ## Patterns and ports -/

/-- The last byte of an authority with a port is a digit. -/
theorem ne_append_star {h ds : Bytes} (hne : ds ≠ []) (hds : ds.all isDigit) (q : Bytes) :
    h ++ COLON :: ds ≠ q ++ [STAR] := by
  intro heq
  have hlast : (h ++ COLON :: ds).getLast? = some STAR := by rw [heq, List.getLast?_concat]
  obtain ⟨ds, d, rfl⟩ := List.eq_nil_or_concat' ds |>.resolve_left hne
  have hd : isDigit d = true := List.all_eq_true.mp hds d (by simp)
  rw [show h ++ COLON :: (ds ++ [d]) = (h ++ COLON :: ds) ++ [d] by simp, List.getLast?_concat,
    Option.some.injEq] at hlast
  subst hlast
  revert hd
  decide

/-- What `h:d` ends in, from a dot on, ends in `:d`, after what `h` ends in. -/
theorem dot_suffix_port {h ds s : Bytes} (hds : ds.all isDigit) :
    str "." ++ s <:+ h ++ COLON :: ds ↔ ∃ t, t <:+ h ∧ str "." ++ s = t ++ COLON :: ds := by
  constructor
  · rintro ⟨u, hu⟩
    obtain ⟨t, rfl, ht⟩ | ⟨t, -, ht⟩ := List.append_eq_append_iff.mp hu
    · exact ⟨t, List.suffix_append _ _, ht⟩
    · -- There is no dot in a port.
      have hdot : (46 : Byte) ∈ COLON :: ds := by
        rw [ht]
        simp [str]
      rcases List.mem_cons.mp hdot with hcolon | hmem
      · exact absurd hcolon (by decide)
      · exact absurd (List.all_eq_true.mp hds _ hmem) (by decide)
  · rintro ⟨t, ⟨u, rfl⟩, hs⟩
    rw [hs, List.append_assoc]
    exact List.suffix_append _ _

/-- What `h:d` starts with, and `h` does not, is `h` and a start of `:d`. -/
theorem prefix_port {h ds p : Bytes} :
    p <+: h ++ COLON :: ds ∧ ¬p <+: h ↔ ∃ d, d <+: ds ∧ p = h ++ COLON :: d := by
  constructor
  · rintro ⟨⟨t, ht⟩, hnot⟩
    obtain ⟨u, rfl, -⟩ | ⟨c, rfl, hc⟩ := List.append_eq_append_iff.mp ht
    · exact absurd (List.prefix_append _ _) hnot
    · cases c with
      | nil => exact absurd (by simp) hnot
      | cons b d =>
        obtain ⟨rfl, rfl⟩ := List.cons.inj hc
        exact ⟨d, List.prefix_append _ _, rfl⟩
  · rintro ⟨d, ⟨t, rfl⟩, rfl⟩
    refine ⟨⟨t, by simp⟩, fun hle => ?_⟩
    have := hle.length_le
    simp only [List.length_append, List.length_cons] at this
    omega

/-- The patterns that match the host `h`, and not `h` with the port `ds`. -/
inductive PatternBareOnly (h ds : Bytes) : Bytes → Prop
  /-- `h` itself. -/
  | literal (hnot : ¬IsSuffixPattern h) (hlast : ∀ q, h ≠ q ++ [STAR]) : PatternBareOnly h ds h
  /-- `*.s` where `h` ends in `.s`, and `.s` does not end in the port after an end of `h`. -/
  | ending {s : Bytes} (hs : s ≠ []) (hend : str "." ++ s <:+ h)
      (hport : ∀ t, t <:+ h → str "." ++ s ≠ t ++ COLON :: ds) :
    PatternBareOnly h ds (str "*." ++ s)

/-- The patterns that match the host `h` with the port `ds`, and not `h`. -/
inductive PatternPortOnly (h ds : Bytes) : Bytes → Prop
  /-- `h` with the port itself. -/
  | literal (hnot : ¬IsSuffixPattern (h ++ COLON :: ds)) :
    PatternPortOnly h ds (h ++ COLON :: ds)
  /-- `h:d*` where the port starts with `d`. -/
  | starting {d : Bytes} (hnot : ¬IsSuffixPattern (h ++ COLON :: d ++ [STAR])) (hd : d <+: ds) :
    PatternPortOnly h ds (h ++ COLON :: d ++ [STAR])
  /-- `*.s` where `.s` ends in the port after an end of `h`, and `h` does not end in `.s`. -/
  | ending {s t : Bytes} (ht : t <:+ h) (hs : str "." ++ s = t ++ COLON :: ds)
      (hend : ¬str "." ++ s <:+ h) : PatternPortOnly h ds (str "*." ++ s)

/-- They are just these. -/
theorem patternBareOnly_iff {h ds p : Bytes} (hds : ds.all isDigit) :
    PatternBareOnly h ds p ↔ PatternMatches p h ∧ ¬PatternMatches p (h ++ COLON :: ds) := by
  constructor
  · intro hp
    cases hp with
    | literal hnot hlast =>
      rw [patternMatches_literal hnot hlast, patternMatches_literal hnot hlast]
      exact ⟨rfl, by simp⟩
    | ending hs hend hport =>
      rw [patternMatches_ending hs, patternMatches_ending hs, dot_suffix_port hds]
      exact ⟨hend, fun ⟨t, ht, heq⟩ => hport t ht heq⟩
  · rintro ⟨hbare, hport⟩
    cases hbare with
    | all => exact absurd (.all _) hport
    | ending hs hend =>
      rw [patternMatches_ending hs, dot_suffix_port hds] at hport
      exact .ending hs hend fun t ht heq => hport ⟨t, ht, heq⟩
    | starting hnot hpre =>
      exact absurd (.starting hnot (hpre.trans (List.prefix_append _ _))) hport
    | literal hnot hlast => exact .literal hnot hlast

/-- They are just these. -/
theorem patternPortOnly_iff {h ds p : Bytes} (hne : ds ≠ []) (hds : ds.all isDigit) :
    PatternPortOnly h ds p ↔ ¬PatternMatches p h ∧ PatternMatches p (h ++ COLON :: ds) := by
  constructor
  · intro hp
    cases hp with
    | literal hnot =>
      have hlast := ne_append_star (h := h) hne hds
      rw [patternMatches_literal hnot hlast, patternMatches_literal hnot hlast]
      exact ⟨by simp, rfl⟩
    | starting hnot hd =>
      rw [patternMatches_starting hnot, patternMatches_starting hnot]
      exact (prefix_port.mpr ⟨_, hd, rfl⟩).symm
    | @ending s t ht hs hend =>
      have hsne : s ≠ [] := by
        rintro rfl
        have := congrArg List.length hs
        have hpos := List.length_pos_iff.mpr hne
        simp [str] at this
        omega
      rw [patternMatches_ending hsne, patternMatches_ending hsne, dot_suffix_port hds]
      exact ⟨hend, t, ht, hs⟩
  · rintro ⟨hbare, hport⟩
    generalize hv : h ++ COLON :: ds = v at hport
    cases hport with
    -- A pattern that matches `h:d` has one of the shapes of a pattern. `*` matches `h` too.
    | all => exact absurd (.all _) hbare
    | ending hs hend =>
      subst hv
      rw [patternMatches_ending hs] at hbare
      obtain ⟨t, ht, heq⟩ := (dot_suffix_port hds).mp hend
      exact .ending ht heq hbare
    | starting hnot hpre =>
      subst hv
      rw [patternMatches_starting hnot] at hbare
      obtain ⟨d, hd, rfl⟩ := prefix_port.mp ⟨hpre, hbare⟩
      exact .starting hnot hd
    | literal hnot hlast =>
      subst hv
      exact .literal hnot

/-! ## The two spellings of a host -/

/-- The request with the host that is contacted for it in place of its authority. -/
def bareHost (req : Request) : Request := { req with host := (splitAuthority req.host).host }

/-- An authority that is a host and a port. -/
structure HasPort (authority h ds : Bytes) : Prop where
  eq : authority = h ++ COLON :: ds
  ne : ds ≠ []
  digits : ds.all isDigit

/-- The port is cut off. -/
theorem bareHost_of_hasPort {req : Request} {h ds : Bytes} (hport : HasPort req.host h ds) :
    bareHost req = { req with host := h } := by
  rw [bareHost, hport.eq, host_splitAuthority h hport.ne hport.digits]

/-- An authority without a port is its own host. -/
theorem bareHost_of_not {req : Request} (hno : ∀ h ds, ¬HasPort req.host h ds) :
    bareHost req = req := by
  have hwhole : splitAuthority req.host = { host := req.host } :=
    splitAuthority_whole fun h d heq _ => by
      by_contra hd
      obtain ⟨hne, hdigits⟩ := not_or.mp hd
      exact hno h d ⟨heq, hne, not_not.mp hdigits⟩
  rw [bareHost, hwhole]

/-! ## Rules that see the port -/

/-- The rule is about hosts, and matches `h` and not `h` with the port. -/
def Rule.BareOnly (r : Rule) (h ds : Bytes) : Prop :=
  r.field = str "host" ∧ PatternBareOnly (toLower h) ds (toLower r.pattern)

/-- The rule is about hosts, and matches `h` with the port and not `h`. -/
def Rule.PortOnly (r : Rule) (h ds : Bytes) : Prop :=
  r.field = str "host" ∧ PatternPortOnly (toLower h) ds (toLower r.pattern)

/-- A port has no letters. -/
theorem toLower_port (h : Bytes) {ds : Bytes} (hds : ds.all isDigit) :
    toLower (h ++ COLON :: ds) = toLower h ++ COLON :: ds := by
  have hdigit : ∀ d ∈ ds, tolower d = d := by
    intro d hd
    obtain ⟨-, hle⟩ : 48 ≤ d ∧ d ≤ 57 := by simpa [isDigit] using List.all_eq_true.mp hds d hd
    exact if_neg fun hletter => absurd (UInt8.le_trans hletter.1 hle) (by decide)
  rw [toLower, toLower, List.map_append, List.map_cons, List.map_congr_left hdigit, List.map_id']
  rfl

/-- Which of the two spellings a rule matches. -/
theorem Rule.applies_port {req : Request} {h ds : Bytes} (hport : HasPort req.host h ds)
    (r : Rule) :
    (r.BareOnly h ds ↔ r.applies (bareHost req) = true ∧ r.applies req = false) ∧
      (r.PortOnly h ds ↔ r.applies (bareHost req) = false ∧ r.applies req = true) := by
  have hbare : (bareHost req).host = h := by rw [bareHost_of_hasPort hport]
  have hreq : toLower req.host = toLower h ++ COLON :: ds := by
    rw [hport.eq, toLower_port h hport.digits]
  unfold Rule.BareOnly Rule.PortOnly Rule.applies
  by_cases hfield : r.field = str "host"
  · rw [if_pos hfield, if_pos hfield, hbare, hreq, patternBareOnly_iff hport.digits,
      patternPortOnly_iff hport.ne hport.digits, ← wildcardMatch_iff, ← wildcardMatch_iff]
    simp [hfield]
  · -- Nothing but the host differs.
    have hsame : ∀ b : Bool, ¬(b = true ∧ b = false) ∧ ¬(b = false ∧ b = true) := by decide
    rw [if_neg hfield, if_neg hfield]
    constructor
    · exact iff_of_false (fun h => hfield h.1) (hsame _).1
    · exact iff_of_false (fun h => hfield h.1) (hsame _).2

/-! ## When the port does not matter -/

/-- The rules `post` decide `d` on a request, or the default does where none of them matches. -/
def BorneOut (acl : AccessControl) (post : List Rule) (req : Request) (d : Decision) : Prop :=
  (∃ mid r later, post = mid ++ r :: later ∧ (∀ q ∈ mid, q.applies req = false) ∧
    r.applies req = true ∧ r.decision = d) ∨
  (∀ q ∈ post, q.applies req = false) ∧ acl.defaultPolicy = d

/-- `r` is a rule, `post` are those after it, and none of those before it matches the request, with
the port or without. -/
def Reaches (acl : AccessControl) (req : Request) (r : Rule) (post : List Rule) : Prop :=
  ∃ pre, acl.rules = pre ++ r :: post ∧
    ∀ q ∈ pre, q.applies req = false ∧ q.applies (bareHost req) = false

/-- A rule that is reached and sees the port decides as the rules after it do for the spelling that
it does not match. -/
def PortBlind (acl : AccessControl) (req : Request) : Prop :=
  ∀ h ds, HasPort req.host h ds → ∀ r post, Reaches acl req r post →
    (r.BareOnly h ds → BorneOut acl post req r.decision) ∧
    (r.PortOnly h ds → BorneOut acl post (bareHost req) r.decision)

/-- No rule that is reached sees the port. -/
def NoneSees (acl : AccessControl) (req : Request) : Prop :=
  ∀ h ds, HasPort req.host h ds → ∀ r post, Reaches acl req r post →
    ¬r.BareOnly h ds ∧ ¬r.PortOnly h ds

/-- What a rule looks at, without what it decides. -/
def Rule.test (r : Rule) : Bytes × Bytes := (r.field, r.pattern)

/-- What bears a decision out is the first match. -/
theorem borneOut_iff {acl : AccessControl} {post : List Rule} {req : Request} {d : Decision} :
    BorneOut acl post req d ↔
      firstMatch Rule.decision acl.defaultPolicy (fun q => q.applies req) post = d :=
  firstMatch_eq_split.symm

/-- The decision is the same for both spellings exactly when the port does not matter. -/
theorem check_eq_iff (acl : AccessControl) (req : Request) :
    (acl.check req).decision = (acl.check (bareHost req)).decision ↔ PortBlind acl req := by
  by_cases hport : ∃ h ds, HasPort req.host h ds
  · rw [decision_check, decision_check, firstMatch_eq_iff]
    constructor
    · rintro hblind h ds hport r post ⟨pre, hrules, hpre⟩
      obtain ⟨hbare, hwith⟩ := r.applies_port hport
      refine ⟨fun hr => ?_, fun hr => ?_⟩
      · obtain ⟨htrue, hfalse⟩ := hbare.mp hr
        have hout := hblind pre r post hrules hpre (by simp [htrue, hfalse])
        rw [borneOut_iff]
        simpa [hfalse] using hout
      · obtain ⟨hfalse, htrue⟩ := hwith.mp hr
        have hout := hblind pre r post hrules hpre (by simp [htrue, hfalse])
        rw [borneOut_iff]
        simpa [htrue] using hout
    · intro hblind pre r post hrules hpre hne
      obtain ⟨h, ds, hport⟩ := hport
      obtain ⟨hbare, hwith⟩ := r.applies_port hport
      obtain ⟨honBare, honPort⟩ := hblind h ds hport r post ⟨pre, hrules, hpre⟩
      cases hreq : r.applies req with
      | true =>
        have hfalse : r.applies (bareHost req) = false := by simpa [hreq] using hne.symm
        simpa using borneOut_iff.mp (honPort (hwith.mpr ⟨hfalse, hreq⟩))
      | false =>
        have htrue : r.applies (bareHost req) = true := by simpa [hreq] using hne.symm
        simpa using borneOut_iff.mp (honBare (hbare.mpr ⟨htrue, hreq⟩))
  · push Not at hport
    rw [bareHost_of_not hport]
    exact iff_of_true rfl fun h ds hport' => absurd hport' (hport h ds)

/-- What a rule matches is told by its test. -/
theorem Rule.applies_congr {r r' : Rule} (h : r.test = r'.test) (req : Request) :
    r.applies req = r'.applies req := by
  obtain ⟨hfield, hpattern⟩ := Prod.mk.inj h
  unfold Rule.applies
  rw [hfield, hpattern]

/-- Whether a rule that is reached sees the port is told by the tests of the rules. -/
theorem NoneSees.congr {acl acl' : AccessControl} {req : Request} (hnone : NoneSees acl req)
    (htests : acl'.rules.map Rule.test = acl.rules.map Rule.test) : NoneSees acl' req := by
  rintro h ds hport r' post' ⟨pre', hrules', hpre'⟩
  rw [hrules', List.map_append, List.map_cons] at htests
  obtain ⟨pre, rest, hrules, hpre, hrest⟩ := List.map_eq_append_iff.mp htests.symm
  obtain ⟨r, post, rfl, hr, -⟩ := List.map_eq_cons_iff.mp hrest
  have hreaches : Reaches acl req r post := by
    refine ⟨pre, hrules, fun q hq => ?_⟩
    obtain ⟨q', hq', htest⟩ := List.mem_map.mp (hpre ▸ List.mem_map_of_mem (f := Rule.test) hq)
    rw [← Rule.applies_congr htest, ← Rule.applies_congr htest]
    exact hpre' q' hq'
  obtain ⟨hfield, hpattern⟩ := Prod.mk.inj hr
  have hsame := hnone h ds hport r post hreaches
  unfold Rule.BareOnly Rule.PortOnly at hsame ⊢
  rwa [← hfield, ← hpattern]

/-- The rules of an access control that decide all the same, but for one. -/
def decideOnly (pre : List Rule) (r : Rule) (post : List Rule) : AccessControl where
  rules := pre ++ { r with decision := .deny } :: post.map fun q => { q with decision := .allow }

/-- A rule that is reached and matches only one of the spellings can tell them apart. -/
theorem exists_check_ne {acl : AccessControl} {req : Request} {r : Rule} {post : List Rule}
    (hreaches : Reaches acl req r post) (hne : r.applies req ≠ r.applies (bareHost req)) :
    ∃ acl' : AccessControl, acl'.rules.map Rule.test = acl.rules.map Rule.test ∧
      (acl'.check req).decision ≠ (acl'.check (bareHost req)).decision := by
  obtain ⟨pre, hrules, hpre⟩ := hreaches
  refine ⟨decideOnly pre r post, ?_, ?_⟩
  · rw [hrules, decideOnly]
    simp only [List.map_append, List.map_cons, List.map_map]
    rfl
  -- The rule denies what it matches, and nothing else denies.
  have hdecision : ∀ q : Request, (∀ p ∈ pre, p.applies q = false) →
      ((decideOnly pre r post).check q).decision = if r.applies q then .deny else .allow := by
    intro q hq
    rw [decision_check, decideOnly, firstMatch_append hq, firstMatch_cons]
    refine if_congr Iff.rfl rfl (firstMatch_const (fun p hp => ?_) _)
    obtain ⟨p', -, rfl⟩ := List.mem_map.mp hp
    rfl
  rw [hdecision req fun p hp => (hpre p hp).1, hdecision _ fun p hp => (hpre p hp).2]
  cases hreq : r.applies req with
  | true =>
    have hfalse : r.applies (bareHost req) = false := by simpa [hreq] using hne.symm
    simp [hfalse]
  | false =>
    have htrue : r.applies (bareHost req) = true := by simpa [hreq] using hne.symm
    simp [htrue]

/-- Where no rule that is reached sees the port, it does not matter. -/
theorem NoneSees.portBlind {acl : AccessControl} {req : Request} (h : NoneSees acl req) :
    PortBlind acl req := fun bare ds hport r post hreaches =>
  ⟨fun hr => absurd hr (h bare ds hport r post hreaches).1,
    fun hr => absurd hr (h bare ds hport r post hreaches).2⟩

/-- Whatever the rules decide, a request and its bare host are decided alike exactly when no rule
that is reached sees the port. For what they do decide it is so exactly when the first rule that
sees the port, if there is one, decides as the rules after it do for the spelling that it does not
match. So for a bare host `h` that is denied, `h` with a port is denied exactly then. -/
theorem check_bareHost_iff (acl : AccessControl) (req : Request) :
    ((∀ acl' : AccessControl, acl'.rules.map Rule.test = acl.rules.map Rule.test →
        (acl'.check req).decision = (acl'.check (bareHost req)).decision) ↔ NoneSees acl req) ∧
      ((acl.check req).decision = (acl.check (bareHost req)).decision ↔ PortBlind acl req) ∧
      (∀ h ds : Bytes, ds ≠ [] → ds.all isDigit →
        (acl.check { req with host := h }).decision = .deny →
        ((acl.check { req with host := h ++ COLON :: ds }).decision = .deny ↔
          PortBlind acl { req with host := h ++ COLON :: ds })) := by
  refine ⟨⟨fun hall => ?_, fun hnone => ?_⟩, check_eq_iff acl req, fun h ds hne hds hdeny => ?_⟩
  · intro h ds hport r post hreaches
    obtain ⟨hbare, hwith⟩ := r.applies_port hport
    by_contra hsees
    have hne : r.applies req ≠ r.applies (bareHost req) := by
      intro heq
      rw [hbare, hwith, heq] at hsees
      cases h : r.applies (bareHost req) <;> simp [h] at hsees
    obtain ⟨acl', htests, hdiffer⟩ := exists_check_ne hreaches hne
    exact hdiffer (hall acl' htests)
  · exact fun acl' htests => (check_eq_iff acl' req).mpr (hnone.congr htests).portBlind
  · rw [← check_eq_iff]
    have hbare : bareHost { req with host := h ++ COLON :: ds } = { req with host := h } :=
      bareHost_of_hasPort ⟨rfl, hne, hds⟩
    rw [hbare, hdeny]

/-- A denied host with a port is allowed: the rule `deny host blocked.example.com`, and a request
for `blocked.example.com:80`. -/
theorem check_port_allowed :
    let acl : AccessControl := ({} : AccessControl).addRule .deny (str "host")
      (str "blocked.example.com")
    let req := parseRequest (str "GET / HTTP/1.1\r\nHost: blocked.example.com:80\r\n\r\n")
    req.valid = true ∧ (acl.check (bareHost req)).decision = .deny ∧
      (acl.check req).decision = .allow := by
  decide +kernel

end ForwardProxy
