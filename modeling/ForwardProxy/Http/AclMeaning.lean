import ForwardProxy.Http.AclConfig

/-!
# What a configuration means

A configuration is a list of directives. `IsConfig ds text` says that `text` is such a list written
out, one directive a line, with keywords in any case, blanks around and between the words, either
line end, and blank lines and comments anywhere. `load_string` takes every such text, and the access
control that it makes decides as the directives say: by the first rule that matches, and by the last
default where none does; a host goes to the upstream of the first route that matches
(`loadString_meaning`).
-/

namespace ForwardProxy

/-! ## Directives and their meaning -/

/-- A word of a line: not empty, and without whitespace. -/
structure Word where
  bytes : Bytes
  ne : bytes ≠ []
  free : ∀ c ∈ bytes, isSpace c = false

/-- The number of a port. -/
structure Port where
  number : ℕ
  pos : 1 ≤ number
  le : number ≤ 65535

/-- What a rule looks at. -/
inductive RuleField
  | host
  | path
  | method

/-- A directive of a configuration. -/
inductive Directive
  | rule (d : Decision) (field : RuleField) (pattern : Word)
  | default (d : Decision)
  | route (pattern host : Word) (port : Port)

/-- The pattern `*.s`, with `s` not empty. -/
def IsSuffixPattern (pattern : Bytes) : Prop := ∃ s, s ≠ [] ∧ pattern = str "*." ++ s

/-- What a pattern matches. -/
inductive PatternMatches : Bytes → Bytes → Prop
  /-- `*` matches everything. -/
  | all (v : Bytes) : PatternMatches [STAR] v
  /-- `*.s` matches what ends in `.s`. -/
  | ending {s v : Bytes} (hs : s ≠ []) (h : str "." ++ s <:+ v) : PatternMatches (str "*." ++ s) v
  /-- Else `p*` matches what starts with `p`. -/
  | starting {p v : Bytes} (hnot : ¬IsSuffixPattern (p ++ [STAR])) (h : p <+: v) :
      PatternMatches (p ++ [STAR]) v
  /-- Any other pattern matches itself. -/
  | literal {v : Bytes} (hnot : ¬IsSuffixPattern v) (hlast : ∀ p, v ≠ p ++ [STAR]) :
      PatternMatches v v

/-- The form of a suffix pattern is told by its length and its first two bytes. -/
theorem isSuffixPattern_iff {pattern : Bytes} :
    IsSuffixPattern pattern ↔ 2 < pattern.length ∧ pattern.take 2 = str "*." := by
  constructor
  · rintro ⟨s, hs, rfl⟩
    have := List.length_pos_iff.mpr hs
    exact ⟨by rw [List.length_append]; show 2 < 2 + s.length; omega, rfl⟩
  · rintro ⟨hlen, htake⟩
    refine ⟨pattern.drop 2, ?_, ?_⟩
    · rw [ne_eq, List.drop_eq_nil_iff]
      omega
    · rw [← htake, List.take_append_drop]

/-- A pattern of the form `*.s` matches by its ending. -/
theorem patternMatches_ending {s v : Bytes} (hs : s ≠ []) :
    PatternMatches (str "*." ++ s) v ↔ str "." ++ s <:+ v := by
  refine ⟨fun h => ?_, .ending hs⟩
  generalize hp : str "*." ++ s = p at h
  cases h with
  | all => exact absurd (congrArg List.length hp) (by simp [str])
  | ending hs' h' => rwa [List.append_cancel_left hp]
  | starting hnot => exact absurd ⟨s, hs, hp.symm⟩ hnot
  | literal hnot => exact absurd ⟨s, hs, hp.symm⟩ hnot

/-- Another pattern of the form `p*` matches by its start. -/
theorem patternMatches_starting {p v : Bytes} (hnot : ¬IsSuffixPattern (p ++ [STAR])) :
    PatternMatches (p ++ [STAR]) v ↔ p <+: v := by
  refine ⟨fun h => ?_, .starting hnot⟩
  generalize hq : p ++ [STAR] = q at h
  cases h with
  | all =>
    obtain rfl : p = [] := List.append_left_eq_self.mp hq
    exact List.nil_prefix
  | ending hs => exact absurd ⟨_, hs, hq⟩ hnot
  | starting _ h' => rwa [List.append_cancel_right hq]
  | literal _ hlast => exact absurd hq.symm (hlast p)

/-- Any other pattern matches itself. -/
theorem patternMatches_literal {p v : Bytes} (hnot : ¬IsSuffixPattern p)
    (hlast : ∀ q, p ≠ q ++ [STAR]) : PatternMatches p v ↔ p = v := by
  constructor
  · intro h
    cases h with
    | all => exact absurd rfl (hlast [])
    | ending hs => exact absurd ⟨_, hs, rfl⟩ hnot
    | starting => exact absurd rfl (hlast _)
    | literal => rfl
  · rintro rfl
    exact .literal hnot hlast

/-- `wildcard_match` matches what a pattern matches. -/
theorem wildcardMatch_iff {pattern value : Bytes} :
    wildcardMatch pattern value = true ↔ PatternMatches pattern value := by
  unfold wildcardMatch
  split_ifs with hall hsuffix hlast
  · subst hall
    simp [PatternMatches.all]
  · obtain ⟨s, hs, rfl⟩ := isSuffixPattern_iff.mpr hsuffix
    have hdrop : (str "*." ++ s).drop 1 = str "." ++ s := rfl
    rw [hdrop, List.isSuffixOf_iff_suffix, patternMatches_ending hs]
  · rw [← isSuffixPattern_iff] at hsuffix
    obtain ⟨p, rfl⟩ := List.getLast?_eq_some_iff.mp hlast
    rw [List.dropLast_concat, List.isPrefixOf_iff_prefix, patternMatches_starting hsuffix]
  · rw [← isSuffixPattern_iff] at hsuffix
    have hother : ∀ p, pattern ≠ p ++ [STAR] := fun p hp => hlast (by rw [hp, List.getLast?_concat])
    rw [decide_eq_true_eq, patternMatches_literal hsuffix hother]

/-- Whether a pattern matches can be computed. -/
instance (pattern value : Bytes) : Decidable (PatternMatches pattern value) :=
  decidable_of_iff _ wildcardMatch_iff

/-- Whether the field of a request matches. Host and method are compared without regard to case. -/
def RuleField.Matches : RuleField → Bytes → Request → Prop
  | .host, pattern, req => PatternMatches (toLower pattern) (toLower req.host)
  | .path, pattern, req => PatternMatches pattern req.path
  | .method, pattern, req => PatternMatches (toLower pattern) (toLower req.method)

instance (f : RuleField) (pattern : Bytes) (req : Request) : Decidable (f.Matches pattern req) :=
  match f with
  | .host => inferInstanceAs (Decidable (PatternMatches (toLower pattern) (toLower req.host)))
  | .path => inferInstanceAs (Decidable (PatternMatches pattern req.path))
  | .method => inferInstanceAs (Decidable (PatternMatches (toLower pattern) (toLower req.method)))

namespace Directive

/-- The decision of a rule that matches. -/
def decides (req : Request) : Directive → Option Decision
  | rule d f p => if f.Matches p.bytes req then some d else none
  | _ => none

/-- The upstream of a route that matches. -/
def routes (hostHeader : Bytes) : Directive → Option Upstream
  | route p h n =>
    if PatternMatches (toLower p.bytes) (toLower hostHeader) then
      some { host := h.bytes, port := n.number }
    else none
  | _ => none

/-- The default that a directive sets. -/
def policy : Directive → Option Decision
  | default d => some d
  | _ => none

/-- Whether a directive is a rule. -/
def isRule : Directive → Bool
  | rule .. => true
  | _ => false

end Directive

/-- The last default, wherever it stands. -/
def lastDefault (ds : List Directive) : Decision :=
  (ds.filterMap Directive.policy).getLast?.getD .allow

/-! ## Written directives -/

/-- The word for a decision. -/
def Decision.name : Decision → Bytes
  | .allow => str "allow"
  | .deny => str "deny"

/-- The word for a field. -/
def RuleField.name : RuleField → Bytes
  | .host => str "host"
  | .path => str "path"
  | .method => str "method"

/-- The words of a directive, its keywords in any case. -/
inductive Spells : Directive → List Bytes → Prop
  | rule {d : Decision} {f : RuleField} {p : Word} {verb field : Bytes}
      (hverb : toLower verb = d.name) (hfield : toLower field = f.name) :
      Spells (.rule d f p) [verb, field, p.bytes]
  | default {d : Decision} {verb pol : Bytes} (hverb : toLower verb = str "default")
      (hpol : toLower pol = d.name) : Spells (.default d) [verb, pol]
  | route {p h : Word} {n : Port} {verb : Bytes} (hverb : toLower verb = str "route") :
      Spells (.route p h n) [verb, p.bytes, h.bytes, decimal n.number]

/-- Spaces and tabs. -/
def AreBlanks (s : Bytes) : Prop := ∀ c ∈ s, c = SP ∨ c = TAB

/-- Words with blanks between them. -/
inductive Spaced : List Bytes → Bytes → Prop
  | one (w : Bytes) : Spaced [w] w
  | cons (w : Bytes) {gap : Bytes} {ws : List Bytes} {s : Bytes} (hne : gap ≠ [])
      (hgap : AreBlanks gap) (h : Spaced ws s) : Spaced (w :: ws) (w ++ (gap ++ s))

/-- A line without its end that says a directive. -/
inductive IsLineOf (d : Directive) : Bytes → Prop
  | mk {lead core trail : Bytes} {ws : List Bytes} (hlead : AreBlanks lead)
      (htrail : AreBlanks trail) (hws : Spells d ws) (hcore : Spaced ws core) :
      IsLineOf d (lead ++ core ++ trail)

/-- A line without its end that says nothing. -/
inductive IsSkipped : Bytes → Prop
  | blank {s : Bytes} (h : AreBlanks s) : IsSkipped s
  | comment {lead rest : Bytes} (hlead : AreBlanks lead) (hrest : LF ∉ rest) :
      IsSkipped (lead ++ HASH :: rest)

/-- The lines of a list of directives. -/
inductive Written : List Directive → List Bytes → Prop
  | nil : Written [] []
  | skip {ds : List Directive} {line : Bytes} {lines : List Bytes} (hline : IsSkipped line)
      (h : Written ds lines) : Written ds (line :: lines)
  | directive {d : Directive} {ds : List Directive} {line : Bytes} {lines : List Bytes}
      (hline : IsLineOf d line) (h : Written ds lines) : Written (d :: ds) (line :: lines)

/-- Lines with their ends. The last line may lack its end. -/
inductive IsText : List Bytes → Bytes → Prop
  | nil : IsText [] []
  | last {line : Bytes} (hne : line ≠ []) : IsText [line] line
  | lf (line : Bytes) {lines : List Bytes} {text : Bytes} (h : IsText lines text) :
      IsText (line :: lines) (line ++ LF :: text)
  | crlf (line : Bytes) {lines : List Bytes} {text : Bytes} (h : IsText lines text) :
      IsText (line :: lines) (line ++ CR :: LF :: text)

/-- The text is lines that write the directives, in order, among lines that write none. -/
def IsConfig (ds : List Directive) (text : Bytes) : Prop :=
  ∃ lines, Written ds lines ∧ IsText lines text

/-! ## Words as the stream takes them -/

/-- Blanks are whitespace. -/
theorem AreBlanks.isSpace {s : Bytes} (h : AreBlanks s) : ∀ c ∈ s, isSpace c = true := by
  intro c hc
  rcases h c hc with rfl | rfl <;> decide

/-- Blanks are what `trim` takes off. -/
theorem AreBlanks.isBlank {s : Bytes} (h : AreBlanks s) : ∀ c ∈ s, isBlank c = true := by
  intro c hc
  rcases h c hc with rfl | rfl <;> decide

/-- What `trim` strips is whitespace. -/
theorem isBlank_eq_false {c : Byte} (h : isSpace c = false) : isBlank c = false := by
  cases hb : isBlank c with
  | false => rfl
  | true =>
    simp only [isBlank, Bool.or_eq_true, decide_eq_true_eq] at hb
    rcases hb with ((rfl | rfl) | rfl) | rfl <;> exact absurd h (by decide)

/-- The words that `>>` takes whole. -/
def IsWord (w : Bytes) : Prop := w ≠ [] ∧ ∀ c ∈ w, isSpace c = false

instance (w : Bytes) : Decidable (IsWord w) :=
  decidable_of_iff (w ≠ [] ∧ w.all fun c => !isSpace c) (by simp [IsWord])

/-- A word is a word of its bytes. -/
theorem Word.isWord (w : Word) : IsWord w.bytes := ⟨w.ne, w.free⟩

/-- Case does not make whitespace. -/
theorem isSpace_tolower (c : Byte) : isSpace (tolower c) = isSpace c := by
  unfold tolower
  split
  · rename_i hc
    obtain ⟨h1, h2⟩ := hc
    rw [UInt8.le_iff_toNat_le] at h1 h2
    simp only [UInt8.reduceToNat] at h1 h2
    have hsum : (c + 32).toNat = c.toNat + 32 := by
      rw [UInt8.toNat_add]
      simp only [UInt8.reduceToNat]
      omega
    rw [Bool.eq_iff_iff]
    simp only [isSpace, SP, ← UInt8.toNat_inj, UInt8.le_iff_toNat_le, hsum, UInt8.reduceToNat,
      Bool.or_eq_true, Bool.and_eq_true, decide_eq_true_eq]
    omega
  · rfl

/-- A keyword in any case is a word. -/
theorem isWord_of_toLower {w k : Bytes} (h : toLower w = k) (hk : IsWord k) : IsWord w := by
  subst h
  obtain ⟨hne, hfree⟩ := hk
  refine ⟨fun h0 => hne (by rw [h0]; rfl), fun c hc => ?_⟩
  rw [← isSpace_tolower]
  exact hfree _ (List.mem_map_of_mem hc)

/-- The word for a decision is a word. -/
theorem Decision.name_isWord (d : Decision) : IsWord d.name := by
  cases d <;> decide

/-- The word for a field is a word. -/
theorem RuleField.name_isWord (f : RuleField) : IsWord f.name := by
  cases f <;> decide

/-- A number is a word. -/
theorem decimal_isWord (n : ℕ) : IsWord (decimal n) :=
  ⟨decimal_ne_nil n, fun _ hc => (digit_cases (isDigit_of_mem_decimal hc)).1⟩

/-- The words that spell a directive are words. -/
theorem Spells.isWord {d : Directive} {ws : List Bytes} (h : Spells d ws) : ∀ w ∈ ws, IsWord w := by
  cases h with
  | @rule d f p verb field hverb hfield =>
    simp only [List.forall_mem_cons, List.not_mem_nil, false_implies, implies_true, and_true]
    exact ⟨isWord_of_toLower hverb d.name_isWord, isWord_of_toLower hfield f.name_isWord, p.isWord⟩
  | @default d verb pol hverb hpol =>
    simp only [List.forall_mem_cons, List.not_mem_nil, false_implies, implies_true, and_true]
    exact ⟨isWord_of_toLower hverb (by decide), isWord_of_toLower hpol d.name_isWord⟩
  | @route p h n verb hverb =>
    simp only [List.forall_mem_cons, List.not_mem_nil, false_implies, implies_true, and_true]
    exact ⟨isWord_of_toLower hverb (by decide), p.isWord, h.isWord,
      decimal_isWord n.number⟩

/-- The first word is taken off spaced words, and the rest stays, behind its blanks. -/
theorem Spaced.nextWord {w : Bytes} {ws : List Bytes} {s lead : Bytes} (h : Spaced (w :: ws) s)
    (hw : IsWord w) (hlead : AreBlanks lead) :
    (ws = [] ∧ ForwardProxy.nextWord (lead ++ s) = (w, [])) ∨
      ∃ gap s', AreBlanks gap ∧ Spaced ws s' ∧
        ForwardProxy.nextWord (lead ++ s) = (w, gap ++ s') := by
  cases h with
  | one =>
    left
    have := @nextWord_append lead w [] hlead.isSpace hw.1 hw.2 (by simp)
    rw [List.append_nil] at this
    exact ⟨rfl, this⟩
  | @cons _ gap _ s' hne hgap h =>
    refine Or.inr ⟨gap, s', hgap, h, nextWord_append hlead.isSpace hw.1 hw.2 fun c hc => ?_⟩
    obtain ⟨g, gs, rfl⟩ := List.exists_cons_of_ne_nil hne
    obtain rfl : g = c := by simpa using hc
    exact hgap.isSpace g (by simp)

/-- Spaced words start and end with one, so there is nothing to trim. -/
theorem Spaced.ends {ws : List Bytes} {s : Bytes} (h : Spaced ws s) (hws : ∀ w ∈ ws, IsWord w) :
    (∃ c t, s = c :: t ∧ isBlank c = false) ∧ ∃ t c, s = t ++ [c] ∧ isBlank c = false := by
  have hfirst : ∀ w : Bytes, IsWord w → ∀ u, ∃ c t, w ++ u = c :: t ∧ isBlank c = false := by
    rintro w ⟨hne, hfree⟩ u
    obtain ⟨c, w', rfl⟩ := List.exists_cons_of_ne_nil hne
    exact ⟨c, w' ++ u, rfl, isBlank_eq_false (hfree c (by simp))⟩
  induction h with
  | one w =>
    have hw := hws w (by simp)
    obtain ⟨t, c, hc⟩ := List.eq_nil_or_concat w |>.resolve_left hw.1
    refine ⟨by simpa using hfirst w hw [], t, c, by simpa using hc, ?_⟩
    exact isBlank_eq_false (hw.2 c (by simp [hc]))
  | @cons w gap _ _ hne hgap h ih =>
    obtain ⟨hw, hws⟩ := List.forall_mem_cons.mp hws
    obtain ⟨-, t, c, rfl, hc⟩ := ih hws
    exact ⟨hfirst w hw _, w ++ (gap ++ t), c, by simp only [List.append_assoc], hc⟩

/-- What is around the core is trimmed off. -/
theorem trim_surrounded {lead core trail : Bytes} (hlead : ∀ c ∈ lead, isBlank c = true)
    (htrail : ∀ c ∈ trail, isBlank c = true) (hfirst : ∃ c t, core = c :: t ∧ isBlank c = false)
    (hlast : ∃ t c, core = t ++ [c] ∧ isBlank c = false) : trim (lead ++ core ++ trail) = core := by
  have hstart : (lead ++ core ++ trail).dropWhile isBlank = core ++ trail := by
    obtain ⟨c, t, rfl, hc⟩ := hfirst
    rw [List.append_assoc]
    exact dropWhile_boundary hlead (by simpa using hc)
  have hend : (core ++ trail).rdropWhile isBlank = core := by
    obtain ⟨t, c, rfl, hc⟩ := hlast
    rw [List.rdropWhile, List.reverse_append, dropWhile_boundary (by simpa using htrail)
      (by simpa using hc), List.reverse_reverse]
  rw [trim, hstart, hend]

/-! ## What a line does -/

/-- What a directive does to the access control. A rule keeps the text of its line. -/
def Directive.load (source : Bytes) (acl : AccessControl) : Directive → AccessControl
  | rule d f p => acl.addRule d f.name p.bytes source
  | default d => { acl with defaultPolicy := d }
  | route p h n => acl.addRoute p.bytes h.bytes n.number

/-- The directives turn one access control into another, one after the other. -/
inductive Loads : List Directive → AccessControl → AccessControl → Prop
  | nil (acl : AccessControl) : Loads [] acl acl
  | cons {d : Directive} {ds : List Directive} {source : Bytes} {acl acl' : AccessControl}
      (h : Loads ds (d.load source acl) acl') : Loads (d :: ds) acl acl'

/-- The first word of a directive is in letters, so the line is no comment. -/
theorem Spells.verb {d : Directive} {ws : List Bytes} (h : Spells d ws) :
    ∃ verb ws', ws = verb :: ws' ∧ verb.head? ≠ some HASH := by
  have hhead : ∀ verb k : Bytes, toLower verb = k → k.head? ≠ some HASH →
      verb.head? ≠ some HASH := by
    rintro verb k rfl hk h0
    apply hk
    rw [toLower, List.head?_map, h0]
    decide
  cases h with
  | @rule d f p verb field hverb hfield =>
    exact ⟨verb, _, rfl, hhead _ _ hverb (by cases d <;> decide)⟩
  | @default d verb pol hverb hpol => exact ⟨verb, _, rfl, hhead _ _ hverb (by decide)⟩
  | @route p h n verb hverb => exact ⟨verb, _, rfl, hhead _ _ hverb (by decide)⟩

/-- A line of words starts with the first of them. -/
theorem Spaced.head? {w : Bytes} {ws : List Bytes} {s : Bytes} (h : Spaced (w :: ws) s)
    (hw : w ≠ []) : s.head? = w.head? := by
  obtain ⟨c, w', rfl⟩ := List.exists_cons_of_ne_nil hw
  cases h with
  | one => rfl
  | cons => rfl

/-- A route reads its pattern, host and port back. -/
theorem loadRoute_spaced {p h : Word} {n : Port} {gap s : Bytes} (hgap : AreBlanks gap)
    (hs : Spaced [p.bytes, h.bytes, decimal n.number] s) (lineno : ℕ) (acl : AccessControl) :
    loadRoute lineno acl (gap ++ s) = .ok (acl.addRoute p.bytes h.bytes n.number) := by
  obtain ⟨hnil, -⟩ | ⟨gap₁, s₁, hgap₁, hs₁, hp⟩ := hs.nextWord p.isWord hgap
  · cases hnil
  obtain ⟨hnil, -⟩ | ⟨gap₂, s₂, hgap₂, hs₂, hh⟩ := hs₁.nextWord h.isWord hgap₁
  · cases hnil
  have hport : nextInt (gap₂ ++ s₂) = n.number := by
    cases hs₂ with
    | one =>
      have hle : (n.number : ℤ) ≤ INT_MAX := by
        have := n.le
        unfold INT_MAX
        omega
      have := @nextInt_decimal gap₂ [] n.number hgap₂.isSpace hle (by simp)
      rwa [List.append_nil] at this
    | cons _ _ _ h => cases h
  have hpos := n.pos
  have hle := n.le
  unfold loadRoute
  simp only [hp, hh, hport]
  rw [if_neg]
  rintro (h0 | h0 | h0 | h0)
  · exact p.ne h0
  · exact h.ne h0
  · omega
  · omega

/-- The words of a rule are read as the rule. -/
theorem loadRule_spaced {f : RuleField} {p : Word} {field gap s : Bytes} (hgap : AreBlanks gap)
    (hfield : toLower field = f.name) (hs : Spaced [field, p.bytes] s) (lineno : ℕ)
    (acl : AccessControl) (d : Decision) (source : Bytes) :
    loadRule lineno acl d source (gap ++ s) = .ok (acl.addRule d f.name p.bytes source) := by
  have hword := isWord_of_toLower hfield f.name_isWord
  obtain ⟨hnil, -⟩ | ⟨gap₁, s₁, hgap₁, hs₁, hf⟩ := hs.nextWord hword hgap
  · cases hnil
  obtain ⟨rest, hp⟩ : ∃ rest, nextWord (gap₁ ++ s₁) = (p.bytes, rest) := by
    obtain ⟨-, hp⟩ | ⟨gap₂, s₂, -, -, hp⟩ := hs₁.nextWord p.isWord hgap₁
    · exact ⟨_, hp⟩
    · exact ⟨_, hp⟩
  have hname : ¬(f.name ≠ str "host" ∧ f.name ≠ str "path" ∧ f.name ≠ str "method") := by
    cases f <;> decide
  unfold loadRule
  simp only [hf, hp, hfield]
  rw [if_neg p.ne, if_neg hname]

/-- The word of a default is read as the default. -/
theorem loadDefault_spaced {d : Decision} {pol gap s : Bytes} (hgap : AreBlanks gap)
    (hpol : toLower pol = d.name) (hs : Spaced [pol] s) (lineno : ℕ) (acl : AccessControl) :
    loadDefault lineno acl (gap ++ s) = .ok { acl with defaultPolicy := d } := by
  obtain ⟨rest, hp⟩ : ∃ rest, nextWord (gap ++ s) = (pol, rest) := by
    obtain ⟨-, hp⟩ | ⟨gap₂, s₂, -, -, hp⟩ := hs.nextWord (isWord_of_toLower hpol d.name_isWord) hgap
    · exact ⟨_, hp⟩
    · exact ⟨_, hp⟩
  unfold loadDefault
  simp only [hp, hpol]
  cases d with
  | allow => rw [if_pos (by decide)]
  | deny => rw [if_neg (by decide), if_pos (by decide)]

/-- A line that says a directive does what the directive says. A carriage return that the read of
the line leaves is trimmed. -/
theorem loadLine_directive {d : Directive} {line cr : Bytes} (h : IsLineOf d line)
    (hcr : ∀ c ∈ cr, isBlank c = true) (lineno : ℕ) (acl : AccessControl) :
    ∃ source, loadLine lineno acl (line ++ cr) = .ok (d.load source acl) := by
  obtain ⟨hlead, htrail, hws, hcore⟩ := h
  rename_i lead core trail ws
  obtain ⟨hfirst, hlast⟩ := hcore.ends hws.isWord
  -- What is around the words is cut off.
  have htrim : trim (lead ++ core ++ trail ++ cr) = core := by
    rw [List.append_assoc _ trail]
    apply trim_surrounded hlead.isBlank _ hfirst hlast
    intro c hc
    rcases List.mem_append.mp hc with hc | hc
    · exact htrail.isBlank c hc
    · exact hcr c hc
  refine ⟨core, ?_⟩
  -- The line is no comment, so its first word says what it is.
  have hline : loadLine lineno acl (lead ++ core ++ trail ++ cr) =
      let verb := toLower (nextWord ([] ++ core)).1
      let ls := (nextWord ([] ++ core)).2
      if verb = str "default" then loadDefault lineno acl ls
      else if verb = str "allow" ∨ verb = str "deny" then
        loadRule lineno acl (if verb = str "allow" then .allow else .deny) core ls
      else if verb = str "route" then loadRoute lineno acl ls
      else .error (lineError lineno (str ": unknown directive '" ++ verb ++ str "'")) := by
    obtain ⟨verb, ws', rfl, hhash⟩ := hws.verb
    rw [← hcore.head? (hws.isWord verb (by simp)).1] at hhash
    obtain ⟨c, t, hc, -⟩ := hfirst
    rw [loadLine, htrim, if_neg (by simp [hc] at hhash ⊢; exact hhash)]
    rfl
  have hnil : AreBlanks [] := by simp [AreBlanks]
  rw [hline]
  cases hws with
  | @rule d f p verb field hverb hfield =>
    have hword := isWord_of_toLower hverb d.name_isWord
    obtain ⟨h0, -⟩ | ⟨gap, s, hgap, hs, hnext⟩ := hcore.nextWord hword hnil
    · cases h0
    simp only [hnext, hverb, loadRule_spaced hgap hfield hs]
    cases d with
    | allow => rw [if_neg (by decide), if_pos (by decide), if_pos (by decide)]; rfl
    | deny => rw [if_neg (by decide), if_pos (by decide), if_neg (by decide)]; rfl
  | @default d verb pol hverb hpol =>
    have hword := isWord_of_toLower hverb (by decide)
    obtain ⟨h0, -⟩ | ⟨gap, s, hgap, hs, hnext⟩ := hcore.nextWord hword hnil
    · cases h0
    simp only [hnext, hverb, loadDefault_spaced hgap hpol hs, if_true]
    rfl
  | @route p h n verb hverb =>
    have hword := isWord_of_toLower hverb (by decide)
    obtain ⟨h0, -⟩ | ⟨gap, s, hgap, hs, hnext⟩ := hcore.nextWord hword hnil
    · cases h0
    simp only [hnext, hverb, loadRoute_spaced hgap hs]
    rw [if_neg (by decide), if_neg (by decide), if_pos (by decide)]
    rfl

/-- A blank line or a comment does nothing. -/
theorem loadLine_skipped {line cr : Bytes} (h : IsSkipped line)
    (hcr : ∀ c ∈ cr, isBlank c = true) (lineno : ℕ) (acl : AccessControl) :
    loadLine lineno acl (line ++ cr) = .ok acl := by
  have hskip : trim (line ++ cr) = [] ∨ (trim (line ++ cr)).head? = some HASH := by
    cases h with
    | blank hblank =>
      left
      have hall : ∀ c ∈ line ++ cr, isBlank c = true := by
        intro c hc
        rcases List.mem_append.mp hc with hc | hc
        · exact hblank.isBlank c hc
        · exact hcr c hc
      rw [trim, List.dropWhile_eq_nil_iff.mpr hall, List.rdropWhile_nil]
    | @comment lead rest hlead hrest =>
      right
      have hstart : (lead ++ HASH :: rest ++ cr).dropWhile isBlank = HASH :: (rest ++ cr) := by
        rw [List.append_assoc]
        exact dropWhile_boundary hlead.isBlank (by simp; decide)
      -- What is left of the line at its end still starts with the `#`.
      have hprefix := List.rdropWhile_prefix isBlank (l := HASH :: (rest ++ cr))
      have hne : (HASH :: (rest ++ cr)).rdropWhile isBlank ≠ [] := by
        rw [ne_eq, List.rdropWhile_eq_nil_iff]
        intro hall
        exact absurd (hall HASH (by simp)) (by decide)
      obtain ⟨c, t, hc⟩ := List.exists_cons_of_ne_nil hne
      rw [hc, List.cons_prefix_cons] at hprefix
      rw [trim, hstart, hc, hprefix.1]
      rfl
  rw [loadLine, if_pos hskip]

/-! ## What a text does -/

/-- Blanks have no line feed. -/
theorem AreBlanks.lf_notMem {s : Bytes} (h : AreBlanks s) : LF ∉ s := by
  intro hmem
  rcases h LF hmem with h | h <;> exact absurd h (by decide)

/-- A word has no line feed. -/
theorem IsWord.lf_notMem {w : Bytes} (h : IsWord w) : LF ∉ w :=
  fun hmem => absurd (h.2 LF hmem) (by decide)

/-- Words with blanks between them have no line feed. -/
theorem Spaced.lf_notMem {ws : List Bytes} {s : Bytes} (h : Spaced ws s)
    (hws : ∀ w ∈ ws, IsWord w) : LF ∉ s := by
  induction h with
  | one w => exact (hws w (by simp)).lf_notMem
  | cons w hne hgap h ih =>
    obtain ⟨hw, hws⟩ := List.forall_mem_cons.mp hws
    simp [hw.lf_notMem, hgap.lf_notMem, ih hws]

/-- The line of a directive has no line feed. -/
theorem IsLineOf.lf_notMem {d : Directive} {line : Bytes} (h : IsLineOf d line) : LF ∉ line := by
  obtain ⟨hlead, htrail, hws, hcore⟩ := h
  simp [hlead.lf_notMem, htrail.lf_notMem, hcore.lf_notMem hws.isWord]

/-- A line that is skipped has no line feed. -/
theorem IsSkipped.lf_notMem {line : Bytes} (h : IsSkipped line) : LF ∉ line := by
  cases h with
  | blank h => exact h.lf_notMem
  | comment hlead hrest =>
    have hne : LF ≠ HASH := by decide
    simp [hlead.lf_notMem, hrest, hne]

/-- Directives are loaded one part after the other. -/
theorem Loads.append {ds ds' : List Directive} {acl acl' acl'' : AccessControl}
    (h : Loads ds acl acl') (h' : Loads ds' acl' acl'') : Loads (ds ++ ds') acl acl'' := by
  induction h with
  | nil => exact h'
  | cons _ ih => exact .cons (ih h')

/-- The first line does what the first directives of the list say, of which there is one or none. -/
theorem Written.first {ds : List Directive} {line : Bytes} {lines : List Bytes}
    (h : Written ds (line :: lines)) :
    LF ∉ line ∧ ∃ ds₁ ds₂, ds = ds₁ ++ ds₂ ∧ Written ds₂ lines ∧
      ∀ cr : Bytes, (∀ c ∈ cr, isBlank c = true) → ∀ lineno acl,
        ∃ acl', loadLine lineno acl (line ++ cr) = .ok acl' ∧ Loads ds₁ acl acl' := by
  cases h with
  | skip hline h =>
    exact ⟨hline.lf_notMem, [], ds, rfl, h, fun cr hcr lineno acl =>
      ⟨acl, loadLine_skipped hline hcr lineno acl, .nil acl⟩⟩
  | @directive d ds _ _ hline h =>
    refine ⟨hline.lf_notMem, [d], ds, rfl, h, fun cr hcr lineno acl => ?_⟩
    obtain ⟨source, hload⟩ := loadLine_directive hline hcr lineno acl
    exact ⟨_, hload, .cons (.nil _)⟩

/-- The lines of a text are loaded one after the other. -/
theorem loadLines_text {lines : List Bytes} {text : Bytes} (ht : IsText lines text)
    {ds : List Directive} (hw : Written ds lines) (lineno : ℕ) (acl : AccessControl) :
    ∃ acl', loadLines lineno acl (getlines text) = { ok := true, acl := acl' } ∧
      Loads ds acl acl' := by
  have hblank : ∀ c ∈ [CR], isBlank c = true := List.all_eq_true.mp (by decide)
  induction ht generalizing ds lineno acl with
  | nil =>
    cases hw
    exact ⟨acl, rfl, .nil acl⟩
  | @last line hne =>
    obtain ⟨hlf, ds₁, ds₂, rfl, hrest, hfirst⟩ := hw.first
    cases hrest
    obtain ⟨acl', hload, hloads⟩ := hfirst [] (by simp) (lineno + 1) acl
    rw [List.append_nil] at hload
    have hlines : getlines line = [line] := Lib.Lines.lines_eq_singleton hne hlf
    refine ⟨acl', ?_, by rwa [List.append_nil]⟩
    rw [hlines, loadLines, hload]
    rfl
  | @lf line lines text _ ih =>
    obtain ⟨hlf, ds₁, ds₂, rfl, hrest, hfirst⟩ := hw.first
    obtain ⟨acl₁, hload, hloads⟩ := hfirst [] (by simp) (lineno + 1) acl
    obtain ⟨acl', hlines, hloads'⟩ := ih hrest (lineno + 1) acl₁
    rw [List.append_nil] at hload
    refine ⟨acl', ?_, hloads.append hloads'⟩
    rw [getlines, Lib.Lines.lines_append_cons hlf, loadLines, hload]
    exact hlines
  | @crlf line lines text _ ih =>
    obtain ⟨hlf, ds₁, ds₂, rfl, hrest, hfirst⟩ := hw.first
    obtain ⟨acl₁, hload, hloads⟩ := hfirst [CR] hblank (lineno + 1) acl
    obtain ⟨acl', hlines, hloads'⟩ := ih hrest (lineno + 1) acl₁
    -- The carriage return is a blank at the end of the line.
    have hlf' : LF ∉ line ++ [CR] := by
      have hne : LF ≠ CR := by decide
      simp [hlf, hne]
    refine ⟨acl', ?_, hloads.append hloads'⟩
    have hsplit : line ++ CR :: LF :: text = line ++ [CR] ++ LF :: text := by simp
    rw [hsplit, getlines, Lib.Lines.lines_append_cons hlf', loadLines, hload]
    exact hlines

/-! ## What the access control decides -/

/-- The decision of a rule that matches. -/
def Rule.decides (req : Request) (r : Rule) : Option Decision :=
  if r.applies req then some r.decision else none

/-- The first rule that matches decides, or else the default. -/
theorem decision_check_findSome? (acl : AccessControl) (req : Request) :
    (acl.check req).decision =
      (acl.rules.findSome? (Rule.decides req)).getD acl.defaultPolicy := by
  rw [decision_check, Lib.FirstMatch.firstMatch_eq_findSome?]
  rfl

/-- The upstream of a route that matches. -/
def routeOf (hostHeader : Bytes) (route : Bytes × Upstream) : Option Upstream :=
  if wildcardMatch route.1 (toLower hostHeader) then some route.2 else none

/-- The first route that matches is taken, or else the host itself. -/
theorem resolve_findSome? (t : RouteTable) (hostHeader : Bytes) :
    t.resolve hostHeader =
      (t.routes.findSome? (routeOf hostHeader)).getD (splitAuthority hostHeader) := by
  have hfirst := Lib.FirstMatch.firstMatch_eq_findSome? Prod.snd (splitAuthority hostHeader)
    (fun route => wildcardMatch route.1 (toLower hostHeader)) t.routes
  calc t.resolve hostHeader
      = Lib.FirstMatch.firstMatch Prod.snd (splitAuthority hostHeader)
          (fun route => wildcardMatch route.1 (toLower hostHeader)) t.routes := by
        unfold RouteTable.resolve Lib.FirstMatch.firstMatch
        dsimp only
        cases t.routes.find? fun route => wildcardMatch route.1 (toLower hostHeader) <;> rfl
    _ = (t.routes.findSome? (routeOf hostHeader)).getD (splitAuthority hostHeader) := hfirst

/-- A rule decides the requests whose field its pattern matches. -/
theorem decides_rule (req : Request) (d : Decision) (f : RuleField) (p source : Bytes) :
    Rule.decides req ⟨d, f.name, p, source⟩ = if f.Matches p req then some d else none := by
  have happlies : Rule.applies ⟨d, f.name, p, source⟩ req = true ↔ f.Matches p req := by
    cases f with
    | host => exact wildcardMatch_iff
    | path => exact wildcardMatch_iff
    | method => exact wildcardMatch_iff
  unfold Rule.decides
  simp only [happlies]

/-- The rules that directives add decide as they say, after those that are there. -/
theorem Loads.rules {ds : List Directive} {acl acl' : AccessControl} (h : Loads ds acl acl')
    (req : Request) : acl'.rules.findSome? (Rule.decides req) =
      (acl.rules.findSome? (Rule.decides req)).or (ds.findSome? (Directive.decides req)) := by
  induction h with
  | nil => simp
  | @cons d ds source acl acl' h ih =>
    rw [ih]
    cases d with
    | rule d f p =>
      have hname : toLower f.name = f.name := by cases f <;> decide
      have hadd : (Directive.load source acl (.rule d f p)).rules.findSome? (Rule.decides req) =
          (acl.rules.findSome? (Rule.decides req)).or
            (if f.Matches p.bytes req then some d else none) := by
        rw [Directive.load, AccessControl.addRule, List.findSome?_append, hname,
          List.findSome?_singleton, decides_rule]
      rw [hadd, List.findSome?_cons, Option.or_assoc]
      congr 1
      rw [Directive.decides]
      split <;> rfl
    | default d => rfl
    | route p h n => rfl

/-- The last default counts. -/
theorem Loads.defaultPolicy {ds : List Directive} {acl acl' : AccessControl}
    (h : Loads ds acl acl') :
    acl'.defaultPolicy = (ds.filterMap Directive.policy).getLast?.getD acl.defaultPolicy := by
  induction h with
  | nil => rfl
  | @cons d ds source acl acl' h ih =>
    rw [ih]
    cases d with
    | rule d f p => rfl
    | default d =>
      have hpolicy : (Directive.default d).policy = some d := rfl
      rw [List.filterMap_cons_some hpolicy, List.getLast?_cons]
      rfl
    | route p h n => rfl

/-- The routes that directives add lead as they say, after those that are there. -/
theorem Loads.routes {ds : List Directive} {acl acl' : AccessControl} (h : Loads ds acl acl')
    (hostHeader : Bytes) : acl'.routes.routes.findSome? (routeOf hostHeader) =
      (acl.routes.routes.findSome? (routeOf hostHeader)).or
        (ds.findSome? (Directive.routes hostHeader)) := by
  induction h with
  | nil => simp
  | @cons d ds source acl acl' h ih =>
    rw [ih]
    cases d with
    | rule d f p => rfl
    | default d => rfl
    | route p h n =>
      rw [List.findSome?_cons, Directive.load, AccessControl.addRoute, RouteTable.add,
        List.findSome?_append, List.findSome?_singleton, Option.or_assoc]
      congr 1
      simp only [routeOf, wildcardMatch_iff, Directive.routes]
      split <;> rfl

/-- Defaults and routes are no rules. -/
theorem findSome?_filter_isRule (req : Request) (ds : List Directive) :
    (ds.filter Directive.isRule).findSome? (Directive.decides req) =
      ds.findSome? (Directive.decides req) := by
  induction ds with
  | nil => rfl
  | cons d ds ih =>
    cases d with
    | rule d f p => rw [List.filter_cons_of_pos rfl, List.findSome?_cons, List.findSome?_cons, ih]
    | default d =>
      rw [List.filter_cons_of_neg (by simp [Directive.isRule]), ih]
      rfl
    | route p h n =>
      rw [List.filter_cons_of_neg (by simp [Directive.isRule]), ih]
      rfl

/-- A configuration is loaded whatever way it is written, and the access control decides as its
directives say. -/
theorem loadString_meaning {ds : List Directive} {text : Bytes} (h : IsConfig ds text) :
    ∃ acl, ({} : AccessControl).loadString text = { ok := true, acl := acl } ∧
      (∀ req, (acl.check req).decision =
        (ds.findSome? (Directive.decides req)).getD (lastDefault ds)) ∧
      (∀ req d, (ds.filter Directive.isRule).findSome? (Directive.decides req) = some d →
        (acl.check req).decision = d) ∧
      ∀ hostHeader, acl.routes.resolve hostHeader =
        (ds.findSome? (Directive.routes hostHeader)).getD (splitAuthority hostHeader) := by
  obtain ⟨lines, hw, ht⟩ := h
  obtain ⟨acl, hload, hloads⟩ := loadLines_text ht hw 0 {}
  have hcheck : ∀ req, (acl.check req).decision =
      (ds.findSome? (Directive.decides req)).getD (lastDefault ds) := by
    intro req
    rw [decision_check_findSome?, hloads.rules, hloads.defaultPolicy]
    rfl
  refine ⟨acl, hload, hcheck, fun req d hd => ?_, fun hostHeader => ?_⟩
  · rw [hcheck, ← findSome?_filter_isRule, hd]
    rfl
  · rw [resolve_findSome?, hloads.routes]
    rfl

/-- A comment, a rule and a default, with `CR LF` after the first line and none after the last. -/
theorem loadString_meaning_three_lines :
    ∃ ds text, text = str "# rules\r\nDENY path /admin*\n default  deny" ∧
      ds.length = 2 ∧ IsConfig ds text ∧
      ∃ acl, ({} : AccessControl).loadString text = { ok := true, acl := acl } ∧
        (∀ req, (acl.check req).decision =
          (ds.findSome? (Directive.decides req)).getD (lastDefault ds)) ∧
        (∀ req d, (ds.filter Directive.isRule).findSome? (Directive.decides req) = some d →
          (acl.check req).decision = d) ∧
        ∀ hostHeader, acl.routes.resolve hostHeader =
          (ds.findSome? (Directive.routes hostHeader)).getD (splitAuthority hostHeader) := by
  have hword : IsWord (str "/admin*") := by decide
  let pattern : Word := ⟨str "/admin*", hword.1, hword.2⟩
  have hnil : AreBlanks [] := by simp [AreBlanks]
  have hblank : AreBlanks [SP] := by simp [AreBlanks]
  have hblanks : AreBlanks [SP, SP] := by simp [AreBlanks]
  have hcomment : IsSkipped (str "# rules") :=
    @IsSkipped.comment [] (str " rules") hnil (by decide)
  have hrule : IsLineOf (.rule .deny .path pattern) (str "DENY path /admin*") :=
    @IsLineOf.mk _ [] _ [] _ hnil hnil
      (@Spells.rule _ _ _ (str "DENY") (str "path") (by decide) (by decide))
      (.cons _ (by simp) hblank (.cons _ (by simp) hblank (.one _)))
  have hdefault : IsLineOf (.default .deny) (str " default  deny") :=
    @IsLineOf.mk _ [SP] _ [] _ hblank hnil
      (@Spells.default _ (str "default") (str "deny") (by decide) (by decide))
      (.cons _ (by simp) hblanks (.one _))
  have hconfig : IsConfig [.rule .deny .path pattern, .default .deny]
      (str "# rules\r\nDENY path /admin*\n default  deny") :=
    ⟨_, .skip hcomment (.directive hrule (.directive hdefault .nil)),
      .crlf _ (.lf _ (.last (by decide)))⟩
  exact ⟨_, _, rfl, rfl, hconfig, loadString_meaning hconfig⟩

end ForwardProxy
