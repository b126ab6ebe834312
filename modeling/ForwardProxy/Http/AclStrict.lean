import ForwardProxy.Http.AclMeaning

/-!
# What a configuration is accepted for

`load_string` takes as many words off a line as its directive needs, and leaves the rest of the line
unread. So a line is understood by its leading words (`Understood`, `loadLine_ok_iff`), and what is
understood is a directive of the documented grammar exactly where nothing was passed over
(`loadString_documented_iff`).
-/

namespace ForwardProxy

/-! ## The words of a line -/

/-- The words of a string, with whitespace around and between them. -/
inductive Words : List Bytes → Bytes → Prop
  | nil {s : Bytes} (h : ∀ c ∈ s, isSpace c = true) : Words [] s
  | cons {lead w rest : Bytes} {ws : List Bytes} (hlead : ∀ c ∈ lead, isSpace c = true)
      (hw : IsWord w) (hrest : ∀ c ∈ rest.head?, isSpace c = true) (h : Words ws rest) :
      Words (w :: ws) (lead ++ (w ++ rest))

/-- At the end of the words nothing is taken. -/
theorem Words.nextWord_nil {s : Bytes} (h : Words [] s) : nextWord s = ([], []) := by
  cases h with
  | nil h =>
    rw [nextWord, List.dropWhile_eq_nil_iff.mpr h]
    rfl

/-- The first word is taken, and the others stay. -/
theorem Words.nextWord_cons {w : Bytes} {ws : List Bytes} {s : Bytes} (h : Words (w :: ws) s) :
    ∃ rest, nextWord s = (w, rest) ∧ IsWord w ∧ Words ws rest := by
  cases h with
  | @cons _ _ rest _ hlead hw hrest h =>
    exact ⟨rest, nextWord_append hlead hw.1 hw.2 hrest, hw, h⟩

/-- The first word, and an empty one where there is none. -/
def firstWord : List Bytes → Bytes
  | [] => []
  | w :: _ => w

/-- At the end of the words, the word that is taken is empty. -/
theorem Words.nextWord {ws : List Bytes} {s : Bytes} (h : Words ws s) :
    ∃ rest, ForwardProxy.nextWord s = (firstWord ws, rest) ∧ Words ws.tail rest := by
  cases ws with
  | nil => exact ⟨[], h.nextWord_nil, .nil (by simp)⟩
  | cons w ws =>
    obtain ⟨rest, hnext, -, hrest⟩ := h.nextWord_cons
    exact ⟨rest, hnext, hrest⟩

/-- A word of a line is not empty. -/
theorem Words.ne_nil {ws : List Bytes} {s : Bytes} (h : Words ws s) : ∀ w ∈ ws, w ≠ [] := by
  induction h with
  | nil => simp
  | cons hlead hw hrest h ih => exact List.forall_mem_cons.mpr ⟨hw.1, ih⟩

/-- The words of a line are determined by it. -/
theorem Words.unique {ws ws' : List Bytes} {s : Bytes} (h : Words ws s) (h' : Words ws' s) :
    ws = ws' := by
  induction ws generalizing ws' s with
  | nil =>
    cases ws' with
    | nil => rfl
    | cons w ws' =>
      obtain ⟨rest, hnext, hw, -⟩ := h'.nextWord_cons
      rw [h.nextWord_nil] at hnext
      exact absurd (Prod.mk.inj hnext).1.symm hw.1
  | cons w ws ih =>
    obtain ⟨rest, hnext, hw, hrest⟩ := h.nextWord_cons
    cases ws' with
    | nil =>
      rw [h'.nextWord_nil] at hnext
      exact absurd (Prod.mk.inj hnext).1.symm hw.1
    | cons w' ws' =>
      obtain ⟨rest', hnext', -, hrest'⟩ := h'.nextWord_cons
      rw [hnext] at hnext'
      obtain ⟨rfl, rfl⟩ := Prod.mk.inj hnext'
      rw [ih hrest hrest']

/-- Every string has its words. -/
theorem exists_words (s : Bytes) : ∃ ws, Words ws s := by
  induction hn : s.length using Nat.strong_induction_on generalizing s with
  | _ n ih =>
    set t := s.dropWhile isSpace with ht
    have hlead : ∀ c ∈ s.takeWhile isSpace, isSpace c = true := fun _ => List.mem_takeWhile_imp
    have hs : s = s.takeWhile isSpace ++ t := (List.takeWhile_append_dropWhile).symm
    cases hcases : t with
    | nil =>
      rw [hcases, List.append_nil] at hs
      rw [hs]
      exact ⟨[], .nil hlead⟩
    | cons c t' =>
      -- The word goes up to the next whitespace.
      have hc : isSpace c = false := by
        have := List.head?_dropWhile_not isSpace s
        rw [← ht, hcases] at this
        simpa using this
      set w := t.takeWhile fun c => !isSpace c with hw
      set rest := t.dropWhile fun c => !isSpace c with hrest
      have hsplit : t = w ++ rest := (List.takeWhile_append_dropWhile).symm
      have hne : w ≠ [] := by
        rw [hw, hcases, List.takeWhile_cons_of_pos (by simp [hc])]
        simp
      have hfree : ∀ c ∈ w, isSpace c = false := by
        intro d hd
        simpa using List.mem_takeWhile_imp hd
      have hend : ∀ c ∈ rest.head?, isSpace c = true := by
        intro d hd
        have := List.head?_dropWhile_not (fun c => !isSpace c) t
        rw [← hrest, Option.mem_def.mp hd] at this
        simpa using this
      have hlt : rest.length < n := by
        have hlen := congrArg List.length hs
        have hlen' := congrArg List.length hsplit
        have hpos := List.length_pos_iff.mpr hne
        rw [List.length_append] at hlen hlen'
        omega
      obtain ⟨ws, hws⟩ := ih _ hlt rest rfl
      rw [hs, hsplit]
      exact ⟨w :: ws, .cons hlead ⟨hne, hfree⟩ hend hws⟩

/-- What follows a word does not change the sign in front of it. -/
theorem splitSign_append {w : Bytes} (hne : w ≠ []) (rest : Bytes) :
    splitSign (w ++ rest) = ((splitSign w).1, (splitSign w).2 ++ rest) := by
  obtain ⟨c, w', rfl⟩ := List.exists_cons_of_ne_nil hne
  unfold splitSign
  rw [List.cons_append]
  split
  · rename_i heq
    obtain ⟨rfl, rfl⟩ := List.cons.inj heq
    rfl
  · rename_i heq
    obtain ⟨rfl, rfl⟩ := List.cons.inj heq
    rfl
  · rename_i hminus hplus
    split
    · rename_i heq
      exact absurd (congrArg (· ++ rest) heq) (hminus _)
    · rename_i heq
      exact absurd (congrArg (· ++ rest) heq) (hplus _)
    · rfl

/-- The number at the head of a stream is that of its first word. -/
theorem Words.nextInt {ws : List Bytes} {s : Bytes} (h : Words ws s) :
    ForwardProxy.nextInt s = ForwardProxy.nextInt (firstWord ws) := by
  cases h with
  | nil h =>
    rw [ForwardProxy.nextInt, List.dropWhile_eq_nil_iff.mpr h]
    rfl
  | @cons lead w rest _ hlead hw hrest _ =>
    have hfirst : ∀ u : Bytes, ∀ c ∈ (w ++ u).head?, isSpace c = false := by
      intro u c hc
      obtain ⟨d, w', rfl⟩ := List.exists_cons_of_ne_nil hw.1
      obtain rfl : d = c := by simpa using hc
      exact hw.2 d (by simp)
    have hdrop : (lead ++ (w ++ rest)).dropWhile isSpace = w ++ rest :=
      dropWhile_boundary hlead (hfirst rest)
    have hself : w.dropWhile isSpace = w := by
      have := @dropWhile_boundary isSpace [] w (by simp) (by simpa using hfirst [])
      simpa using this
    -- The digits of the word do not go on after it.
    have hdigits : ∀ t : Bytes, (t ++ rest).takeWhile isDigit = t.takeWhile isDigit := by
      intro t
      have hnone : rest.takeWhile isDigit = [] := by
        cases rest with
        | nil => rfl
        | cons c rest =>
          rw [List.takeWhile_cons_of_neg]
          intro hc
          have hspace := hrest c rfl
          rw [(digit_cases hc).1] at hspace
          cases hspace
      rw [List.takeWhile_append, hnone, List.append_nil]
      split
      · rename_i hlen
        exact ((List.takeWhile_prefix isDigit).eq_of_length hlen).symm
      · rfl
    unfold ForwardProxy.nextInt
    simp only [firstWord, hdrop, hself, splitSign_append hw.1, hdigits]

/-! ## Directives -/

/-- The line is blank, or a comment. -/
def SaysNothing (line : Bytes) : Prop := trim line = [] ∨ (trim line).head? = some HASH

/-- No words, or a comment. -/
def IsTail : List Bytes → Prop
  | [] => True
  | w :: _ => w.head? = some HASH

/-- The words of one directive of the documented grammar, and perhaps a comment after it. -/
inductive Documented : List Bytes → Prop
  | default {verb pol : Bytes} {rest : List Bytes} (hverb : toLower verb = str "default")
      (hpol : toLower pol = str "allow" ∨ toLower pol = str "deny") (hrest : IsTail rest) :
      Documented (verb :: pol :: rest)
  | rule {verb field pattern : Bytes} {rest : List Bytes}
      (hverb : toLower verb = str "allow" ∨ toLower verb = str "deny")
      (hfield : toLower field = str "host" ∨ toLower field = str "path" ∨
        toLower field = str "method")
      (hpattern : pattern.head? ≠ some HASH) (hrest : IsTail rest) :
      Documented (verb :: field :: pattern :: rest)
  | route {verb pattern host port : Bytes} {rest : List Bytes} (hverb : toLower verb = str "route")
      (hpattern : pattern.head? ≠ some HASH) (hhost : host.head? ≠ some HASH)
      (hport : port.all isDigit = true ∧ 1 ≤ decimalValue port ∧ decimalValue port ≤ 65535)
      (hrest : IsTail rest) : Documented (verb :: pattern :: host :: port :: rest)

/-- The words that are taken off a line for a directive: the names `args`, the port of a route, and
the words `rest` that are left. -/
inductive Taken : List Bytes → Option Bytes → List Bytes → List Bytes → Prop
  | default {verb pol : Bytes} {rest : List Bytes} (hverb : toLower verb = str "default")
      (hpol : toLower pol = str "allow" ∨ toLower pol = str "deny") :
      Taken [] none rest (verb :: pol :: rest)
  | rule {verb field pattern : Bytes} {rest : List Bytes}
      (hverb : toLower verb = str "allow" ∨ toLower verb = str "deny")
      (hfield : toLower field = str "host" ∨ toLower field = str "path" ∨
        toLower field = str "method") :
      Taken [pattern] none rest (verb :: field :: pattern :: rest)
  | route {verb pattern host port : Bytes} {rest : List Bytes} (hverb : toLower verb = str "route")
      (hport : 0 < nextInt port ∧ nextInt port ≤ 65535) :
      Taken [pattern, host] (some port) rest (verb :: pattern :: host :: port :: rest)

/-- The line is understood, whatever is left of it. -/
def Understood (ws : List Bytes) : Prop := ∃ args port rest, Taken args port rest ws

/-- Nothing is passed over: no name is a comment, the port is in digits, and no words are left but a
comment. -/
def Plain (args : List Bytes) (port : Option Bytes) (rest : List Bytes) : Prop :=
  (∀ a ∈ args, a.head? ≠ some HASH) ∧ (∀ p ∈ port, p.all isDigit = true) ∧ IsTail rest

/-- What is understood is documented where nothing is passed over. -/
theorem documented_iff {ws : List Bytes} :
    Documented ws ↔ ∃ args port rest, Taken args port rest ws ∧ Plain args port rest := by
  have hrange : ∀ port : Bytes, port.all isDigit = true →
      (0 < nextInt port ∧ nextInt port ≤ 65535 ↔
        1 ≤ decimalValue port ∧ decimalValue port ≤ 65535) := by
    intro port hport
    have hvalue : nextInt port = min INT_MAX (decimalValue port) := by
      by_cases hne : port = []
      · rw [hne]
        rfl
      · have hnext := @nextInt_digits [] port [] (by simp) hne hport (by simp)
        rwa [List.nil_append, List.append_nil] at hnext
    rw [hvalue]
    unfold INT_MAX
    omega
  constructor
  · intro h
    cases h with
    | default hverb hpol hrest =>
      exact ⟨_, _, _, .default hverb hpol, by simp, by simp, hrest⟩
    | rule hverb hfield hpattern hrest =>
      exact ⟨_, _, _, .rule hverb hfield, by simpa using hpattern, by simp, hrest⟩
    | route hverb hpattern hhost hport hrest =>
      exact ⟨_, _, _, .route hverb ((hrange _ hport.1).mpr hport.2),
        by simpa using ⟨hpattern, hhost⟩, by simpa using hport.1, hrest⟩
  · rintro ⟨args, port, rest, htaken, hargs, hport, hrest⟩
    cases htaken with
    | default hverb hpol => exact .default hverb hpol hrest
    | rule hverb hfield => exact .rule hverb hfield (hargs _ (by simp)) hrest
    | route hverb hvalue =>
      have hdigits := hport _ rfl
      exact .route hverb (hargs _ (by simp)) (hargs _ (by simp))
        ⟨hdigits, (hrange _ hdigits).mp hvalue⟩ hrest

/-- What a directive takes of its words is determined by them. -/
theorem Taken.unique {ws : List Bytes} {args args' : List Bytes} {port port' : Option Bytes}
    {rest rest' : List Bytes} (h : Taken args port rest ws) (h' : Taken args' port' rest' ws) :
    args = args' ∧ port = port' ∧ rest = rest' := by
  have hdefault : ¬(str "default" = str "allow" ∨ str "default" = str "deny") := by decide
  have hroute : ¬(str "route" = str "allow" ∨ str "route" = str "deny") := by decide
  have hne : str "default" ≠ str "route" := by decide
  -- The verb tells which directive it is.
  cases h with
  | default hverb =>
    cases h' with
    | default => exact ⟨rfl, rfl, rfl⟩
    | rule hverb' =>
      rw [hverb] at hverb'
      exact absurd hverb' hdefault
    | route hverb' =>
      rw [hverb] at hverb'
      exact absurd hverb' hne
  | rule hverb =>
    cases h' with
    | default hverb' =>
      rw [hverb'] at hverb
      exact absurd hverb hdefault
    | rule => exact ⟨rfl, rfl, rfl⟩
    | route hverb' =>
      rw [hverb'] at hverb
      exact absurd hverb hroute
  | route hverb =>
    cases h' with
    | default hverb' =>
      rw [hverb'] at hverb
      exact absurd hverb hne
    | rule hverb' =>
      rw [hverb] at hverb'
      exact absurd hverb' hroute
    | route => exact ⟨rfl, rfl, rfl⟩

/-! ## What is loaded -/

section Lines

variable {ws : List Bytes} {ls : Bytes} (lineno : ℕ) (acl : AccessControl)

/-- `default` wants one word more. -/
theorem loadDefault_ok_iff (h : Words ws ls) : (∃ acl', loadDefault lineno acl ls = .ok acl') ↔
    toLower (firstWord ws) = str "allow" ∨ toLower (firstWord ws) = str "deny" := by
  obtain ⟨_, hnext, -⟩ := h.nextWord
  unfold loadDefault
  rw [hnext]
  dsimp only
  split
  · rename_i hallow
    simp [hallow]
  · rename_i hallow
    split
    · rename_i hdeny
      simp [hdeny]
    · rename_i hdeny
      simp [hallow, hdeny]

/-- A rule wants a field and a pattern more. -/
theorem loadRule_ok_iff (d : Decision) (s : Bytes) (h : Words ws ls) :
    (∃ acl', loadRule lineno acl d s ls = .ok acl') ↔ firstWord ws.tail ≠ [] ∧
      (toLower (firstWord ws) = str "host" ∨ toLower (firstWord ws) = str "path" ∨
        toLower (firstWord ws) = str "method") := by
  obtain ⟨_, hnext, hrest⟩ := h.nextWord
  obtain ⟨_, hnext', -⟩ := hrest.nextWord
  unfold loadRule
  simp only [hnext, hnext']
  split
  · rename_i hnil
    simp [hnil]
  · rename_i hnil
    split
    · rename_i hfield
      simp [hfield]
    · rename_i hfield
      simp only [Except.ok.injEq, exists_eq', true_iff]
      rw [not_and_or, not_and_or, not_not, not_not, not_not] at hfield
      exact ⟨hnil, hfield⟩

/-- A route wants two names and a number more. -/
theorem loadRoute_ok_iff (h : Words ws ls) : (∃ acl', loadRoute lineno acl ls = .ok acl') ↔
    firstWord ws ≠ [] ∧ firstWord ws.tail ≠ [] ∧
      0 < nextInt (firstWord ws.tail.tail) ∧ nextInt (firstWord ws.tail.tail) ≤ 65535 := by
  obtain ⟨_, hnext, hrest⟩ := h.nextWord
  obtain ⟨_, hnext', hrest'⟩ := hrest.nextWord
  unfold loadRoute
  simp only [hnext, hnext', hrest'.nextInt]
  split
  · rename_i hbad
    simp only [reduceCtorEq, exists_false, false_iff]
    rintro ⟨hpattern, hhost, hpos, hle⟩
    rcases hbad with hnil | hnil | hport | hport
    · exact hpattern hnil
    · exact hhost hnil
    · omega
    · omega
  · rename_i hgood
    simpa using hgood

end Lines

/-- Where there is a first word, the words are it and those after it. -/
theorem cons_firstWord {ws : List Bytes} (h : firstWord ws ≠ []) :
    ws = firstWord ws :: ws.tail := by
  cases ws with
  | nil => exact absurd rfl h
  | cons w ws => rfl

/-- A word that is lowered to a keyword is not empty. -/
theorem ne_nil_of_toLower {w k : Bytes} (h : toLower w = k) (hk : k ≠ []) : w ≠ [] := by
  rintro rfl
  exact hk h.symm

/-- What is understood, by the first words. -/
theorem understood_iff {ws : List Bytes} (hne : ∀ w ∈ ws, w ≠ []) : Understood ws ↔
    toLower (firstWord ws) = str "default" ∧ (toLower (firstWord ws.tail) = str "allow" ∨
        toLower (firstWord ws.tail) = str "deny") ∨
      (toLower (firstWord ws) = str "allow" ∨ toLower (firstWord ws) = str "deny") ∧
        firstWord ws.tail.tail ≠ [] ∧ (toLower (firstWord ws.tail) = str "host" ∨
          toLower (firstWord ws.tail) = str "path" ∨ toLower (firstWord ws.tail) = str "method") ∨
      toLower (firstWord ws) = str "route" ∧ firstWord ws.tail ≠ [] ∧
        firstWord ws.tail.tail ≠ [] ∧ 0 < nextInt (firstWord ws.tail.tail.tail) ∧
          nextInt (firstWord ws.tail.tail.tail) ≤ 65535 := by
  constructor
  · rintro ⟨args, port, rest, htaken⟩
    cases htaken with
    | default hverb hpol => exact Or.inl ⟨hverb, hpol⟩
    | @rule verb field pattern rest hverb hfield =>
      exact Or.inr (Or.inl ⟨hverb, hne pattern (by simp), hfield⟩)
    | @route verb pattern host port rest hverb hport =>
      exact Or.inr (Or.inr ⟨hverb, hne pattern (by simp), hne host (by simp), hport⟩)
  · rintro (⟨hverb, hpol⟩ | ⟨hverb, hpattern, hfield⟩ | ⟨hverb, hpattern, hhost, hport⟩)
    -- The words that are looked at are not empty, so the line has them.
    · have hws := cons_firstWord (ne_nil_of_toLower hverb (by decide))
      have hpol' : firstWord ws.tail ≠ [] := by
        rcases hpol with h | h
        · exact ne_nil_of_toLower h (by decide)
        · exact ne_nil_of_toLower h (by decide)
      rw [cons_firstWord hpol'] at hws
      rw [hws]
      exact ⟨_, _, _, .default hverb hpol⟩
    · have hverb' : firstWord ws ≠ [] := by
        rcases hverb with h | h
        · exact ne_nil_of_toLower h (by decide)
        · exact ne_nil_of_toLower h (by decide)
      have hfield' : firstWord ws.tail ≠ [] := by
        rcases hfield with h | h | h
        · exact ne_nil_of_toLower h (by decide)
        · exact ne_nil_of_toLower h (by decide)
        · exact ne_nil_of_toLower h (by decide)
      have hws := cons_firstWord hverb'
      rw [cons_firstWord hfield', cons_firstWord hpattern] at hws
      rw [hws]
      exact ⟨_, _, _, .rule hverb hfield⟩
    · have hport' : firstWord ws.tail.tail.tail ≠ [] := by
        intro hnil
        rw [hnil] at hport
        exact absurd hport.1 (by decide)
      have hws := cons_firstWord (ne_nil_of_toLower hverb (by decide))
      rw [cons_firstWord hpattern, cons_firstWord hhost, cons_firstWord hport'] at hws
      rw [hws]
      exact ⟨_, _, _, .route hverb hport⟩

/-- A line is loaded exactly where it says nothing or is understood. -/
theorem loadLine_ok_iff {line : Bytes} {ws : List Bytes} (h : Words ws (trim line)) (lineno : ℕ)
    (acl : AccessControl) :
    (∃ acl', loadLine lineno acl line = .ok acl') ↔ SaysNothing line ∨ Understood ws := by
  obtain ⟨ls, hnext, hrest⟩ := h.nextWord
  rw [understood_iff h.ne_nil]
  unfold loadLine SaysNothing
  dsimp only
  split
  · rename_i hskip
    simp [hskip]
  · rename_i hskip
    rw [hnext]
    dsimp only
    rw [or_iff_right hskip]
    have hruleDefault : ¬(str "default" = str "allow" ∨ str "default" = str "deny") := by decide
    have hrouteDefault : str "default" ≠ str "route" := by decide
    -- The verb settles which of the three it can be.
    split
    · rename_i hverb
      rw [loadDefault_ok_iff lineno acl hrest, hverb]
      simp only [hruleDefault, hrouteDefault, false_and, true_and, or_false]
    · rename_i hdefault
      simp only [hdefault, false_and, false_or]
      split
      · rename_i hverb
        rw [loadRule_ok_iff lineno acl _ _ hrest]
        have hroute : toLower (firstWord ws) ≠ str "route" := by
          rcases hverb with h | h <;> rw [h] <;> decide
        simp only [hverb, hroute, false_and, true_and, or_false]
      · rename_i hrule
        simp only [hrule, false_and, false_or]
        split
        · rename_i hverb
          rw [loadRoute_ok_iff lineno acl hrest]
          simp only [hverb, true_and]
        · rename_i hroute
          simp [hroute]

/-- A text is loaded exactly where each of its lines is. -/
theorem loadString_ok_iff (acl : AccessControl) (text : Bytes) :
    (acl.loadString text).ok = true ↔ ∀ line ∈ getlines text,
      SaysNothing line ∨ ∃ ws, Words ws (trim line) ∧ Understood ws := by
  have hlines : ∀ (lines : List Bytes) (lineno : ℕ) (acl : AccessControl),
      (loadLines lineno acl lines).ok = true ↔ ∀ line ∈ lines,
        SaysNothing line ∨ ∃ ws, Words ws (trim line) ∧ Understood ws := by
    intro lines
    induction lines with
    | nil => simp [loadLines]
    | cons line lines ih =>
      intro lineno acl
      obtain ⟨ws, hws⟩ := exists_words (trim line)
      have hline := loadLine_ok_iff hws (lineno + 1) acl
      have hwords : (∃ ws, Words ws (trim line) ∧ Understood ws) ↔ Understood ws := by
        constructor
        · rintro ⟨ws', hws', hunderstood⟩
          rwa [hws.unique hws']
        · exact fun hunderstood => ⟨ws, hws, hunderstood⟩
      rw [List.forall_mem_cons, hwords, ← hline, loadLines]
      cases loadLine (lineno + 1) acl line with
      | ok acl' => simp [ih]
      | error e => simp
  exact hlines _ 0 acl

/-- A line of which something is passed over: a further word, a comment in the place of a name, or a
port with more than digits. -/
def PassedOver (line : Bytes) : Prop :=
  ∃ ws args port rest, Words ws (trim line) ∧ Taken args port rest ws ∧ ¬Plain args port rest

/-- A text is loaded only if each line that says anything is a directive of the documented grammar,
exactly where some line is not understood, or nothing is passed over in any. -/
theorem loadString_documented_iff (acl : AccessControl) (text : Bytes) :
    ((acl.loadString text).ok = true → ∀ line ∈ getlines text,
        SaysNothing line ∨ ∃ ws, Words ws (trim line) ∧ Documented ws) ↔
      (∃ line ∈ getlines text, ¬SaysNothing line ∧
          ∀ ws, Words ws (trim line) → ¬Understood ws) ∨
        ∀ line ∈ getlines text, SaysNothing line ∨ ¬PassedOver line := by
  rw [loadString_ok_iff]
  constructor
  · intro h
    by_cases hall : ∀ line ∈ getlines text,
        SaysNothing line ∨ ∃ ws, Words ws (trim line) ∧ Understood ws
    · refine Or.inr fun line hline => (h hall line hline).imp_right ?_
      rintro ⟨ws, hws, hdoc⟩ ⟨ws', args, port, rest, hws', htaken, hplain⟩
      obtain rfl := hws.unique hws'
      obtain ⟨args', port', rest', htaken', hplain'⟩ := documented_iff.mp hdoc
      obtain ⟨rfl, rfl, rfl⟩ := htaken.unique htaken'
      exact hplain hplain'
    · simp only [not_forall, not_or, not_exists, not_and] at hall
      obtain ⟨line, hline, hsays, hnot⟩ := hall
      exact Or.inl ⟨line, hline, hsays, hnot⟩
  · rintro (⟨line, hline, hsays, hnot⟩ | hplain) hok line' hline'
    · rcases hok line hline with hskip | ⟨ws, hws, hunderstood⟩
      · exact absurd hskip hsays
      · exact absurd hunderstood (hnot ws hws)
    · rcases hok line' hline' with hskip | ⟨ws, hws, args, port, rest, htaken⟩
      · exact Or.inl hskip
      · refine (hplain line' hline').imp_right fun hpassed => ⟨ws, hws, ?_⟩
        refine documented_iff.mpr ⟨args, port, rest, htaken, ?_⟩
        by_contra hnot
        exact hpassed ⟨ws, args, port, rest, hws, htaken, hnot⟩

/-- A rule with two patterns is loaded as one with the first. -/
theorem loadString_two_patterns :
    let text := str "deny host a b\nroute h u 8x"
    (({} : AccessControl).loadString text).ok = true ∧
      ¬∀ line ∈ getlines text,
        SaysNothing line ∨ ∃ ws, Words ws (trim line) ∧ Documented ws := by
  have hword : ∀ {w : Bytes}, (w ≠ [] ∧ w.all fun c => !isSpace c) → IsWord w := by
    rintro w ⟨hne, hall⟩
    exact ⟨hne, fun c hc => by simpa using List.all_eq_true.mp hall c hc⟩
  intro text
  refine ⟨by decide +kernel, fun hall => ?_⟩
  have hlines : getlines text = [str "deny host a b", str "route h u 8x"] := by
    decide +kernel
  have htrim : trim (str "deny host a b") = str "deny host a b" := by
    decide +kernel
  have hwords : Words [str "deny", str "host", str "a", str "b"]
      (str "deny host a b") := by
    have hspace : ∀ c ∈ [SP], isSpace c = true := by simp; decide
    have hlast : Words [str "b"] ([SP] ++ (str "b" ++ [])) :=
      .cons hspace (hword (by decide)) (by simp) (.nil (by simp))
    have hrest : Words [str "host", str "a", str "b"] (str " host a b") :=
      .cons hspace (hword (by decide)) (by simp; decide)
        (.cons hspace (hword (by decide)) (by simp; decide) hlast)
    exact @Words.cons [] _ _ _ (by simp) (hword (by decide)) (by simp; decide) hrest
  have hline := hall (str "deny host a b") (by rw [hlines]; simp)
  rw [SaysNothing, htrim] at hline
  rcases hline with hskip | ⟨ws, hws, hdoc⟩
  · revert hskip
    decide
  · obtain rfl := hwords.unique hws
    cases hdoc with
    | default hverb => exact absurd hverb (by decide)
    | rule _ _ _ hrest =>
      revert hrest
      unfold IsTail
      decide
    | route hverb => exact absurd hverb (by decide)

end ForwardProxy
