import Mathlib.Data.List.Basic

/-!
# Command lines

A word of a command line is a switch, an option that takes the next word as its value, or neither.
`parse` reads a command line from the left into a state. It accepts exactly the command lines that
are options one after the other, and comes to what these set in their order (`parse_eq_ok_iff`). The
options of a command line are determined by it (`words_injective`), and a command line that is not
just options is refused for the first word that starts none, or has no value (`exists_items`,
`parse_refuses`).
-/

namespace Lib.CommandLine

/-- What a word does to a state, as the first word of an option. -/
inductive Reading (W S : Type*)
  | switch (f : S → S)
  | valued (f : S → W → S)
  | unknown

/-- Why a command line is refused. -/
inductive Refusal (W : Type*)
  | missing (word : W)
  | unknown (word : W)

variable {W S : Type*}

/-- Reads a command line into a state, or refuses it. -/
def parse (read : W → Reading W S) (s : S) : List W → Except (Refusal W) S
  | [] => .ok s
  | word :: rest =>
    match read word, rest with
    | .switch f, rest => parse read (f s) rest
    | .valued f, value :: rest => parse read (f s value) rest
    | .valued _, [] => .error (.missing word)
    | .unknown, _ => .error (.unknown word)

/-- The words of an option, and what it does to a state. -/
inductive Takes (read : W → Reading W S) : List W → (S → S) → Prop
  | switch {word : W} {f : S → S} (h : read word = .switch f) : Takes read [word] f
  | valued {word : W} {f : S → W → S} (h : read word = .valued f) (value : W) :
    Takes read [word, value] fun s => f s value

/-- An option as it stands on a command line. -/
structure Item (read : W → Reading W S) where
  words : List W
  set : S → S
  takes : Takes read words set

/-- The words of options, one after the other. -/
def words {read : W → Reading W S} (items : List (Item read)) : List W := items.flatMap Item.words

/-- What options set, the first first. -/
def setAll {read : W → Reading W S} (s : S) (items : List (Item read)) : S :=
  items.foldl (fun s item => item.set s) s

/-- No option starts with these words, and why. -/
inductive Refuses (read : W → Reading W S) : List W → Refusal W → Prop
  | missing {word : W} {f : S → W → S} (h : read word = .valued f) :
    Refuses read [word] (.missing word)
  | unknown {word : W} (h : read word = .unknown) (rest : List W) :
    Refuses read (word :: rest) (.unknown word)

variable {read : W → Reading W S}

/-- No options have no words. -/
@[simp]
theorem words_nil : words ([] : List (Item read)) = [] := rfl

/-- The words of the first option come first. -/
@[simp]
theorem words_cons (item : Item read) (items : List (Item read)) :
    words (item :: items) = item.words ++ words items := rfl

/-- No options set nothing. -/
@[simp]
theorem setAll_nil (s : S) : setAll s ([] : List (Item read)) = s := rfl

/-- The first option sets first. -/
@[simp]
theorem setAll_cons (s : S) (item : Item read) (items : List (Item read)) :
    setAll s (item :: items) = setAll (item.set s) items := rfl

/-- An option at the start of a command line is read, and the rest from what it set. -/
theorem parse_item_append (item : Item read) (s : S) (rest : List W) :
    parse read s (item.words ++ rest) = parse read (item.set s) rest := by
  obtain ⟨ws, set, htakes⟩ := item
  cases htakes with
  | switch h => simp [parse, h]
  | valued h value => simp [parse, h]

/-- So are options at the start of a command line. -/
theorem parse_words_append (items : List (Item read)) (s : S) (rest : List W) :
    parse read s (words items ++ rest) = parse read (setAll s items) rest := by
  induction items generalizing s with
  | nil => rfl
  | cons item items ih =>
    rw [words_cons, List.append_assoc, parse_item_append, ih, setAll_cons]

/-- Words that are refused are refused, whatever was set before. -/
theorem parse_refuses {tail : List W} {e : Refusal W} (h : Refuses read tail e) (s : S) :
    parse read s tail = .error e := by
  cases h with
  | missing h => simp [parse, h]
  | unknown h rest => simp [parse, h]

/-- Which option a command line starts with is determined by its words. -/
theorem item_append_inj {item item' : Item read} {rest rest' : List W}
    (h : item.words ++ rest = item'.words ++ rest') : item = item' ∧ rest = rest' := by
  obtain ⟨ws, set, htakes⟩ := item
  obtain ⟨ws', set', htakes'⟩ := item'
  cases htakes with
  | switch hread =>
    cases htakes' with
    | switch hread' =>
      obtain ⟨rfl, rfl⟩ := List.cons.inj h
      rw [hread, Reading.switch.injEq] at hread'
      subst hread'
      exact ⟨rfl, rfl⟩
    | valued hread' value' =>
      obtain ⟨rfl, -⟩ := List.cons.inj h
      rw [hread] at hread'
      cases hread'
  | valued hread value =>
    cases htakes' with
    | switch hread' =>
      obtain ⟨rfl, -⟩ := List.cons.inj h
      rw [hread] at hread'
      cases hread'
    | valued hread' value' =>
      obtain ⟨rfl, hvalue⟩ := List.cons.inj h
      obtain ⟨rfl, rfl⟩ := List.cons.inj hvalue
      rw [hread, Reading.valued.injEq] at hread'
      subst hread'
      exact ⟨rfl, rfl⟩

/-- An option has a word. -/
theorem words_ne_nil (item : Item read) : item.words ≠ [] := by
  obtain ⟨ws, set, htakes⟩ := item
  cases htakes <;> exact List.cons_ne_nil _ _

/-- The options of a command line are determined by its words. -/
theorem words_injective : Function.Injective (@words W S read) := by
  intro items items' h
  induction items generalizing items' with
  | nil =>
    cases items' with
    | nil => rfl
    | cons item' items' => exact absurd (List.append_eq_nil_iff.mp h.symm).1 (words_ne_nil item')
  | cons item items ih =>
    cases items' with
    | nil => exact absurd (List.append_eq_nil_iff.mp h).1 (words_ne_nil item)
    | cons item' items' =>
      obtain ⟨rfl, hrest⟩ := item_append_inj h
      rw [ih hrest]

/-- A command line is options up to its end, or up to words that are refused. -/
theorem exists_items (read : W → Reading W S) (args : List W) :
    ∃ (items : List (Item read)) (tail : List W), args = words items ++ tail ∧
      (tail = [] ∨ ∃ e, Refuses read tail e) := by
  match args with
  | [] => exact ⟨[], [], rfl, .inl rfl⟩
  | word :: rest =>
    match hword : read word, rest with
    | .switch f, rest =>
      obtain ⟨items, tail, hrest, htail⟩ := exists_items read rest
      exact ⟨⟨[word], f, .switch hword⟩ :: items, tail, by rw [hrest]; rfl, htail⟩
    | .valued f, value :: rest =>
      obtain ⟨items, tail, hrest, htail⟩ := exists_items read rest
      exact ⟨⟨[word, value], _, .valued hword value⟩ :: items, tail, by rw [hrest]; rfl, htail⟩
    | .valued f, [] => exact ⟨[], [word], rfl, .inr ⟨_, .missing hword⟩⟩
    | .unknown, rest => exact ⟨[], word :: rest, rfl, .inr ⟨_, .unknown hword rest⟩⟩

/-- A command line is accepted exactly when it is options one after the other. -/
theorem parse_eq_ok_iff {s s' : S} {args : List W} :
    parse read s args = .ok s' ↔
      ∃ items : List (Item read), args = words items ∧ s' = setAll s items := by
  constructor
  · intro h
    obtain ⟨items, tail, rfl, rfl | ⟨e, htail⟩⟩ := exists_items read args
    · rw [parse_words_append, parse, Except.ok.injEq] at h
      exact ⟨items, List.append_nil _, h.symm⟩
    · rw [parse_words_append, parse_refuses htail] at h
      cases h
  · rintro ⟨items, rfl, rfl⟩
    rw [← List.append_nil (words items), parse_words_append, parse]

end Lib.CommandLine
