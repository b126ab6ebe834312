import ForwardProxy.Http.Acl

/-!
# The configuration of the access control

`AccessControl::load_string` and `load_file` of `http.hpp`: a line is trimmed, a blank line or a
comment is passed over, and any other line is a directive, whose words are taken off a string stream
one by one. The first line that is not understood ends the loading with an error that names it.
-/

namespace ForwardProxy

/-- `'#'`. -/
abbrev HASH : Byte := 35

/-! ## Taking words off a stream -/

/-- `stream >> word`: blanks are skipped, then the bytes up to the next blank are taken. At the end
of the stream the word stays empty. -/
def nextWord (s : Bytes) : Bytes × Bytes :=
  (s.dropWhile isSpace).span fun c => !isSpace c

/-- The largest `int`. -/
def INT_MAX : ℤ := 2^31 - 1
/-- The smallest `int`. -/
def INT_MIN : ℤ := -2^31

/-- `stream >> number` into an `int`: blanks, an optional sign, and decimal digits. Without a digit
the number is zero, and one out of range is clamped. -/
def nextInt (s : Bytes) : ℤ :=
  let (negative, t) := splitSign (s.dropWhile isSpace)
  let v := decimalValue (t.takeWhile isDigit)
  if negative then max INT_MIN (-v) else min INT_MAX v

/-! ## Directives -/

/-- The error for a line, which names its number. -/
def lineError (lineno : ℕ) (message : Bytes) : Bytes := str "line " ++ decimal lineno ++ message

/-- `default allow|deny`, past its verb. -/
def loadDefault (lineno : ℕ) (acl : AccessControl) (ls : Bytes) : Except Bytes AccessControl :=
  let pol := toLower (nextWord ls).1
  if pol = str "allow" then .ok { acl with defaultPolicy := .allow }
  else if pol = str "deny" then .ok { acl with defaultPolicy := .deny }
  else .error (lineError lineno (str ": default must be allow|deny"))

/-- `allow|deny host|path|method <pattern>`, past its verb. The rule keeps the line `s`. -/
def loadRule (lineno : ℕ) (acl : AccessControl) (d : Decision) (s ls : Bytes) :
    Except Bytes AccessControl :=
  let (field, ls) := nextWord ls
  let (pattern, _) := nextWord ls
  let field := toLower field
  if pattern = [] then .error (lineError lineno (str ": missing pattern"))
  else if field ≠ str "host" ∧ field ≠ str "path" ∧ field ≠ str "method" then
    .error (lineError lineno (str ": field must be host|path|method"))
  else .ok (acl.addRule d field pattern s)

/-- `route <host-pattern> <upstream-host> <upstream-port>`, past its verb. -/
def loadRoute (lineno : ℕ) (acl : AccessControl) (ls : Bytes) : Except Bytes AccessControl :=
  let (hostPattern, ls) := nextWord ls
  let (upHost, ls) := nextWord ls
  let upPort := nextInt ls
  if hostPattern = [] ∨ upHost = [] ∨ upPort ≤ 0 ∨ 65535 < upPort then
    .error (lineError lineno (str ": route needs <host-pattern> <host> <port>"))
  else .ok (acl.addRoute hostPattern upHost upPort)

/-- One turn of the loop of `load_string`: what the line makes of the access control, or the error
that ends the loading. -/
def loadLine (lineno : ℕ) (acl : AccessControl) (line : Bytes) : Except Bytes AccessControl :=
  let s := trim line
  if s = [] ∨ s.head? = some HASH then .ok acl
  else
    let (verb, ls) := nextWord s
    let verb := toLower verb
    if verb = str "default" then loadDefault lineno acl ls
    else if verb = str "allow" ∨ verb = str "deny" then
      loadRule lineno acl (if verb = str "allow" then .allow else .deny) s ls
    else if verb = str "route" then loadRoute lineno acl ls
    else .error (lineError lineno (str ": unknown directive '" ++ verb ++ str "'"))

/-- What `load_string` returns, and what it leaves behind: the access control as far as it was
loaded, and the error. -/
structure LoadResult where
  ok : Bool
  acl : AccessControl
  error : Bytes := []

/-- The loop of `load_string` over the lines after line `lineno`. -/
def loadLines : ℕ → AccessControl → List Bytes → LoadResult
  | _, acl, [] => { ok := true, acl := acl }
  | lineno, acl, line :: lines =>
    match loadLine (lineno + 1) acl line with
    | .ok acl => loadLines (lineno + 1) acl lines
    | .error e => { ok := false, acl := acl, error := e }

/-- `load_string`. -/
def AccessControl.loadString (acl : AccessControl) (text : Bytes) : LoadResult :=
  loadLines 0 acl (getlines text)

/-- `load_file`, with what the file holds, or `none` where it cannot be opened. -/
def AccessControl.loadFile (acl : AccessControl) (path : Bytes) : Option Bytes → LoadResult
  | none => { ok := false, acl := acl, error := str "cannot open " ++ path }
  | some text => acl.loadString text

example :
    (({} : AccessControl).loadString (str "deny host a\n  fOo x\n")).error =
      str "line 2: unknown directive 'foo'" := by
  decide

/-! ## Words of a line -/

/-- A part of a string whose bytes all satisfy `p` is taken up to a byte that does not. -/
theorem takeWhile_boundary {p : Byte → Bool} {u rest : Bytes} (hu : ∀ c ∈ u, p c = true)
    (hrest : ∀ c ∈ rest.head?, p c = false) : (u ++ rest).takeWhile p = u := by
  rw [List.takeWhile_append_of_pos hu]
  cases rest with
  | nil => simp
  | cons c rest => rw [List.takeWhile_cons_of_neg (by simp [hrest c rfl]), List.append_nil]

/-- A part of a string whose bytes all satisfy `p` is dropped up to a byte that does not. -/
theorem dropWhile_boundary {p : Byte → Bool} {u rest : Bytes} (hu : ∀ c ∈ u, p c = true)
    (hrest : ∀ c ∈ rest.head?, p c = false) : (u ++ rest).dropWhile p = rest := by
  rw [List.dropWhile_append_of_pos hu]
  cases rest with
  | nil => rfl
  | cons c rest => rw [List.dropWhile_cons_of_neg (by simp [hrest c rfl])]

/-- A word is taken off the stream, with the blanks before it. -/
theorem nextWord_append {lead w rest : Bytes} (hlead : ∀ c ∈ lead, isSpace c = true)
    (hne : w ≠ []) (hw : ∀ c ∈ w, isSpace c = false)
    (hrest : ∀ c ∈ rest.head?, isSpace c = true) : nextWord (lead ++ (w ++ rest)) = (w, rest) := by
  obtain ⟨c, w', rfl⟩ := List.exists_cons_of_ne_nil hne
  have hdrop : (lead ++ (c :: w' ++ rest)).dropWhile isSpace = c :: w' ++ rest := by
    apply dropWhile_boundary hlead
    intro d hd
    obtain rfl : c = d := by simpa using hd
    exact hw c (by simp)
  have hword : ∀ c' ∈ c :: w', (!isSpace c') = true := fun c' hc' => by simp [hw c' hc']
  have hend : ∀ d ∈ rest.head?, (!isSpace d) = false := fun d hd => by simp [hrest d hd]
  rw [nextWord, hdrop, List.span_eq_takeWhile_dropWhile, takeWhile_boundary hword hend,
    dropWhile_boundary hword hend]

/-- A number in digits is taken off the stream, with the blanks before it, up to the largest `int`.
-/
theorem nextInt_digits {lead ds rest : Bytes} (hlead : ∀ c ∈ lead, isSpace c = true)
    (hne : ds ≠ []) (hdigits : ds.all isDigit = true)
    (hrest : ∀ c ∈ rest.head?, isSpace c = true) :
    nextInt (lead ++ (ds ++ rest)) = min INT_MAX (decimalValue ds) := by
  obtain ⟨d, ds', rfl⟩ := List.exists_cons_of_ne_nil hne
  have hall : ∀ c ∈ d :: ds', isDigit c = true := List.all_eq_true.mp hdigits
  have hd := hall d (by simp)
  have hdrop : (lead ++ (d :: ds' ++ rest)).dropWhile isSpace = d :: ds' ++ rest := by
    apply dropWhile_boundary hlead
    rintro c ⟨⟩
    exact (digit_cases hd).1
  have hsign : splitSign (d :: ds' ++ rest) = (false, d :: ds' ++ rest) := splitSign_digit hd _
  have hend : ∀ c ∈ rest.head?, isDigit c = false := by
    intro c hc
    cases hd : isDigit c with
    | false => rfl
    | true =>
      have := hrest c hc
      rw [(digit_cases hd).1] at this
      cases this
  unfold nextInt
  simp only [hdrop, hsign, takeWhile_boundary hall hend, Bool.false_eq_true, if_false]

/-- A number in decimal is taken off the stream, with the blanks before it. -/
theorem nextInt_decimal {lead rest : Bytes} {n : ℕ} (hlead : ∀ c ∈ lead, isSpace c = true)
    (hn : (n : ℤ) ≤ INT_MAX) (hrest : ∀ c ∈ rest.head?, isSpace c = true) :
    nextInt (lead ++ (decimal n ++ rest)) = n := by
  have hall : (decimal n).all isDigit = true :=
    List.all_eq_true.mpr fun _ => isDigit_of_mem_decimal
  rw [nextInt_digits hlead (decimal_ne_nil n) hall hrest, decimalValue_decimal]
  omega

end ForwardProxy
