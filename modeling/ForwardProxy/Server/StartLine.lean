import ForwardProxy.Http.HeaderEnd
import ForwardProxy.Server.TargetForms

/-!
# The target without a parser

The earlier proxy and the origin server take for the target of a request what stands between the
first two spaces, without a look at the rest. Of every request that `parse_request` accepts this is
its target, in the whole of the bytes and in the head alone (`betweenSpaces_of_valid`).
-/

namespace ForwardProxy

/-- The bytes between the first two spaces. -/
def betweenSpaces (s : Bytes) : Option Bytes :=
  match find s [SP] with
  | none => none
  | some sp1 =>
    match findFrom s [SP] (sp1 + 1) with
    | none => none
    | some sp2 => some ((s.drop (sp1 + 1)).take (sp2 - sp1 - 1))

/-- The text between the first two spaces. -/
theorem betweenSpaces_words {a t : Bytes} (ha : SP ∉ a) (ht : SP ∉ t) (rest : Bytes) :
    betweenSpaces (a ++ SP :: (t ++ SP :: rest)) = some t := by
  have hfirst : find (a ++ SP :: (t ++ SP :: rest)) [SP] = some a.length :=
    Lib.Search.find_singleton_append ha _
  have hdrop : (a ++ SP :: (t ++ SP :: rest)).drop (a.length + 1) = t ++ SP :: rest := by simp
  have hsecond : findFrom (a ++ SP :: (t ++ SP :: rest)) [SP] (a.length + 1) =
      some (a.length + 1 + t.length) := by
    rw [findFrom, hdrop, find, Lib.Search.find_singleton_append ht]
    rfl
  have hlen : a.length + 1 + t.length - a.length - 1 = t.length := by omega
  rw [betweenSpaces, hfirst]
  dsimp only
  rw [hsecond]
  dsimp only
  rw [hdrop, hlen, List.take_left]

/-- A valid request is three words on a line, which ends where the first `CR LF CR LF` starts, or
before. -/
theorem exists_words_of_valid {raw : Bytes} (h : (parseRequest raw).valid = true) :
    ∃ method rest, raw = method ++ SP :: ((parseRequest raw).target ++ SP :: rest) ∧
      SP ∉ method ∧ SP ∉ (parseRequest raw).target ∧
      ∀ p, find raw [CR, LF, CR, LF] = some p →
        (method ++ SP :: ((parseRequest raw).target ++ [SP])).length ≤ p := by
  obtain ⟨hd, more, e, r, host, keepAlive, hraw, -, hline, hparse⟩ := parseRequest_valid h
  obtain ⟨words, hwords, hmethod, htarget⟩ := eq_words_of_parseRequestLine hline
  obtain ⟨tail, htail⟩ := exists_popCR hd.line
  have heq : (parseRequest raw).target = r.target := by
    obtain ⟨cl, hcl, -⟩ := takeContentLength_eq
      { r with headers := (headerFields hd.lines).foldl Headers.fold ∅ }
    rw [hparse, hcl]
  -- The start line is the first line of the bytes.
  obtain ⟨after, hafter⟩ : ∃ after, raw = hd.line ++ LF :: after := by
    refine ⟨Lib.Lines.unlines LF hd.lines ++ hd.blank ++ [LF] ++ more, ?_⟩
    rw [hraw, Head.bytes, Lib.Lines.unlines_cons]
    simp
  refine ⟨r.method, words ++ tail ++ LF :: after, ?_, hmethod, heq ▸ htarget, fun p hp => ?_⟩
  · rw [heq, hafter, htail, hwords]
    simp
  · -- The line feed that ends the line is not before `p`.
    have hocc := Lib.Search.find_occursAt hp
    simp only [Lib.Search.occursAt_cons] at hocc
    obtain ⟨hcr, hlf, -⟩ := hocc
    have hle : (popCR hd.line).length ≤ p := by
      by_contra hgt
      have hshort : (popCR hd.line).length ≤ hd.line.length := by
        have := congrArg List.length htail
        rw [List.length_append] at this
        omega
      rcases Nat.lt_or_ge (p + 1) hd.line.length with hlt | hge
      · rw [hafter, List.getElem?_append_left hlt] at hlf
        exact hd.line_ok (List.mem_of_getElem? hlf)
      · -- The line ends with the carriage return at `p`, which `popCR` takes away.
        have hlen : hd.line.length = p + 1 := by omega
        rw [hafter, List.getElem?_append_left (by omega)] at hcr
        have hlast : hd.line.getLast? = some CR := by
          rw [List.getLast?_eq_getElem?, hlen, Nat.add_sub_cancel]
          exact hcr
        rw [popCR, if_pos hlast, List.length_dropLast] at hgt
        omega
    rw [heq]
    rw [hwords] at hle
    simp only [List.length_append, List.length_cons, List.length_nil] at hle ⊢
    omega

/-- What stands between the first two spaces of a valid request is its target, also where only the
head is looked at. -/
theorem betweenSpaces_of_valid {raw : Bytes} (h : (parseRequest raw).valid = true) :
    betweenSpaces raw = some (parseRequest raw).target ∧
      ∀ p, find raw [CR, LF, CR, LF] = some p →
        betweenSpaces (raw.take p) = some (parseRequest raw).target := by
  obtain ⟨method, rest, hraw, hmethod, htarget, hend⟩ := exists_words_of_valid h
  constructor
  · conv_lhs => rw [hraw]
    exact betweenSpaces_words hmethod htarget rest
  · intro p hp
    have hle := hend p hp
    have hsplit : raw = (method ++ SP :: ((parseRequest raw).target ++ [SP])) ++ rest := by
      conv_lhs => rw [hraw]
      simp
    have htake : raw.take p = method ++ SP :: ((parseRequest raw).target ++ SP :: (rest.take
        (p - (method ++ SP :: ((parseRequest raw).target ++ [SP])).length))) := by
      conv_lhs => rw [hsplit]
      rw [List.take_append, List.take_of_length_le hle]
      simp
    rw [htake]
    exact betweenSpaces_words hmethod htarget _

/-- A target that starts with a slash is the path. -/
theorem path_eq_target {raw : Bytes} (h : (parseRequest raw).valid = true)
    (hslash : (parseRequest raw).target.head? = some SLASH) :
    (parseRequest raw).path = (parseRequest raw).target := by
  obtain ⟨hd, more, e, r, host, keepAlive, -, -, -, hparse⟩ := parseRequest_valid h
  obtain ⟨cl, hcl, -⟩ := takeContentLength_eq
    { r with headers := (headerFields hd.lines).foldl Headers.fold ∅ }
  rw [hparse, hcl] at hslash ⊢
  have hother : (toLower r.target).take 7 ≠ str "http://" := by
    intro hscheme
    have hhead := congrArg List.head? hscheme
    rw [List.head?_take, if_neg (by decide), toLower, List.head?_map, hslash] at hhead
    revert hhead
    decide
  exact congrArg Request.path (normaliseTarget_other hother)

end ForwardProxy
