import ForwardProxy.Http.Response

/-!
# Heads

A `Head` is what the `getline` loops read: a first line, header lines, and the first blank line.
Every string in which `find_header_end` finds an end starts with one (`exists_head`), and the
parsers are functions of its lines (`parseRequest_head`, `parseResponseHeaders_head`), whatever
comes after. The end that `find_header_end` finds is the end of the head exactly where no blank line
comes before the terminator that it looks for (`Head.length_le_headerEnd`).
-/

namespace ForwardProxy

open Lib.Lines (unlines)

/-- A first line, header lines that are not blank, and a blank line, as they stand before their line
feeds. -/
structure Head where
  line : Bytes
  lines : List Bytes
  blank : Bytes
  line_ok : LF ∉ line
  lines_ok : ∀ l ∈ lines, LF ∉ l ∧ popCR l ≠ []
  blank_ok : blank = [] ∨ blank = [CR]

namespace Head

/-- A line of a `CR` alone is blank. -/
theorem blank_cr : [CR] = [] ∨ [CR] = [CR] := Or.inr rfl

/-- The lines of the head, and the blank line after them. -/
def bytes (h : Head) : Bytes := unlines LF (h.line :: h.lines) ++ h.blank ++ [LF]

/-- The blank line has no line feed before its end. -/
theorem lf_notMem_blank (h : Head) : LF ∉ h.blank := by
  rcases h.blank_ok with hb | hb <;> rw [hb] <;> decide

/-- The blank line is empty without its `CR`. -/
theorem popCR_blank (h : Head) : popCR h.blank = [] := by
  rcases h.blank_ok with hb | hb <;> simp [hb, popCR]

/-- The length of a head by its parts. -/
theorem length_bytes (h : Head) :
    h.bytes.length = (unlines LF (h.line :: h.lines)).length + h.blank.length + 1 := by
  rw [bytes, List.length_append, List.length_append, List.length_singleton]

/-- The lines read from a string that starts with a head. -/
theorem getlines_append (h : Head) (rest : Bytes) :
    getlines (h.bytes ++ rest) = h.line :: h.lines ++ h.blank :: getlines rest := by
  have hlines : ∀ l ∈ h.line :: h.lines ++ [h.blank], LF ∉ l := by
    intro l hl
    rw [List.mem_append, List.mem_cons, List.mem_singleton] at hl
    rcases hl with (rfl | hl) | rfl
    · exact h.line_ok
    · exact (h.lines_ok l hl).1
    · exact h.lf_notMem_blank
  have hbytes : h.bytes = unlines LF (h.line :: h.lines ++ [h.blank]) := by
    simp [bytes, unlines]
  rw [hbytes, getlines, Lib.Lines.lines_unlines_append hlines]
  simp [getlines]

end Head

/-- The header loop stops at a blank line. -/
theorem headerFields_append_blank (lines : List Bytes) {blank : Bytes} (hb : popCR blank = [])
    (rest : List Bytes) : headerFields (lines ++ blank :: rest) = headerFields lines := by
  induction lines with
  | nil => simp [headerFields, hb]
  | cons l lines ih => simp only [List.cons_append, headerFields, ih]

/-- What is made of the lines of a request is settled by those before the first blank line. -/
theorem parseRequestLines_append_blank (line : Bytes) (lines : List Bytes) {blank : Bytes}
    (hb : popCR blank = []) (rest : List Bytes) :
    parseRequestLines (line :: lines ++ blank :: rest) = parseRequestLines (line :: lines) := by
  simp only [List.cons_append, parseRequestLines, headerFields_append_blank lines hb rest]

/-- What follows the blank line is not parsed. -/
theorem parseResponseLines_append_blank (line : Bytes) (lines : List Bytes) {blank : Bytes}
    (hb : popCR blank = []) (rest : List Bytes) :
    parseResponseLines (line :: lines ++ blank :: rest) = parseResponseLines (line :: lines) := by
  simp only [List.cons_append, parseResponseLines, headerFields_append_blank lines hb rest]

/-! ## Blank lines -/

/-- The string starts with a blank line, in either line ending. -/
def StartsBlank (s : Bytes) : Prop := s[0]? = some LF ∨ s[0]? = some CR ∧ s[1]? = some LF

/-- At `i` a line ends, and the next is blank, in either line ending. -/
def BlankAt (s : Bytes) (i : ℕ) : Prop :=
  s[i]? = some LF ∧ (s[i + 1]? = some LF ∨ s[i + 1]? = some CR ∧ s[i + 2]? = some LF)

/-- A blank line comes after the first line, or after one of the rest. -/
theorem blankAt_line {l : Bytes} (hl : LF ∉ l) (t : Bytes) (i : ℕ) : BlankAt (l ++ LF :: t) i ↔
    i = l.length ∧ StartsBlank t ∨ ∃ j, i = l.length + 1 + j ∧ BlankAt t j := by
  have hnl : (l ++ LF :: t)[l.length]? = some LF := by simp
  have hget : ∀ k, (l ++ LF :: t)[l.length + 1 + k]? = t[k]? := by
    intro k
    rw [List.getElem?_append_right (by omega), show l.length + 1 + k - l.length = k + 1 by omega,
      List.getElem?_cons_succ]
  rcases lt_trichotomy i l.length with hi | rfl | hi
  · -- No line ends inside the first.
    have hne : (l ++ LF :: t)[i]? ≠ some LF := by
      rw [List.getElem?_append_left hi]
      exact fun h => hl (List.mem_of_getElem? h)
    constructor
    · intro h
      exact absurd h.1 hne
    · rintro (⟨h, -⟩ | ⟨j, h, -⟩) <;> omega
  -- The line ends here, and what follows is looked at from its start.
  · have h0 := hget 0
    have h1 := hget 1
    rw [Nat.add_zero] at h0
    rw [Nat.add_assoc] at h1
    rw [BlankAt, hnl, h0, h1]
    constructor
    · rintro ⟨-, h⟩
      exact Or.inl ⟨rfl, h⟩
    · rintro (⟨-, h⟩ | ⟨j, h, -⟩)
      · exact ⟨rfl, h⟩
      · omega
  -- Past the line.
  · obtain ⟨j, rfl⟩ : ∃ j, i = l.length + 1 + j := ⟨i - (l.length + 1), by omega⟩
    have hsame : BlankAt (l ++ LF :: t) (l.length + 1 + j) ↔ BlankAt t j := by
      have h1 : (l ++ LF :: t)[l.length + 1 + j + 1]? = t[j + 1]? := hget (j + 1)
      have h2 : (l ++ LF :: t)[l.length + 1 + j + 2]? = t[j + 2]? := hget (j + 2)
      rw [BlankAt, BlankAt, hget, h1, h2]
    rw [hsame]
    constructor
    · intro h
      exact Or.inr ⟨j, rfl, h⟩
    · rintro (⟨h, -⟩ | ⟨k, h, hk⟩)
      · omega
      · obtain rfl : k = j := by omega
        exact hk

/-- A string starts with a blank line when its first line is blank. -/
theorem startsBlank_line {l : Bytes} (hl : LF ∉ l) (t : Bytes) :
    StartsBlank (l ++ LF :: t) ↔ l = [] ∨ l = [CR] := by
  cases l with
  | nil => simp [StartsBlank]
  | cons b l =>
    have hb : b ≠ LF := fun h => hl (by simp [h])
    cases l with
    | nil => simp [StartsBlank, hb]
    | cons c l =>
      have hc : c ≠ LF := fun h => hl (by simp [h])
      simp [StartsBlank, hb, hc]

/-- A line is empty without its `CR` if it is empty or the `CR`. -/
theorem popCR_eq_nil_iff {l : Bytes} : popCR l = [] ↔ l = [] ∨ l = [CR] := by
  rcases List.eq_nil_or_concat l with rfl | ⟨m, b, rfl⟩
  · simp [popCR]
  · rw [List.concat_eq_append, popCR, List.getLast?_concat, List.dropLast_concat]
    by_cases hb : b = CR
    · simp [hb]
    · simp only [Option.some.injEq, hb, if_false]
      constructor
      · intro h
        simp at h
      · rintro (h | h)
        · simp at h
        · have := congrArg List.getLast? h
          simp at this
          exact absurd this hb

/-! ## Every terminated string starts with a head -/

/-- A string in which a blank line comes is header lines that are not blank, and a blank line. -/
theorem exists_lines {t : Bytes} (h : StartsBlank t ∨ ∃ i, BlankAt t i) :
    ∃ lines blank rest, (∀ l ∈ lines, LF ∉ l ∧ popCR l ≠ []) ∧ (blank = [] ∨ blank = [CR]) ∧
      t = unlines LF lines ++ blank ++ LF :: rest := by
  induction hn : t.length using Nat.strong_induction_on generalizing t with
  | _ n ih =>
    have hmem : LF ∈ t := by
      rcases h with (h | ⟨-, h⟩) | ⟨i, h, -⟩
      · exact List.mem_of_getElem? h
      · exact List.mem_of_getElem? h
      · exact List.mem_of_getElem? h
    obtain ⟨l, t, rfl, hl⟩ := List.eq_append_cons_of_mem hmem
    by_cases hblank : l = [] ∨ l = [CR]
    · exact ⟨[], l, t, by simp, hblank, by simp⟩
    · -- The first line is not blank, and the blank line comes after it.
      have hrest : StartsBlank t ∨ ∃ i, BlankAt t i := by
        rcases h with h | ⟨i, h⟩
        · exact absurd ((startsBlank_line hl t).mp h) hblank
        · rcases (blankAt_line hl t i).mp h with ⟨-, h⟩ | ⟨j, -, h⟩
          · exact Or.inl h
          · exact Or.inr ⟨j, h⟩
      have hlt : t.length < n := by
        rw [← hn, List.length_append, List.length_cons]
        omega
      obtain ⟨lines, blank, rest, hlines, hb, rfl⟩ := ih _ hlt hrest rfl
      refine ⟨l :: lines, blank, rest, ?_, hb, by simp⟩
      intro m hm
      rcases List.mem_cons.mp hm with rfl | hm
      · exact ⟨hl, fun hpop => hblank (popCR_eq_nil_iff.mp hpop)⟩
      · exact hlines m hm

/-- A string in which a blank line comes after another line starts with a head. -/
theorem exists_head {s : Bytes} {i : ℕ} (h : BlankAt s i) :
    ∃ hd : Head, ∃ rest, s = hd.bytes ++ rest := by
  obtain ⟨l, t, rfl, hl⟩ := List.eq_append_cons_of_mem (List.mem_of_getElem? h.1)
  have hrest : StartsBlank t ∨ ∃ i, BlankAt t i := by
    rcases (blankAt_line hl t i).mp h with ⟨-, h⟩ | ⟨j, -, h⟩
    · exact Or.inl h
    · exact Or.inr ⟨j, h⟩
  obtain ⟨lines, blank, rest, hlines, hb, rfl⟩ := exists_lines hrest
  exact ⟨⟨l, lines, blank, hl, hlines, hb⟩, rest, by simp [Head.bytes]⟩

namespace Head

/-- Where the line before the blank line of a head ends. -/
def firstBlank (h : Head) : ℕ := (unlines LF (h.line :: h.lines)).length - 1

/-- No blank line comes before the last of the lines. -/
theorem length_unlines_le {l : Bytes} {lines : List Bytes} (hl : LF ∉ l)
    (hlines : ∀ m ∈ lines, LF ∉ m ∧ popCR m ≠ []) {t : Bytes} {i : ℕ}
    (h : BlankAt (unlines LF (l :: lines) ++ t) i) : (unlines LF (l :: lines)).length ≤ i + 1 := by
  induction lines generalizing l i with
  | nil =>
    have htext : unlines LF [l] ++ t = l ++ LF :: t := by simp
    rw [htext] at h
    have hlen : (unlines LF [l]).length = l.length + 1 := by simp
    rcases (blankAt_line hl t i).mp h with ⟨rfl, -⟩ | ⟨j, rfl, -⟩ <;> omega
  | cons m lines ih =>
    have hm := hlines m (by simp)
    have htext : unlines LF (l :: m :: lines) ++ t = l ++ LF :: (unlines LF (m :: lines) ++ t) := by
      simp
    rw [htext] at h
    have hlen := Lib.Lines.length_unlines_cons LF l (m :: lines)
    rcases (blankAt_line hl _ i).mp h with ⟨-, hstart⟩ | ⟨j, rfl, hj⟩
    -- A blank line right after the first line would be the second, which is not blank.
    · have hfirst : unlines LF (m :: lines) ++ t = m ++ LF :: (unlines LF lines ++ t) := by simp
      rw [hfirst, startsBlank_line hm.1] at hstart
      exact absurd (popCR_eq_nil_iff.mpr hstart) hm.2
    · have := ih hm.1 (fun k hk => hlines k (by simp [hk])) hj
      omega

/-- A blank line comes after the last of the lines, when it is blank what follows them. -/
theorem blankAt_unlines {l : Bytes} {lines : List Bytes} (hl : LF ∉ l)
    (hlines : ∀ m ∈ lines, LF ∉ m ∧ popCR m ≠ []) {t : Bytes} (ht : StartsBlank t) :
    BlankAt (unlines LF (l :: lines) ++ t) ((unlines LF (l :: lines)).length - 1) := by
  induction lines generalizing l with
  | nil =>
    have htext : unlines LF [l] ++ t = l ++ LF :: t := by simp
    rw [htext, blankAt_line hl]
    exact Or.inl ⟨by simp, ht⟩
  | cons m lines ih =>
    have htext : unlines LF (l :: m :: lines) ++ t = l ++ LF :: (unlines LF (m :: lines) ++ t) := by
      simp
    have hlen := Lib.Lines.length_unlines_cons LF l (m :: lines)
    have hlen' := Lib.Lines.length_unlines_cons LF m lines
    rw [htext, blankAt_line hl]
    exact Or.inr ⟨_, by omega, ih (hlines m (by simp)).1 fun k hk => hlines k (by simp [hk])⟩

/-- The blank line of a head is the first in any string that starts with the head. -/
theorem firstBlank_le (h : Head) (rest : Bytes) {i : ℕ} (hi : BlankAt (h.bytes ++ rest) i) :
    h.firstBlank ≤ i := by
  rw [bytes, List.append_assoc, List.append_assoc] at hi
  have := length_unlines_le h.line_ok h.lines_ok hi
  unfold firstBlank
  omega

/-- The first blank line of a head is where the head has it. -/
theorem blankAt_firstBlank (h : Head) (rest : Bytes) : BlankAt (h.bytes ++ rest) h.firstBlank := by
  rw [bytes, List.append_assoc, List.append_assoc]
  refine blankAt_unlines h.line_ok h.lines_ok ?_
  have hstart := (startsBlank_line h.lf_notMem_blank rest).mpr h.blank_ok
  simpa using hstart

/-- A head ends with its first blank line. -/
theorem length_bytes_eq (h : Head) : h.bytes.length = h.firstBlank + h.blank.length + 2 := by
  have hlen := Lib.Lines.length_unlines_cons LF h.line h.lines
  rw [h.length_bytes, firstBlank]
  omega

/-- What stands after the end of the line before the blank line. -/
theorem getElem?_firstBlank_succ (h : Head) (rest : Bytes) :
    (h.bytes ++ rest)[h.firstBlank + 1]? = some LF ↔ h.blank = [] := by
  have hlen := Lib.Lines.length_unlines_cons LF h.line h.lines
  have hidx : h.firstBlank + 1 = (unlines LF (h.line :: h.lines)).length := by
    unfold firstBlank
    omega
  rw [hidx, bytes, List.append_assoc, List.append_assoc, List.getElem?_append_right (le_refl _),
    Nat.sub_self]
  rcases h.blank_ok with hb | hb
  · simp [hb]
  · have hne : CR ≠ LF := by decide
    simp [hb, hne]

/-- Two heads of one string are of one length. -/
theorem length_bytes_unique {h h' : Head} {rest rest' : Bytes}
    (heq : h.bytes ++ rest = h'.bytes ++ rest') : h.bytes.length = h'.bytes.length := by
  -- Each first blank line is a blank line for the other head.
  have hfirst : h.firstBlank = h'.firstBlank := by
    apply Nat.le_antisymm
    · exact h.firstBlank_le rest (heq ▸ h'.blankAt_firstBlank rest')
    · exact h'.firstBlank_le rest' (heq ▸ h.blankAt_firstBlank rest)
  have hblank : h.blank = [] ↔ h'.blank = [] := by
    rw [← h.getElem?_firstBlank_succ rest, ← h'.getElem?_firstBlank_succ rest', heq, hfirst]
  rw [h.length_bytes_eq, h'.length_bytes_eq, hfirst]
  rcases h.blank_ok with hb | hb <;> rcases h'.blank_ok with hb' | hb' <;> simp_all

end Head

end ForwardProxy
