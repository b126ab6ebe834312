import ForwardProxy.Http.CrlfHead

/-!
# Header lines

A `HeaderLine` is a line below the first line of a head, as it is written. What is read from it is
its name in lower case and its value, both without the blanks around them.
-/

namespace ForwardProxy

/-- Free of the bytes that end a line. -/
def OneLine (s : Bytes) : Prop := CR ∉ s ∧ LF ∉ s

instance (s : Bytes) : Decidable (OneLine s) := inferInstanceAs (Decidable (CR ∉ s ∧ LF ∉ s))

/-- The name and the value on the two sides of the first colon are read. -/
theorem headerField_colon {name : Bytes} (hcolon : COLON ∉ name) (hname : trim name ≠ [])
    (value : Bytes) :
    headerField (name ++ COLON :: value) = some (toLower (trim name), trim value) := by
  have hfind : find (name ++ COLON :: value) [COLON] = some name.length :=
    Lib.Search.find_singleton_append hcolon value
  have hdrop : (name ++ COLON :: value).drop (name.length + 1) = value := by simp
  have hne : toLower (trim name) ≠ [] := fun h => hname (List.map_eq_nil_iff.mp h)
  simp only [headerField, hfind, List.take_left, hdrop, if_neg hne]

/-- A line below the request line: a name and a value with a colon between them, or a line without a
colon. -/
inductive HeaderLine
  | field (name value : Bytes) (name_ok : COLON ∉ name ∧ OneLine name ∧ trim name ≠ [])
    (value_ok : OneLine value)
  | junk (text : Bytes) (text_ok : text ≠ [] ∧ COLON ∉ text ∧ OneLine text)

namespace HeaderLine

/-- The line as it is written. -/
def text : HeaderLine → Bytes
  | field name value _ _ => name ++ COLON :: value
  | junk text _ => text

/-- The value of the line, if it has the name, which is compared without regard to case. -/
def valueOf (name : Bytes) : HeaderLine → Option Bytes
  | field name' value _ _ => if toLower (trim name') = name then some (trim value) else none
  | junk _ _ => none

/-- A header line is not blank, and one line. -/
theorem text_ok (l : HeaderLine) : l.text ≠ [] ∧ LF ∉ l.text := by
  cases l with
  | field name value hname hvalue =>
    have hcolon : LF ≠ COLON := by decide
    simp [text, hname.2.1.2, hvalue.2, hcolon]
  | junk text htext => exact ⟨htext.1, htext.2.2.2⟩

/-- The field that is read from the line. -/
theorem headerField_text (l : HeaderLine) : headerField l.text =
    match l with
    | field name value _ _ => some (toLower (trim name), trim value)
    | junk _ _ => none := by
  cases l with
  | field name value hname _ => exact headerField_colon hname.1 hname.2.2 value
  | junk text htext =>
    have hfind : find text [COLON] = none := by
      refine Lib.Search.find_eq_none_iff.mpr fun i hocc => ?_
      exact htext.2.1 (List.mem_of_getElem? ((Lib.Search.occursAt_cons _ _ _ _).mp hocc).1)
    simp only [headerField, HeaderLine.text, hfind]

end HeaderLine

/-- The trimmed values of all lines of one name, in order. -/
def lineValues (name : Bytes) (lines : List HeaderLine) : List Bytes :=
  lines.filterMap (HeaderLine.valueOf name)

/-- Of several values of one name the last is assigned. -/
theorem lastValue_lines (name : Bytes) (lines : List HeaderLine) :
    lastValue name ((lines.map HeaderLine.text).filterMap headerField) =
      (lineValues name lines).getLast? := by
  induction lines with
  | nil => rfl
  | cons l lines ih =>
    unfold lineValues at ih ⊢
    rw [List.map_cons, List.filterMap_cons, List.filterMap_cons, l.headerField_text]
    cases l with
    | field name' value _ _ =>
      dsimp only [HeaderLine.valueOf]
      rw [lastValue_cons, ih]
      by_cases hname : toLower (trim name') = name
      · rw [if_pos hname, List.getLast?_cons]
        cases (lines.filterMap (HeaderLine.valueOf name)).getLast? <;> simp
      · simp [if_neg hname]
    | junk _ _ => exact ih

end ForwardProxy
