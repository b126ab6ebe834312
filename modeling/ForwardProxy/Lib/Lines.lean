import Mathlib.Data.List.Infix

/-!
# Lines of a text

`lines nl s` is the list of the lines that successive reads up to `nl` take from `s`: each read
takes the elements before the next `nl` and the `nl` itself, the last line may lack its `nl`, and a
read at the end of the text fails. `unlines` writes lines back, each with its `nl`.
-/

namespace Lib.Lines

variable {α : Type*} [DecidableEq α]

/-- The lines that successive reads up to `nl` take from a text. -/
def lines (nl : α) : List α → List (List α)
  | [] => []
  | b :: s =>
    if b = nl then [] :: lines nl s
    else
      match lines nl s with
      | [] => [[b]]
      | l :: ls => (b :: l) :: ls

/-- Lines written back, each followed by `nl`. -/
def unlines (nl : α) (ls : List (List α)) : List α := ls.flatMap (· ++ [nl])

/-- Nothing has no lines. -/
@[simp]
theorem lines_nil (nl : α) : lines nl [] = [] := rfl

/-- A line that `nl` ends is read first, and the rest is read next. -/
theorem lines_append_cons {nl : α} {l : List α} (h : nl ∉ l) (s : List α) :
    lines nl (l ++ nl :: s) = l :: lines nl s := by
  induction l with
  | nil => simp [lines]
  | cons b l ih =>
    have hb : b ≠ nl := fun hb => h (by simp [hb])
    have hl : nl ∉ l := fun hl => h (by simp [hl])
    rw [List.cons_append, lines, if_neg hb, ih hl]

/-- A text without an end of a line is one line. -/
theorem lines_eq_singleton {nl : α} {l : List α} (hne : l ≠ []) (h : nl ∉ l) :
    lines nl l = [l] := by
  induction l with
  | nil => exact absurd rfl hne
  | cons b l ih =>
    have hb : b ≠ nl := fun hb => h (by simp [hb])
    have hl : nl ∉ l := fun hl => h (by simp [hl])
    rw [lines, if_neg hb]
    cases l with
    | nil => rfl
    | cons c l => rw [ih (by simp) hl]

/-- A line read has no end of a line in it. -/
theorem notMem_of_mem_lines {nl : α} {s l : List α} (h : l ∈ lines nl s) : nl ∉ l := by
  induction s generalizing l with
  | nil => simp at h
  | cons b s ih =>
    rw [lines] at h
    split at h
    · rcases List.mem_cons.mp h with rfl | h
      · simp
      · exact ih h
    · rename_i hb
      have hne : nl ≠ b := fun heq => hb heq.symm
      split at h
      · obtain rfl : l = [b] := by simpa using h
        simp [hne]
      · rename_i l' ls heq
        rcases List.mem_cons.mp h with rfl | h
        · have hl' : nl ∉ l' := ih (by simp [heq])
          simp [hne, hl']
        · exact ih (by simp [heq, h])

omit [DecidableEq α] in
/-- No lines are nothing. -/
@[simp]
theorem unlines_nil (nl : α) : unlines nl [] = [] := rfl

omit [DecidableEq α] in
/-- The first line comes first, with its end. -/
@[simp]
theorem unlines_cons (nl : α) (l : List α) (ls : List (List α)) :
    unlines nl (l :: ls) = l ++ nl :: unlines nl ls := by
  simp [unlines]

omit [DecidableEq α] in
/-- Each line is longer by its end. -/
theorem length_unlines_cons (nl : α) (l : List α) (ls : List (List α)) :
    (unlines nl (l :: ls)).length = l.length + 1 + (unlines nl ls).length := by
  rw [unlines_cons, List.length_append, List.length_cons]
  omega

/-- Every line that is written has one end. -/
theorem count_unlines {nl : α} {ls : List (List α)} (h : ∀ l ∈ ls, nl ∉ l) :
    (unlines nl ls).count nl = ls.length := by
  induction ls with
  | nil => rfl
  | cons l ls ih =>
    obtain ⟨hl, hls⟩ := List.forall_mem_cons.mp h
    rw [unlines_cons, List.count_append, List.count_eq_zero_of_not_mem hl, List.count_cons_self,
      ih hls, List.length_cons, Nat.zero_add]

/-- Lines written back are read back, and then what follows them. -/
theorem lines_unlines_append {nl : α} {ls : List (List α)} (h : ∀ l ∈ ls, nl ∉ l) (s : List α) :
    lines nl (unlines nl ls ++ s) = ls ++ lines nl s := by
  induction ls with
  | nil => simp
  | cons l ls ih =>
    have hl : nl ∉ l := h l (by simp)
    have hls : ∀ l' ∈ ls, nl ∉ l' := fun l' hl' => h l' (by simp [hl'])
    rw [unlines_cons, List.append_assoc, List.cons_append, lines_append_cons hl, ih hls,
      List.cons_append]

end Lib.Lines
