import ForwardProxy.Http.Chunked

/-!
# The chunk walk step by step

`chunked_body_complete` once more, with every index that it reads, every 64-bit operation, and every
move of a position noted. A walk over a string of less than `2^63` bytes comes to the result of
`chunkedBodyComplete` in at most one turn of each loop more than there are bytes, reads no byte that
is not there, wraps nowhere, and only moves on (`chunkWalk_safe`).
-/

namespace ForwardProxy

/-- What the walk does on the way: `raw[i]`, a sum or a product of words before it is reduced, and
an assignment to `pos` or `p`. -/
inductive WalkStep
  | read (i : ℕ)
  | add (a b : ℕ)
  | mul (a b : ℕ)
  | move (old new : ℕ)
  deriving DecidableEq

/-- The index is in the string, the operation does not wrap, the position increases. -/
def WalkStep.Safe (raw : Bytes) : WalkStep → Prop
  | .read i => i < raw.length
  | .add a b => a + b < 2^64
  | .mul a b => a * b < 2^64
  | .move old new => old < new

/-- The steps of a part of the walk, and what it comes to. -/
structure Walk (α : Type) where
  steps : List WalkStep
  result : α

/-- More steps before a walk. -/
def Walk.after {α : Type} (w : Walk α) (steps : List WalkStep) : Walk α :=
  { w with steps := steps ++ w.steps }

/-- The loop over the size of a chunk, from index `i` over the `n` indices before `size_end`. -/
def sizeWalk (raw : Bytes) : ℕ → ℕ → ℕ → Bool → Walk (Option (ℕ × Bool))
  | 0, _, size, anyDigit => ⟨[], some (size, anyDigit)⟩
  | n + 1, i, size, anyDigit =>
    -- Past the end of a string there is a NUL.
    let c := raw[i]?.getD NUL
    match hexDigit c with
    | some v =>
      let steps := [.read i, .mul size 16, .add (wrap64 (size * 16)) v]
      let size := wrap64 (wrap64 (size * 16) + v)
      if 2^40 < size then ⟨steps, none⟩
      else (sizeWalk raw n (wrap64 (i + 1)) size true).after (steps ++ [.add i 1])
    | none =>
      if c = SP ∨ c = TAB then
        (sizeWalk raw n (wrap64 (i + 1)) size anyDigit).after [.read i, .add i 1]
      else ⟨[.read i], none⟩

/-- The trailer loop. The result is `none` where it takes more turns than `fuel`. -/
def trailerWalk : ℕ → Bytes → ℕ → Walk (Option Bool)
  | 0, _, _ => ⟨[], none⟩
  | fuel + 1, raw, p =>
    match findFrom raw [CR, LF] p with
    | none => ⟨[], some false⟩
    | some e =>
      if e = p then ⟨[], some true⟩
      else (trailerWalk fuel raw (wrap64 (e + 2))).after [.add e 2, .move p (wrap64 (e + 2))]

/-- The chunk loop, with `turns` for the fuel of the trailer loop. -/
def chunkWalk (turns : ℕ) : ℕ → Bytes → ℕ → Walk (Option Bool)
  | 0, _, _ => ⟨[], none⟩
  | fuel + 1, raw, pos =>
    match findFrom raw [CR, LF] pos with
    | none => ⟨[], some false⟩
    | some lineEnd =>
      let size := sizeWalk raw (sizeEnd raw pos lineEnd - pos) pos 0 false
      match size.result with
      | some (0, true) =>
        (trailerWalk turns raw (wrap64 (lineEnd + 2))).after (size.steps ++ [.add lineEnd 2])
      | some (chunk, true) =>
        let next := wrap64 (wrap64 (wrap64 (lineEnd + 2) + chunk) + 2)
        let steps := size.steps ++ [.add lineEnd 2, .add (wrap64 (lineEnd + 2)) chunk,
          .add (wrap64 (wrap64 (lineEnd + 2) + chunk)) 2, .move pos next]
        if raw.length < next then ⟨steps, some false⟩
        else (chunkWalk turns fuel raw next).after steps
      | _ => ⟨size.steps, some false⟩

/-- Every step is safe. -/
def Walk.Safe {α : Type} (raw : Bytes) (w : Walk α) : Prop := ∀ s ∈ w.steps, s.Safe raw

/-- Safe steps before a safe walk leave it safe. -/
theorem Walk.Safe.after {α : Type} {raw : Bytes} {w : Walk α} (h : w.Safe raw)
    {steps : List WalkStep} (hsteps : ∀ s ∈ steps, s.Safe raw) : (w.after steps).Safe raw :=
  List.forall_mem_append.mpr ⟨hsteps, h⟩

section Safe

variable {raw : Bytes} (hraw : raw.length < 2^63)
include hraw

/-- The size is tested before it is multiplied again, so the product stays far below a word. -/
theorem sizeWalk_safe {n i size : ℕ} (anyDigit : Bool) (hin : i + n ≤ raw.length)
    (hsize : size ≤ 2^40) :
    (sizeWalk raw n i size anyDigit).Safe raw ∧
      (sizeWalk raw n i size anyDigit).result =
        chunkSizeLoop ((raw.drop i).take n) size anyDigit := by
  induction n generalizing i size anyDigit with
  | zero => exact ⟨by simp [Walk.Safe, sizeWalk], by simp [sizeWalk, chunkSizeLoop]⟩
  | succ n ih =>
    have hi : i < raw.length := by omega
    have hread : raw[i]?.getD NUL = raw[i] := by rw [List.getElem?_eq_getElem hi, Option.getD_some]
    have hnext : wrap64 (i + 1) = i + 1 := Nat.mod_eq_of_lt (by omega)
    rw [List.drop_eq_getElem_cons hi, List.take_succ_cons, chunkSizeLoop, sizeWalk, hread, hnext]
    cases hdigit : hexDigit raw[i] with
    | some v =>
      -- The number is at most `2^40` before a digit, so neither the product nor the sum wraps.
      have hv := hexDigit_lt hdigit
      have hmul : wrap64 (size * 16) = size * 16 := Nat.mod_eq_of_lt (by omega)
      have hadd : wrap64 (size * 16 + v) = size * 16 + v := Nat.mod_eq_of_lt (by omega)
      have hsteps : ∀ s ∈ [WalkStep.read i, .mul size 16, .add (size * 16) v], s.Safe raw := by
        simp only [List.forall_mem_cons, WalkStep.Safe]
        exact ⟨hi, by omega, by omega, by simp⟩
      simp only [hmul, hadd]
      split
      · exact ⟨hsteps, rfl⟩
      · rename_i hle
        obtain ⟨hsafe, hresult⟩ := @ih (i + 1) (size * 16 + v) true (by omega) (by omega)
        refine ⟨hsafe.after (List.forall_mem_append.mpr ⟨hsteps, ?_⟩), hresult⟩
        simp only [List.forall_mem_cons, WalkStep.Safe]
        exact ⟨by omega, by simp⟩
    | none =>
      dsimp only
      split
      · obtain ⟨hsafe, hresult⟩ := ih anyDigit (i := i + 1) (by omega) hsize
        refine ⟨hsafe.after ?_, hresult⟩
        simp only [List.forall_mem_cons, WalkStep.Safe]
        exact ⟨hi, by omega, by simp⟩
      · refine ⟨?_, rfl⟩
        simp only [Walk.Safe, List.forall_mem_cons, WalkStep.Safe]
        exact ⟨hi, by simp⟩

/-- A turn of the trailer loop goes past a line break, of which there are fewer than bytes. -/
theorem trailerWalk_safe {fuel p : ℕ} (hfuel : raw.length < p + fuel) (hp : p ≤ raw.length) :
    (trailerWalk fuel raw p).Safe raw ∧
      (trailerWalk fuel raw p).result = some (trailersComplete fuel raw p) := by
  induction fuel generalizing p with
  | zero => omega
  | succ fuel ih =>
    rw [trailerWalk, trailersComplete]
    cases hline : findFrom raw [CR, LF] p with
    | none => exact ⟨by simp [Walk.Safe], rfl⟩
    | some e =>
      have hb := findFrom_crlf_bounds hline
      have hwrap : wrap64 (e + 2) = e + 2 := Nat.mod_eq_of_lt (by omega)
      dsimp only
      split
      · exact ⟨by simp [Walk.Safe], rfl⟩
      · rw [hwrap]
        obtain ⟨hsafe, hresult⟩ := @ih (e + 2) (by omega) (by omega)
        refine ⟨hsafe.after ?_, hresult⟩
        simp only [List.forall_mem_cons, WalkStep.Safe]
        exact ⟨by omega, by omega, by simp⟩

/-- A turn of the chunk loop goes past the line break of its size line. -/
theorem chunksWalk_safe {fuel pos : ℕ} (hfuel : raw.length < pos + fuel) (hpos : pos ≤ raw.length) :
    (chunkWalk (raw.length + 1) fuel raw pos).Safe raw ∧
      (chunkWalk (raw.length + 1) fuel raw pos).result = some (chunksComplete fuel raw pos) := by
  induction fuel generalizing pos with
  | zero => omega
  | succ fuel ih =>
    rw [chunkWalk, chunksComplete]
    cases hline : findFrom raw [CR, LF] pos with
    | none => exact ⟨by simp [Walk.Safe], rfl⟩
    | some lineEnd =>
      have hb := findFrom_crlf_bounds hline
      have hend := sizeEnd_le raw pos lineEnd
      obtain ⟨hsizeSafe, hsizeResult⟩ := @sizeWalk_safe raw hraw (sizeEnd raw pos lineEnd - pos) pos
        0 false (by omega) (by omega)
      have hwrap : wrap64 (lineEnd + 2) = lineEnd + 2 := Nat.mod_eq_of_lt (by omega)
      dsimp only
      rw [hsizeResult, hwrap]
      rcases hloop :
        chunkSizeLoop ((raw.drop pos).take (sizeEnd raw pos lineEnd - pos)) 0 false with
        _ | ⟨size, _ | _⟩
      · have hsize : chunkSize raw pos lineEnd = none := by rw [chunkSize, hloop]
        rw [hsize]
        exact ⟨hsizeSafe, rfl⟩
      · have hsize : chunkSize raw pos lineEnd = none := by rw [chunkSize, hloop]
        rw [hsize]
        cases size <;> exact ⟨hsizeSafe, rfl⟩
      · have hsize : chunkSize raw pos lineEnd = some size := by rw [chunkSize, hloop]
        rw [hsize]
        cases size with
        | zero =>
          obtain ⟨hsafe, hresult⟩ := @trailerWalk_safe raw hraw (raw.length + 1) (lineEnd + 2)
            (by omega) hb.2
          refine ⟨hsafe.after (List.forall_mem_append.mpr ⟨hsizeSafe, ?_⟩), hresult⟩
          simp only [List.forall_mem_cons, WalkStep.Safe]
          exact ⟨by omega, by simp⟩
        | succ size =>
          have hbound := chunkSize_le hsize
          -- The line is inside the string and the size at most `2^40`, so no sum wraps.
          have hwrap1 : wrap64 (lineEnd + 2 + (size + 1)) = lineEnd + 2 + (size + 1) :=
            Nat.mod_eq_of_lt (by omega)
          have hwrap2 : wrap64 (lineEnd + 2 + (size + 1) + 2) = lineEnd + 2 + (size + 1) + 2 :=
            Nat.mod_eq_of_lt (by omega)
          have hsteps : ∀ s ∈ (sizeWalk raw (sizeEnd raw pos lineEnd - pos) pos 0 false).steps ++
              [.add lineEnd 2, .add (lineEnd + 2) (size + 1), .add (lineEnd + 2 + (size + 1)) 2,
                .move pos (lineEnd + 2 + (size + 1) + 2)], WalkStep.Safe raw s := by
            refine List.forall_mem_append.mpr ⟨hsizeSafe, ?_⟩
            simp only [List.forall_mem_cons, WalkStep.Safe]
            exact ⟨by omega, by omega, by omega, by omega, by simp⟩
          simp only [hwrap1, hwrap2]
          split
          · exact ⟨hsteps, rfl⟩
          · obtain ⟨hsafe, hresult⟩ := @ih (lineEnd + 2 + (size + 1) + 2) (by omega) (by omega)
            exact ⟨hsafe.after hsteps, hresult⟩

end Safe

/-- From every position in a string of less than `2^63` bytes, the walk ends after at most one turn
more than there are bytes, in its chunk loop as in its trailer loop, with the result of
`chunkedBodyComplete`. On the way it reads only bytes of the string, no sum and no product wraps,
and every new position is greater than the one before. -/
theorem chunkWalk_safe {raw : Bytes} (hraw : raw.length < 2^63) {bodyStart : ℕ}
    (hstart : bodyStart ≤ raw.length) :
    let w := chunkWalk (raw.length + 1) (raw.length + 1) raw bodyStart
    w.result = some (chunkedBodyComplete raw bodyStart) ∧
      (∀ i, .read i ∈ w.steps → i < raw.length) ∧
      (∀ a b, .add a b ∈ w.steps → a + b < 2^64) ∧
      (∀ a b, .mul a b ∈ w.steps → a * b < 2^64) ∧
      ∀ old new, .move old new ∈ w.steps → old < new := by
  obtain ⟨hsafe, hresult⟩ := @chunksWalk_safe raw hraw (raw.length + 1) bodyStart (by omega) hstart
  exact ⟨hresult, fun i hi => hsafe _ hi, fun a b hab => hsafe _ hab, fun a b hab => hsafe _ hab,
    fun old new hmove => hsafe _ hmove⟩

/-- A chunk of three bytes, a trailer, and the end. -/
theorem chunkWalk_safe_trailer :
    (chunkWalk 19 19 (str "3\r\nabc\r\n0\r\nA:b\r\n\r\n") 0).result = some true ∧
      ∀ old new, .move old new ∈
        (chunkWalk 19 19 (str "3\r\nabc\r\n0\r\nA:b\r\n\r\n") 0).steps → old < new := by
  have hwalk := @chunkWalk_safe (str "3\r\nabc\r\n0\r\nA:b\r\n\r\n") (by decide) 0 (by decide)
  have hcomplete : chunkedBodyComplete (str "3\r\nabc\r\n0\r\nA:b\r\n\r\n") 0 = true := by
    decide +kernel
  have hlength : (str "3\r\nabc\r\n0\r\nA:b\r\n\r\n").length + 1 = 19 := rfl
  rw [hlength, hcomplete] at hwalk
  exact ⟨hwalk.1, hwalk.2.2.2.2⟩

end ForwardProxy
