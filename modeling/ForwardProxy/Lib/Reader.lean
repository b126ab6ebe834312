import Mathlib.Data.List.Basic

/-!
# Readers of a stream

A reader looks at the elements that it has: it waits for more, takes some off the front and goes on,
or halts. `read` runs it on a buffer as far as it gets, and `feedAll` runs it on a buffer that grows
batch by batch. A reader is stable on a stream when more elements never change what it does with
those it has; then how the stream is cut into batches makes no difference (`feedAll_eq_read`).
-/

namespace Lib.Reader

/-- What a reader does with the elements that it has, and what it puts out. -/
inductive Action (σ ε : Type*)
  | wait
  | take (n : ℕ) (s : σ) (out : List ε)
  | halt (s : σ) (out : List ε)

/-- What a reader puts out when it acts. -/
def Action.out {σ ε : Type*} : Action σ ε → List ε
  | wait => []
  | take _ _ out => out
  | halt _ out => out

/-- Where a reader has got to. One that has halted has nothing left to read. -/
structure Outcome (α σ ε : Type*) where
  out : List ε
  state : σ
  rest : List α
  alive : Bool

variable {α σ ε : Type*}

namespace Outcome

/-- The outcome, with what was put out before it. -/
def after (r : Outcome α σ ε) (out : List ε) : Outcome α σ ε := { r with out := out ++ r.out }

/-- Nothing put before an outcome leaves it. -/
@[simp]
theorem after_nil (r : Outcome α σ ε) : r.after [] = r := rfl

/-- Goes on from an outcome, where the reader has not halted. -/
def andThen (r : Outcome α σ ε) (k : σ → List α → Outcome α σ ε) : Outcome α σ ε :=
  if r.alive then (k r.state r.rest).after r.out else r

/-- What was put out before the first reading comes before what both put out. -/
theorem after_andThen (r : Outcome α σ ε) (out : List ε) (k : σ → List α → Outcome α σ ε) :
    (r.after out).andThen k = (r.andThen k).after out := by
  unfold andThen
  cases h : r.alive <;> simp [after, h]

end Outcome

section Reader

variable (act : σ → List α → Action σ ε)

/-- Runs a reader on a buffer, for as many actions as there is fuel. -/
def run : ℕ → σ → List α → Outcome α σ ε
  | 0, s, buf => ⟨[], s, buf, true⟩
  | fuel + 1, s, buf =>
    match act s buf with
    | .wait => ⟨[], s, buf, true⟩
    | .take n s out => (run fuel s (buf.drop n)).after out
    | .halt s out => ⟨out, s, [], false⟩

/-- Runs a reader on a buffer as far as it gets. -/
def read (s : σ) (buf : List α) : Outcome α σ ε := run act (buf.length + 1) s buf

/-- Runs a reader on a buffer that grows batch by batch. -/
def feedAll (s : σ) (buf : List α) : List (List α) → Outcome α σ ε
  | [] => ⟨[], s, buf, true⟩
  | b :: bs => (read act s (buf ++ b)).andThen fun s rest => feedAll s rest bs

/-- In a buffer of at most `limit` elements, what a reader takes is there, and is not nothing. -/
def Progress (limit : ℕ) : Prop :=
  ∀ s buf n s' out, buf.length ≤ limit → act s buf = .take n s' out → 0 < n ∧ n ≤ buf.length

end Reader

variable {act : σ → List α → Action σ ε} {limit : ℕ}

/-! ## Running on one buffer -/

/-- Fuel above the length of the buffer is never used up. -/
theorem run_fuel (hact : Progress act limit) {fuel fuel' : ℕ} {s : σ} {buf : List α}
    (hlen : buf.length ≤ limit) (hfuel : buf.length < fuel) (hfuel' : buf.length < fuel') :
    run act fuel s buf = run act fuel' s buf := by
  induction fuel generalizing fuel' s buf with
  | zero => omega
  | succ fuel ih =>
    cases fuel' with
    | zero => omega
    | succ fuel' =>
      rw [run, run]
      cases h : act s buf with
      | wait => rfl
      | halt s' out => rfl
      | take n s' out =>
        have hn := hact s buf n s' out hlen h
        have hdrop : (buf.drop n).length = buf.length - n := List.length_drop
        exact congrArg (Outcome.after · out) (ih (by omega) (by omega) (by omega))

/-- A reader that waits reads nothing. -/
theorem read_wait {s : σ} {buf : List α} (h : act s buf = .wait) :
    read act s buf = ⟨[], s, buf, true⟩ := by
  rw [read, run, h]

/-- A reader that halts puts out its last, and drops the buffer. -/
theorem read_halt {s s' : σ} {buf : List α} {out : List ε} (h : act s buf = .halt s' out) :
    read act s buf = ⟨out, s', [], false⟩ := by
  rw [read, run, h]

/-- A reader that takes reads on from what it leaves. -/
theorem read_take (hact : Progress act limit) {s s' : σ} {buf : List α} {n : ℕ} {out : List ε}
    (hlen : buf.length ≤ limit) (h : act s buf = .take n s' out) :
    read act s buf = (read act s' (buf.drop n)).after out := by
  have hn := hact s buf n s' out hlen h
  have hdrop : (buf.drop n).length = buf.length - n := List.length_drop
  rw [read, run, h]
  exact congrArg (Outcome.after · out) (run_fuel hact (by omega) (by omega) (by omega))

/-- A reader that has not halted waits for more than it was left with. -/
theorem read_settled (hact : Progress act limit) {s : σ} {buf : List α} (hlen : buf.length ≤ limit)
    (halive : (read act s buf).alive = true) :
    act (read act s buf).state (read act s buf).rest = .wait ∧
      (read act s buf).rest.length ≤ buf.length := by
  induction hm : buf.length using Nat.strongRecOn generalizing s buf with
  | _ m ih =>
    cases h : act s buf with
    | wait =>
      rw [read_wait h]
      exact ⟨h, Nat.le_of_eq hm⟩
    | halt s' out =>
      rw [read_halt h] at halive
      cases halive
    | take n s' out =>
      have hn := hact s buf n s' out hlen h
      have hdrop : (buf.drop n).length = buf.length - n := List.length_drop
      rw [read_take hact hlen h] at halive ⊢
      obtain ⟨hwait, hle⟩ := ih (buf.drop n).length (by omega) (by omega) halive rfl
      exact ⟨hwait, Nat.le_trans hle (by omega)⟩

/-! ## Streams on which a reader is stable -/

/-- From the state `s` at the start of the stream `t` a reader comes to `s'` at the start of `t'`,
by what it takes when it has all of the stream. -/
inductive Comes (act : σ → List α → Action σ ε) (s : σ) (t : List α) : σ → List α → Prop
  | refl : Comes act s t s t
  | step {s' s'' : σ} {t' : List α} {n : ℕ} {out : List ε} (h : Comes act s t s' t')
      (htake : act s' t' = .take n s'' out) : Comes act s t s'' (t'.drop n)

/-- With the start of a stream a reader waits, or does what it does with all of it. -/
def Steady (act : σ → List α → Action σ ε) (s : σ) (t : List α) : Prop :=
  ∀ buf more, t = buf ++ more → act s buf = .wait ∨ act s buf = act s t

/-- Wherever the reader comes to on the data, what it does there is steady. -/
def Stable (act : σ → List α → Action σ ε) (s : σ) (t : List α) : Prop :=
  ∀ s' t', Comes act s t s' t' → Steady act s' t'

/-- A reader that takes comes to where it comes from what it leaves. -/
theorem Comes.head {s s' s'' : σ} {t t'' : List α} {n : ℕ} {out : List ε}
    (htake : act s t = .take n s' out) (h : Comes act s' (t.drop n) s'' t'') :
    Comes act s t s'' t'' := by
  induction h with
  | refl => exact Comes.refl.step htake
  | step _ htake' ih => exact ih.step htake'

/-- What is stable stays so behind what is taken. -/
theorem Stable.take {s s' : σ} {t : List α} {n : ℕ} {out : List ε} (h : Stable act s t)
    (htake : act s t = .take n s' out) : Stable act s' (t.drop n) :=
  fun s'' t'' hcomes => h s'' t'' (hcomes.head htake)

/-- To read a buffer and then what is left of it with more is to read the buffer with more; and a
reader that has not halted is still on a stream on which it is stable. -/
theorem read_append (hact : Progress act limit) {s : σ} {buf more : List α}
    (hlen : (buf ++ more).length ≤ limit) (hstable : Stable act s (buf ++ more)) :
    ((read act s buf).andThen fun s rest => read act s (rest ++ more)) = read act s (buf ++ more) ∧
      ((read act s buf).alive = true →
        Stable act (read act s buf).state ((read act s buf).rest ++ more)) := by
  induction hm : buf.length using Nat.strongRecOn generalizing s buf with
  | _ m ih =>
    have hshort : buf.length ≤ limit := by
      rw [List.length_append] at hlen
      omega
    have hsteady := hstable s _ .refl buf more rfl
    cases h : act s buf with
    | wait =>
      rw [read_wait h]
      exact ⟨Outcome.after_nil _, fun _ => hstable⟩
    | halt s' out =>
      rw [h] at hsteady
      have hall : act s (buf ++ more) = .halt s' out := (hsteady.resolve_left (by simp)).symm
      rw [read_halt h, read_halt hall]
      exact ⟨rfl, by simp⟩
    | take n s' out =>
      rw [h] at hsteady
      have hall : act s (buf ++ more) = .take n s' out := (hsteady.resolve_left (by simp)).symm
      have hn := hact s buf n s' out hshort h
      have hdrop : (buf ++ more).drop n = buf.drop n ++ more := List.drop_append_of_le_length hn.2
      have hstable' := hstable.take hall
      rw [hdrop] at hstable'
      have hlen' : (buf.drop n ++ more).length ≤ limit := by
        rw [← hdrop, List.length_drop]
        omega
      obtain ⟨heq, hleft⟩ :=
        ih (buf.drop n).length (by rw [List.length_drop]; omega) hlen' hstable' rfl
      rw [read_take hact hshort h, read_take hact hlen hall, hdrop, ← heq]
      exact ⟨Outcome.after_andThen .., hleft⟩

/-- How a stream is cut into batches makes no difference to a reader that is stable on it. -/
theorem feedAll_eq_read (hact : Progress act limit) {s : σ} {buf : List α} {bs : List (List α)}
    (hwait : act s buf = .wait) (hlen : (buf ++ bs.flatten).length ≤ limit)
    (hstable : Stable act s (buf ++ bs.flatten)) :
    feedAll act s buf bs = read act s (buf ++ bs.flatten) := by
  induction bs generalizing s buf with
  | nil =>
    rw [List.flatten_nil, List.append_nil, read_wait hwait]
    rfl
  | cons b bs ih =>
    rw [List.flatten_cons, ← List.append_assoc] at hlen hstable ⊢
    obtain ⟨heq, hleft⟩ := read_append hact hlen hstable
    rw [← heq, feedAll]
    have hshort : (buf ++ b).length ≤ limit := by
      rw [List.length_append] at hlen
      omega
    unfold Outcome.andThen
    split
    · rename_i halive
      obtain ⟨hsettled, hle⟩ := read_settled hact hshort halive
      have hlen' : ((read act s (buf ++ b)).rest ++ bs.flatten).length ≤ limit := by
        rw [List.length_append] at hlen ⊢
        omega
      exact congrArg (Outcome.after · _) (ih hsettled hlen' (hleft halive))
    · rfl

/-! ## Feeding -/

/-- One segment is read as it is. -/
theorem feedAll_singleton (s : σ) (buf b : List α) :
    feedAll act s buf [b] = read act s (buf ++ b) := by
  rw [feedAll]
  unfold Outcome.andThen
  split
  · rename_i halive
    simp [feedAll, Outcome.after, ← halive]
  · rfl

/-- Batches fed one after another. -/
theorem feedAll_append (s : σ) (buf : List α) (bs bs' : List (List α)) :
    feedAll act s buf (bs ++ bs') =
      (feedAll act s buf bs).andThen fun s rest => feedAll act s rest bs' := by
  induction bs generalizing s buf with
  | nil => exact (Outcome.after_nil _).symm
  | cons b bs ih =>
    rw [List.cons_append, feedAll, feedAll]
    simp only [ih]
    unfold Outcome.andThen
    cases halive : (read act s (buf ++ b)).alive with
    | false => simp [halive]
    | true =>
      simp only [if_true]
      cases halive' :
          (feedAll act (read act s (buf ++ b)).state (read act s (buf ++ b)).rest bs).alive
      · simp [Outcome.after, halive']
      · simp [Outcome.after, halive']

/-! ## Simulation -/

section Simulation

variable {τ : Type*} (R : σ → τ → Prop)

/-- Two actions do the same, and the states after them are related. -/
inductive Action.Matches : Action σ ε → Action τ ε → Prop
  | wait : Matches .wait .wait
  | take {s : σ} {t : τ} (n : ℕ) (out : List ε) (h : R s t) :
    Matches (.take n s out) (.take n t out)
  | halt {s : σ} {t : τ} (out : List ε) (h : R s t) : Matches (.halt s out) (.halt t out)

/-- Two outcomes are the same, and their states are related. -/
structure Outcome.Matches (r : Outcome α σ ε) (r' : Outcome α τ ε) : Prop where
  out : r.out = r'.out
  state : R r.state r'.state
  rest : r.rest = r'.rest
  alive : r.alive = r'.alive

variable {R} {act' : τ → List α → Action τ ε} {Good : ε → Prop}

/-- The same put before two outcomes that match leaves them matching. -/
theorem Outcome.Matches.after {r : Outcome α σ ε} {r' : Outcome α τ ε} (h : r.Matches R r')
    (out : List ε) : (r.after out).Matches R (r'.after out) :=
  ⟨congrArg (out ++ ·) h.out, h.state, h.rest, h.alive⟩

/-- Readers that do the same as long as what is put out is good come to the same. -/
theorem run_matches
    (hact : ∀ s t buf, R s t → (∀ e ∈ (act s buf).out, Good e) → (act s buf).Matches R (act' t buf))
    {fuel : ℕ} {s : σ} {t : τ} {buf : List α} (h : R s t)
    (hgood : ∀ e ∈ (run act fuel s buf).out, Good e) :
    (run act fuel s buf).Matches R (run act' fuel t buf) := by
  induction fuel generalizing s t buf with
  | zero => exact ⟨rfl, h, rfl, rfl⟩
  | succ fuel ih =>
    rw [run] at hgood ⊢
    rw [run]
    have hsame := hact s t buf h
    cases haction : act s buf with
    | wait =>
      rw [haction] at hsame
      cases hact' : act' t buf <;> rw [hact'] at hsame <;> cases hsame (by simp [Action.out])
      exact ⟨rfl, h, rfl, rfl⟩
    | halt s' out =>
      rw [haction] at hsame hgood
      cases hact' : act' t buf <;> rw [hact'] at hsame <;> cases hsame hgood
      rename_i h'
      exact ⟨rfl, h', rfl, rfl⟩
    | take n s' out =>
      rw [haction] at hsame hgood
      have hout : ∀ e ∈ out, Good e := fun e he => hgood e (List.mem_append_left _ he)
      cases hact' : act' t buf <;> rw [hact'] at hsame <;> cases hsame hout
      rename_i h'
      exact (ih h' fun e he => hgood e (List.mem_append_right _ he)).after out

/-- Two readers whose actions match from related states match on all segments. -/
theorem feedAll_matches
    (hact : ∀ s t buf, R s t → (∀ e ∈ (act s buf).out, Good e) → (act s buf).Matches R (act' t buf))
    {s : σ} {t : τ} {buf : List α} {bs : List (List α)} (h : R s t)
    (hgood : ∀ e ∈ (feedAll act s buf bs).out, Good e) :
    (feedAll act s buf bs).Matches R (feedAll act' t buf bs) := by
  induction bs generalizing s t buf with
  | nil => exact ⟨rfl, h, rfl, rfl⟩
  | cons b bs ih =>
    rw [feedAll] at hgood ⊢
    rw [feedAll]
    unfold Outcome.andThen at hgood ⊢
    by_cases halive : (read act s (buf ++ b)).alive = true
    · rw [if_pos halive] at hgood ⊢
      have hread := run_matches hact h fun e he => hgood e (List.mem_append_left _ he)
      have hrest := ih hread.state fun e he => hgood e (List.mem_append_right _ he)
      rw [if_pos (hread.alive ▸ halive), show (read act' t (buf ++ b)).out = _ from hread.out.symm,
        show (read act' t (buf ++ b)).rest = _ from hread.rest.symm]
      exact hrest.after _
    · rw [if_neg halive] at hgood ⊢
      have hread := run_matches hact h hgood
      rw [if_neg (hread.alive ▸ halive)]
      exact hread

end Simulation

end Lib.Reader
