import ForwardProxy.Bytes

/-!
# Sending a whole buffer

`send_all` of `server_phase5.cpp`, over the answers of the kernel. Whatever these are, the socket
has taken the first `sent` bytes of the buffer at every turn, the result is true exactly when that
is all of it, and only interrupts can keep the loop going (`sendAll_delivers`).
-/

namespace ForwardProxy.Socket

/-- What a `send` of the bytes that are left returns, and what the `poll` after it returns if it
would block. -/
inductive SendResult
  /-- `n + 1` bytes are taken, or all that are left if they are fewer. -/
  | accepted (n : ℕ)
  | zero
  | wouldBlock (poll : ℤ)
  | interrupted
  | error
  deriving DecidableEq

/-- The variables of `send_all`, and the bytes that the socket has taken. -/
structure Sending where
  sent : ℕ := 0
  spins : ℕ := 0
  accepted : Bytes := []
  deriving DecidableEq

/-- A turn of the loop, with what it returns if it does. -/
def sendTurn (data : Bytes) (s : Sending) : SendResult → Sending × Option Bool
  | .accepted n =>
    let count := min (n + 1) (data.length - s.sent)
    ({ sent := s.sent + count
       spins := 0
       accepted := s.accepted ++ (data.drop s.sent).take count }, none)
  | .wouldBlock poll =>
    let s := { s with spins := s.spins + 1 }
    if 1000 < s.spins then (s, some false)
    else if poll ≤ 0 then (s, some false)
    else (s, none)
  | .interrupted => (s, none)
  | .zero => (s, some false)
  | .error => (s, some false)

/-- The loop. Without a result it waits for the next answer. -/
def sendLoop (data : Bytes) (s : Sending) (answers : List SendResult) : Sending × Option Bool :=
  if s.sent < data.length then
    match answers with
    | [] => (s, none)
    | a :: answers =>
      match sendTurn data s a with
      | (s, none) => sendLoop data s answers
      | (s, some result) => (s, some result)
  else (s, some true)

/-- `send_all`, on the answers of the kernel. -/
def sendAll (data : Bytes) (answers : List SendResult) : Sending × Option Bool :=
  sendLoop data {} answers

/-- The answers that count as a turn without an interrupt. -/
def turns (answers : List SendResult) : ℕ := (answers.filter fun a => a ≠ .interrupted).length

/-! ## A turn -/

/-- The socket has taken the first `sent` bytes, and no stall was too long. -/
structure Sending.Wf (data : Bytes) (s : Sending) : Prop where
  sent_le : s.sent ≤ data.length
  accepted_eq : s.accepted = data.take s.sent
  spins_le : s.spins ≤ 1000

/-- One more spin, where there were fewer than a thousand. -/
theorem Sending.Wf.spin {data : Bytes} {s : Sending} (h : s.Wf data) (hspins : s.spins < 1000) :
    ({ s with spins := s.spins + 1 } : Sending).Wf data :=
  ⟨h.sent_le, h.accepted_eq, hspins⟩

/-- An interrupted call takes no turn. -/
@[simp]
theorem turns_interrupted (answers : List SendResult) :
    turns (.interrupted :: answers) = turns answers := by
  simp [turns]

/-- A full socket takes one. -/
@[simp]
theorem turns_wouldBlock (poll : ℤ) (answers : List SendResult) :
    turns (.wouldBlock poll :: answers) = turns answers + 1 := by
  simp [turns]

/-- What a turn does from a state in good order: it goes on with more bytes, with one more spin, or
with nothing changed by an interrupt; or it returns false with the bytes as they are. -/
theorem sendTurn_cases {data : Bytes} {s : Sending} (h : s.Wf data) (hlt : s.sent < data.length)
    (a : SendResult) :
    (∃ n, a = .accepted n ∧ (sendTurn data s a).2 = none ∧ (sendTurn data s a).1.Wf data ∧
        s.sent < (sendTurn data s a).1.sent ∧ (sendTurn data s a).1.spins = 0) ∨
      (∃ poll, a = .wouldBlock poll ∧ s.spins < 1000 ∧
        sendTurn data s a = ({ s with spins := s.spins + 1 }, none)) ∨
      (a = .interrupted ∧ sendTurn data s a = (s, none)) ∨
      ((sendTurn data s a).2 = some false ∧ (sendTurn data s a).1.sent = s.sent ∧
        (sendTurn data s a).1.accepted = s.accepted) := by
  cases a with
  | accepted n =>
    refine Or.inl ⟨n, rfl, rfl, ⟨?_, ?_, Nat.zero_le _⟩, ?_, rfl⟩
    · show s.sent + min (n + 1) (data.length - s.sent) ≤ data.length
      omega
    · show s.accepted ++ (data.drop s.sent).take (min (n + 1) (data.length - s.sent)) =
        data.take (s.sent + min (n + 1) (data.length - s.sent))
      rw [h.accepted_eq, List.take_add]
    · show s.sent < s.sent + min (n + 1) (data.length - s.sent)
      omega
  | wouldBlock poll =>
    by_cases hspins : 1000 < s.spins + 1
    · have hturn : sendTurn data s (.wouldBlock poll) =
          ({ s with spins := s.spins + 1 }, some false) := if_pos hspins
      rw [hturn]
      exact Or.inr (Or.inr (Or.inr ⟨rfl, rfl, rfl⟩))
    · by_cases hpoll : poll ≤ 0
      · have hturn : sendTurn data s (.wouldBlock poll) =
            ({ s with spins := s.spins + 1 }, some false) :=
          (if_neg hspins).trans (if_pos hpoll)
        rw [hturn]
        exact Or.inr (Or.inr (Or.inr ⟨rfl, rfl, rfl⟩))
      · exact Or.inr (Or.inl ⟨poll, rfl, by omega, (if_neg hspins).trans (if_neg hpoll)⟩)
  | interrupted => exact Or.inr (Or.inr (Or.inl ⟨rfl, rfl⟩))
  | zero => exact Or.inr (Or.inr (Or.inr ⟨rfl, rfl, rfl⟩))
  | error => exact Or.inr (Or.inr (Or.inr ⟨rfl, rfl, rfl⟩))

/-! ## The loop -/

/-- Once all is sent, the loop returns true. -/
theorem sendLoop_done {data : Bytes} {s : Sending} (h : data.length ≤ s.sent)
    (answers : List SendResult) : sendLoop data s answers = (s, some true) := by
  unfold sendLoop
  exact if_neg (by omega)

/-- Without a further answer the loop waits. -/
theorem sendLoop_nil {data : Bytes} {s : Sending} (hlt : s.sent < data.length) :
    sendLoop data s [] = (s, none) := by
  unfold sendLoop
  exact if_pos hlt

/-- The loop goes on after a turn without a result. -/
theorem sendLoop_cons_none {data : Bytes} {s : Sending} (hlt : s.sent < data.length)
    {a : SendResult} (hturn : (sendTurn data s a).2 = none) (answers : List SendResult) :
    sendLoop data s (a :: answers) = sendLoop data (sendTurn data s a).1 answers := by
  rw [sendLoop, if_pos hlt]
  rcases heq : sendTurn data s a with ⟨t, result⟩
  rw [heq] at hturn
  cases hturn
  rfl

/-- A turn that returns ends the loop. -/
theorem sendLoop_cons_some {data : Bytes} {s : Sending} (hlt : s.sent < data.length)
    {a : SendResult} {result : Bool} (hturn : (sendTurn data s a).2 = some result)
    (answers : List SendResult) : sendLoop data s (a :: answers) = sendTurn data s a := by
  rw [sendLoop, if_pos hlt]
  rcases heq : sendTurn data s a with ⟨t, result⟩
  rw [heq] at hturn
  cases hturn
  rfl

/-- What the loop has sent is the start of the buffer, and it is all of it exactly when the result
is true. -/
theorem sendLoop_prefix {data : Bytes} {s : Sending} (h : s.Wf data) (answers : List SendResult) :
    (sendLoop data s answers).1.sent ≤ data.length ∧
      (sendLoop data s answers).1.accepted = data.take (sendLoop data s answers).1.sent ∧
      ((sendLoop data s answers).2 = some true ↔
        (sendLoop data s answers).1.sent = data.length) := by
  induction answers generalizing s with
  | nil =>
    by_cases hlt : s.sent < data.length
    · rw [sendLoop_nil hlt]
      exact ⟨h.sent_le, h.accepted_eq, by simp [hlt.ne]⟩
    · have hall : s.sent = data.length := Nat.le_antisymm h.sent_le (Nat.le_of_not_lt hlt)
      rw [sendLoop_done hall.ge]
      exact ⟨h.sent_le, h.accepted_eq, by simp [hall]⟩
  | cons a answers ih =>
    by_cases hlt : s.sent < data.length
    · rcases sendTurn_cases h hlt a with ⟨n, -, hnone, hwf, -⟩ | ⟨poll, -, hspins, heq⟩ |
        ⟨-, heq⟩ | ⟨hfalse, hsent, haccepted⟩
      · rw [sendLoop_cons_none hlt hnone]
        exact ih hwf
      · rw [sendLoop_cons_none hlt (by rw [heq]), heq]
        exact ih (h.spin hspins)
      · rw [sendLoop_cons_none hlt (by rw [heq]), heq]
        exact ih h
      · rw [sendLoop_cons_some hlt hfalse, hfalse, hsent, haccepted]
        exact ⟨h.sent_le, h.accepted_eq, by simp [hlt.ne]⟩
    · have hall : s.sent = data.length := Nat.le_antisymm h.sent_le (Nat.le_of_not_lt hlt)
      rw [sendLoop_done hall.ge]
      exact ⟨h.sent_le, h.accepted_eq, by simp [hall]⟩

/-- While the loop waits, each of its turns but the interrupts has sent a byte or was one of at most
1000 since the last byte. -/
theorem sendLoop_waiting {data : Bytes} {s : Sending} (h : s.Wf data) {answers : List SendResult}
    (hnone : (sendLoop data s answers).2 = none) :
    (sendLoop data s answers).1.Wf data ∧ (sendLoop data s answers).1.sent < data.length ∧
      1001 * s.sent + s.spins + turns answers ≤
        1001 * (sendLoop data s answers).1.sent + (sendLoop data s answers).1.spins := by
  induction answers generalizing s with
  | nil =>
    by_cases hlt : s.sent < data.length
    · rw [sendLoop_nil hlt]
      exact ⟨h, hlt, Nat.le_refl _⟩
    · rw [sendLoop_done (Nat.le_of_not_lt hlt)] at hnone
      cases hnone
  | cons a answers ih =>
    by_cases hlt : s.sent < data.length
    · have hturns : turns (a :: answers) ≤ turns answers + 1 := by
        unfold turns
        rw [List.filter_cons]
        split <;> simp
      rcases sendTurn_cases h hlt a with ⟨n, -, hgo, hwf, hmore, hzero⟩ | ⟨poll, -, hspins, heq⟩ |
        ⟨rfl, heq⟩ | ⟨hfalse, -⟩
      · rw [sendLoop_cons_none hlt hgo] at hnone ⊢
        -- Bytes were taken: what the spins weighed before is less than one byte weighs.
        obtain ⟨hwf', hlt', hle⟩ := ih hwf hnone
        have := h.spins_le
        exact ⟨hwf', hlt', by omega⟩
      · rw [sendLoop_cons_none hlt (by rw [heq]), heq] at hnone ⊢
        -- One turn is one spin.
        obtain ⟨hwf', hlt', hle⟩ := ih (h.spin hspins) hnone
        refine ⟨hwf', hlt', ?_⟩
        dsimp only at hle ⊢
        omega
      · rw [sendLoop_cons_none hlt (by rw [heq]), heq] at hnone ⊢
        exact ih h hnone
      · rw [sendLoop_cons_some hlt hfalse, hfalse] at hnone
        cases hnone
    · rw [sendLoop_done (Nat.le_of_not_lt hlt)] at hnone
      cases hnone

/-- A loop that waits goes on with the answers that come later. -/
theorem sendLoop_append {data : Bytes} {s : Sending} {answers : List SendResult}
    (hnone : (sendLoop data s answers).2 = none) (later : List SendResult) :
    sendLoop data s (answers ++ later) = sendLoop data (sendLoop data s answers).1 later := by
  induction answers generalizing s with
  | nil =>
    by_cases hlt : s.sent < data.length
    · rw [sendLoop_nil hlt, List.nil_append]
    · rw [sendLoop_done (Nat.le_of_not_lt hlt)] at hnone
      cases hnone
  | cons a answers ih =>
    by_cases hlt : s.sent < data.length
    · rw [List.cons_append]
      cases hturn : (sendTurn data s a).2 with
      | none =>
        rw [sendLoop_cons_none hlt hturn] at hnone ⊢
        rw [sendLoop_cons_none hlt hturn]
        exact ih hnone
      | some result =>
        rw [sendLoop_cons_some hlt hturn, hturn] at hnone
        cases hnone
    · rw [sendLoop_done (Nat.le_of_not_lt hlt)] at hnone
      cases hnone

/-- Answers in which no byte is taken and nothing fails: a peer that does not read. -/
def Stalled (answers : List SendResult) : Prop :=
  ∀ a ∈ answers, a = .interrupted ∨ ∃ poll, a = .wouldBlock poll

/-- A stall of more than 1000 turns ends the loop, with the bytes sent that were sent before. -/
theorem sendLoop_stalled {data : Bytes} {s : Sending} (h : s.Wf data) (hlt : s.sent < data.length)
    {answers : List SendResult} (hstalled : Stalled answers)
    (hlong : 1000 < s.spins + turns answers) :
    (sendLoop data s answers).2 = some false ∧ (sendLoop data s answers).1.sent = s.sent := by
  induction answers generalizing s with
  | nil =>
    have := h.spins_le
    simp only [turns, List.filter_nil, List.length_nil] at hlong
    omega
  | cons a answers ih =>
    obtain ⟨ha, hrest⟩ := List.forall_mem_cons.mp hstalled
    rcases sendTurn_cases h hlt a with ⟨n, rfl, -⟩ | ⟨poll, rfl, hspins, heq⟩ | ⟨rfl, heq⟩ |
      ⟨hfalse, hsent, -⟩
    · rcases ha with ha | ⟨_, ha⟩ <;> cases ha
    · rw [sendLoop_cons_none hlt (by rw [heq]), heq]
      rw [turns_wouldBlock] at hlong
      exact ih (h.spin hspins) hlt hrest (by dsimp only; omega)
    · rw [sendLoop_cons_none hlt (by rw [heq]), heq]
      rw [turns_interrupted] at hlong
      exact ih h hlt hrest hlong
    · rw [sendLoop_cons_some hlt hfalse]
      exact ⟨hfalse, hsent⟩

/-! ## All runs -/

/-- Nothing is sent yet. -/
theorem Sending.new_wf (data : Bytes) : ({} : Sending).Wf data :=
  ⟨Nat.zero_le _, rfl, Nat.zero_le _⟩

/-- There are as many turns as one likes among answers of which no end is interrupts only. -/
theorem exists_turns {answers : ℕ → SendResult}
    (h : ∀ n, ∃ m, n ≤ m ∧ answers m ≠ .interrupted) (k : ℕ) :
    ∃ n, k ≤ turns ((List.range n).map answers) := by
  induction k with
  | zero => exact ⟨0, Nat.zero_le _⟩
  | succ k ih =>
    obtain ⟨n, hn⟩ := ih
    obtain ⟨m, hnm, hm⟩ := h n
    refine ⟨m + 1, ?_⟩
    -- The first `m` answers have the first `n` among them, and one more is a turn.
    have hsub : ((List.range n).map answers).Sublist ((List.range m).map answers) :=
      (List.range_sublist.mpr hnm).map answers
    have hle : turns ((List.range n).map answers) ≤ turns ((List.range m).map answers) :=
      (hsub.filter _).length_le
    have hlast : turns ((List.range (m + 1)).map answers) =
        turns ((List.range m).map answers) + 1 := by
      simp [turns, List.range_succ, hm]
    omega

/-- Whatever the kernel answers, the bytes that the socket has taken are the first `sent` bytes of
the buffer, and the result is true exactly when they are the whole of it. A stall of more than 1000
turns ends the loop with false. While the loop goes on it has had at most 1001 turns for each byte
of the buffer, so if it never ends it is only interrupted from some point on. -/
theorem sendAll_delivers (data : Bytes) (answers : List SendResult) :
    (sendAll data answers).1.sent ≤ data.length ∧
      (sendAll data answers).1.accepted = data.take (sendAll data answers).1.sent ∧
      ((sendAll data answers).2 = some true ↔ (sendAll data answers).1.accepted = data) ∧
      ((sendAll data answers).2 = none →
        turns answers < 1001 * data.length ∧
        ∀ stall, Stalled stall → 1000 < turns stall →
          (sendAll data (answers ++ stall)).2 = some false ∧
            (sendAll data (answers ++ stall)).1.sent = (sendAll data answers).1.sent) ∧
      ∀ forever : ℕ → SendResult,
        (∀ n, (sendAll data ((List.range n).map forever)).2 = none) →
          ∃ n, ∀ m, n ≤ m → forever m = .interrupted := by
  -- Every byte that is taken allows for at most a thousand polls before the next.
  have hbound : ∀ answers,
      (sendAll data answers).2 = none → turns answers < 1001 * data.length := by
    intro answers hnone
    obtain ⟨hwf, hlt, hle⟩ := sendLoop_waiting (Sending.new_wf data) hnone
    have := hwf.spins_le
    dsimp only at hle
    omega
  obtain ⟨hle, htaken, htrue⟩ := sendLoop_prefix (Sending.new_wf data) answers
  refine ⟨hle, htaken, ?_, fun hnone => ⟨hbound answers hnone, fun stall hstalled hlong => ?_⟩,
    fun forever hnone => ?_⟩
  · rw [sendAll, htrue, htaken]
    constructor
    · intro hall
      rw [hall, List.take_length]
    · intro hall
      have hlength := congrArg List.length hall
      rw [List.length_take, Nat.min_eq_left hle] at hlength
      exact hlength
  · obtain ⟨hwf, hlt, -⟩ := sendLoop_waiting (Sending.new_wf data) hnone
    rw [sendAll, sendLoop_append hnone]
    exact sendLoop_stalled hwf hlt hstalled (by omega)
  -- An endless wait has only so many turns, so from some answer on all are interruptions.
  · by_contra hmany
    push Not at hmany
    obtain ⟨n, hn⟩ := exists_turns hmany (1001 * data.length)
    have := hbound _ (hnone n)
    omega

/-- A buffer of three bytes, of which the second `send` takes the rest. -/
example : sendAll (str "abc") [.accepted 0, .interrupted, .wouldBlock 1, .accepted 5] =
    (⟨3, 0, str "abc"⟩, some true) := by
  decide

/-- A peer that takes a byte and reads no more. -/
theorem sendAll_stalls :
    (sendAll (str "abc") [.accepted 0]).2 = none ∧
      (sendAll (str "abc") ([.accepted 0] ++ List.replicate 1001 (.wouldBlock 1))).2 =
        some false := by
  have hnone : (sendAll (str "abc") [.accepted 0]).2 = none := by decide
  have hstalled : Stalled (List.replicate 1001 (.wouldBlock 1)) := fun a ha =>
    Or.inr ⟨1, List.eq_of_mem_replicate ha⟩
  have hturns : ∀ n, turns (List.replicate n (.wouldBlock 1)) = n := by
    intro n
    induction n with
    | zero => rfl
    | succ n ih => rw [List.replicate_succ, turns_wouldBlock, ih]
  have hlong : 1000 < turns (List.replicate 1001 (.wouldBlock 1)) := by
    rw [hturns]
    omega
  exact ⟨hnone, (((sendAll_delivers (str "abc") [.accepted 0]).2.2.2.1 hnone).2 _ hstalled hlong).1⟩

end ForwardProxy.Socket
