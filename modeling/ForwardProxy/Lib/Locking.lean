import ForwardProxy.Lib.Pool

/-!
# Sections under a readers-writer lock

Primitive operations read and write what a lock guards. A section is a program of them that is run
under the lock, which it holds shared or exclusively (`Guarded`). Programs that run sections can be
looked at in two ways. In one a section is a single operation (`Whole`). In the other the lock is
taken, the primitive operations come one by one while other threads go on, and the lock is given
back (`Part`, `Guarded.lower`). Where shared sections only read, the programs do in small steps what
they do in whole sections (`Guarded.Simulates.step`), no thread writes what is guarded while another
is in a section (`Guarded.Simulates.no_race`), and some thread can always go on
(`Guarded.Simulates.progress`).
-/

namespace Lib.Interaction

/-- How a section holds the lock. -/
inductive Mode
  | shared
  | exclusive
  deriving DecidableEq

/-- A lock that any number of readers hold, or one writer. -/
structure RwLock where
  readers : ℕ := 0
  writer : Bool := false

/-- When the lock may be taken. -/
def RwLock.Free (l : RwLock) : Mode → Prop
  | .shared => l.writer = false
  | .exclusive => l.writer = false ∧ l.readers = 0

/-- The lock with one more holder. -/
def RwLock.acquire (l : RwLock) : Mode → RwLock
  | .shared => { l with readers := l.readers + 1 }
  | .exclusive => { l with writer := true }

/-- The lock with one holder less. -/
def RwLock.release (l : RwLock) : Mode → RwLock
  | .shared => { l with readers := l.readers - 1 }
  | .exclusive => { l with writer := false }

variable {F O W : Type} {RF : F → Type} {R : O → Type} {Q : W → Type} {α β τ σ κ : Type}

/-- No operation of the program changes the state, whatever the state is. -/
def ReadsOnly (handle : (f : F) → σ → RF f × σ) (p : Prog RF α) : Prop :=
  ∃ h, Prog.Sat (fun _ f => ∀ s, (handle f s).2 = s) (fun _ _ => True) h p

/-- What is left of a program that only reads only reads. -/
theorem ReadsOnly.step {handle : (f : F) → σ → RF f × σ} {f : F} {k : RF f → Prog RF α}
    (h : ReadsOnly handle (.op f k)) :
    (∀ s, (handle f s).2 = s) ∧ ∀ r, ReadsOnly handle (k r) := by
  obtain ⟨h, hf, hk⟩ := h
  exact ⟨hf, fun r => ⟨_, hk r⟩⟩

/-- What a lock guards: the primitive operations on it, which may also add to counters that need no
lock, and the sections. -/
structure Guarded {F O : Type} (RF : F → Type) (R : O → Type) (σ κ : Type) where
  handle : (f : F) → σ → RF f × σ
  count : F → κ → κ
  mode : O → Mode
  body : (o : O) → Prog RF (R o)
  reads : ∀ o, mode o = .shared → ReadsOnly handle (body o)

/-! ## Whole sections and small steps -/

/-- An operation is a section, or is outside of what is guarded. -/
inductive Whole (O W : Type)
  | run (o : O)
  | out (w : W)

/-- A section answers with its result, and what is outside as it likes. -/
abbrev Whole.Answer (R : O → Type) (Q : W → Type) : Whole O W → Type
  | .run o => R o
  | .out w => Q w

/-- An operation is a step on the lock, is primitive, or is outside of what is guarded. -/
inductive Part (F W : Type)
  | acquire (m : Mode)
  | release (m : Mode)
  | prim (f : F)
  | out (w : W)

/-- A step on the lock answers nothing, and a primitive operation with what it reads. -/
abbrev Part.Answer (RF : F → Type) (Q : W → Type) : Part F W → Type
  | .acquire _ => Unit
  | .release _ => Unit
  | .prim f => RF f
  | .out w => Q w

/-- The rest of a section, and what comes after the lock is given back. -/
def inSection (m : Mode) : Prog RF β → (β → Prog (Part.Answer RF Q) α) → Prog (Part.Answer RF Q) α
  | .ret r, next => .op (.release m) fun _ => next r
  | .op f k, next => .op (.prim f) fun r => inSection m (k r) next

namespace Guarded

variable (G : Guarded RF R σ κ)

/-- The program in small steps. -/
def lower : Prog (Whole.Answer R Q) α → Prog (Part.Answer RF Q) α
  | .ret a => .ret a
  | .op (.run o) k =>
    .op (.acquire (G.mode o)) fun _ => inSection (G.mode o) (G.body o) fun r => lower (k r)
  | .op (.out w) k => .op (.out w) fun r => lower (k r)

/-- A section is run from its first operation to its last. What is outside answers anything. -/
def WholeActs : (o : Whole O W) → σ → Whole.Answer R Q o → σ → Prop
  | .run o, s, r, s' => (r, s') = ((G.body o).exec G.handle s).2
  | .out _, s, _, s' => s' = s

end Guarded

/-- What is guarded, the counters, and the lock. -/
structure Locked (σ κ : Type) where
  data : σ
  counters : κ
  lock : RwLock := {}

/-- The lock is taken only when it is free. -/
def Guarded.PartActs (G : Guarded RF R σ κ) :
    (o : Part F W) → Locked σ κ → Part.Answer RF Q o → Locked σ κ → Prop
  | .acquire m, s, _, s' => s.lock.Free m ∧ s' = { s with lock := s.lock.acquire m }
  | .release m, s, _, s' => s' = { s with lock := s.lock.release m }
  | .prim f, s, r, s' =>
    r = (G.handle f s.data).1 ∧
      s' = { s with data := (G.handle f s.data).2, counters := G.count f s.counters }
  | .out _, s, _, s' => s' = s

/-! ## The lock and its holders -/

/-- The lock is held by the threads that are in a section, each in its mode. -/
structure RwLock.HeldBy (l : RwLock) (held : List (Option Mode)) : Prop where
  readers : held.count (some .shared) = l.readers
  writer : held.count (some .exclusive) = l.writer.toNat
  alone : l.writer = true → l.readers = 0

namespace RwLock.HeldBy

variable {l : RwLock} {held : List (Option Mode)} {i j : ℕ} {m : Mode}

/-- A thread that is not in a section does not hold the lock. -/
theorem append_none (h : l.HeldBy held) : l.HeldBy (held ++ [none]) := by
  obtain ⟨hreaders, hwriter, halone⟩ := h
  exact ⟨by simpa using hreaders, by simpa using hwriter, halone⟩

/-- How the holders of a mode change with one thread. -/
theorem count_set {a : Option Mode} (hi : held[i]? = some a) (b c : Option Mode) :
    (held.set i b).count c + (if a = c then 1 else 0) =
      held.count c + if b = c then 1 else 0 := by
  induction held generalizing i with
  | nil => simp at hi
  | cons d held ih =>
    cases i with
    | zero =>
      obtain rfl : d = a := by simpa using hi
      simp only [List.set_cons_zero, List.count_cons, beq_iff_eq]
      omega
    | succ i =>
      have hrest := ih (i := i) (by simpa using hi)
      simp only [List.set_cons_succ, List.count_cons]
      omega

/-- A thread that takes the lock holds it. -/
theorem acquire (h : l.HeldBy held) (hi : held[i]? = some none) (hfree : l.Free m) :
    (l.acquire m).HeldBy (held.set i (some m)) := by
  obtain ⟨hreaders, hwriter, halone⟩ := h
  have hshared := count_set hi (some m) (some .shared)
  have hexclusive := count_set hi (some m) (some .exclusive)
  cases m with
  | shared =>
    have hfree : l.writer = false := hfree
    refine ⟨?_, ?_, fun hw => ?_⟩
    · simp only [RwLock.acquire]
      simpa [hreaders] using hshared
    · simp only [RwLock.acquire]
      simpa [hwriter] using hexclusive
    · simp only [RwLock.acquire, hfree, Bool.false_eq_true] at hw
  | exclusive =>
    have hfree : l.writer = false ∧ l.readers = 0 := hfree
    refine ⟨?_, ?_, fun _ => hfree.2⟩
    · simp only [RwLock.acquire]
      simpa [hreaders] using hshared
    · simp only [RwLock.acquire]
      simpa [hwriter, hfree.1] using hexclusive

/-- A thread that gives the lock back does not hold it. -/
theorem release (h : l.HeldBy held) (hi : held[i]? = some (some m)) :
    (l.release m).HeldBy (held.set i none) := by
  obtain ⟨hreaders, hwriter, halone⟩ := h
  have hshared := count_set hi none (some .shared)
  have hexclusive := count_set hi none (some .exclusive)
  cases m with
  | shared =>
    refine ⟨?_, ?_, fun hw => ?_⟩
    · simp only [RwLock.release]
      simp at hshared
      omega
    · simp only [RwLock.release]
      simpa [hwriter] using hexclusive
    · have := halone hw
      simp only [RwLock.release]
      omega
  | exclusive =>
    refine ⟨?_, ?_, fun hw => by cases hw⟩
    · simp only [RwLock.release]
      simpa [hreaders] using hshared
    · cases hw : l.writer <;> simp [hw, hwriter] at hexclusive
      simpa [RwLock.release] using hexclusive

/-- While a thread reads there is no writer. -/
theorem no_writer (h : l.HeldBy held) (hi : held[i]? = some (some .shared)) : l.writer = false := by
  have hpos : 0 < held.count (some .shared) := List.count_pos_iff.mpr (List.mem_of_getElem? hi)
  rw [h.readers] at hpos
  cases hw : l.writer with
  | false => rfl
  | true =>
    have := h.alone hw
    omega

/-- While a thread writes no other thread is in a section. -/
theorem writer_alone (h : l.HeldBy held) (hi : held[i]? = some (some .exclusive)) :
    l.writer = true ∧ ∀ j a, j ≠ i → held[j]? = some a → a = none := by
  have hpos : 0 < held.count (some .exclusive) := List.count_pos_iff.mpr (List.mem_of_getElem? hi)
  have hw : l.writer = true := by
    cases hw : l.writer with
    | false => simp [h.writer, hw] at hpos
    | true => rfl
  refine ⟨hw, fun j a hne hj => ?_⟩
  -- Without the writer no thread holds the lock in either mode.
  have hrest := h.release hi
  have hmem : a ∈ held.set i none :=
    List.mem_of_getElem? ((List.getElem?_set_ne hne.symm).trans hj)
  have hshared : (held.set i none).count (some .shared) = 0 := hrest.readers.trans (h.alone hw)
  have hexclusive : (held.set i none).count (some .exclusive) = 0 := hrest.writer
  cases a with
  | none => rfl
  | some m =>
    cases m with
    | shared => exact absurd hmem (List.count_eq_zero.mp hshared)
    | exclusive => exact absurd hmem (List.count_eq_zero.mp hexclusive)

end RwLock.HeldBy

/-- A thread can perform its next operation. -/
def Pool.Enabled (act : (o : O) → σ → R o → σ → Prop) (p : Pool R τ α σ) (i : ℕ) : Prop :=
  ∃ (job : τ) (o : O) (k : R o → Prog R α) (r : R o) (s : σ),
    p.threads[i]? = some (job, .op o k) ∧ act o p.shared r s

instance (l : RwLock) (m : Mode) : Decidable (l.Free m) :=
  match m with
  | .shared => inferInstanceAs (Decidable (l.writer = false))
  | .exclusive => inferInstanceAs (Decidable (l.writer = false ∧ l.readers = 0))

/-- A turn of thread `i`: its next step, where it has one that does not wait for the lock. The
outside answers with `env`. -/
def Guarded.turn (G : Guarded RF R σ κ) (env : (w : W) → Q w) (i : ℕ)
    (p : Pool (Part.Answer RF Q) τ α (Locked σ κ)) :
    Option (Pool (Part.Answer RF Q) τ α (Locked σ κ)) :=
  let go (job : τ) (o : Part F W) (r : Part.Answer RF Q o) (next : Prog (Part.Answer RF Q) α)
      (s : Locked σ κ) : Pool (Part.Answer RF Q) τ α (Locked σ κ) :=
    { shared := s, threads := p.threads.set i (job, next), trace := p.trace ++ [(i, ⟨o, r⟩)] }
  match p.threads[i]? with
  | some (job, .op (.acquire m) k) =>
    if p.shared.lock.Free m then
      some (go job (.acquire m) () (k ()) { p.shared with lock := p.shared.lock.acquire m })
    else none
  | some (job, .op (.release m) k) =>
    some (go job (.release m) () (k ()) { p.shared with lock := p.shared.lock.release m })
  | some (job, .op (.prim f) k) =>
    let (r, data) := G.handle f p.shared.data
    some (go job (.prim f) r (k r)
      { p.shared with data := data, counters := G.count f p.shared.counters })
  | some (job, .op (.out w) k) => some (go job (.out w) (env w) (k (env w)) p.shared)
  | _ => none

/-- The turns of a schedule, one after another. -/
def Guarded.turns (G : Guarded RF R σ κ) (env : (w : W) → Q w) (schedule : List ℕ)
    (p : Pool (Part.Answer RF Q) τ α (Locked σ κ)) :
    Option (Pool (Part.Answer RF Q) τ α (Locked σ κ)) :=
  schedule.foldlM (fun p i => G.turn env i p) p

/-- A turn is a step of the pool. -/
theorem Guarded.step_of_turn {G : Guarded RF R σ κ} {part : τ → Prog (Part.Answer RF Q) α}
    {env : (w : W) → Q w} {i : ℕ} {p p' : Pool (Part.Answer RF Q) τ α (Locked σ κ)}
    (h : G.turn env i p = some p') :
    Pool.Step part G.PartActs p p' := by
  unfold Guarded.turn at h
  split at h
  · rename_i job m k hi
    split at h
    · rename_i hfree
      cases h
      exact .perform hi ⟨hfree, rfl⟩
    · cases h
  · rename_i job m k hi
    cases h
    exact .perform hi rfl
  · rename_i job f k hi
    cases h
    exact .perform hi ⟨rfl, rfl⟩
  · rename_i job w k hi
    cases h
    exact .perform hi rfl
  · cases h

/-- What a schedule comes to is reachable. -/
theorem Guarded.steps_of_turns {G : Guarded RF R σ κ} {part : τ → Prog (Part.Answer RF Q) α}
    {env : (w : W) → Q w} {schedule : List ℕ} {p p' : Pool (Part.Answer RF Q) τ α (Locked σ κ)}
    (h : G.turns env schedule p = some p') :
    Relation.ReflTransGen (Pool.Step part G.PartActs) p p' := by
  induction schedule generalizing p with
  | nil =>
    cases h
    exact .refl
  | cons i schedule ih =>
    rw [Guarded.turns, List.foldlM_cons, Option.bind_eq_bind, Option.bind_eq_some_iff] at h
    obtain ⟨p₁, hturn, hrest⟩ := h
    exact .head (G.step_of_turn hturn) (ih hrest)

/-! ## The simulation -/

/-- The primitive operations among the events. -/
def prims (es : List (Event (Part.Answer RF Q))) : List (Event RF) :=
  es.filterMap fun
    | ⟨.prim f, r⟩ => some ⟨f, r⟩
    | ⟨.acquire _, _⟩ | ⟨.release _, _⟩ | ⟨.out _, _⟩ => none

/-- The events outside of what is guarded. -/
def outOfWhole : ℕ × Event (Whole.Answer R Q) → Option (ℕ × Event Q)
  | (i, ⟨.out w, r⟩) => some (i, ⟨w, r⟩)
  | (_, ⟨.run _, _⟩) => none

/-- The events outside of what is guarded, in small steps. -/
def outOfPart : ℕ × Event (Part.Answer RF Q) → Option (ℕ × Event Q)
  | (i, ⟨.out w, r⟩) => some (i, ⟨w, r⟩)
  | (_, ⟨.acquire _, _⟩) | (_, ⟨.release _, _⟩) | (_, ⟨.prim _, _⟩) => none

namespace Guarded

variable (G : Guarded RF R σ κ)

/-- The primitive operations that whole sections are made of, each section run from some state that
has the invariant. -/
inductive Expands (I : σ → Prop) : List (Event (Whole.Answer R Q)) → List (Event RF) → Prop
  | nil : Expands I [] []
  | run {es : List (Event (Whole.Answer R Q))} {fs : List (Event RF)} (o : O) (s : σ)
      (h : Expands I es fs) (hs : I s) :
      Expands I (es ++ [⟨.run o, ((G.body o).exec G.handle s).2.1⟩])
        (fs ++ ((G.body o).exec G.handle s).1)
  | out {es : List (Event (Whole.Answer R Q))} {fs : List (Event RF)} (w : W) (r : Q w)
      (h : Expands I es fs) : Expands I (es ++ [⟨.out w, r⟩]) fs

/-- Where a thread is in small steps, and where it is in whole sections. In a section it is still
before it in whole sections, and the events `now` of the section so far and what is left of it come
to what the section as a whole would come to. -/
inductive At (whole data : σ) : Option Mode → List (Event RF) →
    Prog (Whole.Answer R Q) α → Prog (Part.Answer RF Q) α → Prop
  | outside (p : Prog (Whole.Answer R Q) α) : At whole data none [] p (G.lower p)
  | inside (o : O) (k : R o → Prog (Whole.Answer R Q) α) (rest : Prog RF (R o))
      (now : List (Event RF))
      (hrest : (G.body o).exec G.handle whole =
        (now ++ (rest.exec G.handle data).1, (rest.exec G.handle data).2))
      (hreads : G.mode o = .shared → ReadsOnly G.handle rest) :
      At whole data (some (G.mode o)) now (.op (.run o) k)
        (inSection (G.mode o) rest fun r => G.lower (k r))

/-- What a thread has done in small steps is what it has done in whole sections, and the section
that it is in. -/
def Follows (I : σ → Prop) (whole data : σ) (m : Option Mode)
    (es : List (Event (Whole.Answer R Q))) (fs : List (Event (Part.Answer RF Q)))
    (p : Prog (Whole.Answer R Q) α) (q : Prog (Part.Answer RF Q) α) : Prop :=
  ∃ done now, prims fs = done ++ now ∧ G.Expands I es done ∧ G.At whole data m now p q

variable {G}

/-- Outside of a section nothing depends on the data. -/
theorem Follows.outside_of {I : σ → Prop} {whole data : σ} {es : List (Event (Whole.Answer R Q))}
    {fs : List (Event (Part.Answer RF Q))} {p : Prog (Whole.Answer R Q) α}
    {q : Prog (Part.Answer RF Q) α} (h : G.Follows I whole data none es fs p q) (whole' data' : σ) :
    G.Follows I whole' data' none es fs p q := by
  obtain ⟨done, now, hprims, hexpands, hat⟩ := h
  cases hat with
  | outside => exact ⟨done, [], hprims, hexpands, .outside p⟩

end Guarded

/-- The pool `p` in small steps does what the pool `q` does in whole sections, where `held` says in
which mode each thread is in a section. -/
structure Guarded.Simulates (G : Guarded RF R σ κ) (I : σ → Prop)
    (p : Pool (Part.Answer RF Q) τ α (Locked σ κ)) (q : Pool (Whole.Answer R Q) τ α σ)
    (held : List (Option Mode)) : Prop where
  length : held.length = p.threads.length ∧ q.threads.length = p.threads.length
  owned : (∀ e ∈ p.trace, e.1 < p.threads.length) ∧ ∀ e ∈ q.trace, e.1 < p.threads.length
  threads : ∀ (i : ℕ) job part, p.threads[i]? = some (job, part) → ∃ whole m,
    q.threads[i]? = some (job, whole) ∧ held[i]? = some m ∧
      G.Follows I q.shared p.shared.data m (own i q.trace) (own i p.trace) whole part
  lock : p.shared.lock.HeldBy held
  data : p.shared.lock.writer = false → p.shared.data = q.shared
  inv : I q.shared
  outs : p.trace.filterMap outOfPart = q.trace.filterMap outOfWhole

section Simulation

variable {G : Guarded RF R σ κ} {I : σ → Prop} {p : Pool (Part.Answer RF Q) τ α (Locked σ κ)}
  {q : Pool (Whole.Answer R Q) τ α σ} {held : List (Option Mode)}

/-- A thread that is not there yet has done nothing. -/
theorem own_eq_nil {n : ℕ} {t : List (ℕ × Event R)} (h : ∀ e ∈ t, e.1 < n) : own n t = [] := by
  rw [own, List.map_eq_nil_iff, List.filter_eq_nil_iff]
  intro e he
  have := h e he
  simp only [decide_eq_true_eq]
  omega

/-- Setting an element to what it is changes nothing. -/
theorem set_self {l : List α} {i : ℕ} {a : α} (hi : l[i]? = some a) : l.set i a = l := by
  obtain ⟨hlt, hget⟩ := List.getElem?_eq_some_iff.mp hi
  rw [← hget, List.set_getElem_self]

namespace Guarded.Simulates

/-- One thread of each pool has gone on, and the data has changed only if no other thread is in a
section. -/
theorem set (h : G.Simulates I p q held) {i : ℕ} {job : τ} {w₀ : Prog (Whole.Answer R Q) α}
    {m₀ : Option Mode} (hq : q.threads[i]? = some (job, w₀)) (hm : held[i]? = some m₀)
    {s : Locked σ κ} {s' : σ} {m : Option Mode} {w : Prog (Whole.Answer R Q) α}
    {f : Prog (Part.Answer RF Q) α} (es : List (Event (Part.Answer RF Q)))
    (es' : List (Event (Whole.Answer R Q)))
    (hfollows : G.Follows I s' s.data m (own i q.trace ++ es') (own i p.trace ++ es) w f)
    (hothers : (s.data = p.shared.data ∧ s' = q.shared) ∨
      ∀ j a, j ≠ i → held[j]? = some a → a = none)
    (hlock : s.lock.HeldBy (held.set i m)) (hdata : s.lock.writer = false → s.data = s')
    (hinv : I s')
    (houts : (es.map fun e => (i, e)).filterMap outOfPart =
      (es'.map fun e => (i, e)).filterMap outOfWhole) :
    G.Simulates I
      { shared := s, threads := p.threads.set i (job, f),
        trace := p.trace ++ es.map fun e => (i, e) }
      { shared := s', threads := q.threads.set i (job, w),
        trace := q.trace ++ es'.map fun e => (i, e) }
      (held.set i m) := by
  have hlt : i < p.threads.length := h.length.2 ▸ (List.getElem?_eq_some_iff.mp hq).1
  refine ⟨by simp [h.length], ⟨?_, ?_⟩, fun j job' part hj => ?_, hlock, hdata, hinv, ?_⟩
  · simp only [List.length_set, List.forall_mem_append, List.forall_mem_map]
    exact ⟨h.owned.1, fun e _ => hlt⟩
  · simp only [List.length_set, List.forall_mem_append, List.forall_mem_map]
    exact ⟨h.owned.2, fun e _ => hlt⟩
  -- The thread that steps follows its whole sections as it is said to, and the others as before.
  · dsimp only at hj ⊢
    rw [own_append, own_append]
    by_cases hij : i = j
    · subst hij
      rw [List.getElem?_set_self hlt] at hj
      cases hj
      refine ⟨w, m, ?_, ?_, ?_⟩
      · exact List.getElem?_set_self (List.getElem?_eq_some_iff.mp hq).1
      · exact List.getElem?_set_self (List.getElem?_eq_some_iff.mp hm).1
      · rw [own_map_self, own_map_self]
        exact hfollows
    · rw [List.getElem?_set_ne hij] at hj ⊢
      rw [List.getElem?_set_ne hij, own_map_ne hij, own_map_ne hij, List.append_nil,
        List.append_nil]
      obtain ⟨whole, m', hwhole, hm', hat'⟩ := h.threads j job' part hj
      refine ⟨whole, m', hwhole, hm', ?_⟩
      rcases hothers with ⟨hs, hs'⟩ | hnone
      · rw [hs, hs']
        exact hat'
      · obtain rfl := hnone j m' (Ne.symm hij) hm'
        exact hat'.outside_of _ _
  · simp only [List.filterMap_append, h.outs, houts]

/-- A thread is started. -/
theorem start (h : G.Simulates I p q held) (job : τ) (w : Prog (Whole.Answer R Q) α) :
    G.Simulates I { p with threads := p.threads ++ [(job, G.lower w)] }
      { q with threads := q.threads ++ [(job, w)] } (held ++ [none]) := by
  obtain ⟨⟨hlen, hlen'⟩, ⟨howned, howned'⟩, hthreads, hlock, hdata, hinv, houts⟩ := h
  refine ⟨by simp [hlen, hlen'], ⟨?_, ?_⟩, fun i job' part hi => ?_, hlock.append_none, hdata, hinv,
    houts⟩
  · intro e he
    have := howned e he
    simp only [List.length_append]
    omega
  · intro e he
    have := howned' e he
    simp only [List.length_append]
    omega
  · dsimp only at hi ⊢
    rcases Nat.lt_or_ge i p.threads.length with hlt | hge
    · rw [List.getElem?_append_left hlt] at hi
      rw [List.getElem?_append_left (by omega), List.getElem?_append_left (by omega)]
      exact hthreads i job' part hi
    · -- The new thread has no event yet.
      obtain rfl : i = p.threads.length := by
        have := (List.getElem?_eq_some_iff.mp hi).1
        simp only [List.length_append, List.length_singleton] at this
        omega
      have hpart : (job, G.lower w) = (job', part) := by simpa using hi
      cases hpart
      refine ⟨w, none, by simp [← hlen'], by simp [← hlen], [], [], ?_, ?_, .outside w⟩
      · rw [own_eq_nil howned]
        rfl
      · rw [own_eq_nil howned']
        exact .nil

section Step

variable {i : ℕ} {job : τ} {o : O} {k : R o → Prog (Whole.Answer R Q) α}
  {done now : List (Event RF)}

/-- The primitive operations of one more event are added to those before it. -/
theorem prims_own_snoc {t : List (ℕ × Event (Part.Answer RF Q))} {fs : List (Event RF)}
    (hprims : prims (own i t) = fs) (e : Event (Part.Answer RF Q)) :
    prims (own i t ++ [e]) = fs ++ prims [e] := by
  rw [prims, List.filterMap_append, ← prims, hprims, prims]

/-- The lock is taken, and nothing of the section is done yet. -/
theorem acquired (h : G.Simulates I p q held) (hq : q.threads[i]? = some (job, .op (.run o) k))
    (hm : held[i]? = some none) (hprims : prims (own i p.trace) = done)
    (hexpands : G.Expands I (own i q.trace) done) (hfree : p.shared.lock.Free (G.mode o)) :
    G.Simulates I
      { shared := { p.shared with lock := p.shared.lock.acquire (G.mode o) }
        threads := p.threads.set i (job, inSection (G.mode o) (G.body o) fun r => G.lower (k r))
        trace := p.trace ++ [(i, ⟨.acquire (G.mode o), ()⟩)] } q
      (held.set i (some (G.mode o))) := by
  have hnot : p.shared.lock.writer = false := by
    cases hmode : G.mode o <;> rw [hmode] at hfree
    · exact hfree
    · exact hfree.1
  have hsame : p.shared.data = q.shared := h.data hnot
  have hfollows : G.Follows I q.shared p.shared.data (some (G.mode o)) (own i q.trace ++ [])
      (own i p.trace ++ [⟨.acquire (G.mode o), ()⟩]) (.op (.run o) k)
      (inSection (G.mode o) (G.body o) fun r => G.lower (k r)) := by
    refine ⟨done, [], prims_own_snoc hprims _, by rw [List.append_nil]; exact hexpands,
      .inside o k _ [] ?_ (G.reads o)⟩
    rw [hsame]
    rfl
  have hset := h.set hq hm _ _ hfollows (Or.inl ⟨rfl, rfl⟩) (h.lock.acquire hm hfree)
    (fun _ => hsame) h.inv
    (s := { p.shared with lock := p.shared.lock.acquire (G.mode o) }) rfl
  rw [set_self hq, List.map_nil, List.append_nil] at hset
  exact hset

/-- What is outside is the same operation in both. -/
theorem passed (h : G.Simulates I p q held) {w : W} {k : Q w → Prog (Whole.Answer R Q) α}
    (hq : q.threads[i]? = some (job, .op (.out w) k)) (hm : held[i]? = some none)
    (hprims : prims (own i p.trace) = done) (hexpands : G.Expands I (own i q.trace) done)
    (r : Q w) :
    G.Simulates I
      { shared := p.shared
        threads := p.threads.set i (job, G.lower (k r))
        trace := p.trace ++ [(i, ⟨.out w, r⟩)] }
      { shared := q.shared
        threads := q.threads.set i (job, k r)
        trace := q.trace ++ [(i, ⟨.out w, r⟩)] } (held.set i none) := by
  refine h.set hq hm [⟨.out w, r⟩] [⟨.out w, r⟩] ?_ (Or.inl ⟨rfl, rfl⟩) ?_ h.data h.inv rfl
  · exact ⟨done, [], prims_own_snoc hprims _, .out w r hexpands, .outside _⟩
  · rw [set_self hm]
    exact h.lock

/-- The lock is given back, and the section is now done as a whole. -/
theorem released (h : G.Simulates I p q held) (hI : ∀ o s, I s → I ((G.body o).exec G.handle s).2.2)
    (hq : q.threads[i]? = some (job, .op (.run o) k)) (hm : held[i]? = some (some (G.mode o)))
    (hprims : prims (own i p.trace) = done ++ now) (hexpands : G.Expands I (own i q.trace) done)
    {a : R o} (hrest : (G.body o).exec G.handle q.shared = (now, a, p.shared.data)) :
    G.Simulates I
      { shared := { p.shared with lock := p.shared.lock.release (G.mode o) }
        threads := p.threads.set i (job, G.lower (k a))
        trace := p.trace ++ [(i, ⟨.release (G.mode o), ()⟩)] }
      { shared := p.shared.data
        threads := q.threads.set i (job, k a)
        trace := q.trace ++ [(i, ⟨.run o, a⟩)] } (held.set i none) := by
  refine h.set hq hm [⟨.release (G.mode o), ()⟩] [⟨.run o, a⟩] ?_ ?_ (h.lock.release hm)
    (fun _ => rfl) ?_ rfl
  · refine ⟨done ++ now, [], prims_own_snoc hprims _, ?_, .outside _⟩
    have hrun := Expands.run (Q := Q) o q.shared hexpands h.inv
    rw [hrest] at hrun
    exact hrun
  · cases hcase : G.mode o with
    | shared => exact Or.inl ⟨rfl, h.data (h.lock.no_writer (hcase ▸ hm))⟩
    | exclusive => exact Or.inr (h.lock.writer_alone (hcase ▸ hm)).2
  · have hnext := hI o q.shared h.inv
    rw [hrest] at hnext
    exact hnext

/-- One more operation of the section is done. -/
theorem worked (h : G.Simulates I p q held) (hq : q.threads[i]? = some (job, .op (.run o) k))
    (hm : held[i]? = some (some (G.mode o))) (hprims : prims (own i p.trace) = done ++ now)
    (hexpands : G.Expands I (own i q.trace) done) {f : F} {next : RF f → Prog RF (R o)}
    (hrest : (G.body o).exec G.handle q.shared =
      (now ++ ((Prog.op f next).exec G.handle p.shared.data).1,
        ((Prog.op f next).exec G.handle p.shared.data).2))
    (hreads : G.mode o = .shared → ReadsOnly G.handle (.op f next)) :
    G.Simulates I
      { shared := { p.shared with
          data := (G.handle f p.shared.data).2
          counters := G.count f p.shared.counters }
        threads := p.threads.set i (job, inSection (G.mode o) (next (G.handle f p.shared.data).1)
          fun r => G.lower (k r))
        trace := p.trace ++ [(i, ⟨.prim f, (G.handle f p.shared.data).1⟩)] } q held := by
  -- One primitive of the section more is done, and the rest of the section is what is left.
  have hfollows : G.Follows I q.shared (G.handle f p.shared.data).2 (some (G.mode o))
      (own i q.trace ++ []) (own i p.trace ++ [⟨.prim f, (G.handle f p.shared.data).1⟩])
      (.op (.run o) k) (inSection (G.mode o) (next (G.handle f p.shared.data).1)
        fun r => G.lower (k r)) := by
    refine ⟨done, now ++ [⟨f, (G.handle f p.shared.data).1⟩], ?_,
      by rw [List.append_nil]; exact hexpands, .inside o k _ _ ?_ fun hs => (hreads hs).step.2 _⟩
    · rw [prims_own_snoc hprims, List.append_assoc]
      rfl
    · rw [hrest]
      simp [Prog.exec]
  -- Under the exclusive lock nobody else is inside, and under the shared one nothing changes.
  have hothers : ((G.handle f p.shared.data).2 = p.shared.data ∧ q.shared = q.shared) ∨
      ∀ j a, j ≠ i → held[j]? = some a → a = none := by
    cases hcase : G.mode o with
    | shared => exact Or.inl ⟨(hreads hcase).step.1 _, rfl⟩
    | exclusive => exact Or.inr (h.lock.writer_alone (hcase ▸ hm)).2
  have hdata : p.shared.lock.writer = false → (G.handle f p.shared.data).2 = q.shared := by
    intro hw
    cases hcase : G.mode o with
    | shared => exact ((hreads hcase).step.1 _).trans (h.data hw)
    | exclusive =>
      have := (h.lock.writer_alone (hcase ▸ hm)).1
      rw [hw] at this
      cases this
  have hset := h.set hq hm _ _ hfollows hothers (by rw [set_self hm]; exact h.lock) hdata h.inv
    (s := { p.shared with
      data := (G.handle f p.shared.data).2
      counters := G.count f p.shared.counters }) rfl
  rw [set_self hq, set_self hm, List.map_nil, List.append_nil] at hset
  exact hset

end Step

/-- A step of the pool in small steps is a step of the other pool, or none of it. -/
theorem step (h : G.Simulates I p q held) (hI : ∀ o s, I s → I ((G.body o).exec G.handle s).2.2)
    {body : τ → Prog (Whole.Answer R Q) α} {p' : Pool (Part.Answer RF Q) τ α (Locked σ κ)}
    (hstep : Pool.Step (fun job => G.lower (body job)) G.PartActs p p') :
    ∃ q' held', Relation.ReflGen (Pool.Step body G.WholeActs) q q' ∧
      G.Simulates I p' q' held' := by
  cases hstep with
  | start job => exact ⟨_, held ++ [none], .single (.start q job), h.start job (body job)⟩
  | @perform i job o k r s hi hact =>
    -- The thread is outside of a section, or inside of one.
    obtain ⟨whole, m, hq, hm, done, now, hprims, hexpands, hat⟩ := h.threads i job _ hi
    generalize hpart : Prog.op o k = part at hat
    cases hat with
    | outside =>
      rw [List.append_nil] at hprims
      cases whole with
      | ret a => cases hpart
      | op o' k' =>
        cases o' with
        | run o' =>
          cases hpart
          obtain ⟨hfree, rfl⟩ := hact
          exact ⟨q, _, .refl, h.acquired hq hm hprims hexpands hfree⟩
        | out w =>
          cases hpart
          obtain rfl := hact
          have hwhole := @Pool.Step.perform _ _ _ _ _ body G.WholeActs q i job (.out w) _ r _ hq rfl
          exact ⟨_, _, .single hwhole, h.passed hq hm hprims hexpands r⟩
    | inside o' k' rest now hrest hreads =>
      cases rest with
      | ret a =>
        cases hpart
        obtain rfl := hact
        rw [Prog.exec, List.append_nil] at hrest
        have hwhole := @Pool.Step.perform _ _ _ _ _ body G.WholeActs q i job (.run o') _ a _ hq
          (congrArg Prod.snd hrest).symm
        exact ⟨_, _, .single hwhole, h.released hI hq hm hprims hexpands hrest⟩
      | op f next =>
        cases hpart
        obtain ⟨rfl, rfl⟩ := hact
        exact ⟨q, held, .refl, h.worked hq hm hprims hexpands hrest hreads⟩

/-- And so it is for any number of steps. -/
theorem steps (h : G.Simulates I p q held) (hI : ∀ o s, I s → I ((G.body o).exec G.handle s).2.2)
    {body : τ → Prog (Whole.Answer R Q) α} {p' : Pool (Part.Answer RF Q) τ α (Locked σ κ)}
    (hsteps : Relation.ReflTransGen
      (Pool.Step (fun job => G.lower (body job)) G.PartActs) p p') :
    ∃ q' held', Relation.ReflTransGen (Pool.Step body G.WholeActs) q q' ∧
      G.Simulates I p' q' held' := by
  induction hsteps with
  | refl => exact ⟨q, held, .refl, h⟩
  | tail _ hstep ih =>
    obtain ⟨q', held', hq', h'⟩ := ih
    obtain ⟨q'', held'', hq'', h''⟩ := h'.step hI hstep
    exact ⟨q'', held'', hq'.trans hq''.to_reflTransGen, h''⟩

/-- A thread that has returned in small steps has returned the same in whole sections, with the
primitive operations that the sections are made of. -/
theorem returned (h : G.Simulates I p q held) {i : ℕ} {job : τ} {a : α}
    (hi : p.threads[i]? = some (job, .ret a)) :
    q.threads[i]? = some (job, .ret a) ∧
      G.Expands I (own i q.trace) (prims (own i p.trace)) := by
  obtain ⟨whole, m, hq, -, done, now, hprims, hexpands, hat⟩ := h.threads i job _ hi
  generalize hpart : Prog.ret a = part at hat
  cases hat with
  | outside =>
    cases whole with
    | ret b =>
      cases hpart
      rw [hprims, List.append_nil]
      exact ⟨hq, hexpands⟩
    | op o k => cases o <;> cases hpart
  | inside o k rest => cases rest <;> cases hpart

/-- A thread about to perform a primitive operation is in a section, which is exclusive unless the
operation only reads. -/
theorem in_section (h : G.Simulates I p q held) {i : ℕ} {job : τ} {f : F}
    {k : RF f → Prog (Part.Answer RF Q) α} (hi : p.threads[i]? = some (job, .op (.prim f) k)) :
    ∃ m, held[i]? = some (some m) ∧ (m = .shared → ∀ s, (G.handle f s).2 = s) := by
  generalize hpart : (.op (.prim f) k : Prog (Part.Answer RF Q) α) = part at hi
  obtain ⟨whole, m, -, hm, done, now, -, -, hat⟩ := h.threads i job part hi
  cases hat with
  | outside =>
    cases whole with
    | ret b => cases hpart
    | op o k => cases o <;> cases hpart
  | inside o k rest now hrest hreads =>
    cases rest with
    | ret r => cases hpart
    | op f' k' =>
      cases hpart
      exact ⟨_, hm, fun hs => (hreads hs).step.1⟩

/-- No race: while a thread is about to perform an operation that may write what is guarded, no
other thread is about to perform a primitive operation. -/
theorem no_race (h : G.Simulates I p q held) {i j : ℕ} {job job' : τ} {f f' : F}
    {k : RF f → Prog (Part.Answer RF Q) α} {k' : RF f' → Prog (Part.Answer RF Q) α}
    (hi : p.threads[i]? = some (job, .op (.prim f) k)) (hwrites : ∃ s, (G.handle f s).2 ≠ s)
    (hj : p.threads[j]? = some (job', .op (.prim f') k')) : j = i := by
  obtain ⟨m, hm, hreads⟩ := h.in_section hi
  obtain ⟨m', hm', -⟩ := h.in_section hj
  obtain ⟨s, hs⟩ := hwrites
  cases m with
  | shared => exact absurd (hreads rfl s) hs
  | exclusive =>
    by_contra hne
    cases (h.lock.writer_alone hm).2 j _ hne hm'

/-- A thread in a section can go on. -/
theorem inside_goes_on (h : G.Simulates I p q held) {i : ℕ} {m : Mode}
    (hm : held[i]? = some (some m)) : p.Enabled G.PartActs i := by
  have hlt : i < p.threads.length := h.length.1 ▸ (List.getElem?_eq_some_iff.mp hm).1
  obtain ⟨⟨job, part⟩, hi⟩ : ∃ t, p.threads[i]? = some t := ⟨_, List.getElem?_eq_getElem hlt⟩
  obtain ⟨whole, m', -, hm', done, now, -, -, hat⟩ := h.threads i job part hi
  rw [hm] at hm'
  cases hm'
  cases hat with
  | inside o k rest now hrest hreads =>
    cases rest with
    | ret r => exact ⟨job, .release (G.mode o), _, (), _, hi, rfl⟩
    | op f k' => exact ⟨job, .prim f, _, _, _, hi, rfl, rfl⟩

/-- No deadlock: where a thread has not returned and is not outside, some thread can go on. -/
theorem progress (h : G.Simulates I p q held) {i : ℕ} {job : τ} {o : Part F W}
    {k : Part.Answer RF Q o → Prog (Part.Answer RF Q) α} (hi : p.threads[i]? = some (job, .op o k))
    (hout : ∀ w, o ≠ .out w) : ∃ j, p.Enabled G.PartActs j := by
  -- Either some thread is in a section, or the lock is free.
  by_cases hheld : ∃ (j : ℕ) (m : Mode), held[j]? = some (some m)
  · obtain ⟨j, m, hm⟩ := hheld
    exact ⟨j, h.inside_goes_on hm⟩
  · have hnone : ∀ m : Mode, held.count (some m) = 0 := by
      intro m
      rw [List.count_eq_zero]
      intro hmem
      obtain ⟨j, hj⟩ := List.mem_iff_getElem?.mp hmem
      exact hheld ⟨j, m, hj⟩
    have hreaders : p.shared.lock.readers = 0 := h.lock.readers.symm.trans (hnone .shared)
    have hwriter : p.shared.lock.writer = false :=
      Bool.toNat_eq_zero.mp (h.lock.writer.symm.trans (hnone .exclusive))
    cases o with
    | acquire m =>
      have hfree : p.shared.lock.Free m := by
        cases m with
        | shared => exact hwriter
        | exclusive => exact ⟨hwriter, hreaders⟩
      exact ⟨i, job, .acquire m, k, (), _, hi, hfree, rfl⟩
    | release m => exact ⟨i, job, .release m, k, (), _, hi, rfl⟩
    | prim f => exact ⟨i, job, .prim f, k, _, _, hi, rfl, rfl⟩
    | out w => exact absurd rfl (hout w)

end Guarded.Simulates

/-- Two empty pools. -/
theorem Guarded.simulates_start (G : Guarded RF R σ κ) {I : σ → Prop} {data : σ} (hI : I data)
    (counters : κ) :
    G.Simulates I ({ shared := { data := data, counters := counters } } :
      Pool (Part.Answer RF Q) τ α (Locked σ κ))
      ({ shared := data } : Pool (Whole.Answer R Q) τ α σ) [] where
  length := ⟨rfl, rfl⟩
  owned := ⟨by simp, by simp⟩
  threads i job part hi := by simp at hi
  lock := ⟨rfl, rfl, fun _ => rfl⟩
  data _ := rfl
  inv := hI
  outs := rfl

end Simulation

end Lib.Interaction
