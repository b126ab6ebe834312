import ForwardProxy.Lib.Recency

/-!
# Maps of different capacity

Two least-recently-used maps that are asked the same operations differ only in their capacity. The
entries of the smaller are then always among those of the larger, in the same order (`Covered`), so
the larger finds whatever the smaller finds and drops an entry only where the smaller drops one. A
`Tally` counts what a map has found, missed, and dropped since the last `reset`.
-/

namespace Lib.Recency

variable {K V : Type*} [DecidableEq K]

/-! ## Counting -/

/-- What a run has counted. -/
structure Tally where
  hits : ℕ := 0
  misses : ℕ := 0
  evictions : ℕ := 0

/-- A `put` drops an entry where its key is new and the map is full. -/
def Lru.evicts (c : Lru K V) (k : K) : Bool :=
  (c.entries.lookup k).isNone && decide (c.capacity ≤ c.entries.length)

/-- What an operation adds to the counts. -/
def Lru.count (c : Lru K V) (t : Tally) : Op K V → Tally
  | .get k =>
    if (c.entries.lookup k).isSome then { t with hits := t.hits + 1 }
    else { t with misses := t.misses + 1 }
  | .put k _ => if c.evicts k then { t with evictions := t.evictions + 1 } else t
  | .erase _ => t
  | .reset => {}

/-- The counts after a sequence of operations. -/
def Lru.tally (c : Lru K V) (t : Tally) : List (Op K V) → Tally
  | [] => t
  | op :: ops => (c.step op).2.tally (c.count t op) ops

/-! ## The smaller map is part of the larger -/

/-- With one entry for each key, removing a key that is there removes one entry. -/
theorem length_remove_add_one {k : K} {l : List (K × V)} (hl : (l.map Prod.fst).Nodup)
    (h : k ∈ l.map Prod.fst) : (remove k l).length + 1 = l.length := by
  induction l with
  | nil => simp at h
  | cons e l ih =>
    rw [List.map_cons, List.nodup_cons] at hl
    by_cases he : e.1 = k
    · subst he
      rw [remove, List.filter_cons_of_neg (by simp), ← remove, remove_of_notMem hl.1,
        List.length_cons]
    · rw [List.map_cons, List.mem_cons] at h
      rw [remove, List.filter_cons_of_pos (by simpa using he), ← remove, List.length_cons,
        List.length_cons, ih hl.2 (h.resolve_left (Ne.symm he))]

/-- A sublist stays one when both lists are cut at the end, the sublist by no less. -/
theorem take_sublist_take {α : Type*} {a b : List α} (h : a.Sublist b) {m n : ℕ}
    (hcut : m + b.length ≤ n + a.length) : (a.take m).Sublist (b.take n) := by
  have hlen := h.length_le
  obtain ⟨d, hd⟩ : ∃ d, a.length - m = b.length - n + d :=
    ⟨a.length - m - (b.length - n), by omega⟩
  -- Reversed, it is the front that is cut.
  have hrev : ((a.reverse.drop (b.length - n)).drop d).Sublist (b.reverse.drop (b.length - n)) :=
    (List.drop_sublist _ _).trans (h.reverse.drop _)
  rw [List.drop_drop, ← hd, List.drop_reverse, List.drop_reverse] at hrev
  have htake : ∀ (l : List α) (i : ℕ), l.take (l.length - (l.length - i)) = l.take i := by
    intro l i
    rcases Nat.le_total i l.length with hi | hi
    · rw [Nat.sub_sub_self hi]
    · rw [List.take_of_length_le hi, List.take_of_length_le (by omega)]
  rw [htake, htake] at hrev
  exact List.reverse_sublist.mp hrev

/-- The entries of `s` are among those of `l`, in their order, and `s` has no more free room. -/
structure Lru.Covered (s l : Lru K V) : Prop where
  entries : s.entries.Sublist l.entries
  room : s.capacity + l.entries.length ≤ l.capacity + s.entries.length

namespace Lru.Covered

variable {s l : Lru K V}

omit [DecidableEq K] in
/-- Of two empty caches the smaller is covered. -/
theorem empty {c c' : ℕ} (hc : 0 < c) (hc' : 0 < c') (h : c ≤ c') :
    (Lru.empty c hc : Lru K V).Covered (Lru.empty c' hc') :=
  ⟨List.Sublist.refl _, by simpa [Lru.empty] using h⟩

omit [DecidableEq K] in
/-- The keys of the smaller map are keys of the larger. -/
theorem mem (h : s.Covered l) {k : K} (hk : k ∈ s.entries.map Prod.fst) :
    k ∈ l.entries.map Prod.fst := (h.entries.map Prod.fst).subset hk

/-- What the smaller map finds, the larger finds. -/
theorem lookup (h : s.Covered l) {k : K} {v : V} (hv : s.entries.lookup k = some v) :
    l.entries.lookup k = some v :=
  lookup_of_mem l.nodup (h.entries.subset (mem_of_lookup hv))

/-- Removing a key from both keeps the entries of the one among those of the other. -/
theorem remove_sublist (h : s.Covered l) (k : K) :
    (Recency.remove k s.entries).Sublist (Recency.remove k l.entries) := h.entries.filter _

/-- Without the entry of `k` the smaller still has no more free room, since a key that is new to the
larger is new to the smaller. -/
theorem room_remove (h : s.Covered l) (k : K) :
    s.capacity + (Recency.remove k l.entries).length ≤
      l.capacity + (Recency.remove k s.entries).length := by
  have hroom := h.room
  by_cases hl : k ∈ l.entries.map Prod.fst
  · have hlenl := length_remove_add_one l.nodup hl
    by_cases hs : k ∈ s.entries.map Prod.fst
    · have hlens := length_remove_add_one s.nodup hs
      omega
    · rw [remove_of_notMem hs]
      omega
  · rw [remove_of_notMem hl, remove_of_notMem fun hs => hl (h.mem hs)]
    exact hroom

/-- A `put` into both keeps the smaller covered. -/
theorem put (h : s.Covered l) (k : K) (v : V) : (s.put k v).Covered (l.put k v) where
  entries := by
    have hroom := h.room_remove k
    apply take_sublist_take ((h.remove_sublist k).cons_cons _)
    rw [List.length_cons, List.length_cons]
    omega
  room := by
    have hroom := h.room_remove k
    show s.capacity + (insert l.capacity k v l.entries).length ≤
      l.capacity + (insert s.capacity k v s.entries).length
    rw [insert, insert, List.length_take, List.length_take, List.length_cons, List.length_cons]
    omega

/-- A `get` of both keeps the smaller covered. -/
theorem get (h : s.Covered l) (k : K) : (s.get k).2.Covered (l.get k).2 := by
  have hroom := h.room
  have hget : ∀ (c : Lru K V), (c.get k).2.entries = touch k c.entries := fun c => rfl
  cases hs : s.entries.lookup k with
  | some v =>
    -- Both find the entry and move it to the front.
    have hl := h.lookup hs
    have hk : k ∈ s.entries.map Prod.fst := List.mem_map_of_mem (mem_of_lookup hs)
    have hlens := length_remove_add_one s.nodup hk
    have hlenl := length_remove_add_one l.nodup (h.mem hk)
    constructor
    · simp only [hget, touch, hs, hl]
      exact (h.remove_sublist k).cons_cons _
    · show s.capacity + (touch k l.entries).length ≤ l.capacity + (touch k s.entries).length
      simp only [touch, hs, hl, List.length_cons]
      omega
  | none =>
    have hnone := lookup_eq_none_iff.mp hs
    have htouch : touch k s.entries = s.entries := by simp [touch, hs]
    constructor
    · rw [hget, hget, htouch]
      cases hl : l.entries.lookup k with
      | none => simpa [touch, hl] using h.entries
      | some v =>
        -- The larger moves an entry that the smaller does not have.
        have hsub := h.remove_sublist k
        rw [remove_of_notMem hnone] at hsub
        simpa [touch, hl] using hsub.cons (k, v)
    · show s.capacity + (touch k l.entries).length ≤ l.capacity + (touch k s.entries).length
      have hle := length_touch_le k l.entries
      rw [htouch]
      omega

/-- An `erase` in both keeps the smaller covered. -/
theorem erase (h : s.Covered l) (k : K) : (s.erase k).2.Covered (l.erase k).2 :=
  ⟨h.remove_sublist k, h.room_remove k⟩

/-- Any step of both keeps the smaller covered. -/
theorem step (h : s.Covered l) (hcap : s.capacity ≤ l.capacity) (op : Op K V) :
    (s.step op).2.Covered (l.step op).2 := by
  cases op with
  | get k => exact h.get k
  | put k v => exact h.put k v
  | erase k => exact h.erase k
  | reset => exact empty _ _ hcap

/-- The larger map drops an entry only where the smaller drops one. -/
theorem evicts (h : s.Covered l) {k : K} (hk : l.evicts k = true) : s.evicts k = true := by
  simp only [Lru.evicts, Bool.and_eq_true, Option.isNone_iff_eq_none, decide_eq_true_eq,
    lookup_eq_none_iff] at hk ⊢
  have hroom := h.room
  exact ⟨fun hs => hk.1 (h.mem hs), by omega⟩

/-- The larger map goes on to have no fewer hits and no more evictions. -/
theorem count (h : s.Covered l) {ts tl : Tally} (hhits : ts.hits ≤ tl.hits)
    (hevictions : tl.evictions ≤ ts.evictions) (op : Op K V) :
    (s.count ts op).hits ≤ (l.count tl op).hits ∧
      (l.count tl op).evictions ≤ (s.count ts op).evictions := by
  cases op with
  | get k =>
    cases hs : s.entries.lookup k with
    | some v => simp [Lru.count, hs, h.lookup hs, hhits, hevictions]
    | none =>
      simp only [Lru.count, hs, Option.isSome_none, Bool.false_eq_true, if_false]
      split
      · exact ⟨Nat.le_succ_of_le hhits, hevictions⟩
      · exact ⟨hhits, hevictions⟩
  | put k v =>
    simp only [Lru.count]
    by_cases hl : l.evicts k = true
    · simp [hl, h.evicts hl, hhits, hevictions]
    · rw [if_neg hl]
      split
      · exact ⟨hhits, Nat.le_succ_of_le hevictions⟩
      · exact ⟨hhits, hevictions⟩
  | erase k => exact ⟨hhits, hevictions⟩
  | reset => exact ⟨le_refl _, le_refl _⟩

/-- The smaller map is part of the larger after every run. -/
theorem run (h : s.Covered l) (hcap : s.capacity ≤ l.capacity) (hist hist' : List (Event K V))
    (ops : List (Op K V)) : (s.run hist ops).2.Covered (l.run hist' ops).2 := by
  induction ops generalizing s l hist hist' with
  | nil => exact h
  | cons op ops ih =>
    have hstep : (s.step op).2.capacity ≤ (l.step op).2.capacity := by cases op <;> exact hcap
    exact ih (h.step hcap op) hstep _ _

/-- And the larger has found as much and dropped as little. -/
theorem tally (h : s.Covered l) (hcap : s.capacity ≤ l.capacity) (ts tl : Tally)
    (hhits : ts.hits ≤ tl.hits) (hevictions : tl.evictions ≤ ts.evictions) (ops : List (Op K V)) :
    (s.tally ts ops).hits ≤ (l.tally tl ops).hits ∧
      (l.tally tl ops).evictions ≤ (s.tally ts ops).evictions := by
  induction ops generalizing s l ts tl with
  | nil => exact ⟨hhits, hevictions⟩
  | cons op ops ih =>
    have hstep : (s.step op).2.capacity ≤ (l.step op).2.capacity := by cases op <;> exact hcap
    obtain ⟨hhits', hevictions'⟩ := h.count hhits hevictions op
    exact ih (h.step hcap op) hstep _ _ hhits' hevictions'

end Lru.Covered

end Lib.Recency
