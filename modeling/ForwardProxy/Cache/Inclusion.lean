import ForwardProxy.Cache.History
import ForwardProxy.Lib.Inclusion

/-!
# Caches of different capacity

An `LRUCache` of more capacity has, after the same operations, all that a smaller one has, in the
same order of use; it has found as much and has evicted no more (`more_capacity`). The counters of
the source are 64-bit words; `count` counts the same without a bound, and the words are its numbers
modulo `2^64` (`Counts`).
-/

namespace ForwardProxy.LRUCache

open Lib.Recency (Lru Op Event Tally)

variable {K V : Type} [DecidableEq K]

/-- Where the source increments a counter. -/
def count (c : LRUCache K V) (t : Tally) : Op K V → Tally
  | .get k =>
    match c.index.lookup k with
    | none => { t with misses := t.misses + 1 }
    | some _ => { t with hits := t.hits + 1 }
  | .put k _ =>
    match c.index.lookup k with
    | some _ => t
    | none => if c.capacity ≤ c.items.length then { t with evictions := t.evictions + 1 } else t
  | .erase _ => t
  | .reset => {}

/-- The counts after a sequence of operations, since the last `reset` among them. -/
def countAll (c : LRUCache K V) (t : Tally) : List (Op K V) → Tally
  | [] => t
  | op :: ops => (c.step op).2.countAll (c.count t op) ops

/-- The counters of a cache are the counts, as 64-bit words. -/
structure Counts (c : LRUCache K V) (t : Tally) : Prop where
  hits : c.hits = UInt64.ofNat t.hits
  misses : c.misses = UInt64.ofNat t.misses
  evictions : c.evictions = UInt64.ofNat t.evictions

/-- A counter counts one more. -/
theorem ofNat_succ (n : ℕ) : UInt64.ofNat n + 1 = UInt64.ofNat (n + 1) := by
  simp [UInt64.ofNat_add]

/-- Making room leaves all but the evictions as they are. -/
theorem makeRoom_counters {c : LRUCache K V} (h : c.Wf) :
    c.makeRoom.hits = c.hits ∧ c.makeRoom.misses = c.misses ∧ c.makeRoom.evictions =
      if c.capacity ≤ c.items.length then c.evictions + 1 else c.evictions := by
  unfold makeRoom
  split
  · rename_i hfull
    cases hlast : c.items.getLast? with
    | none =>
      -- A full list has a back node.
      rw [List.getLast?_eq_none_iff] at hlast
      have := h.capacity_pos
      simp [hlast] at hfull
      omega
    | some back => exact ⟨rfl, rfl, rfl⟩
  · exact ⟨rfl, rfl, rfl⟩

/-- An operation increments the counters as `count` says. -/
theorem Counts.step {c : LRUCache K V} {t : Tally} (hc : c.Counts t) (h : c.Wf) (op : Op K V) :
    (c.step op).2.Counts (c.count t op) := by
  obtain ⟨hhits, hmisses, hevictions⟩ := hc
  cases op with
  | get k =>
    simp only [LRUCache.step, get, count]
    cases c.index.lookup k with
    | none => exact ⟨hhits, by rw [hmisses, ofNat_succ], hevictions⟩
    | some it => exact ⟨by rw [hhits, ofNat_succ], hmisses, hevictions⟩
  | put k v =>
    obtain ⟨hroomHits, hroomMisses, hroomEvictions⟩ := makeRoom_counters h
    simp only [LRUCache.step, put, count]
    cases c.index.lookup k with
    | some it => exact ⟨hhits, hmisses, hevictions⟩
    | none =>
      -- The new node is not counted.
      by_cases hfull : c.capacity ≤ c.items.length
      · rw [if_pos hfull, hevictions, ofNat_succ] at hroomEvictions
        simp only [hfull, if_true]
        exact ⟨hroomHits.trans hhits, hroomMisses.trans hmisses, hroomEvictions⟩
      · rw [if_neg hfull, hevictions] at hroomEvictions
        simp only [hfull, if_false]
        exact ⟨hroomHits.trans hhits, hroomMisses.trans hmisses, hroomEvictions⟩
  | erase k =>
    simp only [LRUCache.step, erase, count]
    cases c.index.lookup k with
    | none => exact ⟨hhits, hmisses, hevictions⟩
    | some it => exact ⟨hhits, hmisses, hevictions⟩
  | reset => exact ⟨rfl, rfl, rfl⟩

/-- The counters of a cache count a run. -/
theorem Counts.run {c : LRUCache K V} {t : Tally} (hc : c.Counts t) (h : c.Wf)
    (hist : List (Event K V)) (ops : List (Op K V)) :
    (c.run hist ops).2.Counts (c.countAll t ops) := by
  induction ops generalizing c t hist with
  | nil => exact hc
  | cons op ops ih => exact ih (hc.step h op) (step_wf h op) _

/-- A key has an entry exactly where the map of the cache has it. -/
theorem isSome_lookup_entries {c : LRUCache K V} (h : c.Wf) (k : K) :
    (c.entries.lookup k).isSome = (c.index.lookup k).isSome := by
  cases hk : c.index.lookup k with
  | none =>
    rw [lookup_entries_of_none h hk]
    rfl
  | some it =>
    obtain ⟨n, hn, rfl, -⟩ := h.exists_node hk
    rw [lookup_entries_of_mem h hn]
    rfl

/-- The counts of a cache are those of the map that it stands for. -/
theorem Represents.count {c : LRUCache K V} {m : Lru K V} (h : c.Represents m) (t : Tally)
    (op : Op K V) : c.count t op = m.count t op := by
  obtain ⟨hw, rfl⟩ := h
  have hlookup := isSome_lookup_entries hw
  have hlength : (c.abs hw).entries.length = c.items.length := by
    show c.entries.length = _
    rw [entries, List.length_map]
  cases op with
  | get k =>
    have hk : ((c.abs hw).entries.lookup k).isSome = (c.index.lookup k).isSome := hlookup k
    simp only [LRUCache.count, Lru.count, hk]
    cases c.index.lookup k <;> rfl
  | put k v =>
    have hk : ((c.abs hw).entries.lookup k).isSome = (c.index.lookup k).isSome := hlookup k
    have hcapacity : (c.abs hw).capacity = c.capacity := rfl
    simp only [LRUCache.count, Lru.count, Lru.evicts, hlength, hcapacity, ← Option.not_isSome, hk]
    cases c.index.lookup k with
    | none => simp
    | some it => simp
  | erase k => rfl
  | reset => rfl

/-- A cache counts what the model counts. -/
theorem Represents.countAll {c : LRUCache K V} {m : Lru K V} (h : c.Represents m) (t : Tally)
    (ops : List (Op K V)) : c.countAll t ops = m.tally t ops := by
  induction ops generalizing c m t with
  | nil => rfl
  | cons op ops ih =>
    rw [LRUCache.countAll, Lru.tally, h.count]
    exact ih (h.step op).2 _

/-- The counts after a run from a new cache. -/
def counts (cap : ℕ) (ops : List (Op K V)) : Tally := (new cap).countAll {} ops

/-- After every run, a cache of more capacity has the entries of a smaller one among its own, in the
same order; it finds whatever the smaller finds, with the same value; and since the last `reset` it
has found no less and evicted no more. The counters of both are the counts modulo `2^64`. -/
theorem more_capacity {cap cap' : ℕ} (hcap : cap ≤ cap') (ops : List (Op K V)) :
    (after cap ops).entries.Sublist (after cap' ops).entries ∧
      (∀ k v, ((after cap ops).get k).1 = some v → ((after cap' ops).get k).1 = some v) ∧
      (counts cap ops).hits ≤ (counts cap' ops).hits ∧
      (counts cap' ops).evictions ≤ (counts cap ops).evictions ∧
      (after cap ops).Counts (counts cap ops) ∧ (after cap' ops).Counts (counts cap' ops) := by
  have hnew := new_represents (K := K) (V := V) cap
  have hnew' := new_represents (K := K) (V := V) cap'
  obtain ⟨-, hw, habs⟩ := hnew.run [] ops
  obtain ⟨-, hw', habs'⟩ := hnew'.run [] ops
  have hle : (new cap : LRUCache K V).capacity ≤ (new cap' : LRUCache K V).capacity := by
    show (if cap = 0 then 1 else cap) ≤ if cap' = 0 then 1 else cap'
    split <;> split <;> omega
  -- The maps that the two caches stand for start empty, the first with no more room.
  have hempty := Lru.Covered.empty (K := K) (V := V) (new_wf cap).capacity_pos
    (new_wf cap').capacity_pos hle
  have hcovered := hempty.run hle [] [] ops
  obtain ⟨hhits, hevictions⟩ := hempty.tally hle {} {} le_rfl le_rfl ops
  rw [← hnew.countAll, ← hnew'.countAll] at hhits hevictions
  rw [← habs, ← habs'] at hcovered
  have hzero : ∀ c, (new c : LRUCache K V).Counts {} := fun c => ⟨rfl, rfl, rfl⟩
  refine ⟨hcovered.entries, fun k v hv => ?_, hhits, hevictions,
    (hzero cap).run (new_wf cap) [] ops, (hzero cap').run (new_wf cap') [] ops⟩
  rw [after, fst_get hw] at hv
  rw [after, fst_get hw']
  exact hcovered.lookup hv

/-- A run in which the key that the smaller cache has dropped is still in the larger. -/
theorem more_capacity_two_three :
    let ops : List (Op ℕ Char) := [.put 1 'a', .put 2 'b', .put 3 'c', .get 1, .erase 2]
    (after 2 ops).entries = [(3, 'c')] ∧ (after 3 ops).entries = [(1, 'a'), (3, 'c')] ∧
      (after 2 ops).entries.Sublist (after 3 ops).entries := by
  intro ops
  exact ⟨by decide, by decide, (more_capacity (by decide) ops).1⟩

end ForwardProxy.LRUCache
