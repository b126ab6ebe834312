import ForwardProxy.Cache.History

/-!
# What the counters of the cache count

The counters of an `LRUCache` against the calls of a run since its last `reset`: every `get` is a
hit or a miss, and every key that a `put` brought in was evicted, erased, or is still there
(`counters_after`). A `put` evicts where it needs the room (`put_cases`).
-/

namespace ForwardProxy.LRUCache

open Lib.Recency (Op)

variable {K V : Type} [DecidableEq K]

/-- The keys of the nodes, in order of use. -/
def keys (c : LRUCache K V) : List K := c.items.map Node.key

/-- The calls since the last `reset`: those of `get`, those of `put` while their key was absent, and
those of `erase` that returned true. -/
structure Calls where
  gets : ℕ := 0
  inserted : ℕ := 0
  erased : ℕ := 0

/-- The calls once the cache `c` has done an operation. -/
def Calls.count (t : Calls) (c : LRUCache K V) : Op K V → Calls
  | .get _ => { t with gets := t.gets + 1 }
  | .put k _ => if k ∈ c.keys then t else { t with inserted := t.inserted + 1 }
  | .erase k => if (c.erase k).1 then { t with erased := t.erased + 1 } else t
  | .reset => {}

/-- The calls of a run from `c`. -/
def Calls.run (t : Calls) (c : LRUCache K V) : List (Op K V) → Calls
  | [] => t
  | op :: ops => (t.count c op).run (c.step op).2 ops

/-- The calls of a run from a new cache. -/
def callsOf (cap : ℕ) (ops : List (Op K V)) : Calls := Calls.run {} (new cap) ops

/-! ## What one operation does to the keys and the counters -/

omit [DecidableEq K] in
/-- There are as many keys as entries. -/
theorem length_keys (c : LRUCache K V) : c.keys.length = c.size := by
  simp [keys, size]

/-- The map lacks a key exactly when no node has it. -/
theorem lookup_eq_none_iff {c : LRUCache K V} (h : c.Wf) {k : K} :
    c.index.lookup k = none ↔ k ∉ c.keys := by
  constructor
  · intro hnone hmem
    obtain ⟨n, hn, hkey⟩ := List.mem_map.mp hmem
    exact h.key_notMem hnone n hn hkey
  · intro hmem
    cases hit : c.index.lookup k with
    | none => rfl
    | some it =>
      obtain ⟨n, hn, hkey, -⟩ := h.exists_node hit
      exact absurd (List.mem_map.mpr ⟨n, hn, hkey⟩) hmem

/-- A `put` updates a key that is there, or else it puts the key before the others, of which it
drops the last if they fill the cache. -/
theorem put_cases {c : LRUCache K V} (h : c.Wf) (k : K) (v : V) :
    (k ∈ c.keys ∧ (c.put k v).keys.Perm c.keys ∧ (c.put k v).evictions = c.evictions) ∨
      (k ∉ c.keys ∧ c.size < c.capacity ∧ (c.put k v).keys = k :: c.keys ∧
        (c.put k v).evictions = c.evictions) ∨
      (k ∉ c.keys ∧ c.size = c.capacity ∧ (c.put k v).keys = k :: c.keys.dropLast ∧
        (c.put k v).evictions = c.evictions + 1) := by
  cases hit : c.index.lookup k with
  | some it =>
    obtain ⟨n, hn, rfl, rfl⟩ := h.exists_node hit
    -- The key is there: its node gets the value and comes to the front.
    have hput : c.put n.key v = { c with items := splice (c.items.map fun m =>
        if m.id = n.id then { m with value := v } else m) n.id } := by
      rw [put, hit]
    have hperm := (splice_update_perm h.ids_nodup hn v).map Prod.fst
    simp only [List.map_map] at hperm
    rw [hput]
    exact Or.inl ⟨List.mem_map_of_mem hn, hperm, rfl⟩
  | none =>
    have hmem := (lookup_eq_none_iff h).mp hit
    have hput : c.put k v = c.makeRoom.pushFront k v := by rw [put, hit]
    have hle := h.length_le
    refine Or.inr ?_
    rw [hput]
    by_cases hfull : c.capacity ≤ c.items.length
    · -- The list is not empty, so it has a back node to drop.
      have hpos := h.capacity_pos
      have hne : c.items ≠ [] := List.ne_nil_of_length_pos (by omega)
      have hroom : c.makeRoom = { c with
          index := c.index.erase (c.items.getLast hne).key
          items := c.items.dropLast
          evictions := c.evictions + 1 } := by
        rw [makeRoom, if_pos hfull, List.getLast?_eq_some_getLast hne]
      refine Or.inr ⟨hmem, Nat.le_antisymm hle hfull, ?_, ?_⟩
      · rw [hroom, keys, keys, ← List.map_dropLast]
        rfl
      · rw [hroom]
        rfl
    -- There is room, and nothing is evicted.
    · have hroom : c.makeRoom = c := if_neg hfull
      rw [hroom]
      exact Or.inl ⟨hmem, Nat.lt_of_not_le hfull, rfl, rfl⟩

/-- A lookup keeps the keys, and no eviction is counted. -/
theorem keys_get {c : LRUCache K V} (h : c.Wf) (k : K) :
    (c.get k).2.keys.Perm c.keys ∧ (c.get k).2.evictions = c.evictions := by
  unfold get
  split
  · exact ⟨List.Perm.refl _, rfl⟩
  · rename_i it hit
    obtain ⟨n, hn, -, rfl⟩ := h.exists_node hit
    exact ⟨(splice_perm h.ids_nodup hn).map _, rfl⟩

/-- An `erase` that returns true takes one node out. -/
theorem size_erase {c : LRUCache K V} (h : c.Wf) (k : K) :
    (c.erase k).2.size + (if (c.erase k).1 then 1 else 0) = c.size ∧
      (c.erase k).2.evictions = c.evictions ∧ (c.erase k).2.hits = c.hits ∧
      (c.erase k).2.misses = c.misses := by
  unfold erase
  split
  · exact ⟨rfl, rfl, rfl, rfl⟩
  · rename_i it hit
    obtain ⟨n, hn, -, rfl⟩ := h.exists_node hit
    -- The nodes are the one erased and the others.
    have hlen := (splice_perm h.ids_nodup hn).length_eq
    rw [splice_of_mem h.ids_nodup hn, List.length_cons] at hlen
    exact ⟨hlen, rfl, rfl, rfl⟩

/-- The counters agree with the calls, as the 64-bit words that they are. -/
structure Accounts (c : LRUCache K V) (t : Calls) : Prop where
  lookups : c.hits + c.misses = UInt64.ofNat t.gets
  nodes : c.evictions + UInt64.ofNat c.size + UInt64.ofNat t.erased = UInt64.ofNat t.inserted

/-- A `get` is one more lookup. -/
theorem Accounts.get {c : LRUCache K V} {t : Calls} (ha : c.Accounts t) (h : c.Wf) (k : K) :
    (c.get k).2.Accounts { t with gets := t.gets + 1 } := by
  obtain ⟨hhits, hmisses⟩ := counters_get h k
  obtain ⟨hkeys, hevictions⟩ := keys_get h k
  have hsize : (c.get k).2.size = c.size := by
    rw [← length_keys, ← length_keys, hkeys.length_eq]
  constructor
  · rw [hhits, hmisses, UInt64.ofNat_add, ← ha.lookups]
    split <;> grind
  · rw [hevictions, hsize]
    exact ha.nodes

/-- A `put` of an absent key adds a node, or an eviction. -/
theorem Accounts.put {c : LRUCache K V} {t : Calls} (ha : c.Accounts t) (h : c.Wf) (k : K) (v : V) :
    (c.put k v).Accounts (if k ∈ c.keys then t else { t with inserted := t.inserted + 1 }) := by
  obtain ⟨hhits, hmisses⟩ := counters_put c k v
  have hlookups : (c.put k v).hits + (c.put k v).misses = UInt64.ofNat t.gets := by
    rw [hhits, hmisses]
    exact ha.lookups
  have hnodes := ha.nodes
  rcases put_cases h k v with ⟨hmem, hkeys, hev⟩ | ⟨hmem, -, hkeys, hev⟩ | ⟨hmem, hfull, hkeys, hev⟩
  · rw [if_pos hmem]
    have hsize : (c.put k v).size = c.size := by
      rw [← length_keys, ← length_keys, hkeys.length_eq]
    exact ⟨hlookups, by rw [hev, hsize]; exact hnodes⟩
  · rw [if_neg hmem]
    have hsize : (c.put k v).size = c.size + 1 := by
      rw [← length_keys, ← length_keys, hkeys, List.length_cons]
    refine ⟨hlookups, ?_⟩
    rw [hev, hsize, UInt64.ofNat_add, UInt64.ofNat_add, ← hnodes]
    grind
  · rw [if_neg hmem]
    have hsize : (c.put k v).size = c.size := by
      have hpos := h.capacity_pos
      rw [← length_keys, hkeys, List.length_cons, List.length_dropLast, length_keys]
      omega
    refine ⟨hlookups, ?_⟩
    rw [hev, hsize, UInt64.ofNat_add, ← hnodes]
    grind

/-- An `erase` that finds its key is one more entry erased. -/
theorem Accounts.erase {c : LRUCache K V} {t : Calls} (ha : c.Accounts t) (h : c.Wf) (k : K) :
    (c.erase k).2.Accounts (if (c.erase k).1 then { t with erased := t.erased + 1 } else t) := by
  obtain ⟨hsize, hev, hhits, hmisses⟩ := size_erase h k
  have hlookups : (c.erase k).2.hits + (c.erase k).2.misses = UInt64.ofNat t.gets := by
    rw [hhits, hmisses]
    exact ha.lookups
  have hnodes := ha.nodes
  split
  · rename_i hfound
    rw [if_pos hfound] at hsize
    refine ⟨hlookups, ?_⟩
    rw [← hsize, UInt64.ofNat_add] at hnodes
    rw [hev, UInt64.ofNat_add, ← hnodes]
    grind
  · rename_i hfound
    rw [if_neg hfound] at hsize
    refine ⟨hlookups, ?_⟩
    rw [hev, ← hnodes, ← hsize, Nat.add_zero]

/-- Every operation keeps the counters in agreement with the calls. -/
theorem Accounts.step {c : LRUCache K V} {t : Calls} (ha : c.Accounts t) (h : c.Wf) (op : Op K V) :
    (c.step op).2.Accounts (t.count c op) := by
  cases op with
  | get k => exact ha.get h k
  | put k v => exact ha.put h k v
  | erase k => exact ha.erase h k
  | reset => exact ⟨rfl, rfl⟩

/-- And so does every run. -/
theorem Accounts.run {c : LRUCache K V} {t : Calls} (ha : c.Accounts t) (h : c.Wf)
    (hist : List (Lib.Recency.Event K V)) (ops : List (Op K V)) :
    (c.run hist ops).2.Accounts (t.run c ops) := by
  induction ops generalizing c t hist with
  | nil => exact ha
  | cons op ops ih => exact ih (ha.step h op) (step_wf h op) _

/-- A `put` drops a key exactly when its own is absent and the cache is full. -/
theorem put_drops_iff {c : LRUCache K V} (h : c.Wf) (k : K) (v : V) :
    (∃ j ∈ c.keys, j ∉ (c.put k v).keys) ↔ k ∉ c.keys ∧ c.size = c.capacity := by
  rcases put_cases h k v with ⟨hmem, hkeys, -⟩ | ⟨hmem, hroom, hkeys, -⟩ | ⟨hmem, hfull, hkeys, -⟩
  · constructor
    · rintro ⟨j, hj, hdropped⟩
      exact absurd (hkeys.mem_iff.mpr hj) hdropped
    · rintro ⟨habsent, -⟩
      exact absurd hmem habsent
  · constructor
    · rintro ⟨j, hj, hdropped⟩
      rw [hkeys] at hdropped
      exact absurd (List.mem_cons_of_mem k hj) hdropped
    · rintro ⟨-, hfull⟩
      omega
  · refine ⟨fun _ => ⟨hmem, hfull⟩, fun _ => ?_⟩
    have hpos := h.capacity_pos
    have hne : c.keys ≠ [] := List.ne_nil_of_length_pos (by rw [length_keys]; omega)
    -- The last key is no other key, and not the one that is put.
    have hsplit := List.dropLast_append_getLast hne
    have hlast := List.getLast_mem hne
    have hnodup : (c.keys.dropLast ++ [c.keys.getLast hne]).Nodup := by
      rw [hsplit]
      exact h.keys_nodup
    refine ⟨c.keys.getLast hne, hlast, ?_⟩
    rw [hkeys, List.mem_cons]
    rintro (heq | hother)
    · exact hmem (heq ▸ hlast)
    · exact (List.nodup_append.mp hnodup).2.2 _ hother _ (by simp) rfl

/-- After any run the hits and misses are the calls of `get` since the last `reset`, and what was
evicted, what is there, and what was erased are the calls of `put` whose key was absent. The next
`put` evicts exactly when its key is absent and the cache is full, so it is never over-full. -/
theorem counters_after (cap : ℕ) (ops : List (Op K V)) :
    (after cap ops).hits + (after cap ops).misses = UInt64.ofNat (callsOf cap ops).gets ∧
      (after cap ops).evictions + UInt64.ofNat (after cap ops).size +
        UInt64.ofNat (callsOf cap ops).erased = UInt64.ofNat (callsOf cap ops).inserted ∧
      (after cap ops).size ≤ (after cap ops).capacity ∧
      ∀ k v,
        ((∃ j ∈ (after cap ops).keys, j ∉ ((after cap ops).put k v).keys) ↔
          k ∉ (after cap ops).keys ∧ (after cap ops).size = (after cap ops).capacity) ∧
        ((after cap ops).put k v).evictions = (after cap ops).evictions +
          if k ∉ (after cap ops).keys ∧ (after cap ops).size = (after cap ops).capacity then 1
          else 0 := by
  have h : (after cap ops).Wf := after_wf cap ops
  have hnew : (new cap : LRUCache K V).Accounts {} := ⟨rfl, rfl⟩
  obtain ⟨hlookups, hnodes⟩ := hnew.run (new_wf cap) [] ops
  refine ⟨hlookups, hnodes, h.length_le, fun k v => ⟨put_drops_iff h k v, ?_⟩⟩
  rcases put_cases h k v with ⟨hmem, -, hev⟩ | ⟨hmem, hroom, -, hev⟩ | ⟨hmem, hfull, -, hev⟩
  · rw [hev, if_neg fun hc => hc.1 hmem, UInt64.add_zero]
  · rw [hev, if_neg fun hc => hroom.ne hc.2, UInt64.add_zero]
  · rw [hev, if_pos ⟨hmem, hfull⟩]

end ForwardProxy.LRUCache
