import Mathlib.Data.List.AList
import ForwardProxy.Lib.Recency

/-!
# The LRU cache

`LRUCache` of `lru_cache.hpp`: a list of nodes in order of use and a map from keys into it. An
iterator of the list is the identity of its node, which a `splice` does not change. `Wf` is what
relates the list and the map, every operation keeps it, and under it each operation is that of the
abstract map `Lib.Recency.Lru` (`abs_get`, `abs_put`, `abs_erase`).
-/

namespace ForwardProxy

open Lib.Recency (Lru Op Event)

/-- A node of the list, with the identity by which the map refers to it. -/
structure Node (K V : Type) where
  id : ℕ
  key : K
  value : V
  deriving DecidableEq

/-- `LRUCache`, whose list holds the entry that was used last at the front. -/
structure LRUCache (K V : Type) where
  capacity : ℕ
  /-- The front is the most recently used node, the back the least. -/
  items : List (Node K V) := []
  index : AList (fun _ : K => ℕ) := ∅
  /-- The identity of the next node. -/
  nextId : ℕ := 0
  hits : UInt64 := 0
  misses : UInt64 := 0
  evictions : UInt64 := 0

namespace LRUCache

variable {K V : Type} [DecidableEq K]

/-- The constructor, for which no capacity is one. -/
def new (cap : ℕ) : LRUCache K V := { capacity := if cap = 0 then 1 else cap }

/-- The node that an iterator designates. -/
def node (items : List (Node K V)) (it : ℕ) : Option (Node K V) := items.find? fun n => n.id = it

/-- `items_.splice(items_.begin(), items_, it)`. -/
def splice (items : List (Node K V)) (it : ℕ) : List (Node K V) :=
  (node items it).toList ++ items.filter fun n => n.id ≠ it

/-- `get`. -/
def get (c : LRUCache K V) (key : K) : Option V × LRUCache K V :=
  match c.index.lookup key with
  | none => (none, { c with misses := c.misses + 1 })
  | some it =>
    ((node c.items it).map fun n => n.value,
      { c with hits := c.hits + 1, items := splice c.items it })

/-- The eviction of `put`: a full list gives up its back node, in the map first. -/
def makeRoom (c : LRUCache K V) : LRUCache K V :=
  if c.capacity ≤ c.items.length then
    match c.items.getLast? with
    | some back =>
      { c with
        index := c.index.erase back.key
        items := c.items.dropLast
        evictions := c.evictions + 1 }
    | none => c
  else c

/-- A new node at the front, and its key in the map. -/
def pushFront (c : LRUCache K V) (key : K) (value : V) : LRUCache K V :=
  { c with
    items := ⟨c.nextId, key, value⟩ :: c.items
    index := c.index.insert key c.nextId
    nextId := c.nextId + 1 }

/-- `put`. -/
def put (c : LRUCache K V) (key : K) (value : V) : LRUCache K V :=
  match c.index.lookup key with
  | some it =>
    let items := c.items.map fun n => if n.id = it then { n with value := value } else n
    { c with items := splice items it }
  | none => c.makeRoom.pushFront key value

/-- `erase`. -/
def erase (c : LRUCache K V) (key : K) : Bool × LRUCache K V :=
  match c.index.lookup key with
  | none => (false, c)
  | some it =>
    (true, { c with items := c.items.filter fun n => n.id ≠ it, index := c.index.erase key })

/-- `size`. -/
def size (c : LRUCache K V) : ℕ := c.items.length

/-- `Stats`, without the hit rate that is computed from it in floating point. -/
@[ext]
structure Stats where
  hits : UInt64 := 0
  misses : UInt64 := 0
  evictions : UInt64 := 0
  size : ℕ := 0

/-- `stats`. -/
def stats (c : LRUCache K V) : Stats := ⟨c.hits, c.misses, c.evictions, c.size⟩

/-- `reset`. -/
def reset (c : LRUCache K V) : LRUCache K V :=
  { c with items := [], index := ∅, hits := 0, misses := 0, evictions := 0 }

/-- One operation, and the event it is. -/
def step (c : LRUCache K V) : Op K V → Event K V × LRUCache K V
  | .get k => (.get k (c.get k).1, (c.get k).2)
  | .put k v => (.put k v, c.put k v)
  | .erase k => (.erase k (c.erase k).1, (c.erase k).2)
  | .reset => (.reset, c.reset)

/-- A sequence of operations, with the history that they add to `h`, the latest event first. -/
def run (c : LRUCache K V) (h : List (Event K V)) : List (Op K V) →
    List (Event K V) × LRUCache K V
  | [] => (h, c)
  | op :: ops => (c.step op).2.run ((c.step op).1 :: h) ops

/-! ## The invariant -/

/-- The list and the map agree: keys and identities of nodes are different, the map has exactly the
keys of the nodes and designates for each the node that has it, and the list is not too long. -/
structure Wf (c : LRUCache K V) : Prop where
  capacity_pos : 0 < c.capacity
  keys_nodup : (c.items.map Node.key).Nodup
  ids_nodup : (c.items.map Node.id).Nodup
  index_iff : ∀ k i, c.index.lookup k = some i ↔ ∃ n ∈ c.items, n.key = k ∧ n.id = i
  fresh : ∀ n ∈ c.items, n.id < c.nextId
  length_le : c.items.length ≤ c.capacity

/-- A new cache is well formed. -/
theorem new_wf (cap : ℕ) : (new cap : LRUCache K V).Wf where
  capacity_pos := by
    show 0 < if cap = 0 then 1 else cap
    split <;> omega
  keys_nodup := by simp [new]
  ids_nodup := by simp [new]
  index_iff := by simp [new]
  fresh := by simp [new]
  length_le := by simp [new]

omit [DecidableEq K] in
/-- Different nodes have different identities. -/
theorem eq_of_id_eq {items : List (Node K V)} (h : (items.map Node.id).Nodup) {m n : Node K V}
    (hm : m ∈ items) (hn : n ∈ items) (hid : m.id = n.id) : m = n :=
  List.inj_on_of_nodup_map h hm hn hid

omit [DecidableEq K] in
/-- Of entries with different keys the key tells which one it is. -/
theorem eq_of_key_eq {items : List (Node K V)} (h : (items.map Node.key).Nodup) {m n : Node K V}
    (hm : m ∈ items) (hn : n ∈ items) (hkey : m.key = n.key) : m = n :=
  List.inj_on_of_nodup_map h hm hn hkey

omit [DecidableEq K] in
/-- The iterator of a node designates the node. -/
theorem node_of_mem {items : List (Node K V)} (h : (items.map Node.id).Nodup) {n : Node K V}
    (hn : n ∈ items) : node items n.id = some n := by
  unfold node
  cases hf : items.find? fun m => m.id = n.id with
  | none =>
    have := List.find?_eq_none.mp hf n hn
    simp at this
  | some m =>
    have hid := List.find?_some hf
    simp only [decide_eq_true_eq] at hid
    rw [eq_of_id_eq h (List.mem_of_find?_eq_some hf) hn hid]

omit [DecidableEq K] in
/-- Where a node is in the list, `splice` puts it before the others. -/
theorem splice_of_mem {items : List (Node K V)} (h : (items.map Node.id).Nodup) {n : Node K V}
    (hn : n ∈ items) : splice items n.id = n :: items.filter fun m => m.id ≠ n.id := by
  simp [splice, node_of_mem h hn]

/-- Under the invariant, a key that the map has is that of a node, and the map designates it. -/
theorem Wf.exists_node {c : LRUCache K V} (h : c.Wf) {k : K} {it : ℕ}
    (hit : c.index.lookup k = some it) : ∃ n ∈ c.items, n.key = k ∧ n.id = it :=
  (h.index_iff k it).mp hit

/-- A key that the map lacks is that of no node. -/
theorem Wf.key_notMem {c : LRUCache K V} (h : c.Wf) {k : K} (hk : c.index.lookup k = none) :
    ∀ n ∈ c.items, n.key ≠ k := by
  intro n hn hkey
  have := (h.index_iff k n.id).mpr ⟨n, hn, hkey, rfl⟩
  rw [hk] at this
  cases this

omit [DecidableEq K] in
/-- Moving a node to the front keeps the nodes. -/
theorem splice_perm {items : List (Node K V)} (h : (items.map Node.id).Nodup) {n : Node K V}
    (hn : n ∈ items) : (splice items n.id).Perm items := by
  rw [splice_of_mem h hn]
  have hitems : items.Nodup := List.Nodup.of_map _ h
  have hfront : (n :: items.filter fun m => m.id ≠ n.id).Nodup := by
    rw [List.nodup_cons]
    exact ⟨by simp, hitems.filter _⟩
  rw [List.perm_ext_iff_of_nodup hfront hitems]
  intro m
  rw [List.mem_cons, List.mem_filter]
  constructor
  · rintro (rfl | ⟨hm, -⟩)
    · exact hn
    · exact hm
  · intro hm
    by_cases hid : m.id = n.id
    · exact Or.inl (eq_of_id_eq h hm hn hid)
    · exact Or.inr ⟨hm, by simpa using hid⟩

/-- The invariant does not look at the order of the nodes, at the counters, or at the values. -/
theorem Wf.congr {c d : LRUCache K V} (h : c.Wf) (hcap : d.capacity = c.capacity)
    (hindex : d.index = c.index) (hnext : d.nextId = c.nextId)
    (hitems : (d.items.map fun n => (n.key, n.id)).Perm (c.items.map fun n => (n.key, n.id))) :
    d.Wf := by
  have hmem : ∀ k i, (∃ n ∈ d.items, n.key = k ∧ n.id = i) ↔
      ∃ n ∈ c.items, n.key = k ∧ n.id = i := by
    intro k i
    have := hitems.mem_iff (a := (k, i))
    simpa only [List.mem_map, Prod.mk.injEq] using this
  constructor
  · rw [hcap]; exact h.capacity_pos
  · have hkeys := (hitems.map Prod.fst).nodup_iff
    simp only [List.map_map] at hkeys
    exact hkeys.mpr h.keys_nodup
  · have hids := (hitems.map Prod.snd).nodup_iff
    simp only [List.map_map] at hids
    exact hids.mpr h.ids_nodup
  · intro k i
    rw [hindex, hmem]
    exact h.index_iff k i
  · intro n hn
    obtain ⟨m, hm, -, hid⟩ := (hmem n.key n.id).mp ⟨n, hn, rfl, rfl⟩
    rw [hnext, ← hid]
    exact h.fresh m hm
  · have hlen := hitems.length_eq
    simp only [List.length_map] at hlen
    rw [hlen, hcap]
    exact h.length_le

/-- `get` keeps a cache well formed. -/
theorem get_wf {c : LRUCache K V} (h : c.Wf) (key : K) : (c.get key).2.Wf := by
  unfold get
  split
  · exact h.congr rfl rfl rfl (List.Perm.refl _)
  · rename_i it hit
    obtain ⟨n, hn, -, rfl⟩ := h.exists_node hit
    exact h.congr rfl rfl rfl ((splice_perm h.ids_nodup hn).map _)

/-- `makeRoom` leaves the invariant, room for one more node, and no key that was not there. -/
theorem makeRoom_wf {c : LRUCache K V} (h : c.Wf) :
    c.makeRoom.Wf ∧ c.makeRoom.items.length < c.makeRoom.capacity ∧
      ∀ k, c.index.lookup k = none → c.makeRoom.index.lookup k = none := by
  unfold makeRoom
  split
  · rename_i hfull
    cases hlast : c.items.getLast? with
    | none =>
      rw [List.getLast?_eq_none_iff] at hlast
      have := h.capacity_pos
      simp [hlast] at hfull
      omega
    | some back =>
      have hsplit : c.items = c.items.dropLast ++ [back] :=
        (List.dropLast_append_getLast? back hlast).symm
      have hkeys := h.keys_nodup
      have hids := h.ids_nodup
      rw [hsplit, List.map_append] at hkeys hids
      -- No other node has the key of the back node, so the map loses one key as the list does.
      have hback : ∀ n ∈ c.items.dropLast, n.key ≠ back.key := by
        intro n hn heq
        have hdisj := (List.nodup_append.mp hkeys).2.2
        exact hdisj n.key (List.mem_map_of_mem hn) back.key (by simp) heq
      -- The map has lost the one key of the node that the list has lost.
      have hpos := h.capacity_pos
      refine ⟨⟨hpos, (List.nodup_append.mp hkeys).1, (List.nodup_append.mp hids).1, ?_, ?_, ?_⟩,
        ?_, ?_⟩
      · intro k i
        dsimp only
        by_cases hk : k = back.key
        · subst hk
          rw [AList.lookup_erase]
          constructor
          · intro hnone; cases hnone
          · rintro ⟨n, hn, hkey, -⟩
            exact absurd hkey (hback n hn)
        · rw [AList.lookup_erase_ne hk, h.index_iff]
          constructor
          · rintro ⟨n, hn, hkey, hid⟩
            rw [hsplit, List.mem_append, List.mem_singleton] at hn
            rcases hn with hn | rfl
            · exact ⟨n, hn, hkey, hid⟩
            · exact absurd hkey.symm hk
          · rintro ⟨n, hn, hkey, hid⟩
            exact ⟨n, List.mem_of_mem_dropLast hn, hkey, hid⟩
      · exact fun n hn => h.fresh n (List.mem_of_mem_dropLast hn)
      · have := h.length_le
        simp only [List.length_dropLast]
        omega
      · have := h.length_le
        simp only [List.length_dropLast]
        omega
      · intro k hk
        dsimp only
        by_cases hkey : k = back.key
        · rw [hkey]; exact AList.lookup_erase back.key c.index
        · rw [AList.lookup_erase_ne hkey]; exact hk
  · exact ⟨h, by omega, fun k hk => hk⟩

/-- A new entry in front keeps a cache well formed where there is room for it. -/
theorem pushFront_wf {c : LRUCache K V} (h : c.Wf) {key : K} (value : V)
    (hkey : c.index.lookup key = none) (hroom : c.items.length < c.capacity) :
    (c.pushFront key value).Wf := by
  have hne := h.key_notMem hkey
  refine ⟨h.capacity_pos, ?_, ?_, ?_, ?_, hroom⟩
  · show (key :: c.items.map Node.key).Nodup
    rw [List.nodup_cons]
    refine ⟨fun hmem => ?_, h.keys_nodup⟩
    obtain ⟨n, hn, hk⟩ := List.mem_map.mp hmem
    exact hne n hn hk
  · show (c.nextId :: c.items.map Node.id).Nodup
    rw [List.nodup_cons]
    refine ⟨fun hmem => ?_, h.ids_nodup⟩
    obtain ⟨n, hn, hid⟩ := List.mem_map.mp hmem
    have := h.fresh n hn
    omega
  · intro k i
    simp only [pushFront, List.mem_cons, exists_eq_or_imp]
    by_cases hk : k = key
    · subst hk
      rw [AList.lookup_insert, Option.some.injEq]
      constructor
      · intro hi; exact Or.inl ⟨rfl, hi⟩
      · rintro (⟨-, hi⟩ | ⟨n, hn, hkn, -⟩)
        · exact hi
        · exact absurd hkn (hne n hn)
    · rw [AList.lookup_insert_ne hk, h.index_iff]
      simp [Ne.symm hk]
  · intro n hn
    simp only [pushFront, List.mem_cons] at hn ⊢
    rcases hn with rfl | hn
    · simp
    · have := h.fresh n hn
      omega

omit [DecidableEq K] in
/-- An update in place changes a value, no key and no identity, so it keeps the nodes as a `splice`
does. -/
theorem splice_update_perm {items : List (Node K V)} (h : (items.map Node.id).Nodup) {n : Node K V}
    (hn : n ∈ items) (value : V) :
    ((splice (items.map fun m => if m.id = n.id then { m with value := value } else m) n.id).map
      fun m => (m.key, m.id)).Perm (items.map fun m => (m.key, m.id)) := by
  set upd : Node K V → Node K V := fun m => if m.id = n.id then { m with value := value } else m
    with hupd
  have hpair : ∀ m, ((upd m).key, (upd m).id) = (m.key, m.id) := by
    intro m; rw [hupd]; dsimp only; split <;> rfl
  have hid : ∀ m, (upd m).id = m.id := fun m => congrArg Prod.snd (hpair m)
  have hids : ((items.map upd).map Node.id).Nodup := by
    rw [List.map_map, show Node.id ∘ upd = Node.id from funext hid]
    exact h
  have hmem : upd n ∈ items.map upd := List.mem_map_of_mem hn
  have hperm := (splice_perm hids hmem).map fun m => (m.key, m.id)
  rw [hid, List.map_map, show (fun m : Node K V => (m.key, m.id)) ∘ upd = fun m => (m.key, m.id)
    from funext hpair] at hperm
  exact hperm

/-- `put` keeps a cache well formed. -/
theorem put_wf {c : LRUCache K V} (h : c.Wf) (key : K) (value : V) : (c.put key value).Wf := by
  unfold put
  split
  · rename_i it hit
    obtain ⟨n, hn, -, rfl⟩ := h.exists_node hit
    exact h.congr rfl rfl rfl (splice_update_perm h.ids_nodup hn value)
  · rename_i hnone
    obtain ⟨hwf, hroom, hkeep⟩ := makeRoom_wf h
    exact pushFront_wf hwf value (hkeep key hnone) hroom

/-- `erase` keeps a cache well formed. -/
theorem erase_wf {c : LRUCache K V} (h : c.Wf) (key : K) : (c.erase key).2.Wf := by
  unfold erase
  split
  · exact h
  · rename_i it hit
    obtain ⟨n, hn, rfl, rfl⟩ := h.exists_node hit
    have hsub : (c.items.filter fun m => m.id ≠ n.id).Sublist c.items := List.filter_sublist
    refine ⟨h.capacity_pos, h.keys_nodup.sublist (hsub.map _), h.ids_nodup.sublist (hsub.map _), ?_,
      fun m hm => h.fresh m (hsub.subset hm), hsub.length_le.trans h.length_le⟩
    intro k i
    simp only [List.mem_filter]
    by_cases hk : k = n.key
    · subst hk
      rw [AList.lookup_erase]
      constructor
      · intro hnone; cases hnone
      · rintro ⟨m, ⟨hm, hid⟩, hkey, -⟩
        -- A node with the key is the one that was erased.
        rw [eq_of_key_eq h.keys_nodup hm hn hkey] at hid
        simp at hid
    · rw [AList.lookup_erase_ne hk, h.index_iff]
      constructor
      · rintro ⟨m, hm, hkey, hid⟩
        refine ⟨m, ⟨hm, ?_⟩, hkey, hid⟩
        simp only [ne_eq, decide_eq_true_eq]
        -- A node with the identity erased would have its key.
        intro heq
        exact hk (hkey ▸ congrArg Node.key (eq_of_id_eq h.ids_nodup hm hn heq))
      · rintro ⟨m, ⟨hm, -⟩, hkey, hid⟩
        exact ⟨m, hm, hkey, hid⟩

/-- `reset` keeps a cache well formed. -/
theorem reset_wf {c : LRUCache K V} (h : c.Wf) : c.reset.Wf :=
  ⟨h.capacity_pos, by simp [reset], by simp [reset], by simp [reset], by simp [reset],
    by simp [reset]⟩

/-- Every operation keeps the invariant. -/
theorem step_wf {c : LRUCache K V} (h : c.Wf) (op : Op K V) : (c.step op).2.Wf := by
  cases op with
  | get k => exact get_wf h k
  | put k v => exact put_wf h k v
  | erase k => exact erase_wf h k
  | reset => exact reset_wf h

/-! ## The counters -/

/-- A lookup that finds a value counts a hit, and any other a miss. -/
theorem counters_get {c : LRUCache K V} (h : c.Wf) (key : K) :
    (c.get key).2.hits = c.hits + (if (c.get key).1.isSome then 1 else 0) ∧
      (c.get key).2.misses = c.misses + (if (c.get key).1.isSome then 0 else 1) := by
  unfold get
  cases hit : c.index.lookup key with
  | none => exact ⟨(UInt64.add_zero _).symm, rfl⟩
  | some it =>
    -- The iterator designates a node, so the value is there.
    obtain ⟨n, hn, -, rfl⟩ := h.exists_node hit
    simp [node_of_mem h.ids_nodup hn]

/-- An insert counts neither. -/
theorem counters_put (c : LRUCache K V) (key : K) (value : V) :
    (c.put key value).hits = c.hits ∧ (c.put key value).misses = c.misses := by
  unfold put makeRoom
  repeat' split
  all_goals exact ⟨rfl, rfl⟩

end LRUCache

end ForwardProxy
