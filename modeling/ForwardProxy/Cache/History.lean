import ForwardProxy.Cache.Lru

/-!
# The cache is a least-recently-used map

Under its invariant an `LRUCache` is the map `Lib.Recency.Lru` of its nodes' keys and values
(`abs`), and each of its operations is that of the map. A run of the cache has therefore the history
of the map's run, and the law of `Lib.Recency` gives what a `get` returns after any run.
-/

namespace ForwardProxy.LRUCache

open Lib.Recency (Lru Op Event Tracks TouchedAhead latestPut putSinceReset touchedSince
  tracks_empty isSome_latestPut)

variable {K V : Type} [DecidableEq K]

/-- The keys and values of the nodes, in order of use. -/
def entries (c : LRUCache K V) : List (K × V) := c.items.map fun n => (n.key, n.value)

omit [DecidableEq K] in
/-- The keys of the entries are those of the nodes. -/
theorem map_fst_entries (c : LRUCache K V) : c.entries.map Prod.fst = c.items.map Node.key := by
  simp [entries]

/-- The map that a cache in good order stands for. -/
def abs (c : LRUCache K V) (h : c.Wf) : Lru K V :=
  ⟨c.capacity, c.entries, h.capacity_pos, by rw [map_fst_entries]; exact h.keys_nodup,
    by rw [entries, List.length_map]; exact h.length_le⟩

/-- The entries of other keys are those of the other nodes. -/
theorem entries_filter {items : List (Node K V)} (hids : (items.map Node.id).Nodup)
    (hkeys : (items.map Node.key).Nodup) {n : Node K V} (hn : n ∈ items) :
    (items.filter fun m => m.id ≠ n.id).map (fun m => (m.key, m.value)) =
      Lib.Recency.remove n.key (items.map fun m => (m.key, m.value)) := by
  rw [Lib.Recency.remove, List.filter_map]
  congr 1
  apply List.filter_congr
  intro m hm
  simp only [Function.comp_apply, ne_eq, decide_not, Bool.not_eq_eq_eq_not, Bool.not_not,
    decide_eq_decide]
  exact ⟨fun hid => congrArg Node.key (eq_of_id_eq hids hm hn hid),
    fun hkey => congrArg Node.id (eq_of_key_eq hkeys hm hn hkey)⟩

/-- The entries once a node has moved to the front. -/
theorem entries_splice {items : List (Node K V)} (hids : (items.map Node.id).Nodup)
    (hkeys : (items.map Node.key).Nodup) {n : Node K V} (hn : n ∈ items) :
    (splice items n.id).map (fun m => (m.key, m.value)) =
      (n.key, n.value) :: Lib.Recency.remove n.key (items.map fun m => (m.key, m.value)) := by
  rw [splice_of_mem hids hn, List.map_cons, entries_filter hids hkeys hn]

/-- A key that the map lacks has no entry. -/
theorem lookup_entries_of_none {c : LRUCache K V} (h : c.Wf) {k : K}
    (hk : c.index.lookup k = none) : c.entries.lookup k = none := by
  rw [Lib.Recency.lookup_eq_none_iff, map_fst_entries]
  intro hmem
  obtain ⟨n, hn, hkey⟩ := List.mem_map.mp hmem
  exact h.key_notMem hk n hn hkey

/-- The entry of a key is that of the node that the map designates. -/
theorem lookup_entries_of_mem {c : LRUCache K V} (h : c.Wf) {n : Node K V} (hn : n ∈ c.items) :
    c.entries.lookup n.key = some n.value :=
  Lib.Recency.lookup_of_mem (by rw [map_fst_entries]; exact h.keys_nodup)
    (List.mem_map_of_mem hn)

/-- `get` finds what the model finds. -/
theorem fst_get {c : LRUCache K V} (h : c.Wf) (k : K) : (c.get k).1 = ((c.abs h).get k).1 := by
  show (c.get k).1 = c.entries.lookup k
  unfold get
  split
  · rename_i hnone
    rw [lookup_entries_of_none h hnone]
  · rename_i it hit
    obtain ⟨n, hn, rfl, rfl⟩ := h.exists_node hit
    rw [lookup_entries_of_mem h hn, node_of_mem h.ids_nodup hn]
    rfl

/-- `get` is the map's `get`. -/
theorem abs_get {c : LRUCache K V} (h : c.Wf) (k : K) :
    (c.get k).2.abs (get_wf h k) = ((c.abs h).get k).2 := by
  apply Lru.ext
  · show (c.get k).2.capacity = c.capacity
    unfold get
    split <;> rfl
  · show (c.get k).2.entries = Lib.Recency.touch k c.entries
    unfold get Lib.Recency.touch
    split
    · rename_i hnone
      rw [lookup_entries_of_none h hnone]
      rfl
    · rename_i it hit
      obtain ⟨n, hn, rfl, rfl⟩ := h.exists_node hit
      rw [lookup_entries_of_mem h hn]
      exact entries_splice h.ids_nodup h.keys_nodup hn

omit [DecidableEq K] in
/-- A value written into one node changes that node's entry. -/
theorem remove_map_update [DecidableEq K] {items : List (Node K V)}
    (hids : (items.map Node.id).Nodup) {n : Node K V} (hn : n ∈ items) (value : V) :
    Lib.Recency.remove n.key ((items.map fun m =>
      if m.id = n.id then { m with value := value } else m).map fun m => (m.key, m.value)) =
      Lib.Recency.remove n.key (items.map fun m => (m.key, m.value)) := by
  rw [List.map_map, Lib.Recency.remove, Lib.Recency.remove, List.filter_map, List.filter_map]
  have hkey : ∀ m : Node K V,
      (if m.id = n.id then { m with value := value } else m).key = m.key := by
    intro m; split <;> rfl
  have hfilter : items.filter ((fun e : K × V => decide (e.1 ≠ n.key)) ∘
      ((fun m => (m.key, m.value)) ∘
        fun m => if m.id = n.id then { m with value := value } else m)) =
      items.filter ((fun e : K × V => decide (e.1 ≠ n.key)) ∘ fun m => (m.key, m.value)) := by
    apply List.filter_congr
    intro m _
    simp only [Function.comp_apply, hkey]
  rw [hfilter]
  apply List.map_congr_left
  intro m hm
  rw [List.mem_filter] at hm
  have hne : m.id ≠ n.id := by
    intro hid
    have := hm.2
    simp [eq_of_id_eq hids hm.1 hn hid] at this
  simp [hne]

/-- An update in place puts the entry at the front, and no entry is dropped. -/
theorem entries_put_of_mem {c : LRUCache K V} (h : c.Wf) {n : Node K V} (hn : n ∈ c.items)
    (value : V) :
    (splice (c.items.map fun m => if m.id = n.id then { m with value := value } else m) n.id).map
      (fun m => (m.key, m.value)) = Lib.Recency.insert c.capacity n.key value c.entries := by
  set upd : Node K V → Node K V := fun m => if m.id = n.id then { m with value := value } else m
    with hupd
  have hid : ∀ m, (upd m).id = m.id := by intro m; rw [hupd]; dsimp only; split <;> rfl
  have hkey : ∀ m, (upd m).key = m.key := by intro m; rw [hupd]; dsimp only; split <;> rfl
  have hids : ((c.items.map upd).map Node.id).Nodup := by
    rw [List.map_map, show Node.id ∘ upd = Node.id from funext hid]
    exact h.ids_nodup
  have hkeys : ((c.items.map upd).map Node.key).Nodup := by
    rw [List.map_map, show Node.key ∘ upd = Node.key from funext hkey]
    exact h.keys_nodup
  have hsplice := entries_splice hids hkeys (List.mem_map_of_mem hn)
  rw [hid, hkey, remove_map_update h.ids_nodup hn] at hsplice
  have hvalue : (upd n).value = value := by simp [hupd]
  -- The key was there, so nothing goes over the capacity.
  rw [hsplice, hvalue, Lib.Recency.insert, List.take_of_length_le]
  · rfl
  · have hlt : (Lib.Recency.remove n.key c.entries).length < c.entries.length :=
      Lib.Recency.length_remove_lt (by
        rw [map_fst_entries]; exact List.mem_map_of_mem hn)
    have hle := h.length_le
    rw [entries, List.length_map] at hlt
    rw [List.length_cons]
    exact hlt.trans_le hle

/-- The entries that `makeRoom` keeps are the first that leave room for one more. -/
theorem entries_makeRoom {c : LRUCache K V} (h : c.Wf) :
    c.makeRoom.entries = c.entries.take (c.capacity - 1) := by
  have hle := h.length_le
  unfold makeRoom
  split
  · rename_i hfull
    cases hlast : c.items.getLast? with
    | none =>
      rw [List.getLast?_eq_none_iff] at hlast
      simp [entries, hlast]
    | some back =>
      have hlen : c.items.length - 1 = c.capacity - 1 := by omega
      simp only [entries]
      rw [List.dropLast_eq_take, hlen, List.map_take]
  · rw [List.take_of_length_le]
    rw [entries, List.length_map]
    omega

/-- `put` leaves the capacity. -/
theorem capacity_put (c : LRUCache K V) (k : K) (v : V) : (c.put k v).capacity = c.capacity := by
  unfold put makeRoom
  split
  · rfl
  · show LRUCache.capacity (if _ then _ else _) = _
    split
    · split <;> rfl
    · rfl

/-- `put` is the map's `put`. -/
theorem abs_put {c : LRUCache K V} (h : c.Wf) (k : K) (v : V) :
    (c.put k v).abs (put_wf h k v) = (c.abs h).put k v := by
  apply Lru.ext
  · exact capacity_put c k v
  · show (c.put k v).entries = Lib.Recency.insert c.capacity k v c.entries
    unfold put
    split
    · rename_i it hit
      obtain ⟨n, hn, rfl, rfl⟩ := h.exists_node hit
      exact entries_put_of_mem h hn v
    · rename_i hnone
      have hmem : k ∉ c.entries.map Prod.fst :=
        Lib.Recency.lookup_eq_none_iff.mp (lookup_entries_of_none h hnone)
      obtain ⟨n, hn⟩ : ∃ n, c.capacity = n + 1 := ⟨c.capacity - 1, by have := h.capacity_pos; omega⟩
      -- The source makes room first and then inserts, the map inserts first and then cuts.
      calc (k, v) :: c.makeRoom.entries
          = (k, v) :: c.entries.take n := by rw [entries_makeRoom h, hn, Nat.add_sub_cancel]
        _ = ((k, v) :: c.entries).take c.capacity := by rw [hn, List.take_succ_cons]
        _ = Lib.Recency.insert c.capacity k v c.entries := by
            rw [Lib.Recency.insert, Lib.Recency.remove_of_notMem hmem]

/-- `erase` tells what the model tells. -/
theorem fst_erase {c : LRUCache K V} (h : c.Wf) (k : K) :
    (c.erase k).1 = ((c.abs h).erase k).1 := by
  show (c.erase k).1 = (c.entries.lookup k).isSome
  unfold erase
  split
  · rename_i hnone
    rw [lookup_entries_of_none h hnone]
    rfl
  · rename_i it hit
    obtain ⟨n, hn, rfl, rfl⟩ := h.exists_node hit
    rw [lookup_entries_of_mem h hn]
    rfl

/-- `erase` is the map's `erase`. -/
theorem abs_erase {c : LRUCache K V} (h : c.Wf) (k : K) :
    (c.erase k).2.abs (erase_wf h k) = ((c.abs h).erase k).2 := by
  apply Lru.ext
  · show (c.erase k).2.capacity = c.capacity
    unfold erase
    split <;> rfl
  · show (c.erase k).2.entries = Lib.Recency.remove k c.entries
    unfold erase
    split
    · rename_i hnone
      rw [Lib.Recency.remove_of_notMem
        (Lib.Recency.lookup_eq_none_iff.mp (lookup_entries_of_none h hnone))]
    · rename_i it hit
      obtain ⟨n, hn, rfl, rfl⟩ := h.exists_node hit
      exact entries_filter h.ids_nodup h.keys_nodup hn

/-- The cache is in good order and stands for the map `m`. -/
def Represents (c : LRUCache K V) (m : Lru K V) : Prop := ∃ h : c.Wf, c.abs h = m

/-- One operation of the cache is that of the map, with the same event. -/
theorem Represents.step {c : LRUCache K V} {m : Lru K V} (h : c.Represents m) (op : Op K V) :
    (c.step op).1 = (m.step op).1 ∧ (c.step op).2.Represents (m.step op).2 := by
  obtain ⟨hw, rfl⟩ := h
  refine ⟨?_, step_wf hw op, ?_⟩
  · cases op with
    | get k => exact congrArg (Event.get k) (fst_get hw k)
    | put k v => rfl
    | erase k => exact congrArg (Event.erase k) (fst_erase hw k)
    | reset => rfl
  · cases op with
    | get k => exact abs_get hw k
    | put k v => exact abs_put hw k v
    | erase k => exact abs_erase hw k
    | reset => rfl

/-- A run of the cache is a run of the map, with the same history. -/
theorem Represents.run {c : LRUCache K V} {m : Lru K V} (h : c.Represents m)
    (hist : List (Event K V)) (ops : List (Op K V)) :
    (c.run hist ops).1 = (m.run hist ops).1 ∧ (c.run hist ops).2.Represents (m.run hist ops).2 := by
  induction ops generalizing c m hist with
  | nil => exact ⟨rfl, h⟩
  | cons op ops ih =>
    obtain ⟨hevent, hnext⟩ := h.step op
    simp only [LRUCache.run, Lru.run]
    rw [hevent]
    exact ih hnext _

/-- A new cache represents the empty one. -/
theorem new_represents (cap : ℕ) : (new cap : LRUCache K V).Represents
    (Lru.empty (new cap : LRUCache K V).capacity (new_wf cap).capacity_pos) :=
  ⟨new_wf cap, rfl⟩

/-! ## What a run leaves -/

/-- The events of a run from a new cache, the latest first. -/
def history (cap : ℕ) (ops : List (Op K V)) : List (Event K V) :=
  ((new cap : LRUCache K V).run [] ops).1

/-- The cache that a run from a new one leaves. -/
def after (cap : ℕ) (ops : List (Op K V)) : LRUCache K V := ((new cap).run [] ops).2

/-- The entries that a run leaves follow the law of histories. -/
theorem tracks_after (cap : ℕ) (ops : List (Op K V)) :
    Tracks (if cap = 0 then 1 else cap) (history cap ops) (after cap ops).entries := by
  obtain ⟨hhist, hw, habs⟩ := (new_represents (K := K) (V := V) cap).run [] ops
  set m := Lru.empty (K := K) (V := V) _ (new_wf (K := K) (V := V) cap).capacity_pos with hm
  have hentries : (after cap ops).entries = (m.run [] ops).2.entries := congrArg Lru.entries habs
  have htracks := Lru.tracks_run (c := m) (tracks_empty m.capacity) ops
  rw [Lru.capacity_run] at htracks
  rw [history, hhist, hentries]
  exact htracks

/-- A run does not change the capacity. -/
theorem capacity_after (cap : ℕ) (ops : List (Op K V)) :
    (after cap ops).capacity = if cap = 0 then 1 else cap := by
  obtain ⟨-, hw, habs⟩ := (new_represents (K := K) (V := V) cap).run [] ops
  calc (after cap ops).capacity = ((after cap ops).abs hw).capacity := rfl
    _ = (new cap : LRUCache K V).capacity := by
        show (((new cap).run [] ops).2.abs hw).capacity = _
        rw [habs, Lru.capacity_run]
        rfl

/-- After any run the cache is in good order. -/
theorem after_wf (cap : ℕ) (ops : List (Op K V)) : (after cap ops).Wf := by
  obtain ⟨-, hw, -⟩ := (new_represents (K := K) (V := V) cap).run [] ops
  exact hw

/-- After any run the keys of the list are different, the map has exactly these keys, and what it
has for a key is the position of the node of that key, which is in the list: the position that
`splice` and the list's `erase` are given. There are no more nodes than `capacity`, which is not
zero, so a full list, of which `put` takes the back node, has one. -/
theorem representation (cap : ℕ) (ops : List (Op K V)) :
    let c := after cap ops
    (c.items.map Node.key).Nodup ∧
      (∀ k, (c.index.lookup k).isSome ↔ k ∈ c.items.map Node.key) ∧
      (∀ k it, c.index.lookup k = some it →
        ∃ n ∈ c.items, node c.items it = some n ∧ n.key = k) ∧
      c.items.length ≤ c.capacity ∧ 1 ≤ c.capacity ∧
      (c.capacity ≤ c.items.length → ∃ back, c.items.getLast? = some back) := by
  intro c
  have h : c.Wf := after_wf cap ops
  refine ⟨h.keys_nodup, fun k => ?_, fun k it hit => ?_, h.length_le, h.capacity_pos,
    fun hfull => ?_⟩
  · constructor
    · intro hsome
      obtain ⟨it, hit⟩ := Option.isSome_iff_exists.mp hsome
      obtain ⟨n, hn, hkey, -⟩ := h.exists_node hit
      exact List.mem_map.mpr ⟨n, hn, hkey⟩
    · intro hmem
      obtain ⟨n, hn, hkey⟩ := List.mem_map.mp hmem
      rw [(h.index_iff k n.id).mpr ⟨n, hn, hkey, rfl⟩]
      rfl
  · obtain ⟨n, hn, hkey, rfl⟩ := h.exists_node hit
    exact ⟨n, hn, node_of_mem h.ids_nodup hn, hkey⟩
  · have hne : c.items ≠ [] := by
      intro hnil
      have := h.capacity_pos
      simp [hnil] at hfull
      omega
    exact ⟨_, List.getLast?_eq_some_getLast hne⟩

/-- After any run, the value that a `get` returns is that of the latest `put` of its key. A key that
was put, and not erased or reset since, is found while fewer than `capacity` other keys have been
used since it was; and without an `erase`, this is the only way in which it is found. -/
theorem get_after_run (cap : ℕ) (ops : List (Op K V)) (k : K) :
    (∀ v, ((after cap ops).get k).1 = some v → latestPut k (history cap ops) = some v) ∧
      (∀ v, latestPut k (history cap ops) = some v →
        (touchedSince k (history cap ops)).card < (if cap = 0 then 1 else cap) →
        ((after cap ops).get k).1 = some v) ∧
      ((∀ op ∈ ops, op.isErase = false) →
        (((after cap ops).get k).1 = none ↔ putSinceReset k (history cap ops) = false ∨
          (if cap = 0 then 1 else cap) ≤ (touchedSince k (history cap ops)).card)) := by
  obtain ⟨hhist, hw, habs⟩ := (new_represents (K := K) (V := V) cap).run [] ops
  -- The run of the cache is the run of the map `m`, and what holds of its history is read off.
  set m := Lru.empty (K := K) (V := V) _ (new_wf (K := K) (V := V) cap).capacity_pos with hm
  have hget : ((after cap ops).get k).1 = (m.run [] ops).2.entries.lookup k := by
    rw [after, fst_get hw, habs]
    rfl
  have hentries : (after cap ops).entries = (m.run [] ops).2.entries := congrArg Lru.entries habs
  have htracks := tracks_after cap ops
  rw [history, hhist, hentries] at htracks
  have hlen : (m.run [] ops).2.entries.length ≤ if cap = 0 then 1 else cap := by
    have := (m.run [] ops).2.length_le
    rwa [Lru.capacity_run] at this
  rw [hget, history, hhist]
  refine ⟨fun v => htracks.latestPut_of_lookup, fun v => htracks.lookup_of_latestPut,
    fun hops => ?_⟩
  have hsome := isSome_latestPut (Lru.erase_notMem_run m (h := []) (by simp) hops) k
  have hahead : TouchedAhead (m.run [] ops).1 (m.run [] ops).2.entries :=
    Lru.touchedAhead_run (by intro j hj; cases hj) hops
  rw [← hsome]
  constructor
  · -- Not found: never put, or put and dropped.
    intro hnone
    cases hput : latestPut k (m.run [] ops).1 with
    | none => exact Or.inl rfl
    | some v =>
      exact Or.inr (htracks.dropped k (by simp [hput]) (Lib.Recency.lookup_eq_none_iff.mp hnone))
  · -- Found: put, and used before fewer keys than there are entries.
    intro h
    cases hfound : (m.run [] ops).2.entries.lookup k with
    | none => rfl
    | some v =>
      rw [htracks.latestPut_of_lookup hfound] at h
      have hmem : k ∈ (m.run [] ops).2.entries.map Prod.fst :=
        List.mem_map_of_mem (Lib.Recency.mem_of_lookup hfound)
      have := hahead.card_lt hmem
      rcases h with h | h
      · cases h
      · omega

example : ((after 3 [.put 1 'a', .put 2 'b', .put 3 'c', .get 1, .put 4 'd']).get 2).1 = none := by
  decide

end ForwardProxy.LRUCache
