import Mathlib.Data.Finset.Card
import Mathlib.Data.Finset.Dedup
import Mathlib.Data.List.Nodup
import Mathlib.Data.List.TakeWhile

/-!
# Least-recently-used maps

An `Lru` is a map of bounded size that keeps its entries in order of last use, the latest first, and
drops the last entry when a new one does not fit. This module has the map, its histories, and the
law that relates the two: what a lookup returns is determined by the latest `put` of the key and by
how many other keys were used since the key's own last use (`Tracks`).

A history is a list of events, the latest first. An event uses a key, `Event.touched`, when it puts
the key or finds it; a lookup that finds nothing uses no key.
-/

namespace Lib.Recency

variable {K V : Type*} [DecidableEq K]

/-! ## The map -/

/-- The entries of other keys. -/
def remove (k : K) (l : List (K × V)) : List (K × V) := l.filter fun e => e.1 ≠ k

/-- The entry of `k` moved to the front. -/
def touch (k : K) (l : List (K × V)) : List (K × V) :=
  match l.lookup k with
  | none => l
  | some v => (k, v) :: remove k l

/-- An entry put at the front, and the entries past `cap` dropped. -/
def insert (cap : ℕ) (k : K) (v : V) (l : List (K × V)) : List (K × V) :=
  ((k, v) :: remove k l).take cap

/-- The keys that stand before `k`. -/
def ahead (k : K) (l : List (K × V)) : List K := (l.map Prod.fst).takeWhile fun j => j ≠ k

/-- Removing a key leaves the entries of the others. -/
theorem mem_remove {k j : K} {v : V} {l : List (K × V)} :
    (j, v) ∈ remove k l ↔ (j, v) ∈ l ∧ j ≠ k := by
  simp [remove]

/-- Removing a key leaves the order of the others. -/
theorem remove_sublist (k : K) (l : List (K × V)) : (remove k l).Sublist l := List.filter_sublist

/-- The keys left by `remove` are the other keys, in their order. -/
theorem map_fst_remove (k : K) (l : List (K × V)) :
    (remove k l).map Prod.fst = (l.map Prod.fst).filter fun j => j ≠ k := by
  rw [remove, List.filter_map]
  rfl

/-- A key that is removed is not there. -/
theorem notMem_map_fst_remove (k : K) (l : List (K × V)) : k ∉ (remove k l).map Prod.fst := by
  simp [map_fst_remove]

/-- Without an entry of `k` there is nothing to remove. -/
theorem remove_of_notMem {k : K} {l : List (K × V)} (h : k ∉ l.map Prod.fst) : remove k l = l := by
  rw [remove, List.filter_eq_self]
  intro e he
  simp only [ne_eq, decide_eq_true_eq]
  rintro rfl
  exact h (List.mem_map_of_mem he)

/-- Removing a key that is there leaves a shorter list. -/
theorem length_remove_lt {k : K} {l : List (K × V)} (h : k ∈ l.map Prod.fst) :
    (remove k l).length < l.length := by
  obtain ⟨e, he, rfl⟩ := List.mem_map.mp h
  exact List.length_filter_lt_length_iff_exists.mpr ⟨e, he, by simp⟩

/-- A key is not found exactly where it has no entry. -/
theorem lookup_eq_none_iff {k : K} {l : List (K × V)} :
    l.lookup k = none ↔ k ∉ l.map Prod.fst := by
  induction l with
  | nil => simp
  | cons e l ih =>
    rcases e with ⟨j, v⟩
    by_cases h : k = j
    · simp [h]
    · have hb : (k == j) = false := by simp [h]
      simp only [List.lookup_cons, hb, ih, List.map_cons, List.mem_cons, h, false_or]

/-- A value found is that of an entry. -/
theorem mem_of_lookup {k : K} {v : V} {l : List (K × V)} (h : l.lookup k = some v) :
    (k, v) ∈ l := by
  induction l with
  | nil => simp at h
  | cons e l ih =>
    rcases e with ⟨j, w⟩
    by_cases hj : k = j
    · subst hj
      simp only [List.lookup_cons, beq_self_eq_true, Option.some.injEq] at h
      simp [h]
    · have hb : (k == j) = false := by simp [hj]
      simp only [List.lookup_cons, hb] at h
      exact List.mem_cons_of_mem _ (ih h)

/-- With one entry for each key, every entry is found. -/
theorem lookup_of_mem {k : K} {v : V} {l : List (K × V)} (hl : (l.map Prod.fst).Nodup)
    (h : (k, v) ∈ l) : l.lookup k = some v := by
  induction l with
  | nil => simp at h
  | cons e l ih =>
    rcases e with ⟨j, w⟩
    rw [List.map_cons, List.nodup_cons] at hl
    rcases List.mem_cons.mp h with he | he
    · obtain ⟨rfl, rfl⟩ := Prod.mk.inj he
      simp
    · have hk : k ∈ l.map Prod.fst := List.mem_map.mpr ⟨_, he, rfl⟩
      have hne : k ≠ j := fun hkj => hl.1 (hkj ▸ hk)
      have hb : (k == j) = false := by simp [hne]
      simp only [List.lookup_cons, hb]
      exact ih hl.2 he

/-- `touch` adds no entry. -/
theorem mem_touch {k : K} {e : K × V} {l : List (K × V)} (h : e ∈ touch k l) : e ∈ l := by
  unfold touch at h
  split at h
  · exact h
  · rename_i v hv
    rcases List.mem_cons.mp h with rfl | h
    · exact mem_of_lookup hv
    · exact (remove_sublist k l).subset h

/-- `insert` adds one entry. -/
theorem mem_insert {cap : ℕ} {k : K} {v : V} {e : K × V} {l : List (K × V)}
    (h : e ∈ insert cap k v l) : e = (k, v) ∨ e ∈ l := by
  rcases List.mem_cons.mp (List.mem_of_mem_take h) with rfl | h
  · exact Or.inl rfl
  · exact Or.inr ((remove_sublist k l).subset h)

/-- A map of at most `capacity` entries with different keys, the latest used first. -/
structure Lru (K V : Type*) where
  capacity : ℕ
  entries : List (K × V)
  capacity_pos : 0 < capacity
  nodup : (entries.map Prod.fst).Nodup
  length_le : entries.length ≤ capacity

omit [DecidableEq K] in
/-- A cache is its capacity and its entries. -/
theorem Lru.ext {c d : Lru K V} (hc : c.capacity = d.capacity) (he : c.entries = d.entries) :
    c = d := by
  cases c; cases d; simp_all

/-- Moving an entry to the front leaves no key twice. -/
theorem nodup_cons_remove (k : K) (v : V) {l : List (K × V)} (h : (l.map Prod.fst).Nodup) :
    (((k, v) :: remove k l).map Prod.fst).Nodup := by
  rw [List.map_cons, List.nodup_cons]
  exact ⟨notMem_map_fst_remove k l, h.sublist ((remove_sublist k l).map _)⟩

/-- Touching a key leaves no key twice. -/
theorem nodup_touch (k : K) {l : List (K × V)} (h : (l.map Prod.fst).Nodup) :
    ((touch k l).map Prod.fst).Nodup := by
  unfold touch
  split
  · exact h
  · exact nodup_cons_remove k _ h

/-- Touching a key makes the list no longer. -/
theorem length_touch_le (k : K) (l : List (K × V)) : (touch k l).length ≤ l.length := by
  unfold touch
  split
  · exact le_refl _
  · rename_i v hv
    have hk : k ∈ l.map Prod.fst := List.mem_map_of_mem (mem_of_lookup hv)
    have := length_remove_lt hk
    simp only [List.length_cons]
    omega

/-- The empty map. -/
def Lru.empty (capacity : ℕ) (h : 0 < capacity) : Lru K V :=
  ⟨capacity, [], h, List.nodup_nil, Nat.zero_le _⟩

/-- A lookup, which moves what it finds to the front. -/
def Lru.get (c : Lru K V) (k : K) : Option V × Lru K V :=
  (c.entries.lookup k,
    ⟨c.capacity, touch k c.entries, c.capacity_pos, nodup_touch k c.nodup,
      (length_touch_le k _).trans c.length_le⟩)

/-- An entry put at the front. -/
def Lru.put (c : Lru K V) (k : K) (v : V) : Lru K V :=
  ⟨c.capacity, insert c.capacity k v c.entries, c.capacity_pos,
    (nodup_cons_remove k v c.nodup).sublist ((List.take_sublist _ _).map _),
    List.length_take_le _ _⟩

/-- An entry removed, and whether there was one. -/
def Lru.erase (c : Lru K V) (k : K) : Bool × Lru K V :=
  ((c.entries.lookup k).isSome,
    ⟨c.capacity, remove k c.entries, c.capacity_pos,
      c.nodup.sublist ((remove_sublist k _).map _),
      (remove_sublist k _).length_le.trans c.length_le⟩)

/-- Every entry removed. -/
def Lru.reset (c : Lru K V) : Lru K V := Lru.empty c.capacity c.capacity_pos

/-! ## Histories -/

/-- An operation asked of a map. -/
inductive Op (K V : Type*)
  | get (k : K)
  | put (k : K) (v : V)
  | erase (k : K)
  | reset

/-- An operation with what it returned. -/
inductive Event (K V : Type*)
  | get (k : K) (result : Option V)
  | put (k : K) (v : V)
  | erase (k : K) (removed : Bool)
  | reset

/-- Whether an operation is an `erase`. -/
def Op.isErase : Op K V → Bool
  | .erase _ => true
  | _ => false

/-- The key that an event uses, if any. -/
def Event.touched : Event K V → Option K
  | .get k (some _) => some k
  | .put k _ => some k
  | _ => none

/-- The value of the latest `put` of `k`, where no `erase` of `k` and no `reset` came after it. -/
def latestPut (k : K) : List (Event K V) → Option V
  | [] => none
  | .put j v :: h => if j = k then some v else latestPut k h
  | .erase j _ :: h => if j = k then none else latestPut k h
  | .reset :: _ => none
  | .get _ _ :: h => latestPut k h

/-- `k` was put since the last `reset`. -/
def putSinceReset (k : K) : List (Event K V) → Bool
  | [] => false
  | .put j _ :: h => j = k || putSinceReset k h
  | .reset :: _ => false
  | .get _ _ :: h => putSinceReset k h
  | .erase _ _ :: h => putSinceReset k h

/-- The other keys used since `k` was last used. -/
def touchedSince (k : K) : List (Event K V) → Finset K
  | [] => ∅
  | e :: h =>
    match e.touched with
    | some j => if j = k then ∅ else Insert.insert j (touchedSince k h)
    | none => touchedSince k h

/-! ## The order of the entries -/

/-- Nothing is ahead of the first key. -/
@[simp]
theorem ahead_cons_self (k : K) (v : V) (l : List (K × V)) : ahead k ((k, v) :: l) = [] := by
  simp [ahead]

/-- The first key is ahead of all the others. -/
theorem ahead_cons_of_ne {k j : K} (h : j ≠ k) (v : V) (l : List (K × V)) :
    ahead k ((j, v) :: l) = j :: ahead k l := by
  simp [ahead, h]

/-- A key does not stand before itself. -/
theorem ne_of_mem_ahead {k j : K} {l : List (K × V)} (h : j ∈ ahead k l) : j ≠ k := by
  simpa using List.mem_takeWhile_imp h

/-- What stands before `k` once `j` is removed. -/
theorem ahead_remove {k j : K} (h : j ≠ k) (l : List (K × V)) :
    ahead k (remove j l) = (ahead k l).filter fun i => i ≠ j := by
  induction l with
  | nil => rfl
  | cons e l ih =>
    rcases e with ⟨i, v⟩
    by_cases hk : i = k
    · subst hk
      have hij : ((i, v) : K × V).1 ≠ j := fun hij => h hij.symm
      rw [remove, List.filter_cons_of_pos (by simpa using hij), ahead_cons_self, ahead_cons_self]
      rfl
    · rw [ahead_cons_of_ne hk]
      by_cases hj : i = j
      · rw [remove, List.filter_cons_of_neg (by simp [hj]), List.filter_cons_of_neg (by simp [hj])]
        exact ih
      · rw [remove, List.filter_cons_of_pos (by simp [hj]), List.filter_cons_of_pos (by simp [hj]),
          ahead_cons_of_ne hk]
        exact congrArg _ ih

/-- Dropping entries from the end does not change what stands before a key that stays. -/
theorem ahead_take {k : K} {l : List (K × V)} {n : ℕ} (h : k ∈ (l.take n).map Prod.fst) :
    ahead k (l.take n) = ahead k l := by
  induction l generalizing n with
  | nil => simp at h
  | cons e l ih =>
    rcases e with ⟨i, v⟩
    cases n with
    | zero => simp at h
    | succ n =>
      rw [List.take_succ_cons]
      by_cases hk : i = k
      · subst hk; simp
      -- The key stays, so it is among what is kept of the rest.
      · have hmem : k ∈ (l.take n).map Prod.fst := by
          rw [List.take_succ_cons, List.map_cons, List.mem_cons] at h
          exact h.resolve_left (Ne.symm hk)
        rw [ahead_cons_of_ne hk, ahead_cons_of_ne hk, ih hmem]

/-- A key that is dropped from the end has every entry that is kept before it. -/
theorem le_length_ahead {k : K} {l : List (K × V)} {n : ℕ} (h : k ∈ l.map Prod.fst)
    (hn : k ∉ (l.take n).map Prod.fst) : n ≤ (ahead k l).length := by
  induction l generalizing n with
  | nil => simp at h
  | cons e l ih =>
    rcases e with ⟨i, v⟩
    cases n with
    | zero => exact Nat.zero_le _
    | succ n =>
      rw [List.take_succ_cons, List.map_cons, List.mem_cons, not_or] at hn
      have hk : i ≠ k := Ne.symm hn.1
      rw [List.map_cons, List.mem_cons] at h
      have := ih (h.resolve_left hn.1) hn.2
      rw [ahead_cons_of_ne hk, List.length_cons]
      omega

/-- What stands before a key that is there leaves room for the key. -/
theorem length_ahead_lt {k : K} {l : List (K × V)} (h : k ∈ l.map Prod.fst) :
    (ahead k l).length < l.length := by
  have hle := (List.takeWhile_prefix (p := fun j => decide (j ≠ k)) (l := l.map Prod.fst)).length_le
  rw [List.length_map] at hle
  refine lt_of_le_of_ne hle fun heq => ?_
  -- Were every key before `k`, `k` would be before itself.
  have hself : ahead k l = l.map Prod.fst :=
    (List.takeWhile_prefix _).eq_of_length (heq.trans (List.length_map _).symm)
  have hk : k ∈ ahead k l := hself ▸ h
  exact ne_of_mem_ahead hk rfl

/-- No key is ahead twice. -/
theorem nodup_ahead (k : K) {l : List (K × V)} (h : (l.map Prod.fst).Nodup) :
    (ahead k l).Nodup := h.sublist (List.takeWhile_sublist _)

/-- One operation, and the event it is. -/
def Lru.step (c : Lru K V) : Op K V → Event K V × Lru K V
  | .get k => (.get k (c.get k).1, (c.get k).2)
  | .put k v => (.put k v, c.put k v)
  | .erase k => (.erase k (c.erase k).1, (c.erase k).2)
  | .reset => (.reset, c.reset)

/-- A sequence of operations, with the history that they add to `h`. -/
def Lru.run (c : Lru K V) (h : List (Event K V)) : List (Op K V) → List (Event K V) × Lru K V
  | [] => (h, c)
  | op :: ops => (c.step op).2.run ((c.step op).1 :: h) ops

/-! ## The law of histories -/

/-- What a history says about the entries: each has the value of the latest `put` of its key, the
keys before a key were used since the key was, and a key that was put and is not there has seen
`cap` other keys used. -/
structure Tracks (cap : ℕ) (h : List (Event K V)) (l : List (K × V)) : Prop where
  value : ∀ k v, (k, v) ∈ l → latestPut k h = some v
  ahead_touched : ∀ k ∈ l.map Prod.fst, ∀ j ∈ ahead k l, j ∈ touchedSince k h
  dropped : ∀ k, (latestPut k h).isSome → k ∉ l.map Prod.fst → cap ≤ (touchedSince k h).card

/-- Without an `erase` the keys used since `k` was are exactly those before it. -/
def TouchedAhead (h : List (Event K V)) (l : List (K × V)) : Prop :=
  ∀ k ∈ l.map Prod.fst, ∀ j ∈ touchedSince k h, j ∈ ahead k l

/-- An empty cache tracks an empty history. -/
theorem tracks_empty (cap : ℕ) : Tracks cap ([] : List (Event K V)) [] where
  value := by simp
  ahead_touched := by simp
  dropped := by simp [latestPut]

/-- Nothing was touched since the last touch. -/
@[simp]
theorem touchedSince_cons_self {k : K} {e : Event K V} (h : List (Event K V))
    (he : e.touched = some k) : touchedSince k (e :: h) = ∅ := by
  simp [touchedSince, he]

/-- A key that is touched is one of those touched since. -/
theorem touchedSince_cons_of_ne {k j : K} {e : Event K V} (h : List (Event K V))
    (he : e.touched = some j) (hne : j ≠ k) :
    touchedSince k (e :: h) = Insert.insert j (touchedSince k h) := by
  simp [touchedSince, he, hne]

/-- An event that touches nothing changes nothing. -/
@[simp]
theorem touchedSince_cons_of_none {e : Event K V} (k : K) (h : List (Event K V))
    (he : e.touched = none) : touchedSince k (e :: h) = touchedSince k h := by
  simp [touchedSince, he]

/-- A key used by the latest event stands before every other key, and every other key has the same
keys before it as it had, this one apart. -/
theorem mem_ahead_front {k j i : K} {v : V} {l : List (K × V)} (hne : k ≠ j) :
    i ∈ ahead j ((k, v) :: remove k l) ↔ i = k ∨ i ∈ ahead j l := by
  rw [ahead_cons_of_ne hne, ahead_remove hne, List.mem_cons, List.mem_filter]
  by_cases hik : i = k
  · simp [hik]
  · simp [hik]

/-- Another key is there exactly if it was there before. -/
theorem mem_map_fst_front {k j : K} {v : V} {l : List (K × V)} (hne : k ≠ j) :
    j ∈ ((k, v) :: remove k l).map Prod.fst ↔ j ∈ l.map Prod.fst := by
  rw [List.map_cons, List.mem_cons, map_fst_remove, List.mem_filter]
  simp [Ne.symm hne]

/-- The step of the law for an event that uses `k` and leaves it with value `v`: the entry goes to
the front and the entries past `cap` go. A `get` that finds `k` and a `put` of `k` are both so. -/
theorem Tracks.front {cap : ℕ} {h : List (Event K V)} {l : List (K × V)} (ht : Tracks cap h l)
    (hcap : 0 < cap) (hl : (l.map Prod.fst).Nodup) {e : Event K V} {k : K} {v : V}
    (he : e.touched = some k) (hk : latestPut k (e :: h) = some v)
    (hother : ∀ j, j ≠ k → latestPut j (e :: h) = latestPut j h) :
    Tracks cap (e :: h) (((k, v) :: remove k l).take cap) where
  value j w hj := by
    rcases List.mem_cons.mp (List.mem_of_mem_take hj) with heq | hmem
    -- The key used has its new value, and every other key the one that it had.
    · obtain ⟨rfl, rfl⟩ := Prod.mk.inj heq
      exact hk
    · obtain ⟨hjl, hne⟩ := mem_remove.mp hmem
      rw [hother j hne]
      exact ht.value j w hjl
  ahead_touched j hj i hi := by
    rw [ahead_take hj] at hi
    have hj' := ((List.take_sublist cap _).map Prod.fst).subset hj
    by_cases hne : k = j
    · subst hne; simp at hi
    -- Before every other key stands what stood there, and `k`.
    · rw [touchedSince_cons_of_ne h he hne, Finset.mem_insert]
      rcases (mem_ahead_front hne).mp hi with rfl | hi
      · exact Or.inl rfl
      · exact Or.inr (ht.ahead_touched j ((mem_map_fst_front hne).mp hj') i hi)
  dropped j hj hmem := by
    have hne : k ≠ j := by
      rintro rfl
      obtain ⟨n, rfl⟩ : ∃ n, cap = n + 1 := ⟨cap - 1, by omega⟩
      simp at hmem
    rw [hother j (Ne.symm hne)] at hj
    rw [touchedSince_cons_of_ne h he hne]
    by_cases hjl : j ∈ l.map Prod.fst
    · -- The key is dropped now: `k` and the keys before it fill the map.
      have hfront := (mem_map_fst_front (v := v) hne).mpr hjl
      have hlen := le_length_ahead hfront hmem
      have hnodup := nodup_ahead j (nodup_cons_remove k v hl)
      rw [← List.toFinset_card_of_nodup hnodup] at hlen
      have hsub : (ahead j ((k, v) :: remove k l)).toFinset ⊆
        Insert.insert k (touchedSince j h) := by
        intro i hi
        rw [List.mem_toFinset, mem_ahead_front hne] at hi
        rw [Finset.mem_insert]
        exact hi.imp_right (ht.ahead_touched j hjl i)
      calc cap ≤ (ahead j ((k, v) :: remove k l)).toFinset.card := hlen
        _ ≤ (Insert.insert k (touchedSince j h)).card := Finset.card_le_card hsub
    · exact (ht.dropped j hj hjl).trans (Finset.card_le_card (Finset.subset_insert _ _))

/-- A touch puts its key ahead of all the others, as the history has it. -/
theorem TouchedAhead.front {h : List (Event K V)} {l : List (K × V)} (ht : TouchedAhead h l)
    (cap : ℕ) {e : Event K V} {k : K} {v : V} (he : e.touched = some k) :
    TouchedAhead (e :: h) (((k, v) :: remove k l).take cap) := by
  intro j hj i hi
  rw [ahead_take hj]
  have hj' := ((List.take_sublist cap _).map Prod.fst).subset hj
  by_cases hne : k = j
  · subst hne
    simp [he] at hi
  · rw [touchedSince_cons_of_ne h he hne, Finset.mem_insert] at hi
    rw [mem_ahead_front hne]
    exact hi.imp_right (ht j ((mem_map_fst_front hne).mp hj') i)

/-- A lookup that finds `v` moves its entry to the front, and nothing is dropped. -/
theorem touch_eq_take {c : Lru K V} {k : K} {v : V} (hv : c.entries.lookup k = some v) :
    touch k c.entries = ((k, v) :: remove k c.entries).take c.capacity := by
  have hlen := (length_touch_le k c.entries).trans c.length_le
  have htouch : touch k c.entries = (k, v) :: remove k c.entries := by simp [touch, hv]
  rw [htouch] at hlen ⊢
  rw [List.take_of_length_le hlen]

/-- One operation keeps the law. -/
theorem Lru.tracks_step {c : Lru K V} {h : List (Event K V)}
    (ht : Tracks c.capacity h c.entries) (op : Op K V) :
    Tracks (c.step op).2.capacity ((c.step op).1 :: h) (c.step op).2.entries := by
  cases op with
  | get k =>
    simp only [Lru.step, Lru.get]
    cases hv : c.entries.lookup k with
    | none =>
      -- A lookup that finds nothing uses no key and moves nothing.
      have htouch : touch k c.entries = c.entries := by simp [touch, hv]
      rw [htouch]
      exact ⟨ht.value, ht.ahead_touched, ht.dropped⟩
    | some v =>
      rw [touch_eq_take hv]
      -- What is found is the latest put of the key, and the lookup leaves it so.
      exact ht.front c.capacity_pos c.nodup rfl (ht.value k v (mem_of_lookup hv)) fun j hj => rfl
  | put k v =>
    refine ht.front c.capacity_pos c.nodup rfl ?_ fun j hj => ?_
    · exact if_pos rfl
    · exact if_neg (Ne.symm hj)
  | erase k =>
    simp only [Lru.step, Lru.erase]
    constructor
    · intro j w hj
      obtain ⟨hjl, hne⟩ := mem_remove.mp hj
      simpa [latestPut, Ne.symm hne] using ht.value j w hjl
    · intro j hj i hi
      rw [map_fst_remove, List.mem_filter] at hj
      have hne : k ≠ j := fun hkj => by simp [hkj] at hj
      rw [ahead_remove hne] at hi
      exact ht.ahead_touched j hj.1 i (List.mem_of_mem_filter hi)
    -- After `erase k` there is no latest put of `k`, so the key is another.
    · intro j hj hmem
      have hne : k ≠ j := by rintro rfl; simp [latestPut] at hj
      have hjl : j ∉ c.entries.map Prod.fst := fun hjl =>
        hmem (by rw [map_fst_remove, List.mem_filter]; simp [hjl, Ne.symm hne])
      exact ht.dropped j (by simpa [latestPut, hne] using hj) hjl
  | reset =>
    constructor
    · intro j w hj
      cases hj
    · intro j hj
      cases hj
    · intro j hj
      cases hj

/-- A step that erases nothing leaves the keys touched since ahead. -/
theorem Lru.touchedAhead_step {c : Lru K V} {h : List (Event K V)}
    (ht : TouchedAhead h c.entries) {op : Op K V} (hop : op.isErase = false) :
    TouchedAhead ((c.step op).1 :: h) (c.step op).2.entries := by
  cases op with
  | get k =>
    simp only [Lru.step, Lru.get]
    cases hv : c.entries.lookup k with
    | none =>
      have htouch : touch k c.entries = c.entries := by simp [touch, hv]
      rw [htouch]
      exact ht
    | some v =>
      rw [touch_eq_take hv]
      exact ht.front c.capacity rfl
  | put k v => exact ht.front c.capacity rfl
  | erase k => simp [Op.isErase] at hop
  | reset =>
    intro j hj
    cases hj

/-- The law holds after every run. -/
theorem Lru.tracks_run {c : Lru K V} {h : List (Event K V)} (ht : Tracks c.capacity h c.entries)
    (ops : List (Op K V)) :
    Tracks (c.run h ops).2.capacity (c.run h ops).1 (c.run h ops).2.entries := by
  induction ops generalizing c h with
  | nil => exact ht
  | cons op ops ih => exact ih (Lru.tracks_step ht op)

/-- And so does a run. -/
theorem Lru.touchedAhead_run {c : Lru K V} {h : List (Event K V)} (ht : TouchedAhead h c.entries)
    {ops : List (Op K V)} (hops : ∀ op ∈ ops, op.isErase = false) :
    TouchedAhead (c.run h ops).1 (c.run h ops).2.entries := by
  induction ops generalizing c h with
  | nil => exact ht
  | cons op ops ih =>
    exact ih (Lru.touchedAhead_step ht (hops op (by simp))) fun o ho => hops o (by simp [ho])

/-- No operation changes the capacity. -/
@[simp]
theorem Lru.capacity_run (c : Lru K V) (h : List (Event K V)) (ops : List (Op K V)) :
    (c.run h ops).2.capacity = c.capacity := by
  induction ops generalizing c h with
  | nil => rfl
  | cons op ops ih => exact (ih _ _).trans (by cases op <;> rfl)

/-- A run without an `erase` adds none to the history. -/
theorem Lru.erase_notMem_run (c : Lru K V) {h : List (Event K V)}
    (hh : ∀ k b, Event.erase k b ∉ h) {ops : List (Op K V)}
    (hops : ∀ op ∈ ops, op.isErase = false) (k : K) (b : Bool) :
    Event.erase k b ∉ (c.run h ops).1 := by
  induction ops generalizing c h with
  | nil => exact hh k b
  | cons op ops ih =>
    refine ih _ (fun j r hmem => ?_) fun o ho => hops o (by simp [ho])
    rcases List.mem_cons.mp hmem with heq | hmem
    · cases op with
      | erase i => simpa [Op.isErase] using hops (.erase i) (by simp)
      | get i => cases heq
      | put i v => cases heq
      | reset => cases heq
    · exact hh j r hmem

/-- A lookup returns only the value of the latest `put`. -/
theorem Tracks.latestPut_of_lookup {cap : ℕ} {h : List (Event K V)} {l : List (K × V)}
    (ht : Tracks cap h l) {k : K} {v : V} (hv : l.lookup k = some v) : latestPut k h = some v :=
  ht.value k v (mem_of_lookup hv)

/-- A key put and used before fewer than `cap` others is found. -/
theorem Tracks.lookup_of_latestPut {cap : ℕ} {h : List (Event K V)} {l : List (K × V)}
    (ht : Tracks cap h l) {k : K} {v : V} (hv : latestPut k h = some v)
    (hfew : (touchedSince k h).card < cap) : l.lookup k = some v := by
  cases hl : l.lookup k with
  | none =>
    -- Dropped, the key would have seen `cap` others used.
    have := ht.dropped k (by simp [hv]) (lookup_eq_none_iff.mp hl)
    omega
  | some w => rw [← hv, ht.latestPut_of_lookup hl]

/-- Without an `erase` a key that is there has seen fewer than `cap` other keys used. -/
theorem TouchedAhead.card_lt {h : List (Event K V)} {l : List (K × V)} (ht : TouchedAhead h l)
    {k : K} (hk : k ∈ l.map Prod.fst) : (touchedSince k h).card < l.length := by
  have hsub : touchedSince k h ⊆ (ahead k l).toFinset := fun j hj =>
    List.mem_toFinset.mpr (ht k hk j hj)
  calc (touchedSince k h).card ≤ (ahead k l).toFinset.card := Finset.card_le_card hsub
    _ ≤ (ahead k l).length := List.toFinset_card_le _
    _ < l.length := length_ahead_lt hk

/-- Without an `erase` the latest `put` is there whenever there was one since the last `reset`. -/
theorem isSome_latestPut {h : List (Event K V)}
    (hh : ∀ k b, Event.erase k b ∉ h) (k : K) : (latestPut k h).isSome = putSinceReset k h := by
  induction h with
  | nil => rfl
  | cons e h ih =>
    have ih := ih fun j b hmem => hh j b (by simp [hmem])
    cases e with
    | get j r => exact ih
    | put j v => by_cases hj : j = k <;> simp [latestPut, putSinceReset, hj, ih]
    -- Only an `erase` takes the latest put away and leaves that there was one.
    | erase j b => exact absurd (by simp) (hh j b)
    | reset => rfl

end Lib.Recency
