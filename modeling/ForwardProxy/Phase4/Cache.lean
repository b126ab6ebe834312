import ForwardProxy.Cache.History
import ForwardProxy.Lib.Linear
import ForwardProxy.Lib.Locking

/-!
# The cache of phase 4

`LRUCache` of `server_phase4.cpp`: one list and one map under a `shared_mutex`. `get` looks the key
up under the shared lock, and if it is there gives the lock back and looks it up again under the
exclusive lock, where it may be gone. Each section is modelled by its steps on the list and the map
(`Access`), and run as a whole it is an operation of the later cache of `lru_cache.hpp`
(`exec_promote`, `exec_put`).
-/

namespace ForwardProxy.Phase4

open Lib.Interaction
open Lib.Recency (Event)

/-- What `mtx` guards. -/
structure Store (K V : Type) where
  capacity : ℕ
  /-- The front is the most recently used node, the back the least. -/
  items : List (Node K V) := []
  index : AList (fun _ : K => ℕ) := ∅
  /-- The identity of the next node. -/
  nextId : ℕ := 0

/-- The atomics. -/
structure Counters where
  hits : UInt64 := 0
  misses : UInt64 := 0

/-- The steps that the methods are made of. An iterator is the identity of its node. -/
inductive Access (K V : Type)
  | find (key : K)
  | addMiss
  | addHit
  | splice (it : ℕ)
  | valueAt (it : ℕ)
  | assign (it : ℕ) (value : V)
  | size
  /-- `items.size() >= capacity` -/
  | full
  /-- `items.back().key` -/
  | backKey
  | eraseIndex (key : K)
  | popBack
  | pushFront (key : K) (value : V)
  /-- `index[key] = items.begin()` -/
  | setIndex (key : K)

/-- What a step returns. -/
abbrev Access.Answer {K V : Type} : Access K V → Type
  | .find _ => Option ℕ
  | .valueAt _ => Option V
  | .size => ℕ
  | .full => Bool
  | .backKey => Option K
  | _ => Unit

/-- The methods' sections under the lock: the two of `get`, that of `put`, and that of `size`. -/
inductive Section (K V : Type)
  | probe (key : K)
  | promote (key : K)
  | put (key : K) (value : V)
  | size

/-- What a section returns. -/
abbrev Section.Answer {K V : Type} : Section K V → Type
  | .probe _ => Bool
  | .promote _ => Option V
  | .put _ _ => Unit
  | .size => ℕ

variable {K V : Type}

/-- A part of a section. -/
abbrev Steps (K V : Type) := Prog (Access.Answer (K := K) (V := V))

/-- `index.find(key)` -/
abbrev findIndex (key : K) : Steps K V (Option ℕ) := Prog.perform (Access.find key)
/-- `misses++` -/
abbrev addMiss : Steps K V Unit := Prog.perform Access.addMiss
/-- `hits++` -/
abbrev addHit : Steps K V Unit := Prog.perform Access.addHit
/-- `items.splice(items.begin(), items, it)` -/
abbrev splice (it : ℕ) : Steps K V Unit := Prog.perform (Access.splice it)
/-- `it->value` -/
abbrev nodeValue (it : ℕ) : Steps K V (Option V) := Prog.perform (Access.valueAt it)
/-- `it->value = value` -/
abbrev assign (it : ℕ) (value : V) : Steps K V Unit := Prog.perform (Access.assign it value)
/-- `items.size() >= capacity` -/
abbrev full : Steps K V Bool := Prog.perform Access.full
/-- `items.back().key` -/
abbrev backKey : Steps K V (Option K) := Prog.perform Access.backKey
/-- `index.erase(key)` -/
abbrev eraseIndex (key : K) : Steps K V Unit := Prog.perform (Access.eraseIndex key)
/-- `items.pop_back()` -/
abbrev popBack : Steps K V Unit := Prog.perform Access.popBack
/-- `items.push_front({key, value})` -/
abbrev pushFront (key : K) (value : V) : Steps K V Unit := Prog.perform (Access.pushFront key value)
/-- `index[key] = items.begin()` -/
abbrev setIndex (key : K) : Steps K V Unit := Prog.perform (Access.setIndex key)

/-- The eviction of `put`. -/
def makeRoom : Steps K V Unit := do
  if ← full then
    match ← backKey with
    | some key =>
      eraseIndex key
      popBack
    | none => return ()

/-- The steps of a section, in the order of the source. -/
def Section.steps : (o : Section K V) → Steps K V o.Answer
  | .probe key => do
    match ← findIndex key with
    | none =>
      addMiss
      return false
    | some _ => return true
  | .promote key => do
    match ← findIndex key with
    | none =>
      -- Evicted between the two locks.
      addMiss
      return none
    | some it =>
      addHit
      splice it
      nodeValue it
  | .put key value => do
    match ← findIndex key with
    | some it =>
      assign it value
      splice it
    | none =>
      makeRoom
      pushFront key value
      setIndex key
  | .size => Prog.perform Access.size

/-- How a section holds the lock. -/
def Section.mode : Section K V → Mode
  | .probe _ | .size => .shared
  | .promote _ | .put _ _ => .exclusive

/-- What a step adds to the counters. -/
def Access.count : Access K V → Counters → Counters
  | .addMiss, c => { c with misses := c.misses + 1 }
  | .addHit, c => { c with hits := c.hits + 1 }
  | _, c => c

variable [DecidableEq K]

/-- What a step returns, and what it does to the list and the map. -/
def Access.handle : (a : Access K V) → Store K V → a.Answer × Store K V
  | .find key, s => (s.index.lookup key, s)
  | .addMiss, s => ((), s)
  | .addHit, s => ((), s)
  | .splice it, s => ((), { s with items := LRUCache.splice s.items it })
  | .valueAt it, s => ((LRUCache.node s.items it).map fun n => n.value, s)
  | .assign it value, s =>
    ((), { s with
      items := s.items.map fun n => if n.id = it then { n with value := value } else n })
  | .size, s => (s.items.length, s)
  | .full, s => (decide (s.capacity ≤ s.items.length), s)
  | .backKey, s => (s.items.getLast?.map fun n => n.key, s)
  | .eraseIndex key, s => ((), { s with index := s.index.erase key })
  | .popBack, s => ((), { s with items := s.items.dropLast })
  | .pushFront key value, s =>
    ((), { s with items := ⟨s.nextId, key, value⟩ :: s.items, nextId := s.nextId + 1 })
  | .setIndex key, s =>
    ((), match s.items.head? with
      | some n => { s with index := s.index.insert key n.id }
      | none => s)

/-- The list, the map, and the sections under the lock. -/
def guarded : Guarded (Access.Answer (K := K) (V := V)) (Section.Answer (K := K) (V := V))
    (Store K V) Counters where
  handle := Access.handle
  count := Access.count
  mode := Section.mode
  body := Section.steps
  reads o ho := by
    cases o with
    | probe key =>
      refine ⟨[], fun _ => rfl, fun it => ?_⟩
      cases it with
      | none => exact ⟨fun _ => rfl, fun _ => trivial⟩
      | some it => trivial
    | size => exact ⟨[], fun _ => rfl, fun _ => trivial⟩
    | promote key => cases ho
    | put key value => cases ho

/-! ## A section as a whole -/

/-- The list and the map of the later cache. -/
def storeOf (c : LRUCache K V) : Store K V where
  capacity := c.capacity
  items := c.items
  index := c.index
  nextId := c.nextId

/-- A section without interruption, with its steps. -/
abbrev runSection (o : Section K V) (s : Store K V) :
    List (Lib.Interaction.Event (Access.Answer (K := K) (V := V))) × o.Answer × Store K V :=
  o.steps.exec Access.handle s

/-- The first section of `get` tells whether the key is there, and changes nothing. -/
theorem exec_probe (key : K) (s : Store K V) :
    (runSection (.probe key) s).2 = ((s.index.lookup key).isSome, s) := by
  simp only [runSection, Section.steps, Prog.perform_bind, Prog.exec, Access.handle]
  cases s.index.lookup key <;> rfl

omit [DecidableEq K] in
/-- An iterator designates its node also once the node has moved to the front. -/
theorem node_splice (items : List (Node K V)) (it : ℕ) :
    LRUCache.node (LRUCache.splice items it) it = LRUCache.node items it := by
  cases hnode : LRUCache.node items it with
  | none =>
    rw [LRUCache.splice, hnode]
    simp [LRUCache.node]
  | some n =>
    have hid : n.id = it := by simpa using List.find?_some hnode
    rw [LRUCache.splice, hnode]
    simp [LRUCache.node, hid]

/-- The second section of `get` is that of the later cache. -/
theorem exec_promote (key : K) (c : LRUCache K V) :
    (runSection (.promote key) (storeOf c)).2 = ((c.get key).1, storeOf (c.get key).2) := by
  have hmap : (storeOf c).index.lookup key = c.index.lookup key := rfl
  simp only [runSection, Section.steps, Prog.perform_bind, Prog.exec, Access.handle, hmap,
    LRUCache.get]
  cases c.index.lookup key with
  | none => rfl
  | some it =>
    have hnode : LRUCache.node (LRUCache.splice (storeOf c).items it) it =
        LRUCache.node c.items it := node_splice c.items it
    simp only [Prog.perform, Prog.exec, Access.handle, hnode]
    rfl

/-- The section of `put` is that of the later cache. -/
theorem exec_put {c : LRUCache K V} (h : c.Wf) (key : K) (value : V) :
    (runSection (.put key value) (storeOf c)).2 = ((), storeOf (c.put key value)) := by
  have hmap : (storeOf c).index.lookup key = c.index.lookup key := rfl
  simp only [runSection, Section.steps, Prog.perform_bind, Prog.exec, Access.handle, hmap,
    LRUCache.put]
  cases c.index.lookup key with
  | some it => rfl
  | none =>
    -- A full list has a back node, of which the key is taken out of the map.
    by_cases hfull : c.capacity ≤ c.items.length
    · have hpos := h.capacity_pos
      have hne : c.items ≠ [] := List.ne_nil_of_length_pos (by omega)
      have hlast := List.getLast?_eq_some_getLast hne
      simp [makeRoom, Prog.perform, Prog.exec, Access.handle, storeOf, hfull, LRUCache.makeRoom,
        hlast, LRUCache.pushFront]
    · simp [makeRoom, Prog.perform, Prog.exec, Access.handle, storeOf, hfull, LRUCache.makeRoom,
        LRUCache.pushFront]

end ForwardProxy.Phase4
