/-
Indie/SystemManager.lean

The system manager of `ecs/System.hpp`, member by member.

`_systems` is a `std::map` from system ids to shared pointers, walked by
`Update` in the order of the ids.  A pointer is the index of the system in the
order of construction, `none` the null pointer, which has no member.  Of a
system only `_is_active` is read by the manager.

`operator[]` gives a key that is absent a null pointer, also where `Has` only
reads it (`Has` is declared `const` all the same).  `emplace` leaves a key that
is present as it is, and `Remove` resets the pointer but keeps the key.
-/
import Indie.Library.Run
import Indie.TypeIds

namespace Indie

variable {κ : Type} [DecidableEq κ]

/-- `SystemMap`. -/
abbrev SystemMap := Std.TreeMap ℕ (Option ℕ)

namespace SystemMap

/-- `_systems.emplace(id, system)`. -/
def emplace (m : SystemMap) (id system : ℕ) : SystemMap :=
  if id ∈ m then m else m.insert id (some system)

/-- The map after `_systems[id]` was read. -/
def touch (m : SystemMap) (id : ℕ) : SystemMap :=
  if id ∈ m then m else m.insert id none

/-- The value of `_systems[id]`. -/
def at_ (m : SystemMap) (id : ℕ) : Option ℕ := m[id]?.join

variable {m : SystemMap} {id i : ℕ}

theorem mem_insert {v : Option ℕ} : i ∈ m.insert id v ↔ i = id ∨ i ∈ m := by
  rw [Std.TreeMap.mem_insert, Std.LawfulEqCmp.compare_eq_iff_eq, eq_comm]

theorem mem_emplace {system : ℕ} : i ∈ emplace m id system ↔ i = id ∨ i ∈ m := by
  rw [emplace]
  split
  · rename_i h
    exact ⟨.inr, fun hi => hi.elim (fun e => e ▸ h) (·)⟩
  · exact mem_insert

theorem mem_touch : i ∈ touch m id ↔ i = id ∨ i ∈ m := by
  rw [touch]
  split
  · rename_i h
    exact ⟨.inr, fun hi => hi.elim (fun e => e ▸ h) (·)⟩
  · exact mem_insert

/-- `emplace` writes a key that is absent. -/
theorem getElem?_emplace_self (m : SystemMap) (id system : ℕ) :
    (emplace m id system)[id]? = some (m[id]?.getD (some system)) := by
  rw [emplace]
  split
  · rename_i h
    obtain ⟨v, hv⟩ := Option.isSome_iff_exists.mp (Std.TreeMap.mem_iff_isSome_getElem?.mp h)
    rw [hv, Option.getD_some]
  · rename_i h
    rw [Std.TreeMap.getElem?_insert_self, Std.TreeMap.getElem?_eq_none h, Option.getD_none]

/-- After a read the key has an entry. -/
theorem getElem?_touch_self (m : SystemMap) (id : ℕ) :
    (touch m id)[id]? = some m[id]?.join := by
  rw [touch]
  split
  · rename_i h
    obtain ⟨v, hv⟩ := Option.isSome_iff_exists.mp (Std.TreeMap.mem_iff_isSome_getElem?.mp h)
    rw [hv, Option.join_some]
  · rename_i h
    rw [Std.TreeMap.getElem?_insert_self, Std.TreeMap.getElem?_eq_none h, Option.join_none]

theorem getElem?_insert_ne {v : Option ℕ} (h : i ≠ id) : (m.insert id v)[i]? = m[i]? := by
  rw [Std.TreeMap.getElem?_insert, if_neg]
  exact fun e => h (Std.LawfulEqCmp.compare_eq_iff_eq.mp e).symm

theorem getElem?_emplace_ne {system : ℕ} (h : i ≠ id) :
    (emplace m id system)[i]? = m[i]? := by
  rw [emplace]
  split
  · rfl
  · exact getElem?_insert_ne h

theorem getElem?_touch_ne (h : i ≠ id) : (touch m id)[i]? = m[i]? := by
  rw [touch]
  split
  · rfl
  · exact getElem?_insert_ne h

end SystemMap

/-- A system manager, in a program that has constructed the systems of `heap`
(for each its `_is_active`).  The keys of the map are ids of types. -/
structure SystemManager (κ : Type) where
  ids : TypeIds κ
  heap : List Bool
  systems : SystemMap
  keys : ∀ i ∈ systems, ∃ T, ids.id T = some i

namespace SystemManager

/-- A new manager, in a program that has used some types before. -/
def init (ids : TypeIds κ) : SystemManager κ :=
  ⟨ids, [], ∅, fun _ hi => absurd hi Std.TreeMap.not_mem_emptyc⟩

variable {sm sm' : SystemManager κ} {S T : κ} {i : ℕ}

theorem keys_getSystemId (sm : SystemManager κ) (T : κ)
    (h : i = (sm.ids.getSystemId T).2 ∨ i ∈ sm.systems) :
    ∃ S, (sm.ids.getSystemId T).1.id S = some i := by
  rcases h with rfl | hi
  · exact ⟨T, sm.ids.id_getSystemId_self T⟩
  · obtain ⟨S, hS⟩ := sm.keys i hi
    exact ⟨S, TypeIds.id_getSystemId_mono hS T⟩

/-- `Add<T>(args...)`, and the system constructed. -/
def add (sm : SystemManager κ) (T : κ) : SystemManager κ × ℕ :=
  let system := sm.heap.length
  let id := sm.ids.getSystemId T
  (⟨id.1, sm.heap ++ [true], sm.systems.emplace id.2 system,
    fun _ hi => sm.keys_getSystemId T (SystemMap.mem_emplace.mp hi)⟩, system)

/-- `Has<T>()`. -/
def has (sm : SystemManager κ) (T : κ) : SystemManager κ × Bool :=
  let id := sm.ids.getSystemId T
  (⟨id.1, sm.heap, sm.systems.touch id.2,
    fun _ hi => sm.keys_getSystemId T (SystemMap.mem_touch.mp hi)⟩,
    (sm.systems.at_ id.2).isSome)

/-- `_systems[id].reset()`. -/
def resetAt (sm : SystemManager κ) (T : κ) : SystemManager κ :=
  let id := sm.ids.getSystemId T
  ⟨id.1, sm.heap, sm.systems.insert id.2 none,
    fun _ hi => sm.keys_getSystemId T (SystemMap.mem_insert.mp hi)⟩

/-- `Remove<T>()`. -/
def remove (sm : SystemManager κ) (T : κ) : SystemManager κ :=
  let (sm, registered) := sm.has T
  if registered then sm.resetAt T else sm

/-- `_systems[id]->_is_active = active`. -/
def setActiveAt (active : Bool) (sm : SystemManager κ) (T : κ) : Option (SystemManager κ) := do
  let id := sm.ids.getSystemId T
  let system ← sm.systems.at_ id.2
  return ⟨id.1, sm.heap.set system active, sm.systems.touch id.2,
    fun _ hi => sm.keys_getSystemId T (SystemMap.mem_touch.mp hi)⟩

/-- `Activate<T>()` and `Deactivate<T>()`. -/
def setActive (active : Bool) (sm : SystemManager κ) (T : κ) : Option (SystemManager κ) :=
  let (sm, registered) := sm.has T
  if registered then sm.setActiveAt active T else some sm

/-- `Activate<T>()`. -/
def activate : SystemManager κ → κ → Option (SystemManager κ) := setActive true

/-- `Deactivate<T>()`. -/
def deactivate : SystemManager κ → κ → Option (SystemManager κ) := setActive false

/-- The body of the loop of `Update()`, on the systems it has updated so far. -/
def visit (heap : List Bool) (calls : List ℕ) (entry : ℕ × Option ℕ) : Option (List ℕ) := do
  let system ← entry.2
  let isActive ← heap[system]?
  return if isActive then calls ++ [system] else calls

omit [DecidableEq κ] in
/-- `Update()`: the systems whose `Update` is called, in order. -/
def update (sm : SystemManager κ) : Option (List ℕ) :=
  sm.systems.toList.foldlM (visit sm.heap) []

/-! ### Calls -/

/-- A call of a member. -/
inductive Call (κ : Type)
  | add (T : κ)
  | remove (T : κ)
  | activate (T : κ)
  | deactivate (T : κ)
  | has (T : κ)
  | update
  deriving DecidableEq

/-- What a call returns, or the systems it updates. -/
inductive Answer
  | done
  | system (system : ℕ)
  | bool (b : Bool)
  | updated (systems : List ℕ)
  deriving DecidableEq

/-- Make one call. -/
def call (sm : SystemManager κ) : Call κ → Option (SystemManager κ × Answer)
  | .add T => some ((sm.add T).1, .system (sm.add T).2)
  | .remove T => some (sm.remove T, .done)
  | .activate T => (sm.activate T).map (·, .done)
  | .deactivate T => (sm.deactivate T).map (·, .done)
  | .has T => some ((sm.has T).1, .bool (sm.has T).2)
  | .update => sm.update.map fun systems => (sm, .updated systems)

/-- What a run of calls returns: `none` if it has undefined behaviour. -/
def answers (sm : SystemManager κ) (calls : List (Call κ)) : Option (List Answer) :=
  (Machine.run (Machine.logged call) (sm, []) calls).map (·.2)

end SystemManager

end Indie
