/-
Indie/SystemRegistry.lean

What a system manager is for, and when it does it.

A `Registry` maps a type to the system registered for it and whether that is
active: `Add` registers a system for a type that has none, `Remove` takes it
away, and the other calls mean what they say.  `Update` should call each system
that is registered and active, once.

The map of the manager has a third kind of entry, a null pointer, which
`Remove` leaves behind and which a lookup by `Has`, `Activate` or `Deactivate`
makes for a type that has none.  `Update` dereferences it, and `Add` does not
replace it.  So the manager keeps to the registry precisely in the runs that
make none (`lawful_iff_careful`); `Sound` is the refinement these runs keep.
-/
import Indie.SystemManager

namespace Indie

variable {κ : Type}

/-- The system registered for each type, and whether it is active. -/
abbrev Registry (κ : Type) := κ → Option (ℕ × Bool)

namespace SystemManager

/-! ### The entry of a type -/

/-- The entry the map has for a type, if any. -/
def entryOf (sm : SystemManager κ) (T : κ) : Option (Option ℕ) :=
  (sm.ids.id T).bind fun i => sm.systems[i]?

theorem entryOf_init (ids : TypeIds κ) (T : κ) : (init ids).entryOf T = none := by
  rw [entryOf, init]
  exact Option.bind_eq_none_iff.mpr fun i _ => Std.TreeMap.getElem?_emptyc

/-- What the map holds: the entries of the types that have one, at their ids. -/
theorem mem_toList {sm : SystemManager κ} {i : ℕ} {v : Option ℕ} :
    (i, v) ∈ sm.systems.toList ↔ ∃ T, sm.ids.id T = some i ∧ sm.entryOf T = some v := by
  rw [Std.TreeMap.mem_toList_iff_getElem?_eq_some]
  constructor
  · intro h
    obtain ⟨T, hT⟩ := sm.keys i (Std.TreeMap.mem_iff_isSome_getElem?.mpr (by rw [h]; rfl))
    exact ⟨T, hT, by rw [entryOf, hT, Option.bind_some, h]⟩
  · rintro ⟨T, hT, h⟩
    rwa [entryOf, hT, Option.bind_some] at h

variable [DecidableEq κ] {sm sm' : SystemManager κ} {S T : κ} {p : ℕ}

theorem getElem?_systemId (sm : SystemManager κ) (T : κ) :
    sm.systems[(sm.ids.getSystemId T).2]? = sm.entryOf T := by
  rcases h : sm.ids.id T with - | i
  · -- a fresh id is above every key
    rw [TypeIds.getSystemId_of_none h, entryOf, h, Option.bind_none]
    refine Std.TreeMap.getElem?_eq_none fun hmem => ?_
    obtain ⟨S, hS⟩ := sm.keys _ hmem
    exact absurd (sm.ids.lt_cur S _ hS) (Nat.lt_irrefl _)
  · rw [TypeIds.getSystemId_of_some h, entryOf, h, Option.bind_some]

/-- A member that writes the map at the id of a type changes the entry of this
type only. -/
theorem entryOf_write (hids : sm'.ids = (sm.ids.getSystemId T).1)
    (hne : ∀ i ≠ (sm.ids.getSystemId T).2, sm'.systems[i]? = sm.systems[i]?) :
    sm'.entryOf =
      Function.update sm.entryOf T sm'.systems[(sm.ids.getSystemId T).2]? := by
  funext S
  by_cases hS : S = T
  · subst hS
    rw [Function.update_self, entryOf, hids, TypeIds.id_getSystemId_self, Option.bind_some]
  · rw [Function.update_of_ne hS, entryOf, entryOf, hids, TypeIds.id_getSystemId_ne hS]
    refine Option.bind_congr fun i hi => hne i ?_
    rintro rfl
    have hS' := TypeIds.id_getSystemId_mono hi T
    exact hS ((sm.ids.getSystemId T).1.inj S T _ hS' (sm.ids.id_getSystemId_self T))

/-- `Add<T>()` makes an entry where `T` has none. -/
theorem entryOf_add (sm : SystemManager κ) (T : κ) :
    (sm.add T).1.entryOf =
      Function.update sm.entryOf T (some ((sm.entryOf T).getD (some sm.heap.length))) := by
  rw [@entryOf_write κ _ sm _ T rfl fun i hi => SystemMap.getElem?_emplace_ne hi]
  show Function.update sm.entryOf T
    (sm.systems.emplace (sm.ids.getSystemId T).2 sm.heap.length)[(sm.ids.getSystemId T).2]? = _
  rw [SystemMap.getElem?_emplace_self, getElem?_systemId]

/-- `Has<T>()` makes a null entry where `T` has none. -/
theorem entryOf_has (sm : SystemManager κ) (T : κ) :
    (sm.has T).1.entryOf =
      Function.update sm.entryOf T (some (sm.entryOf T).join) := by
  rw [@entryOf_write κ _ sm _ T rfl fun i hi => SystemMap.getElem?_touch_ne hi]
  show Function.update sm.entryOf T
    (sm.systems.touch (sm.ids.getSystemId T).2)[(sm.ids.getSystemId T).2]? = _
  rw [SystemMap.getElem?_touch_self, getElem?_systemId]

theorem has_snd (sm : SystemManager κ) (T : κ) :
    (sm.has T).2 = (sm.entryOf T).join.isSome := by
  show (sm.systems.at_ _).isSome = _
  rw [SystemMap.at_, getElem?_systemId]

/-- Where there is an entry, `Has<T>()` changes nothing at all. -/
theorem has_of_entry (h : (sm.entryOf T).isSome) :
    sm.has T = (sm, (sm.entryOf T).join.isSome) := by
  obtain ⟨v, hv⟩ := Option.isSome_iff_exists.mp h
  obtain ⟨i, hi, hget⟩ := Option.bind_eq_some_iff.mp hv
  have hmem : i ∈ sm.systems := Std.TreeMap.mem_iff_isSome_getElem?.mpr (by rw [hget]; rfl)
  refine Prod.ext ?_ (has_snd sm T)
  simp only [has, TypeIds.getSystemId_of_some hi, SystemMap.touch, if_pos hmem]

/-- `Remove<T>()` leaves a null entry in any case. -/
theorem entryOf_remove (sm : SystemManager κ) (T : κ) : (sm.remove T).entryOf T = some none := by
  show (if (sm.has T).2 then (sm.has T).1.resetAt T else (sm.has T).1).entryOf T = some none
  split
  · rw [@entryOf_write κ _ (sm.has T).1 _ T rfl fun i hi => SystemMap.getElem?_insert_ne hi,
      Function.update_self]
    exact Std.TreeMap.getElem?_insert_self
  · rename_i hfalse
    rw [has_snd, Bool.not_eq_true, Option.isSome_eq_false_iff, Option.isNone_iff_eq_none] at hfalse
    rw [entryOf_has, Function.update_self, hfalse]

/-- `Activate<T>()` and `Deactivate<T>()` on a system. -/
theorem setActive_of_entry {active : Bool} (h : sm.entryOf T = some (some p)) :
    sm.setActive active T = some { sm with heap := sm.heap.set p active } := by
  have hentry : (sm.entryOf T).isSome := by rw [h]; rfl
  obtain ⟨i, hi, hget⟩ := Option.bind_eq_some_iff.mp h
  have hmem : i ∈ sm.systems := Std.TreeMap.mem_iff_isSome_getElem?.mpr (by rw [hget]; rfl)
  rw [setActive, has_of_entry hentry, h]
  show sm.setActiveAt active T = _
  simp only [setActiveAt, TypeIds.getSystemId_of_some hi, SystemMap.at_, hget, Option.join_some,
    SystemMap.touch, if_pos hmem]
  rfl

/-- Without one they are the lookup. -/
theorem setActive_of_null {active : Bool} (h : (sm.entryOf T).join = none) :
    sm.setActive active T = some (sm.has T).1 := by
  have hfalse : (sm.has T).2 = false := by rw [has_snd, h]; rfl
  show (if (sm.has T).2 then (sm.has T).1.setActiveAt active T else some (sm.has T).1) = _
  rw [hfalse]
  rfl

/-! ### `Update` -/

/-- The system of an entry, if it is active. -/
def activeOf (heap : List Bool) (entry : ℕ × Option ℕ) : Option ℕ :=
  entry.2.filter fun system => heap[system]? == some true

theorem activeOf_eq_some {heap : List Bool} {entry : ℕ × Option ℕ} :
    activeOf heap entry = some p ↔ entry.2 = some p ∧ heap[p]? = some true := by
  rw [activeOf, Option.filter_eq_some_iff, beq_iff_eq]

/-- One round of the loop, on an entry that is a system. -/
theorem visit_eq {heap : List Bool} {entry : ℕ × Option ℕ} (hp : entry.2 = some p)
    (hlt : p < heap.length) (calls : List ℕ) :
    visit heap calls entry = some (calls ++ (activeOf heap entry).toList) := by
  obtain ⟨b, hb⟩ : ∃ b, heap[p]? = some b := ⟨_, List.getElem?_eq_getElem hlt⟩
  cases b with
  | false => simp [visit, activeOf, hp, hb, Option.filter]
  | true => simp [visit, activeOf, hp, hb, Option.filter]

theorem visit_rounds {heap : List Bool} :
    ∀ {l : List (ℕ × Option ℕ)}, (∀ entry ∈ l, ∃ p, entry.2 = some p ∧ p < heap.length) →
      ∀ calls, l.foldlM (visit heap) calls = some (calls ++ l.filterMap (activeOf heap))
  | [], _, calls => by
      rw [List.filterMap_nil, List.append_nil]
      rfl
  | entry :: l, h, calls => by
      obtain ⟨p, hp, hlt⟩ := h entry List.mem_cons_self
      rw [List.foldlM_cons, visit_eq hp hlt, Option.bind_eq_bind, Option.bind_some,
        visit_rounds (fun e he => h e (List.mem_cons_of_mem _ he)), List.append_assoc]
      rcases e : activeOf heap entry with - | q
      · rw [List.filterMap_cons_none e]
        rfl
      · rw [List.filterMap_cons_some e]
        rfl

omit [DecidableEq κ] in
/-- The systems `Update` is to update are those stored and active. -/
theorem mem_active :
    p ∈ sm.systems.toList.filterMap (activeOf sm.heap) ↔
      ∃ T, sm.entryOf T = some (some p) ∧ sm.heap[p]? = some true := by
  rw [List.mem_filterMap]
  constructor
  · rintro ⟨⟨i, v⟩, hmem, hp⟩
    obtain ⟨rfl, hactive⟩ := activeOf_eq_some.mp hp
    obtain ⟨T, -, hT⟩ := mem_toList.mp hmem
    exact ⟨T, hT, hactive⟩
  · rintro ⟨T, hT, hactive⟩
    obtain ⟨i, hi, -⟩ := Option.bind_eq_some_iff.mp hT
    exact ⟨(i, some p), mem_toList.mpr ⟨T, hi, hT⟩, activeOf_eq_some.mpr ⟨rfl, hactive⟩⟩

omit [DecidableEq κ] in
/-- Where no system is stored for two types, it is updated once: two entries
with one system would have one key. -/
theorem nodup_active
    (h : ∀ S T p, sm.entryOf S = some (some p) → sm.entryOf T = some (some p) → S = T) :
    (sm.systems.toList.filterMap (activeOf sm.heap)).Nodup := by
  rw [List.Nodup, List.pairwise_filterMap]
  refine List.Pairwise.imp_of_mem (fun {x y} hx hy hne p hp q hq hpq => hne ?_)
    Std.TreeMap.distinct_keys_toList
  obtain ⟨S, hS, hS'⟩ := mem_toList.mp hx
  obtain ⟨T, hT, hT'⟩ := mem_toList.mp hy
  rw [(activeOf_eq_some.mp hp).1] at hS'
  rw [(activeOf_eq_some.mp hq).1, ← hpq] at hT'
  obtain rfl := h S T p hS' hT'
  rw [Std.LawfulEqCmp.compare_eq_iff_eq]
  exact Option.some.inj (hS.symm.trans hT)

end SystemManager

/-! ### The registry -/

namespace Registry

open SystemManager

/-- Before the first call. -/
def empty : Registry κ := fun _ => none

variable [DecidableEq κ]

/-- The registry after a call that returned the answer.  A type has one system:
`Add` on a registered type does not replace it. -/
def after (r : Registry κ) : Call κ → Answer → Registry κ
  | .add T, .system p => if (r T).isSome then r else Function.update r T (some (p, true))
  | .remove T, _ => Function.update r T none
  | .activate T, _ => Function.update r T ((r T).map fun e => (e.1, true))
  | .deactivate T, _ => Function.update r T ((r T).map fun e => (e.1, false))
  | _, _ => r

end Registry

namespace SystemManager

/-- A manager, and the registry of the calls made on it. -/
structure Traced (κ : Type) where
  sm : SystemManager κ
  reg : Registry κ

/-- Every entry `Update` walks over is a system, and it updates each system that
is registered and active once, and no other. -/
structure UpdatesExactly (x : Traced κ) : Prop where
  nonnull : ∀ entry ∈ x.sm.systems.toList, entry.2.isSome
  exact : ∃ systems, x.sm.update = some systems ∧ systems.Nodup ∧
    ∀ p, p ∈ systems ↔ ∃ T, x.reg T = some (p, true)

/-- The manager refines the registry: the entries are the systems registered. -/
structure Sound (x : Traced κ) : Prop where
  reg : ∀ T p b, x.reg T = some (p, b) ↔
    x.sm.entryOf T = some (some p) ∧ x.sm.heap[p]? = some b
  full : ∀ T v, x.sm.entryOf T = some v → ∃ p, v = some p ∧ p < x.sm.heap.length
  inj : ∀ S T p, x.sm.entryOf S = some (some p) → x.sm.entryOf T = some (some p) → S = T

namespace Sound

variable {x x' : Traced κ} {T : κ} {p : ℕ} {b : Bool}

theorem init (ids : TypeIds κ) : Sound ⟨SystemManager.init ids, Registry.empty⟩ where
  reg T p b := by
    rw [entryOf_init]
    exact ⟨nofun, fun h => nomatch h.1⟩
  full T v h := by
    rw [entryOf_init] at h
    cases h
  inj S T p h := by
    rw [entryOf_init] at h
    cases h

/-- A type is registered if and only if it has an entry. -/
theorem isSome_reg (h : Sound x) (T : κ) : (x.reg T).isSome ↔ (x.sm.entryOf T).isSome := by
  constructor
  · intro hT
    obtain ⟨⟨p, b⟩, hp⟩ := Option.isSome_iff_exists.mp hT
    rw [((h.reg T p b).mp hp).1]
    rfl
  · intro hT
    obtain ⟨v, hv⟩ := Option.isSome_iff_exists.mp hT
    obtain ⟨p, rfl, hlt⟩ := h.full T v hv
    rw [(h.reg T p _).mpr ⟨hv, List.getElem?_eq_getElem hlt⟩]
    rfl

/-- The entry of a registered type. -/
theorem exists_entry (h : Sound x) (hT : (x.reg T).isSome) :
    ∃ p, x.sm.entryOf T = some (some p) ∧ p < x.sm.heap.length := by
  obtain ⟨v, hv⟩ := Option.isSome_iff_exists.mp ((h.isSome_reg T).mp hT)
  obtain ⟨p, rfl, hlt⟩ := h.full T v hv
  exact ⟨p, hv, hlt⟩

theorem exists_system (h : Sound x) {entry : ℕ × Option ℕ}
    (hmem : entry ∈ x.sm.systems.toList) : ∃ p, entry.2 = some p ∧ p < x.sm.heap.length := by
  obtain ⟨T, -, hT⟩ := mem_toList.mp hmem
  exact h.full T _ hT

/-- In such a state `Update` is right. -/
theorem updatesExactly (h : Sound x) : UpdatesExactly x := by
  refine ⟨fun entry hmem => ?_, _, visit_rounds (fun entry => h.exists_system) [], ?_,
    fun p => ?_⟩
  · obtain ⟨p, hp, -⟩ := h.exists_system hmem
    rw [hp]
    rfl
  · rw [List.nil_append]
    exact nodup_active h.inj
  · rw [List.nil_append, mem_active]
    exact exists_congr fun T => (h.reg T p true).symm

end Sound

/-! ### Calls -/

variable [DecidableEq κ] {sm sm' : SystemManager κ} {x x' : Traced κ} {S T : κ} {p : ℕ}

/-- Make a call, and note it in the registry. -/
def trace (x : Traced κ) (c : Call κ) : Option (Traced κ) :=
  (call x.sm c).map fun a => ⟨a.1, x.reg.after c a.2⟩

/-- No later calls tell the two managers apart. -/
def Unseen (sm sm' : SystemManager κ) : Prop := ∀ calls, answers sm' calls = answers sm calls

/-- What each call is to keep: `Update` is right after it, and `Has` is not seen
later. -/
def Lawful (x : Traced κ) (c : Call κ) (x' : Traced κ) : Prop :=
  UpdatesExactly x' ∧ ∀ T, c = .has T → Unseen x.sm x'.sm

/-- No `Remove`; and `Has`, `Activate` and `Deactivate` on registered types
only. -/
def Careful (x : Traced κ) : Call κ → Prop
  | .add _ => True
  | .remove _ => False
  | .activate T => (x.reg T).isSome
  | .deactivate T => (x.reg T).isSome
  | .has T => (x.reg T).isSome
  | .update => True

omit [DecidableEq κ] in
/-- A system constructed later changes nothing for those registered. -/
theorem Sound.reg_append (h : Sound x) (S : κ) (p : ℕ) (b : Bool) :
    x.reg S = some (p, b) ↔
      x.sm.entryOf S = some (some p) ∧ (x.sm.heap ++ [true])[p]? = some b := by
  rw [h.reg]
  refine and_congr_right fun hS => ?_
  obtain ⟨p', hp', hlt⟩ := h.full S _ hS
  obtain rfl := Option.some.inj hp'
  rw [List.getElem?_append_left hlt]

/-- `Add<T>` on a registered type constructs a system and leaves it at that. -/
theorem Sound.add_of_registered (h : Sound x) (hT : (x.reg T).isSome) :
    Sound ⟨(x.sm.add T).1, x.reg⟩ := by
  obtain ⟨q, hq, -⟩ := h.exists_entry hT
  have hentry : (x.sm.add T).1.entryOf = x.sm.entryOf := by
    rw [entryOf_add, hq, Option.getD_some, ← hq, Function.update_eq_self]
  have hheap : (x.sm.add T).1.heap = x.sm.heap ++ [true] := rfl
  refine ⟨fun S p b => ?_, fun S v hv => ?_, fun R S p => ?_⟩
  · rw [hentry, hheap]
    exact h.reg_append S p b
  · rw [hentry] at hv
    obtain ⟨p, hp, hlt⟩ := h.full S v hv
    rw [hheap, List.length_append]
    exact ⟨p, hp, hlt.trans_le (Nat.le_add_right _ _)⟩
  · rw [hentry]
    exact h.inj R S p

omit [DecidableEq κ] in
/-- The system constructed next has no entry yet. -/
theorem Sound.entryOf_ne_length (h : Sound x) (S : κ) :
    x.sm.entryOf S ≠ some (some x.sm.heap.length) := by
  intro hS
  obtain ⟨p, hp, hlt⟩ := h.full S _ hS
  rw [← Option.some.inj hp] at hlt
  exact absurd hlt (Nat.lt_irrefl _)

/-- `Add<T>` on a type without a system registers the one it constructs. -/
theorem Sound.add_of_new (h : Sound x) (hT : x.reg T = none) :
    Sound ⟨(x.sm.add T).1, Function.update x.reg T (some (x.sm.heap.length, true))⟩ := by
  have hnone : x.sm.entryOf T = none := by
    rw [← Option.not_isSome_iff_eq_none, ← h.isSome_reg, hT]
    exact Bool.false_ne_true
  have hentry : (x.sm.add T).1.entryOf =
      Function.update x.sm.entryOf T (some (some x.sm.heap.length)) := by
    rw [entryOf_add, hnone, Option.getD_none]
  have hheap : (x.sm.add T).1.heap = x.sm.heap ++ [true] := rfl
  refine ⟨fun S p b => ?_, fun S v hv => ?_, fun R S p hR hS => ?_⟩
  · rw [hentry, hheap]
    show Function.update x.reg T (some (x.sm.heap.length, true)) S = some (p, b) ↔ _
    by_cases hST : S = T
    · subst hST
      rw [Function.update_self, Function.update_self]
      constructor
      · intro e
        obtain ⟨rfl, rfl⟩ := Prod.mk.inj (Option.some.inj e)
        exact ⟨rfl, List.getElem?_concat_length⟩
      · rintro ⟨hp, hb⟩
        obtain rfl := Option.some.inj (Option.some.inj hp)
        rw [List.getElem?_concat_length] at hb
        rw [Option.some.inj hb]
    · rw [Function.update_of_ne hST, Function.update_of_ne hST]
      exact h.reg_append S p b
  · rw [hheap, List.length_append, List.length_singleton]
    by_cases hST : S = T
    · subst hST
      rw [hentry, Function.update_self] at hv
      exact ⟨_, (Option.some.inj hv).symm, Nat.lt_succ_self _⟩
    · rw [hentry, Function.update_of_ne hST] at hv
      obtain ⟨p, hp, hlt⟩ := h.full S v hv
      exact ⟨p, hp, hlt.trans (Nat.lt_succ_self _)⟩
  · rw [hentry] at hR hS
    -- the new system has one entry, and no old one
    by_cases hRT : R = T <;> by_cases hST : S = T
    · rw [hRT, hST]
    · rw [hRT, Function.update_self] at hR
      rw [Function.update_of_ne hST, ← hR] at hS
      exact absurd hS (h.entryOf_ne_length S)
    · rw [hST, Function.update_self] at hS
      rw [Function.update_of_ne hRT, ← hS] at hR
      exact absurd hR (h.entryOf_ne_length R)
    · rw [Function.update_of_ne hRT] at hR
      rw [Function.update_of_ne hST] at hS
      exact h.inj R S p hR hS

/-- `Activate<T>` and `Deactivate<T>` on a registered type. -/
theorem Sound.setActive (h : Sound x) (hT : (x.reg T).isSome) (active : Bool) :
    ∃ sm', x.sm.setActive active T = some sm' ∧ Sound ⟨sm',
      Function.update x.reg T ((x.reg T).map fun e => (e.1, active))⟩ := by
  obtain ⟨q, hq, hlt⟩ := h.exists_entry hT
  refine ⟨_, setActive_of_entry hq, fun S p b => ?_, fun S v hv => ?_, h.inj⟩
  · show Function.update x.reg T ((x.reg T).map fun e => (e.1, active)) S = some (p, b) ↔
      x.sm.entryOf S = some (some p) ∧ (x.sm.heap.set q active)[p]? = some b
    by_cases hST : S = T
    · subst hST
      rw [Function.update_self, (h.reg S q _).mpr ⟨hq, List.getElem?_eq_getElem hlt⟩, hq]
      constructor
      · intro e
        obtain ⟨rfl, rfl⟩ := Prod.mk.inj (Option.some.inj e)
        exact ⟨rfl, List.getElem?_set_self hlt⟩
      · rintro ⟨hp, hb⟩
        obtain rfl := Option.some.inj (Option.some.inj hp)
        rw [List.getElem?_set_self hlt] at hb
        rw [Option.map_some, Option.some.inj hb]
    · rw [Function.update_of_ne hST, h.reg]
      refine and_congr_right fun hS => ?_
      -- another type has another system
      have hne : q ≠ p := by
        rintro rfl
        exact hST (h.inj S T q hS hq)
      rw [List.getElem?_set_ne hne]
  · obtain ⟨p, hp, hlt⟩ := h.full S v hv
    refine ⟨p, hp, ?_⟩
    show p < (x.sm.heap.set q active).length
    rwa [List.length_set]

/-- A careful call is defined, and leads from a sound state to one. -/
theorem Sound.trace (h : Sound x) {c : Call κ} (hc : Careful x c) :
    ∃ x', SystemManager.trace x c = some x' ∧ Sound x' ∧ ∀ T, c = .has T → x' = x := by
  cases c with
  | add T =>
    rcases hT : x.reg T with - | e
    · refine ⟨_, rfl, ?_, nofun⟩
      show Sound ⟨(x.sm.add T).1, if (x.reg T).isSome then x.reg else _⟩
      rw [hT]
      exact h.add_of_new hT
    · have hsome : (x.reg T).isSome := by rw [hT]; rfl
      refine ⟨_, rfl, ?_, nofun⟩
      show Sound ⟨(x.sm.add T).1, if (x.reg T).isSome then x.reg else _⟩
      rw [if_pos hsome]
      exact h.add_of_registered hsome
  | remove T => exact hc.elim
  | activate T =>
    obtain ⟨sm', hsm, hs⟩ := h.setActive hc true
    refine ⟨_, ?_, hs, nofun⟩
    rw [SystemManager.trace, call, activate, hsm]
    rfl
  | deactivate T =>
    obtain ⟨sm', hsm, hs⟩ := h.setActive hc false
    refine ⟨_, ?_, hs, nofun⟩
    rw [SystemManager.trace, call, deactivate, hsm]
    rfl
  | has T =>
    have hsame := has_of_entry ((h.isSome_reg T).mp hc)
    refine ⟨x, ?_, h, fun _ _ => rfl⟩
    rw [SystemManager.trace, call, hsame]
    rfl
  | update =>
    obtain ⟨-, systems, hs, -⟩ := h.updatesExactly
    refine ⟨x, ?_, h, nofun⟩
    rw [SystemManager.trace, call, hs]
    rfl

omit [DecidableEq κ] in
/-- Where no entry is null, no type has a null entry. -/
theorem UpdatesExactly.entryOf_ne (h : UpdatesExactly x) (T : κ) :
    x.sm.entryOf T ≠ some none := by
  intro hT
  obtain ⟨i, hi, -⟩ := Option.bind_eq_some_iff.mp hT
  have := h.nonnull (i, none) (mem_toList.mpr ⟨T, hi, hT⟩)
  cases this

/-- A call that is not careful leaves a null entry. -/
theorem Sound.null_of_not_careful (h : Sound x) {c : Call κ} (hc : ¬ Careful x c)
    (hs : SystemManager.trace x c = some x') : ∃ T, x'.sm.entryOf T = some none := by
  -- a lookup of a type that is not registered
  have hlookup : ∀ T, ¬ (x.reg T).isSome → (x.sm.entryOf T).join = none ∧
      (x.sm.has T).1.entryOf T = some none := by
    intro T hT
    rw [h.isSome_reg, Bool.not_eq_true, Option.isSome_eq_false_iff,
      Option.isNone_iff_eq_none] at hT
    rw [entryOf_has, Function.update_self, hT]
    exact ⟨rfl, rfl⟩
  obtain ⟨a, ha, rfl⟩ := Option.map_eq_some_iff.mp hs
  cases c with
  | add T => exact absurd trivial hc
  | remove T =>
    obtain rfl := Option.some.inj ha
    exact ⟨T, entryOf_remove x.sm T⟩
  | activate T =>
    obtain ⟨sm', hsm, rfl⟩ := Option.map_eq_some_iff.mp ha
    obtain ⟨hjoin, hnull⟩ := hlookup T hc
    rw [activate, setActive_of_null hjoin] at hsm
    exact ⟨T, Option.some.inj hsm ▸ hnull⟩
  | deactivate T =>
    obtain ⟨sm', hsm, rfl⟩ := Option.map_eq_some_iff.mp ha
    obtain ⟨hjoin, hnull⟩ := hlookup T hc
    rw [deactivate, setActive_of_null hjoin] at hsm
    exact ⟨T, Option.some.inj hsm ▸ hnull⟩
  | has T =>
    obtain rfl := Option.some.inj ha
    exact ⟨T, (hlookup T hc).2⟩
  | update => exact absurd trivial hc

/-- From a sound state a call keeps the law precisely if it is careful. -/
theorem Sound.careful_iff (h : Sound x) (c : Call κ) :
    Careful x c ↔ ∃ x', SystemManager.trace x c = some x' ∧ Lawful x c x' := by
  constructor
  · intro hc
    obtain ⟨x', hx', hs, hsame⟩ := h.trace hc
    refine ⟨x', hx', hs.updatesExactly, fun T hT calls => ?_⟩
    rw [hsame T hT]
  · -- a null entry is all it takes to break the law
    rintro ⟨x', hx', hlaw, -⟩
    by_contra hc
    obtain ⟨T, hT⟩ := h.null_of_not_careful hc hx'
    exact hlaw.entryOf_ne T hT

/-- One `Has<T>` is not seen later precisely where `T` has an entry. -/
theorem unseen_has_iff (sm : SystemManager κ) (T : κ) :
    Unseen sm (sm.has T).1 ↔ (sm.entryOf T).isSome := by
  constructor
  · intro h
    by_contra hT
    rw [Bool.not_eq_true, Option.isSome_eq_false_iff, Option.isNone_iff_eq_none] at hT
    -- `Add<T>` registers a system only without the lookup
    have hbefore : ((sm.add T).1.has T).2 = true := by
      rw [has_snd, entryOf_add, Function.update_self, hT]
      rfl
    have hafter : (((sm.has T).1.add T).1.has T).2 = false := by
      rw [has_snd, entryOf_add, Function.update_self, entryOf_has, Function.update_self, hT]
      rfl
    have hsame : answers (sm.has T).1 [.add T, .has T] = answers sm [.add T, .has T] := h _
    have hl : answers (sm.has T).1 [.add T, .has T] =
        some [.system (sm.has T).1.heap.length, .bool (((sm.has T).1.add T).1.has T).2] := rfl
    have hr : answers sm [.add T, .has T] =
        some [.system sm.heap.length, .bool ((sm.add T).1.has T).2] := rfl
    rw [hl, hr, hbefore, hafter] at hsame
    simp at hsame
  · intro hT calls
    rw [has_of_entry hT]

/-- **The system manager is right in the runs that leave no null entry.** A run
keeps the law throughout, that every entry `Update` walks over is a system, that
it updates exactly the registered and active systems, and that `Has` is not
seen later, if and only if no `Remove` is called, and `Has<T>`, `Activate<T>`
and `Deactivate<T>` only when `T` is registered.  One `Has<T>` goes unseen in
exactly the states in which `T` has an entry, null or not. -/
theorem lawful_iff_careful (ids : TypeIds κ) :
    (∀ calls : List (Call κ),
      Machine.Throughout trace Lawful ⟨init ids, Registry.empty⟩ calls ↔
        Machine.Along trace Careful ⟨init ids, Registry.empty⟩ calls) ∧
    ∀ (sm : SystemManager κ) (T : κ),
      Unseen sm (sm.has T).1 ↔ (sm.entryOf T).isSome := by
  refine ⟨fun calls => ?_, unseen_has_iff⟩
  refine Machine.throughout_iff_along (I := Sound) (P := fun _ _ => True)
    (fun x c h _ => h.careful_iff c) (fun x c x' h _ hc hx' => ?_) (Sound.init ids)
    (Machine.Along.of_forall (fun _ _ => trivial) _ calls)
  obtain ⟨y, hy, hs, -⟩ := h.trace hc
  rw [hx', Option.some.injEq] at hy
  exact hy ▸ hs

/-- After `Add` and `Remove` the next `Update` has undefined behaviour; and so
it has after one `Has`. -/
theorem update_derefs_null :
    let sm : SystemManager Unit := init .init
    let calls : List (Call Unit) := [.add (), .remove (), .update]
    answers sm [.add (), .remove ()] = some [.system 0, .done] ∧ answers sm calls = none ∧
      answers sm [.update] = some [.updated []] ∧ answers sm [.has (), .update] = none ∧
      ¬ Machine.Throughout trace Lawful ⟨sm, Registry.empty⟩ calls := by
  refine ⟨rfl, rfl, rfl, rfl, fun h => ?_⟩
  have hdefined := h.run_isSome
  have hnone : Machine.run trace ⟨init .init, Registry.empty⟩ [.add (), .remove (), .update] =
      none := rfl
  rw [hnone] at hdefined
  cases hdefined

end SystemManager

end Indie
