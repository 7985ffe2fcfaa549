/-
Indie/SystemOrder.lean

The order in which `Update` calls the systems.

`Update` walks over a `std::map` from ids to systems, and the ids are drawn, for
all the managers of a program together, when a type is first named in a call.  So
the systems are updated in the order in which the program first named their types:
not in the order of `Add`, and also when it was `Has` that named the type, or a call
of another manager.

A `Plan` is a program without the ids and without the maps: the types that were
named, in order, and for each manager the entry of each type and which of its
systems are active.  Its `Update` goes through the types that were named.  Any
interleaving of the calls of any managers returns in the program what it returns in
the plan (`program_eq_plan`).  Beyond the order of the types, the calls of one
manager are not seen by another.
-/
import Indie.Library.SwapList
import Indie.SystemAdd

namespace Indie

variable {κ μ : Type}

/-! ### The plan -/

/-- What the calls of a manager leave: the entry of each type, and for each system
whether it is active. -/
structure Agenda (κ : Type) where
  entries : κ → Option (Option ℕ)
  active : List Bool

namespace Agenda

/-- A new manager. -/
def empty : Agenda κ := ⟨fun _ => none, []⟩

/-- `Update()`, where the program has named the types of `names`: undefined if one of
them has a null entry, and otherwise the systems that are active, in this order. -/
def update (names : List κ) (a : Agenda κ) : Option (List ℕ) :=
  ((names.filterMap a.entries).mapM id).map (·.filter fun p => a.active[p]? == some true)

variable [DecidableEq κ]

/-- Give a type an entry. -/
def enter (a : Agenda κ) (T : κ) (v : Option ℕ) : Agenda κ :=
  { a with entries := Function.update a.entries T (some v) }

/-- `Activate<T>()` and `Deactivate<T>()`: where there is no system they leave a null
entry. -/
def switch (active : Bool) (a : Agenda κ) (T : κ) : Agenda κ :=
  match (a.entries T).join with
  | some p => { a with active := a.active.set p active }
  | none => a.enter T none

open SystemManager in
/-- A call, and what it returns. -/
def call (names : List κ) (a : Agenda κ) : Call κ → Option (Agenda κ × Answer)
  | .add T => some (⟨Function.update a.entries T
      (some ((a.entries T).getD (some a.active.length))), a.active ++ [true]⟩,
        .system a.active.length)
  | .remove T => some (a.enter T none, .done)
  | .activate T => some (a.switch true T, .done)
  | .deactivate T => some (a.switch false T, .done)
  | .has T => some (a.enter T (a.entries T).join, .bool (a.entries T).join.isSome)
  | .update => (a.update names).map fun systems => (a, .updated systems)

end Agenda

/-- The types named so far, and the managers. -/
structure Plan (μ κ : Type) where
  names : List κ
  agenda : μ → Agenda κ

namespace Plan

variable [DecidableEq κ] [DecidableEq μ]

/-- Before the first call. -/
def empty : Plan μ κ := ⟨[], fun _ => .empty⟩

/-- The types named after a call. -/
def named (names : List κ) (c : SystemManager.Call κ) : List κ :=
  match c.subject with
  | some T => SwapList.add names T
  | none => names

/-- The manager `call.1` makes a call. -/
def step (p : Plan μ κ) (call : μ × SystemManager.Call κ) :
    Option (Plan μ κ × SystemManager.Answer) := do
  let (a, answer) ← (p.agenda call.1).call p.names call.2
  return (⟨named p.names call.2, Function.update p.agenda call.1 a⟩, answer)

end Plan

namespace SystemManager

variable [DecidableEq κ] [DecidableEq μ]

/-! ### The program -/

/-- A manager, after `GetSystemId<T>()` was called elsewhere in the program. -/
def numbers (sm : SystemManager κ) (T : κ) : SystemManager κ :=
  ⟨(sm.ids.getSystemId T).1, sm.heap, sm.systems, fun _ hi => sm.keys_getSystemId T (.inr hi)⟩

/-- A manager, after another one was called. -/
def sees (sm : SystemManager κ) (c : Call κ) : SystemManager κ :=
  match c.subject with
  | some T => sm.numbers T
  | none => sm

/-- The manager `call.1` of a program makes a call. -/
def programStep (managers : μ → SystemManager κ) (call : μ × Call κ) :
    Option ((μ → SystemManager κ) × Answer) := do
  let (sm, answer) ← (managers call.1).call call.2
  return (fun m => if m = call.1 then sm else (managers m).sees call.2, answer)

/-! ### Ids -/

/-- The types have their ids in the order of a list. -/
structure Numbered (ids : TypeIds κ) (names : List κ) : Prop where
  id_iff : ∀ T i, ids.id T = some i ↔ names[i]? = some T
  cur : ids.cur = names.length

variable {ids : TypeIds κ} {names : List κ} {sm : SystemManager κ} {a : Agenda κ} {T : κ}

theorem Numbered.getSystemId (h : Numbered ids names) (T : κ) :
    Numbered (ids.getSystemId T).1 (SwapList.add names T) := by
  rcases hT : ids.id T with - | i
  · have hnotMem : T ∉ names := by
      intro hmem
      obtain ⟨i, hi⟩ := List.mem_iff_getElem?.mp hmem
      rw [← h.id_iff, hT] at hi
      cases hi
    rw [TypeIds.getSystemId_of_none hT, SwapList.add_of_notMem hnotMem]
    refine ⟨fun S i => ?_, by rw [List.length_append, ← h.cur]; rfl⟩
    show Function.update ids.id T (some ids.cur) S = some i ↔ _
    by_cases hST : S = T
    · subst hST
      rw [Function.update_self, Option.some.injEq, h.cur]
      constructor
      · rintro rfl
        exact List.getElem?_concat_length
      · intro hi
        have hle := (List.getElem?_eq_some_iff.mp hi).1
        rw [List.length_append, List.length_singleton, Nat.lt_succ_iff] at hle
        refine (Nat.le_antisymm hle (Nat.le_of_not_lt fun hlt => ?_)).symm
        rw [List.getElem?_append_left hlt] at hi
        exact hnotMem (List.mem_of_getElem? hi)
    · rw [Function.update_of_ne hST, h.id_iff]
      constructor
      · intro hi
        rw [List.getElem?_append_left (List.getElem?_eq_some_iff.mp hi).1]
        exact hi
      · intro hi
        rcases Nat.lt_or_ge i names.length with hlt | hge
        · rwa [List.getElem?_append_left hlt] at hi
        · rw [List.getElem?_append_right hge, List.getElem?_singleton] at hi
          split at hi
          · exact absurd (Option.some.inj hi).symm hST
          · cases hi
  · rw [TypeIds.getSystemId_of_some hT,
      SwapList.add_of_mem (List.mem_of_getElem? ((h.id_iff T i).mp hT))]
    exact h

/-- A type named twice has its id from the first time. -/
theorem getSystemId_twice (ids : TypeIds κ) (T : κ) :
    ((ids.getSystemId T).1.getSystemId T).1 = (ids.getSystemId T).1 := by
  rw [TypeIds.getSystemId_of_some (ids.id_getSystemId_self T)]

/-- The ids after a call. -/
theorem ids_call {c : Call κ} {r : SystemManager κ × Answer} (hs : sm.call c = some r) :
    r.1.ids = (sm.sees c).ids := by
  have hactive : ∀ active T, ∀ sm', sm.setActive active T = some sm' →
      sm'.ids = (sm.ids.getSystemId T).1 := by
    intro active T sm' hs
    rcases setActive_cases hs with ⟨p, hp, rfl⟩ | ⟨-, rfl⟩
    · obtain ⟨i, hi, -⟩ := Option.bind_eq_some_iff.mp hp
      rw [TypeIds.getSystemId_of_some hi]
    · rfl
  cases c with
  | add T =>
    obtain rfl := Option.some.inj hs
    rfl
  | remove T =>
    obtain rfl := Option.some.inj hs
    show (if (sm.has T).2 then (sm.has T).1.resetAt T else (sm.has T).1).ids = _
    split
    · exact getSystemId_twice sm.ids T
    · rfl
  | activate T =>
    obtain ⟨sm', hsm, rfl⟩ := Option.map_eq_some_iff.mp hs
    exact hactive true T sm' hsm
  | deactivate T =>
    obtain ⟨sm', hsm, rfl⟩ := Option.map_eq_some_iff.mp hs
    exact hactive false T sm' hsm
  | has T =>
    obtain rfl := Option.some.inj hs
    rfl
  | update =>
    obtain ⟨systems, -, rfl⟩ := Option.map_eq_some_iff.mp hs
    rfl

/-! ### The manager and its agenda -/

/-- A manager keeps the agenda, in a program that has named the types of `names`. -/
structure Follows (names : List κ) (sm : SystemManager κ) (a : Agenda κ) : Prop where
  numbered : Numbered sm.ids names
  entries : sm.entryOf = a.entries
  active : sm.heap = a.active
  entered : Entered sm

omit [DecidableEq κ] in
theorem Follows.init : Follows [] (init .init) (.empty : Agenda κ) where
  numbered := ⟨fun _ _ => ⟨nofun, nofun⟩, rfl⟩
  entries := funext fun T => entryOf_init .init T
  active := rfl
  entered := entered_init .init

omit [DecidableEq κ] in
/-- The map walks over the entries in the order in which their types were named. -/
theorem Follows.toList_eq (h : Follows names sm a) :
    sm.systems.toList.map Prod.snd = names.filterMap a.entries := by
  -- the entries with the positions of their types: both lists are sorted by the key
  have hkeys : sm.systems.toList =
      names.zipIdx.filterMap fun T => (a.entries T.1).map fun v => (T.2, v) := by
    have : Std.Antisymm fun x y : ℕ × Option ℕ => x.1 < y.1 :=
      ⟨fun _ _ hxy hyx => absurd hyx (Nat.lt_asymm hxy)⟩
    have : Std.Irrefl fun x y : ℕ × Option ℕ => x.1 < y.1 := ⟨fun x => Nat.lt_irrefl x.1⟩
    refine List.Pairwise.eq_of_mem_iff (r := fun x y => x.1 < y.1) ?_ ?_ fun ⟨i, v⟩ => ?_
    · exact Std.TreeMap.ordered_keys_toList.imp Nat.compare_eq_lt.mp
    · rw [List.pairwise_filterMap]
      have hpos : names.zipIdx.Pairwise fun S T => S.2 < T.2 := by
        rw [← List.pairwise_map (f := Prod.snd), List.zipIdx_map_snd]
        exact List.pairwise_lt_range'
      refine hpos.imp fun {S T} hST x hx y hy => ?_
      obtain ⟨v, -, rfl⟩ := Option.map_eq_some_iff.mp hx
      obtain ⟨w, -, rfl⟩ := Option.map_eq_some_iff.mp hy
      exact hST
    · rw [mem_toList, List.mem_filterMap]
      constructor
      · rintro ⟨T, hT, hv⟩
        rw [h.entries] at hv
        exact ⟨(T, i), List.mk_mem_zipIdx_iff_getElem?.mpr ((h.numbered.id_iff T i).mp hT),
          by rw [hv]; rfl⟩
      · rintro ⟨⟨T, j⟩, hmem, hT⟩
        obtain ⟨w, hw, hiv⟩ := Option.map_eq_some_iff.mp hT
        obtain ⟨rfl, rfl⟩ := Prod.mk.inj hiv
        exact ⟨T, (h.numbered.id_iff T j).mpr (List.mk_mem_zipIdx_iff_getElem?.mp hmem),
          h.entries ▸ hw⟩
  calc sm.systems.toList.map Prod.snd
      = names.zipIdx.filterMap (a.entries ∘ Prod.fst) := by
        rw [hkeys, List.map_filterMap]
        refine List.filterMap_congr fun T _ => ?_
        rw [Option.map_map]
        exact Option.map_id'
    _ = names.filterMap a.entries := by
        rw [← List.filterMap_map, List.zipIdx_map_fst]

omit [DecidableEq κ] in
/-- The loop of `Update`, over entries that are null or systems. -/
theorem visit_mapM {heap : List Bool} :
    ∀ {l : List (ℕ × Option ℕ)}, (∀ entry ∈ l, ∀ p, entry.2 = some p → p < heap.length) →
      ∀ calls, l.foldlM (visit heap) calls = ((l.map Prod.snd).mapM id).map fun systems =>
        calls ++ systems.filter fun p => heap[p]? == some true
  | [], _, calls => congrArg some (List.append_nil calls).symm
  | (i, none) :: l, _, calls => rfl
  | (i, some p) :: l, h, calls => by
      have hlt := h (i, some p) List.mem_cons_self p rfl
      rw [List.foldlM_cons, visit_eq rfl hlt, Option.bind_eq_bind, Option.bind_some,
        visit_mapM fun e he => h e (List.mem_cons_of_mem _ he)]
      rw [List.map_cons, List.mapM_cons]
      rcases ((l.map Prod.snd).mapM id : Option (List ℕ)) with - | systems
      · rfl
      · refine congrArg some ((List.append_assoc ..).trans (congrArg (calls ++ ·) ?_))
        rw [activeOf, Option.filter_some, List.filter_cons]
        split <;> rfl

omit [DecidableEq κ] in
theorem Follows.update (h : Follows names sm a) : sm.update = a.update names := by
  have hlt : ∀ entry ∈ sm.systems.toList, ∀ p, entry.2 = some p → p < sm.heap.length := by
    rintro ⟨i, v⟩ hmem p rfl
    obtain ⟨T, -, hT⟩ := mem_toList.mp hmem
    exact h.entered.lt hT
  rw [SystemManager.update, visit_mapM hlt, h.toList_eq, Agenda.update, h.active]
  rfl

/-! ### Calls -/

theorem entryOf_numbers (sm : SystemManager κ) (T : κ) : (sm.numbers T).entryOf = sm.entryOf := by
  rw [@entryOf_write κ _ sm (sm.numbers T) T rfl fun _ _ => rfl]
  show Function.update sm.entryOf T sm.systems[(sm.ids.getSystemId T).2]? = _
  rw [getElem?_systemId, Function.update_eq_self]

/-- A call of another manager names a type, and that is all. -/
theorem Follows.sees (h : Follows names sm a) (c : Call κ) :
    Follows (Plan.named names c) (sm.sees c) a := by
  rw [Plan.named, SystemManager.sees]
  rcases c.subject with - | T
  · exact h
  · exact {
      numbered := h.numbered.getSystemId T
      entries := (entryOf_numbers sm T).trans h.entries
      active := h.active
      entered := ⟨fun {S p} hS => h.entered.lt (entryOf_numbers sm T ▸ hS), fun {S S' p} hS hS' =>
        h.entered.inj (entryOf_numbers sm T ▸ hS) (entryOf_numbers sm T ▸ hS')⟩ }

/-- A call that does to the entries and the systems what the agenda says. -/
theorem Follows.rel (h : Follows names sm a) {c : Call κ} {sm' : SystemManager κ}
    {a' : Agenda κ} {answer : Answer} (hs : sm.call c = some (sm', answer))
    (ha : a.call names c = some (a', answer)) (hentries : sm'.entryOf = a'.entries)
    (hactive : sm'.heap = a'.active) :
    Option.Rel (fun x y => x.2 = y.2 ∧ Follows (Plan.named names c) x.1 y.1)
      (sm.call c) (a.call names c) := by
  have hnext : next sm c = some sm' := by rw [next, hs]; rfl
  rw [hs, ha]
  refine .some ⟨rfl, ?_, hentries, hactive, h.entered.next hnext⟩
  rw [ids_call hs]
  exact (h.sees c).numbered

theorem Follows.setActive (h : Follows names sm a) (active : Bool) (T : κ) :
    ∃ sm', sm.setActive active T = some sm' ∧ sm'.entryOf = (a.switch active T).entries ∧
      sm'.heap = (a.switch active T).active := by
  rw [Agenda.switch, ← h.entries]
  rcases hj : (sm.entryOf T).join with - | p
  · refine ⟨_, setActive_of_null hj, ?_, h.active⟩
    rw [entryOf_has, hj, h.entries]
    rfl
  · exact ⟨_, setActive_of_entry (Option.join_eq_some_iff.mp hj), rfl,
      congrArg (List.set · p active) h.active⟩

/-- A call is defined in the manager where it is in the agenda, and returns the same. -/
theorem Follows.call (h : Follows names sm a) (c : Call κ) :
    Option.Rel (fun x y => x.2 = y.2 ∧ Follows (Plan.named names c) x.1 y.1)
      (sm.call c) (a.call names c) := by
  cases c with
  | add T =>
    have ha : a.call names (.add T) = some (⟨Function.update a.entries T
        (some ((a.entries T).getD (some sm.heap.length))), a.active ++ [true]⟩,
          .system sm.heap.length) := by
      rw [Agenda.call, h.active]
    refine h.rel rfl ha ?_ (congrArg (· ++ [true]) h.active)
    rw [entryOf_add, h.entries]
  | remove T =>
    refine h.rel rfl rfl ?_ ((heap_remove sm T).trans h.active)
    rw [entryOf_remove_eq, h.entries]
    rfl
  | activate T =>
    obtain ⟨sm', hs, hentries, hactive⟩ := h.setActive true T
    exact h.rel (by rw [SystemManager.call, activate, hs]; rfl) rfl hentries hactive
  | deactivate T =>
    obtain ⟨sm', hs, hentries, hactive⟩ := h.setActive false T
    exact h.rel (by rw [SystemManager.call, deactivate, hs]; rfl) rfl hentries hactive
  | has T =>
    have hs : sm.call (.has T) = some ((sm.has T).1, .bool (a.entries T).join.isSome) := by
      rw [SystemManager.call, has_snd, h.entries]
    refine h.rel hs rfl ?_ h.active
    rw [entryOf_has, h.entries]
    rfl
  | update =>
    rcases hs : a.update names with - | systems
    · rw [SystemManager.call, Agenda.call, h.update, hs]
      exact .none
    · exact h.rel (by rw [SystemManager.call, h.update, hs]; rfl)
        (by rw [Agenda.call, hs]; rfl) h.entries h.active

/-- **`Update` follows the order in which the program named the types.**  Whatever
calls the managers of a program make, in whatever order, they return what they
return in the plan, and have undefined behaviour where it has. -/
theorem program_eq_plan (calls : List (μ × Call κ)) :
    (Machine.run (Machine.logged programStep) ((fun _ => init .init), []) calls).map Prod.snd =
      (Machine.run (Machine.logged Plan.step) (Plan.empty, []) calls).map Prod.snd := by
  have hstep : ∀ (managers : μ → SystemManager κ) (p : Plan μ κ) (call : μ × Call κ),
      (∀ m, Follows p.names (managers m) (p.agenda m)) →
        Option.Rel (fun x y => x.2 = y.2 ∧ ∀ m, Follows y.1.names (x.1 m) (y.1.agenda m))
          (programStep managers call) (p.step call) := by
    intro managers p call h
    have hcall := (h call.1).call call.2
    rw [programStep, Plan.step]
    revert hcall
    generalize (managers call.1).call call.2 = x, (p.agenda call.1).call p.names call.2 = y
    intro hcall
    cases hcall with
    | none => exact .none
    | some hxy =>
      refine .some ⟨hxy.1, fun m => ?_⟩
      show Follows (Plan.named p.names call.2) (if m = call.1 then _ else _)
        (Function.update p.agenda call.1 _ m)
      by_cases hm : m = call.1
      · subst hm
        rw [if_pos rfl, Function.update_self]
        exact hxy.2
      · rw [if_neg hm, Function.update_of_ne hm]
        exact (h m).sees call.2
  exact Machine.run_logged_eq Plan.step (P := fun _ _ => True)
    (fun managers p call h _ => hstep managers p call h) (s := fun _ => init .init)
    (t := Plan.empty) [] calls (fun _ => Follows.init)
    (Machine.Along.of_forall (fun _ _ => trivial) _ calls)

/-- Two managers: the first has named `true`, so the second updates the system of
`true`, which it added last, first. -/
example : (Machine.run (Machine.logged programStep) ((fun _ : Bool => init .init), [])
    [(false, .has true), (true, .add false), (true, .add true), (true, .update)]).map Prod.snd =
      some [.bool false, .system 0, .system 1, .updated [1, 0]] := by
  rfl

end SystemManager

end Indie
