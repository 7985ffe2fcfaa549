/-
Indie/Rename.lean

Managers do not look at the ids.

An id is compared with other ids and stored, and that is all: with every id under
another name (`f`, a permutation) a world answers every question with the answer
renamed (`World.ask_rename`), and a call does to it what it did (`World.onPools_rename`,
`World.destroyEt_rename`).  The list of the waiting ids is as indifferent, but for its
capacity, which is above every id that ever waited; so where both are defined, a call
on a realm and on a renamed one do the same (`Realm.Renamed.step`).
-/
import Indie.Realm

namespace Indie

variable {κ : Type} {Comp : κ → Type} {w : ℕ} (f : Equiv.Perm (BitVec w))

/-! ### Renaming -/

/-- The owners under their new names; the row of components is what it is. -/
def Slots.rename {α : Type} (s : Slots α w) : Slots α w := ⟨s.owners.map f, s.cells⟩

def World.rename (W : World Comp w) : World Comp w :=
  ⟨W.live.map f, fun C => (W.pools C).map (·.rename f)⟩

def Pools.Op.rename : Pools.Op Comp w → Pools.Op Comp w
  | .assign C et c => .assign C (f et) c
  | .replace C et c => .replace C (f et) c
  | .assignOrReplace C et c => .assignOrReplace C (f et) c
  | .delete Cs et => .delete Cs (f et)
  | .reset Cs => .reset Cs
  | .reserve C count => .reserve C count

namespace EntityManager

def Op.rename : Op Comp w → Op Comp w
  | .create => .create
  | .destroy ets => .destroy (ets.map f)
  | .destroyWith Cs => .destroyWith Cs
  | .reset => .reset
  | .reserve count => .reserve count
  | .onPools op => .onPools (op.rename f)

def Query.rename : Query κ w → Query κ w
  | .get Cs et => .get Cs (f et)
  | .has Cs et => .has Cs (f et)
  | .exists_ et => .exists_ (f et)
  | .size => .size
  | .sizeOf Cs => .sizeOf Cs
  | .isEmpty => .isEmpty
  | .isEmptyOf Cs => .isEmptyOf Cs
  | .forEach => .forEach
  | .forEachOf Cs => .forEachOf Cs

def Call.rename : Call Comp w → Call Comp w
  | .op o => .op (o.rename f)
  | .query q => .query (q.rename f)

def Ret.rename : Ret w → Ret w
  | .created et => .created (f et)
  | .ended e => .ended e

def Answer.rename : Answer Comp w → Answer Comp w
  | .ret r => .ret (r.rename f)
  | .bool b => .bool b
  | .number n => .number n
  | .components l => .components l
  | .entities l => .entities (l.map f)
  | .visits l => .visits (l.map fun v => (f v.1, v.2))

/-- A call renamed and renamed back. -/
theorem Call.rename_symm (c : Call Comp w) : (c.rename f.symm).rename f = c := by
  rcases c with (_ | _ | _ | _ | _ | (_ | _ | _ | _ | _ | _)) | (_ | _ | _ | _ | _ | _ | _ | _ | _)
    <;> simp [Call.rename, Op.rename, Query.rename, Pools.Op.rename]

end EntityManager

/-! ### Worlds -/

namespace Slots

variable {α : Type} (s : Slots α w) (et : BitVec w) (c : Ctor α)

theorem contains_rename : (s.rename f).owners.contains (f et) = s.owners.contains et := by
  rw [Bool.eq_iff_iff, List.contains_iff_mem, List.contains_iff_mem]
  exact List.mem_map_of_injective f.injective

theorem assign_rename : (s.assign et c).rename f = (s.rename f).assign (f et) c :=
  congrArg (Slots.mk · _) (SwapList.map_add f.injective s.owners et).symm

theorem replace_rename : (s.replace et c).rename f = (s.rename f).replace (f et) c := by
  cases c with
  | none => rfl
  | some c =>
    show (⟨s.owners.map f, s.cells.set (s.owners.idxOf et) c⟩ : Slots α w) =
      ⟨s.owners.map f, s.cells.set ((s.owners.map f).idxOf (f et)) c⟩
    rw [SwapList.idxOf_map f.injective]

theorem assignOrReplace_rename :
    (s.assignOrReplace et c).rename f = (s.rename f).assignOrReplace (f et) c := by
  rw [assignOrReplace, assignOrReplace, contains_rename]
  split
  · exact s.replace_rename f et c
  · exact s.assign_rename f et c

theorem delete_rename : (s.delete et).rename f = (s.rename f).delete (f et) :=
  congrArg (Slots.mk · _) (SwapList.map_remove f.injective s.owners et).symm

theorem get_rename : (s.rename f).get (f et) = s.get et := by
  rw [get, get, contains_rename]
  show (if _ then (s.cells[(s.owners.map f).idxOf (f et)]?).map some else _) = _
  rw [SwapList.idxOf_map f.injective]

end Slots

namespace World

variable (W : World Comp w) (C : κ) (et : BitVec w)

theorem pools_rename : (W.rename f).pools C = (W.pools C).map (·.rename f) := rfl

theorem owns_rename : (W.rename f).Owns C (f et) ↔ W.Owns C et := by
  rw [Owns, Owns, pools_rename]
  constructor
  · rintro ⟨s, hs, he⟩
    obtain ⟨t, ht, rfl⟩ := Option.map_eq_some_iff.mp hs
    exact ⟨t, ht, (List.mem_map_of_injective f.injective).mp he⟩
  · rintro ⟨s, hs, he⟩
    exact ⟨s.rename f, by rw [hs]; rfl, List.mem_map_of_mem he⟩

theorem owners_rename (Cs : List κ) : (W.rename f).owners Cs = (W.owners Cs).map f := by
  show (W.live.map f).filter _ = (W.live.filter _).map f
  rw [List.filter_map]
  refine congrArg (List.map f) (List.filter_congr fun e _ => ?_)
  show decide (∀ C ∈ Cs, (W.rename f).Owns C (f e)) = decide (∀ C ∈ Cs, W.Owns C e)
  simp only [owns_rename]

/-! ### Calls -/

theorem destroyEt_rename : (W.destroyEt et).rename f = (W.rename f).destroyEt (f et) := by
  rw [destroyEt, destroyEt, rename]
  congr 1
  · exact (SwapList.map_remove f.injective W.live et).symm
  · funext C
    rw [pools_rename, Option.map_map, Option.map_map]
    refine congrArg (Option.map · (W.pools C)) (funext fun s => ?_)
    exact s.delete_rename f et

variable [DecidableEq κ]

theorem modify_rename {g g' : Slots (Comp C) w → Slots (Comp C) w}
    (hg : ∀ s, (g s).rename f = g' (s.rename f)) :
    (W.modify C g).rename f = (W.rename f).modify C g' := by
  rw [modify, modify, rename]
  congr 1
  funext D
  by_cases hD : D = C
  · subst hD
    show (Function.update W.pools D _ D).map _ = Function.update (W.rename f).pools D _ D
    rw [Function.update_self, Function.update_self, pools_rename, Option.map_map, Option.map_map]
    exact congrArg (Option.map · (W.pools D)) (funext hg)
  · show (Function.update W.pools C _ D).map _ = Function.update (W.rename f).pools C _ D
    rw [Function.update_of_ne hD, Function.update_of_ne hD]
    rfl

theorem allocate_rename : (W.allocate C).rename f = (W.rename f).allocate C := by
  rw [allocate, allocate, rename]
  congr 1
  funext D
  by_cases hD : D = C
  · subst hD
    show (Function.update W.pools D _ D).map _ = Function.update (W.rename f).pools D _ D
    rw [Function.update_self, Function.update_self, pools_rename]
    rcases W.pools D with - | s <;> rfl
  · show (Function.update W.pools C _ D).map _ = Function.update (W.rename f).pools C _ D
    rw [Function.update_of_ne hD, Function.update_of_ne hD]
    rfl

theorem onPools_rename (op : Pools.Op Comp w) :
    (W.onPools op).rename f = (W.rename f).onPools (op.rename f) := by
  cases op with
  | assign C et c =>
    exact (modify_rename f _ C fun s => s.assign_rename f et c).trans
      (congrArg (modify · C _) (W.allocate_rename f C))
  | replace C et c => exact W.modify_rename f C fun s => s.replace_rename f et c
  | assignOrReplace C et c =>
    exact (modify_rename f _ C fun s => s.assignOrReplace_rename f et c).trans
      (congrArg (modify · C _) (W.allocate_rename f C))
  | delete Cs et =>
    exact (List.foldl_hom (World.rename f) fun W C =>
      (W.modify_rename f C fun s => s.delete_rename f et).symm).symm
  | reset Cs =>
    have hreset : ∀ (W : World Comp w) C, (W.modify C fun _ => Slots.empty).rename f =
        (W.rename f).modify C fun _ => Slots.empty := fun W C => W.modify_rename f C fun _ => rfl
    exact (List.foldl_hom (World.rename f) fun W C => (hreset W C).symm).symm
  | reserve C count => exact W.allocate_rename f C

/-! ### Questions -/

omit [DecidableEq κ]

theorem get_rename : (W.rename f).get C (f et) = W.get C et := by
  rw [get, get, pools_rename]
  rcases W.pools C with - | s
  · rfl
  · exact s.get_rename f et

theorem sizeOf_rename (Cs : List κ) : (W.rename f).sizeOf Cs = W.sizeOf Cs := by
  cases Cs with
  | nil =>
    show some (BitVec.ofNat w (W.live.map f).length) = _
    rw [List.length_map]
    rfl
  | cons C Cs => simp only [sizeOf, owners_rename, List.length_map]

theorem filterHas_rename (Cs : List κ) : (W.rename f).filterHas Cs (f et) = W.filterHas Cs et := by
  induction Cs with
  | nil => rfl
  | cons C Cs ih =>
    rw [filterHas, filterHas, pools_rename]
    rcases W.pools C with - | s
    · rfl
    · show (if (s.rename f).owners.contains (f et) then _ else _) = if _ then _ else _
      rw [s.contains_rename f et, ih]

theorem filterGet_rename (Cs : List κ) : (W.rename f).filterGet Cs (f et) = W.filterGet Cs et := by
  simp only [filterGet, get_rename]

theorem forEachOf_rename (Cs : List κ) :
    (W.rename f).forEachOf Cs = (W.forEachOf Cs).map (·.map fun v => (f v.1, v.2)) := by
  -- the calls made so far are those of the other loop, renamed
  have hloop : ∀ (l : List (BitVec w)) (calls : List (BitVec w × List (Σ C, Comp C))),
      l.foldlM (fun calls et => do
        if ← (W.rename f).filterHas Cs (f et) then
          return calls ++ [(f et, ← (W.rename f).filterGet Cs (f et))]
        else return calls) (calls.map fun v => (f v.1, v.2)) =
      (l.foldlM (fun calls et => do
        if ← W.filterHas Cs et then return calls ++ [(et, ← W.filterGet Cs et)]
        else return calls) calls).map
          (List.map fun v : BitVec w × List (Σ C, Comp C) => (f v.1, v.2)) := by
    intro l
    induction l with
    | nil => exact fun calls => rfl
    | cons et l ih =>
      intro calls
      rw [List.foldlM_cons, List.foldlM_cons, filterHas_rename, filterGet_rename]
      rcases W.filterHas Cs et with - | b
      · rfl
      rcases b with - | -
      · exact ih calls
      rcases W.filterGet Cs et with - | comps
      · rfl
      · have hrest := ih (calls ++ [(et, comps)])
        rw [List.map_append] at hrest
        exact hrest
  rw [forEachOf, forEachOf]
  show (W.live.map f).foldlM _ _ = _
  rw [List.foldlM_map]
  exact hloop W.live []

/-- The answer is the same, under the new names. -/
theorem ask_rename (q : EntityManager.Query κ w) :
    (W.rename f).ask (q.rename f) = (W.ask q).map (·.rename f) := by
  cases q with
  | get Cs et =>
    show Option.map _ ((W.rename f).getAll Cs (f et)) = Option.map _ (Option.map _ (W.getAll Cs et))
    rw [Option.map_map, getAll, getAll]
    simp only [get_rename]
    rfl
  | has Cs et =>
    refine congrArg (fun b => some (EntityManager.Answer.bool b)) ?_
    simp only [owns_rename]
  | exists_ et =>
    refine congrArg (fun b => some (EntityManager.Answer.bool b)) ?_
    rw [Bool.eq_iff_iff, List.contains_iff_mem, List.contains_iff_mem]
    exact List.mem_map_of_injective f.injective
  | size =>
    refine congrArg (fun n => some (EntityManager.Answer.number (BitVec.ofNat w n))) ?_
    exact List.length_map f
  | sizeOf Cs =>
    show Option.map _ ((W.rename f).sizeOf Cs) = Option.map _ (Option.map _ (W.sizeOf Cs))
    rw [Option.map_map, sizeOf_rename]
    rfl
  | isEmpty => exact congrArg (fun b => some (EntityManager.Answer.bool b)) List.isEmpty_map
  | isEmptyOf Cs =>
    show Option.map _ ((W.rename f).sizeOf Cs) = Option.map _ (Option.map _ (W.sizeOf Cs))
    rw [Option.map_map, sizeOf_rename]
    rfl
  | forEach => rfl
  | forEachOf Cs =>
    show Option.map _ ((W.rename f).forEachOf Cs) = Option.map _ (Option.map _ (W.forEachOf Cs))
    rw [Option.map_map, forEachOf_rename, Option.map_map]
    rfl

end World

/-! ### The waiting ids -/

namespace Waiting

variable {f} {q q' t t' : Waiting w} {v : BitVec w}

/-- The same ids wait under other names. -/
structure Renamed (f : Equiv.Perm (BitVec w)) (q q' : Waiting w) : Prop where
  orphan : q'.orphan = q.orphan.map f
  ids : q'.ids = q.ids.map f

theorem Renamed.put (h : Renamed f q q') (hs : q.put v = some t)
    (hs' : q'.put (f v) = some t') : Renamed f t t' := by
  have hmem : q'.ids.contains (f v) = q.ids.contains v := by
    rw [h.ids, Bool.eq_iff_iff, List.contains_iff_mem, List.contains_iff_mem]
    exact List.mem_map_of_injective f.injective
  rw [Waiting.put] at hs hs'
  rw [hmem] at hs'
  split at hs
  · rename_i hv
    rw [if_pos hv] at hs'
    obtain rfl := Option.some.inj hs
    obtain rfl := Option.some.inj hs'
    exact h
  · rename_i hv
    rw [if_neg hv] at hs'
    obtain ⟨-, hs⟩ := Option.ite_none_right_eq_some.mp hs
    obtain ⟨-, hs'⟩ := Option.ite_none_right_eq_some.mp hs'
    obtain rfl := Option.some.inj hs
    obtain rfl := Option.some.inj hs'
    exact ⟨h.orphan, by rw [h.ids, List.map_append]; rfl⟩

theorem Renamed.take (h : Renamed f q q') :
    q'.take.1 = q.take.1.map f ∧ Renamed f q.take.2 q'.take.2 := by
  obtain ⟨orphan, ids, capacity⟩ := q
  obtain ⟨orphan', ids', capacity'⟩ := q'
  obtain ⟨rfl, rfl⟩ : orphan' = orphan.map f ∧ ids' = ids.map f := ⟨h.orphan, h.ids⟩
  match orphan, ids with
  | none, [] => exact ⟨rfl, rfl, rfl⟩
  | none, [x] => exact ⟨rfl, rfl, rfl⟩
  | none, x :: y :: ids =>
    refine ⟨rfl, ?_, ?_⟩
    · exact List.getLast?_map (l := y :: ids)
    · exact (List.map_dropLast (l := y :: ids)).symm
  | some x, ids => exact ⟨rfl, rfl, SwapList.map_remove f.injective ids x⟩

end Waiting

/-! ### Realms -/

namespace Realm

open EntityManager (Op Ret)

variable {f} {R R' S S' : Realm Comp w} {et : BitVec w}

/-- The same realm under other names. -/
structure Renamed (f : Equiv.Perm (BitVec w)) (R R' : Realm Comp w) : Prop where
  world : R'.world = R.world.rename f
  waiting : R.waiting.Renamed f R'.waiting

theorem Renamed.destroyEt (h : Renamed f R R') (hs : R.destroyEt et = some S)
    (hs' : R'.destroyEt (f et) = some S') : Renamed f S S' := by
  obtain ⟨q, hq, rfl⟩ := Option.map_eq_some_iff.mp hs
  obtain ⟨q', hq', rfl⟩ := Option.map_eq_some_iff.mp hs'
  refine ⟨?_, h.waiting.put hq hq'⟩
  rw [World.destroyEt_rename, ← h.world]

theorem Renamed.destroy (h : Renamed f R R') {ets : List (BitVec w)}
    (hs : R.destroy ets = some S) (hs' : R'.destroy (ets.map f) = some S') : Renamed f S S' := by
  induction ets generalizing R R' with
  | nil =>
    obtain rfl := Option.some.inj hs
    obtain rfl := Option.some.inj hs'
    exact h
  | cons et ets ih =>
    obtain ⟨T, hT, hs⟩ := Option.bind_eq_some_iff.mp hs
    obtain ⟨T', hT', hs'⟩ := Option.bind_eq_some_iff.mp hs'
    exact ih (h.destroyEt hT hT') hs hs'

/-- The call draws a fresh id. -/
def draws (R : Realm Comp w) : Op Comp w → Bool
  | .create => R.waiting.take.1.isNone
  | .destroy _ | .destroyWith _ | .reset | .reserve _ | .onPools _ => false

variable [DecidableEq κ] {ett ett' : BitVec w} {op : Op Comp w}

theorem ett_step {x : (Realm Comp w × BitVec w) × Ret w} (hs : R.step ett op = some x) :
    x.1.2 = if R.draws op then ett + 1 else ett := by
  cases op with
  | create =>
    obtain rfl := Option.some.inj hs
    show (R.create ett).2.1 = if R.waiting.take.1.isNone then _ else _
    rw [Realm.create]
    rcases R.waiting.take with ⟨- | x, q⟩ <;> rfl
  | destroy ets =>
    obtain ⟨S, -, rfl⟩ := Option.map_eq_some_iff.mp hs
    rfl
  | destroyWith Cs =>
    obtain ⟨S, -, rfl⟩ := Option.map_eq_some_iff.mp hs
    rfl
  | reset =>
    obtain ⟨S, -, rfl⟩ := Option.map_eq_some_iff.mp hs
    rfl
  | reserve n =>
    obtain rfl := Option.some.inj hs
    rfl
  | onPools op =>
    obtain ⟨-, hs⟩ := Option.ite_none_right_eq_some.mp hs
    obtain rfl := Option.some.inj hs
    rfl

/-- A call on a realm and on the renamed one return the same, under the new names, if
a fresh id is drawn under its new name. -/
theorem Renamed.step (h : Renamed f R R') (hett : R.draws op → ett' = f ett)
    {x y : (Realm Comp w × BitVec w) × Ret w} (hs : R.step ett op = some x)
    (hs' : R'.step ett' (op.rename f) = some y) :
    y.2 = x.2.rename f ∧ Renamed f x.1.1 y.1.1 := by
  cases op with
  | create =>
    obtain rfl := Option.some.inj hs
    obtain rfl := Option.some.inj hs'
    obtain ⟨htake, hq⟩ := h.waiting.take
    have hadd : ∀ et, ({ R'.world with live := SwapList.add R'.world.live (f et) } : World Comp w) =
        World.rename f { R.world with live := SwapList.add R.world.live et } := by
      intro et
      rw [h.world]
      exact congrArg (World.mk · _) (SwapList.map_add f.injective R.world.live et)
    show Ret.created (R'.create ett').2.2 = Ret.created (f (R.create ett).2.2) ∧
      Renamed f (R.create ett).1 (R'.create ett').1
    have hdraws : R.waiting.take.1.isNone → ett' = f ett := hett
    rw [Realm.create, Realm.create]
    revert htake hq hdraws
    generalize R.waiting.take = t, R'.waiting.take = t'
    obtain ⟨o, q⟩ := t
    obtain ⟨o', q'⟩ := t'
    rintro (rfl : o' = o.map f) hq hdraws
    rcases o with - | x
    · obtain rfl := hdraws rfl
      exact ⟨rfl, hadd ett, hq⟩
    · exact ⟨rfl, hadd x, hq⟩
  | destroy ets =>
    obtain ⟨S, hS, rfl⟩ := Option.map_eq_some_iff.mp hs
    obtain ⟨S', hS', rfl⟩ := Option.map_eq_some_iff.mp hs'
    exact ⟨rfl, h.destroy hS hS'⟩
  | destroyWith Cs =>
    obtain ⟨S, hS, rfl⟩ := Option.map_eq_some_iff.mp hs
    obtain ⟨S', hS', rfl⟩ := Option.map_eq_some_iff.mp hs'
    rw [h.world, World.owners_rename] at hS'
    exact ⟨rfl, h.destroy hS hS'⟩
  | reset =>
    obtain ⟨S, hS, rfl⟩ := Option.map_eq_some_iff.mp hs
    obtain ⟨S', hS', rfl⟩ := Option.map_eq_some_iff.mp hs'
    rw [h.world] at hS'
    exact ⟨rfl, h.destroy hS hS'⟩
  | reserve n =>
    obtain rfl := Option.some.inj hs
    obtain rfl := Option.some.inj hs'
    exact ⟨rfl, h⟩
  | onPools op =>
    obtain ⟨-, hs⟩ := Option.ite_none_right_eq_some.mp hs
    obtain ⟨-, hs'⟩ := Option.ite_none_right_eq_some.mp hs'
    obtain rfl := Option.some.inj hs
    obtain rfl := Option.some.inj hs'
    refine ⟨?_, ?_, h.waiting⟩
    · cases op <;> rfl
    · show R'.world.onPools (op.rename f) = World.rename f (R.world.onPools op)
      rw [World.onPools_rename, h.world]

end Realm

end Indie
