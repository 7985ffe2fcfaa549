/-
Indie/Realm.lean

All a program of entity managers does, in plain lists.

A `Realm` is the world of a manager (`World`) and the list of the ids that wait
(`Waiting`); `Realms` are those of all managers of a program, with the counter that
fresh ids are drawn from.  Every call acts on them and returns something, `Create`
included, or is undefined:

* `Destroy` in its three forms, where the damaged recycled set has no cell left;
* `Replace` and `AssignOrReplace`, where the position of the entity addresses no
  component, because a constructor has thrown before.

`program_eq_realms`: whatever valid calls the managers of a program make, in any
order, everything they return is what the realms return, and they have undefined
behaviour exactly where the realms are undefined.
-/
import Indie.Managers
import Indie.Waiting
import Indie.WorldRefine

namespace Indie

/-! ### The realm -/

variable {κ : Type} {Comp : κ → Type} {w : ℕ}

/-- How a call that builds a component ends. -/
def Ctor.ending {α : Type} (c : Ctor α) : Ending := if c.isSome then .returned else .threw

/-- How a call on components ends. -/
def Pools.Op.ending : Pools.Op Comp w → Ending
  | .assign _ _ c | .replace _ _ c | .assignOrReplace _ _ c => Ctor.ending c
  | .delete _ _ | .reset _ | .reserve _ _ => .returned

/-- A component that was built finds the cell it is to overwrite. -/
def Slots.replaceable {α : Type} (s : Slots α w) (et : BitVec w) (c : Ctor α) : Bool :=
  c.isNone || decide (s.owners.idxOf et < s.cells.length)

/-- A valid call on components has defined behaviour. -/
def World.permits (W : World Comp w) : Pools.Op Comp w → Bool
  | .replace C et c => (W.pools C).all (·.replaceable et c)
  | .assignOrReplace C et c =>
    (W.pools C).all fun s => !s.owners.contains et || s.replaceable et c
  | .assign _ _ _ | .delete _ _ | .reset _ | .reserve _ _ => true

/-- What a manager holds, and the ids that wait. -/
structure Realm (Comp : κ → Type) (w : ℕ) where
  world : World Comp w
  waiting : Waiting w

namespace Realm

open EntityManager (Op Ret Query Answer)

/-- A new manager. -/
def empty : Realm Comp w := ⟨.empty, .empty⟩

/-- `Create()`: the realm, the counter and the entity returned. -/
def create (R : Realm Comp w) (ett : BitVec w) : Realm Comp w × BitVec w × BitVec w :=
  match R.waiting.take with
  | (some et, q) => (⟨{ R.world with live := SwapList.add R.world.live et }, q⟩, ett, et)
  | (none, q) => (⟨{ R.world with live := SwapList.add R.world.live ett }, q⟩, ett + 1, ett)

/-- `Destroy(et)`. -/
def destroyEt (R : Realm Comp w) (et : BitVec w) : Option (Realm Comp w) :=
  (R.waiting.put et).map fun q => ⟨R.world.destroyEt et, q⟩

def destroy (R : Realm Comp w) (ets : List (BitVec w)) : Option (Realm Comp w) :=
  ets.foldlM destroyEt R

variable [DecidableEq κ]

/-- A call, with the counter, and what it returns. -/
def step (R : Realm Comp w) (ett : BitVec w) :
    Op Comp w → Option ((Realm Comp w × BitVec w) × Ret w)
  | .create =>
    let (R, ett, et) := R.create ett
    some ((R, ett), .created et)
  | .destroy ets => (R.destroy ets).map fun R => ((R, ett), .ended .returned)
  | .destroyWith Cs => (R.destroy (R.world.owners Cs)).map fun R => ((R, ett), .ended .returned)
  | .reset => (R.destroy R.world.live).map fun R => ((R, ett), .ended .returned)
  | .reserve _ => some ((R, ett), .ended .returned)
  | .onPools op =>
    if R.world.permits op then
      some (({ R with world := R.world.onPools op }, ett), .ended op.ending)
    else none

end Realm

/-! ### Calls on components -/

namespace Pool

variable {α : Type} {p : Pool α w} {et : BitVec w} {c : Ctor α} {r : Pool α w × Ending}

theorem ending_assign (hs : p.assign et c = some r) : r.2 = Ctor.ending c := by
  simp only [assign, Option.bind_eq_bind, Option.bind_eq_some_iff] at hs
  obtain ⟨b, -, i, -, hs⟩ := hs
  cases c with
  | none => exact Option.some.inj hs ▸ rfl
  | some c => exact Option.some.inj hs ▸ rfl

theorem ending_replace (hs : p.replace et c = some r) : r.2 = Ctor.ending c := by
  cases c with
  | none => exact Option.some.inj hs ▸ rfl
  | some c =>
    simp only [replace, Option.bind_eq_bind, Option.bind_eq_some_iff] at hs
    obtain ⟨i, -, v, -, hs⟩ := hs
    exact Option.some.inj hs ▸ rfl

theorem ending_assignOrReplace (hs : p.assignOrReplace et c = some r) :
    r.2 = Ctor.ending c := by
  simp only [assignOrReplace, Option.bind_eq_bind, Option.bind_eq_some_iff] at hs
  obtain ⟨b, -, hs⟩ := hs
  split at hs
  · exact ending_replace hs
  · exact ending_assign hs

/-- `Replace` on an owner is defined where there is a cell to overwrite. -/
theorem isSome_replace (h : p.base.WF) (he : et ∈ p.base.range) (c : Ctor α) :
    (p.replace et c).isSome = p.slots.replaceable et c := by
  cases c with
  | none => rfl
  | some c =>
    rw [Pool.replace, h.indexOf_eq_idxOf he, Option.bind_eq_bind, Option.bind_some,
      h.toNat_ofNat (SwapList.getElem?_idxOf he)]
    show _ = decide (p.base.range.idxOf et < p.components.data.length)
    by_cases hlt : p.base.range.idxOf et < p.components.data.length
    · obtain ⟨v, hv, -⟩ := Vec.set_of_lt hlt c
      rw [hv, decide_eq_true hlt]
      rfl
    · rw [decide_eq_false hlt, Option.isSome_eq_false_iff, Option.isNone_iff_eq_none,
        Option.eq_none_iff_forall_ne_some]
      intro r hr
      obtain ⟨v, hv, -⟩ := Option.bind_eq_some_iff.mp hr
      exact hlt (Vec.set_eq_some hv).1

end Pool

namespace EntityManager

variable [DecidableEq κ] {s : State Comp w} {em em' : EntityManager Comp w} {R : Realm Comp w}
  {et : BitVec w}

theorem ending_onPools {ps : Pools Comp w} {op : Pools.Op Comp w} {r : Pools Comp w × Ending}
    (hs : ps.step op = some r) : r.2 = op.ending := by
  have hbuild : ∀ {ps : Pools Comp w} {C : κ} {c : Ctor (Comp C)}
      {f : Pool (Comp C) w → Option (Pool (Comp C) w × Ending)},
      (∀ p r, f p = some r → r.2 = Ctor.ending c) → ps.build C f = some r →
        r.2 = Ctor.ending c := by
    intro ps C c f hf hs
    obtain ⟨p, q, -, hq, rfl⟩ := Pools.build_eq_some.mp hs
    exact hf p _ hq
  cases op with
  | assign C et c => exact hbuild (fun _ _ => Pool.ending_assign) hs
  | replace C et c => exact hbuild (fun _ _ => Pool.ending_replace) hs
  | assignOrReplace C et c => exact hbuild (fun _ _ => Pool.ending_assignOrReplace) hs
  | delete Cs et =>
    obtain ⟨ps', -, rfl⟩ := Option.map_eq_some_iff.mp hs
    rfl
  | reset Cs =>
    obtain ⟨ps', -, rfl⟩ := Option.map_eq_some_iff.mp hs
    rfl
  | reserve C n =>
    obtain ⟨ps', -, rfl⟩ := Option.map_eq_some_iff.mp hs
    rfl

/-- Deleting, resetting and reserving are defined on pools that are there. -/
theorem Tidy.isSome_step (h : Tidy em) {op : Pools.Op Comp w}
    (htotal : ∀ c ∈ op.calls, ∀ p : Pool (Comp c.1) w, p.base.WF → ∃ p', p.step c.2 = some p')
    (hkeys : ∀ c ∈ op.calls, c.1 ∈ List.keys (op.allocates.foldl Pools.tryAllocatePool em.pools)) :
    (em.pools.step op).isSome := by
  rw [Pools.isSome_step_iff, Option.isSome_iff_exists]
  have hsound : (op.allocates.foldl Pools.tryAllocatePool em.pools).Sound :=
    List.foldlRecOn op.allocates Pools.tryAllocatePool h.pools
      fun _ hps C _ => hps.tryAllocatePool C SparseSet.wf_empty
  refine Pools.Every.callAll_defined hsound hkeys fun c hc p hp => ?_
  obtain ⟨p', hs⟩ := htotal c hc p hp
  exact ⟨p', hs, Pool.wf_step hp hs⟩

/-- A valid call on components is defined where the world permits it. -/
theorem Tidy.isSome_onPools (h : Tidy em) {op : Pools.Op Comp w} (hv : (Op.onPools op).Valid em) :
    (em.pools.step op).isSome = em.world.permits op := by
  have hown : ∀ {C et}, em.has [C] et = some true →
      ∃ p, em.pools.getPool C = some p ∧ et ∈ p.base.range := by
    intro C et hhas
    rw [h.has_iff] at hhas
    exact hhas C List.mem_cons_self
  have hbuild : ∀ {ps : Pools Comp w} {C : κ} {p : Pool (Comp C) w}
      {f : Pool (Comp C) w → Option (Pool (Comp C) w × Ending)},
      ps.getPool C = some p → (ps.build C f).isSome = (f p).isSome := by
    intro ps C p f hp
    rw [Pools.build, hp, Option.bind_eq_bind, Option.bind_some]
    rcases f p with - | r <;> rfl
  have hslots : ∀ {C p}, em.pools.getPool C = some p → em.world.pools C = some p.slots :=
    fun hp => Pools.slots_of_getPool hp
  cases op with
  | assign C et c =>
    have hlt := h.lt_max (h.exists_iff.mp hv)
    have hp := Pools.getPool_tryAllocatePool_self em.pools C
    obtain ⟨r, hr⟩ := Pool.assign_defined (h.pools.tryAllocatePool C SparseSet.wf_empty C _ hp)
      hlt c
    exact (hbuild hp).trans (by rw [hr]; rfl)
  | replace C et c =>
    obtain ⟨p, hp, he⟩ := hown hv
    rw [World.permits, hslots hp, Option.all_some, ← Pool.isSome_replace (h.pools C p hp) he c]
    exact hbuild hp
  | assignOrReplace C et c =>
    have hlt := h.lt_max (h.exists_iff.mp hv)
    have hp := Pools.getPool_tryAllocatePool_self em.pools C
    have hwf := h.pools.tryAllocatePool C SparseSet.wf_empty C _ hp
    refine (hbuild hp).trans ?_
    rw [World.permits]
    by_cases he : et ∈ ((em.pools.getPool C).getD Pool.empty).base.range
    · rw [Pool.assignOrReplace_of_mem hwf he, Pool.isSome_replace hwf he]
      rcases hC : em.pools.getPool C with - | p
      · rw [hC, Option.getD_none, Pool.empty, SparseSet.range_empty] at he
        cases he
      · rw [hC, Option.getD_some] at he
        rw [hslots hC, Option.all_some, Option.getD_some,
          show p.slots.owners.contains et = true from List.contains_iff_mem.mpr he]
        rfl
    · rw [Pool.assignOrReplace_of_notMem hwf he]
      obtain ⟨r, hr⟩ := Pool.assign_defined hwf hlt c
      rw [hr]
      rcases hC : em.pools.getPool C with - | p
      · rw [show em.world.pools C = none by simp [world, Pools.slots, hC]]
        rfl
      · rw [hC, Option.getD_some] at he
        rw [hslots hC, Option.all_some, show p.slots.owners.contains et = false from
          Bool.eq_false_iff.mpr (mt List.contains_iff_mem.mp he)]
        rfl
  | delete Cs et =>
    refine h.isSome_step (fun c hc p hp => ?_) fun c hc => ?_
    · obtain ⟨C, -, rfl⟩ := List.mem_map.mp hc
      obtain ⟨b, hb⟩ := hp.erase_defined et
      exact ⟨_, Pool.delete_eq_some.mpr ⟨b, hb, rfl⟩⟩
    · obtain ⟨C, hC, rfl⟩ := List.mem_map.mp hc
      obtain ⟨p, hp, -⟩ := hown (hv.2 C hC)
      exact Pools.mem_keys_iff.mpr ⟨p, hp⟩
  | reset Cs =>
    refine h.isSome_step (fun c hc p hp => ?_) fun c hc => ?_
    · obtain ⟨C, -, rfl⟩ := List.mem_map.mp hc
      exact ⟨p.reset, rfl⟩
    · obtain ⟨C, hC, rfl⟩ := List.mem_map.mp hc
      exact Pools.mem_keys_iff.mpr (Option.isSome_iff_exists.mp (hv C hC))
  | reserve C n =>
    refine h.isSome_step (fun c hc p hp => ?_) fun c hc => ?_
    · obtain rfl := List.mem_singleton.mp hc
      exact ⟨p.reserve n, rfl⟩
    · obtain rfl := List.mem_singleton.mp hc
      exact Pools.mem_keys_iff.mpr ⟨_, Pools.getPool_tryAllocatePool_self em.pools C⟩

/-! ### The manager and its realm -/

/-- The manager holds what the realm says. -/
structure Mirrors (em : EntityManager Comp w) (R : Realm Comp w) : Prop where
  world : em.world = R.world
  waiting : em.deletedEt.Queues R.waiting

theorem mirrors_empty : Mirrors (empty : EntityManager Comp w) Realm.empty :=
  ⟨world_empty, SparseSet.Queues.empty⟩

/-- `Create` is defined, and returns what the realm says. -/
theorem Inv.mirrors_create (h : Inv s) (hm : Mirrors s.em R)
    (hfresh : s.em.deletedEt.size = 0 → s.ett.toNat + 1 < 2 ^ w) :
    ∃ em', s.em.create s.ett = some (em', (R.create s.ett).2) ∧
      Mirrors em' (R.create s.ett).1 := by
  have hlive : ∀ {et en}, s.em.entities.insert et = some en →
      en.range = SwapList.add R.world.live et := by
    intro et en hen
    rw [h.tidy.entities.range_insert hen, ← hm.world]
    rfl
  have hpools : s.em.pools.slots = R.world.pools := congrArg World.pools hm.world
  rw [Realm.create]
  rcases ht : R.waiting.take with ⟨- | x, q⟩
  · have hnone := congrArg Prod.fst ht
    obtain rfl : q = R.waiting := (congrArg Prod.snd ht).symm.trans (Waiting.take_none hnone).2
    have hsize := hm.waiting.size_eq_zero_iff.mpr hnone
    obtain ⟨en, hen⟩ := h.tidy.entities.insert_defined (hfresh hsize)
    refine ⟨⟨en, s.em.deletedEt, s.em.pools⟩, create_eq_some.mpr ⟨hen, rfl, ?_⟩, ?_, hm.waiting⟩
    · rw [if_pos hsize]
      exact ⟨rfl, rfl, rfl⟩
    · exact congrArg₂ World.mk (hlive hen) hpools
  · obtain ⟨hd, d, hs, hq⟩ := hm.waiting.eraseAt (congrArg Prod.fst ht)
    have hq' : d.Queues q := by
      rw [ht] at hq
      exact hq
    have hsize : s.em.deletedEt.size ≠ 0 := by
      rw [ne_eq, hm.waiting.size_eq_zero_iff, ht]
      exact Option.some_ne_none x
    have hx : x.toNat + 1 < 2 ^ w := by
      have hpos := Vec.toNat_pos hsize
      have hlt := hm.waiting.below x (List.mem_of_getElem?
        (hm.waiting.getElem?_range.mpr ⟨hpos, hd⟩))
      have := s.em.deletedEt.capacity.isLt
      omega
    obtain ⟨en, hen⟩ := h.tidy.entities.insert_defined hx
    refine ⟨⟨en, d, s.em.pools⟩, create_eq_some.mpr ⟨hen, rfl, ?_⟩, ?_, hq'⟩
    · rw [if_neg hsize]
      exact ⟨hd, hs, rfl⟩
    · exact congrArg₂ World.mk (hlive hen) hpools

/-- `Destroy(et)` is undefined only where there is no cell for the id. -/
theorem Tidy.mirrors_destroyEt (h : Tidy em) (hm : Mirrors em R) (hlt : et.toNat + 1 < 2 ^ w) :
    Option.Rel Mirrors (em.destroyEt et) (R.destroyEt et) := by
  have hput := hm.waiting.insert hlt
  rw [Realm.destroyEt]
  rcases hd : em.deletedEt.insert et with - | d
  · have hnone : em.destroyEt et = none := by
      rw [Option.eq_none_iff_forall_ne_some]
      intro em' hs
      rw [(destroyEt_eq_some.mp hs).2.2] at hd
      cases hd
    rw [hd] at hput
    revert hput
    generalize R.waiting.put et = q
    intro hput
    cases hput
    rw [hnone]
    exact .none
  · obtain ⟨em', hs⟩ := h.destroyEt_defined hd
    rw [hd] at hput
    revert hput
    generalize R.waiting.put et = q
    intro hput
    cases hput with
    | @some _ q hq =>
      rw [hs]
      refine .some ⟨?_, ?_⟩
      · rw [h.world_destroyEt hs, hm.world]
      · rw [(destroyEt_eq_some.mp hs).2.2, Option.some.injEq] at hd
        exact hd ▸ hq

theorem Tidy.mirrors_destroy (h : Tidy em) (hm : Mirrors em R) {ets : List (BitVec w)}
    (hlt : ∀ et ∈ ets, et.toNat + 1 < 2 ^ w) :
    Option.Rel Mirrors (em.destroy ets) (R.destroy ets) := by
  induction ets generalizing em R with
  | nil => exact .some hm
  | cons et ets ih =>
    have hrel := h.mirrors_destroyEt hm (hlt et List.mem_cons_self)
    rw [destroy_cons, Realm.destroy, List.foldlM_cons]
    rcases hs : em.destroyEt et with - | em' <;> rcases hR : R.destroyEt et with - | R' <;>
      rw [hs, hR] at hrel <;> cases hrel
    · exact .none
    · rename_i hm'
      exact ih (h.destroyEt hs) hm' fun e he => hlt e (List.mem_cons_of_mem et he)

/-- A call has returned the same, with the same counter and the same realm. -/
def Agrees (x : State Comp w × Ret w) (y : (Realm Comp w × BitVec w) × Ret w) : Prop :=
  x.2 = y.2 ∧ x.1.ett = y.1.2 ∧ Mirrors x.1.em y.1.1

/-- A valid call is defined in the manager where it is in the realm, and agrees. -/
theorem Inv.mirrors_step (h : Inv s) (hm : Mirrors s.em R) {op : Op Comp w}
    (hv : op.Valid s.em) (hfresh : op.FreshLeft s) :
    Option.Rel Agrees (step s op) (R.step s.ett op) := by
  -- the three forms of `Destroy` destroy a list of live entities
  have hdestroy : ∀ {ets : List (BitVec w)}, (∀ et ∈ ets, Live s.em et) →
      Option.Rel Agrees
        (do
          let em ← s.em.destroy ets
          return ({ s with em }, Ret.ended .returned))
        ((R.destroy ets).map fun R => ((R, s.ett), Ret.ended .returned)) := by
    intro ets hets
    have hrel := h.tidy.mirrors_destroy hm fun et het => h.tidy.lt_max (hets et het)
    rcases hs : s.em.destroy ets with - | em' <;> rcases hR : R.destroy ets with - | R' <;>
      rw [hs, hR] at hrel <;> cases hrel
    · exact .none
    · rename_i hm'
      exact .some ⟨rfl, rfl, hm'⟩
  cases op with
  | create =>
    obtain ⟨em', hs, hm'⟩ := h.mirrors_create hm hfresh
    rw [step, hs]
    exact .some ⟨rfl, rfl, hm'⟩
  | destroy ets =>
    exact hdestroy fun et het => h.tidy.exists_iff.mp (hv.2 et het)
  | destroyWith Cs =>
    rw [step, Realm.step, h.tidy.destroyWith_eq, ← hm.world, owners_world]
    exact hdestroy fun et het => (mem_owners.mp het).1
  | reset =>
    rw [step, Realm.step, h.tidy.reset_eq, ← hm.world]
    exact hdestroy fun et het => het
  | reserve n =>
    refine .some ⟨rfl, rfl, ⟨?_, hm.waiting⟩⟩
    rw [h.world_step hv rfl, hm.world]
    rfl
  | onPools op =>
    have hsome := h.tidy.isSome_onPools hv
    rw [Realm.step, ← hm.world, ← hsome]
    rcases hs : s.em.pools.step op with - | r
    · rw [step, hs]
      exact .none
    · rw [step, hs]
      refine .some ⟨congrArg Ret.ended (ending_onPools hs), rfl, ?_, hm.waiting⟩
      rw [← h.tidy.world_onPools hv hs]
      rfl

end EntityManager

/-! ### The program -/

open EntityManager (State Op Ret Query Answer Call Inv Mirrors)

variable {ι : Type} [DecidableEq ι] [DecidableEq κ]

namespace Managers

/-- One manager makes a call, or is asked a question. -/
def call (m : Managers ι Comp w) (c : ι × Call Comp w) :
    Option (Managers ι Comp w × (ι × Answer Comp w)) :=
  match c.2 with
  | .op o => (m.step (c.1, o)).map fun x => (x.1, (c.1, .ret x.2.2))
  | .query q => ((m.em c.1).ask q).map fun a => (m, (c.1, a))

/-- A call is admissible; any question is. -/
def Admits (m : Managers ι Comp w) (c : ι × Call Comp w) : Prop :=
  match c.2 with
  | .op o => m.Admissible (c.1, o)
  | .query _ => True

instance (m : Managers ι Comp w) (c : ι × Call Comp w) : Decidable (m.Admits c) :=
  match c with
  | (i, .op o) => inferInstanceAs (Decidable (m.Admissible (i, o)))
  | (_, .query _) => isTrue trivial

end Managers

/-- The realms of a program, and its counter. -/
structure Realms (ι : Type) {κ : Type} (Comp : κ → Type) (w : ℕ) where
  ett : BitVec w
  of : ι → Realm Comp w

namespace Realms

/-- The program starts. -/
def init : Realms ι Comp w := ⟨0, fun _ => .empty⟩

/-- One manager makes a call, or is asked a question. -/
def call (r : Realms ι Comp w) (c : ι × Call Comp w) :
    Option (Realms ι Comp w × (ι × Answer Comp w)) :=
  match c.2 with
  | .op o => ((r.of c.1).step r.ett o).map fun x =>
      (⟨x.1.2, Function.update r.of c.1 x.1.1⟩, (c.1, .ret x.2))
  | .query q => ((r.of c.1).world.ask q).map fun a => (r, (c.1, a))

end Realms

namespace Managers

variable {m : Managers ι Comp w} {r : Realms ι Comp w}

/-- Each manager holds its realm. -/
structure Mirrors (m : Managers ι Comp w) (r : Realms ι Comp w) : Prop where
  ett : m.ett = r.ett
  inv : ∀ i, Inv (m.view i)
  mirrors : ∀ i, EntityManager.Mirrors (m.em i) (r.of i)

omit [DecidableEq ι] in
theorem mirrors_init : Mirrors (init : Managers ι Comp w) Realms.init where
  ett := rfl
  inv _ := EntityManager.inv_init 0
  mirrors _ := EntityManager.mirrors_empty

theorem Mirrors.call (h : Mirrors m r) {c : ι × Call Comp w} (hc : m.Admits c) :
    Option.Rel (fun x y => x.2 = y.2 ∧ Mirrors x.1 y.1) (m.call c) (r.call c) := by
  obtain ⟨i, c⟩ := c
  cases c with
  | query q =>
    have hask : (m.em i).ask q = (m.em i).world.ask q := (h.inv i).tidy.ask_world q
    show Option.Rel _ (((m.em i).ask q).map _) (((r.of i).world.ask q).map _)
    rw [hask, ← (h.mirrors i).world]
    rcases (m.em i).world.ask q with - | a
    · exact .none
    · exact .some ⟨rfl, h⟩
  | op o =>
    have hrel := (h.inv i).mirrors_step (h.mirrors i) hc.1 hc.2
    rw [show (m.view i).ett = r.ett from h.ett] at hrel
    show Option.Rel _ ((m.step (i, o)).map _) (((r.of i).step r.ett o).map _)
    rw [step]
    rcases hs : EntityManager.step (m.view i) o with - | x <;>
      rcases hR : (r.of i).step r.ett o with - | y <;> rw [hs, hR] at hrel <;> cases hrel
    · exact .none
    · rename_i hxy
      obtain ⟨hret, hett, hm⟩ := hxy
      refine .some ⟨congrArg (fun ret => (i, Answer.ret ret)) hret, hett, fun j => ?_, fun j => ?_⟩
      · show Inv (⟨x.1.ett, Function.update m.em i x.1.em j⟩ : State Comp w)
        by_cases hj : j = i
        · subst hj
          rw [Function.update_self]
          exact (h.inv j).next hc.1 (EntityManager.next_of_step hs)
        · rw [Function.update_of_ne hj]
          exact ⟨(h.inv j).tidy, (h.inv j).nodup, (h.inv j).shape⟩
      · show EntityManager.Mirrors (Function.update m.em i x.1.em j)
          (Function.update r.of i y.1.1 j)
        by_cases hj : j = i
        · subst hj
          rw [Function.update_self, Function.update_self]
          exact hm
        · rw [Function.update_of_ne hj, Function.update_of_ne hj]
          exact h.mirrors j

/-- **A program of managers is its realms.**  Whatever valid calls any number of
managers make, in any order, with constructors that throw or not: everything the
calls return, the ids of `Create` included, and every answer is that of the realms,
and a call has undefined behaviour exactly where the realms are undefined. -/
theorem program_eq_realms (calls : List (ι × Call Comp w))
    (hcalls : Machine.Along (fun m c => (call m c).map Prod.fst) Admits init calls) :
    (Machine.run (Machine.logged call) (init, []) calls).map Prod.snd =
      (Machine.run (Machine.logged Realms.call) (Realms.init, []) calls).map Prod.snd :=
  Machine.run_logged_eq Realms.call (fun _ _ _ h hc => h.call hc) [] calls mirrors_init hcalls

/-- Two ids are enough to write outside: both wait and are recycled; the second is
left behind in the first cell, and with the other there is no cell for it. -/
theorem program_eq_realms_overflow :
    let calls : List (Unit × Call (fun _ : Unit => ℕ) 8) := [((), .op .create), ((), .op .create),
      ((), .op (.destroy [0])), ((), .op (.destroy [1])), ((), .op .create), ((), .op .create),
      ((), .op (.destroy [0]))]
    (Machine.run (Machine.logged call) (init, []) calls).map (fun x => x.2.length) = some 7 ∧
      (Machine.run (Machine.logged call) (init, [])
        (calls ++ [((), .op (.destroy [1]))])).map Prod.snd = none := by
  intro calls
  constructor
  · have hrun := congrArg (Option.map List.length) (program_eq_realms calls (by decide))
    rw [Option.map_map, Option.map_map] at hrun
    exact hrun.trans rfl
  · exact (program_eq_realms (calls ++ [((), .op (.destroy [1]))]) (by decide)).trans rfl

end Managers

end Indie
