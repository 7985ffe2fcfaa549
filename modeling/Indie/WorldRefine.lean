/-
Indie/WorldRefine.lean

An entity manager answers every question as the world its calls make.

`EntityManager.world` forgets the sparse arrays, the recycled set and where
`_pools` keeps its records.  A valid call on the manager is the call on the
world (`Inv.world_step`), whatever id `Create` returns and whether or not a
constructor throws, and a question is answered from the world alone
(`Tidy.ask_world`).  So along any run manager and world stay together
(`ask_eq_world`).
-/
import Indie.World
import Indie.Counting
import Indie.SetOrder

namespace Indie

/-! ### One pool -/

namespace Pool

variable {α : Type} {w : ℕ} {p p' : Pool α w} {et : BitVec w}

/-- What a pool holds. -/
def slots (p : Pool α w) : Slots α w := ⟨p.base.range, p.components.data⟩

@[simp] theorem slots_empty : (empty : Pool α w).slots = Slots.empty := by
  simp [slots, empty, Slots.empty, Vec.empty]

theorem slots_assign (h : p.base.WF) {c : Ctor α} {r : Pool α w × Ending}
    (hs : p.assign et c = some r) : r.1.slots = p.slots.assign et c := by
  have hb := wf_assign h hs
  obtain ⟨q, hq, hd, heq⟩ := assign_eq h hb c
  obtain rfl := Option.some.inj (hs.symm.trans heq)
  have hr := h.range_insert hb
  cases c with
  | none =>
    show (⟨q.base.range, q.components.data⟩ : Slots α w) = _
    rw [hq, hr, hd, Slots.assign, Option.toList_none, List.append_nil]
    rfl
  | some c =>
    show (⟨q.base.range, (q.components.emplaceBack c).data⟩ : Slots α w) = _
    rw [Vec.data_emplaceBack, hq, hr, hd]
    rfl

theorem slots_replace (h : p.base.WF) (he : et ∈ p.base.range) {c : Ctor α}
    {r : Pool α w × Ending} (hs : p.replace et c = some r) :
    r.1.slots = p.slots.replace et c := by
  cases c with
  | none =>
    obtain rfl := Option.some.inj hs
    rfl
  | some c =>
    simp only [Pool.replace, h.indexOf_eq_idxOf he, Option.bind_eq_bind, Option.bind_some,
      Option.bind_eq_some_iff, Option.pure_def, Option.some.injEq,
      h.toNat_ofNat (SwapList.getElem?_idxOf he)] at hs
    obtain ⟨v, hv, rfl⟩ := hs
    show (⟨p.base.range, v.data⟩ : Slots α w) = _
    rw [(Vec.set_eq_some hv).2]
    rfl

theorem slots_assignOrReplace (h : p.base.WF) {c : Ctor α} {r : Pool α w × Ending}
    (hs : p.assignOrReplace et c = some r) : r.1.slots = p.slots.assignOrReplace et c := by
  by_cases he : et ∈ p.base.range
  · rw [assignOrReplace_of_mem h he] at hs
    exact (slots_replace h he hs).trans (if_pos (List.contains_iff_mem.mpr he)).symm
  · rw [assignOrReplace_of_notMem h he] at hs
    exact (slots_assign h hs).trans (if_neg (mt List.contains_iff_mem.mp he)).symm

theorem slots_delete (h : p.base.WF) (hs : p.delete et = some p') :
    p'.slots = p.slots.delete et := by
  obtain ⟨b, hb, rfl⟩ := delete_eq_some.mp hs
  rw [slots, h.range_erase hb]
  rfl

/-- `Replace` is called on a registered entity. -/
def Op.Owned (p : Pool α w) : Op α w → Prop
  | .replace et _ => et ∈ p.base.range
  | _ => True

/-- A call on a pool is the call on its slots. -/
theorem slots_step (h : p.base.WF) {op : Op α w} (hop : op.Owned p) (hs : p.step op = some p') :
    p'.slots = p.slots.step op := by
  cases op with
  | assign et c =>
    obtain ⟨r, hr, rfl⟩ := Option.map_eq_some_iff.mp hs
    exact slots_assign h hr
  | replace et c =>
    obtain ⟨r, hr, rfl⟩ := Option.map_eq_some_iff.mp hs
    exact slots_replace h hop hr
  | assignOrReplace et c =>
    obtain ⟨r, hr, rfl⟩ := Option.map_eq_some_iff.mp hs
    exact slots_assignOrReplace h hr
  | delete et => exact slots_delete h hs
  | reset =>
    obtain rfl := Option.some.inj hs
    simp [slots, reset, Slots.step, Slots.empty, Vec.clear]
  | reserve n =>
    obtain rfl := Option.some.inj hs
    rw [slots, base_reserve, data_reserve]
    rfl

/-- `Get` reads the slots. -/
theorem get_slots (h : p.base.WF) (et : BitVec w) : p.get et = p.slots.get et := by
  by_cases he : et ∈ p.base.range
  · exact (get_of_getElem? h (SwapList.getElem?_idxOf he)).trans
      (if_pos (List.contains_iff_mem.mpr he)).symm
  · exact (get_of_notMem h he).trans (if_neg (mt List.contains_iff_mem.mp he)).symm

end Pool

/-! ### The pool vector -/

namespace Pools

variable {κ : Type} [DecidableEq κ] {Comp : κ → Type} {w : ℕ}
variable {ps ps' : Pools Comp w} {C : κ}

/-- What the pool of each type holds. -/
def slots (ps : Pools Comp w) (C : κ) : Option (Slots (Comp C) w) := (getPool ps C).map Pool.slots

theorem slots_of_getPool {p : Pool (Comp C) w} (h : getPool ps C = some p) :
    slots ps C = some p.slots := by rw [slots, h, Option.map_some]

theorem owns_slots {e : BitVec w} :
    Owns ps C e ↔ ∃ s, slots ps C = some s ∧ e ∈ s.owners := by
  simp only [Owns, slots, Option.map_eq_some_iff, exists_exists_and_eq_and]
  rfl

theorem slots_setPool {q : Pool (Comp C) w} (h : getPool ps C = some q) (p : Pool (Comp C) w) :
    slots (setPool ps C p) = Function.update (slots ps) C (some p.slots) := by
  funext D
  by_cases hD : D = C
  · subst hD
    rw [slots, getPool_setPool_self h, Function.update_self, Option.map_some]
  · rw [slots, getPool_setPool_ne hD, Function.update_of_ne hD, slots]

theorem slots_tryAllocatePool (ps : Pools Comp w) (C : κ) :
    slots (tryAllocatePool ps C) =
      Function.update (slots ps) C (some ((slots ps C).getD Slots.empty)) := by
  funext D
  by_cases hD : D = C
  · subst hD
    rw [slots, getPool_tryAllocatePool_self, Function.update_self, slots, Option.map_some]
    rcases getPool ps D with - | p
    · rw [Option.getD_none, Pool.slots_empty]
      rfl
    · rfl
  · rw [slots, getPool_tryAllocatePool_ne hD, Function.update_of_ne hD, slots]

/-- A call on one pool changes its slots. -/
theorem slots_modify {f : Pool (Comp C) w → Option (Pool (Comp C) w)}
    {g : Slots (Comp C) w → Slots (Comp C) w}
    (hf : ∀ p p', getPool ps C = some p → f p = some p' → p'.slots = g p.slots)
    (hs : modify ps C f = some ps') :
    slots ps' = Function.update (slots ps) C ((slots ps C).map g) := by
  obtain ⟨p, p', hp, hfp, rfl⟩ := modify_eq_some.mp hs
  rw [slots_setPool hp, slots_of_getPool hp, Option.map_some, hf p p' hp hfp]

theorem sound_modify (h : Sound ps) {op : Pool.Op (Comp C) w}
    (hs : modify ps C (·.step op) = some ps') : Sound ps' :=
  h.modify (fun _ _ hp hp' => Pool.wf_step hp hp') hs

theorem slots_call (h : Sound ps) {op : Pool.Op (Comp C) w}
    (hop : ∀ p, getPool ps C = some p → op.Owned p)
    (hs : modify ps C (·.step op) = some ps') :
    slots ps' = Function.update (slots ps) C ((slots ps C).map (·.step op)) :=
  slots_modify (fun p _ hp hp' => Pool.slots_step (h C p hp) (hop p hp) hp') hs

end Pools

/-! ### The manager -/

namespace EntityManager

variable {κ : Type} [DecidableEq κ] {Comp : κ → Type} {w : ℕ}
variable {em em' : EntityManager Comp w} {s : State Comp w} {C : κ} {Cs : List κ}
  {et e : BitVec w} {es : List (BitVec w)}

/-- What a manager holds. -/
def world (em : EntityManager Comp w) : World Comp w := ⟨em.entities.range, em.pools.slots⟩

theorem world_empty : (empty : EntityManager Comp w).world = World.empty := by
  rw [world, empty, SparseSet.range_empty]
  rfl

theorem owns_world : em.world.Owns C e ↔ Owns em C e := Pools.owns_slots.symm

theorem owners_world (em : EntityManager Comp w) (Cs : List κ) :
    em.world.owners Cs = em.owners Cs := by
  unfold World.owners owners
  refine List.filter_congr fun e _ => ?_
  simp only [owns_world]

/-! ### Calls -/

theorem Tidy.world_destroyEt (h : Tidy em) (hs : em.destroyEt et = some em') :
    em'.world = em.world.destroyEt et := by
  obtain ⟨hp, hen, -⟩ := destroyEt_eq_some.mp hs
  obtain ⟨ps, hps, hkeys, hget⟩ := Pools.destroy_eq h.pools et
  obtain rfl := Option.some.inj (hps.symm.trans hp)
  rw [world, h.entities.range_erase hen, World.destroyEt]
  congr 1
  funext C
  rcases hC : em.pools.getPool C with - | p
  · -- no pool before, and none now
    have hC' : em'.pools.getPool C = none := by
      rw [← Option.not_isSome_iff_eq_none, Option.isSome_iff_exists, ← Pools.mem_keys_iff, hkeys,
        Pools.mem_keys_iff, hC]
      simp
    simp [Pools.slots, hC, hC', world]
  · obtain ⟨p', hdel, hp'⟩ := hget C p hC
    rw [Pools.slots_of_getPool hp', Pool.slots_delete (h.pools C p hC) hdel]
    simp [world, Pools.slots_of_getPool hC]

theorem Tidy.world_destroy (h : Tidy em) (hs : em.destroy es = some em') :
    em'.world = em.world.destroy es := by
  induction es generalizing em with
  | nil =>
    obtain rfl := Option.some.inj hs
    rfl
  | cons et es ih =>
    rw [destroy_cons, Option.bind_eq_some_iff] at hs
    obtain ⟨a, ha, hs⟩ := hs
    rw [ih (h.destroyEt ha) hs, h.world_destroyEt ha]
    rfl

/-- Calls on the pools of a list of types, none of them `Replace`. -/
theorem world_callAll {ps ps' : Pools Comp w} {live : List (BitVec w)}
    {f : ∀ C, Pool.Op (Comp C) w} (hf : ∀ C p, (f C).Owned p) (h : ps.Sound)
    (hs : ps.callAll (Cs.map fun C => ⟨C, f C⟩) = some ps') :
    (⟨live, ps'.slots⟩ : World Comp w) =
      Cs.foldl (fun W C => W.modify C (·.step (f C))) ⟨live, ps.slots⟩ := by
  induction Cs generalizing ps with
  | nil =>
    obtain rfl := Option.some.inj hs
    rfl
  | cons C Cs ih =>
    rw [List.map_cons, Pools.callAll_cons, Option.bind_eq_some_iff] at hs
    obtain ⟨qs, hq, hs⟩ := hs
    rw [ih (Pools.sound_modify h hq) hs, Pools.slots_call h (fun p _ => hf C p) hq]
    rfl

/-- One call on a pool that has just been allocated. -/
theorem Tidy.world_build (h : Tidy em) {op : Pool.Op (Comp C) w} (hop : ∀ p, op.Owned p)
    {ps' : Pools Comp w}
    (hs : (em.pools.tryAllocatePool C).callAll [⟨C, op⟩] = some ps') :
    (⟨em.entities.range, ps'.slots⟩ : World Comp w) =
      (em.world.allocate C).modify C (·.step op) := by
  rw [Pools.callAll_singleton] at hs
  have hsound : (em.pools.tryAllocatePool C).Sound :=
    h.pools.tryAllocatePool C SparseSet.wf_empty
  rw [Pools.slots_call hsound (fun p _ => hop p) hs, Pools.slots_tryAllocatePool]
  rfl

theorem Tidy.world_onPools (h : Tidy em) {op : Pools.Op Comp w} (hv : (Op.onPools op).Valid em)
    {r : Pools Comp w × Ending} (hs : em.pools.step op = some r) :
    (⟨em.entities.range, r.1.slots⟩ : World Comp w) = em.world.onPools op := by
  have hs' := Pools.step_fst em.pools op
  rw [hs, Option.map_some] at hs'
  replace hs' := hs'.symm
  cases op with
  | assign C et c =>
    have hop : ∀ p, (Pool.Op.assign et c).Owned p := fun _ => trivial
    exact h.world_build hop hs'
  | assignOrReplace C et c =>
    have hop : ∀ p, (Pool.Op.assignOrReplace et c).Owned p := fun _ => trivial
    exact h.world_build hop hs'
  | replace C et c =>
    obtain ⟨p, hp, he⟩ := h.has_iff.mp hv C List.mem_cons_self
    rw [show (Pools.Op.replace C et c).calls = [⟨C, .replace et c⟩] from rfl,
      Pools.callAll_singleton] at hs'
    have hown : ∀ q, em.pools.getPool C = some q → (Pool.Op.replace et c).Owned q := by
      intro q hq
      exact Option.some.inj (hp.symm.trans hq) ▸ he
    rw [Pools.slots_call h.pools hown hs']
    rfl
  | delete Cs et => exact world_callAll (f := fun C => .delete et) (fun _ _ => trivial) h.pools hs'
  | reset Cs => exact world_callAll (f := fun C => .reset) (fun _ _ => trivial) h.pools hs'
  | reserve C n =>
    have hop : ∀ p : Pool (Comp C) w, (Pool.Op.reserve n).Owned p := fun _ => trivial
    rw [h.world_build hop hs']
    show World.modify _ _ _ = World.allocate _ _
    rw [World.modify, World.allocate, Function.update_idem]
    simp [Slots.step]

/-- A valid call on the manager is the call on its world. -/
theorem Inv.world_step (h : Inv s) {op : Op Comp w} (hv : op.Valid s.em)
    {r : State Comp w × Ret w} (hs : step s op = some r) :
    r.1.em.world = s.em.world.after op r.2 := by
  cases op with
  | create =>
    simp only [step, Option.bind_eq_bind, Option.bind_eq_some_iff, Option.pure_def,
      Option.some.injEq] at hs
    obtain ⟨⟨em', ett', et⟩, hc, rfl⟩ := hs
    obtain ⟨hins, hp, -⟩ := create_eq_some.mp hc
    show em'.world = _
    rw [world, h.tidy.entities.range_insert hins, hp]
    rfl
  | destroy ets =>
    simp only [step, Option.bind_eq_bind, Option.bind_eq_some_iff, Option.pure_def,
      Option.some.injEq] at hs
    obtain ⟨em', hd, rfl⟩ := hs
    exact h.tidy.world_destroy hd
  | destroyWith Cs =>
    simp only [step, Option.bind_eq_bind, Option.bind_eq_some_iff, Option.pure_def,
      Option.some.injEq, h.tidy.destroyWith_eq] at hs
    obtain ⟨em', hd, rfl⟩ := hs
    show em'.world = s.em.world.destroy (s.em.world.owners Cs)
    rw [owners_world]
    exact h.tidy.world_destroy hd
  | reset =>
    simp only [step, Option.bind_eq_bind, Option.bind_eq_some_iff, Option.pure_def,
      Option.some.injEq, h.tidy.reset_eq] at hs
    obtain ⟨em', hd, rfl⟩ := hs
    exact h.tidy.world_destroy hd
  | reserve n =>
    obtain rfl := Option.some.inj hs
    show (⟨(s.em.entities.reserve n).range, _⟩ : World Comp w) = _
    rw [h.tidy.entities.range_reserve]
    rfl
  | onPools op =>
    simp only [step, Option.bind_eq_bind, Option.bind_eq_some_iff, Option.pure_def,
      Option.some.injEq] at hs
    obtain ⟨r, hp, rfl⟩ := hs
    exact h.tidy.world_onPools hv hp

/-! ### Questions -/

theorem Tidy.get_world (h : Tidy em) (C : κ) (et : BitVec w) :
    em.pools.get C et = em.world.get C et := by
  rcases hC : em.pools.getPool C with - | p
  · simp [Pools.get, World.get, world, Pools.slots, hC]
  · simp only [Pools.get, World.get, world, Pools.slots_of_getPool hC, hC, Option.bind_eq_bind,
      Option.bind_some]
    exact Pool.get_slots (h.pools C p hC) et

theorem Tidy.getAll_world (h : Tidy em) (Cs : List κ) (et : BitVec w) :
    em.pools.getAll Cs et = em.world.getAll Cs et := by
  unfold Pools.getAll World.getAll
  congr 1
  funext C
  rw [h.get_world]

theorem Tidy.filterGet_world (h : Tidy em) (Cs : List κ) (et : BitVec w) :
    em.pools.filterGet Cs et = em.world.filterGet Cs et := by
  unfold Pools.filterGet World.filterGet
  congr 1
  funext C
  rw [h.get_world]

theorem Tidy.filterHas_world (h : Tidy em) (Cs : List κ) (et : BitVec w) :
    em.pools.filterHas Cs et = em.world.filterHas Cs et := by
  induction Cs with
  | nil => rfl
  | cons C Cs ih =>
    rw [Pools.filterHas, World.filterHas, ih]
    rcases hC : em.pools.getPool C with - | p
    · simp [Pools.closureHas, world, Pools.slots, hC]
    · have hb : p.has et = some (decide (et ∈ p.base.range)) := (h.pools C p hC).has_eq et
      simp only [Pools.closureHas, hC, world, Pools.slots_of_getPool hC, Option.bind_eq_bind,
        Option.bind_some, hb, decide_eq_true_eq, List.contains_iff_mem]
      rfl

theorem Tidy.size_world (h : Tidy em) : em.size = BitVec.ofNat w em.world.live.length := by
  show em.entities.size = BitVec.ofNat w em.entities.range.length
  rw [h.entities.length_range, BitVec.ofNat_toNat, BitVec.setWidth_eq]

theorem Tidy.sizeOf_world (h : Tidy em) (Cs : List κ) : em.sizeOf Cs = em.world.sizeOf Cs := by
  cases Cs with
  | nil => exact congrArg some h.size_world
  | cons C Cs =>
    have hhas := fun e (_ : e ∈ em.entities.range) => h.has_eq (C :: Cs) e
    have hloop : em.sizeOf (C :: Cs) = (em.entities.range.foldlM (fun (result : ℕ) et => do
        if ← em.has (C :: Cs) et then
          if result + 1 < 2 ^ 31 then return result + 1 else none
        else return result) 0).map (BitVec.ofNat w) := by
      rw [sizeOf, h.entities.rangeFor_const, Option.map_eq_bind]
      · rfl
      · simp
    rw [hloop, World.sizeOf, owners_world]
    · split
      · rename_i hlt
        rw [Collect.foldlM_count hhas (by rw [Nat.zero_add]; exact hlt), Nat.zero_add]
        rfl
      · rename_i hge
        have hle := Nat.not_lt.mp hge
        rw [Collect.foldlM_count_none hhas (by decide) (by rwa [Nat.zero_add])]
        rfl
    · simp

theorem Tidy.forEach_world (h : Tidy em) : em.forEach = some em.world.live := by
  rw [forEach, h.entities.rangeFor_const]
  have key : ∀ (l calls : List (BitVec w)),
      l.foldlM (fun calls et => some (calls ++ [et])) calls = some (calls ++ l) := by
    intro l
    induction l with
    | nil => simp
    | cons e l ih =>
      intro calls
      rw [List.foldlM_cons, Option.bind_eq_bind, Option.bind_some, ih]
      simp
  exact key em.entities.range []

theorem Tidy.forEachOf_world (h : Tidy em) (Cs : List κ) :
    em.forEachOf Cs = em.world.forEachOf Cs := by
  rw [forEachOf, h.entities.rangeFor_const, World.forEachOf]
  congr 1
  funext calls et
  rw [forEachRound, h.filterHas_world, h.filterGet_world]
  rfl

theorem Tidy.isEmpty_world (h : Tidy em) : em.isEmpty = em.world.live.isEmpty := by
  rw [Bool.eq_iff_iff, List.isEmpty_iff, List.eq_nil_iff_forall_not_mem]
  exact h.entities.isEmpty_iff

/-- A question about a manager is one about its world. -/
theorem Tidy.ask_world (h : Tidy em) (q : Query κ w) : em.ask q = em.world.ask q := by
  cases q with
  | get Cs et => exact congrArg (Option.map _) (h.getAll_world Cs et)
  | has Cs et =>
    rw [ask, h.has_eq, World.ask, Option.map_some]
    simp only [owns_world]
  | exists_ et =>
    rw [ask, exists_, h.entities.has_eq, World.ask, List.contains_eq_mem]
    rfl
  | size => exact congrArg (fun n => some (Answer.number n)) h.size_world
  | sizeOf Cs => exact congrArg (Option.map _) (h.sizeOf_world Cs)
  | isEmpty => exact congrArg (fun b => some (Answer.bool b)) h.isEmpty_world
  | isEmptyOf Cs =>
    rw [ask, isEmptyOf, h.sizeOf_world, World.ask]
    rcases em.world.sizeOf Cs with - | n <;> rfl
  | forEach => exact congrArg (Option.map _) h.forEach_world
  | forEachOf Cs => exact congrArg (Option.map _) (h.forEachOf_world Cs)

/-! ### Runs -/

/-- Run a manager and its world side by side; the world is told what a call has
returned. -/
def stepWorld (x : State Comp w × World Comp w) (op : Op Comp w) :
    Option (State Comp w × World Comp w) :=
  (step x.1 op).map fun r => (r.1, x.2.after op r.2)

/-- A manager and its world stay together. -/
theorem world_run {x y : State Comp w × World Comp w} {ops : List (Op Comp w)} (h : Inv x.1)
    (hx : x.1.em.world = x.2)
    (hops : Machine.Along stepWorld (fun x op => op.Valid x.1.em) x ops)
    (hs : Machine.run stepWorld x ops = some y) : Inv y.1 ∧ y.1.em.world = y.2 := by
  refine Machine.run_invariant (I := fun x => Inv x.1 ∧ x.1.em.world = x.2) ?_ ⟨h, hx⟩ hops hs
  rintro x op y ⟨h, hx⟩ hv hs
  obtain ⟨r, hr, rfl⟩ := Option.map_eq_some_iff.mp hs
  exact ⟨h.next hv (next_of_step hr), hx ▸ h.world_step hv hr⟩

/-- **Every answer is the world's.**  Along any run of valid calls from the empty
manager, whatever ids `Create` returns and whichever constructors throw, every
question about the manager, in every state, is answered as the world of the
calls answers it; and where the world has no answer, because a pointer would be
null, a cell outside its row or a count beyond an `int`, the call has no defined
behaviour. -/
theorem ask_eq_world (ett : BitVec w) (ops : List (Op Comp w))
    (hops : Machine.Along stepWorld (fun x op => op.Valid x.1.em)
      (State.init ett, World.empty) ops)
    {s : State Comp w} {W : World Comp w}
    (hs : Machine.run stepWorld (State.init ett, World.empty) ops = some (s, W))
    (q : Query κ w) : s.em.ask q = W.ask q := by
  obtain ⟨h, hW⟩ := world_run (inv_init ett) world_empty hops hs
  rw [h.tidy.ask_world, hW]

/-- Two entities; a constructor throws while the second is given a component, and the
first is destroyed. -/
theorem ask_eq_world_pair :
    let ops : List (Op (fun _ : Unit => ℕ) 8) :=
      [.create, .create, .onPools (.assign () 0 (some 450)), .onPools (.assign () 1 none),
        .destroy [0], .create]
    ∃ s W, Machine.run stepWorld (State.init 0, World.empty) ops = some (s, W) ∧
      W.live = [1, 0] ∧ W.owners [()] = [1] ∧ s.em.ask .forEach = W.ask .forEach := by
  intro ops
  obtain ⟨⟨s, W⟩, hs⟩ : ∃ x, Machine.run stepWorld (State.init 0, World.empty) ops = some x :=
    Option.isSome_iff_exists.mp (by decide)
  have hW : (Machine.run stepWorld (State.init 0, World.empty) ops).map
      (fun x => (x.2.live, x.2.owners [()])) = some ([1, 0], [1]) := by decide
  rw [hs, Option.map_some, Option.some.injEq, Prod.mk.injEq] at hW
  exact ⟨s, W, hs, hW.1, hW.2, ask_eq_world 0 ops (by decide) hs .forEach⟩

end EntityManager

end Indie
