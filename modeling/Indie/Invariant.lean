/-
Indie/Invariant.lean

What every valid call on an entity manager keeps, and when it is defined.

`Op.Valid` is the documented use of each member: destroy distinct live
entities, assign to live ones, replace and delete what is owned, reset
registered pools.  Constructors may throw.  Valid calls keep `Inv`: the
manager is tidy, no component type has two records, and the recycled set has
the right shape (`Inv.next`).

The recycled set is not always *well formed*: `Create` may leave it with an
element its `_sparse` has lost track of (see `Recycle`), and a later insertion
may then write outside.  A valid call has undefined behaviour only for one of
three reasons (`Inv.next_defined`): that, the id counter at its end, or a pool
with fewer components than entities, which a throwing constructor leaves
behind.
-/
import Indie.Destroy
import Indie.PoolMap

namespace Indie

/-! ### One pool -/

namespace Pool

variable {α : Type} {w : ℕ} {p p' : Pool α w} {e : BitVec w}

/-- The entities a call may register. -/
def Op.registers : Op α w → List (BitVec w)
  | .assign et _ => [et]
  | .assignOrReplace et _ => [et]
  | _ => []

/-- A call registers only the entity it is given. -/
theorem mem_range_step (h : p.base.WF) {op : Op α w} (hs : p.step op = some p')
    (he : e ∈ p'.base.range) : e ∈ p.base.range ∨ e ∈ op.registers := by
  cases op with
  | assign et c =>
    obtain ⟨r, hr, rfl⟩ := Option.map_eq_some_iff.mp hs
    rcases (h.mem_insert (wf_assign h hr)).mp he with rfl | he
    · exact .inr List.mem_cons_self
    · exact .inl he
  | replace et c =>
    obtain ⟨r, hr, rfl⟩ := Option.map_eq_some_iff.mp hs
    rw [base_replace hr] at he
    exact .inl he
  | assignOrReplace et c =>
    obtain ⟨r, hr, rfl⟩ := Option.map_eq_some_iff.mp hs
    rcases (h.mem_insert (wf_assignOrReplace h hr)).mp he with rfl | he
    · exact .inr List.mem_cons_self
    · exact .inl he
  | delete et =>
    obtain ⟨b, hb, rfl⟩ := delete_eq_some.mp hs
    exact .inl ((h.mem_erase hb).mp he).1
  | reset =>
    obtain rfl := Option.some.inj hs
    rw [reset, SparseSet.range_clear] at he
    cases he
  | reserve count =>
    obtain rfl := Option.some.inj hs
    rw [base_reserve] at he
    exact .inl he

theorem WF.replace_defined (h : WF p) (he : e ∈ p.base.range) (c : Ctor α) :
    ∃ r, p.replace e c = some r := by
  cases c with
  | none => exact ⟨_, replace_none p e⟩
  | some c =>
    obtain ⟨i, hi⟩ := List.getElem?_of_mem he
    obtain ⟨v, -, hs⟩ := replace_eq h.base hi (h.get_eq hi).2 c
    exact ⟨_, hs⟩

theorem WF.assignOrReplace_defined (h : WF p) (he : e.toNat + 1 < 2 ^ w) (c : Ctor α) :
    ∃ r, p.assignOrReplace e c = some r := by
  by_cases hmem : e ∈ p.base.range
  · rw [assignOrReplace_of_mem h.base hmem]
    exact h.replace_defined hmem c
  · rw [assignOrReplace_of_notMem h.base hmem]
    exact Pool.assign_defined h.base he c

end Pool

/-! ### The pool vector -/

namespace Pools

variable {κ : Type} [DecidableEq κ] {Comp : κ → Type} {w : ℕ}
variable {ps : Pools Comp w} {C : κ}

/-- Every pool has a component for each of its entities. -/
def Covered (ps : Pools Comp w) : Prop := Every ps fun _ p => p.WF

theorem build_defined {p : Pool (Comp C) w} (hp : getPool ps C = some p)
    {f : Pool (Comp C) w → Option (Pool (Comp C) w × Ending)} {r : Pool (Comp C) w × Ending}
    (hf : f p = some r) : ∃ r', build ps C f = some r' := by
  refine ⟨(setPool ps C r.1, r.2), ?_⟩
  rw [build, hp, Option.bind_eq_bind, Option.bind_some, hf]
  rfl

/-- Calls on pools that are there are defined, if each is defined on every pool
that meets an invariant they keep. -/
theorem Every.callAll_defined {P : ∀ C, Pool (Comp C) w → Prop}
    {calls : List (Σ C, Pool.Op (Comp C) w)} (h : Every ps P)
    (hkeys : ∀ c ∈ calls, c.1 ∈ List.keys ps)
    (hP : ∀ c ∈ calls, ∀ p, P c.1 p → ∃ p', p.step c.2 = some p' ∧ P c.1 p') :
    ∃ ps', Pools.callAll ps calls = some ps' := by
  induction calls generalizing ps with
  | nil => exact ⟨ps, rfl⟩
  | cons c calls ih =>
    obtain ⟨p, hp⟩ := mem_keys_iff.mp (hkeys c List.mem_cons_self)
    obtain ⟨p', hs, hp'⟩ := hP c List.mem_cons_self p (h c.1 p hp)
    have hm : Pools.modify ps c.1 (·.step c.2) = some (setPool ps c.1 p') :=
      modify_eq_some.mpr ⟨p, p', hp, hs, rfl⟩
    obtain ⟨ps', hs'⟩ := ih (h.modify (f := fun _ => some p')
        (fun _ _ _ e => Option.some.inj e ▸ hp') (Pools.modify_eq_some.mpr ⟨p, p', hp, rfl, rfl⟩))
      (fun d hd => by
        rw [keys_setPool]
        exact hkeys d (List.mem_cons_of_mem c hd))
      (fun d hd => hP d (List.mem_cons_of_mem c hd))
    exact ⟨ps', by rw [callAll_cons, hm]; exact hs'⟩

theorem isSome_step_iff (op : Op Comp w) :
    (step ps op).isSome ↔
      (callAll (op.allocates.foldl tryAllocatePool ps) op.calls).isSome := by
  rw [← step_fst, Option.isSome_map]

end Pools

namespace EntityManager

variable {κ : Type} [DecidableEq κ] {Comp : κ → Type} {w : ℕ}
variable {s s' : State Comp w} {em em' : EntityManager Comp w} {ett ett' et e : BitVec w}

/-- A call without its result. -/
def next (s : State Comp w) (op : Op Comp w) : Option (State Comp w) :=
  (step s op).map Prod.fst

@[simp] theorem next_create (s : State Comp w) :
    next s .create = (s.em.create s.ett).map fun r => ⟨r.2.1, r.1⟩ := by
  rw [next, step]
  rcases s.em.create s.ett with - | ⟨em, ett, et⟩ <;> rfl

@[simp] theorem next_destroy (s : State Comp w) (ets : List (BitVec w)) :
    next s (.destroy ets) = (s.em.destroy ets).map fun em => { s with em } := by
  rw [next, step]
  rcases s.em.destroy ets with - | em <;> rfl

@[simp] theorem next_destroyWith (s : State Comp w) (Cs : List κ) :
    next s (.destroyWith Cs) = (s.em.destroyWith Cs).map fun em => { s with em } := by
  rw [next, step]
  rcases s.em.destroyWith Cs with - | em <;> rfl

@[simp] theorem next_reset (s : State Comp w) :
    next s .reset = s.em.reset.map fun em => { s with em } := by
  rw [next, step]
  rcases s.em.reset with - | em <;> rfl

@[simp] theorem next_onPools (s : State Comp w) (op : Pools.Op Comp w) :
    next s (.onPools op) =
      (s.em.pools.step op).map fun r => { s with em := { s.em with pools := r.1 } } := by
  rw [next, step]
  rcases s.em.pools.step op with - | ⟨ps, e⟩ <;> rfl

/-! ### `Create` -/

omit [DecidableEq κ] in
/-- The entity `Create` returns is the fresh id, or the first recycled one. -/
theorem create_eq_some :
    em.create ett = some (em', ett', et) ↔
      em.entities.insert et = some em'.entities ∧ em'.pools = em.pools ∧
      if em.deletedEt.size = 0 then
        em'.deletedEt = em.deletedEt ∧ et = ett ∧ ett' = ett + 1
      else
        em.deletedEt.dense[0]? = some et ∧
          em.deletedEt.eraseAt 0 = some em'.deletedEt ∧ ett' = ett := by
  rw [create]
  split
  · simp only [Option.bind_eq_bind, Option.bind_eq_some_iff, Option.pure_def,
      Option.some.injEq, Prod.mk.injEq]
    constructor
    · rintro ⟨en, hen, rfl, rfl, rfl⟩
      exact ⟨hen, rfl, rfl, rfl, rfl⟩
    · rintro ⟨hen, hp, hd, rfl, rfl⟩
      exact ⟨_, hen, by rw [← hp, ← hd], rfl, rfl⟩
  · simp only [Option.bind_eq_bind, Option.bind_eq_some_iff, Option.pure_def,
      Option.some.injEq, Prod.mk.injEq]
    constructor
    · rintro ⟨v, hv, en, hen, v', hv', d, hd, rfl, rfl, rfl⟩
      obtain rfl := Option.some.inj (hv.symm.trans hv')
      exact ⟨hen, rfl, hv, hd, rfl⟩
    · rintro ⟨hen, hp, hv, hd, rfl⟩
      exact ⟨et, hv, _, hen, et, hv, _, hd, by rw [← hp], rfl, rfl⟩

theorem Tidy.create (h : Tidy em) (hs : em.create ett = some (em', ett', et)) :
    Tidy em' ∧ ∀ e, Live em' e ↔ e = et ∨ Live em e := by
  obtain ⟨hins, hp, -⟩ := create_eq_some.mp hs
  have hlive : ∀ e, Live em' e ↔ e = et ∨ Live em e := fun e => h.entities.mem_insert hins
  refine ⟨⟨(h.entities.insert_eq hins).1, hp ▸ h.pools, fun C e ho => ?_⟩, hlive⟩
  rw [Owns, hp] at ho
  exact (hlive e).mpr (.inr (h.live C e ho))

/-! ### The documented use -/

/-- The documented use of each member. -/
def Op.Valid (em : EntityManager Comp w) : Op Comp w → Prop
  | .create => True
  | .destroy ets => ets.Nodup ∧ ∀ et ∈ ets, em.exists_ et = some true
  | .destroyWith _ => True
  | .reset => True
  | .reserve _ => True
  | .onPools (.assign _ et _) => em.exists_ et = some true
  | .onPools (.replace C et _) => em.has [C] et = some true
  | .onPools (.assignOrReplace _ et _) => em.exists_ et = some true
  | .onPools (.delete Cs et) => Cs.Nodup ∧ ∀ C ∈ Cs, em.has [C] et = some true
  | .onPools (.reset Cs) => ∀ C ∈ Cs, (em.pools.getPool C).isSome
  | .onPools (.reserve _ _) => True

instance (em : EntityManager Comp w) (op : Op Comp w) : Decidable (op.Valid em) :=
  match op with
  | .destroy ets =>
    have := List.decidableBAll (fun et => em.exists_ et = some true) ets
    inferInstanceAs (Decidable (ets.Nodup ∧ ∀ et ∈ ets, em.exists_ et = some true))
  | .onPools (.assign _ et _) | .onPools (.assignOrReplace _ et _) =>
    inferInstanceAs (Decidable (em.exists_ et = some true))
  | .onPools (.replace C et _) => inferInstanceAs (Decidable (em.has [C] et = some true))
  | .onPools (.delete Cs et) =>
    have := List.decidableBAll (fun C => em.has [C] et = some true) Cs
    inferInstanceAs (Decidable (Cs.Nodup ∧ ∀ C ∈ Cs, em.has [C] et = some true))
  | .onPools (.reset Cs) => List.decidableBAll (fun C => (em.pools.getPool C).isSome) Cs
  | .create | .destroyWith _ | .reset | .reserve _ | .onPools (.reserve _ _) => isTrue trivial

/-- A fresh id is left, if the call draws one. -/
def Op.FreshLeft (s : State Comp w) : Op Comp w → Prop
  | .create => s.em.deletedEt.size = 0 → s.ett.toNat + 1 < 2 ^ w
  | _ => True

instance (s : State Comp w) (op : Op Comp w) : Decidable (op.FreshLeft s) :=
  match op with
  | .create => inferInstanceAs (Decidable (_ → _))
  | .destroy _ | .destroyWith _ | .reset | .reserve _ | .onPools _ => isTrue trivial

/-- Every state reached by valid calls meets this. -/
structure Inv (s : State Comp w) : Prop where
  tidy : Tidy s.em
  nodup : List.NodupKeys s.em.pools
  shape : s.em.deletedEt.Shape

theorem inv_init (ett : BitVec w) : Inv (State.init ett : State Comp w) where
  tidy := tidy_empty
  nodup := List.nodupKeys_nil
  shape := SparseSet.wf_empty.toShape

theorem Inv.destroy (h : Inv s) {es : List (BitVec w)} (hs : s.em.destroy es = some em') :
    Inv (⟨ett', em'⟩ : State Comp w) where
  tidy := h.tidy.destroy hs
  nodup := by
    show (List.keys em'.pools).Nodup
    rw [h.tidy.keys_destroy hs]
    exact h.nodup
  shape := destroy_invariant (I := fun em => em.deletedEt.Shape)
    (fun _ _ _ _ hI hs => (hI.insert (destroyEt_eq_some.mp hs).2.2).1) h.shape hs

theorem Inv.create (h : Inv s) (hs : s.em.create s.ett = some (em', ett', et)) :
    Inv (⟨ett', em'⟩ : State Comp w) where
  tidy := (h.tidy.create hs).1
  nodup := by
    obtain ⟨-, hp, -⟩ := create_eq_some.mp hs
    exact hp ▸ h.nodup
  shape := by
    obtain ⟨-, -, hd⟩ := create_eq_some.mp hs
    show em'.deletedEt.Shape
    split at hd
    · exact hd.1 ▸ h.shape
    · exact (h.shape.eraseRef hd.2.1).1

/-- A valid call registers live entities only. -/
theorem Op.Valid.registers_live (h : Tidy em) {op : Pools.Op Comp w}
    (hv : (Op.onPools op).Valid em) :
    ∀ c ∈ op.calls, ∀ e ∈ c.2.registers, Live em e := by
  cases op with
  | assign C et c =>
    intro c hc e he
    obtain rfl := List.mem_singleton.mp hc
    exact List.mem_singleton.mp he ▸ h.exists_iff.mp hv
  | assignOrReplace C et c =>
    intro c hc e he
    obtain rfl := List.mem_singleton.mp hc
    exact List.mem_singleton.mp he ▸ h.exists_iff.mp hv
  | replace C et c =>
    intro c hc e he
    obtain rfl := List.mem_singleton.mp hc
    cases he
  | delete Cs et =>
    intro c hc e he
    obtain ⟨C, -, rfl⟩ := List.mem_map.mp hc
    cases he
  | reset Cs =>
    intro c hc e he
    obtain ⟨C, -, rfl⟩ := List.mem_map.mp hc
    cases he
  | reserve C n =>
    intro c hc e he
    obtain rfl := List.mem_singleton.mp hc
    cases he

theorem Inv.onPools (h : Inv s) {op : Pools.Op Comp w} (hv : (Op.onPools op).Valid s.em)
    {r : Pools Comp w × Ending} (hs : s.em.pools.step op = some r) :
    Inv (⟨s.ett, { s.em with pools := r.1 }⟩ : State Comp w) where
  tidy := by
    refine ⟨h.tidy.entities, Pools.Sound.step h.tidy.pools hs, ?_⟩
    -- a pool holds the entities it held, and those the call registers
    have hev : Pools.Every r.1 fun _ p => p.base.WF ∧ ∀ e ∈ p.base.range, Live s.em e := by
      refine Pools.Every.step (fun C p hp => ⟨h.tidy.pools C p hp,
          fun e he => h.tidy.live C e ⟨p, hp, he⟩⟩)
        (fun C => ⟨SparseSet.wf_empty, fun e he => ?_⟩)
        (fun c hc p p' hp hp' => ⟨Pool.wf_step hp.1 hp', fun e he => ?_⟩) hs
      · rw [Pool.empty, SparseSet.range_empty] at he
        cases he
      · rcases Pool.mem_range_step hp.1 hp' he with he | he
        · exact hp.2 e he
        · exact hv.registers_live h.tidy c hc e he
    rintro C e ⟨p, hp, he⟩
    exact (hev C p hp).2 e he
  nodup := Pools.nodupKeys_step h.nodup hs
  shape := h.shape

/-- Valid calls keep the invariant. -/
theorem Inv.next (h : Inv s) {op : Op Comp w} (hv : op.Valid s.em)
    (hs : EntityManager.next s op = some s') : Inv s' := by
  cases op with
  | create =>
    rw [next_create, Option.map_eq_some_iff] at hs
    obtain ⟨⟨em', ett', et⟩, hc, rfl⟩ := hs
    exact h.create hc
  | destroy ets =>
    rw [next_destroy, Option.map_eq_some_iff] at hs
    obtain ⟨em', hd, rfl⟩ := hs
    exact h.destroy hd
  | destroyWith Cs =>
    -- the loop destroys the owners, one by one
    rw [next_destroyWith, Option.map_eq_some_iff, h.tidy.destroyWith_eq] at hs
    obtain ⟨em', hd, rfl⟩ := hs
    exact h.destroy hd
  | reset =>
    rw [next_reset, Option.map_eq_some_iff, h.tidy.reset_eq] at hs
    obtain ⟨em', hd, rfl⟩ := hs
    exact h.destroy hd
  | reserve n =>
    obtain rfl := Option.some.inj hs
    refine ⟨⟨h.tidy.entities.reserve n, h.tidy.pools, fun C e ho => ?_⟩, h.nodup, h.shape⟩
    show e ∈ (s.em.entities.reserve n).range
    rw [h.tidy.entities.range_reserve]
    exact h.tidy.live C e ho
  | onPools op =>
    rw [next_onPools, Option.map_eq_some_iff] at hs
    obtain ⟨r, hp, rfl⟩ := hs
    exact h.onPools hv hp

/-! ### When a valid call is defined -/

/-- `Create` is defined on a well-formed recycled set, before the counter
reaches its end. -/
theorem Inv.create_defined (h : Inv s) (hd : s.em.deletedEt.WF)
    (hett : s.em.deletedEt.size = 0 → s.ett.toNat + 1 < 2 ^ w) :
    ∃ r, s.em.create s.ett = some r := by
  by_cases hsize : s.em.deletedEt.size = 0
  · obtain ⟨en, hen⟩ := h.tidy.entities.insert_defined (hett hsize)
    refine ⟨(⟨en, s.em.deletedEt, s.em.pools⟩, s.ett + 1, s.ett), create_eq_some.mpr ?_⟩
    rw [if_pos hsize]
    exact ⟨hen, rfl, rfl, rfl, rfl⟩
  · have hpos : 0 < s.em.deletedEt.size.toNat := Vec.toNat_pos hsize
    -- the first recycled id is inserted, then erased through its cell
    obtain ⟨v, hv⟩ := hd.exists_getElem?_range hpos
    obtain ⟨last, hlast⟩ := hd.exists_last hpos
    obtain ⟨en, hen⟩ := h.tidy.entities.insert_defined (hd.lt_max (List.mem_of_getElem? hv))
    obtain ⟨d, hd'⟩ : ∃ d, s.em.deletedEt.eraseAt 0 = some d := ⟨_, hd.eraseAt_eq hpos hlast⟩
    refine ⟨(⟨en, d, s.em.pools⟩, s.ett, v), create_eq_some.mpr ?_⟩
    rw [if_neg hsize]
    exact ⟨hen, rfl, (hd.getElem?_range.mp hv).2, hd', rfl⟩

theorem Inv.onPools_defined (h : Inv s) (hcov : s.em.pools.Covered) {op : Pools.Op Comp w}
    (hv : (Op.onPools op).Valid s.em) : ∃ r, s.em.pools.step op = some r := by
  -- an owned component has its pool
  have hown : ∀ {C et}, s.em.has [C] et = some true →
      ∃ p, s.em.pools.getPool C = some p ∧ et ∈ p.base.range := by
    intro C et hhas
    rw [h.tidy.has_iff] at hhas
    exact hhas C List.mem_cons_self
  -- a pool just allocated has neither entities nor components
  have halloc : ∀ C, (s.em.pools.tryAllocatePool C).Covered :=
    fun C => hcov.tryAllocatePool C Pool.wf_empty
  cases op with
  | assign C et c =>
    have hp := Pools.getPool_tryAllocatePool_self s.em.pools C
    obtain ⟨r, hr⟩ := Pool.assign_defined (halloc C C _ hp).base
      (h.tidy.lt_max (h.tidy.exists_iff.mp hv)) c
    exact Pools.build_defined hp hr
  | replace C et c =>
    obtain ⟨p, hp, he⟩ := hown hv
    obtain ⟨r, hr⟩ := (hcov C p hp).replace_defined he c
    exact Pools.build_defined hp hr
  | assignOrReplace C et c =>
    have hp := Pools.getPool_tryAllocatePool_self s.em.pools C
    obtain ⟨r, hr⟩ := (halloc C C _ hp).assignOrReplace_defined
      (h.tidy.lt_max (h.tidy.exists_iff.mp hv)) c
    exact Pools.build_defined hp hr
  | delete Cs et =>
    rw [← Option.isSome_iff_exists, Pools.isSome_step_iff, Option.isSome_iff_exists]
    refine Pools.Every.callAll_defined h.tidy.pools (fun c hc => ?_) (fun c hc p hp => ?_)
    · obtain ⟨C, hC, rfl⟩ := List.mem_map.mp hc
      obtain ⟨p, hp, -⟩ := hown (hv.2 C hC)
      exact Pools.mem_keys_iff.mpr ⟨p, hp⟩
    · obtain ⟨C, -, rfl⟩ := List.mem_map.mp hc
      obtain ⟨b, hb⟩ := hp.erase_defined et
      exact ⟨_, Pool.delete_eq_some.mpr ⟨b, hb, rfl⟩, hp.erase hb⟩
  | reset Cs =>
    rw [← Option.isSome_iff_exists, Pools.isSome_step_iff, Option.isSome_iff_exists]
    refine Pools.Every.callAll_defined h.tidy.pools (fun c hc => ?_) (fun c hc p hp => ?_)
    · obtain ⟨C, hC, rfl⟩ := List.mem_map.mp hc
      exact Pools.mem_keys_iff.mpr (Option.isSome_iff_exists.mp (hv C hC))
    · obtain ⟨C, -, rfl⟩ := List.mem_map.mp hc
      exact ⟨p.reset, rfl, hp.toShape.wf_clear⟩
  | reserve C n =>
    have hp := Pools.getPool_tryAllocatePool_self s.em.pools C
    refine Option.isSome_iff_exists.mp ?_
    rw [Pools.isSome_step_iff, Option.isSome_iff_exists]
    exact ⟨_, (Pools.callAll_singleton _ _).trans
      (Pools.modify_eq_some.mpr ⟨_, _, hp, rfl, rfl⟩)⟩

/-- A valid call is defined, unless the recycled set is damaged, the counter at
its end, or a component missing. -/
theorem Inv.next_defined (h : Inv s) (hd : s.em.deletedEt.WF) {op : Op Comp w}
    (hett : op = .create → s.em.deletedEt.size = 0 → s.ett.toNat + 1 < 2 ^ w)
    (hcov : ∀ o, op = .onPools o → s.em.pools.Covered)
    (hv : op.Valid s.em) : ∃ s', EntityManager.next s op = some s' := by
  have hdestroy : ∀ {es : List (BitVec w)}, (∀ e ∈ es, Live s.em e) →
      ∃ em', s.em.destroy es = some em' := fun hes =>
    h.tidy.destroy_defined hd fun e he => h.tidy.lt_max (hes e he)
  cases op with
  | create =>
    obtain ⟨r, hr⟩ := h.create_defined hd (hett rfl)
    exact ⟨_, by rw [next_create, hr]; rfl⟩
  | destroy ets =>
    obtain ⟨em', hs⟩ := hdestroy fun e he => h.tidy.exists_iff.mp (hv.2 e he)
    exact ⟨_, by rw [next_destroy, hs]; rfl⟩
  | destroyWith Cs =>
    obtain ⟨em', hs⟩ := hdestroy fun e he => (mem_owners.mp he).1
    exact ⟨_, by rw [next_destroyWith, h.tidy.destroyWith_eq, hs]; rfl⟩
  | reset =>
    obtain ⟨em', hs⟩ := hdestroy fun e he => he
    exact ⟨_, by rw [next_reset, h.tidy.reset_eq, hs]; rfl⟩
  | reserve n => exact ⟨_, rfl⟩
  | onPools op =>
    obtain ⟨r, hr⟩ := h.onPools_defined (hcov op rfl) hv
    exact ⟨_, by rw [next_onPools, hr]; rfl⟩

/-! ### What a valid call does to the ids -/

/-- A call creates one entity, destroys some live ones, or leaves the ids
alone. -/
theorem Inv.effect (h : Inv s) {op : Op Comp w} (hv : op.Valid s.em)
    {r : State Comp w × Ret w} (hs : step s op = some r) :
    (op = .create ∧ ∃ et, r.2 = .created et ∧
      s.em.create s.ett = some (r.1.em, r.1.ett, et)) ∨
    (op ≠ .create ∧ r.1.ett = s.ett ∧ (∃ e, r.2 = .ended e) ∧
      ((∃ es, (∀ et ∈ es, Live s.em et) ∧ s.em.destroy es = some r.1.em) ∨
        (r.1.em.entities.range = s.em.entities.range ∧
          r.1.em.deletedEt = s.em.deletedEt))) := by
  cases op with
  | create =>
    simp only [step, Option.bind_eq_bind, Option.bind_eq_some_iff, Option.pure_def,
      Option.some.injEq] at hs
    obtain ⟨⟨em', ett', et⟩, hc, rfl⟩ := hs
    exact .inl ⟨rfl, et, rfl, hc⟩
  | destroy ets =>
    simp only [step, Option.bind_eq_bind, Option.bind_eq_some_iff, Option.pure_def,
      Option.some.injEq] at hs
    obtain ⟨em', hd, rfl⟩ := hs
    exact .inr ⟨by simp, rfl, ⟨_, rfl⟩,
      .inl ⟨ets, fun et het => h.tidy.exists_iff.mp (hv.2 et het), hd⟩⟩
  | destroyWith Cs =>
    simp only [step, Option.bind_eq_bind, Option.bind_eq_some_iff, Option.pure_def,
      Option.some.injEq, h.tidy.destroyWith_eq] at hs
    obtain ⟨em', hd, rfl⟩ := hs
    exact .inr ⟨by simp, rfl, ⟨_, rfl⟩, .inl ⟨_, fun et het => (mem_owners.mp het).1, hd⟩⟩
  | reset =>
    simp only [step, Option.bind_eq_bind, Option.bind_eq_some_iff, Option.pure_def,
      Option.some.injEq, h.tidy.reset_eq] at hs
    obtain ⟨em', hd, rfl⟩ := hs
    exact .inr ⟨by simp, rfl, ⟨_, rfl⟩, .inl ⟨_, fun et het => het, hd⟩⟩
  | reserve n =>
    obtain rfl := Option.some.inj hs
    exact .inr ⟨by simp, rfl, ⟨_, rfl⟩, .inr ⟨h.tidy.entities.range_reserve n, rfl⟩⟩
  | onPools op =>
    simp only [step, Option.bind_eq_bind, Option.bind_eq_some_iff, Option.pure_def,
      Option.some.injEq] at hs
    obtain ⟨r', -, rfl⟩ := hs
    exact .inr ⟨by simp, rfl, ⟨r'.2, rfl⟩, .inr ⟨rfl, rfl⟩⟩

theorem next_of_step {op : Op Comp w} {r : State Comp w × Ret w} (hs : step s op = some r) :
    next s op = some r.1 := by
  rw [next, hs]
  rfl

theorem exists_step_of_next {op : Op Comp w} (hs : next s op = some s') :
    ∃ r, step s op = some r := by
  obtain ⟨r, hr, -⟩ := Option.map_eq_some_iff.mp hs
  exact ⟨r, hr⟩

end EntityManager

end Indie
