/-
Indie/Redundant.lean

Assigning a component the entity owns already.

The documentation of `EntityManager::Assign` says that this does nothing, and
every query right after it agrees.  But the pool has appended a component, and
from the next entity on that finds no free cell its vector is one ahead of the
set.  Two runs are compared here, without and with the extra call: `Twin` says
that two managers differ only in their pools, and each pool of the one is
`Near` its counterpart, up to a bound for its type.

A call on twins has one result and leads to twins, as long as it registers a
new owner only below the bound of the type (`Twin.call`); `Reset<C>` lifts the
bound.  So an extra `Assign<C>` stays unseen until a new owner of `C` finds as
many of them as `C` had components at that point
(`redundant_assign_unseen`).
-/
import Indie.PoolNear
import Indie.EntityThrow

namespace Indie

/-! ### Two pool vectors -/

namespace Pools

variable {κ : Type} [DecidableEq κ] {Comp : κ → Type} {w : ℕ}
variable {ps ps' qs : Pools Comp w} {C D : κ} {et e : BitVec w} {room : κ → Option ℕ}

/-- The same records, and pools that are near, up to the bound of their type. -/
structure Alike (room : κ → Option ℕ) (ps qs : Pools Comp w) : Prop where
  keys : List.keys qs = List.keys ps
  near : ∀ C, Option.Rel (Pool.Near (room C)) (getPool ps C) (getPool qs C)

/-- A vector is like itself, without any bound. -/
theorem Sound.alike (h : Sound ps) : Alike (fun _ => none) ps ps where
  keys := rfl
  near C := by
    rcases hp : Pools.getPool ps C with - | p
    · exact Option.Rel.none
    · exact Option.rel_some_some.mpr (.inl ⟨h C p hp, rfl, rfl⟩)

theorem Alike.getPool (h : Alike room ps qs) {p : Pool (Comp C) w}
    (hp : getPool ps C = some p) :
    ∃ q, Pools.getPool qs C = some q ∧ Pool.Near (room C) p q := by
  have hC := h.near C
  rw [hp] at hC
  rcases hq : Pools.getPool qs C with - | q
  · rw [hq] at hC
    cases hC
  · rw [hq, Option.rel_some_some] at hC
    exact ⟨q, rfl, hC⟩

theorem Alike.getPool_none (h : Alike room ps qs) (hp : Pools.getPool ps C = none) :
    Pools.getPool qs C = none := by
  rw [Pools.getPool, List.dlookup_eq_none, h.keys, ← List.dlookup_eq_none]
  exact hp

/-- A pool of one type is written, its bound set to `k`. -/
theorem Alike.setPool (h : Alike room ps qs) {p p' q' : Pool (Comp C) w} {k : Option ℕ}
    (hp : Pools.getPool ps C = some p) (hpq : Pool.Near k p' q') :
    Alike (Function.update room C k) (Pools.setPool ps C p') (Pools.setPool qs C q') where
  keys := by rw [keys_setPool, keys_setPool, h.keys]
  near D := by
    obtain ⟨q, hq, -⟩ := h.getPool hp
    by_cases hD : D = C
    · subst hD
      rw [getPool_setPool_self hp, getPool_setPool_self hq, Function.update_self]
      exact Option.rel_some_some.mpr hpq
    · rw [getPool_setPool_ne hD, getPool_setPool_ne hD, Function.update_of_ne hD]
      exact h.near D

theorem Alike.modify (h : Alike room ps qs) {k : Option ℕ}
    {f : Pool (Comp C) w → Option (Pool (Comp C) w)}
    (hf : ∀ p q p', Pool.Near (room C) p q → f p = some p' →
      ∃ q', f q = some q' ∧ Pool.Near k p' q')
    (hs : Pools.modify ps C f = some ps') :
    ∃ qs', Pools.modify qs C f = some qs' ∧ Alike (Function.update room C k) ps' qs' := by
  obtain ⟨p, p', hp, hfp, rfl⟩ := modify_eq_some.mp hs
  obtain ⟨q, hq, hpq⟩ := h.getPool hp
  obtain ⟨q', hfq, hpq'⟩ := hf p q p' hpq hfp
  exact ⟨_, modify_eq_some.mpr ⟨q, q', hq, hfq, rfl⟩, h.setPool hp hpq'⟩

theorem Alike.build (h : Alike room ps qs)
    {f : Pool (Comp C) w → Option (Pool (Comp C) w × Ending)}
    (hf : ∀ p q r, Pools.getPool ps C = some p → Pool.Near (room C) p q → f p = some r →
      ∃ q', f q = some (q', r.2) ∧ Pool.Near (room C) r.1 q')
    {r : Pools Comp w × Ending} (hs : Pools.build ps C f = some r) :
    ∃ qs', Pools.build qs C f = some (qs', r.2) ∧ Alike room r.1 qs' := by
  obtain ⟨p, r', hp, hfp, rfl⟩ := build_eq_some.mp hs
  obtain ⟨q, hq, hpq⟩ := h.getPool hp
  obtain ⟨q', hfq, hpq'⟩ := hf p q r' hp hpq hfp
  refine ⟨_, build_eq_some.mpr ⟨q, _, hq, hfq, rfl⟩, ?_⟩
  have := h.setPool hp hpq'
  rwa [Function.update_eq_self] at this

theorem Alike.tryAllocatePool (h : Alike room ps qs) (C : κ) :
    Alike room (Pools.tryAllocatePool ps C) (Pools.tryAllocatePool qs C) := by
  rcases hp : Pools.getPool ps C with - | p
  · have hq := h.getPool_none hp
    -- both vectors get one record more, for the same type
    have hkeys : ∀ {l : Pools Comp w}, Pools.getPool l C = none →
        List.keys (Pools.tryAllocatePool l C) = List.keys l ++ [C] := by
      intro l hl
      rw [Pools.tryAllocatePool, hl]
      exact List.keys_append
    refine ⟨by rw [hkeys hp, hkeys hq, h.keys], fun D => ?_⟩
    by_cases hD : D = C
    · subst hD
      rw [getPool_tryAllocatePool_self, getPool_tryAllocatePool_self, hp, hq]
      exact Option.rel_some_some.mpr (.inl Pool.sameCells_empty)
    · rw [getPool_tryAllocatePool_ne hD, getPool_tryAllocatePool_ne hD]
      exact h.near D
  · obtain ⟨q, hq, -⟩ := h.getPool hp
    rw [Pools.tryAllocatePool, Pools.tryAllocatePool, hp, hq]
    exact h

/-! ### The same answers -/

theorem Alike.closureHas (h : Alike room ps qs) (C : κ) (et : BitVec w) :
    Pools.closureHas qs C et = Pools.closureHas ps C et := by
  rcases hp : Pools.getPool ps C with - | p
  · rw [Pools.closureHas, Pools.closureHas, hp, h.getPool_none hp]
  · obtain ⟨q, hq, hpq⟩ := h.getPool hp
    rw [Pools.closureHas, Pools.closureHas, hp, hq]
    exact hpq.has et

theorem Alike.get (h : Alike room ps qs) (C : κ) (et : BitVec w) :
    Pools.get qs C et = Pools.get ps C et := by
  rcases hp : Pools.getPool ps C with - | p
  · rw [Pools.get, Pools.get, hp, h.getPool_none hp]
  · obtain ⟨q, hq, hpq⟩ := h.getPool hp
    rw [Pools.get, Pools.get, hp, hq]
    exact hpq.get et

theorem Alike.has (h : Alike room ps qs) (Cs : List κ) (et : BitVec w) :
    Pools.has qs Cs et = Pools.has ps Cs et := by
  induction Cs with
  | nil => rfl
  | cons C Cs ih =>
    rw [Pools.has, Pools.has, ih]
    rcases hp : Pools.getPool ps C with - | p
    · rw [h.getPool_none hp]
    · obtain ⟨q, hq, hpq⟩ := h.getPool hp
      rw [hq]
      simp only [hpq.has]

theorem Alike.getAll (h : Alike room ps qs) (Cs : List κ) (et : BitVec w) :
    Pools.getAll qs Cs et = Pools.getAll ps Cs et := by
  simp only [Pools.getAll, h.get]

theorem Alike.filterGet (h : Alike room ps qs) (Cs : List κ) (et : BitVec w) :
    Pools.filterGet qs Cs et = Pools.filterGet ps Cs et := by
  simp only [Pools.filterGet, h.get]

theorem Alike.filterHas (h : Alike room ps qs) (Cs : List κ) (et : BitVec w) :
    Pools.filterHas qs Cs et = Pools.filterHas ps Cs et := by
  induction Cs with
  | nil => rfl
  | cons C Cs ih => rw [Pools.filterHas, Pools.filterHas, ih, h.closureHas]

/-! ### Every call keeps it -/

theorem Alike.modify_delete (h : Alike room ps qs)
    (hs : Pools.modify ps C (·.delete et) = some ps') :
    ∃ qs', Pools.modify qs C (·.delete et) = some qs' ∧ Alike room ps' qs' := by
  obtain ⟨qs', hq, ha⟩ := h.modify (k := room C) (fun p q p' hpq hp => hpq.delete hp) hs
  rw [Function.update_eq_self] at ha
  exact ⟨qs', hq, ha⟩

/-- The loop of `Destroy(et)`. -/
theorem Alike.destroy (h : Alike room ps qs) (hs : Pools.destroy ps et = some ps') :
    ∃ qs', Pools.destroy qs et = some qs' ∧ Alike room ps' qs' := by
  rw [Pools.destroy, h.keys]
  refine Machine.foldlM_sim _ (fun a b C a' hab ha => ?_) h hs
  rw [hab.closureHas]
  rcases e : Pools.closureHas a C et with - | c
  · simp [e] at ha
  · cases c with
    | false =>
      obtain rfl : a = a' := by simpa [e] using ha
      exact ⟨b, rfl, hab⟩
    | true =>
      have ha' : Pools.closureDelete a C et = some a' := by simpa [e] using ha
      exact hab.modify_delete ha'

theorem Alike.delete (h : Alike room ps qs) {Cs : List κ}
    (hs : Pools.delete ps Cs et = some ps') :
    ∃ qs', Pools.delete qs Cs et = some qs' ∧ Alike room ps' qs' :=
  Machine.foldlM_sim _ (fun _ _ _ _ hab ha => hab.modify_delete ha) h hs

/-- `Reset<Cs...>()` lifts the bounds of the types of `Cs`. -/
theorem Alike.reset (h : Alike room ps qs) {Cs : List κ}
    (hs : Pools.reset ps Cs = some ps') :
    ∃ qs', Pools.reset qs Cs = some qs' ∧
      Alike (fun D => if D ∈ Cs then none else room D) ps' qs' := by
  induction Cs generalizing ps qs room with
  | nil =>
    obtain rfl := Option.some.inj hs
    exact ⟨qs, rfl, by simpa using h⟩
  | cons C Cs ih =>
    rw [Pools.reset, List.foldlM_cons] at hs
    obtain ⟨a, ha, hs⟩ := Option.bind_eq_some_iff.mp hs
    obtain ⟨b, hb, hab⟩ := h.modify (k := none)
      (fun p q p' hpq hp => ⟨q.reset, rfl, Option.some.inj hp ▸ hpq.reset⟩) ha
    obtain ⟨qs', hq, hfin⟩ := ih hab hs
    refine ⟨qs', ?_, ?_⟩
    · rw [Pools.reset, List.foldlM_cons]
      exact Option.bind_eq_some_iff.mpr ⟨b, hb, hq⟩
    · convert hfin using 2 with D
      by_cases hD : D = C
      · subst hD
        simp
      · simp [hD]

/-- The call registers a new owner only below the bound of the type. -/
def Op.RoomFor (room : κ → Option ℕ) (ps : Pools Comp w) : Op Comp w → Prop
  | .assign C et _ => Pool.RoomFor (room C) (poolOf ps C) et
  | .assignOrReplace C et _ => Pool.RoomFor (room C) (poolOf ps C) et
  | _ => True

/-- The bounds after a call: a `Reset` lifts those of its types. -/
def Op.lift (room : κ → Option ℕ) : Op Comp w → κ → Option ℕ
  | .reset Cs => fun D => if D ∈ Cs then none else room D
  | _ => room

theorem Alike.step (h : Alike room ps qs) {op : Op Comp w} (hroom : op.RoomFor room ps)
    {r : Pools Comp w × Ending} (hs : Pools.step ps op = some r) :
    ∃ qs', Pools.step qs op = some (qs', r.2) ∧ Alike (op.lift room) r.1 qs' := by
  -- the pool a call works on, allocated if it was missing
  have hpool : ∀ {C p}, Pools.getPool (Pools.tryAllocatePool ps C) C = some p →
      p = poolOf ps C := by
    intro C p hp
    rw [getPool_tryAllocatePool_self, Option.some.injEq] at hp
    exact hp.symm
  cases op with
  | assign C et c =>
    exact (h.tryAllocatePool C).build
      (fun p q r hp hpq hr => hpq.assign (hpool hp ▸ hroom) hr) hs
  | replace C et c => exact h.build (fun p q r _ hpq hr => hpq.replace hr) hs
  | assignOrReplace C et c =>
    exact (h.tryAllocatePool C).build
      (fun p q r hp hpq hr => hpq.assignOrReplace (hpool hp ▸ hroom) hr) hs
  | delete Cs et =>
    obtain ⟨ps', hd, rfl⟩ := Option.map_eq_some_iff.mp hs
    obtain ⟨qs', hq, ha⟩ := h.delete hd
    exact ⟨qs', by rw [Pools.step, hq]; rfl, ha⟩
  | reset Cs =>
    obtain ⟨ps', hd, rfl⟩ := Option.map_eq_some_iff.mp hs
    obtain ⟨qs', hq, ha⟩ := h.reset hd
    exact ⟨qs', by rw [Pools.step, hq]; rfl, ha⟩
  | reserve C count =>
    obtain ⟨ps', hd, rfl⟩ := Option.map_eq_some_iff.mp hs
    obtain ⟨qs', hq, ha⟩ := (h.tryAllocatePool C).modify (k := room C)
      (fun p q p' hpq hp => ⟨q.reserve count, rfl, Option.some.inj hp ▸ hpq.reserve count⟩) hd
    rw [Function.update_eq_self] at ha
    exact ⟨qs', by rw [Pools.step, Pools.reserve, hq]; rfl, ha⟩

end Pools

/-! ### Two managers -/

namespace EntityManager

variable {κ : Type} [DecidableEq κ] {Comp : κ → Type} {w : ℕ}
variable {em em' fm : EntityManager Comp w} {s s' t : State Comp w} {et : BitVec w}
  {room : κ → Option ℕ}

/-- Two managers that differ only in their pools, and these are alike. -/
structure Twin (room : κ → Option ℕ) (em fm : EntityManager Comp w) : Prop where
  entities : fm.entities = em.entities
  deletedEt : fm.deletedEt = em.deletedEt
  pools : Pools.Alike room em.pools fm.pools

theorem Twin.has (h : Twin room em fm) (Cs : List κ) (et : BitVec w) :
    fm.has Cs et = em.has Cs et := h.pools.has Cs et

/-- Every question has one answer. -/
theorem Twin.ask (h : Twin room em fm) (q : Query κ w) : fm.ask q = em.ask q := by
  have hsize : ∀ Cs, fm.sizeOf Cs = em.sizeOf Cs := by
    intro Cs
    cases Cs with
    | nil => rw [sizeOf, sizeOf, size, size, h.entities]
    | cons C Cs => simp only [sizeOf, h.entities, h.has]
  cases q with
  | get Cs et => rw [EntityManager.ask, EntityManager.ask, h.pools.getAll]
  | has Cs et => rw [EntityManager.ask, EntityManager.ask, h.has]
  | exists_ et =>
    rw [EntityManager.ask, EntityManager.ask, exists_, exists_, h.entities]
  | size => rw [EntityManager.ask, EntityManager.ask, size, size, h.entities]
  | sizeOf Cs => rw [EntityManager.ask, EntityManager.ask, hsize]
  | isEmpty => rw [EntityManager.ask, EntityManager.ask, isEmpty, isEmpty, h.entities]
  | isEmptyOf Cs =>
    rw [EntityManager.ask, EntityManager.ask, isEmptyOf, isEmptyOf, hsize]
  | forEach => rw [EntityManager.ask, EntityManager.ask, forEach, forEach, h.entities]
  | forEachOf Cs =>
    have hhas : fm.pools.filterHas Cs = em.pools.filterHas Cs := funext (h.pools.filterHas Cs)
    have hget : fm.pools.filterGet Cs = em.pools.filterGet Cs := funext (h.pools.filterGet Cs)
    rw [EntityManager.ask, EntityManager.ask, forEachOf, forEachOf, h.entities, hhas, hget]

theorem Twin.destroyEt (h : Twin room em fm) (hs : em.destroyEt et = some em') :
    ∃ fm', fm.destroyEt et = some fm' ∧ Twin room em' fm' := by
  obtain ⟨hp, he, hd⟩ := destroyEt_eq_some.mp hs
  obtain ⟨qs, hq, ha⟩ := h.pools.destroy hp
  exact ⟨⟨em'.entities, em'.deletedEt, qs⟩,
    destroyEt_eq_some.mpr ⟨hq, h.entities ▸ he, h.deletedEt ▸ hd⟩, rfl, rfl, ha⟩

/-- A loop over the entities whose rounds lead from twins to twins. -/
theorem Twin.rangeFor
    {body : BitVec w → EntityManager Comp w → Option (EntityManager Comp w)}
    (hbody : ∀ et a b a', Twin room a b → body et a = some a' →
      ∃ b', body et b = some b' ∧ Twin room a' b')
    (h : Twin room em fm) (hs : SparseSet.rangeFor EntityManager.entities body em = some em') :
    ∃ fm', SparseSet.rangeFor EntityManager.entities body fm = some fm' ∧ Twin room em' fm' := by
  rw [SparseSet.rangeFor, h.entities]
  refine Machine.foldlM_sim _ (fun a b i a' hab ha => ?_) h hs
  rw [hab.entities]
  rcases e : a.entities.dense[i]? with - | et
  · simp [e] at ha
  · rw [e] at ha
    exact hbody et a b a' hab ha

theorem Twin.destroyWith (h : Twin room em fm) {Cs : List κ}
    (hs : em.destroyWith Cs = some em') :
    ∃ fm', fm.destroyWith Cs = some fm' ∧ Twin room em' fm' := by
  refine h.rangeFor (fun et a b a' hab ha => ?_) hs
  rw [hab.has]
  rcases e : a.has Cs et with - | c
  · simp [e] at ha
  · cases c with
    | false =>
      obtain rfl : a = a' := by simpa [e] using ha
      exact ⟨b, rfl, hab⟩
    | true =>
      have ha' : a.destroyEt et = some a' := by simpa [e] using ha
      exact hab.destroyEt ha'

theorem Twin.destroy (h : Twin room em fm) {ets : List (BitVec w)}
    (hs : em.destroy ets = some em') :
    ∃ fm', fm.destroy ets = some fm' ∧ Twin room em' fm' :=
  Machine.foldlM_sim _ (fun _ _ _ _ hab ha => hab.destroyEt ha) h hs

theorem Twin.reset (h : Twin room em fm) (hs : em.reset = some em') :
    ∃ fm', fm.reset = some fm' ∧ Twin room em' fm' :=
  h.rangeFor (fun _ _ _ _ hab ha => hab.destroyEt ha) hs

/-- `Create` does not look at the pools. -/
theorem Twin.create (h : Twin room em fm) {ett ett' : BitVec w}
    (hs : em.create ett = some (em', ett', et)) :
    ∃ fm', fm.create ett = some (fm', ett', et) ∧ Twin room em' fm' := by
  obtain ⟨hen, hp, hd⟩ := create_eq_some.mp hs
  refine ⟨⟨em'.entities, em'.deletedEt, fm.pools⟩, create_eq_some.mpr ⟨?_, rfl, ?_⟩, rfl, rfl, ?_⟩
  · rw [h.entities]
    exact hen
  · rw [h.deletedEt]
    exact hd
  · rw [hp]
    exact h.pools

/-- The state of two programs that run side by side. -/
structure TwinState (room : κ → Option ℕ) (s t : State Comp w) : Prop where
  ett : t.ett = s.ett
  em : Twin room s.em t.em

/-- The call registers a new owner only below the bound of the type. -/
def Op.RoomFor (room : κ → Option ℕ) (s : State Comp w) : Op Comp w → Prop
  | .onPools op => op.RoomFor room s.em.pools
  | _ => True

/-- The bounds after a call. -/
def Op.lift (room : κ → Option ℕ) : Op Comp w → κ → Option ℕ
  | .onPools op => op.lift room
  | _ => room

/-- One call on twins: one result, and twins again. -/
theorem TwinState.step (h : TwinState room s t) {op : Op Comp w} (hroom : op.RoomFor room s)
    {r : State Comp w × Ret w} (hs : EntityManager.step s op = some r) :
    ∃ t', EntityManager.step t op = some (t', r.2) ∧ TwinState (op.lift room) r.1 t' := by
  cases op with
  | create =>
    obtain ⟨⟨em', ett', et⟩, hc, hr⟩ := Option.bind_eq_some_iff.mp hs
    obtain rfl := Option.some.inj hr
    obtain ⟨fm', hc', hfm⟩ := h.em.create hc
    refine ⟨⟨ett', fm'⟩, ?_, rfl, hfm⟩
    rw [EntityManager.step, h.ett, hc']
    rfl
  | destroy ets =>
    obtain ⟨em', hd, hr⟩ := Option.bind_eq_some_iff.mp hs
    obtain rfl := Option.some.inj hr
    obtain ⟨fm', hd', hfm⟩ := h.em.destroy hd
    exact ⟨⟨t.ett, fm'⟩, by rw [EntityManager.step, hd']; rfl, h.ett, hfm⟩
  | destroyWith Cs =>
    obtain ⟨em', hd, hr⟩ := Option.bind_eq_some_iff.mp hs
    obtain rfl := Option.some.inj hr
    obtain ⟨fm', hd', hfm⟩ := h.em.destroyWith hd
    exact ⟨⟨t.ett, fm'⟩, by rw [EntityManager.step, hd']; rfl, h.ett, hfm⟩
  | reset =>
    obtain ⟨em', hd, hr⟩ := Option.bind_eq_some_iff.mp hs
    obtain rfl := Option.some.inj hr
    obtain ⟨fm', hd', hfm⟩ := h.em.reset hd
    exact ⟨⟨t.ett, fm'⟩, by rw [EntityManager.step, hd']; rfl, h.ett, hfm⟩
  | reserve count =>
    obtain rfl := Option.some.inj hs
    refine ⟨_, rfl, h.ett, ?_, h.em.deletedEt, h.em.pools⟩
    show t.em.entities.reserve count = s.em.entities.reserve count
    rw [h.em.entities]
  | onPools op =>
    obtain ⟨⟨ps, e⟩, hp, hr⟩ := Option.bind_eq_some_iff.mp hs
    obtain rfl := Option.some.inj hr
    obtain ⟨qs, hq, ha⟩ := h.em.pools.step hroom hp
    exact ⟨⟨t.ett, { t.em with pools := qs }⟩, by rw [EntityManager.step, hq]; rfl,
      h.ett, h.em.entities, h.em.deletedEt, ha⟩

/-! ### Runs -/

/-- Along the calls, every new owner is registered below the bound of its type;
a `Reset` lifts the bounds of its types for the calls after it. -/
def RoomLeft (room : κ → Option ℕ) (s : State Comp w) : List (Call Comp w) → Prop
  | [] => True
  | .query _ :: calls => RoomLeft room s calls
  | .op op :: calls =>
    op.RoomFor room s ∧ ∀ s', next s op = some s' → RoomLeft (op.lift room) s' calls

/-- What a run of calls returns, from state `s`: `none` if it has undefined
behaviour. -/
def answers (s : State Comp w) (calls : List (Call Comp w)) : Option (List (Answer Comp w)) :=
  (Machine.run (Machine.logged call) (s, []) calls).map (·.2)

/-- Twins that make the same calls return the same answers. -/
theorem TwinState.run (h : TwinState room s t) {calls : List (Call Comp w)}
    (hroom : RoomLeft room s calls) {log log' : List (Answer Comp w)}
    (hs : Machine.run (Machine.logged call) (s, log) calls = some (s', log')) :
    ∃ t', Machine.run (Machine.logged call) (t, log) calls = some (t', log') := by
  induction calls generalizing room s t log with
  | nil =>
    rw [Machine.run_nil, Option.some.injEq] at hs
    exact ⟨t, congrArg (fun l => some (t, l)) (Prod.mk.inj hs).2⟩
  | cons a calls ih =>
    rw [Machine.run_cons, Option.bind_eq_some_iff] at hs
    obtain ⟨m, hm, hrest⟩ := hs
    obtain ⟨r, hr, rfl⟩ := Machine.logged_eq_some.mp hm
    -- the first call leads to twins, with the bounds it leaves
    suffices hstep : ∃ t₁ room', call t a = some (t₁, r.2) ∧ TwinState room' r.1 t₁ ∧
        RoomLeft room' r.1 calls by
      obtain ⟨t₁, room', ht₁, h₁, hroom₁⟩ := hstep
      obtain ⟨t', ht'⟩ := ih h₁ hroom₁ hrest
      refine ⟨t', ?_⟩
      rw [Machine.run_cons, Machine.logged_eq_some.mpr ⟨_, ht₁, rfl⟩]
      exact ht'
    cases a with
    | op o =>
      obtain ⟨r', hr', rfl⟩ := Option.map_eq_some_iff.mp hr
      obtain ⟨t₁, ht₁, h₁⟩ := h.step hroom.1 hr'
      exact ⟨t₁, o.lift room, by rw [call, ht₁]; rfl, h₁, hroom.2 _ (next_of_step hr')⟩
    | query q =>
      obtain ⟨x, hx, rfl⟩ := Option.map_eq_some_iff.mp hr
      refine ⟨t, room, ?_, h, hroom⟩
      rw [call, h.em.ask, hx]
      rfl

/-! ### The extra call -/

/-- The bounds an extra `Assign<C>` sets: there are as many free places as the
pool has components, unless its constructor throws and none is appended. -/
def roomAfter (s : State Comp w) (C : κ) (c : Ctor (Comp C)) : κ → Option ℕ :=
  Function.update (fun _ => none) C
    (c.map fun _ => (s.em.pools.poolOf C).components.data.length)

theorem Inv.twin_assign (h : Inv s) {C : κ} {e : BitVec w} (hown : s.em.has [C] e = some true)
    (c : Ctor (Comp C)) (hcov : c.isSome → (s.em.pools.poolOf C).size.toNat ≤
      (s.em.pools.poolOf C).components.data.length) :
    ∃ s₁ r, EntityManager.step s (.onPools (.assign C e c)) = some (s₁, r) ∧
      TwinState (roomAfter s C c) s s₁ := by
  obtain ⟨p, hp, he⟩ := h.tidy.has_iff.mp hown C List.mem_cons_self
  have hof : s.em.pools.poolOf C = p := by rw [Pools.poolOf, hp, Option.getD_some]
  rw [hof] at hcov
  obtain ⟨r, hr, hnear⟩ := Pool.near_assign (h.tidy.pools C p hp) he hcov
  -- the pool is there, so none is allocated
  have hassign : s.em.pools.assign C e c =
      some (Pools.setPool s.em.pools C r.1, r.2) := by
    rw [Pools.assign, Pools.tryAllocatePool, hp]
    exact Pools.build_eq_some.mpr ⟨p, r, hp, hr, rfl⟩
  refine ⟨⟨s.ett, { s.em with pools := Pools.setPool s.em.pools C r.1 }⟩, .ended r.2, ?_,
    rfl, rfl, rfl, ?_⟩
  · rw [EntityManager.step, Pools.step, hassign]
    rfl
  · have halike := h.tidy.pools.alike.setPool hp hnear
    rw [Pools.setPool_getPool hp] at halike
    rw [roomAfter, hof]
    exact halike

/-- **An extra `Assign` of an owned component is not seen while the pool has
places left.** In every reachable state in which `e` owns `C`, and in which the pool
of `C` has a component for each owner, one more `Assign<C>(e, args)` changes the
answer of no later call, as long as every new owner of `C` is registered while
fewer than the components counted now own it, or after a `Reset<C>`.  If its
constructor throws, it changes none in any case. -/
theorem redundant_assign_unseen (hs : Reachable s) {C : κ} {e : BitVec w}
    (hown : s.em.has [C] e = some true) (c : Ctor (Comp C))
    (hcov : c.isSome → (s.em.pools.poolOf C).size.toNat ≤
      (s.em.pools.poolOf C).components.data.length) {calls : List (Call Comp w)}
    (hroom : RoomLeft (roomAfter s C c) s calls) {log : List (Answer Comp w)}
    (hlog : answers s calls = some log) :
    ∃ s₁ r, step s (.onPools (.assign C e c)) = some (s₁, r) ∧
      answers s₁ calls = some log := by
  obtain ⟨s₁, r, hstep, htwin⟩ := hs.inv.twin_assign hown c hcov
  obtain ⟨⟨s', log'⟩, hrun, rfl⟩ := Option.map_eq_some_iff.mp hlog
  obtain ⟨t', ht'⟩ := htwin.run hroom hrun
  exact ⟨s₁, r, hstep, by rw [answers, ht']; rfl⟩

/-- Entities 0 and 1 had a component each, 1 has lost its own: its place is
left. -/
theorem redundant_assign_unseen_pair :
    let pool : Pool ℕ 64 := ⟨⟨[0, 1], [0, 1], 1, 2⟩, ⟨[450, 1743], 2, Nat.le_refl 2⟩⟩
    let s : State (fun _ : Unit => ℕ) 64 :=
      ⟨2, ⟨[0, 1], [0, 1], 2, 2⟩, .empty, [⟨(), pool⟩]⟩
    let calls : List (Call (fun _ : Unit => ℕ) 64) :=
      [.op (.onPools (.assign () 1 (some 1743))), .query (.get [()] 1)]
    ∃ s₁ r, step s (.onPools (.assign () 0 (some 7))) = some (s₁, r) ∧
      answers s₁ calls = some [.ret (.ended .returned), .components [⟨(), some 1743⟩]] := by
  intro pool s calls
  have hreach : Reachable s := ⟨0, [.create, .create, .onPools (.assign () 0 (some 450)),
    .onPools (.assign () 1 (some 1743)), .onPools (.delete [()] 1)], by decide, rfl⟩
  have hroom : RoomLeft (roomAfter s () (some 7)) s calls := by
    refine ⟨fun m hm _ => ?_, fun s' _ => trivial⟩
    obtain rfl : 2 = m := Option.some.inj hm
    decide
  exact redundant_assign_unseen hreach (by decide) (some 7) (by decide) hroom rfl

/-- Entity 0 owns a component, and is given another: entity 1 gets it. -/
theorem redundant_assign_seen :
    let s : State (fun _ : Unit => ℕ) 64 :=
      ⟨2, ⟨[0, 1], [0, 1], 2, 2⟩, .empty,
        [⟨(), ⟨⟨[0], [0], 1, 1⟩, ⟨[450], 1, Nat.le_refl 1⟩⟩⟩]⟩
    let calls : List (Call (fun _ : Unit => ℕ) 64) :=
      [.op (.onPools (.assign () 1 (some 1743))), .query (.get [()] 1)]
    Reachable s ∧ s.em.has [()] 0 = some true ∧
      answers s calls = some [.ret (.ended .returned), .components [⟨(), some 1743⟩]] ∧
      ∃ s₁, step s (.onPools (.assign () 0 (some 7))) = some (s₁, .ended .returned) ∧
        answers s₁ calls = some [.ret (.ended .returned), .components [⟨(), some 7⟩]] ∧
        answers s₁ calls ≠ answers s calls := by
  intro s calls
  have hreach : Reachable s :=
    ⟨0, [.create, .create, .onPools (.assign () 0 (some 450))], by decide, rfl⟩
  refine ⟨hreach, by decide, rfl, _, rfl, rfl, fun hsame => ?_⟩
  have hanswer : some [Answer.ret (.ended .returned), .components [⟨(), some 7⟩]] =
      some [Answer.ret (.ended .returned),
        .components [(⟨(), some 1743⟩ : Σ _ : Unit, Option ℕ)]] := hsame
  simp at hanswer

end EntityManager

end Indie
