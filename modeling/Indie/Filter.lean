/-
Indie/Filter.lean

The class `Filter` of `ecs/EntityManager.hpp`.

`Get<Cs...>()` stores the addresses of the pools of `Cs`.  A pool belongs to the record
it was allocated for (`std::unique_ptr`); records are added at the end of `_pools` and
never removed, and where the vector moves its records the pools stay where they are.
So an address is the place of a record (`getPoolPtr`), and it leads to the pool of the
same type as long as the manager lives.  The null pointer of a type that was not
registered leads nowhere, also when the type is registered later.

A filter therefore answers, in every later state, what the world holds of the types
that were registered when it was made (`filter_outlives`).  `ForEach<Cs...>` makes its
filter before the loop, and the function it calls may register types; but it is not
called at all before every pointer of the filter has been followed once
(`forEach_filter`).
-/
import Indie.Spawn
import Indie.WorldRefine

namespace Indie

variable {κ : Type} [DecidableEq κ] {Comp : κ → Type} {w : ℕ}

/-! ### Addresses of pools -/

namespace Pools

variable {ps qs : Pools Comp w} {C : κ}

/-- `GetPool<C>()`, the address: the place of the first record with the id of `C`. -/
def getPoolPtr (ps : Pools Comp w) (C : κ) : Option ℕ := (List.keys ps).findIdx? (· = C)

/-- `*pool`, for a pointer to a pool of `C`. -/
def deref (ps : Pools Comp w) (C : κ) (pool : Option ℕ) : Option (Pool (Comp C) w) := do
  let r ← ps[← pool]?
  if h : r.1 = C then return h ▸ r.2 else none

/-- The address leads to the pool. -/
theorem deref_getPoolPtr (ps : Pools Comp w) (C : κ) :
    deref ps C (getPoolPtr ps C) = getPool ps C := by
  induction ps with
  | nil => rfl
  | cons r ps ih =>
    obtain ⟨D, p⟩ := r
    rw [getPoolPtr, List.keys_cons, List.findIdx?_cons]
    by_cases hD : D = C
    · subst hD
      rw [if_pos (decide_eq_true rfl)]
      show (if h : D = D then some (h ▸ p) else none) = List.dlookup D (⟨D, p⟩ :: ps)
      rw [dif_pos rfl, List.dlookup_cons_eq]
    · rw [if_neg (by simpa using hD)]
      show _ = List.dlookup C (⟨D, p⟩ :: ps)
      rw [List.dlookup_cons_ne _ _ (fun e => hD e.symm)]
      refine .trans ?_ ih
      rw [getPoolPtr]
      rcases (List.keys ps).findIdx? (· = C) with - | i <;> rfl

theorem getPoolPtr_eq_none_iff : getPoolPtr ps C = none ↔ getPool ps C = none := by
  rw [getPoolPtr, List.findIdx?_eq_none_iff, getPool, List.dlookup_eq_none]
  simp only [decide_eq_false_iff_not]
  exact ⟨fun h hC => h C hC rfl, fun h D hD e => h (e ▸ hD)⟩

/-- An address taken earlier leads to the pool of the type, if there was one. -/
theorem deref_of_keys (h : List.keys ps <+: List.keys qs) (C : κ) :
    deref qs C (getPoolPtr ps C) = if (getPool ps C).isSome then getPool qs C else none := by
  rcases hptr : getPoolPtr ps C with - | i
  · rw [getPoolPtr_eq_none_iff.mp hptr]
    rfl
  · have hsome : (getPool ps C).isSome := by
      rw [Option.isSome_iff_ne_none, ne_eq, ← getPoolPtr_eq_none_iff, hptr]
      exact Option.some_ne_none i
    have hsame : getPoolPtr qs C = some i := by
      obtain ⟨more, hmore⟩ := h
      rw [getPoolPtr, ← hmore, List.findIdx?_append]
      exact congrArg (Option.or · _) hptr
    rw [if_pos hsome, ← hsame]
    exact deref_getPoolPtr qs C

/-! ### Records are only added -/

theorem keys_tryAllocatePool (ps : Pools Comp w) (C : κ) :
    List.keys ps <+: List.keys (tryAllocatePool ps C) := by
  rw [tryAllocatePool]
  split
  · exact List.prefix_refl _
  · show ps.map Sigma.fst <+: (ps ++ [Sigma.mk C Pool.empty]).map Sigma.fst
    rw [List.map_append]
    exact List.prefix_append _ _

theorem keys_step {op : Op Comp w} {r : Pools Comp w × Ending} (hs : step ps op = some r) :
    List.keys ps <+: List.keys r.1 :=
  step_invariant (I := fun qs => List.keys ps <+: List.keys qs)
    (fun qs C h => h.trans (keys_tryAllocatePool qs C))
    (fun _ _ _ _ h hq => keys_modify hq ▸ h) (List.prefix_refl _) hs

end Pools

/-! ### The filter -/

/-- `Filter<EntityType, PoolType<Cs>...>`: the pointers of the tuple `_pools`, each with
the type it is found by. -/
structure Filter (κ : Type) where
  pools : List (κ × Option ℕ)

namespace Filter

/-- `std::get<PoolType<C> *>(_pools)`. -/
def pool (f : Filter κ) (C : κ) : Option ℕ := (f.pools.lookup C).join

/-- `filter.Has<Cs...>(et)`: the pointers are not checked. -/
def has (f : Filter κ) (ps : Pools Comp w) : List κ → BitVec w → Option Bool
  | [], _ => some true
  | C :: Cs, et => do
    let p ← ps.deref C (f.pool C)
    if ← p.has et then f.has ps Cs et else return false

/-- `filter.Get<C>(et)` for each `C` of `Cs`. -/
def get (f : Filter κ) (ps : Pools Comp w) (Cs : List κ) (et : BitVec w) :
    Option (List (Σ C, Comp C)) :=
  Cs.mapM fun C => do
    let p ← ps.deref C (f.pool C)
    return ⟨C, ← (← p.get et)⟩

/-- The pointer of a type is the one the type was given. -/
theorem pool_map {Cs : List κ} {C : κ} (h : C ∈ Cs) (ptr : κ → Option ℕ) :
    pool ⟨Cs.map fun C => (C, ptr C)⟩ C = ptr C := by
  induction Cs with
  | nil => cases h
  | cons D Cs ih =>
    rw [pool, List.map_cons, List.lookup_cons]
    by_cases hD : C = D
    · subst hD
      rw [beq_self_eq_true]
      rfl
    · rw [beq_false_of_ne hD]
      exact ih ((List.mem_cons.mp h).resolve_left hD)

variable {f : Filter κ} {ps : Pools Comp w} {Cs : List κ}

/-- Pointers to the pools that are there answer as the pools do. -/
theorem has_eq_filterHas (h : ∀ C ∈ Cs, ps.deref C (f.pool C) = ps.getPool C) (et : BitVec w) :
    f.has ps Cs et = ps.filterHas Cs et := by
  induction Cs with
  | nil => rfl
  | cons C Cs ih =>
    obtain ⟨hC, hCs⟩ := List.forall_mem_cons.mp h
    rw [has, Pools.filterHas, Pools.closureHas, hC, ih hCs]
    rcases ps.getPool C with - | p <;> rfl

theorem get_eq_filterGet (h : ∀ C ∈ Cs, ps.deref C (f.pool C) = ps.getPool C) (et : BitVec w) :
    f.get ps Cs et = ps.filterGet Cs et := by
  refine Collect.mapM_congr fun C hC => ?_
  rw [h C hC, Pools.get]
  rcases ps.getPool C with - | p <;> rfl

end Filter

namespace EntityManager

variable {s s' : State Comp w}

theorem Inv.keys_next (h : Inv s) {op : Op Comp w} (hs : EntityManager.next s op = some s') :
    List.keys s.em.pools <+: List.keys s'.em.pools := by
  cases op with
  | create =>
    rw [next_create, Option.map_eq_some_iff] at hs
    obtain ⟨⟨em', ett', et⟩, hc, rfl⟩ := hs
    rw [show em'.pools = s.em.pools from (create_eq_some.mp hc).2.1]
  | destroy ets =>
    rw [next_destroy, Option.map_eq_some_iff] at hs
    obtain ⟨em', hd, rfl⟩ := hs
    exact (h.tidy.keys_destroy hd).symm ▸ List.prefix_refl _
  | destroyWith Cs =>
    rw [next_destroyWith, Option.map_eq_some_iff, h.tidy.destroyWith_eq] at hs
    obtain ⟨em', hd, rfl⟩ := hs
    exact (h.tidy.keys_destroy hd).symm ▸ List.prefix_refl _
  | reset =>
    rw [next_reset, Option.map_eq_some_iff, h.tidy.reset_eq] at hs
    obtain ⟨em', hd, rfl⟩ := hs
    exact (h.tidy.keys_destroy hd).symm ▸ List.prefix_refl _
  | reserve n =>
    obtain rfl := Option.some.inj hs
    exact List.prefix_refl _
  | onPools op =>
    rw [next_onPools, Option.map_eq_some_iff] at hs
    obtain ⟨r, hp, rfl⟩ := hs
    exact Pools.keys_step hp

/-- Some valid calls lead from `s` to `s'`. -/
def Leads (s s' : State Comp w) : Prop :=
  ∃ ops, Machine.Along next (fun s op => op.Valid s.em) s ops ∧ Machine.run next s ops = some s'

theorem Inv.leads (h : Inv s) (hl : Leads s s') :
    Inv s' ∧ List.keys s.em.pools <+: List.keys s'.em.pools := by
  obtain ⟨ops, hops, hr⟩ := hl
  exact Machine.run_invariant
    (I := fun t => Inv t ∧ List.keys s.em.pools <+: List.keys t.em.pools)
    (fun t op t' ht hv hs => ⟨ht.1.next hv hs, ht.2.trans (ht.1.keys_next hs)⟩)
    ⟨h, List.prefix_refl _⟩ hops hr

/-- `Get<Cs...>()`. -/
def getFilter (em : EntityManager Comp w) (Cs : List κ) : Filter κ :=
  ⟨Cs.map fun C => (C, em.pools.getPoolPtr C)⟩

variable {em fm : EntityManager Comp w} {Cs Ds : List κ}

/-- A pointer of a filter leads to the pool of the type, if the type was registered. -/
theorem deref_getFilter (h : List.keys em.pools <+: List.keys fm.pools) {C : κ} (hC : C ∈ Cs) :
    fm.pools.deref C ((em.getFilter Cs).pool C) =
      if (em.pools.getPool C).isSome then fm.pools.getPool C else none := by
  rw [getFilter, Filter.pool_map hC fun C => em.pools.getPoolPtr C]
  exact Pools.deref_of_keys h C

end EntityManager

/-! ### Filters kept for later -/

/-- Of the world `W`, the types that `W₀` has registered. -/
def World.within (W W₀ : World Comp w) : World Comp w :=
  { W with pools := fun C => if (W₀.pools C).isSome then W.pools C else none }

namespace EntityManager

variable {s s' : State Comp w} {em fm : EntityManager Comp w} {Cs Ds : List κ} {et : BitVec w}

theorem pools_within (C : κ) :
    (fm.world.within em.world).pools C =
      (if (em.pools.getPool C).isSome then fm.pools.getPool C else none).map Pool.slots := by
  show (if ((em.pools.getPool C).map _).isSome then (fm.pools.getPool C).map _ else none) = _
  rw [Option.isSome_map]
  split <;> rfl

theorem Tidy.has_getFilter (h : Tidy fm) (hkeys : List.keys em.pools <+: List.keys fm.pools)
    (hsub : ∀ C ∈ Ds, C ∈ Cs) (et : BitVec w) :
    (em.getFilter Cs).has fm.pools Ds et = (fm.world.within em.world).filterHas Ds et := by
  induction Ds with
  | nil => rfl
  | cons C Ds ih =>
    obtain ⟨hC, hDs⟩ := List.forall_mem_cons.mp hsub
    rw [Filter.has, World.filterHas, ih hDs, deref_getFilter hkeys hC, pools_within]
    split
    · rcases hp : fm.pools.getPool C with - | p
      · rfl
      · have hb : p.has et = some (p.slots.owners.contains et) := by
          rw [List.contains_eq_mem]
          exact (h.pools C p hp).has_eq et
        show (p.has et).bind _ = if p.slots.owners.contains et then _ else _
        rw [hb, Option.bind_some]
    · rfl

theorem Tidy.get_getFilter (h : Tidy fm) (hkeys : List.keys em.pools <+: List.keys fm.pools)
    (hsub : ∀ C ∈ Ds, C ∈ Cs) (et : BitVec w) :
    (em.getFilter Cs).get fm.pools Ds et = (fm.world.within em.world).filterGet Ds et := by
  refine Collect.mapM_congr fun C hC => ?_
  rw [deref_getFilter hkeys (hsub C hC), World.get, pools_within]
  split
  · rcases hp : fm.pools.getPool C with - | p
    · rfl
    · have hget : p.get et = p.slots.get et := Pool.get_slots (h.pools C p hp) et
      show (p.get et).bind _ = (p.slots.get et).bind _
      rw [hget]
  · rfl

/-- **A filter is good for ever for the types it found, and for ever bad for the
others.**  Made in any reachable state and asked after any valid calls: it answers what
the manager then holds of the types that were registered when it was made; if these are
all it is asked about, it answers what a new filter would.  Asked about a type that was
not registered then it follows a null pointer, registered since or not. -/
theorem filter_outlives (hs : Reachable s) (hl : Leads s s') (Cs Ds : List κ)
    (hsub : ∀ C ∈ Ds, C ∈ Cs) (et : BitVec w) :
    let f := s.em.getFilter Cs
    let W := s'.em.world.within s.em.world
    (f.has s'.em.pools Ds et = W.filterHas Ds et ∧ f.get s'.em.pools Ds et = W.filterGet Ds et) ∧
      ((∀ C ∈ Ds, (s.em.pools.getPool C).isSome) →
        f.has s'.em.pools Ds et = (s'.em.getFilter Ds).has s'.em.pools Ds et ∧
        f.get s'.em.pools Ds et = (s'.em.getFilter Ds).get s'.em.pools Ds et) ∧
      ∀ C ∈ Ds, s.em.pools.getPool C = none →
        f.has s'.em.pools [C] et = none ∧ f.get s'.em.pools Ds et = none := by
  intro f W
  obtain ⟨hi, hkeys⟩ := hs.inv.leads hl
  refine ⟨⟨hi.tidy.has_getFilter hkeys hsub et, hi.tidy.get_getFilter hkeys hsub et⟩,
    fun hreg => ?_, fun C hC hnone => ?_⟩
  · have hold : ∀ C ∈ Ds, s'.em.pools.deref C (f.pool C) = s'.em.pools.getPool C := by
      intro C hC
      rw [deref_getFilter hkeys (hsub C hC), if_pos (hreg C hC)]
    have hnew : ∀ C ∈ Ds,
        s'.em.pools.deref C ((s'.em.getFilter Ds).pool C) = s'.em.pools.getPool C := by
      intro C hC
      rw [deref_getFilter (List.prefix_refl _) hC]
      rcases s'.em.pools.getPool C with - | p <;> rfl
    exact ⟨(Filter.has_eq_filterHas hold et).trans (Filter.has_eq_filterHas hnew et).symm,
      (Filter.get_eq_filterGet hold et).trans (Filter.get_eq_filterGet hnew et).symm⟩
  · have hnull : s'.em.pools.deref C (f.pool C) = none := by
      rw [deref_getFilter hkeys (hsub C hC), hnone]
      rfl
    constructor
    · rw [Filter.has, hnull]
      rfl
    · refine Collect.mapM_eq_none hC ?_
      rw [hnull]
      rfl

/-- A position is registered, the filter made, the manager emptied and filled again;
velocities are registered too late. -/
theorem filter_outlives_late :
    let ops : List (Op (fun _ : Bool => ℕ) 8) := [.create, .onPools (.assign true 0 (some 5))]
    let more : List (Op (fun _ : Bool => ℕ) 8) := [.onPools (.assign false 0 (some 1)), .reset,
      .create, .onPools (.reset [true]), .onPools (.assign true 0 (some 7))]
    ∃ s s', Machine.run next (State.init 0) ops = some s ∧ Machine.run next s more = some s' ∧
      let f := s.em.getFilter [true, false]
      f.has s'.em.pools [true] 0 = (s'.em.getFilter [true]).has s'.em.pools [true] 0 ∧
        f.has s'.em.pools [false] 0 = none := by
  intro ops more
  obtain ⟨s, hs⟩ : ∃ s, Machine.run next (State.init 0) ops = some s :=
    Option.isSome_iff_exists.mp (by decide)
  have hvalid : Machine.Along next (fun s op => op.Valid s.em) (State.init 0) (ops ++ more) := by
    decide
  obtain ⟨hops, hmore⟩ := Machine.along_append.mp hvalid
  obtain ⟨s', hs'⟩ : ∃ s', Machine.run next s more = some s' := by
    have hrun : (Machine.run next (State.init 0) (ops ++ more)).isSome := by decide
    rw [Machine.run_append, hs] at hrun
    exact Option.isSome_iff_exists.mp hrun
  have hreg : (Machine.run next (State.init 0) ops).map (fun s =>
      ((s.em.pools.getPool true).isSome, (s.em.pools.getPool false).isSome)) =
      some (true, false) := by decide
  rw [hs, Option.map_some, Option.some.injEq, Prod.mk.injEq] at hreg
  have hreach : Reachable s := ⟨0, ops, hops, hs⟩
  have hleads : Leads s s' := ⟨more, hmore s hs, hs'⟩
  obtain ⟨-, hsame, -⟩ := filter_outlives hreach hleads [true, false] [true] (by simp) 0
  obtain ⟨-, -, hnull⟩ := filter_outlives hreach hleads [true, false] [false] (by simp) 0
  refine ⟨s, s', hs, hs', (hsame ?_).1, (hnull false List.mem_cons_self ?_).1⟩
  · intro C hC
    rw [List.mem_singleton.mp hC, hreg.1]
  · rw [← Option.not_isSome_iff_eq_none, hreg.2]
    exact Bool.false_ne_true

/-! ### The loop as it is written -/

variable {σ : Type}

/-- One round, with the filter made before the loop. -/
def roundFilter (f : Filter κ) (Cs : List κ) (func : Caller Comp w σ) : BitVec w →
    (State Comp w × σ) × List (BitVec w × List (Σ C, Comp C)) →
    Option ((State Comp w × σ) × List (BitVec w × List (Σ C, Comp C))) :=
  forEachRound (fun x => f.has x.1.1.em.pools Cs) (fun x => f.get x.1.1.em.pools Cs)
    (record func)

/-- `ForEach<Cs...>(func)`: `auto filter = Get<Cs...>()`, and the loop. -/
def forEachFilter (s : State Comp w) (Cs : List κ) (func : Caller Comp w σ) (v : σ) :
    Option ((State Comp w × σ) × List (BitVec w × List (Σ C, Comp C))) :=
  SparseSet.rangeFor (fun x => x.1.1.em.entities)
    (fun et x => roundFilter (s.em.getFilter Cs) Cs func et x) ((s, v), [])

/-- The filter was made here, or it has found all its types and some valid calls were
made since. -/
def Served (s : State Comp w) (Cs : List κ) (t : State Comp w) : Prop :=
  t = s ∨ Inv t ∧ List.keys s.em.pools <+: List.keys t.em.pools ∧
    ∀ C ∈ Cs, (s.em.pools.getPool C).isSome

theorem Served.deref {t : State Comp w} (h : Served s Cs t) {C : κ} (hC : C ∈ Cs) :
    t.em.pools.deref C ((s.em.getFilter Cs).pool C) = t.em.pools.getPool C := by
  rcases h with rfl | ⟨-, hkeys, hreg⟩
  · rw [deref_getFilter (List.prefix_refl _) hC]
    rcases t.em.pools.getPool C with - | p <;> rfl
  · rw [deref_getFilter hkeys hC, if_pos (hreg C hC)]

/-- The function is called only where the filter has found all its types. -/
theorem Served.registered {t : State Comp w} (h : Served s Cs t) {et : BitVec w}
    {comps : List (Σ C, Comp C)} (hget : t.em.pools.filterGet Cs et = some comps) :
    ∀ C ∈ Cs, (s.em.pools.getPool C).isSome := by
  rcases h with rfl | ⟨-, -, hreg⟩
  · intro C hC
    by_contra hno
    have hnone : t.em.pools.filterGet Cs et = none := by
      refine Collect.mapM_eq_none hC ?_
      rw [Pools.get, Option.not_isSome_iff_eq_none.mp hno]
      rfl
    rw [hnone] at hget
    cases hget
  · exact hreg

theorem Served.round {func : Caller Comp w σ}
    (hfunc : ∀ et comps x y, Inv x.1 → func et comps x = some y → Leads x.1 y.1) (hs : Inv s)
    {x : (State Comp w × σ) × List (BitVec w × List (Σ C, Comp C))} (h : Served s Cs x.1.1)
    (et : BitVec w) :
    roundFilter (s.em.getFilter Cs) Cs func et x = roundCalls Cs func et x ∧
      ∀ y, roundFilter (s.em.getFilter Cs) Cs func et x = some y → Served s Cs y.1.1 := by
  have heq : roundFilter (s.em.getFilter Cs) Cs func et x = roundCalls Cs func et x := by
    rw [roundFilter, roundCalls, forEachRound, forEachRound,
      Filter.has_eq_filterHas (fun C hC => h.deref hC),
      Filter.get_eq_filterGet (fun C hC => h.deref hC)]
  refine ⟨heq, fun y hy => ?_⟩
  rw [heq] at hy
  obtain ⟨-, rfl⟩ | ⟨comps, z, -, hget, hz, rfl⟩ := roundCalls_eq_some hy
  · exact h
  · have hinv : Inv x.1.1 ∧ List.keys s.em.pools <+: List.keys x.1.1.em.pools := by
      rcases h with he | ⟨hi, hkeys, -⟩
      · rw [he]
        exact ⟨hs, List.prefix_refl _⟩
      · exact ⟨hi, hkeys⟩
    obtain ⟨hi, hkeys⟩ := hinv.1.leads (hfunc et comps x.1 z hinv.1 hz)
    exact .inr ⟨hi, hinv.2.trans hkeys, h.registered hget⟩

/-- **The filter of `ForEach<Cs...>` is as good as a new one in every round.**  The loop
as it is written makes one filter at the start; with a function that makes any valid
calls, and so may register types, destroy or create, it is the loop that looks the pools
up again for each entity, undefined behaviour included. -/
theorem forEach_filter (hs : Reachable s) (Cs : List κ) (func : Caller Comp w σ)
    (hfunc : ∀ et comps x y, Inv x.1 → func et comps x = some y → Leads x.1 y.1) (v : σ) :
    forEachFilter s Cs func v = forEachCalls s Cs func v :=
  SparseSet.rangeFor_congr (J := fun x => Served s Cs x.1.1)
    (fun et _ hx => hx.round hfunc hs.inv et) (.inl rfl)

/-- Each visit gives the entity a second component, of a type nobody had before. -/
theorem forEach_filter_register :
    let ops : List (Op (fun _ : Bool => ℕ) 8) := [.create, .create,
      .onPools (.assign true 1 (some 5)), .onPools (.assign true 0 (some 6))]
    let func : Caller (fun _ : Bool => ℕ) 8 Unit := fun et _ x =>
      if x.1.em.exists_ et = some true then
        (next x.1 (.onPools (.assign false et (some 1)))).map (·, x.2)
      else none
    ∃ s, Machine.run next (State.init 0) ops = some s ∧
      (forEachFilter s [true] func ()).map (fun x => x.2.map Prod.fst) = some [0, 1] := by
  intro ops func
  obtain ⟨s, hs⟩ : ∃ s, Machine.run next (State.init 0) ops = some s :=
    Option.isSome_iff_exists.mp (by decide)
  have hleads : ∀ et comps x y, Inv x.1 → func et comps x = some y → Leads x.1 y.1 := by
    intro et comps x y _ hy
    obtain ⟨hex, hy⟩ := Option.ite_none_right_eq_some.mp hy
    obtain ⟨t, ht, rfl⟩ := Option.map_eq_some_iff.mp hy
    exact ⟨[.onPools (.assign false et (some 1))], ⟨hex, fun _ _ => trivial⟩, by simp [ht]⟩
  have hrun : (Machine.run next (State.init 0) ops).bind (fun s =>
      (forEachCalls s [true] func ()).map fun x => x.2.map Prod.fst) = some [0, 1] := by decide
  rw [hs] at hrun
  refine ⟨s, hs, ?_⟩
  rw [forEach_filter ⟨0, ops, by decide, hs⟩ [true] func hleads ()]
  exact hrun

end EntityManager

end Indie
