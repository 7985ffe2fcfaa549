/-
Indie/Counting.lean

Counting, filtering and iterating over the entities of a manager.

`ForEach<Cs...>` asks a `Filter`, which holds the pool pointers taken before the
loop; `Size<Cs...>` looks the pools up again for every entity; a pool keeps a
counter of its own.  All three speak of the list `owners` of live entities that
own all of `Cs`: the filter asks what `Has` asks (`Pools.filterHas_eq`), the
loop visits the owners (`Tidy.forEachOf_eq`), the count is their number
(`Tidy.sizeOf_eq`), and a pool has no entity that is not live
(`Tidy.size_getPool`).

What the loop passes to its function are dereferenced pointers into
`_components`.  A constructor that threw has left an owner without a component,
and then the loop reads outside the vector; in every other reachable state all
the numbers agree (`agree_iff_stored`).
-/
import Indie.EntityThrow
import Indie.Library.Collect

namespace Indie

namespace Pools

variable {κ : Type} [DecidableEq κ] {Comp : κ → Type} {w : ℕ}
variable {ps : Pools Comp w} {C : κ} {Cs : List κ} {e : BitVec w}

/-- `IndexOf(e)` in the pool of `C` is below the length of `_components`. -/
def Stored (ps : Pools Comp w) (C : κ) (e : BitVec w) : Prop :=
  ∃ p i, getPool ps C = some p ∧ p.base.indexOf e = some i ∧
    i.toNat < p.components.data.length

/-- An owner's component is stored exactly if `Get<C>(e)` points to one. -/
theorem Sound.stored_iff (h : Sound ps) (ho : Owns ps C e) :
    Stored ps C e ↔ ∃ x, get ps C e = some (some x) := by
  obtain ⟨p, hp, he⟩ := ho
  obtain ⟨i, hi⟩ := List.getElem?_of_mem he
  have hwf := h C p hp
  rw [get, hp, Option.bind_eq_bind, Option.bind_some, Pool.get_of_getElem? hwf hi]
  constructor
  · rintro ⟨q, j, hq, hj, hlt⟩
    obtain rfl := Option.some.inj (hp.symm.trans hq)
    obtain rfl := Option.some.inj ((hwf.indexOf_eq hi).symm.trans hj)
    rw [hwf.toNat_ofNat hi] at hlt
    exact ⟨_, congrArg (Option.map some) (List.getElem?_eq_getElem hlt)⟩
  · rintro ⟨x, hx⟩
    obtain ⟨y, hy, -⟩ := Option.map_eq_some_iff.mp hx
    refine ⟨p, _, hp, hwf.indexOf_eq hi, ?_⟩
    rw [hwf.toNat_ofNat hi]
    exact (List.getElem?_eq_some_iff.mp hy).1

/-- A covered pool stores the components of all its owners. -/
theorem Covered.stored (h : Covered ps) (ho : Owns ps C e) : Stored ps C e := by
  obtain ⟨p, hp, he⟩ := ho
  obtain ⟨i, hi⟩ := List.getElem?_of_mem he
  have hwf := h C p hp
  refine ⟨p, _, hp, hwf.base.indexOf_eq hi, ?_⟩
  rw [hwf.base.toNat_ofNat hi]
  exact (hwf.get_eq hi).2

/-- The filter asks what `Has` asks, where every type has a pool. -/
theorem filterHas_eq (hreg : ∀ C ∈ Cs, (getPool ps C).isSome) (e : BitVec w) :
    filterHas ps Cs e = has ps Cs e := by
  induction Cs with
  | nil => rfl
  | cons C Cs ih =>
    obtain ⟨hC, hCs⟩ := List.forall_mem_cons.mp hreg
    obtain ⟨p, hp⟩ := Option.isSome_iff_exists.mp hC
    rw [filterHas, has, closureHas, hp, ih hCs]
    rfl

/-- What a pointer to the component points to. -/
def pointed (c : Σ C, Comp C) : Σ C, Option (Comp C) := ⟨c.1, some c.2⟩

/-- The references the filter gives are to what `Get<Cs...>(e)` points to. -/
theorem filterGet_eq_some {l : List (Σ C, Comp C)} :
    filterGet ps Cs e = some l ↔
      getAll ps Cs e = some (l.map pointed) := by
  rw [filterGet, getAll, Collect.mapM_eq_some, Collect.mapM_eq_some, List.forall₂_map_right_iff]
  have hone : ∀ C (c : Σ C, Comp C),
      (do return (⟨C, ← (← get ps C e)⟩ : Σ C, Comp C)) = some c ↔
        (do return (⟨C, ← get ps C e⟩ : Σ C, Option (Comp C))) = some (pointed c) := by
    rintro C ⟨D, y⟩
    rcases get ps C e with - | - | x
    · simp
    · -- a null pointer points to no component
      refine iff_of_false (by simp) fun heq => ?_
      obtain ⟨rfl, heq⟩ := Sigma.mk.inj (Option.some.inj heq)
      cases eq_of_heq heq
    · simp only [Option.bind_eq_bind, Option.bind_some, Option.pure_def, Option.some.injEq]
      constructor
      · rintro ⟨rfl, rfl⟩
        rfl
      · intro heq
        obtain ⟨rfl, heq⟩ := Sigma.mk.inj heq
        obtain rfl := Option.some.inj (eq_of_heq heq)
        rfl
  exact ⟨fun h => h.imp fun C c => (hone C c).mp, fun h => h.imp fun C c => (hone C c).mpr⟩

theorem filterGet_congr {qs : Pools Comp w} (h : ∀ C ∈ Cs, get ps C e = get qs C e) :
    filterGet ps Cs e = filterGet qs Cs e :=
  Collect.mapM_congr fun C hC => by rw [h C hC]

/-- The filter finds a component of each type exactly where each is stored. -/
theorem Sound.filterGet_defined_iff (h : Sound ps) (ho : ∀ C ∈ Cs, Owns ps C e) :
    (∃ l, filterGet ps Cs e = some l) ↔ ∀ C ∈ Cs, Stored ps C e := by
  induction Cs with
  | nil => exact iff_of_true ⟨[], rfl⟩ (List.forall_mem_nil _)
  | cons C Cs ih =>
    obtain ⟨hC, hCs⟩ := List.forall_mem_cons.mp ho
    rw [List.forall_mem_cons, h.stored_iff hC, ← ih hCs]
    simp only [filterGet, List.mapM_cons, Option.bind_eq_bind, Option.bind_eq_some_iff,
      Option.pure_def, Option.some.injEq]
    constructor
    · rintro ⟨_, c, ⟨o, ho, x, rfl, rfl⟩, l, hl, rfl⟩
      exact ⟨⟨x, ho⟩, l, hl⟩
    · rintro ⟨⟨x, hx⟩, l, hl⟩
      exact ⟨_, _, ⟨_, hx, x, rfl, rfl⟩, l, hl, rfl⟩

end Pools

namespace EntityManager

variable {κ : Type} [DecidableEq κ] {Comp : κ → Type} {w : ℕ}
variable {em : EntityManager Comp w} {s : State Comp w} {C : κ} {Cs : List κ} {e : BitVec w}

/-! ### Everything is read off the owners -/

/-- The loop visits the owners, and passes what the filter gives. -/
theorem Tidy.forEachOf_eq (h : Tidy em) (hreg : ∀ C ∈ Cs, (em.pools.getPool C).isSome) :
    em.forEachOf Cs =
      (em.owners Cs).mapM fun e => (em.pools.filterGet Cs e).map (e, ·) := by
  have hhas : ∀ e ∈ em.entities.range, em.pools.filterHas Cs e =
      some (decide (∀ C ∈ Cs, Owns em C e)) := by
    intro e _
    rw [Pools.filterHas_eq hreg]
    exact h.has_eq Cs e
  have hloop := Collect.foldlM_collect (g := fun e => (em.pools.filterGet Cs e).map (e, ·)) hhas []
  rw [forEachOf, h.entities.rangeFor_const]
  rw [← owners] at hloop
  refine Eq.trans ?_ (hloop.trans (by simp))
  congr 1
  funext calls e
  refine Option.bind_congr fun b _ => ?_
  cases b with
  | false => rfl
  | true =>
    show (em.pools.filterGet Cs e).bind _ = ((em.pools.filterGet Cs e).map _).bind _
    rw [Option.bind_map]
    rfl

/-- The count is the number of owners, as long as an `int` holds it. -/
theorem Tidy.sizeOf_eq (h : Tidy em) (hlt : em.entities.range.length < 2 ^ 31) (Cs : List κ) :
    em.sizeOf Cs = some (BitVec.ofNat w (em.owners Cs).length) := by
  cases Cs with
  | nil =>
    rw [sizeOf, size, owners, List.filter_eq_self.mpr (by simp), h.entities.length_range]
    simp
  | cons C Cs =>
    have hle : (em.owners (C :: Cs)).length ≤ em.entities.range.length :=
      List.length_filter_le ..
    have hcount := Collect.foldlM_count (n := 2 ^ 31) (k := 0)
      (fun e (_ : e ∈ em.entities.range) => h.has_eq (C :: Cs) e)
      (by rw [Nat.zero_add]; exact hle.trans_lt hlt)
    rw [sizeOf, h.entities.rangeFor_const]
    · refine (congrArg (Option.bind · fun n => some (BitVec.ofNat w n)) hcount).trans ?_
      rw [Nat.zero_add]
      rfl
    · simp

/-- No more owners than values of the entity type. -/
theorem Tidy.toNat_length_owners (h : Tidy em) (Cs : List κ) :
    (BitVec.ofNat w (em.owners Cs).length).toNat = (em.owners Cs).length := by
  rw [BitVec.toNat_ofNat]
  refine Nat.mod_eq_of_lt ((List.length_filter_le ..).trans_lt ?_)
  rw [h.entities.length_range]
  exact em.entities.size.isLt

/-- A pool counts the owners of its type: whoever it holds is live. -/
theorem Tidy.size_getPool (h : Tidy em) {p : Pool (Comp C) w} (hp : em.pools.getPool C = some p) :
    p.size = BitVec.ofNat w (em.owners [C]).length := by
  have hwf := h.pools C p hp
  have hperm : (em.owners [C]).Perm p.base.range := by
    rw [List.perm_ext_iff_of_nodup (h.nodup_owners [C]) hwf.range_nodup]
    intro e
    rw [mem_owners, List.forall_mem_singleton, Owns, Pools.owns_iff hp]
    exact ⟨And.right, fun he => ⟨h.live C e ⟨p, hp, he⟩, he⟩⟩
  rw [hperm.length_eq, hwf.length_range, BitVec.ofNat_toNat, BitVec.setWidth_eq]
  rfl

/-! ### Agreement -/

/-- `ForEach<Cs...>` calls its function once for each live entity with
`Has<Cs...>`, on what `Get` points to; `Size<Cs...>()`, `IsEmpty<Cs...>()` and,
for one type, the counter of its pool tell the number of the calls. -/
def Agree (em : EntityManager Comp w) (Cs : List κ) : Prop :=
  ∃ calls n, em.forEachOf Cs = some calls ∧
    (calls.map Prod.fst).Nodup ∧
    (∀ e, e ∈ calls.map Prod.fst ↔ em.exists_ e = some true ∧ em.has Cs e = some true) ∧
    (∀ v ∈ calls, em.pools.getAll Cs v.1 = some (v.2.map Pools.pointed)) ∧
    em.sizeOf Cs = some n ∧ n.toNat = calls.length ∧
    em.isEmptyOf Cs = some calls.isEmpty ∧
    ∀ C, Cs = [C] → ∃ p, em.pools.getPool C = some p ∧ p.size = n

theorem Tidy.agree_iff (h : Tidy em) (hlt : em.entities.range.length < 2 ^ 31)
    (hreg : ∀ C ∈ Cs, (em.pools.getPool C).isSome) :
    em.Agree Cs ↔ ∀ e, em.exists_ e = some true → em.has Cs e = some true →
      ∀ C ∈ Cs, em.pools.Stored C e := by
  constructor
  · rintro ⟨calls, -, hcalls, -, hvisit, -⟩ e hlive hhas
    rw [h.forEachOf_eq hreg, Collect.mapM_tagged_eq_some] at hcalls
    rw [← h.pools.filterGet_defined_iff (h.has_iff.mp hhas)]
    obtain ⟨v, hv, rfl⟩ := List.mem_map.mp ((hvisit e).mpr ⟨hlive, hhas⟩)
    exact ⟨v.2, hcalls.2 v hv⟩
  · intro hstored
    -- every owner's components are there, so the loop ends
    have hget : ∀ e ∈ em.owners Cs, ∃ l, em.pools.filterGet Cs e = some l := by
      intro e he
      obtain ⟨hlive, hhas⟩ := h.mem_owners_iff.mp he
      exact (h.pools.filterGet_defined_iff (h.has_iff.mp hhas)).mpr (hstored e hlive hhas)
    obtain ⟨calls, hcalls, hfst, hval⟩ := Collect.mapM_tagged_defined hget
    have hlen : calls.length = (em.owners Cs).length := by
      rw [← hfst, List.length_map]
    refine ⟨calls, _, (h.forEachOf_eq hreg).trans hcalls, hfst.symm ▸ h.nodup_owners Cs,
      fun e => hfst.symm ▸ h.mem_owners_iff, fun v hv => Pools.filterGet_eq_some.mp (hval v hv),
      h.sizeOf_eq hlt Cs, ?_, ?_, ?_⟩
    · rw [h.toNat_length_owners, hlen]
    · rw [isEmptyOf, h.sizeOf_eq hlt]
      show some _ = some _
      rw [Option.some.injEq, Bool.eq_iff_iff, beq_iff_eq, ← BitVec.toNat_inj,
        h.toNat_length_owners, List.isEmpty_iff, ← List.length_eq_zero_iff, hlen]
      rfl
    · rintro C rfl
      obtain ⟨p, hp⟩ := Option.isSome_iff_exists.mp (hreg C (List.mem_singleton_self C))
      exact ⟨p, hp, h.size_getPool hp⟩

/-! ### Without exceptions every component is stored -/

/-- Components are built without exceptions. -/
def Op.NoThrow : Op Comp w → Prop
  | .onPools op => ∀ c ∈ op.calls, c.2.NoThrow
  | _ => True

instance (op : Op Comp w) : Decidable op.NoThrow :=
  match op with
  | .onPools op => List.decidableBAll (fun c : Σ C, Pool.Op (Comp C) w => c.2.NoThrow) op.calls
  | .create | .destroy _ | .destroyWith _ | .reset | .reserve _ => isTrue trivial

theorem Tidy.covered_destroy (h : Tidy em) (hcov : em.pools.Covered) {es : List (BitVec w)}
    {em' : EntityManager Comp w} (hs : em.destroy es = some em') : em'.pools.Covered := by
  refine (destroy_invariant (I := fun em => Tidy em ∧ em.pools.Covered)
    (fun a b et _ ha hab => ⟨ha.1.destroyEt hab, ?_⟩) ⟨h, hcov⟩ hs).2
  refine Pools.Every.destroy ha.1.pools ha.2 (fun C p p' _ hp hdel => ?_)
    (destroyEt_eq_some.mp hab).1
  exact @Pool.WF.step _ _ p p' hp (.delete et) trivial hdel

theorem Inv.covered_next (h : Inv s) (hcov : s.em.pools.Covered) {op : Op Comp w}
    (hop : op.NoThrow) {s' : State Comp w} (hs : EntityManager.next s op = some s') :
    s'.em.pools.Covered := by
  cases op with
  | create =>
    rw [next_create, Option.map_eq_some_iff] at hs
    obtain ⟨⟨em', ett', et⟩, hc, rfl⟩ := hs
    obtain ⟨-, hp, -⟩ := create_eq_some.mp hc
    exact hp ▸ hcov
  | destroy ets =>
    rw [next_destroy, Option.map_eq_some_iff] at hs
    obtain ⟨em', hd, rfl⟩ := hs
    exact h.tidy.covered_destroy hcov hd
  | destroyWith Cs =>
    rw [next_destroyWith, Option.map_eq_some_iff, h.tidy.destroyWith_eq] at hs
    obtain ⟨em', hd, rfl⟩ := hs
    exact h.tidy.covered_destroy hcov hd
  | reset =>
    rw [next_reset, Option.map_eq_some_iff, h.tidy.reset_eq] at hs
    obtain ⟨em', hd, rfl⟩ := hs
    exact h.tidy.covered_destroy hcov hd
  | reserve n =>
    obtain rfl := Option.some.inj hs
    exact hcov
  | onPools op =>
    rw [next_onPools, Option.map_eq_some_iff] at hs
    obtain ⟨r, hp, rfl⟩ := hs
    exact Pools.Every.step hcov (fun _ => Pool.wf_empty)
      (fun c hc _ _ hq hq' => hq.step (hop c hc) hq') hp

theorem covered_of_run {ett : BitVec w} {ops : List (Op Comp w)}
    (hops : Machine.Along next (fun s op => op.Valid s.em ∧ op.NoThrow) (State.init ett) ops)
    (hs : Machine.run next (State.init ett) ops = some s) : s.em.pools.Covered :=
  (Machine.run_invariant (I := fun s => Inv s ∧ s.em.pools.Covered)
    (fun _ _ _ h hv hs => ⟨h.1.next hv.1 hs, h.1.covered_next h.2 hv.2 hs⟩)
    ⟨inv_init ett, Pools.every_nil⟩ hops hs).2

/-- **Counting, filtering and iterating agree exactly where the components are
stored.** In every reachable state with fewer than `2 ^ 31` live entities and
for all registered types, they agree if and only if every live entity that owns
all the types has its index inside the vector of components of each.  After a
run in which no constructor throws this is so. -/
theorem agree_iff_stored :
    (∀ (s : State Comp w) (Cs : List κ), Reachable s → s.em.size.toNat < 2 ^ 31 →
      (∀ C ∈ Cs, (s.em.pools.getPool C).isSome) →
      (s.em.Agree Cs ↔ ∀ e, s.em.exists_ e = some true → s.em.has Cs e = some true →
        ∀ C ∈ Cs, s.em.pools.Stored C e)) ∧
    ∀ (ett : BitVec w) (ops : List (Op Comp w)) (s : State Comp w) (Cs : List κ),
      Machine.Along next (fun s op => op.Valid s.em ∧ op.NoThrow) (State.init ett) ops →
      Machine.run next (State.init ett) ops = some s → s.em.size.toNat < 2 ^ 31 →
      (∀ C ∈ Cs, (s.em.pools.getPool C).isSome) → s.em.Agree Cs := by
  constructor
  · intro s Cs hs hlt hreg
    have htidy := hs.inv.tidy
    exact htidy.agree_iff (htidy.entities.length_range.trans_lt hlt) hreg
  · intro ett ops s Cs hops hs hlt hreg
    have htidy := (inv_of_run (hops.mono fun _ _ hv => hv.1) hs).tidy
    have hcov := covered_of_run hops hs
    rw [htidy.agree_iff (htidy.entities.length_range.trans_lt hlt) hreg]
    exact fun e _ hhas C hC => hcov.stored (htidy.has_iff.mp hhas C hC)

/-- Two entities, the second with a component. -/
theorem agree_iff_stored_pair :
    let s : State (fun _ : Unit => ℕ) 64 :=
      ⟨2, ⟨[0, 1], [0, 1], 2, 2⟩, .empty,
        [⟨(), ⟨⟨[1, 0], [0, 0], 1, 2⟩, ⟨[450], 1, Nat.le_refl 1⟩⟩⟩]⟩
    s.em.Agree [()] ∧ ∀ e, s.em.exists_ e = some true → s.em.has [()] e = some true →
      ∀ C ∈ [()], s.em.pools.Stored C e := by
  intro s
  let ops : List (Op (fun _ : Unit => ℕ) 64) :=
    [.create, .create, .onPools (.assign () 1 (some 450))]
  have hops : Machine.Along next (fun s op => op.Valid s.em ∧ op.NoThrow) (State.init 0) ops := by
    decide
  have hs : Machine.run next (State.init 0) ops = some s := rfl
  obtain ⟨hiff, hrun⟩ := @agree_iff_stored Unit _ (fun _ => ℕ) 64
  have hagree : s.em.Agree [()] := hrun 0 ops s [()] hops hs (by decide) (by decide)
  have hreach : Reachable s := ⟨0, ops, hops.mono fun _ _ hv => hv.1, hs⟩
  exact ⟨hagree, (hiff s [()] hreach (by decide) (by decide)).mp hagree⟩

/-- A constructor has thrown: entity 0 is counted, and the loop reads outside
the vector for it. -/
theorem agree_not_stored :
    let s : State (fun _ : Unit => ℕ) 64 :=
      ⟨1, ⟨[0], [0], 1, 1⟩, .empty, [⟨(), ⟨⟨[0], [0], 1, 1⟩, ⟨[], 1, Nat.zero_le 1⟩⟩⟩]⟩
    Reachable s ∧ (s.em.pools.getPool ()).isSome ∧ s.em.size = 1 ∧
      s.em.exists_ 0 = some true ∧ s.em.has [()] 0 = some true ∧
      s.em.sizeOf [()] = some 1 ∧ s.em.forEachOf [()] = none ∧ ¬ s.em.Agree [()] := by
  intro s
  have hreach : Reachable s :=
    ⟨0, [.create, .onPools (.assign () 0 none)], by decide, rfl⟩
  have hloop : s.em.forEachOf [()] = none := rfl
  refine ⟨hreach, rfl, rfl, by decide, by decide, rfl, hloop, ?_⟩
  rintro ⟨calls, -, hcalls, -⟩
  rw [hloop] at hcalls
  cases hcalls

end EntityManager

end Indie
