/-
Indie/EntityThrow.lean

What a throwing constructor leaves behind in an entity manager.

`EntityManager::Assign` and `AssignOrReplace` allocate the pool and pass the
call on, so they are clean exactly where the call on the pool is.  Pools are
compared with a missing one read as empty (`Pools.poolOf`): allocating is not a
change.
-/
import Indie.Ownership
import Indie.PoolThrow

namespace Indie

namespace Pools

variable {κ : Type} [DecidableEq κ] {Comp : κ → Type} {w : ℕ}
variable {ps qs : Pools Comp w} {C D : κ} {et e : BitVec w}

/-- Two vectors give the same answers, type by type, and to `Has`. -/
structure SameAnswers (ps qs : Pools Comp w) : Prop where
  pool : ∀ C, Pool.SameAnswers (poolOf ps C) (poolOf qs C)
  has : ∀ Cs e, has ps Cs e = has qs Cs e

/-- The call ends with the exception and leaves every answer as it was. -/
def FailsCleanly (ps : Pools Comp w) (call : Option (Pools Comp w × Ending)) : Prop :=
  ∃ qs, call = some (qs, .threw) ∧ SameAnswers ps qs

theorem sameAnswers_of_pool (h : ∀ C, Pool.SameAnswers (poolOf ps C) (poolOf qs C)) :
    SameAnswers ps qs where
  pool := h
  has Cs e := by
    induction Cs with
    | nil => rfl
    | cons C Cs ih => rw [has_cons, has_cons, (h C).has, ih]

/-- A call that builds fails cleanly exactly if the call on the pool does. -/
theorem build_failsCleanly_iff
    (f : Pool (Comp C) w → Option (Pool (Comp C) w × Ending)) :
    FailsCleanly ps (build (tryAllocatePool ps C) C f) ↔
      (poolOf ps C).FailsCleanly (f (poolOf ps C)) := by
  have hp : getPool (tryAllocatePool ps C) C = some (poolOf ps C) :=
    getPool_tryAllocatePool_self ps C
  -- after the call `q` is the pool of `C`, and the others are as before
  have hself : ∀ q : Pool (Comp C) w,
      poolOf (setPool (tryAllocatePool ps C) C q) C = q := by
    intro q
    rw [poolOf, getPool_setPool_self hp, Option.getD_some]
  have hne : ∀ (q : Pool (Comp C) w) D, D ≠ C →
      poolOf (setPool (tryAllocatePool ps C) C q) D = poolOf ps D := by
    intro q D hD
    rw [poolOf, getPool_setPool_ne hD, getPool_tryAllocatePool_ne hD, poolOf]
  constructor
  · rintro ⟨qs, hqs, hsame⟩
    obtain ⟨p, q, hp', hf, hqs⟩ := build_eq_some.mp hqs
    obtain rfl := Option.some.inj (hp.symm.trans hp')
    obtain ⟨rfl, hend⟩ := Prod.mk.inj hqs
    refine ⟨q.1, by rw [hf, hend], ?_⟩
    have := hsame.pool C
    rwa [hself] at this
  · rintro ⟨q, hf, hsame⟩
    refine ⟨setPool (tryAllocatePool ps C) C q, build_eq_some.mpr ⟨_, _, hp, hf, rfl⟩,
      sameAnswers_of_pool fun D => ?_⟩
    by_cases hD : D = C
    · subst hD
      rw [hself]
      exact hsame
    · rw [hne q D hD]
      exact Pool.sameAnswers_of_eq rfl rfl

theorem assign_failsCleanly_iff (h : Sound ps) :
    FailsCleanly ps (assign ps C et none) ↔ has ps [C] et = some true := by
  rw [assign, build_failsCleanly_iff, has_singleton]
  exact Pool.assign_failsCleanly_iff (wf_poolOf h C)

theorem assignOrReplace_failsCleanly_iff (h : Sound ps) :
    FailsCleanly ps (assignOrReplace ps C et none) ↔ has ps [C] et = some true := by
  rw [assignOrReplace, build_failsCleanly_iff, has_singleton]
  exact Pool.assignOrReplace_failsCleanly_iff (wf_poolOf h C)

end Pools

namespace EntityManager

variable {κ : Type} [DecidableEq κ] {Comp : κ → Type} {w : ℕ} {α : Type}

/-- The state is reached by some valid calls, constructors throwing or not. -/
def Reachable (s : State Comp w) : Prop :=
  ∃ ett ops, Machine.Along next (fun s op => op.Valid s.em) (State.init ett) ops ∧
    Machine.run next (State.init ett) ops = some s

theorem Reachable.inv {s : State Comp w} (h : Reachable s) : Inv s := by
  obtain ⟨ett, ops, hops, hs⟩ := h
  exact inv_of_run hops hs

/-- **A throwing constructor leaves the store unchanged exactly where the
component was there.** In every reachable pool and every reachable manager,
`Assign` and `AssignOrReplace` with a constructor that throws fail with the
exception and change no answer if and only if the entity has the component
already; `Replace` always does. -/
theorem throw_clean_iff :
    (∀ (p : Pool α w) (et : BitVec w), p.Reachable →
      (p.FailsCleanly (p.assign et none) ↔ p.has et = some true) ∧
      (p.FailsCleanly (p.assignOrReplace et none) ↔ p.has et = some true) ∧
      p.FailsCleanly (p.replace et none)) ∧
    ∀ (s : State Comp w) (C : κ) (et : BitVec w), Reachable s →
      (s.em.pools.FailsCleanly (s.em.pools.assign C et none) ↔
        s.em.has [C] et = some true) ∧
      (s.em.pools.FailsCleanly (s.em.pools.assignOrReplace C et none) ↔
        s.em.has [C] et = some true) := by
  constructor
  · intro p et hp
    exact ⟨Pool.assign_failsCleanly_iff hp.wf, Pool.assignOrReplace_failsCleanly_iff hp.wf,
      Pool.replace_failsCleanly p et⟩
  · intro s C et hs
    have h := hs.inv.tidy.pools
    exact ⟨Pools.assign_failsCleanly_iff h, Pools.assignOrReplace_failsCleanly_iff h⟩

/-- Two entities, the first of which has a component: giving it another may fail, giving
one to the second may not. -/
theorem throw_clean_iff_pair :
    let p : Pool ℕ 64 := ⟨⟨[0], [0], 1, 1⟩, ⟨[450], 1, Nat.le_refl 1⟩⟩
    let s : State (fun _ : Unit => ℕ) 64 :=
      ⟨2, ⟨[0, 1], [0, 1], 2, 2⟩, .empty, [⟨(), p⟩]⟩
    p.FailsCleanly (p.assign 0 none) ∧ ¬ p.FailsCleanly (p.assign 1 none) ∧
      s.em.pools.FailsCleanly (s.em.pools.assign () 0 none) ∧
      ¬ s.em.pools.FailsCleanly (s.em.pools.assign () 1 none) := by
  intro p s
  have hp : p.Reachable := ⟨[.assign 0 (some 450)], rfl⟩
  have hs : Reachable s :=
    ⟨0, [.create, .create, .onPools (.assign () 0 (some 450))], by decide, rfl⟩
  obtain ⟨hpool, hmanager⟩ := @throw_clean_iff Unit _ (fun _ => ℕ) 64 ℕ
  refine ⟨(hpool p 0 hp).1.mpr (by decide), ?_, (hmanager s () 0 hs).1.mpr (by decide), ?_⟩
  · rw [(hpool p 1 hp).1]
    decide
  · rw [(hmanager s () 1 hs).1]
    decide

/-- `Assign(0)` on a fresh pool, with a constructor that throws: entity 0 is
registered all the same. -/
theorem assign_throws_registers :
    (Pool.empty : Pool ℕ 64).Reachable ∧
      (Pool.empty : Pool ℕ 64).has 0 = some false ∧
      ((Pool.empty : Pool ℕ 64).assign 0 none).bind (fun r => r.1.has 0) = some true ∧
      ¬ (Pool.empty : Pool ℕ 64).FailsCleanly ((Pool.empty : Pool ℕ 64).assign 0 none) := by
  have hafter : ((Pool.empty : Pool ℕ 64).assign 0 none).bind (fun r => r.1.has 0) =
      some true := by decide
  refine ⟨⟨[], rfl⟩, by decide, hafter, ?_⟩
  rintro ⟨q, hq, hsame⟩
  have hbefore : (Pool.empty : Pool ℕ 64).has 0 = some false := by decide
  rw [hq, Option.bind_some, ← hsame.has, hbefore] at hafter
  cases hafter

end EntityManager

end Indie
