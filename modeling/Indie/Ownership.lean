/-
Indie/Ownership.lean

No component outlives its entity.

Along every run of valid calls, on any number of component types: a type has
at most one record; the closures of a record act on the pool of that record,
because the id they look up is found nowhere else; and whoever owns a component
is live (`owners_are_live`).
-/
import Indie.Invariant
import Indie.PoolIds

namespace Indie

namespace Pools

variable {κ : Type} [DecidableEq κ] {Comp : κ → Type} {w : ℕ}
variable {ps l₁ l₂ : Pools Comp w} {d : PoolData Comp w} {ids : TypeIds κ} {i : ℕ}

/-- With one record for a type, a record is found by its own id. -/
theorem findId_self (h : List.NodupKeys ps) (hd : d ∈ ps) (hi : ids.id d.1 = some i) :
    findId ids ps i = some d := by
  have hp : getPool ps d.1 = some d.2 := List.mem_dlookup h hd
  rw [findId_eq hi, hp]
  rfl

/-- With one record for a type, the closure `Has` asks the pool of its own
record. -/
theorem closureHas_eq (h : List.NodupKeys ps) (hd : d ∈ ps) (et : BitVec w) :
    closureHas ps d.1 et = d.2.has et := by
  have hp : getPool ps d.1 = some d.2 := List.mem_dlookup h hd
  rw [closureHas, hp]
  rfl

/-- And the closure `Delete` changes the pool of its own record, in place. -/
theorem closureDelete_eq (h : List.NodupKeys (l₁ ++ d :: l₂)) (et : BitVec w) :
    closureDelete (l₁ ++ d :: l₂) d.1 et =
      (d.2.delete et).map fun p => l₁ ++ Sigma.mk d.1 p :: l₂ := by
  have hp : getPool (l₁ ++ d :: l₂) d.1 = some d.2 := List.mem_dlookup h (by simp)
  rw [closureDelete, modify, hp, Option.bind_eq_bind, Option.bind_some]
  rcases d.2.delete et with - | p
  · rfl
  · exact congrArg some (Keyed.kreplace_middle h p)

end Pools

namespace EntityManager

variable {κ : Type} [DecidableEq κ] {Comp : κ → Type} {w : ℕ}
variable {s : State Comp w} {ops : List (Op Comp w)} {ett : BitVec w}

/-- Every state reached by valid calls meets the invariant. -/
theorem inv_of_run (hops : Machine.Along next (fun s op => op.Valid s.em) (State.init ett) ops)
    (hs : Machine.run next (State.init ett) ops = some s) : Inv s :=
  Machine.run_invariant (fun _ _ _ h hv hs => h.next hv hs) (inv_init ett) hops hs

/-- **No component outlives its entity.** In the state any run of valid calls
reaches: no type has two records; each record is the one its id finds, and its
closures ask and change exactly its pool; and for every type `C` and id `e`,
`Has<C>(e)` implies `Exists(e)`.  A valid call on the way is undefined only
where the recycled set is damaged, the counter at its end, or a component
missing after a throw. -/
theorem owners_are_live (ett : BitVec w) (ops : List (Op Comp w))
    (hops : Machine.Along next (fun s op => op.Valid s.em) (State.init ett) ops) :
    (∀ s, Machine.run next (State.init ett) ops = some s →
      (List.keys s.em.pools).Nodup ∧
      (∀ (ids : TypeIds κ) i, ∀ d ∈ s.em.pools, ids.id d.1 = some i →
        s.em.pools.findId ids i = some d) ∧
      (∀ l₁ d l₂, s.em.pools = l₁ ++ d :: l₂ → ∀ et,
        s.em.pools.closureHas d.1 et = d.2.has et ∧
        s.em.pools.closureDelete d.1 et =
          (d.2.delete et).map fun p => l₁ ++ Sigma.mk d.1 p :: l₂) ∧
      ∀ C e, s.em.has [C] e = some true → s.em.exists_ e = some true) ∧
    Machine.Along next (fun s op => next s op = none → ¬ s.em.deletedEt.WF ∨
      ¬ s.ett.toNat + 1 < 2 ^ w ∨ ¬ s.em.pools.Covered) (State.init ett) ops := by
  constructor
  · intro s hs
    have h := inv_of_run hops hs
    refine ⟨h.nodup, fun ids i d hd hi => Pools.findId_self h.nodup hd hi,
      fun l₁ d l₂ hps et => ⟨?_, ?_⟩, fun C e hhas => ?_⟩
    · exact Pools.closureHas_eq h.nodup (by rw [hps]; simp) et
    · have hnodup := h.nodup
      rw [hps] at hnodup ⊢
      exact Pools.closureDelete_eq hnodup et
    · rw [h.tidy.has_iff] at hhas
      exact h.tidy.exists_iff.mpr (h.tidy.live C e (hhas C List.mem_cons_self))
  · -- where none of the three reasons applies, the call is defined
    refine (hops.invariant (fun _ _ _ h hv hs => h.next hv hs) (inv_init ett)).mono ?_
    rintro s op ⟨h, hv⟩ hnone
    by_contra hno
    simp only [not_or, not_not] at hno
    obtain ⟨s', hs⟩ := h.next_defined hno.1 (fun _ _ => hno.2.1) (fun _ _ => hno.2.2) hv
    rw [hnone] at hs
    cases hs

/-- Two entities with two component types; one of them dies. -/
theorem owners_are_live_pair :
    let ops : List (Op (fun _ : Bool => ℕ) 8) :=
      [.create, .create, .onPools (.assign true 0 (some 450)),
        .onPools (.assign false 1 (some 1743)), .onPools (.assign true 1 none), .destroy [1]]
    ∃ s, Machine.run next (State.init 0) ops = some s ∧
      ∀ C e, s.em.has [C] e = some true → s.em.exists_ e = some true := by
  intro ops
  obtain ⟨s, hs⟩ : ∃ s, Machine.run next (State.init 0) ops = some s :=
    Option.isSome_iff_exists.mp (by decide)
  exact ⟨s, hs, ((owners_are_live 0 ops (by decide)).1 s hs).2.2.2⟩

end EntityManager

end Indie
