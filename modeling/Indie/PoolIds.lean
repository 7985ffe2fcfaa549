/-
Indie/PoolIds.lean

Looking a pool up by its id.

`GetPool<C>()` and `TryAllocatePool<C>()` compare the field `ID` of each record
with the id of `C`.  Types have distinct ids (`TypeIds`), so the record found is
the first one of the type `C`: that is `Pools.getPool`, on which the other
modules are built.
-/
import Indie.Pools
import Indie.TypeIds

namespace Indie

namespace Pools

variable {κ : Type} {Comp : κ → Type} {w : ℕ}

/-- `std::find_if(..., pool.ID == pool_id)`. -/
def findId (ids : TypeIds κ) (ps : Pools Comp w) (poolId : ℕ) : Option (PoolData Comp w) :=
  ps.find? fun d => ids.id d.1 == some poolId

variable [DecidableEq κ] {ids : TypeIds κ} {ps : Pools Comp w} {C : κ} {i : ℕ}

/-- The record with the id of `C` is the first record of `C`. -/
theorem findId_eq (h : ids.id C = some i) :
    findId ids ps i = (getPool ps C).map (Sigma.mk C) := by
  induction ps with
  | nil => rfl
  | cons d ps ih =>
    rw [findId, getPool]
    by_cases hd : d.1 = C
    · subst hd
      rw [List.find?_cons_of_pos (by rw [h, beq_self_eq_true]), List.dlookup_cons_eq]
      rfl
    · -- another type has another id
      have hne : ids.id d.1 ≠ some i := fun hi => hd (ids.inj d.1 C i hi h)
      rw [List.find?_cons_of_neg (by rwa [beq_iff_eq]), List.dlookup_cons_ne ps d (Ne.symm hd)]
      exact ih

end Pools

end Indie
