/-
Indie/TypeIds.lean

The numbers a program gives to types at run time.

`GetSystemId<T>()` of `ecs/System.hpp` holds a function-local static, set by
`GenerateTypeId()` the first time control passes it; `PoolData::GetPoolId` of
`ecs/EntityManager.hpp` does the same.  So a type has no number until it is
first asked for, the numbers follow the order of these first uses, and all
objects of the program share them.

`TypeIds` is the counter and these statics.  That two types never share a
number, and none is ahead of the counter, is part of the structure.
-/
import Mathlib.Logic.Function.Basic
import Mathlib.Tactic

namespace Indie

variable {κ : Type}

/-- The static of `GenerateTypeId`, and the static of `GetSystemId<T>` for each
`T` (`none` until it is initialised). -/
structure TypeIds (κ : Type) where
  cur : ℕ
  id : κ → Option ℕ
  lt_cur : ∀ T i, id T = some i → i < cur
  inj : ∀ S T i, id S = some i → id T = some i → S = T

namespace TypeIds

/-- Before the first use of any type. -/
def init : TypeIds κ := ⟨0, fun _ => none, nofun, nofun⟩

variable [DecidableEq κ] {ids : TypeIds κ} {S T : κ} {i : ℕ}

/-- Initialise the static of a type. -/
def generate (ids : TypeIds κ) (T : κ) : TypeIds κ where
  cur := ids.cur + 1
  id := Function.update ids.id T (some ids.cur)
  lt_cur S i hS := by
    by_cases h : S = T
    · subst h
      rw [Function.update_self, Option.some.injEq] at hS
      omega
    · rw [Function.update_of_ne h] at hS
      exact (ids.lt_cur S i hS).trans (Nat.lt_succ_self _)
  inj S S' i hS hS' := by
    -- a number given earlier is below the counter, hence not the new one
    have hnew : ∀ R, R ≠ T → Function.update ids.id T (some ids.cur) R = some i →
        i < ids.cur ∧ ids.id R = some i := by
      intro R h hR
      rw [Function.update_of_ne h] at hR
      exact ⟨ids.lt_cur R i hR, hR⟩
    by_cases h : S = T <;> by_cases h' : S' = T
    · rw [h, h']
    · subst h
      rw [Function.update_self, Option.some.injEq] at hS
      exact absurd (hnew S' h' hS').1 (by omega)
    · subst h'
      rw [Function.update_self, Option.some.injEq] at hS'
      exact absurd (hnew S h hS).1 (by omega)
    · exact ids.inj S S' i (hnew S h hS).2 (hnew S' h' hS').2

/-- `GetSystemId<T>()`, and the statics after it. -/
def getSystemId (ids : TypeIds κ) (T : κ) : TypeIds κ × ℕ :=
  match ids.id T with
  | some i => (ids, i)
  | none => (ids.generate T, ids.cur)

theorem getSystemId_of_some (h : ids.id T = some i) : ids.getSystemId T = (ids, i) := by
  rw [getSystemId, h]

theorem getSystemId_of_none (h : ids.id T = none) :
    ids.getSystemId T = (ids.generate T, ids.cur) := by
  rw [getSystemId, h]

/-- Afterwards the type has the number returned. -/
theorem id_getSystemId_self (ids : TypeIds κ) (T : κ) :
    (ids.getSystemId T).1.id T = some (ids.getSystemId T).2 := by
  rcases h : ids.id T with - | i
  · rw [getSystemId_of_none h]
    exact Function.update_self T (some ids.cur) ids.id
  · rw [getSystemId_of_some h]
    exact h

/-- The other types keep theirs. -/
theorem id_getSystemId_ne (h : S ≠ T) (ids : TypeIds κ) :
    (ids.getSystemId T).1.id S = ids.id S := by
  rcases hT : ids.id T with - | i
  · rw [getSystemId_of_none hT]
    exact Function.update_of_ne h _ _
  · rw [getSystemId_of_some hT]

/-- A number that has been given is not given again. -/
theorem id_getSystemId_mono (h : ids.id S = some i) (T : κ) :
    (ids.getSystemId T).1.id S = some i := by
  by_cases hS : S = T
  · subst hS
    rw [getSystemId_of_some h]
    exact h
  · rw [id_getSystemId_ne hS, h]

end TypeIds

end Indie
