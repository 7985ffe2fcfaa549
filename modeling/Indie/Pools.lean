/-
Indie/Pools.lean

The pool vector of `ecs/EntityManager.hpp`: the field `_pools`, and the members
of `EntityManager` that work on it alone.

A record (`PoolData`) is the `ID` of a component type and the pool of that
type.  Ids are generated one for each type and are only ever compared, so the
record carries the type itself (`PoolIds` says why that is the same).  Its two
closures, `Has` and `Delete`, capture `this` and the type, not the record: each
call looks the pool up again by id.  That is why it does not matter to them
where the vector keeps its records.

A null pointer has no member: a call through it is `none`.
-/
import Indie.Pool
import Indie.Library.Keyed

namespace Indie

variable {κ : Type} [DecidableEq κ] {Comp : κ → Type} {w : ℕ}

/-- `PoolData`: the `ID` and the `Pool` of a component type. -/
abbrev PoolData (Comp : κ → Type) (w : ℕ) := Σ C : κ, Pool (Comp C) w

/-- The field `_pools`. -/
abbrev Pools (Comp : κ → Type) (w : ℕ) := List (PoolData Comp w)

namespace Pools

/-- `GetPool<C>()`: the pool of the first record with the id of `C`, `none` for
the null pointer. -/
def getPool (ps : Pools Comp w) (C : κ) : Option (Pool (Comp C) w) := List.dlookup C ps

/-- The vector after a write through the pointer of `GetPool<C>()`. -/
def setPool (ps : Pools Comp w) (C : κ) (p : Pool (Comp C) w) : Pools Comp w :=
  List.kreplace C p ps

/-- `TryAllocatePool<C>()`: afterwards `GetPool<C>()` is the pool returned. -/
def tryAllocatePool (ps : Pools Comp w) (C : κ) : Pools Comp w :=
  if (getPool ps C).isSome then ps else ps ++ [Sigma.mk C Pool.empty]

/-- A call `pool->f()` that changes the pool, through the pointer of
`GetPool<C>()`. -/
def modify (ps : Pools Comp w) (C : κ)
    (f : Pool (Comp C) w → Option (Pool (Comp C) w)) : Option (Pools Comp w) := do
  let p ← getPool ps C
  let p ← f p
  return setPool ps C p

/-- The same for a call that builds a component, and may end with an
exception. -/
def build (ps : Pools Comp w) (C : κ)
    (f : Pool (Comp C) w → Option (Pool (Comp C) w × Ending)) :
    Option (Pools Comp w × Ending) := do
  let p ← getPool ps C
  let (p, ending) ← f p
  return (setPool ps C p, ending)

/-! ### The closures of a record -/

/-- `pool.Has(et)`, `pool` the record of `C`. -/
def closureHas (ps : Pools Comp w) (C : κ) (et : BitVec w) : Option Bool := do
  let p ← getPool ps C
  p.has et

/-- `pool.Delete(et)`, `pool` the record of `C`. -/
def closureDelete (ps : Pools Comp w) (C : κ) (et : BitVec w) : Option (Pools Comp w) :=
  modify ps C (·.delete et)

/-- The loop of `Destroy(et)` over the records. -/
def destroy (ps : Pools Comp w) (et : BitVec w) : Option (Pools Comp w) :=
  (List.keys ps).foldlM (fun ps C => do
    if ← closureHas ps C et then closureDelete ps C et else return ps) ps

/-! ### Members on components -/

/-- `Assign<C>(et, args...)`. -/
def assign (ps : Pools Comp w) (C : κ) (et : BitVec w) (c : Ctor (Comp C)) :
    Option (Pools Comp w × Ending) :=
  build (tryAllocatePool ps C) C (·.assign et c)

/-- `Replace<C>(et, args...)`. -/
def replace (ps : Pools Comp w) (C : κ) (et : BitVec w) (c : Ctor (Comp C)) :
    Option (Pools Comp w × Ending) :=
  build ps C (·.replace et c)

/-- `AssignOrReplace<C>(et, args...)`. -/
def assignOrReplace (ps : Pools Comp w) (C : κ) (et : BitVec w) (c : Ctor (Comp C)) :
    Option (Pools Comp w × Ending) :=
  build (tryAllocatePool ps C) C (·.assignOrReplace et c)

/-- `Delete<Cs...>(et)`. -/
def delete (ps : Pools Comp w) (Cs : List κ) (et : BitVec w) : Option (Pools Comp w) :=
  Cs.foldlM (fun ps C => modify ps C (·.delete et)) ps

/-- `Reset<Cs...>()`. -/
def reset (ps : Pools Comp w) (Cs : List κ) : Option (Pools Comp w) :=
  Cs.foldlM (fun ps C => modify ps C fun p => some p.reset) ps

/-- `Reserve<C>(count)`. -/
def reserve (ps : Pools Comp w) (C : κ) (count : BitVec w) : Option (Pools Comp w) :=
  modify (tryAllocatePool ps C) C fun p => some (p.reserve count)

/-- `Has<Cs...>(et)`: a pool that is missing has nothing, and the first `false`
ends the conjunction. -/
def has (ps : Pools Comp w) : List κ → BitVec w → Option Bool
  | [], _ => some true
  | C :: Cs, et => do
    let b ← match getPool ps C with
      | some p => p.has et
      | none => some false
    if b then has ps Cs et else return false

/-- `Get<C>(et)`. -/
def get (ps : Pools Comp w) (C : κ) (et : BitVec w) : Option (Option (Comp C)) := do
  let p ← getPool ps C
  p.get et

/-- `Get<Cs...>(et)`. -/
def getAll (ps : Pools Comp w) (Cs : List κ) (et : BitVec w) :
    Option (List (Σ C, Option (Comp C))) :=
  Cs.mapM fun C => do return ⟨C, ← get ps C et⟩

/-- `Filter::Has<Cs...>(et)`, of the filter `Get<Cs...>()`: the pointers are not
checked. -/
def filterHas (ps : Pools Comp w) : List κ → BitVec w → Option Bool
  | [], _ => some true
  | C :: Cs, et => do
    if ← closureHas ps C et then filterHas ps Cs et else return false

/-- `Filter::Get<C>(et)` for each `C` of `Cs`: the pointers are dereferenced. -/
def filterGet (ps : Pools Comp w) (Cs : List κ) (et : BitVec w) :
    Option (List (Σ C, Comp C)) :=
  Cs.mapM fun C => do return ⟨C, ← (← get ps C et)⟩

/-! ### Calls -/

/-- A call of a member on components. -/
inductive Op (Comp : κ → Type) (w : ℕ)
  | assign (C : κ) (et : BitVec w) (c : Ctor (Comp C))
  | replace (C : κ) (et : BitVec w) (c : Ctor (Comp C))
  | assignOrReplace (C : κ) (et : BitVec w) (c : Ctor (Comp C))
  | delete (Cs : List κ) (et : BitVec w)
  | reset (Cs : List κ)
  | reserve (C : κ) (count : BitVec w)

/-- Make one call, and tell how it ended. -/
def step (ps : Pools Comp w) : Op Comp w → Option (Pools Comp w × Ending)
  | .assign C et c => assign ps C et c
  | .replace C et c => replace ps C et c
  | .assignOrReplace C et c => assignOrReplace ps C et c
  | .delete Cs et => (delete ps Cs et).map (·, .returned)
  | .reset Cs => (reset ps Cs).map (·, .returned)
  | .reserve C count => (reserve ps C count).map (·, .returned)

end Pools

end Indie
