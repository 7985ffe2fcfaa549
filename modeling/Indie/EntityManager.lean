/-
Indie/EntityManager.lean

The entity manager of `ecs/EntityManager.hpp`, member by member.

`Create` draws fresh ids from a function-local static, which all managers of
one entity type share; it is a part of the program, not of a manager, and is
passed along (`ett`).  Ids of destroyed entities wait in `_deleted_et` and are
handed out again before a fresh one is drawn.

`Destroy<Cs...>()` and `Reset()` run a range-for over `_entities` whose body
destroys the entity it was given (`SparseSet.rangeFor`).
-/
import Indie.PoolsSpec
import Indie.RangeFor

namespace Indie

variable {κ : Type} [DecidableEq κ] {Comp : κ → Type} {w : ℕ}

/-- `EntityManager<EntityType>`. -/
structure EntityManager (Comp : κ → Type) (w : ℕ) where
  entities : SparseSet w
  deletedEt : SparseSet w
  pools : Pools Comp w

namespace EntityManager

/-- A default-constructed manager. -/
def empty : EntityManager Comp w := ⟨.empty, .empty, []⟩

/-- `Create()`: the manager, the counter and the entity returned. -/
def create (em : EntityManager Comp w) (ett : BitVec w) :
    Option (EntityManager Comp w × BitVec w × BitVec w) :=
  if em.deletedEt.size = 0 then do
    -- a fresh id: return ett++
    let entities ← em.entities.insert ett
    return ({ em with entities }, ett + 1, ett)
  else do
    -- *_deleted_et.Begin() is read twice, then erased through the iterator
    let entities ← em.entities.insert (← em.deletedEt.dense[0]?)
    let et ← em.deletedEt.dense[0]?
    let deletedEt ← em.deletedEt.eraseAt 0
    return ({ em with entities, deletedEt }, ett, et)

/-- `Destroy(et)`. -/
def destroyEt (em : EntityManager Comp w) (et : BitVec w) : Option (EntityManager Comp w) := do
  let pools ← em.pools.destroy et
  let entities ← em.entities.erase et
  let deletedEt ← em.deletedEt.insert et
  return { entities, deletedEt, pools }

/-- `Destroy(et, ets...)`. -/
def destroy (em : EntityManager Comp w) (ets : List (BitVec w)) :
    Option (EntityManager Comp w) :=
  ets.foldlM destroyEt em

/-- `Has<Cs...>(et)`. -/
def has (em : EntityManager Comp w) (Cs : List κ) (et : BitVec w) : Option Bool :=
  em.pools.has Cs et

/-- `Destroy<Cs...>()`. -/
def destroyWith (em : EntityManager Comp w) (Cs : List κ) : Option (EntityManager Comp w) :=
  SparseSet.rangeFor entities (fun et em => do
    if ← em.has Cs et then em.destroyEt et else return em) em

/-- `Reset()`. -/
def reset (em : EntityManager Comp w) : Option (EntityManager Comp w) :=
  SparseSet.rangeFor entities (fun et em => em.destroyEt et) em

/-- `Reserve(count)`. -/
def reserve (em : EntityManager Comp w) (count : BitVec w) : EntityManager Comp w :=
  { em with entities := em.entities.reserve count }

/-! ### Queries -/

/-- `Exists(et)`. -/
def exists_ (em : EntityManager Comp w) (et : BitVec w) : Option Bool := em.entities.has et

/-- `Size()`. -/
def size (em : EntityManager Comp w) : BitVec w := em.entities.size

/-- `IsEmpty()`. -/
def isEmpty (em : EntityManager Comp w) : Bool := em.entities.size == 0

/-- `Size<Cs...>()`: the counter `result` is an `int`. -/
def sizeOf (em : EntityManager Comp w) : List κ → Option (BitVec w)
  | [] => some em.size
  | Cs => do
    let result ← SparseSet.rangeFor (fun _ => em.entities) (fun et (result : ℕ) => do
      if ← em.has Cs et then
        -- an int that overflows is undefined behaviour
        if result + 1 < 2 ^ 31 then return result + 1 else none
      else return result) 0
    return BitVec.ofNat w result

/-- `IsEmpty<Cs...>()`. -/
def isEmptyOf (em : EntityManager Comp w) (Cs : List κ) : Option Bool := do
  return (← em.sizeOf Cs) == 0

/-- `Capacity()`. -/
def capacity (em : EntityManager Comp w) : BitVec w := em.entities.capacity

/-- `Capacity<C>()`: undefined where `C` is not registered. -/
def capacityOf (em : EntityManager Comp w) (C : κ) : Option (BitVec w) := do
  return (← em.pools.getPool C).capacity

/-- `ForEach(func)`, with a function that records its calls and leaves the
manager alone. -/
def forEach (em : EntityManager Comp w) : Option (List (BitVec w)) :=
  SparseSet.rangeFor (fun _ => em.entities) (fun et calls => some (calls ++ [et])) []

/-- One round of the loop of `ForEach<Cs...>(func)`, with what the filter answers in a
state `s` of the loop.  The references are made before the call: where there is no
component to refer to, `func` is not reached. -/
def forEachRound {σ : Type} (has : σ → BitVec w → Option Bool)
    (get : σ → BitVec w → Option (List (Σ C, Comp C)))
    (func : BitVec w → List (Σ C, Comp C) → σ → Option σ) (et : BitVec w) (s : σ) :
    Option σ := do
  if ← has s et then func et (← get s et) s else return s

/-- `ForEach<Cs...>(func)`, with a function that records its calls and leaves
the manager alone. -/
def forEachOf (em : EntityManager Comp w) (Cs : List κ) :
    Option (List (BitVec w × List (Σ C, Comp C))) :=
  SparseSet.rangeFor (fun _ => em.entities)
    (forEachRound (fun _ => em.pools.filterHas Cs) (fun _ => em.pools.filterGet Cs)
      fun et comps calls => some (calls ++ [(et, comps)])) []

/-! ### Calls -/

/-- A call that changes a manager. -/
inductive Op (Comp : κ → Type) (w : ℕ)
  | create
  | destroy (ets : List (BitVec w))
  | destroyWith (Cs : List κ)
  | reset
  | reserve (count : BitVec w)
  | onPools (op : Pools.Op Comp w)

/-- What a call returns: a new entity, or nothing. -/
inductive Ret (w : ℕ)
  | created (et : BitVec w)
  | ended (e : Ending)
  deriving DecidableEq

/-- A manager and the static of `Create`. -/
structure State (Comp : κ → Type) (w : ℕ) where
  ett : BitVec w
  em : EntityManager Comp w

/-- The program before the first call, the counter wherever other managers have
left it. -/
def State.init (ett : BitVec w) : State Comp w := ⟨ett, empty⟩

/-- Make one call. -/
def step (s : State Comp w) : Op Comp w → Option (State Comp w × Ret w)
  | .create => do
    let (em, ett, et) ← s.em.create s.ett
    return ({ ett, em }, .created et)
  | .destroy ets => do
    let em ← s.em.destroy ets
    return ({ s with em }, .ended .returned)
  | .destroyWith Cs => do
    let em ← s.em.destroyWith Cs
    return ({ s with em }, .ended .returned)
  | .reset => do
    let em ← s.em.reset
    return ({ s with em }, .ended .returned)
  | .reserve count => some ({ s with em := s.em.reserve count }, .ended .returned)
  | .onPools op => do
    let (pools, e) ← s.em.pools.step op
    return ({ s with em := { s.em with pools } }, .ended e)

/-- A question about a manager. -/
inductive Query (κ : Type) (w : ℕ)
  | get (Cs : List κ) (et : BitVec w)
  | has (Cs : List κ) (et : BitVec w)
  | exists_ (et : BitVec w)
  | size
  | sizeOf (Cs : List κ)
  | isEmpty
  | isEmptyOf (Cs : List κ)
  | forEach
  | forEachOf (Cs : List κ)

/-- What any call returns, or passes to the function it is given. -/
inductive Answer (Comp : κ → Type) (w : ℕ)
  | ret (r : Ret w)
  | bool (b : Bool)
  | number (n : BitVec w)
  | components (l : List (Σ C, Option (Comp C)))
  | entities (l : List (BitVec w))
  | visits (l : List (BitVec w × List (Σ C, Comp C)))

/-- Answer a question. -/
def ask (em : EntityManager Comp w) : Query κ w → Option (Answer Comp w)
  | .get Cs et => (em.pools.getAll Cs et).map .components
  | .has Cs et => (em.has Cs et).map .bool
  | .exists_ et => (em.exists_ et).map .bool
  | .size => some (.number em.size)
  | .sizeOf Cs => (em.sizeOf Cs).map .number
  | .isEmpty => some (.bool em.isEmpty)
  | .isEmptyOf Cs => (em.isEmptyOf Cs).map .bool
  | .forEach => em.forEach.map .entities
  | .forEachOf Cs => (em.forEachOf Cs).map .visits

/-- A call of either kind. -/
inductive Call (Comp : κ → Type) (w : ℕ)
  | op (o : Op Comp w)
  | query (q : Query κ w)

/-- Make one call of either kind. -/
def call (s : State Comp w) : Call Comp w → Option (State Comp w × Answer Comp w)
  | .op o => (step s o).map fun r => (r.1, .ret r.2)
  | .query q => (s.em.ask q).map fun a => (s, a)

end EntityManager

end Indie
