/-
Indie/World.lean

What an entity manager holds, without the arrays that hold it.

A `World` has the live entities in the order of `_entities`, and for each
registered type its owners, in the order of their indices, with the row of
components these indices address (`Slots`).  The calls act on plain lists: a
new entity is appended, a destroyed one is swap-removed (`SwapList`), a
component that was built is appended to the row, and only `Reset<C>` ever
shortens a row.

This is the meaning of the manager that `WorldRefine` proves every answer to
follow.  The row is a part of it on purpose: what `Get` points to depends on
the order in which entities came and went.
-/
import Indie.EntityManager

namespace Indie

/-! ### One type -/

/-- The owners of a type, and the components their positions address. -/
structure Slots (α : Type) (w : ℕ) where
  owners : List (BitVec w)
  cells : List α

namespace Slots

variable {α : Type} {w : ℕ}

def empty : Slots α w := ⟨[], []⟩

/-- The entity is registered in any case; a component is appended if it was
built. -/
def assign (s : Slots α w) (et : BitVec w) (c : Ctor α) : Slots α w :=
  ⟨SwapList.add s.owners et, s.cells ++ c.toList⟩

/-- The component at the position of the entity is overwritten. -/
def replace (s : Slots α w) (et : BitVec w) : Ctor α → Slots α w
  | some c => { s with cells := s.cells.set (s.owners.idxOf et) c }
  | none => s

def assignOrReplace (s : Slots α w) (et : BitVec w) (c : Ctor α) : Slots α w :=
  if s.owners.contains et then s.replace et c else s.assign et c

/-- Only the entity goes, the row stays. -/
def delete (s : Slots α w) (et : BitVec w) : Slots α w :=
  { s with owners := SwapList.remove s.owners et }

/-- The component at the position of the entity, `none` inside for an entity
that has none. -/
def get (s : Slots α w) (et : BitVec w) : Option (Option α) :=
  if s.owners.contains et then (s.cells[s.owners.idxOf et]?).map some else some none

/-- What a call on a pool does. -/
def step (s : Slots α w) : Pool.Op α w → Slots α w
  | .assign et c => s.assign et c
  | .replace et c => s.replace et c
  | .assignOrReplace et c => s.assignOrReplace et c
  | .delete et => s.delete et
  | .reset => empty
  | .reserve _ => s

end Slots

/-! ### The whole manager -/

variable {κ : Type} {Comp : κ → Type} {w : ℕ}

/-- The live entities, and the slots of each registered type. -/
structure World (Comp : κ → Type) (w : ℕ) where
  live : List (BitVec w)
  pools : ∀ C, Option (Slots (Comp C) w)

namespace World

open EntityManager (Op Ret Query Answer)

/-- No entity, and no type registered. -/
def empty : World Comp w := ⟨[], fun _ => none⟩

/-- The entity owns a component of the type. -/
def Owns (W : World Comp w) (C : κ) (e : BitVec w) : Prop :=
  ∃ s, W.pools C = some s ∧ e ∈ s.owners

instance (W : World Comp w) (C : κ) (e : BitVec w) : Decidable (W.Owns C e) :=
  match h : W.pools C with
  | some s => decidable_of_iff (s.owners.contains e) (by simp [Owns, h])
  | none => isFalse (by simp [Owns, h])

/-- The live entities that own all of `Cs`. -/
def owners (W : World Comp w) (Cs : List κ) : List (BitVec w) :=
  W.live.filter fun e =>
    have := List.decidableBAll (fun C => W.Owns C e) Cs
    decide (∀ C ∈ Cs, W.Owns C e)

/-! ### Calls -/

/-- One entity goes, from the live ones and from every pool. -/
def destroyEt (W : World Comp w) (et : BitVec w) : World Comp w where
  live := SwapList.remove W.live et
  pools C := (W.pools C).map (·.delete et)

def destroy (W : World Comp w) (ets : List (BitVec w)) : World Comp w :=
  ets.foldl destroyEt W

variable [DecidableEq κ]

/-- The slots of one type change. -/
def modify (W : World Comp w) (C : κ) (f : Slots (Comp C) w → Slots (Comp C) w) :
    World Comp w :=
  { W with pools := Function.update W.pools C ((W.pools C).map f) }

/-- A type is registered, if it is not. -/
def allocate (W : World Comp w) (C : κ) : World Comp w :=
  { W with pools := Function.update W.pools C (some ((W.pools C).getD Slots.empty)) }

/-- What a call on components does. -/
def onPools (W : World Comp w) : Pools.Op Comp w → World Comp w
  | .assign C et c => (W.allocate C).modify C (·.assign et c)
  | .replace C et c => W.modify C (·.replace et c)
  | .assignOrReplace C et c => (W.allocate C).modify C (·.assignOrReplace et c)
  | .delete Cs et => Cs.foldl (fun W C => W.modify C (·.delete et)) W
  | .reset Cs => Cs.foldl (fun W C => W.modify C fun _ => Slots.empty) W
  | .reserve C _ => W.allocate C

/-- The world after a call that returned the result. -/
def after (W : World Comp w) : Op Comp w → Ret w → World Comp w
  | .create, .created et => { W with live := SwapList.add W.live et }
  | .create, .ended _ => W
  | .destroy ets, _ => W.destroy ets
  | .destroyWith Cs, _ => W.destroy (W.owners Cs)
  | .reset, _ => W.destroy W.live
  | .reserve _, _ => W
  | .onPools op, _ => W.onPools op

/-! ### Questions -/

omit [DecidableEq κ]

/-- A type that is not registered has no components to ask for. -/
def get (W : World Comp w) (C : κ) (et : BitVec w) : Option (Option (Comp C)) := do
  (← W.pools C).get et

def getAll (W : World Comp w) (Cs : List κ) (et : BitVec w) :
    Option (List (Σ C, Option (Comp C))) :=
  Cs.mapM fun C => do return ⟨C, ← W.get C et⟩

/-- The number of owners, as long as an `int` can count them. -/
def sizeOf (W : World Comp w) : List κ → Option (BitVec w)
  | [] => some (BitVec.ofNat w W.live.length)
  | Cs =>
    if (W.owners Cs).length < 2 ^ 31 then some (BitVec.ofNat w (W.owners Cs).length) else none

/-- Whether an entity owns all of `Cs`, up to the first type it does not own. -/
def filterHas (W : World Comp w) : List κ → BitVec w → Option Bool
  | [], _ => some true
  | C :: Cs, et => do
    let s ← W.pools C
    if s.owners.contains et then filterHas W Cs et else return false

def filterGet (W : World Comp w) (Cs : List κ) (et : BitVec w) :
    Option (List (Σ C, Comp C)) :=
  Cs.mapM fun C => do return ⟨C, ← (← W.get C et)⟩

def forEachOf (W : World Comp w) (Cs : List κ) :
    Option (List (BitVec w × List (Σ C, Comp C))) :=
  W.live.foldlM (fun calls et => do
    if ← W.filterHas Cs et then return calls ++ [(et, ← W.filterGet Cs et)]
    else return calls) []

/-- Answer a question. -/
def ask (W : World Comp w) : Query κ w → Option (Answer Comp w)
  | .get Cs et => (W.getAll Cs et).map .components
  | .has Cs et =>
    have := List.decidableBAll (fun C => W.Owns C et) Cs
    some (.bool (decide (∀ C ∈ Cs, W.Owns C et)))
  | .exists_ et => some (.bool (W.live.contains et))
  | .size => some (.number (BitVec.ofNat w W.live.length))
  | .sizeOf Cs => (W.sizeOf Cs).map .number
  | .isEmpty => some (.bool W.live.isEmpty)
  | .isEmptyOf Cs => (W.sizeOf Cs).map fun n => .bool (n == 0)
  | .forEach => some (.entities W.live)
  | .forEachOf Cs => (W.forEachOf Cs).map .visits

end World

end Indie
