/-
Indie/SparseSet.lean

The sparse set of `ecs/details/SparseSet.hpp`, member by member.

`T` is an unsigned type of any width `w`, so its values are `BitVec w` and
`val + 1`, `++_size`, `_size - 1` wrap as they do there.  A subscript outside
its vector has no defined behaviour: every member that subscripts returns an
`Option`, and `none` is that case.

`Erase` takes its argument by reference.  `Erase(ConstIterator it)` forwards
`*it`, a cell of `_dense`, and `Erase` writes `_dense` between two reads of
the parameter.  A `Ref` is what such a parameter denotes, an independent value
or a cell of `_dense`, and it is read again at each use.
-/
import Indie.Library.Run
import Indie.Library.Vec

namespace Indie

/-- `SparseSet<T>`, `T` of width `w`. -/
structure SparseSet (w : ℕ) where
  dense : List (BitVec w)
  sparse : List (BitVec w)
  size : BitVec w
  capacity : BitVec w
  deriving DecidableEq

namespace SparseSet

variable {w : ℕ}

/-- A default-constructed set. -/
def empty : SparseSet w := ⟨[], [], 0, 0⟩

/-- `IsEmpty()`. -/
def isEmpty (s : SparseSet w) : Bool := s.size == 0

/-- `Clear()`: only the size changes, both vectors keep their contents. -/
def clear (s : SparseSet w) : SparseSet w := { s with size := 0 }

/-- `Reserve(count)`. -/
def reserve (s : SparseSet w) (count : BitVec w) : SparseSet w :=
  if s.capacity < count then
    { s with
      dense := Vec.resize s.dense count.toNat 0
      sparse := Vec.resize s.sparse count.toNat 0
      capacity := count }
  else s

/-- `Has(val)`, with the short circuits of its two conjunctions. -/
def has (s : SparseSet w) (val : BitVec w) : Option Bool :=
  if val < s.capacity then do
    let i ← s.sparse[val.toNat]?
    if i < s.size then do
      let v ← s.dense[i.toNat]?
      return v == val
    else return false
  else return false

/-- The part of `Insert(val)` that runs when `Has(val)` is false. -/
def append (s : SparseSet w) (val : BitVec w) : Option (SparseSet w) := do
  let s := if s.capacity ≤ val then s.reserve (val + 1) else s
  let dense ← Vec.write s.dense s.size.toNat val
  let sparse ← Vec.write s.sparse val.toNat s.size
  return { s with dense, sparse, size := s.size + 1 }

/-- `Insert(val)`. -/
def insert (s : SparseSet w) (val : BitVec w) : Option (SparseSet w) := do
  if ← s.has val then return s else s.append val

/-- What a `const ValueType &` denotes: a value outside the set, or the cell
`i` of `_dense`. -/
inductive Ref (w : ℕ)
  | value (v : BitVec w)
  | cell (i : ℕ)

/-- Read a reference in the current state of the set. -/
def Ref.read (s : SparseSet w) : Ref w → Option (BitVec w)
  | .value v => some v
  | .cell i => s.dense[i]?

/-- `Erase(const ValueType &val)`. -/
def eraseRef (s : SparseSet w) (val : Ref w) : Option (SparseSet w) := do
  if ← s.has (← val.read s) then
    -- _dense[_sparse[val]] = _dense[_size - 1];
    let last ← s.dense[(s.size - 1).toNat]?
    let i ← s.sparse[(← val.read s).toNat]?
    let dense ← Vec.write s.dense i.toNat last
    let s := { s with dense }
    -- _sparse[_dense[_size - 1]] = _sparse[val];
    let i ← s.sparse[(← val.read s).toNat]?
    let last ← s.dense[(s.size - 1).toNat]?
    let sparse ← Vec.write s.sparse last.toNat i
    -- --_size;
    return { s with sparse, size := s.size - 1 }
  else return s

/-- `Erase(val)` with `val` an independent value. -/
def erase (s : SparseSet w) (val : BitVec w) : Option (SparseSet w) :=
  s.eraseRef (.value val)

/-- `Erase(Begin() + i)`. -/
def eraseAt (s : SparseSet w) (i : ℕ) : Option (SparseSet w) :=
  s.eraseRef (.cell i)

/-- `IndexOf(val)`. -/
def indexOf (s : SparseSet w) (val : BitVec w) : Option (BitVec w) :=
  s.sparse[val.toNat]?

/-- The range `Begin()..End()`. -/
def range (s : SparseSet w) : List (BitVec w) := s.dense.take s.size.toNat

/-- `for (auto et : set) body`: the two ends are taken once, at the start; the
cell of each iterator is read when it is reached.  The set is a part, `view`,
of the state the body works on. -/
def rangeFor {σ : Type} (view : σ → SparseSet w) (body : BitVec w → σ → Option σ)
    (s : σ) : Option σ :=
  (List.range (view s).size.toNat).foldlM (fun s i => do
    let et ← (view s).dense[i]?
    body et s) s

/-! ### Runs -/

/-- A call that changes a set, its arguments passed by value. -/
inductive Op (w : ℕ)
  | insert (val : BitVec w)
  | erase (val : BitVec w)
  | clear
  | reserve (count : BitVec w)

/-- Make one call. -/
def step (s : SparseSet w) : Op w → Option (SparseSet w)
  | .insert val => s.insert val
  | .erase val => s.erase val
  | .clear => some s.clear
  | .reserve count => some (s.reserve count)

/-- `s` is reached from the empty set by some calls. -/
def Reachable (s : SparseSet w) : Prop :=
  ∃ ops, Machine.run step empty ops = some s

end SparseSet

end Indie
