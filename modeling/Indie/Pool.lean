/-
Indie/Pool.lean

The component pool of `ecs/Pool.hpp`, member by member.

A pool is a sparse set of entities (its base class) and a vector of
components, addressed by the index the set gives an entity.  `Assign` appends
to the vector, `Delete` only erases from the set, and `Reset` clears both.

Building a component runs the constructor of the component type, which may
throw.  A `Ctor` is what `Component(std::forward<Args>(args)...)` comes to: a
component, or an exception.  Members that build one tell how they ended, with
the pool as it stands then.
-/
import Indie.Erase

namespace Indie

/-- `Component(args...)`: the component, or `none` where the constructor
throws. -/
abbrev Ctor (α : Type) := Option α

/-- How a call with defined behaviour ends. -/
inductive Ending
  | returned
  | threw
  deriving DecidableEq

/-- `Pool<Component, EntityType>`: the base class and `_components`. -/
structure Pool (α : Type) (w : ℕ) where
  base : SparseSet w
  components : Vec α

namespace Pool

variable {α : Type} {w : ℕ}

/-- A default-constructed pool. -/
def empty : Pool α w := ⟨.empty, .empty⟩

/-- `Capacity()`: the capacity of the vector, cut to the size type. -/
def capacity (p : Pool α w) : BitVec w := BitVec.ofNat w p.components.capacity

/-- `Reserve(count)`. -/
def reserve (p : Pool α w) (count : BitVec w) : Pool α w :=
  if p.capacity < count then
    { p with components := p.components.reserve count.toNat }
  else p

/-- `Has(et)`. -/
def has (p : Pool α w) (et : BitVec w) : Option Bool := p.base.has et

/-- `Size()`. -/
def size (p : Pool α w) : BitVec w := p.base.size

/-- `IsEmpty()`. -/
def isEmpty (p : Pool α w) : Bool := p.base.isEmpty

/-- `Assign(et, args...)`: the entity is registered and room is made before
the component is built. -/
def assign (p : Pool α w) (et : BitVec w) (c : Ctor α) : Option (Pool α w × Ending) := do
  let base ← p.base.insert et
  let p : Pool α w := { p with base }
  let i ← p.base.indexOf et
  let p := if p.capacity ≤ i then p.reserve (i + 1) else p
  -- Component(args...) is built here, after the entity was inserted
  match c with
  | some c => return ({ p with components := p.components.emplaceBack c }, .returned)
  | none => return (p, .threw)

/-- `Replace(et, args...)`: the right operand of the assignment, the new
component, is built before the subscript is evaluated. -/
def replace (p : Pool α w) (et : BitVec w) : Ctor α → Option (Pool α w × Ending)
  | some c => do
    let i ← p.base.indexOf et
    let components ← p.components.set i.toNat c
    return ({ p with components }, .returned)
  | none => some (p, .threw)

/-- `AssignOrReplace(et, args...)`. -/
def assignOrReplace (p : Pool α w) (et : BitVec w) (c : Ctor α) :
    Option (Pool α w × Ending) := do
  if ← p.has et then p.replace et c else p.assign et c

/-- `Delete(et)`: only the set changes. -/
def delete (p : Pool α w) (et : BitVec w) : Option (Pool α w) := do
  let base ← p.base.erase et
  return { p with base }

/-- `Get(et)`: the component the returned pointer points to, `none` inside for
the null pointer. -/
def get (p : Pool α w) (et : BitVec w) : Option (Option α) := do
  if ← p.has et then
    let i ← p.base.indexOf et
    let c ← p.components.data[i.toNat]?
    return some c
  else return none

/-- `Reset()`. -/
def reset (p : Pool α w) : Pool α w := ⟨p.base.clear, p.components.clear⟩

/-- `ForEach(func)` with a function that leaves the pool alone: the calls made,
each an entity and the copy of a component. -/
def forEach (p : Pool α w) : Option (List (BitVec w × α)) :=
  p.base.range.mapM fun et => do
    let i ← p.base.indexOf et
    let c ← p.components.data[i.toNat]?
    return (et, c)

/-! ### Runs -/

/-- A call that changes a pool. -/
inductive Op (α : Type) (w : ℕ)
  | assign (et : BitVec w) (c : Ctor α)
  | replace (et : BitVec w) (c : Ctor α)
  | assignOrReplace (et : BitVec w) (c : Ctor α)
  | delete (et : BitVec w)
  | reset
  | reserve (count : BitVec w)

/-- Make one call; an exception leaves the pool to the calls that follow. -/
def step (p : Pool α w) : Op α w → Option (Pool α w)
  | .assign et c => (p.assign et c).map Prod.fst
  | .replace et c => (p.replace et c).map Prod.fst
  | .assignOrReplace et c => (p.assignOrReplace et c).map Prod.fst
  | .delete et => p.delete et
  | .reset => some p.reset
  | .reserve count => some (p.reserve count)

/-- `p` is reached from the empty pool by some calls. -/
def Reachable (p : Pool α w) : Prop := ∃ ops, Machine.run step empty ops = some p

/-! ### What each member does -/

variable {p p' : Pool α w} {et e : BitVec w} {i : ℕ}

@[simp] theorem base_reserve (p : Pool α w) (n : BitVec w) : (p.reserve n).base = p.base := by
  rw [reserve]
  split <;> rfl

@[simp] theorem data_reserve (p : Pool α w) (n : BitVec w) :
    (p.reserve n).components.data = p.components.data := by
  rw [reserve]
  split <;> rfl

/-- `Assign` on a well-formed set: the entity is inserted, and the components
grow by the one that was built, if it was. -/
theorem assign_eq (h : p.base.WF) {b : SparseSet w} (hb : p.base.insert et = some b)
    (c : Ctor α) :
    ∃ q : Pool α w, q.base = b ∧ q.components.data = p.components.data ∧
      p.assign et c = some (match c with
        | some c => ({ q with components := q.components.emplaceBack c }, .returned)
        | none => (q, .threw)) := by
  obtain ⟨i, hi⟩ := List.getElem?_of_mem ((h.mem_insert hb).mpr (.inl rfl))
  have hidx := (h.insert_eq hb).1.indexOf_eq hi
  let q : Pool α w := { p with base := b }
  refine ⟨if q.capacity ≤ BitVec.ofNat w i then q.reserve (BitVec.ofNat w i + 1) else q,
    ?_, ?_, ?_⟩
  · split <;> simp [q]
  · split <;> simp [q]
  · cases c <;> simp [assign, hb, hidx, q]

theorem assign_eq_none (hb : p.base.insert et = none) (c : Ctor α) :
    p.assign et c = none := by
  simp [assign, hb]

theorem assign_defined (h : p.base.WF) (he : e.toNat + 1 < 2 ^ w) (c : Ctor α) :
    ∃ r, p.assign e c = some r := by
  obtain ⟨b, hb⟩ := h.insert_defined he
  obtain ⟨q, -, -, hq⟩ := assign_eq h hb c
  exact ⟨_, hq⟩

/-- `Replace` with a component, on an entity in slot `i` of the set. -/
theorem replace_eq (h : p.base.WF) (hi : p.base.range[i]? = some et)
    (hlt : i < p.components.data.length) (c : α) :
    ∃ v : Vec α, v.data = p.components.data.set i c ∧
      p.replace et (some c) = some ({ p with components := v }, .returned) := by
  obtain ⟨v, hv, hd⟩ := Vec.set_of_lt hlt c
  refine ⟨v, hd, ?_⟩
  simp [replace, h.indexOf_eq hi, h.toNat_ofNat hi, hv]

/-- A replacement whose constructor throws has touched nothing. -/
@[simp] theorem replace_none (p : Pool α w) (et : BitVec w) :
    p.replace et none = some (p, .threw) := rfl

theorem base_replace {c : Ctor α} {r : Pool α w × Ending} (h : p.replace et c = some r) :
    r.1.base = p.base := by
  cases c with
  | none =>
    obtain rfl := Option.some.inj h
    rfl
  | some c =>
    simp only [replace, Option.bind_eq_bind, Option.bind_eq_some_iff, Option.pure_def,
      Option.some.injEq] at h
    obtain ⟨i, -, v, -, rfl⟩ := h
    rfl

theorem assignOrReplace_of_mem (h : p.base.WF) (he : et ∈ p.base.range) (c : Ctor α) :
    p.assignOrReplace et c = p.replace et c := by
  simp [assignOrReplace, has, h.has_eq_true.mpr he]

theorem assignOrReplace_of_notMem (h : p.base.WF) (he : et ∉ p.base.range) (c : Ctor α) :
    p.assignOrReplace et c = p.assign et c := by
  simp [assignOrReplace, has, h.has_eq_false.mpr he]

theorem delete_eq_some : p.delete et = some p' ↔
    ∃ b, p.base.erase et = some b ∧ p' = { p with base := b } := by
  simp only [delete, Option.bind_eq_bind, Option.bind_eq_some_iff, Option.pure_def,
    Option.some.injEq]
  exact exists_congr fun _ => and_congr_right fun _ => eq_comm

/-- `Get` of an entity in slot `i` reads cell `i` of the components. -/
theorem get_of_getElem? (h : p.base.WF) (hi : p.base.range[i]? = some et) :
    p.get et = (p.components.data[i]?).map some := by
  have hb : p.has et = some true := h.has_eq_true.mpr (List.mem_of_getElem? hi)
  simp only [get, hb, h.indexOf_eq hi, Option.bind_eq_bind, Option.bind_some, ite_true,
    h.toNat_ofNat hi]
  cases p.components.data[i]? <;> rfl

/-- `Get` of an entity that is not registered is the null pointer. -/
theorem get_of_notMem (h : p.base.WF) (he : et ∉ p.base.range) : p.get et = some none := by
  have hb : p.has et = some false := h.has_eq_false.mpr he
  simp [get, hb]

/-! ### Every call keeps the set well formed -/

theorem wf_assign (h : p.base.WF) {c : Ctor α} {r : Pool α w × Ending}
    (hs : p.assign et c = some r) : p.base.insert et = some r.1.base := by
  rcases hb : p.base.insert et with - | b
  · rw [assign_eq_none hb] at hs
    cases hs
  · obtain ⟨q, rfl, -, hq⟩ := assign_eq h hb c
    rw [hs, Option.some.injEq] at hq
    cases c <;> rw [hq]

theorem wf_assignOrReplace (h : p.base.WF) {c : Ctor α} {r : Pool α w × Ending}
    (hs : p.assignOrReplace et c = some r) : p.base.insert et = some r.1.base := by
  by_cases he : et ∈ p.base.range
  · rw [assignOrReplace_of_mem h he] at hs
    rw [base_replace hs, h.insert_of_mem he]
  · rw [assignOrReplace_of_notMem h he] at hs
    exact wf_assign h hs

theorem wf_step (h : p.base.WF) {op : Op α w} (hs : p.step op = some p') : p'.base.WF := by
  cases op with
  | assign et c =>
    obtain ⟨r, hr, rfl⟩ := Option.map_eq_some_iff.mp hs
    exact (h.insert_eq (wf_assign h hr)).1
  | replace et c =>
    obtain ⟨r, hr, rfl⟩ := Option.map_eq_some_iff.mp hs
    exact (base_replace hr).symm ▸ h
  | assignOrReplace et c =>
    obtain ⟨r, hr, rfl⟩ := Option.map_eq_some_iff.mp hs
    exact (h.insert_eq (wf_assignOrReplace h hr)).1
  | delete et =>
    obtain ⟨b, hb, rfl⟩ := delete_eq_some.mp hs
    exact h.erase hb
  | reset =>
    obtain rfl := Option.some.inj hs
    exact h.toShape.wf_clear
  | reserve count =>
    obtain rfl := Option.some.inj hs
    rw [base_reserve]
    exact h

theorem Reachable.wf (h : Reachable p) : p.base.WF := by
  obtain ⟨ops, hr⟩ := h
  exact Machine.run_invariant (I := fun p => p.base.WF) (P := fun _ _ => True)
    (fun _ _ _ hI _ hs => wf_step hI hs) SparseSet.wf_empty
    (Machine.Along.of_forall (fun _ _ => trivial) _ ops) hr

end Pool

end Indie
