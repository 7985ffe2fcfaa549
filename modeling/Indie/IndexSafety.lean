/-
Indie/IndexSafety.lean

Index arithmetic at the limit of the element type.

Capacity, size and values share the type `T`, and arithmetic on it wraps.  The
two vectors keep the length `Capacity()`, which is at most the largest value of
`T`; so the largest value is never below the capacity.  `Has` and `Erase` check
that first and are safe for every argument.  `Insert` grows to `val + 1`, which
is zero for the largest value: nothing grows, and the writes fall outside
(`WF.insert_max`).  For every smaller value the invariant and the pigeonhole
argument of `WF.size_lt_of_notMem` keep all subscripts inside.
-/
import Indie.SetRefine

namespace Indie

namespace SparseSet

variable {w : ℕ} {s : SparseSet w} {val : BitVec w}

/-- What is to hold in a state for one further argument: the vectors have length
`Capacity()` and the size fits; `Has`, `Erase` and `Insert` subscript inside;
and after `Insert` the value is there. -/
structure IndexSafe (s : SparseSet w) (val : BitVec w) : Prop where
  shape : Shape s
  has : ∃ b, s.has val = some b
  erase : ∃ s', s.erase val = some s'
  insert : ∃ s', s.insert val = some s' ∧ s'.has val = some true

/-- In a well-formed set only the insertion of the largest value is unsafe. -/
theorem WF.indexSafe_iff (h : WF s) (val : BitVec w) :
    s.IndexSafe val ↔ val.toNat + 1 < 2 ^ w := by
  constructor
  · rintro ⟨-, -, -, s', hs, -⟩
    by_contra hmax
    rw [h.insert_max hmax] at hs
    cases hs
  · intro hval
    obtain ⟨s', hs⟩ := h.insert_defined hval
    refine ⟨h.toShape, h.has_defined val, h.erase_defined val, s', hs, ?_⟩
    exact (h.insert_eq hs).1.has_eq_true.mpr ((h.mem_insert hs).mpr (.inl rfl))

/-- A call on a well-formed set is defined exactly if it inserts no largest
value. -/
theorem WF.step_defined_iff (h : WF s) (op : Op w) :
    (∃ s', s.step op = some s') ↔ op.Fits := by
  constructor
  · rintro ⟨s', hs⟩
    cases op with
    | insert v =>
      by_contra hmax
      rw [SparseSet.step, h.insert_max hmax] at hs
      cases hs
    | erase v => trivial
    | clear => trivial
    | reserve n => trivial
  · intro hop
    obtain ⟨s', hs, -⟩ := h.step_defined hop
    exact ⟨s', hs⟩

/-- So is a run. -/
theorem WF.run_defined_iff (h : WF s) (ops : List (Op w)) :
    (∃ s', Machine.run SparseSet.step s ops = some s') ↔ ∀ op ∈ ops, op.Fits := by
  constructor
  · induction ops generalizing s with
    | nil => exact fun _ => List.forall_mem_nil _
    | cons op ops ih =>
      rintro ⟨s', hs⟩
      obtain ⟨a, ha, hs⟩ := Option.bind_eq_some_iff.mp hs
      exact List.forall_mem_cons.mpr ⟨(h.step_defined_iff op).mp ⟨a, ha⟩, ih (h.step ha) ⟨s', hs⟩⟩
  · intro hops
    obtain ⟨s', hs, -⟩ := h.run_defined hops
    exact ⟨s', hs⟩

/-- **Index arithmetic is safe exactly below the largest value.** A run of calls
with arbitrary arguments subscripts inside its vectors throughout, and so do
`Has`, `Erase` and `Insert` of any further value in the state it reaches, with
`Insert` leaving the value there, if and only if the largest value of `T` is
never inserted.  `Has` and `Erase` are safe for it as well. -/
theorem index_safe_iff (ops : List (Op w)) (val : BitVec w) :
    ((∃ s, Machine.run step empty ops = some s ∧ s.IndexSafe val) ↔
      (∀ op ∈ ops, op.Fits) ∧ val.toNat + 1 < 2 ^ w) ∧
    ∀ s, Machine.run step empty ops = some s →
      s.size.toNat ≤ s.capacity.toNat ∧
      s.dense.length = s.capacity.toNat ∧ s.sparse.length = s.capacity.toNat ∧
      (∃ b, s.has val = some b) ∧ ∃ s', s.erase val = some s' := by
  have hwf : ∀ s, Machine.run step empty ops = some s → WF s :=
    fun s hs => Reachable.wf ⟨ops, hs⟩
  refine ⟨?_, fun s hs => ?_⟩
  · rw [← wf_empty.run_defined_iff ops]
    constructor
    · rintro ⟨s, hs, hsafe⟩
      exact ⟨⟨s, hs⟩, ((hwf s hs).indexSafe_iff val).mp hsafe⟩
    · rintro ⟨⟨s, hs⟩, hval⟩
      exact ⟨s, hs, ((hwf s hs).indexSafe_iff val).mpr hval⟩
  · have h := hwf s hs
    exact ⟨h.size_le, h.dense_length, h.sparse_length, h.has_defined val, h.erase_defined val⟩

/-- A set of bytes that is full up to its capacity, and the largest byte. -/
theorem index_safe_iff_bytes :
    let s : SparseSet 8 := ⟨[1, 0], [1, 0], 2, 2⟩
    s.size.toNat ≤ s.capacity.toNat ∧ (∃ b, s.has 255 = some b) ∧
      ∃ s', s.erase 255 = some s' := by
  intro s
  obtain ⟨-, h⟩ := index_safe_iff [.insert 1, .insert 0] (255 : BitVec 8)
  obtain ⟨hsize, -, -, hhas, herase⟩ := h s (by decide)
  exact ⟨hsize, hhas, herase⟩

/-- Inserting the largest byte, in a new set and in one of the greatest
capacity, writes outside. -/
theorem insert_largest_outside :
    Reachable (empty : SparseSet 8) ∧ (empty : SparseSet 8).insert 255 = none ∧
      Reachable ((empty : SparseSet 8).reserve 255) ∧
      ((empty : SparseSet 8).reserve 255).insert 255 = none ∧
      ¬ (empty : SparseSet 8).IndexSafe 255 := by
  have hnone : (empty : SparseSet 8).insert 255 = none := by decide
  refine ⟨⟨[], rfl⟩, hnone, ⟨[.reserve 255], rfl⟩, ?_, fun h => ?_⟩
  · exact (wf_empty.reserve 255).insert_max (by decide)
  · obtain ⟨s', hs, -⟩ := h.insert
    rw [hnone] at hs
    cases hs

end SparseSet

end Indie
