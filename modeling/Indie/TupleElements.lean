/-
Indie/TupleElements.lean

When `TupleHas` and `TupleIndex` describe what a tuple stores.

Both look at the written arguments.  The elements, and with them `Size`, are
those of the `std::tuple` at the end of the chain of base classes, which for
`Tuple<TypeList<...>>` are the elements of the type list.  So on a tuple of one
type list the two answer for the type list, which is not stored, and deny the
types that are (`describes_iff`); on every other tuple they describe what is
stored (`describes_of_ne`).  The pools of a filter are pointers, and
`CheckComponents` is right about them (`describes_of_notMem`).
-/
import Indie.TypeList

namespace Indie

namespace Meta

variable {α : Type} [DecidableEq α] {types X : List (Ty α)} {T : Ty α}

/-- `TupleHas` and `TupleIndex` are about the elements: one is stored exactly if
it is found, and its index is the first position, below `Size`. -/
def Describes (T : Ty α) (types : List (Ty α)) : Prop :=
  (tupleHas T (.tuple types) = some true ↔ T ∈ tupleBase types) ∧
    ((tupleIndex T (.tuple types)).isSome ↔ T ∈ tupleBase types) ∧
    ∀ v, tupleIndex T (.tuple types) = some v →
      (tupleBase types)[v]? = some T ∧ (∀ j < v, (tupleBase types)[j]? ≠ some T) ∧
        ∃ n, (Ty.tuple types).size = some n ∧ v < n

theorem tupleHas_eq_true : tupleHas T (.tuple types) = some true ↔ T ∈ types := by
  rw [tupleHas, Option.some.injEq, packHas_eq_true]

theorem tupleIndex_isSome : (tupleIndex T (.tuple types)).isSome ↔ T ∈ types := packIndex_isSome

/-- A tuple that is not of one type list is described. -/
theorem describes_of_ne (h : ∀ X, types ≠ [.typeList X]) (hlt : types.length < 2 ^ 16)
    (T : Ty α) : Describes T types := by
  rw [Describes, Ty.size, tupleBase_of_ne h]
  refine ⟨tupleHas_eq_true, tupleIndex_isSome, fun v hv => ?_⟩
  obtain ⟨hget, hfirst⟩ := packIndex_eq_some hlt hv
  have hv' : v < types.length := (List.getElem?_eq_some_iff.mp hget).1
  exact ⟨hget, hfirst, types.length, sizeConstant_eq_some.mpr ⟨hlt, rfl⟩, hv'⟩

theorem describes_of_notMem (h : ∀ X, .typeList X ∉ types) (hlt : types.length < 2 ^ 16)
    (T : Ty α) : Describes T types := by
  refine describes_of_ne (fun X he => h X ?_) hlt T
  rw [he]
  exact List.mem_singleton_self _

omit [DecidableEq α] in
/-- What a tuple stores is written in its arguments. -/
theorem sizeOf_lt_of_mem_tupleBase (h : T ∈ tupleBase types) : sizeOf T < sizeOf types := by
  induction types using tupleBase.induct with
  | case1 X ih =>
    rw [tupleBase_single] at h
    have := ih h
    simp only [List.cons.sizeOf_spec, Ty.typeList.sizeOf_spec, List.nil.sizeOf_spec]
    omega
  | case2 types hne =>
    rw [tupleBase_of_ne hne] at h
    exact List.sizeOf_lt_of_mem h

omit [DecidableEq α] in
/-- A type list is not stored in the tuple it stands for. -/
theorem typeList_notMem_tupleBase (X : List (Ty α)) : .typeList X ∉ tupleBase X := by
  intro h
  have := sizeOf_lt_of_mem_tupleBase h
  simp only [Ty.typeList.sizeOf_spec] at this
  omega

/-- On a tuple of one type list, only the types it neither names nor stores are
described. -/
theorem describes_single_iff :
    Describes T [.typeList X] ↔ T ≠ .typeList X ∧ T ∉ tupleBase X := by
  rw [Describes, tupleHas_eq_true, tupleIndex_isSome, tupleBase_single, List.mem_singleton]
  constructor
  · rintro ⟨hhas, -, -⟩
    have hne : T ≠ .typeList X := fun he => typeList_notMem_tupleBase X (he ▸ hhas.mp he)
    exact ⟨hne, fun hmem => hne (hhas.mpr hmem)⟩
  · rintro ⟨hne, hmem⟩
    refine ⟨iff_of_false hne hmem, iff_of_false hne hmem, fun v hv => ?_⟩
    have hsome : (tupleIndex T (.tuple [.typeList X])).isSome := by
      rw [hv]
      rfl
    exact absurd (List.mem_singleton.mp (tupleIndex_isSome.mp hsome)) hne

/-- **Has and Index describe the elements exactly unless a type list was
unwrapped.**  For every tuple of fewer than 65536 elements and every type:
`TupleHas` and `TupleIndex` say what is stored, and where first, if and only if
the tuple is not of one type list, or the type is neither that list nor an
element. -/
theorem describes_iff (T : Ty α) (types : List (Ty α)) (hlt : (tupleBase types).length < 2 ^ 16) :
    Describes T types ↔ ∀ X, types = [.typeList X] → T ≠ .typeList X ∧ T ∉ tupleBase X := by
  by_cases h : ∃ X, types = [.typeList X]
  · obtain ⟨X, rfl⟩ := h
    rw [describes_single_iff]
    refine ⟨fun hX Y hY => ?_, fun hX => hX X rfl⟩
    obtain rfl : X = Y := by simpa using hY
    exact hX
  · have hne : ∀ X, types ≠ [.typeList X] := fun X he => h ⟨X, he⟩
    rw [tupleBase_of_ne hne] at hlt
    exact iff_of_true (describes_of_ne hne hlt T) fun X he => absurd he (hne X)

theorem describes_iff_pair :
    let types : List (Ty ℕ) := [.atom 0, .atom 1, .atom 1]
    Describes (.atom 1) types ↔
      ∀ X, types = [.typeList X] → .atom 1 ≠ Ty.typeList X ∧ .atom 1 ∉ tupleBase X :=
  describes_iff _ _ (by rw [tupleBase_of_length_ne] <;> decide)

/-- `Tuple<TypeList<T>>` stores a `T` and has the size 1, but `TupleHas` denies
the `T`, and finds `TypeList<T>` in it. -/
theorem tupleHas_unwrapped :
    let T : Ty ℕ := .atom 0
    let tup : List (Ty ℕ) := [.typeList [T]]
    tupleBase tup = [T] ∧ (Ty.tuple tup).size = some 1 ∧
      tupleHas T (.tuple tup) = some false ∧ tupleIndex T (.tuple tup) = none ∧
      tupleHas (.typeList [T]) (.tuple tup) = some true ∧
      ¬ Describes T tup ∧ ¬ Describes (.typeList [T]) tup := by
  have hbase : tupleBase [.typeList [.atom 0]] = [(.atom 0 : Ty ℕ)] := by
    rw [tupleBase_single, tupleBase_of_ne (by simp)]
  refine ⟨hbase, by rw [Ty.size, hbase]; rfl, by decide, by decide, by decide, ?_, ?_⟩
  · rw [describes_single_iff, tupleBase_of_ne (by simp)]
    simp
  · rw [describes_single_iff]
    simp

end Meta

end Indie
