/-
Indie/TypeList.lean

The type lists and tuples of `meta/TypeList.hpp` and `meta/Tuple.hpp`.

A template is a function on type expressions, undefined where no definition or
specialisation matches.  Where several specialisations match, the most
specialised is chosen; so it comes first here.

`TypeList` and `Tuple` each have one specialisation that derives from another
instance of the template: `TypeList` of two type lists from the list of their
elements, `Tuple` of one type list from the tuple of its elements.  What a type
inherits is that of the primary template at the end of this chain
(`typeListBase`, `tupleBase`).  `Has`, `Cat` and `TupleIndex` match the written
arguments instead.
-/
import Mathlib.Data.List.Basic
import Mathlib.Tactic

namespace Indie

namespace Meta

/-- A type expression: any other type, or one of the two templates with its
arguments. -/
inductive Ty (α : Type)
  | atom (a : α)
  | typeList (types : List (Ty α))
  | tuple (types : List (Ty α))

variable {α : Type}

/-! ### Equality of types -/

mutual

def Ty.decEq [DecidableEq α] : (S T : Ty α) → Decidable (S = T)
  | .atom a, .atom b => decidable_of_iff (a = b) (by simp)
  | .typeList A, .typeList B =>
    have := Ty.decEqPack A B
    decidable_of_iff (A = B) (by simp)
  | .tuple A, .tuple B =>
    have := Ty.decEqPack A B
    decidable_of_iff (A = B) (by simp)
  | .atom _, .typeList _ | .atom _, .tuple _ | .typeList _, .atom _ | .typeList _, .tuple _
  | .tuple _, .atom _ | .tuple _, .typeList _ => isFalse (by simp)

def Ty.decEqPack [DecidableEq α] : (A B : List (Ty α)) → Decidable (A = B)
  | [], [] => isTrue rfl
  | [], _ :: _ | _ :: _, [] => isFalse (by simp)
  | S :: A, T :: B =>
    have := Ty.decEq S T
    have := Ty.decEqPack A B
    decidable_of_iff (S = T ∧ A = B) (by simp)

end

instance [DecidableEq α] : DecidableEq (Ty α) := Ty.decEq

/-! ### The chain of base classes -/

theorem sizeOf_append (A B : List (Ty α)) : sizeOf (A ++ B) + 1 = sizeOf A + sizeOf B := by
  induction A with
  | nil =>
    show sizeOf B + 1 = 1 + sizeOf B
    omega
  | cons T A ih =>
    show 1 + sizeOf T + sizeOf (A ++ B) + 1 = 1 + sizeOf T + sizeOf A + sizeOf B
    omega

/-- The primary `TypeList` that `TypeList<types...>` is or derives from. -/
def typeListBase : List (Ty α) → List (Ty α)
  | [.typeList A, .typeList B] => typeListBase (A ++ B)
  | types => types
termination_by types => sizeOf types
decreasing_by
  have := sizeOf_append A B
  simp only [List.cons.sizeOf_spec, Ty.typeList.sizeOf_spec, List.nil.sizeOf_spec]
  omega

/-- The element types of the `std::tuple` that `Tuple<types...>` derives from. -/
def tupleBase : List (Ty α) → List (Ty α)
  | [.typeList types] => tupleBase types
  | types => types

/-- `std::integral_constant<uint16_t, n>`: a narrowing conversion is an
error. -/
def sizeConstant (n : ℕ) : Option ℕ := if n < 2 ^ 16 then some n else none

/-- The member `Size`. -/
def Ty.size : Ty α → Option ℕ
  | .typeList types => sizeConstant (typeListBase types).length
  | .tuple types => sizeConstant (tupleBase types).length
  | .atom _ => none

/-! ### Has, Cat and Index -/

section Templates

variable [DecidableEq α]

/-- The recursion of `TypeListHas` and `TupleHas` over the arguments. -/
def packHas (T : Ty α) : List (Ty α) → Bool
  | [] => false
  | U :: types => if T = U then true else packHas T types

/-- `TypeListHas<T, L>`. -/
def typeListHas (T : Ty α) : Ty α → Option Bool
  | .typeList types => some (packHas T types)
  | _ => none

/-- `TupleHas<T, Tup>`. -/
def tupleHas (T : Ty α) : Ty α → Option Bool
  | .tuple types => some (packHas T types)
  | _ => none

omit [DecidableEq α] in
/-- `TypeListCat<A, B>::Type`. -/
def typeListCat : Ty α → Ty α → Option (Ty α)
  | .typeList A, .typeList B => some (.typeList (A ++ B))
  | T, .typeList types => some (.typeList (types ++ [T]))
  | _, _ => none

omit [DecidableEq α] in
/-- `TupleCat<A, B>::Type`. -/
def tupleCat : Ty α → Ty α → Option (Ty α)
  | .tuple A, .tuple B => some (.tuple (A ++ B))
  | T, .tuple types => some (.tuple (types ++ [T]))
  | _, _ => none

/-- The recursion of `TupleIndex`: one more than the index in the rest, cut to
`uint16_t`. -/
def packIndex (T : Ty α) : List (Ty α) → Option ℕ
  | [] => none
  | U :: types => if T = U then some 0 else (packIndex T types).map fun v => (1 + v) % 2 ^ 16

/-- `TupleIndex<T, Tup>::Value`. -/
def tupleIndex (T : Ty α) : Ty α → Option ℕ
  | .tuple types => packIndex T types
  | _ => none

end Templates

/-! ### Base classes -/

variable {A B X Y types : List (Ty α)} {T : Ty α}

theorem typeListBase_pair (X Y : List (Ty α)) :
    typeListBase [.typeList X, .typeList Y] = typeListBase (X ++ Y) := by
  rw [typeListBase]

/-- A list that is not two type lists is its own base. -/
theorem typeListBase_of_ne (h : ∀ X Y, types ≠ [.typeList X, .typeList Y]) :
    typeListBase types = types := by
  rw [typeListBase]
  exact h

theorem typeListBase_of_length_ne (h : types.length ≠ 2) : typeListBase types = types :=
  typeListBase_of_ne fun _ _ he => h (he ▸ rfl)

@[simp] theorem typeListBase_nil : typeListBase ([] : List (Ty α)) = [] :=
  typeListBase_of_length_ne (by simp)

theorem typeListBase_single (T : Ty α) : typeListBase [T] = [T] :=
  typeListBase_of_length_ne (by simp)

theorem tupleBase_single (X : List (Ty α)) : tupleBase [.typeList X] = tupleBase X := by
  rw [tupleBase]

/-- A tuple not of one type list has its own elements. -/
theorem tupleBase_of_ne (h : ∀ X, types ≠ [.typeList X]) : tupleBase types = types := by
  rw [tupleBase]
  exact h

theorem tupleBase_of_length_ne (h : types.length ≠ 1) : tupleBase types = types :=
  tupleBase_of_ne fun _ he => h (he ▸ rfl)

@[simp] theorem tupleBase_nil : tupleBase ([] : List (Ty α)) = [] :=
  tupleBase_of_length_ne (by simp)

theorem sizeConstant_eq_some {n m : ℕ} : sizeConstant n = some m ↔ n < 2 ^ 16 ∧ n = m := by
  rw [sizeConstant]
  split
  · rename_i hn
    simp only [hn, true_and, Option.some.injEq]
  · rename_i hn
    simp only [hn, false_and, reduceCtorEq]

/-! ### What Has and Index match -/

variable [DecidableEq α]

theorem packHas_eq_true : packHas T types = true ↔ T ∈ types := by
  induction types with
  | nil => simp [packHas]
  | cons U types ih =>
    rw [packHas, List.mem_cons]
    split
    · simp [*]
    · simp [*]

theorem packHas_append (T : Ty α) (A B : List (Ty α)) :
    packHas T (A ++ B) = (packHas T A || packHas T B) := by
  rw [Bool.eq_iff_iff, Bool.or_eq_true, packHas_eq_true, packHas_eq_true, packHas_eq_true,
    List.mem_append]

/-- The index is defined for the types that are matched. -/
theorem packIndex_isSome : (packIndex T types).isSome ↔ T ∈ types := by
  induction types with
  | nil => simp [packIndex]
  | cons U types ih =>
    rw [packIndex, List.mem_cons]
    split
    · simp [*]
    · rw [Option.isSome_map, ih]
      simp [*]

/-- Up to `uint16_t` the index is the first position. -/
theorem packIndex_eq_some {v : ℕ} (hlt : types.length < 2 ^ 16) (h : packIndex T types = some v) :
    types[v]? = some T ∧ ∀ j < v, types[j]? ≠ some T := by
  induction types generalizing v with
  | nil => cases h
  | cons U types ih =>
    rw [List.length_cons] at hlt
    rw [packIndex] at h
    split at h
    · obtain rfl := Option.some.inj h
      exact ⟨by simp [*], fun j hj => absurd hj j.not_lt_zero⟩
    · rename_i hne
      obtain ⟨u, hu, rfl⟩ := Option.map_eq_some_iff.mp h
      obtain ⟨hget, hfirst⟩ := ih (by omega) hu
      have hu' : u < types.length := (List.getElem?_eq_some_iff.mp hget).1
      rw [Nat.mod_eq_of_lt (by omega), Nat.add_comm 1 u]
      refine ⟨hget, fun j hj => ?_⟩
      cases j with
      | zero => exact fun he => hne (Option.some.inj he).symm
      | succ j => exact hfirst j (Nat.succ_lt_succ_iff.mp hj)

end Meta

end Indie
