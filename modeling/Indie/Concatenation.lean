/-
Indie/Concatenation.lean

When concatenation adds up sizes.

`TypeListCat` and `TupleCat` put the written arguments of two lists in a row,
and `Has` looks at the written arguments, so `Has` of the result is always that
of either list (`hasLaw`).  `Size` is inherited, and where a list derives from
another one it is not the number of written arguments.  That happens in two
ways: a list to begin with is two type lists (for tuples: one), whose elements
are counted as such and lose that in the longer list; or two lists of one type
list each become, put together, the two type lists that are merged.

`TypeListSizesAdd` and `TupleSizesAdd` say when the numbers agree after all, and
they are exact (`cat_homomorphism_iff`).
-/
import Indie.TypeList

namespace Indie

namespace Meta

variable {α : Type} {A B X Y : List (Ty α)}

/-! ### The two laws -/

/-- The size of the concatenation is the sum of the sizes. -/
def SizeLaw (cat : Ty α → Ty α → Option (Ty α)) (A B : Ty α) : Prop :=
  ∃ C a b, cat A B = some C ∧ A.size = some a ∧ B.size = some b ∧ C.size = some (a + b)

/-- The concatenation has a type exactly if one of the two has it. -/
def HasLaw (cat : Ty α → Ty α → Option (Ty α)) (has : Ty α → Ty α → Option Bool)
    (T A B : Ty α) : Prop :=
  ∃ C a b c, cat A B = some C ∧ has T A = some a ∧ has T B = some b ∧ has T C = some c ∧
    (c = true ↔ a = true ∨ b = true)

/-- `Has` of written arguments distributes over putting them in a row. -/
theorem hasLaw [DecidableEq α] {cat : Ty α → Ty α → Option (Ty α)}
    {has : Ty α → Ty α → Option Bool} {S : List (Ty α) → Ty α}
    (hcat : cat (S A) (S B) = some (S (A ++ B)))
    (hhas : ∀ T types, has T (S types) = some (packHas T types)) (T : Ty α) :
    HasLaw cat has T (S A) (S B) := by
  refine ⟨_, _, _, _, hcat, hhas T A, hhas T B, hhas T (A ++ B), ?_⟩
  rw [packHas_append, Bool.or_eq_true]

/-- The law of sizes, in numbers of arguments of the primary templates. -/
theorem sizeLaw_iff {cat : Ty α → Ty α → Option (Ty α)} {S : List (Ty α) → Ty α}
    {base : List (Ty α) → List (Ty α)} (hcat : cat (S A) (S B) = some (S (A ++ B)))
    (hsize : ∀ types, (S types).size = sizeConstant (base types).length) :
    SizeLaw cat (S A) (S B) ↔
      (base (A ++ B)).length < 2 ^ 16 ∧
        (base (A ++ B)).length = (base A).length + (base B).length := by
  constructor
  · rintro ⟨C, a, b, hC, ha, hb, hab⟩
    obtain rfl := Option.some.inj (hcat.symm.trans hC)
    rw [hsize, sizeConstant_eq_some] at ha hb hab
    obtain ⟨-, rfl⟩ := ha
    obtain ⟨-, rfl⟩ := hb
    exact hab
  · rintro ⟨hlt, heq⟩
    refine ⟨_, (base A).length, (base B).length, hcat, ?_, ?_, ?_⟩
    · rw [hsize, sizeConstant_eq_some]
      exact ⟨by omega, rfl⟩
    · rw [hsize, sizeConstant_eq_some]
      exact ⟨by omega, rfl⟩
    · rw [hsize, sizeConstant_eq_some]
      exact ⟨hlt, heq⟩

/-! ### When the sizes add up -/

/-- One of the lists is empty, and the other one has a size; or they are single
type lists, whose elements together count as two; or the numbers counted in the
two lists add up to those written. -/
def TypeListSizesAdd : List (Ty α) → List (Ty α) → Prop
  | [], B => (typeListBase B).length < 2 ^ 16
  | A, [] => (typeListBase A).length < 2 ^ 16
  | [.typeList X], [.typeList Y] => (typeListBase (X ++ Y)).length = 2
  | A, B => (typeListBase A).length + (typeListBase B).length = A.length + B.length

/-- One of the tuples is empty, and the other one has a size; or the numbers
stored in the two tuples add up to those written. -/
def TupleSizesAdd : List (Ty α) → List (Ty α) → Prop
  | [], B => (tupleBase B).length < 2 ^ 16
  | A, [] => (tupleBase A).length < 2 ^ 16
  | A, B => (tupleBase A).length + (tupleBase B).length = A.length + B.length

/-- Put together, two lists are two type lists exactly if each is one. -/
theorem append_eq_pair (hA : A ≠ []) (hB : B ≠ []) {S T : Ty α} (h : A ++ B = [S, T]) :
    A = [S] ∧ B = [T] := by
  have hlen : A.length + B.length = 2 := by
    rw [← List.length_append, h]
    rfl
  have hA' := List.length_pos_iff.mpr hA
  have hB' := List.length_pos_iff.mpr hB
  exact List.append_inj (h : A ++ B = [S] ++ [T]) (by show A.length = 1; omega)

theorem sizeLaw_typeListCat (hlt : A.length + B.length < 2 ^ 16) :
    SizeLaw typeListCat (.typeList A) (.typeList B) ↔ TypeListSizesAdd A B := by
  rw [sizeLaw_iff (S := .typeList) rfl fun _ => rfl]
  fun_cases TypeListSizesAdd A B with
  | case1 B => simp
  | case2 A => simp
  | case3 X Y =>
    show (typeListBase [.typeList X, .typeList Y]).length < _ ∧
      (typeListBase [.typeList X, .typeList Y]).length = _ ↔ _
    rw [typeListBase_pair, typeListBase_single, typeListBase_single]
    show _ ∧ _ = 1 + 1 ↔ _
    omega
  | case4 A B hA hB hpair =>
    -- the result is not two type lists, so it is its own base
    have hbase : typeListBase (A ++ B) = A ++ B := typeListBase_of_ne fun X Y h => by
      obtain ⟨rfl, rfl⟩ := append_eq_pair hA hB h
      exact hpair X Y rfl rfl
    rw [hbase, List.length_append]
    omega

theorem sizeLaw_tupleCat (hlt : A.length + B.length < 2 ^ 16) :
    SizeLaw tupleCat (.tuple A) (.tuple B) ↔ TupleSizesAdd A B := by
  rw [sizeLaw_iff (S := .tuple) rfl fun _ => rfl]
  fun_cases TupleSizesAdd A B with
  | case1 B => simp
  | case2 A => simp
  | case3 A B hA hB =>
    have hA' := List.length_pos_iff.mpr hA
    have hB' := List.length_pos_iff.mpr hB
    have hlen : (A ++ B).length ≠ 1 := by
      rw [List.length_append]
      omega
    rw [tupleBase_of_length_ne hlen, List.length_append]
    omega

/-- **Has is a homomorphism, and Size exactly if the sizes add up.**  For all
lists `A` and `B` of types, fewer than 65536 together, as type lists and as
tuples: the concatenation has a type if and only if `A` or `B` has it; and its
size is the sum of the sizes if and only if `TypeListSizesAdd`, for tuples
`TupleSizesAdd`. -/
theorem cat_homomorphism_iff [DecidableEq α] (A B : List (Ty α))
    (hlt : A.length + B.length < 2 ^ 16) :
    ((∀ T, HasLaw typeListCat typeListHas T (.typeList A) (.typeList B)) ∧
        (SizeLaw typeListCat (.typeList A) (.typeList B) ↔ TypeListSizesAdd A B)) ∧
      (∀ T, HasLaw tupleCat tupleHas T (.tuple A) (.tuple B)) ∧
        (SizeLaw tupleCat (.tuple A) (.tuple B) ↔ TupleSizesAdd A B) :=
  ⟨⟨hasLaw (S := .typeList) rfl fun _ _ => rfl, sizeLaw_typeListCat hlt⟩,
    hasLaw (S := .tuple) rfl fun _ _ => rfl, sizeLaw_tupleCat hlt⟩

theorem cat_homomorphism_iff_tests :
    let A : List (Ty ℕ) := [.atom 0, .atom 1]
    let B : List (Ty ℕ) := [.atom 0, .atom 1, .atom 2]
    ((∀ T, HasLaw typeListCat typeListHas T (.typeList A) (.typeList B)) ∧
        (SizeLaw typeListCat (.typeList A) (.typeList B) ↔ TypeListSizesAdd A B)) ∧
      (∀ T, HasLaw tupleCat tupleHas T (.tuple A) (.tuple B)) ∧
        (SizeLaw tupleCat (.tuple A) (.tuple B) ↔ TupleSizesAdd A B) :=
  cat_homomorphism_iff _ _ (by decide)

/-- `TypeList<TypeList<>>` twice: the result has the type `TypeList<>`, and the
size 0.  And `Tuple<TypeList<>>`, of size 0, counts as one element of a longer
tuple. -/
theorem cat_single_lists :
    let A : Ty ℕ := .typeList [.typeList []]
    let C : Ty ℕ := .typeList [.typeList [], .typeList []]
    let D : Ty ℕ := .tuple [.typeList []]
    let E : Ty ℕ := .tuple [.atom 0]
    (typeListCat A A = some C ∧ A.size = some 1 ∧ C.size = some 0 ∧
        typeListHas (.typeList []) C = some true ∧ ¬ SizeLaw typeListCat A A) ∧
      D.size = some 0 ∧ ¬ SizeLaw tupleCat D E := by
  refine ⟨⟨rfl, ?_, ?_, rfl, ?_⟩, ?_, ?_⟩
  · rw [Ty.size, typeListBase_single]
    rfl
  · rw [Ty.size, typeListBase_pair, List.append_nil, typeListBase_nil]
    rfl
  · rw [sizeLaw_typeListCat (by decide), TypeListSizesAdd, List.append_nil, typeListBase_nil]
    decide
  · rw [Ty.size, tupleBase_single, tupleBase_nil]
    rfl
  · rw [sizeLaw_tupleCat (by decide), TupleSizesAdd, tupleBase_single, tupleBase_nil,
      tupleBase_of_ne (by simp)]
    all_goals simp

end Meta

end Indie
