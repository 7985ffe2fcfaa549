/-
Indie/Library/Vec.lean

Growable arrays with checked subscripts, and unsigned machine words used as
subscripts.

A plain `List` models an array whose capacity nobody reads: `l[i]?` is a read
and `write l i x` a write, both `none` outside the array; `resize` is the
truncating and padding resize of the C++ standard library.  `Vec` adds the
capacity, for code that reads it, with the fact that it bounds the length.

Words are `BitVec w`, so that their arithmetic is the machine's for every
width; `toNat_add_one` and `toNat_sub_one` say when it agrees with that of the
naturals.
-/
import Mathlib.Data.List.Basic
import Mathlib.Tactic

namespace Vec

variable {α : Type*}

/-! ### Checked writes and resizing -/

/-- Write one cell; `none` outside the array. -/
def write (l : List α) (i : ℕ) (x : α) : Option (List α) :=
  if i < l.length then some (l.set i x) else none

theorem write_of_lt {l : List α} {i : ℕ} (h : i < l.length) (x : α) :
    write l i x = some (l.set i x) := if_pos h

theorem write_eq_some {l l' : List α} {i : ℕ} {x : α} :
    write l i x = some l' ↔ i < l.length ∧ l' = l.set i x := by
  unfold write
  split <;> simp_all [eq_comm]

/-- Set the length: truncate, or pad with `x`. -/
def resize (l : List α) (n : ℕ) (x : α) : List α :=
  l.take n ++ List.replicate (n - l.length) x

@[simp] theorem length_resize (l : List α) (n : ℕ) (x : α) :
    (resize l n x).length = n := by
  simp only [resize, List.length_append, List.length_take, List.length_replicate]
  omega

/-- Growing an array keeps the cells it has. -/
theorem getElem?_resize_of_lt {l : List α} {n i : ℕ} (x : α) (hl : l.length ≤ n)
    (hi : i < l.length) : (resize l n x)[i]? = l[i]? := by
  rw [resize, List.take_of_length_le hl, List.getElem?_append_left hi]

theorem take_resize {l : List α} {n k : ℕ} (x : α) (hl : l.length ≤ n)
    (hk : k ≤ l.length) : (resize l n x).take k = l.take k := by
  rw [resize, List.take_of_length_le hl, List.take_append_of_le_length hk]

/-- The cells of an array with one cell appended. -/
theorem getElem?_concat_eq_some {l : List α} {a x : α} {j : ℕ} :
    (l ++ [a])[j]? = some x ↔ l[j]? = some x ∨ j = l.length ∧ x = a := by
  rcases lt_trichotomy j l.length with hlt | rfl | hgt
  · rw [List.getElem?_append_left hlt]
    exact ⟨.inl, fun h => h.resolve_right fun h => hlt.ne h.1⟩
  · rw [List.getElem?_concat_length, List.getElem?_eq_none le_rfl]
    simp [eq_comm]
  · have hlen : (l ++ [a]).length ≤ j := by
      rw [List.length_append]
      exact hgt
    rw [List.getElem?_eq_none hlen, List.getElem?_eq_none hgt.le]
    simp [hgt.ne']

/-! ### Words as subscripts -/

variable {w : ℕ}

theorem toNat_one (h : 1 < 2 ^ w) : (1 : BitVec w).toNat = 1 := by
  simp [Nat.mod_eq_of_lt h]

theorem toNat_add_one {x : BitVec w} (h : x.toNat + 1 < 2 ^ w) :
    (x + 1).toNat = x.toNat + 1 := by
  rw [BitVec.toNat_add, toNat_one (by omega), Nat.mod_eq_of_lt h]

theorem toNat_ofNat_add_one_le (i : ℕ) : (BitVec.ofNat w i + 1).toNat ≤ i + 1 := by
  have hone : (1 : BitVec w) = BitVec.ofNat w 1 := rfl
  rw [hone, ← BitVec.ofNat_add, BitVec.toNat_ofNat]
  exact Nat.mod_le _ _

theorem toNat_sub_one {x : BitVec w} (h : 0 < x.toNat) :
    (x - 1).toNat = x.toNat - 1 := by
  have hx := x.isLt
  rw [BitVec.toNat_sub, toNat_one (by omega),
    show 2 ^ w - 1 + x.toNat = 2 ^ w + (x.toNat - 1) by omega,
    Nat.add_mod_left, Nat.mod_eq_of_lt (by omega)]

theorem toNat_pos {x : BitVec w} (h : x ≠ 0) : 0 < x.toNat := by
  refine Nat.pos_of_ne_zero fun h0 => h ?_
  apply BitVec.eq_of_toNat_eq
  rw [h0]
  simp

theorem toNat_ofNat_of_lt {i : ℕ} {x : BitVec w} (h : i < x.toNat) :
    (BitVec.ofNat w i).toNat = i := by
  rw [BitVec.toNat_ofNat]
  exact Nat.mod_eq_of_lt (h.trans x.isLt)

end Vec

/-! ### Arrays with a capacity -/

/-- A growable array: its cells, and the storage it holds. -/
structure Vec (α : Type*) where
  data : List α
  capacity : ℕ
  length_le : data.length ≤ capacity

namespace Vec

variable {α : Type*}

/-- The empty array, without storage. -/
def empty : Vec α := ⟨[], 0, Nat.le_refl 0⟩

/-- Raise the capacity; a lower request does nothing. -/
def reserve (v : Vec α) (n : ℕ) : Vec α :=
  ⟨v.data, max v.capacity n, v.length_le.trans (Nat.le_max_left _ _)⟩

/-- Append a cell.  A full array doubles its storage first. -/
def emplaceBack (v : Vec α) (x : α) : Vec α where
  data := v.data ++ [x]
  capacity :=
    if v.data.length = v.capacity then v.data.length + max v.data.length 1
    else v.capacity
  length_le := by
    have h := v.length_le
    rw [List.length_append, List.length_singleton]
    split <;> omega

@[simp] theorem data_emplaceBack (v : Vec α) (x : α) :
    (v.emplaceBack x).data = v.data ++ [x] := rfl

/-- Drop every cell, keep the storage. -/
def clear (v : Vec α) : Vec α := ⟨[], v.capacity, Nat.zero_le _⟩

/-- Assign to one cell; `none` outside the array. -/
def set (v : Vec α) (i : ℕ) (x : α) : Option (Vec α) :=
  if i < v.data.length then
    some ⟨v.data.set i x, v.capacity, by simpa using v.length_le⟩
  else none

theorem set_eq_some {v v' : Vec α} {i : ℕ} {x : α} (h : v.set i x = some v') :
    i < v.data.length ∧ v'.data = v.data.set i x := by
  unfold set at h
  split at h
  · rename_i hi
    cases h
    exact ⟨hi, rfl⟩
  · cases h

theorem capacity_set {v v' : Vec α} {i : ℕ} {x : α} (h : v.set i x = some v') :
    v'.capacity = v.capacity := by
  unfold set at h
  split at h
  · cases h
    rfl
  · cases h

theorem set_of_lt {v : Vec α} {i : ℕ} (h : i < v.data.length) (x : α) :
    ∃ v', v.set i x = some v' ∧ v'.data = v.data.set i x :=
  ⟨_, if_pos h, rfl⟩

end Vec
