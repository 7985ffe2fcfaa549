/-
Indie/SparseSetWF.lean

The representation invariant of the sparse set, and one specification lemma
for each member under it.

`Shape` says that the two vectors have the length `Capacity()` and that the
size fits.  `WF` adds that `_sparse` inverts `_dense` on the range
`Begin()..End()`; the contents beyond the range and the cells of `_sparse`
that belong to no element are arbitrary.  Under `WF` a member acts on the
range alone:

    Has(v)      asks whether `v` is in the range          (`WF.has_eq`)
    Insert(v)   appends `v` unless it is there            (`WF.insert_eq`)
    Erase(v)    swap-removes `v` if it is there           (`WF.erase_eq`)
    IndexOf(v)  is the position of `v`                    (`WF.indexOf_eq`)

The subscripts of `Insert` stay inside by a pigeonhole argument
(`WF.size_lt_of_notMem`): distinct values below the capacity that miss `v`
leave a free slot.
-/
import Indie.SparseSet
import Indie.Library.SwapList

namespace Indie

namespace SparseSet

variable {w : ℕ} {s s' : SparseSet w} {v x : BitVec w} {i : ℕ}

/-- Both vectors have length `Capacity()`, and the size fits. -/
structure Shape (s : SparseSet w) : Prop where
  dense_length : s.dense.length = s.capacity.toNat
  sparse_length : s.sparse.length = s.capacity.toNat
  size_le : s.size.toNat ≤ s.capacity.toNat

/-- The representation invariant: `_sparse` inverts `_dense` on the range. -/
structure WF (s : SparseSet w) : Prop extends Shape s where
  sparse_dense : ∀ {i v}, s.range[i]? = some v →
    s.sparse[v.toNat]? = some (BitVec.ofNat w i)

/-! ### The range -/

theorem Shape.length_range (h : Shape s) : s.range.length = s.size.toNat :=
  List.length_take_of_le (h.size_le.trans h.dense_length.ge)

theorem Shape.getElem?_range (h : Shape s) :
    s.range[i]? = some v ↔ i < s.size.toNat ∧ s.dense[i]? = some v := by
  constructor
  · intro hv
    have hi : i < s.size.toNat :=
      h.length_range ▸ (List.getElem?_eq_some_iff.mp hv).1
    exact ⟨hi, by rwa [range, List.getElem?_take_of_lt hi] at hv⟩
  · rintro ⟨hi, hv⟩
    rwa [range, List.getElem?_take_of_lt hi]

theorem Shape.isEmpty_iff (h : Shape s) : s.isEmpty ↔ ∀ x, x ∉ s.range := by
  rw [isEmpty, beq_iff_eq, ← List.eq_nil_iff_forall_not_mem, ← List.length_eq_zero_iff,
    h.length_range, ← BitVec.toNat_inj]
  simp

/-- Every slot of the range holds an element. -/
theorem Shape.exists_getElem?_range (h : Shape s) (hi : i < s.size.toNat) :
    ∃ v, s.range[i]? = some v :=
  ⟨_, List.getElem?_eq_getElem (h.length_range ▸ hi)⟩

theorem WF.indexOf_eq (h : WF s) (hv : s.range[i]? = some v) :
    s.indexOf v = some (BitVec.ofNat w i) := h.sparse_dense hv

theorem Shape.toNat_ofNat (h : Shape s) (hv : s.range[i]? = some v) :
    (BitVec.ofNat w i).toNat = i :=
  Vec.toNat_ofNat_of_lt (h.getElem?_range.mp hv).1

/-- An element stands in one slot. -/
theorem WF.slot_inj (h : WF s) {i j : ℕ} (hi : s.range[i]? = some v)
    (hj : s.range[j]? = some v) : i = j := by
  have key := (h.sparse_dense hi).symm.trans (h.sparse_dense hj)
  rw [← h.toNat_ofNat hi, ← h.toNat_ofNat hj, Option.some.inj key]

/-- No element occurs twice in the range: `_sparse` knows its slot. -/
theorem WF.range_nodup (h : WF s) : s.range.Nodup := by
  rw [List.Nodup, List.pairwise_iff_getElem]
  intro i j hi hj hij e
  have hj' : s.range[j]? = some s.range[i] := by rw [e]; exact List.getElem?_eq_getElem hj
  exact hij.ne (h.slot_inj (List.getElem?_eq_getElem hi) hj')

/-- The elements are below the capacity. -/
theorem WF.lt_capacity (h : WF s) (hv : v ∈ s.range) : v.toNat < s.capacity.toNat := by
  obtain ⟨i, hi⟩ := List.getElem?_of_mem hv
  have hs := (List.getElem?_eq_some_iff.mp (h.sparse_dense hi)).1
  rwa [h.sparse_length] at hs

/-- An element is below the largest value of `T`. -/
theorem WF.lt_max (h : WF s) (hv : v ∈ s.range) : v.toNat + 1 < 2 ^ w := by
  have := h.lt_capacity hv
  have := s.capacity.isLt
  omega

/-! ### The empty set, `Clear` and `Reserve` -/

theorem wf_empty : WF (empty : SparseSet w) where
  dense_length := by simp [empty]
  sparse_length := by simp [empty]
  size_le := by simp [empty]
  sparse_dense := by
    intro i v hv
    simp [empty, range] at hv

@[simp] theorem range_empty : (empty : SparseSet w).range = [] := by simp [empty, range]

@[simp] theorem range_clear (s : SparseSet w) : s.clear.range = [] := by simp [clear, range]

theorem Shape.clear (h : Shape s) : Shape s.clear where
  dense_length := h.dense_length
  sparse_length := h.sparse_length
  size_le := by simp [SparseSet.clear]

/-- Whatever `Clear` leaves behind, the set is well formed. -/
theorem Shape.wf_clear (h : Shape s) : WF s.clear where
  toShape := h.clear
  sparse_dense := by
    intro i v hv
    rw [range_clear] at hv
    cases hv

theorem Shape.reserve (h : Shape s) (n : BitVec w) : Shape (s.reserve n) := by
  unfold SparseSet.reserve
  split
  · rename_i hn
    rw [BitVec.lt_def] at hn
    exact ⟨Vec.length_resize .., Vec.length_resize .., h.size_le.trans hn.le⟩
  · exact h

@[simp] theorem size_reserve (s : SparseSet w) (n : BitVec w) :
    (s.reserve n).size = s.size := by
  unfold reserve
  split <;> rfl

theorem le_capacity_reserve (s : SparseSet w) (n : BitVec w) :
    s.capacity.toNat ≤ (s.reserve n).capacity.toNat ∧
      n.toNat ≤ (s.reserve n).capacity.toNat := by
  unfold reserve
  split
  · rename_i hn
    exact ⟨(BitVec.lt_def.mp hn).le, le_rfl⟩
  · rename_i hn
    rw [BitVec.lt_def] at hn
    exact ⟨le_rfl, Nat.le_of_not_lt hn⟩

/-- Reserving keeps the cells both vectors have. -/
theorem Shape.getElem?_reserve (h : Shape s) (n : BitVec w) (hi : i < s.capacity.toNat) :
    (s.reserve n).dense[i]? = s.dense[i]? ∧ (s.reserve n).sparse[i]? = s.sparse[i]? := by
  unfold SparseSet.reserve
  split
  · rename_i hn
    rw [BitVec.lt_def] at hn
    exact ⟨Vec.getElem?_resize_of_lt _ (h.dense_length.trans_le hn.le) (h.dense_length ▸ hi),
      Vec.getElem?_resize_of_lt _ (h.sparse_length.trans_le hn.le) (h.sparse_length ▸ hi)⟩
  · exact ⟨rfl, rfl⟩

theorem Shape.range_reserve (h : Shape s) (n : BitVec w) :
    (s.reserve n).range = s.range := by
  unfold SparseSet.reserve
  split
  · rename_i hn
    rw [BitVec.lt_def] at hn
    exact Vec.take_resize _ (h.dense_length.trans_le hn.le)
      (h.size_le.trans h.dense_length.ge)
  · rfl

theorem WF.reserve (h : WF s) (n : BitVec w) : WF (s.reserve n) where
  toShape := h.toShape.reserve n
  sparse_dense := by
    intro i v hv
    rw [h.range_reserve n] at hv
    rw [(h.getElem?_reserve n (h.lt_capacity (List.mem_of_getElem? hv))).2]
    exact h.sparse_dense hv

/-! ### `Has` -/

theorem Shape.sparse_read (h : Shape s) (hv : v.toNat < s.capacity.toNat) :
    ∃ j, s.sparse[v.toNat]? = some j :=
  ⟨_, List.getElem?_eq_getElem (h.sparse_length ▸ hv)⟩

theorem Shape.dense_read (h : Shape s) (hi : i < s.capacity.toNat) :
    ∃ x, s.dense[i]? = some x :=
  ⟨_, List.getElem?_eq_getElem (h.dense_length ▸ hi)⟩

/-- On a set of the right shape `Has` never subscripts outside. -/
theorem Shape.has_defined (h : Shape s) (v : BitVec w) : ∃ b, s.has v = some b := by
  rw [has]
  split
  · rename_i hv
    obtain ⟨j, hj⟩ := h.sparse_read (BitVec.lt_def.mp hv)
    simp only [hj, Option.bind_eq_bind, Option.bind_some]
    split
    · rename_i hlt
      obtain ⟨x, hx⟩ := h.dense_read ((BitVec.lt_def.mp hlt).trans_le h.size_le)
      exact ⟨x == v, by rw [hx]; rfl⟩
    · exact ⟨false, rfl⟩
  · exact ⟨false, rfl⟩

/-- Where `Has(v)` is true, the slot that `_sparse` names holds `v`. -/
theorem has_eq_some_true (hb : s.has v = some true) :
    ∃ j, s.sparse[v.toNat]? = some j ∧ j.toNat < s.size.toNat ∧
      s.dense[j.toNat]? = some v := by
  rw [has] at hb
  split at hb
  · rcases hj : s.sparse[v.toNat]? with - | j
    · simp [hj] at hb
    · simp only [hj, Option.bind_eq_bind, Option.bind_some] at hb
      split at hb
      · rename_i hlt
        rcases hx : s.dense[j.toNat]? with - | x
        · simp [hx] at hb
        · obtain rfl : x = v := by simpa [hx] using hb
          exact ⟨j, rfl, BitVec.lt_def.mp hlt, hx⟩
      · simp at hb
  · simp at hb

/-- `Has(v)` asks whether `v` is in the range. -/
theorem WF.has_eq (h : WF s) (v : BitVec w) : s.has v = some (decide (v ∈ s.range)) := by
  unfold has
  split
  · rename_i hv
    obtain ⟨j, hj⟩ := h.sparse_read (BitVec.lt_def.mp hv)
    -- an element is found in the slot that `_sparse` names, or nowhere
    have hmem : v ∈ s.range ↔ s.range[j.toNat]? = some v := by
      constructor
      · intro hv
        obtain ⟨i, hi⟩ := List.getElem?_of_mem hv
        obtain rfl := Option.some.inj (hj.symm.trans (h.sparse_dense hi))
        rwa [h.toNat_ofNat hi]
      · exact List.mem_of_getElem?
    rw [hj]
    dsimp only [Option.bind_eq_bind, Option.bind_some]
    split
    · rename_i hlt
      rw [BitVec.lt_def] at hlt
      obtain ⟨d, hd⟩ := h.exists_getElem?_range hlt
      have hiff : v ∈ s.range ↔ d = v := by rw [hmem, hd, Option.some.injEq]
      rw [(h.getElem?_range.mp hd).2]
      simp [hiff, beq_eq_decide]
    · rename_i hlt
      rw [BitVec.lt_def] at hlt
      have hno : v ∉ s.range := fun hv => hlt (h.getElem?_range.mp (hmem.mp hv)).1
      simp [hno]
  · rename_i hv
    rw [BitVec.lt_def] at hv
    have hno : v ∉ s.range := fun h' => hv (h.lt_capacity h')
    simp [hno]

theorem WF.has_eq_true (h : WF s) : s.has v = some true ↔ v ∈ s.range := by
  rw [h.has_eq]
  simp

theorem WF.has_eq_false (h : WF s) : s.has v = some false ↔ v ∉ s.range := by
  rw [h.has_eq]
  simp

/-! ### `Insert` -/

/-- The set `Insert(v)` writes to, grown to hold `v`. -/
def grow (s : SparseSet w) (v : BitVec w) : SparseSet w :=
  if s.capacity ≤ v then s.reserve (v + 1) else s

theorem Shape.grow (h : Shape s) (v : BitVec w) : Shape (s.grow v) := by
  unfold SparseSet.grow
  split
  · exact h.reserve _
  · exact h

theorem WF.grow (h : WF s) (v : BitVec w) : WF (s.grow v) := by
  unfold SparseSet.grow
  split
  · exact h.reserve _
  · exact h

@[simp] theorem size_grow (s : SparseSet w) (v : BitVec w) : (s.grow v).size = s.size := by
  unfold grow
  split <;> simp

theorem Shape.range_grow (h : Shape s) (v : BitVec w) : (s.grow v).range = s.range := by
  unfold SparseSet.grow
  split
  · exact h.range_reserve _
  · rfl

theorem lt_capacity_grow (s : SparseSet w) (hv : v.toNat + 1 < 2 ^ w) :
    v.toNat < (s.grow v).capacity.toNat := by
  unfold grow
  split
  · have := (le_capacity_reserve s (v + 1)).2
    rw [Vec.toNat_add_one hv] at this
    exact this
  · rename_i hc
    rw [BitVec.le_def] at hc
    omega

/-- What `Insert` does to a set that lacks the value, on any set of the right
shape: both writes must fall inside. -/
theorem Shape.append_eq_some (h : Shape s) :
    s.append v = some s' ↔
      s.size.toNat < (s.grow v).capacity.toNat ∧ v.toNat < (s.grow v).capacity.toNat ∧
      s' = { dense := (s.grow v).dense.set s.size.toNat v
             sparse := (s.grow v).sparse.set v.toNat s.size
             size := s.size + 1
             capacity := (s.grow v).capacity } := by
  have hg := h.grow v
  have hsize := size_grow s v
  unfold append
  rw [show (if s.capacity ≤ v then s.reserve (v + 1) else s) = s.grow v from rfl]
  simp only [Option.bind_eq_bind, Option.pure_def, Option.bind_eq_some_iff, Option.some.injEq,
    Vec.write_eq_some, hg.dense_length, hg.sparse_length, hsize]
  constructor
  · rintro ⟨d, ⟨hd, rfl⟩, p, ⟨hp, rfl⟩, rfl⟩
    exact ⟨hd, hp, rfl⟩
  · rintro ⟨hd, hp, rfl⟩
    exact ⟨_, ⟨hd, rfl⟩, _, ⟨hp, rfl⟩, rfl⟩

theorem take_set_self {l : List (BitVec w)} {n : ℕ} (hn : n < l.length) (v : BitVec w) :
    (l.set n v).take (n + 1) = l.take n ++ [v] := by
  rw [List.take_add_one, List.take_set_of_le (Nat.le_refl n), List.getElem?_set_self hn]
  rfl

/-- On a set of the right shape, `Insert` of a value that `Has` denies appends
it to the range. -/
theorem Shape.append (h : Shape s) (hs : s.append v = some s') :
    Shape s' ∧ s'.range = s.range ++ [v] := by
  obtain ⟨hn, -, rfl⟩ := h.append_eq_some.mp hs
  have hg := h.grow v
  have hn' : (s.size + 1).toNat = s.size.toNat + 1 :=
    Vec.toNat_add_one (by have := (s.grow v).capacity.isLt; omega)
  refine ⟨⟨?_, ?_, ?_⟩, ?_⟩
  · rw [List.length_set, hg.dense_length]
  · rw [List.length_set, hg.sparse_length]
  · rw [hn']
    exact hn
  · rw [range, hn', take_set_self (hg.dense_length ▸ hn), ← h.range_grow v, range, size_grow]

theorem WF.append (h : WF s) (hno : v ∉ s.range) (hs : s.append v = some s') : WF s' := by
  obtain ⟨hshape, hrange⟩ := h.toShape.append hs
  obtain ⟨-, hv, rfl⟩ := h.append_eq_some.mp hs
  have hg := h.grow v
  refine ⟨hshape, ?_⟩
  intro i x hx
  rw [hrange] at hx
  rw [List.getElem?_set]
  rcases Vec.getElem?_concat_eq_some.mp hx with hx | ⟨rfl, rfl⟩
  · -- an old element: its cell of `_sparse` is not the one written
    rw [← h.range_grow v] at hx
    have hxv : v.toNat ≠ x.toNat := by
      intro e
      have hmem := List.mem_of_getElem? hx
      rw [h.range_grow v, ← BitVec.eq_of_toNat_eq e] at hmem
      exact hno hmem
    rw [if_neg hxv]
    exact hg.sparse_dense hx
  · -- the new element, in the slot that `_sparse` now names
    rw [if_pos rfl, if_pos (hg.sparse_length ▸ hv), h.length_range, BitVec.ofNat_toNat,
      BitVec.setWidth_eq]

/-- Distinct values below the capacity that miss one leave a free slot. -/
theorem WF.size_lt_of_notMem (h : WF s) (hno : v ∉ s.range)
    (hv : v.toNat < s.capacity.toNat) : s.size.toNat < s.capacity.toNat := by
  -- the elements and `v` are distinct numbers below the capacity
  have hnodup : ((v :: s.range).map BitVec.toNat).Nodup :=
    (List.nodup_cons.mpr ⟨hno, h.range_nodup⟩).map fun _ _ => BitVec.eq_of_toNat_eq
  have hsub : (v :: s.range).map BitVec.toNat ⊆ List.range s.capacity.toNat := by
    intro n hn
    obtain ⟨x, hx, rfl⟩ := List.mem_map.mp hn
    rw [List.mem_range]
    rcases List.mem_cons.mp hx with rfl | hx
    · exact hv
    · exact h.lt_capacity hx
  have hle := (hnodup.subperm hsub).length_le
  rw [List.length_map, List.length_cons, List.length_range, h.length_range] at hle
  exact hle

theorem WF.append_defined (h : WF s) (hno : v ∉ s.range) (hv : v.toNat + 1 < 2 ^ w) :
    ∃ s', s.append v = some s' := by
  have hcap := lt_capacity_grow s hv
  have hsize := (h.grow v).size_lt_of_notMem (h.range_grow v ▸ hno) hcap
  rw [size_grow] at hsize
  exact ⟨_, h.append_eq_some.mpr ⟨hsize, hcap, rfl⟩⟩

/-- What `Insert(v)` does, on any set of the right shape. -/
theorem Shape.insert_cases (h : Shape s) (hs : s.insert v = some s') :
    (s.has v = some true ∧ s' = s) ∨ (s.has v = some false ∧ s.append v = some s') := by
  unfold SparseSet.insert at hs
  obtain ⟨b, hb⟩ := h.has_defined v
  rw [hb] at hs ⊢
  cases b with
  | true => exact .inl ⟨rfl, by simpa [eq_comm] using hs⟩
  | false => exact .inr ⟨rfl, by simpa using hs⟩

theorem Shape.insert (h : Shape s) (hs : s.insert v = some s') :
    Shape s' ∧ ∀ x ∈ s'.range, x = v ∨ x ∈ s.range := by
  rcases h.insert_cases hs with ⟨-, rfl⟩ | ⟨-, hs⟩
  · exact ⟨h, fun x hx => .inr hx⟩
  · obtain ⟨h', hr⟩ := h.append hs
    refine ⟨h', fun x hx => ?_⟩
    rw [hr, List.mem_append, List.mem_singleton] at hx
    exact hx.symm

theorem WF.insert_of_mem (h : WF s) (hv : v ∈ s.range) : s.insert v = some s := by
  unfold SparseSet.insert
  rw [h.has_eq_true.mpr hv]
  rfl

theorem WF.insert_of_notMem (h : WF s) (hv : v ∉ s.range) : s.insert v = s.append v := by
  unfold SparseSet.insert
  rw [h.has_eq_false.mpr hv]
  rfl

/-- `Insert(v)` appends `v` to the range unless it is there. -/
theorem WF.insert_eq (h : WF s) (hs : s.insert v = some s') :
    WF s' ∧ s'.range = if v ∈ s.range then s.range else s.range ++ [v] := by
  by_cases hv : v ∈ s.range
  · rw [h.insert_of_mem hv, Option.some.injEq] at hs
    rw [if_pos hv, ← hs]
    exact ⟨h, rfl⟩
  · rw [h.insert_of_notMem hv] at hs
    rw [if_neg hv]
    exact ⟨h.append hv hs, (h.toShape.append hs).2⟩

theorem WF.insert_defined (h : WF s) (hv : v.toNat + 1 < 2 ^ w) :
    ∃ s', s.insert v = some s' := by
  by_cases hmem : v ∈ s.range
  · exact ⟨s, h.insert_of_mem hmem⟩
  · rw [h.insert_of_notMem hmem]
    exact h.append_defined hmem hv

theorem WF.mem_insert (h : WF s) (hs : s.insert v = some s') :
    x ∈ s'.range ↔ x = v ∨ x ∈ s.range := by
  rw [(h.insert_eq hs).2]
  split
  · rename_i hv
    exact ⟨.inr, fun hx => hx.elim (fun e => e ▸ hv) id⟩
  · rw [List.mem_append, List.mem_singleton, or_comm]

/-- The largest value of `T` cannot be inserted: growing to `val + 1` wraps to
zero, and the write to `_sparse` falls outside. -/
theorem WF.insert_max (h : WF s) (hv : ¬ v.toNat + 1 < 2 ^ w) : s.insert v = none := by
  have hno : v ∉ s.range := fun hmem => hv (h.lt_max hmem)
  rw [h.insert_of_notMem hno, Option.eq_none_iff_forall_ne_some]
  intro s' hs
  have hlt := (h.append_eq_some.mp hs).2.1
  have := (s.grow v).capacity.isLt
  omega

end SparseSet

end Indie
