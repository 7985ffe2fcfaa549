/-
Indie/Erase.lean

`Erase`, by value and through an iterator.

Both overloads run one body.  Its first statement overwrites the slot of the
erased element with the last element, its second records that slot for the
last element, and reads the parameter again to find it:

    _dense[_sparse[val]] = _dense[_size - 1];
    _sparse[_dense[_size - 1]] = _sparse[val];

Where `val` is an independent value the second read gives the erased element
and the body is a swap-removal (`WF.erase_of_mem`).  Where `val` is the cell
being overwritten the second read gives the *last* element, whose own stale
slot is then written back: `_sparse` does not change at all
(`WF.eraseAt_eq`), and unless the cell was the last one the moved element is
lost to `Has` (`WF.eraseAt_has_last`).

Main result: erasing through an iterator answers as erasing the value does
exactly at the last position (`eraseAt_agrees_iff`).
-/
import Indie.SparseSetWF

namespace Indie

namespace SparseSet

variable {w : ℕ} {s s' : SparseSet w} {v x last : BitVec w} {i : ℕ}

/-! ### The body of `Erase` -/

/-- The state between the two assignments of `Erase`. -/
def overwrite (s : SparseSet w) (i : ℕ) (x : BitVec w) : SparseSet w :=
  { s with dense := s.dense.set i x }

theorem Shape.toNat_size_sub_one (h : i < s.size.toNat) :
    (s.size - 1).toNat = s.size.toNat - 1 :=
  Vec.toNat_sub_one (by omega)

/-- A set with an element has a last one. -/
theorem Shape.exists_last (h : Shape s) (hi : i < s.size.toNat) :
    ∃ last, s.range[s.size.toNat - 1]? = some last :=
  h.exists_getElem?_range (by omega)

/-- After the overwrite, the last cell still holds the last element. -/
theorem Shape.overwrite_last (h : Shape s)
    (hlast : s.range[s.size.toNat - 1]? = some last) :
    (s.overwrite i last).dense[s.size.toNat - 1]? = some last := by
  have hd := (h.getElem?_range.mp hlast).2
  have hlen := (List.getElem?_eq_some_iff.mp hd).1
  rw [overwrite, List.getElem?_set]
  split
  · rename_i e
    rw [if_pos (e ▸ hlen)]
  · exact hd

/-- The range after the body: the slot `i` was swap-removed. -/
theorem Shape.overwrite_range (h : Shape s) (hi : i < s.size.toNat)
    (hlast : s.range[s.size.toNat - 1]? = some last) :
    (s.overwrite i last).dense.take (s.size.toNat - 1) = SwapList.swapRemove s.range i :=
  SwapList.take_set_last (h.size_le.trans h.dense_length.ge)
    (h.getElem?_range.mp hlast).2 hi

/-- `Erase` of a reference to a value that `Has` denies does nothing. -/
theorem eraseRef_of_has_false {r : Ref w} (hr : r.read s = some v)
    (hb : s.has v = some false) : s.eraseRef r = some s := by
  simp [eraseRef, hr, hb]

/-- `Erase` of a reference to a value that `Has` confirms, in slot `i`.  Only
the second reading `u` of the parameter depends on what it refers to. -/
theorem Shape.eraseRef_eq_some (h : Shape s) {r : Ref w} (hr : r.read s = some v)
    (hb : s.has v = some true) {j : BitVec w} (hj : s.sparse[v.toNat]? = some j)
    (hji : j.toNat < s.size.toNat) (hlast : s.range[s.size.toNat - 1]? = some last) :
    s.eraseRef r = some s' ↔
      ∃ u, r.read (s.overwrite j.toNat last) = some u ∧
      ∃ k, s.sparse[u.toNat]? = some k ∧ last.toNat < s.capacity.toNat ∧
      s' = { dense := s.dense.set j.toNat last
             sparse := s.sparse.set last.toNat k
             size := s.size - 1
             capacity := s.capacity } := by
  have hsize : (s.size - 1).toNat = s.size.toNat - 1 := Shape.toNat_size_sub_one hji
  have hd : s.dense[(s.size - 1).toNat]? = some last := by
    rw [hsize]
    exact (h.getElem?_range.mp hlast).2
  have hd' : (s.overwrite j.toNat last).dense[(s.size - 1).toNat]? = some last := by
    rw [hsize]
    exact h.overwrite_last hlast
  have hw : Vec.write s.dense j.toNat last = some (s.dense.set j.toNat last) :=
    Vec.write_of_lt (by rw [h.dense_length]; exact hji.trans_le h.size_le) last
  simp only [eraseRef, hr, hb, hd, hj, hw, Option.bind_eq_bind, Option.bind_some, ite_true,
    Option.bind_eq_some_iff, Option.pure_def, Option.some.injEq, Vec.write_eq_some,
    h.sparse_length]
  -- from here on the parameter is read in the overwritten state
  rw [show ({ s with dense := s.dense.set j.toNat last } : SparseSet w)
    = s.overwrite j.toNat last from rfl]
  constructor
  · rintro ⟨u, hu, k, hk, l, hl, p, ⟨hp, rfl⟩, rfl⟩
    obtain rfl := Option.some.inj (hd'.symm.trans hl)
    exact ⟨u, hu, k, hk, hp, rfl⟩
  · rintro ⟨u, hu, k, hk, hp, rfl⟩
    exact ⟨u, hu, k, hk, last, hd', _, ⟨hp, rfl⟩, rfl⟩

/-- Whatever the parameter refers to, `Erase` keeps the shape and swap-removes
a slot that held the value, or does nothing. -/
theorem Shape.eraseRef (h : Shape s) {r : Ref w} (hs : s.eraseRef r = some s') :
    Shape s' ∧ (s' = s ∨ ∃ i < s.size.toNat, s'.range = SwapList.swapRemove s.range i) := by
  rcases hr : r.read s with - | v
  · simp [SparseSet.eraseRef, hr] at hs
  obtain ⟨b, hb⟩ := h.has_defined v
  cases b with
  | false =>
    rw [eraseRef_of_has_false hr hb, Option.some.injEq] at hs
    exact ⟨hs ▸ h, .inl hs.symm⟩
  | true =>
    obtain ⟨j, hj, hji, -⟩ := has_eq_some_true hb
    obtain ⟨last, hlast⟩ := h.exists_last hji
    obtain ⟨-, -, k, -, -, rfl⟩ := (h.eraseRef_eq_some hr hb hj hji hlast).mp hs
    have hsize := Shape.toNat_size_sub_one hji
    refine ⟨⟨?_, ?_, ?_⟩, .inr ⟨j.toNat, hji, ?_⟩⟩
    · rw [List.length_set, h.dense_length]
    · rw [List.length_set, h.sparse_length]
    · show (s.size - 1).toNat ≤ s.capacity.toNat
      rw [hsize]
      exact (Nat.sub_le _ _).trans h.size_le
    · rw [range, hsize]
      exact h.overwrite_range hji hlast

/-- `Erase` brings no new value into the range. -/
theorem Shape.range_eraseRef_subset (h : Shape s) {r : Ref w}
    (hs : s.eraseRef r = some s') : s'.range ⊆ s.range := by
  rcases (h.eraseRef hs).2 with rfl | ⟨i, hi, hr⟩
  · exact List.Subset.refl _
  · intro x hx
    rw [hr] at hx
    have hi' : i < s.range.length := h.length_range ▸ hi
    exact List.mem_of_mem_eraseIdx ((SwapList.swapRemove_perm hi').mem_iff.mp hx)

/-! ### `Erase` by value -/

theorem WF.erase_of_notMem (h : WF s) (hv : v ∉ s.range) : s.erase v = some s :=
  eraseRef_of_has_false rfl (h.has_eq_false.mpr hv)

/-- Erasing the value in slot `i` swap-removes the slot, and writes no other
cell of `_dense`. -/
theorem WF.erase_of_mem (h : WF s) (hv : s.range[i]? = some v) :
    ∃ s', s.erase v = some s' ∧ WF s' ∧ s'.range = SwapList.swapRemove s.range i ∧
      ∀ j, j ≠ i → s'.dense[j]? = s.dense[j]? := by
  have hi := (h.getElem?_range.mp hv).1
  have hb : s.has v = some true := h.has_eq_true.mpr (List.mem_of_getElem? hv)
  have hj := h.sparse_dense hv
  have hji := h.toNat_ofNat hv
  have hji' : (BitVec.ofNat w i).toNat < s.size.toNat := hji.symm ▸ hi
  obtain ⟨last, hlast⟩ := h.exists_last hi
  have hcap := h.lt_capacity (List.mem_of_getElem? hlast)
  have hs := (h.eraseRef_eq_some (r := .value v) rfl hb hj hji' hlast).mpr
    ⟨v, rfl, _, hj, hcap, rfl⟩
  refine ⟨_, hs, ?_, ?_, ?_⟩
  · refine ⟨(h.toShape.eraseRef hs).1, ?_⟩
    have hsize := Shape.toNat_size_sub_one hi
    intro k x hx
    rw [range, hsize, hji] at hx
    change ((s.overwrite i last).dense.take (s.size.toNat - 1))[k]? = some x at hx
    rw [h.overwrite_range hi hlast] at hx
    have hi' : i < s.range.length := h.length_range ▸ hi
    have hk : k < s.range.length - 1 := by
      simpa using (List.getElem?_eq_some_iff.mp hx).1
    rw [SwapList.getElem?_swapRemove hi' hk, h.length_range] at hx
    rw [List.getElem?_set]
    split at hx
    · -- the moved element: its slot was just recorded
      rename_i hki
      obtain rfl := Option.some.inj (hlast.symm.trans hx)
      rw [if_pos rfl, if_pos (h.sparse_length ▸ hcap), hki]
    · -- another element: not the last one, so its record is as it was
      have hxl : last.toNat ≠ x.toNat := by
        intro e
        obtain rfl := BitVec.eq_of_toNat_eq e
        rw [h.length_range] at hk
        exact hk.ne' (h.slot_inj hlast hx)
      rw [if_neg hxl]
      exact h.sparse_dense hx
  · rw [range, Shape.toNat_size_sub_one hi, hji]
    exact h.overwrite_range hi hlast
  · intro j hj
    rw [hji]
    exact List.getElem?_set_ne (Ne.symm hj)

theorem WF.erase_defined (h : WF s) (v : BitVec w) : ∃ s', s.erase v = some s' := by
  by_cases hv : v ∈ s.range
  · obtain ⟨i, hi⟩ := List.getElem?_of_mem hv
    obtain ⟨s', hs, -⟩ := h.erase_of_mem hi
    exact ⟨s', hs⟩
  · exact ⟨s, h.erase_of_notMem hv⟩

theorem WF.erase (h : WF s) (hs : s.erase v = some s') : WF s' := by
  by_cases hv : v ∈ s.range
  · obtain ⟨i, hi⟩ := List.getElem?_of_mem hv
    obtain ⟨t, ht, hwf, -⟩ := h.erase_of_mem hi
    obtain rfl := Option.some.inj (ht.symm.trans hs)
    exact hwf
  · rw [h.erase_of_notMem hv, Option.some.injEq] at hs
    exact hs ▸ h

/-- Erasing `v` removes `v` and nothing else. -/
theorem WF.mem_erase (h : WF s) (hs : s.erase v = some s') :
    x ∈ s'.range ↔ x ∈ s.range ∧ x ≠ v := by
  by_cases hv : v ∈ s.range
  · obtain ⟨i, hi⟩ := List.getElem?_of_mem hv
    obtain ⟨t, ht, -, hr, -⟩ := h.erase_of_mem hi
    obtain rfl := Option.some.inj (ht.symm.trans hs)
    rw [hr, SwapList.mem_swapRemove h.range_nodup hi]
  · rw [h.erase_of_notMem hv, Option.some.injEq] at hs
    subst hs
    exact ⟨fun hx => ⟨hx, fun e => hv (e ▸ hx)⟩, And.left⟩

theorem WF.size_erase (h : WF s) (hv : v ∈ s.range) (hs : s.erase v = some s') :
    s'.size.toNat = s.size.toNat - 1 := by
  obtain ⟨i, hi⟩ := List.getElem?_of_mem hv
  obtain ⟨t, ht, hwf, hr, -⟩ := h.erase_of_mem hi
  obtain rfl := Option.some.inj (ht.symm.trans hs)
  rw [← hwf.length_range, hr, SwapList.length_swapRemove, h.length_range]

/-! ### `Erase` through an iterator -/

/-- Through an iterator, the second reading of the parameter is the last
element, and its record in `_sparse` is written over itself. -/
theorem WF.eraseAt_eq (h : WF s) (hi : i < s.size.toNat)
    (hlast : s.range[s.size.toNat - 1]? = some last) :
    s.eraseAt i = some { dense := s.dense.set i last
                         sparse := s.sparse
                         size := s.size - 1
                         capacity := s.capacity } := by
  obtain ⟨v, hv⟩ := h.exists_getElem?_range hi
  have hb : s.has v = some true := h.has_eq_true.mpr (List.mem_of_getElem? hv)
  have hj := h.sparse_dense hv
  have hji := h.toNat_ofNat hv
  have hd := (h.getElem?_range.mp hv).2
  have hlen : i < s.dense.length := (List.getElem?_eq_some_iff.mp hd).1
  refine (h.eraseRef_eq_some (r := .cell i) hd hb hj (hji.symm ▸ hi) hlast).mpr
    ⟨last, ?_, BitVec.ofNat w (s.size.toNat - 1), h.sparse_dense hlast,
      h.lt_capacity (List.mem_of_getElem? hlast), ?_⟩
  · show (s.dense.set (BitVec.ofNat w i).toNat last)[i]? = some last
    rw [hji, List.getElem?_set_self hlen]
  · -- the second statement writes back what is there
    have hset : s.sparse.set last.toNat (BitVec.ofNat w (s.size.toNat - 1)) = s.sparse := by
      apply List.ext_getElem?
      intro k
      rw [List.getElem?_set]
      split
      · rename_i e
        rw [← e, h.sparse_dense hlast, if_pos]
        exact (List.getElem?_eq_some_iff.mp (h.sparse_dense hlast)).1
      · rfl
    rw [hset, hji]

/-- At the last position nothing moves, and the two overloads agree exactly. -/
theorem WF.eraseAt_last (h : WF s) (hi : i + 1 = s.size.toNat)
    (hv : s.range[i]? = some v) : s.eraseAt i = s.erase v := by
  have hlt : i < s.size.toNat := by omega
  have hlast : s.range[s.size.toNat - 1]? = some v := by
    rw [show s.size.toNat - 1 = i by omega]
    exact hv
  have hb : s.has v = some true := h.has_eq_true.mpr (List.mem_of_getElem? hv)
  have hji := h.toNat_ofNat hv
  have hs := (h.eraseRef_eq_some (r := .value v) rfl hb (h.sparse_dense hv)
    (hji.symm ▸ hlt) hlast).mpr
    ⟨v, rfl, _, h.sparse_dense hv, h.lt_capacity (List.mem_of_getElem? hv), rfl⟩
  have hcell := (h.eraseRef_eq_some (r := .cell i) (h.getElem?_range.mp hv).2 hb
    (h.sparse_dense hv) (hji.symm ▸ hlt) hlast).mpr
    ⟨v, ?_, _, h.sparse_dense hv, h.lt_capacity (List.mem_of_getElem? hv), rfl⟩
  · exact hcell.trans hs.symm
  · show (s.dense.set (BitVec.ofNat w i).toNat v)[i]? = some v
    rw [hji, List.getElem?_set_self]
    exact (List.getElem?_eq_some_iff.mp (h.getElem?_range.mp hv).2).1

/-- Before the last position the moved element is lost: `_sparse` still sends
it to the slot that was cut off. -/
theorem WF.eraseAt_has_last (h : WF s) (hi : i < s.size.toNat)
    (hlast : s.range[s.size.toNat - 1]? = some last) (hs : s.eraseAt i = some s') :
    s'.has last = some false := by
  rw [h.eraseAt_eq hi hlast, Option.some.injEq] at hs
  subst hs
  have hcap := h.lt_capacity (List.mem_of_getElem? hlast)
  have hslot := h.toNat_ofNat hlast
  rw [has, if_pos (BitVec.lt_def.mpr hcap)]
  simp only [h.sparse_dense hlast, Option.bind_eq_bind, Option.bind_some]
  rw [if_neg]
  · rfl
  · rw [BitVec.lt_def, hslot, Shape.toNat_size_sub_one hi]
    omega

/-! ### Runs -/

/-- Every call that is defined keeps the invariant. -/
theorem WF.step (h : WF s) {op : Op w} (hs : s.step op = some s') : WF s' := by
  cases op with
  | insert val => exact (h.insert_eq hs).1
  | erase val => exact h.erase hs
  | clear =>
    obtain rfl := Option.some.inj hs
    exact h.wf_clear
  | reserve count =>
    obtain rfl := Option.some.inj hs
    exact h.reserve count

/-- Reachable sets are well formed. -/
theorem Reachable.wf (h : Reachable s) : WF s := by
  obtain ⟨ops, hr⟩ := h
  exact Machine.run_invariant (P := fun _ _ => True) (fun _ _ _ hI _ hs => hI.step hs)
    wf_empty (Machine.Along.of_forall (fun _ _ => trivial) _ ops) hr

/-! ### The two overloads compared -/

/-- `Erase(Begin() + i)` leaves what `Erase(v)` leaves, `v` a copy of element
`i`: both give the same answers, and every other element is still there, at
the index `IndexOf` gives. -/
def EraseAtAgrees (s : SparseSet w) (i : ℕ) (v : BitVec w) : Prop :=
  ∃ a b, s.eraseAt i = some a ∧ s.erase v = some b ∧
    (∀ x, a.has x = b.has x) ∧ a.size = b.size ∧ (∀ x, x ∈ a.range ↔ x ∈ b.range) ∧
    ∀ x ∈ s.range, x ≠ v → a.has x = some true ∧
      ∃ j, a.indexOf x = some j ∧ a.range[j.toNat]? = some x

/-- Erasing through an iterator is erasing the value it points to exactly at
the last position. -/
theorem eraseAt_agrees_iff (hs : Reachable s) (hv : s.range[i]? = some v) :
    EraseAtAgrees s i v ↔ i + 1 = s.size.toNat := by
  have h := hs.wf
  have hi := (h.getElem?_range.mp hv).1
  constructor
  · -- the last element survives `Erase(v)`, so it must survive the other one
    rintro ⟨a, b, ha, -, -, -, -, hrest⟩
    by_contra hne
    obtain ⟨last, hlast⟩ := h.exists_last hi
    have hlv : last ≠ v := by
      rintro rfl
      have := h.slot_inj hlast hv
      omega
    have htrue := (hrest last (List.mem_of_getElem? hlast) hlv).1
    rw [h.eraseAt_has_last hi hlast ha] at htrue
    cases htrue
  · -- at the last position the two are one erasure
    intro hlast
    obtain ⟨b, hb, hwf, -⟩ := h.erase_of_mem hv
    refine ⟨b, b, (h.eraseAt_last hlast hv).trans hb, hb, fun _ => rfl, rfl,
      fun _ => Iff.rfl, ?_⟩
    intro x hx hxv
    have hx' : x ∈ b.range := (h.mem_erase hb).mpr ⟨hx, hxv⟩
    obtain ⟨j, hj⟩ := List.getElem?_of_mem hx'
    refine ⟨hwf.has_eq_true.mpr hx', _, hwf.indexOf_eq hj, ?_⟩
    rw [hwf.toNat_ofNat hj]
    exact hj

theorem eraseAt_agrees_iff_pair :
    EraseAtAgrees (⟨[1, 0], [1, 0], 2, 2⟩ : SparseSet 32) 1 0 ↔
      1 + 1 = (2 : BitVec 32).toNat :=
  eraseAt_agrees_iff ⟨[.insert 1, .insert 0], by decide⟩ (by decide)

/-- `Insert(1); Insert(0); Erase(Begin())` takes 0 out as well: `Has(0)` is
false afterwards, where erasing the value 1 leaves it true. -/
theorem eraseAt_loses_moved :
    ∃ s : SparseSet 32, Machine.run step empty [.insert 1, .insert 0] = some s ∧
      s.range[0]? = some 1 ∧ (s.eraseAt 0).bind (·.has 0) = some false ∧
      (s.erase 1).bind (·.has 0) = some true ∧ ¬ EraseAtAgrees s 0 1 := by
  refine ⟨⟨[1, 0], [1, 0], 2, 2⟩, by decide, by decide, by decide, by decide, ?_⟩
  rintro ⟨a, b, ha, hb, hhas, -⟩
  have hfalse : a.has 0 = some false := by
    obtain rfl : a = ⟨[0, 0], [1, 0], 1, 2⟩ := Option.some.inj (ha.symm.trans (by decide))
    decide
  have htrue : b.has 0 = some true := by
    obtain rfl : b = ⟨[0, 0], [0, 0], 1, 2⟩ := Option.some.inj (hb.symm.trans (by decide))
    decide
  have := (hhas 0).symm.trans hfalse
  rw [htrue] at this
  cases this

end SparseSet

end Indie
