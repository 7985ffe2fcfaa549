/-
Indie/PoolMap.lean

When a pool is the map from entities to components it is meant to be.

The intended meaning of a call is `Op.apply`, on functions
`BitVec w → Option α`.  The base class keeps its half of the bargain: `Get` is
null exactly off the entities the map gives a component.  Which component it
points to is another matter.  The set renumbers on `Delete`, the last entity
taking over the index of the deleted one, and the vector of components does
not follow:

* after `Delete(e)` the last entity is given the component in `e`'s cell
  (`WF.delete_iff`);
* the vector keeps its length on `Delete`, so a later `Assign` appends beyond
  the index the set hands out, and the new entity is given whatever was left
  in that cell (`WF.assign_new_iff`).

`Op.Aligned` says that a call does neither.  It is exact: along a run the pool
answers as the map throughout if and only if every call is aligned
(`get_eq_map_iff_aligned`).
-/
import Indie.Pool

namespace Indie

namespace Pool

variable {α : Type} {w : ℕ} {p p' : Pool α w} {et e : BitVec w} {i : ℕ} {c : α}

/-- What a call means for the map from entities to components. -/
def Op.apply (m : BitVec w → Option α) : Op α w → BitVec w → Option α
  | .assign et c => Function.update m et c
  | .replace et c => Function.update m et c
  | .assignOrReplace et c => Function.update m et c
  | .delete et => Function.update m et none
  | .reset => fun _ => none
  | .reserve _ => m

/-- The documented use of a pool, with constructors that do not throw: `Assign`
on an entity without a component, `Replace` and `Delete` on one with. -/
def Op.Proper (p : Pool α w) : Op α w → Prop
  | .assign et c => p.has et = some false ∧ c.isSome
  | .replace et c => p.has et = some true ∧ c.isSome
  | .assignOrReplace _ c => c.isSome
  | .delete et => p.has et = some true
  | .reset => True
  | .reserve _ => True

instance (p : Pool α w) (op : Op α w) : Decidable (op.Proper p) := by
  cases op <;> unfold Op.Proper <;> infer_instance

/-- A new entity gets the index `Size()`: no cell is left over there, or one
that holds an equal component.  The largest entity has no index at all. -/
def SlotFree (p : Pool α w) (et : BitVec w) (c : Ctor α) : Prop :=
  et.toNat + 1 < 2 ^ w ∧
    (p.components.data.length = p.size.toNat ∨ p.components.data[p.size.toNat]? = c)

/-- The index of a deleted entity passes to the last one, which must find an
equal component there. -/
def SlotMatchesLast (p : Pool α w) (et : BitVec w) : Prop :=
  ∀ i : ℕ, p.base.range[i]? = some et →
    p.components.data[i]? = p.components.data[p.size.toNat - 1]?

/-- The call keeps the components aligned with the indices of the set. -/
def Op.Aligned (p : Pool α w) : Op α w → Prop
  | .assign et c => SlotFree p et c
  | .replace _ _ => True
  | .assignOrReplace et c => p.has et = some false → SlotFree p et c
  | .delete et => SlotMatchesLast p et
  | .reset => True
  | .reserve _ => True

/-- A well-formed set, and a component for every index. -/
structure WF (p : Pool α w) : Prop where
  base : p.base.WF
  covered : p.size.toNat ≤ p.components.data.length

/-- `Get` answers as the map `m`. -/
def Represents (p : Pool α w) (m : BitVec w → Option α) : Prop :=
  ∀ e, p.get e = some (m e)

theorem wf_empty : WF (empty : Pool α w) :=
  ⟨SparseSet.wf_empty, by simp [empty, size, SparseSet.empty]⟩

theorem represents_empty : Represents (empty : Pool α w) fun _ => none :=
  fun _ => get_of_notMem SparseSet.wf_empty (by simp [empty])

/-- On a covered pool `Get` of a registered entity finds a component. -/
theorem WF.get_eq (h : WF p) (hi : p.base.range[i]? = some e) :
    p.get e = some (p.components.data[i]?) ∧ i < p.components.data.length := by
  have hlt : i < p.components.data.length :=
    ((h.base.getElem?_range.mp hi).1).trans_le h.covered
  rw [get_of_getElem? h.base hi, List.getElem?_eq_getElem hlt]
  exact ⟨rfl, hlt⟩

/-- A pool represents a map when its cells hold the values of the map, and the
map has none elsewhere. -/
theorem WF.represents_iff (h : WF p) {m : BitVec w → Option α} :
    Represents p m ↔
      (∀ (i : ℕ) e, p.base.range[i]? = some e → p.components.data[i]? = m e) ∧
        ∀ e, e ∉ p.base.range → m e = none := by
  constructor
  · intro hm
    refine ⟨fun i e hi => ?_, fun e he => ?_⟩
    · exact Option.some.inj ((h.get_eq hi).1.symm.trans (hm e))
    · exact Option.some.inj ((hm e).symm.trans (get_of_notMem h.base he))
  · rintro ⟨hin, hout⟩ e
    by_cases he : e ∈ p.base.range
    · obtain ⟨i, hi⟩ := List.getElem?_of_mem he
      rw [(h.get_eq hi).1, hin i e hi]
    · rw [get_of_notMem h.base he, hout e he]

/-! ### Every index keeps a component -/

theorem WF.assign (h : WF p) (hs : p.assign et (some c) = some (p', .returned)) :
    WF p' ∧ p'.components.data = p.components.data ++ [c] := by
  rcases hb : p.base.insert et with - | b
  · rw [assign_eq_none hb] at hs
    cases hs
  obtain ⟨hwf, hr⟩ := h.base.insert_eq hb
  obtain ⟨q, rfl, hd, hq⟩ := assign_eq h.base hb (some c)
  rw [hs] at hq
  obtain rfl : p' = { q with components := q.components.emplaceBack c } := by
    simpa using hq
  have hsize : q.base.size.toNat ≤ p.base.size.toNat + 1 := by
    rw [← hwf.length_range, hr, ← h.base.length_range]
    split
    · exact Nat.le_succ _
    · rw [List.length_append, List.length_singleton]
  have hdata : (q.components.emplaceBack c).data = p.components.data ++ [c] := by
    rw [Vec.data_emplaceBack, hd]
  refine ⟨⟨hwf, ?_⟩, hdata⟩
  show q.base.size.toNat ≤ (q.components.emplaceBack c).data.length
  rw [hdata, List.length_append]
  exact hsize.trans (Nat.add_le_add_right h.covered 1)

theorem WF.replace (h : WF p) (hs : p.replace et (some c) = some (p', .returned)) :
    WF p' := by
  simp only [Pool.replace, Option.bind_eq_bind, Option.bind_eq_some_iff, Option.pure_def,
    Option.some.injEq, Prod.mk.injEq, and_true] at hs
  obtain ⟨i, -, v, hv, rfl⟩ := hs
  refine ⟨h.base, ?_⟩
  rw [(Vec.set_eq_some hv).2, List.length_set]
  exact h.covered

theorem WF.delete (h : WF p) (hs : p.delete et = some p') : WF p' := by
  obtain ⟨b, hb, rfl⟩ := delete_eq_some.mp hs
  refine ⟨h.base.erase hb, le_trans ?_ h.covered⟩
  by_cases he : et ∈ p.base.range
  · exact (h.base.size_erase he hb).trans_le (Nat.sub_le _ _)
  · rw [h.base.erase_of_notMem he, Option.some.injEq] at hb
    exact hb ▸ le_rfl

theorem assign_some_returned {r : Pool α w × Ending} (h : p.base.WF)
    (hs : p.assign et (some c) = some r) : r.2 = .returned := by
  obtain ⟨q, -, -, hq⟩ := assign_eq h (wf_assign h hs) (some c)
  rw [hs, Option.some.injEq] at hq
  rw [hq]

theorem replace_some_returned {r : Pool α w × Ending}
    (hs : p.replace et (some c) = some r) : r.2 = .returned := by
  simp only [replace, Option.bind_eq_bind, Option.bind_eq_some_iff, Option.pure_def,
    Option.some.injEq] at hs
  obtain ⟨-, -, -, -, rfl⟩ := hs
  rfl

/-- The call builds a component without an exception, if it builds one. -/
def Op.NoThrow : Op α w → Prop
  | .assign _ c => c.isSome
  | .replace _ c => c.isSome
  | .assignOrReplace _ c => c.isSome
  | _ => True

instance (op : Op α w) : Decidable op.NoThrow := by
  cases op <;> unfold Op.NoThrow <;> infer_instance

theorem Op.Proper.noThrow {op : Op α w} (h : op.Proper p) : op.NoThrow := by
  cases op with
  | assign _ _ => exact h.2
  | replace _ _ => exact h.2
  | assignOrReplace _ _ => exact h
  | delete _ => trivial
  | reset => trivial
  | reserve _ => trivial

/-- Without exceptions every index keeps a component. -/
theorem WF.step (h : WF p) {op : Op α w} (hop : op.NoThrow) (hs : p.step op = some p') :
    WF p' := by
  cases op with
  | assign et c =>
    obtain ⟨c, rfl⟩ := Option.isSome_iff_exists.mp hop
    obtain ⟨⟨q, e⟩, hr, rfl⟩ := Option.map_eq_some_iff.mp hs
    obtain rfl : e = .returned := assign_some_returned h.base hr
    exact (h.assign hr).1
  | replace et c =>
    obtain ⟨c, rfl⟩ := Option.isSome_iff_exists.mp hop
    obtain ⟨⟨q, e⟩, hr, rfl⟩ := Option.map_eq_some_iff.mp hs
    obtain rfl : e = .returned := replace_some_returned hr
    exact h.replace hr
  | assignOrReplace et c =>
    obtain ⟨c, rfl⟩ := Option.isSome_iff_exists.mp hop
    obtain ⟨⟨q, e⟩, hr, rfl⟩ := Option.map_eq_some_iff.mp hs
    by_cases he : et ∈ p.base.range
    · rw [assignOrReplace_of_mem h.base he] at hr
      obtain rfl : e = .returned := replace_some_returned hr
      exact h.replace hr
    · rw [assignOrReplace_of_notMem h.base he] at hr
      obtain rfl : e = .returned := assign_some_returned h.base hr
      exact (h.assign hr).1
  | delete et => exact h.delete hs
  | reset =>
    obtain rfl := Option.some.inj hs
    exact ⟨h.base.toShape.wf_clear, by simp [reset, size, SparseSet.clear]⟩
  | reserve count =>
    obtain rfl := Option.some.inj hs
    refine ⟨by rw [base_reserve]; exact h.base, ?_⟩
    rw [data_reserve, size, base_reserve]
    exact h.covered

/-! ### The calls, one by one -/

theorem WF.assign_defined (h : WF p) (hlt : et.toNat + 1 < 2 ^ w) (c : α) :
    ∃ p', p.assign et (some c) = some (p', .returned) := by
  obtain ⟨⟨p', e⟩, hs⟩ := Pool.assign_defined h.base hlt (some c)
  obtain rfl : e = .returned := assign_some_returned h.base hs
  exact ⟨p', hs⟩

/-- A new entity takes the next index. -/
theorem WF.range_assign_new (h : WF p) (he : et ∉ p.base.range) {r : Pool α w × Ending}
    (hs : p.assign et (some c) = some r) : r.1.base.range = p.base.range ++ [et] := by
  have := (h.base.insert_eq (wf_assign h.base hs)).2
  rwa [if_neg he] at this

/-- The cell of a new entity, in the longer vector, holds its component exactly
if nothing else was left there. -/
theorem WF.newCell_iff (h : WF p) (c : α) :
    (p.components.data ++ [c])[p.size.toNat]? = some c ↔
      (p.components.data.length = p.size.toNat ∨
        p.components.data[p.size.toNat]? = some c) := by
  rcases h.covered.eq_or_lt with hlen | hlt
  · rw [hlen, List.getElem?_append_right le_rfl]
    simp
  · rw [List.getElem?_append_left hlt]
    simp [hlt.ne']

/-- A free slot makes `Assign` represent the map with the new entity. -/
theorem WF.assign_new_represents (h : WF p) (he : et ∉ p.base.range)
    {m : BitVec w → Option α} (hm : Represents p m)
    (hfree : p.components.data.length = p.size.toNat ∨
      p.components.data[p.size.toNat]? = some c)
    (hs : p.assign et (some c) = some (p', .returned)) :
    Represents p' (Function.update m et (some c)) := by
  obtain ⟨hin, hout⟩ := h.represents_iff.mp hm
  obtain ⟨hwf, hd⟩ := h.assign hs
  have hr : p'.base.range = p.base.range ++ [et] := h.range_assign_new he hs
  refine hwf.represents_iff.mpr ⟨fun j x hj => ?_, fun x hx => ?_⟩
  · rw [hr] at hj
    rw [hd]
    rcases Vec.getElem?_concat_eq_some.mp hj with hj | ⟨rfl, rfl⟩
    · -- an entity that was there: its cell is not the new one
      have hx : x ≠ et := fun e => he (e ▸ List.mem_of_getElem? hj)
      rw [List.getElem?_append_left (h.get_eq hj).2, hin j x hj, Function.update_of_ne hx]
    · rw [Function.update_self, h.base.length_range]
      exact (h.newCell_iff c).mpr hfree
  · rw [hr, List.mem_append, List.mem_singleton, not_or] at hx
    rw [Function.update_of_ne hx.2, hout x hx.1]

/-- A new entity is given the component it was assigned exactly if its slot is
free. -/
theorem WF.assign_new_iff (h : WF p) (he : et ∉ p.base.range) {m : BitVec w → Option α}
    (hm : Represents p m) :
    SlotFree p et (some c) ↔ ∃ p', (p.assign et (some c)).map Prod.fst = some p' ∧
      Represents p' (Function.update m et (some c)) := by
  constructor
  · rintro ⟨hlt, hfree⟩
    obtain ⟨p', hs⟩ := h.assign_defined hlt c
    exact ⟨p', by rw [hs]; rfl, h.assign_new_represents he hm hfree hs⟩
  · rintro ⟨p', hs, hm'⟩
    obtain ⟨⟨q, e⟩, hq, rfl⟩ := Option.map_eq_some_iff.mp hs
    have hlt : et.toNat + 1 < 2 ^ w := by
      by_contra hmax
      rw [assign_eq_none (h.base.insert_max hmax)] at hq
      cases hq
    obtain rfl : e = .returned := assign_some_returned h.base hq
    obtain ⟨hwf, hd⟩ := h.assign hq
    -- the new entity stands in slot `Size()`
    have hslot : q.base.range[p.size.toNat]? = some et := by
      rw [h.range_assign_new he hq, size, ← h.base.length_range, List.getElem?_concat_length]
    have := (hwf.represents_iff.mp hm').1 _ _ hslot
    rw [hd, Function.update_self] at this
    exact ⟨hlt, (h.newCell_iff c).mp this⟩

/-- `Replace` on a registered entity always does what the map says. -/
theorem WF.replace_represents (h : WF p) (he : et ∈ p.base.range) {m : BitVec w → Option α}
    (hm : Represents p m) (c : α) :
    ∃ p', p.replace et (some c) = some (p', .returned) ∧
      Represents p' (Function.update m et (some c)) := by
  obtain ⟨hin, hout⟩ := h.represents_iff.mp hm
  obtain ⟨i, hi⟩ := List.getElem?_of_mem he
  have hlt := (h.get_eq hi).2
  obtain ⟨v, hd, hs⟩ := replace_eq h.base hi hlt c
  have hwf : WF { p with components := v } :=
    ⟨h.base, by rw [hd, List.length_set]; exact h.covered⟩
  refine ⟨_, hs, hwf.represents_iff.mpr ⟨?_, ?_⟩⟩
  · intro j x hj
    have hj' : p.base.range[j]? = some x := hj
    show v.data[j]? = _
    rw [hd]
    by_cases hij : i = j
    · subst hij
      obtain rfl := Option.some.inj (hi.symm.trans hj')
      rw [List.getElem?_set_self hlt, Function.update_self]
    · have hx : x ≠ et := by
        rintro rfl
        exact hij (h.base.slot_inj hi hj')
      rw [List.getElem?_set_ne hij, hin j x hj', Function.update_of_ne hx]
  · intro x hx
    have hx' : x ≠ et := fun e => hx (e ▸ he)
    rw [Function.update_of_ne hx', hout x hx]

/-- After an erasure of slot `i`, only the entity now in it reads another cell
than before, and it is the one that was last. -/
theorem WF.slots_erase (h : WF p) (hi : p.base.range[i]? = some et) {b : SparseSet w}
    (hb : p.base.erase et = some b) {j : ℕ} {x : BitVec w} (hj : b.range[j]? = some x) :
    (j ≠ i ∧ p.base.range[j]? = some x) ∨
      (j = i ∧ i ≠ p.size.toNat - 1 ∧ p.base.range[p.size.toNat - 1]? = some x) := by
  obtain ⟨b', hb', -, hr, -⟩ := h.base.erase_of_mem hi
  obtain rfl := Option.some.inj (hb.symm.trans hb')
  have hilt : i < p.base.range.length := (List.getElem?_eq_some_iff.mp hi).1
  have hjlt := (List.getElem?_eq_some_iff.mp hj).1
  rw [hr, SwapList.length_swapRemove] at hjlt
  rw [hr, SwapList.getElem?_swapRemove hilt hjlt] at hj
  rw [h.base.length_range] at hj hjlt
  split at hj
  · rename_i hji
    exact .inr ⟨hji, hji ▸ hjlt.ne, hj⟩
  · rename_i hji
    exact .inl ⟨hji, hj⟩

/-- The last entity moves into a slot that is not the last. -/
theorem WF.slot_erase_moved (h : WF p) (hi : p.base.range[i]? = some et) {b : SparseSet w}
    (hb : p.base.erase et = some b) (hlast : i ≠ p.size.toNat - 1) :
    b.range[i]? = p.base.range[p.size.toNat - 1]? := by
  obtain ⟨b', hb', -, hr, -⟩ := h.base.erase_of_mem hi
  obtain rfl := Option.some.inj (hb.symm.trans hb')
  have hilt : i < p.base.range.length := (List.getElem?_eq_some_iff.mp hi).1
  have hlen : p.base.range.length = p.size.toNat := h.base.length_range
  rw [hr, SwapList.getElem?_swapRemove hilt (by omega), if_pos rfl, hlen]

/-- After `Delete` the others keep their components exactly if the cell that
passes to the last entity holds an equal component. -/
theorem WF.delete_iff (h : WF p) (he : et ∈ p.base.range) {m : BitVec w → Option α}
    (hm : Represents p m) :
    SlotMatchesLast p et ↔ ∃ p', p.delete et = some p' ∧
      Represents p' (Function.update m et none) := by
  obtain ⟨hin, hout⟩ := h.represents_iff.mp hm
  obtain ⟨i, hi⟩ := List.getElem?_of_mem he
  obtain ⟨b, hb, -⟩ := h.base.erase_of_mem hi
  have hs : p.delete et = some { p with base := b } := delete_eq_some.mpr ⟨b, hb, rfl⟩
  have hwf : WF { p with base := b } := h.delete hs
  have hmem : ∀ {x}, x ∈ b.range ↔ x ∈ p.base.range ∧ x ≠ et := h.base.mem_erase hb
  constructor
  · intro hmatch
    refine ⟨_, hs, hwf.represents_iff.mpr ⟨fun j x hj => ?_, fun x hx => ?_⟩⟩
    · rw [Function.update_of_ne (hmem.mp (List.mem_of_getElem? hj)).2]
      rcases h.slots_erase hi hb hj with ⟨-, hj'⟩ | ⟨rfl, -, hlast⟩
      · exact hin j x hj'
      · exact (hmatch j hi).trans (hin _ x hlast)
    · by_cases hxe : x = et
      · rw [hxe, Function.update_self]
      · rw [Function.update_of_ne hxe]
        exact hout x fun hxr => hx (hmem.mpr ⟨hxr, hxe⟩)
  · rintro ⟨p', hs', hm'⟩ k hk
    obtain rfl := Option.some.inj (hs.symm.trans hs')
    obtain rfl : k = i := h.base.slot_inj hk hi
    by_cases hkl : k = p.size.toNat - 1
    · rw [← hkl]
    · -- the last entity has moved into slot `k`
      obtain ⟨last, hlast⟩ := h.base.exists_last (h.base.getElem?_range.mp hi).1
      have hslot : b.range[k]? = some last := (h.slot_erase_moved hi hb hkl).trans hlast
      have hne : last ≠ et := (hmem.mp (List.mem_of_getElem? hslot)).2
      have := (hwf.represents_iff.mp hm').1 k last hslot
      rw [Function.update_of_ne hne, ← hin _ last hlast] at this
      exact this

/-- One proper call keeps the pool a map exactly if it is aligned. -/
theorem WF.step_iff (h : WF p) {m : BitVec w → Option α} (hm : Represents p m)
    {op : Op α w} (hop : op.Proper p) :
    op.Aligned p ↔ ∃ p', p.step op = some p' ∧ Represents p' (op.apply m) := by
  cases op with
  | assign et c =>
    obtain ⟨he, hc⟩ := hop
    obtain ⟨c, rfl⟩ := Option.isSome_iff_exists.mp hc
    exact h.assign_new_iff (h.base.has_eq_false.mp he) hm
  | replace et c =>
    obtain ⟨he, hc⟩ := hop
    obtain ⟨c, rfl⟩ := Option.isSome_iff_exists.mp hc
    obtain ⟨p', hs, hm'⟩ := h.replace_represents (h.base.has_eq_true.mp he) hm c
    exact iff_of_true trivial ⟨p', by rw [Pool.step, hs]; rfl, hm'⟩
  | assignOrReplace et c =>
    obtain ⟨c, rfl⟩ := Option.isSome_iff_exists.mp hop
    by_cases he : et ∈ p.base.range
    · obtain ⟨p', hs, hm'⟩ := h.replace_represents he hm c
      refine iff_of_true (fun hno => absurd he (h.base.has_eq_false.mp hno)) ⟨p', ?_, hm'⟩
      rw [Pool.step, assignOrReplace_of_mem h.base he, hs]
      rfl
    · have hb : p.has et = some false := h.base.has_eq_false.mpr he
      rw [Pool.step, assignOrReplace_of_notMem h.base he]
      exact (imp_iff_right hb).trans (h.assign_new_iff he hm)
  | delete et => exact h.delete_iff (h.base.has_eq_true.mp hop) hm
  | reset =>
    exact iff_of_true trivial ⟨p.reset, rfl,
      fun e => get_of_notMem h.base.toShape.wf_clear (by simp [reset])⟩
  | reserve count =>
    refine iff_of_true trivial ⟨p.reserve count, rfl, ?_⟩
    have hop : (Op.reserve count : Op α w).NoThrow := trivial
    have hwf : WF (p.reserve count) := h.step hop rfl
    rw [hwf.represents_iff]
    simpa [Op.apply] using h.represents_iff.mp hm

/-! ### Runs -/

/-- Run the pool and the map it should be, side by side. -/
def stepMap (s : Pool α w × (BitVec w → Option α)) (op : Op α w) :
    Option (Pool α w × (BitVec w → Option α)) :=
  (s.1.step op).map fun p => (p, op.apply s.2)

/-- **The pool is the map throughout exactly if every call is aligned.**  Along
a run of proper calls from the empty pool: `Get(e)` is null exactly when the
calls leave `e` without a component, and otherwise points to the one last
given to `e`, in every state of the run, if and only if every call meets
`Op.Aligned` in the state it is made in. -/
theorem get_eq_map_iff_aligned (ops : List (Op α w))
    (hops : Machine.Along stepMap (fun s op => op.Proper s.1) (empty, fun _ => none) ops) :
    Machine.Throughout stepMap (fun _ _ s => ∀ e, s.1.get e = some (s.2 e))
        (empty, fun _ => none) ops ↔
      Machine.Along stepMap (fun s op => op.Aligned s.1) (empty, fun _ => none) ops := by
  refine Machine.throughout_iff_along (I := fun s => WF s.1 ∧ Represents s.1 s.2) ?_ ?_
    ⟨wf_empty, represents_empty⟩ hops
  · rintro ⟨p, m⟩ op ⟨hwf, hm⟩ hop
    rw [hwf.step_iff hm hop]
    simp only [stepMap, Option.map_eq_some_iff]
    constructor
    · rintro ⟨p', hs, hm'⟩
      exact ⟨_, ⟨p', hs, rfl⟩, hm'⟩
    · rintro ⟨_, ⟨p', hs, rfl⟩, hm'⟩
      exact ⟨p', hs, hm'⟩
  · rintro ⟨p, m⟩ op s' ⟨hwf, hm⟩ hop hal hs
    obtain ⟨p', hp, rfl⟩ := Option.map_eq_some_iff.mp hs
    obtain ⟨q, hq, hm'⟩ := (hwf.step_iff hm hop).mp hal
    obtain rfl := Option.some.inj (hq.symm.trans hp)
    exact ⟨hwf.step hop.noThrow hp, hm'⟩

/-- Two entities, and the one assigned last is deleted. -/
theorem get_eq_map_iff_aligned_last :
    let ops : List (Op ℕ 64) := [.assign 0 (some 450), .assign 1 (some 1743), .delete 1]
    Machine.Along stepMap (fun s op => op.Aligned s.1) (empty, fun _ => none) ops ∧
      Machine.Throughout stepMap (fun _ _ s => ∀ e, s.1.get e = some (s.2 e))
        (empty, fun _ => none) ops := by
  intro ops
  have haligned : Machine.Along stepMap (fun s op => op.Aligned s.1)
      (empty, fun _ => none) ops := by
    refine ⟨⟨by decide, .inl rfl⟩, fun s hs => ?_⟩
    obtain rfl := Option.some.inj hs
    refine ⟨⟨by decide, .inl rfl⟩, fun s hs => ?_⟩
    obtain rfl := Option.some.inj hs
    refine ⟨?_, fun _ _ => trivial⟩
    -- entity 1 has the last index
    rintro (- | - | i) hi
    · cases hi
    · rfl
    · cases hi
  exact ⟨haligned, (get_eq_map_iff_aligned ops (by decide)).mpr haligned⟩

/-- `Assign(0, 450); Assign(1, 1743); Delete(0)`: entity 1 is left with the
component of entity 0. -/
theorem get_after_delete_ne_map :
    let ops : List (Op ℕ 64) := [.assign 0 (some 450), .assign 1 (some 1743), .delete 0]
    Machine.Along stepMap (fun s op => op.Proper s.1) (empty, fun _ => none) ops ∧
      (Machine.run step empty ops).bind (·.get 1) = some (some 450) ∧
      ¬ Machine.Throughout stepMap (fun _ _ s => ∀ e, s.1.get e = some (s.2 e))
        (empty, fun _ => none) ops := by
  refine ⟨by decide, by decide, fun h => ?_⟩
  have h1 := h.mono fun _ _ s hs => (hs 1 : s.1.get 1 = some (s.2 1))
  revert h1
  decide

end Pool

end Indie
