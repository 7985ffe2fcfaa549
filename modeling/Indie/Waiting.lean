/-
Indie/Waiting.lean

The recycled set, damaged or not.

`Create` takes the first id out of `_deleted_et` through an iterator (`Erase`).
With two or more ids waiting this leaves the last of them in the first cell, where
no record leads: an *orphan*.  From then on the set is a list with an orphan in
front.  `Create` returns the orphan again and again, and erases the id elsewhere, if
it waits a second time; `Destroy` appends behind it.

`Waiting` is this list, with the capacity, for the orphan takes up a cell: the list
may grow longer than the capacity, and the insertion then writes outside.  In every
state a manager can reach, `Insert` and `Erase(Begin())` do to `_deleted_et` what
`put` and `take` do to the list, and `Insert` is undefined where `put` is
(`Queues.insert`, `Queues.eraseAt`).
-/
import Indie.SetOrder
import Indie.Stuck

namespace Indie

/-- The ids that wait, behind the one that no record leads to. -/
structure Waiting (w : ℕ) where
  orphan : Option (BitVec w)
  ids : List (BitVec w)
  capacity : ℕ

namespace Waiting

variable {w : ℕ}

def empty : Waiting w := ⟨none, [], 0⟩

/-- All cells. -/
def cells (q : Waiting w) : List (BitVec w) := q.orphan.toList ++ q.ids

/-- `Insert(v)`: a new id needs a cell. -/
def put (q : Waiting w) (v : BitVec w) : Option (Waiting w) :=
  if q.ids.contains v then some q
  else if q.cells.length < max q.capacity (v.toNat + 1) then
    some { q with ids := q.ids ++ [v], capacity := max q.capacity (v.toNat + 1) }
  else none

/-- The id `Create` recycles, if there is one, and what waits afterwards. -/
def take (q : Waiting w) : Option (BitVec w) × Waiting w :=
  match q.orphan, q.ids with
  | some x, ids => (some x, { q with ids := SwapList.remove ids x })
  | none, [] => (none, q)
  | none, [x] => (some x, { q with ids := [] })
  -- the last id is left behind in the first cell
  | none, x :: y :: ids =>
    (some x, { q with orphan := (y :: ids).getLast?, ids := (y :: ids).dropLast })

/-- A fresh id is drawn where nothing waits. -/
theorem take_none {q : Waiting w} (h : q.take.1 = none) : q.cells = [] ∧ q.take.2 = q := by
  obtain ⟨orphan, ids, capacity⟩ := q
  match orphan, ids with
  | none, [] => exact ⟨rfl, rfl⟩
  | none, [x] => cases h
  | none, x :: y :: ids => cases h
  | some x, ids => cases h

/-- The first id is recycled. -/
theorem head?_cells {q : Waiting w} {x : BitVec w} (h : q.take.1 = some x) :
    q.cells.head? = some x := by
  obtain ⟨orphan, ids, capacity⟩ := q
  match orphan, ids with
  | none, [] => cases h
  | none, [y] => exact h
  | none, y :: z :: ids => exact h
  | some y, ids => exact h

end Waiting

namespace SparseSet

variable {w : ℕ} {s s' : SparseSet w} {q : Waiting w} {v x : BitVec w} {i : ℕ}

/-- The set holds the list: there are records of all ids but the orphan. -/
structure Queues (s : SparseSet w) (q : Waiting w) : Prop extends Shape s where
  range : s.range = q.cells
  nodup : q.ids.Nodup
  capacity : s.capacity.toNat = q.capacity
  below : ∀ v ∈ s.range, v.toNat < s.capacity.toNat
  record : ∀ {i v}, q.ids[i]? = some v →
    s.sparse[v.toNat]? = some (BitVec.ofNat w (q.orphan.toList.length + i))
  lost : ∀ x, q.orphan = some x → ∃ j, s.sparse[x.toNat]? = some j ∧ 0 < j.toNat

namespace Queues

theorem size_eq (h : Queues s q) : s.size.toNat = q.cells.length := by
  rw [← h.length_range, h.range]

theorem getElem?_ids (h : Queues s q) :
    q.ids[i]? = some v ↔ s.range[q.orphan.toList.length + i]? = some v := by
  rw [h.range, Waiting.cells, List.getElem?_append_right (Nat.le_add_right _ _),
    Nat.add_sub_cancel_left]

/-- A fresh id is drawn where the set is empty. -/
theorem size_eq_zero_iff (h : Queues s q) : s.size = 0 ↔ q.take.1 = none := by
  constructor
  · intro hsize
    have hnil := List.eq_nil_of_length_eq_zero (h.size_eq.symm.trans (congrArg BitVec.toNat hsize))
    by_contra hne
    obtain ⟨x, hx⟩ := Option.ne_none_iff_exists'.mp hne
    have hhead := Waiting.head?_cells hx
    rw [hnil] at hhead
    cases hhead
  · intro hnone
    apply BitVec.eq_of_toNat_eq
    rw [h.size_eq, (Waiting.take_none hnone).1]
    rfl

/-- Without an orphan the set is well formed. -/
theorem wf (h : Queues s q) (ho : q.orphan = none) : WF s where
  toShape := h.toShape
  sparse_dense := by
    intro i v hv
    have hi := h.getElem?_ids (i := i) (v := v)
    have hr := h.record (i := i) (v := v)
    rw [ho, Option.toList_none, List.length_nil, Nat.zero_add] at hi hr
    exact hr (hi.mpr hv)

/-- A well-formed set has no orphan. -/
theorem of_wf (h : WF s) : Queues s ⟨none, s.range, s.capacity.toNat⟩ where
  toShape := h.toShape
  range := rfl
  nodup := h.range_nodup
  capacity := rfl
  below _ := h.lt_capacity
  record hi := by
    rw [Option.toList_none, List.length_nil, Nat.zero_add]
    exact h.sparse_dense hi
  lost := nofun

theorem empty : Queues (SparseSet.empty : SparseSet w) .empty := by
  have h := of_wf (wf_empty (w := w))
  rwa [range_empty] at h

/-- `Has` does not find the orphan. -/
theorem has_eq (h : Queues s q) (v : BitVec w) : s.has v = some (q.ids.contains v) := by
  obtain ⟨b, hb⟩ := h.has_defined v
  rw [hb, Option.some.injEq, Bool.eq_iff_iff, List.contains_iff_mem]
  constructor
  · rintro rfl
    obtain ⟨j, hj, hlt, hv⟩ := has_eq_some_true hb
    have hr := h.getElem?_range.mpr ⟨hlt, hv⟩
    rw [h.range, Waiting.cells] at hr
    rcases ho : q.orphan with - | x
    · rw [ho] at hr
      exact List.mem_of_getElem? hr
    · obtain ⟨j', hj', hpos⟩ := h.lost x ho
      rw [ho, Option.toList_some, List.singleton_append] at hr
      rcases hn : j.toNat with - | n
      · -- the record of the orphan names another cell
        rw [hn, List.getElem?_cons_zero, Option.some.injEq] at hr
        rw [hr, hj, Option.some.injEq] at hj'
        rw [← hj', hn] at hpos
        exact absurd hpos (Nat.lt_irrefl 0)
      · rw [hn, List.getElem?_cons_succ] at hr
        exact List.mem_of_getElem? hr
  · intro hv
    obtain ⟨i, hi⟩ := List.getElem?_of_mem hv
    have hr := h.getElem?_ids.mp hi
    obtain ⟨hlt, hd⟩ := h.getElem?_range.mp hr
    have hji := h.toNat_ofNat hr
    have hcap := h.below v (List.mem_of_getElem? hr)
    rw [has, if_pos (BitVec.lt_def.mpr hcap), h.record hi, Option.bind_eq_bind,
      Option.bind_some, if_pos (BitVec.lt_def.mpr (hji.symm ▸ hlt)), hji, hd] at hb
    simpa using hb.symm

/-- An id that has no record is appended, if there is a cell for it. -/
theorem append (h : Queues s q) (hno : v ∉ q.ids) (hv : v.toNat + 1 < 2 ^ w) :
    Option.Rel Queues (s.append v)
      (if q.cells.length < max q.capacity (v.toNat + 1) then
        some { q with ids := q.ids ++ [v], capacity := max q.capacity (v.toNat + 1) }
      else none) := by
  have hcap : (s.grow v).capacity.toNat = max q.capacity (v.toNat + 1) := by
    rw [capacity_grow s hv, h.capacity]
  have hlt := lt_capacity_grow s hv
  split
  · rename_i hsize
    have hn : s.size.toNat < (s.grow v).capacity.toNat := by rwa [hcap, h.size_eq]
    have hs := h.append_eq_some.mpr ⟨hn, hlt, rfl⟩
    obtain ⟨hshape, hrange⟩ := h.toShape.append hs
    have hsparse : ∀ x j, x ∈ s.range → s.sparse[x.toNat]? = some j → x ≠ v →
        ((s.grow v).sparse.set v.toNat s.size)[x.toNat]? = some j := by
      intro x j hx hj hne
      rw [List.getElem?_set_ne fun e => hne (BitVec.eq_of_toNat_eq e).symm,
        (h.getElem?_grow v (h.below x hx)).2, hj]
    have hself : ((s.grow v).sparse.set v.toNat s.size)[v.toNat]? = some s.size :=
      List.getElem?_set_self ((h.grow v).sparse_length ▸ hlt)
    rw [hs]
    refine .some ⟨hshape, ?_, ?_, hcap, ?_, ?_, ?_⟩
    · rw [hrange, h.range, Waiting.cells, Waiting.cells, List.append_assoc]
    · rw [List.nodup_append]
      exact ⟨h.nodup, List.nodup_singleton v, fun a ha b hb e =>
        hno (List.mem_singleton.mp hb ▸ e ▸ ha)⟩
    · intro u hu
      rw [hrange, List.mem_append, List.mem_singleton] at hu
      rcases hu with hu | rfl
      · exact (h.below u hu).trans_le (capacity_le_grow s v)
      · exact hlt
    · intro i u hu
      rcases Vec.getElem?_concat_eq_some.mp hu with hu | ⟨rfl, rfl⟩
      · exact hsparse u _ (List.mem_of_getElem? (h.getElem?_ids.mp hu)) (h.record hu)
          fun e => hno (e ▸ List.mem_of_getElem? hu)
      · have hlen : q.orphan.toList.length + q.ids.length = s.size.toNat := by
          rw [h.size_eq, Waiting.cells, List.length_append]
        show _ = some (BitVec.ofNat w (q.orphan.toList.length + q.ids.length))
        rw [hlen, BitVec.ofNat_toNat, BitVec.setWidth_eq]
        exact hself
    · intro x hx
      obtain ⟨j, hj, hpos⟩ := h.lost x hx
      have hmem : x ∈ s.range := by
        rw [h.range, Waiting.cells, show q.orphan = some x from hx]
        exact List.mem_append_left _ (List.mem_singleton_self x)
      by_cases hxv : x = v
      · -- the orphan waits once more, in another cell
        subst hxv
        refine ⟨s.size, hself, ?_⟩
        rw [← h.length_range]
        exact List.length_pos_of_mem hmem
      · exact ⟨j, hsparse x j hmem hj hxv, hpos⟩
  · rename_i hsize
    have hnone : s.append v = none := by
      rw [Option.eq_none_iff_forall_ne_some]
      intro s' hs
      have hn := (h.append_eq_some.mp hs).1
      rw [hcap, h.size_eq] at hn
      exact hsize hn
    rw [hnone]
    exact .none

/-- `Insert` is `put`. -/
theorem insert (h : Queues s q) (hv : v.toNat + 1 < 2 ^ w) :
    Option.Rel Queues (s.insert v) (q.put v) := by
  rw [SparseSet.insert, h.has_eq, Option.bind_eq_bind, Option.bind_some, Waiting.put]
  split
  · exact .some h
  · rename_i hno
    rw [List.contains_iff_mem] at hno
    exact h.append hno hv

/-! ### `Erase(Begin())` -/

/-- Before any damage: the only id goes, or the last of several is left behind. -/
theorem eraseAt_none (h : Queues s q) (ho : q.orphan = none) (hx : q.take.1 = some x) :
    s.dense[0]? = some x ∧ ∃ s', s.eraseAt 0 = some s' ∧ Queues s' q.take.2 := by
  have hwf := h.wf ho
  have hr : s.range = q.ids := by rw [h.range, Waiting.cells, ho]; rfl
  obtain ⟨orphan, ids, capacity⟩ := q
  obtain rfl : orphan = none := ho
  change s.range = ids at hr
  match ids with
  | [] => cases hx
  | [y] =>
    obtain rfl : y = x := Option.some.inj hx
    have hzero : s.range[0]? = some y := by rw [hr]; rfl
    have hone : 0 + 1 = s.size.toNat := by rw [h.size_eq]; rfl
    obtain ⟨s', hs⟩ := hwf.erase_defined y
    refine ⟨(h.getElem?_range.mp hzero).2, s', (hwf.eraseAt_last hone hzero).trans hs, ?_⟩
    have hq := of_wf (hwf.erase hs)
    rw [hwf.range_erase hs, hr, hwf.capacity_erase hs, h.capacity,
      SwapList.remove_of_getElem? (List.nodup_singleton y) (i := 0) rfl] at hq
    exact hq
  | y :: z :: ids =>
    obtain rfl : y = x := Option.some.inj hx
    have hzero : s.range[0]? = some y := by rw [hr]; rfl
    have hsize : 1 < s.size.toNat := by
      rw [h.size_eq]
      simp [Waiting.cells]
    have hpos : 0 < s.size.toNat := Nat.zero_lt_of_lt hsize
    obtain ⟨last, hlast⟩ := h.exists_last hpos
    have hs := hwf.eraseAt_eq hpos hlast
    refine ⟨(h.getElem?_range.mp hzero).2, _, hs, ?_⟩
    have hstuck := hwf.stuck_eraseAt hsize hlast hs
    have hget : (z :: ids).getLast? = some last := by
      rw [← List.getLast?_cons_cons (a := y), ← hr, List.getLast?_eq_getElem?, h.length_range,
        hlast]
    have hlen : z :: ids ≠ [] := List.cons_ne_nil z ids
    refine ⟨hstuck.toShape, ?_, (List.nodup_cons.mp h.nodup).2.sublist (List.dropLast_sublist _),
      h.capacity, hstuck.below, fun {i v} hi => ?_, fun u hu => ?_⟩
    · show (s.overwrite 0 last).dense.take (s.size - 1).toNat =
        (z :: ids).getLast?.toList ++ (z :: ids).dropLast
      rw [Shape.toNat_size_sub_one hpos, h.overwrite_range hpos hlast, hr, SwapList.swapRemove,
        List.getLast?_cons_cons, hget]
      exact List.dropLast_cons_of_ne_nil hlen
    · show s.sparse[v.toNat]? = some (BitVec.ofNat w ((z :: ids).getLast?.toList.length + i))
      change (z :: ids).dropLast[i]? = some v at hi
      rw [List.getElem?_dropLast] at hi
      split at hi
      · rw [hget, Option.toList_some, List.length_singleton, Nat.add_comm]
        have hrec := h.record (i := i + 1) (v := v) (by rwa [List.getElem?_cons_succ])
        rwa [Option.toList_none, List.length_nil, Nat.zero_add] at hrec
      · cases hi
    · obtain rfl : last = u := Option.some.inj (hget.symm.trans hu)
      exact hstuck.lost

/-- Afterwards: the orphan stays in the first cell, and goes where it waits again. -/
theorem eraseAt_some (h : Queues s q) (ho : q.orphan = some x) :
    s.dense[0]? = some x ∧ ∃ s', s.eraseAt 0 = some s' ∧
      Queues s' { q with ids := SwapList.remove q.ids x } := by
  have hr : s.range = x :: q.ids := by rw [h.range, Waiting.cells, ho]; rfl
  have hoff : q.orphan.toList.length = 1 := by rw [ho]; rfl
  have hd := (h.getElem?_range.mp (show s.range[0]? = some x by rw [hr]; rfl)).2
  refine ⟨hd, ?_⟩
  by_cases hx : x ∈ q.ids
  · have hb : s.has x = some true := by rw [h.has_eq, List.contains_iff_mem.mpr hx]
    obtain ⟨k, hk⟩ := List.getElem?_of_mem hx
    have hslot := h.getElem?_ids.mp hk
    have hj := h.record hk
    have hjk := h.toNat_ofNat hslot
    rw [hoff] at hslot hj hjk
    have hlt := (h.getElem?_range.mp hslot).1
    have hjlt := hjk.trans_lt hlt
    obtain ⟨last, hlast⟩ := h.exists_last hlt
    have hne : q.ids ≠ [] := List.ne_nil_of_mem hx
    have hlen : s.size.toNat = q.ids.length + 1 := by rw [← h.length_range, hr, List.length_cons]
    have hklt : k < q.ids.length := (List.getElem?_eq_some_iff.mp hk).1
    have hlast' : q.ids[q.ids.length - 1]? = some last := by
      rw [hr, hlen, Nat.add_sub_cancel] at hlast
      rw [← List.getElem?_cons_succ (a := x), Nat.sub_add_cancel (Nat.zero_lt_of_lt hklt)]
      exact hlast
    have hbelow := h.below last (List.mem_of_getElem? hlast)
    -- the first cell is not the one overwritten: the parameter still reads `x`
    have hcell : (s.dense.set (BitVec.ofNat w (1 + k)).toNat last)[0]? = some x := by
      rw [hjk, List.getElem?_set_ne (by omega), hd]
    have hs := (h.eraseRef_eq_some (r := .cell 0) hd hb hj hjlt hlast).mpr
      ⟨x, hcell, _, hj, hbelow, rfl⟩
    obtain ⟨hshape, -⟩ := h.toShape.eraseRef hs
    have hsub := h.toShape.range_eraseRef_subset hs
    have hrecord : ∀ {i v}, (SwapList.remove q.ids x)[i]? = some v →
        (s.sparse.set last.toNat (BitVec.ofNat w (1 + k)))[v.toNat]? =
          some (BitVec.ofNat w (1 + i)) := by
      intro i v hi
      rw [SwapList.remove_of_getElem? h.nodup hk] at hi
      have hlti : i < q.ids.length - 1 := by simpa using (List.getElem?_eq_some_iff.mp hi).1
      rw [SwapList.getElem?_swapRemove hklt hlti] at hi
      split at hi
      · rename_i hik
        obtain rfl := Option.some.inj (hlast'.symm.trans hi)
        rw [hik]
        exact List.getElem?_set_self (h.sparse_length ▸ hbelow)
      · have hvl : last ≠ v := by
          rintro rfl
          have := (SwapList.idxOf_eq h.nodup hi).symm.trans (SwapList.idxOf_eq h.nodup hlast')
          omega
        rw [List.getElem?_set_ne fun e => hvl (BitVec.eq_of_toNat_eq e), h.record hi, hoff]
    refine ⟨_, hs, hshape, ?_, ?_, h.capacity, fun v hv => h.below v (hsub hv), ?_,
      fun y hy => ?_⟩
    · show (s.overwrite (BitVec.ofNat w (1 + k)).toNat last).dense.take (s.size - 1).toNat =
        q.orphan.toList ++ SwapList.remove q.ids x
      rw [Shape.toNat_size_sub_one hlt, h.overwrite_range hjlt hlast, hjk, hr, ho,
        SwapList.remove_of_getElem? h.nodup hk, Nat.add_comm, SwapList.swapRemove_cons_succ hne]
      rfl
    · show (SwapList.remove q.ids x).Nodup
      rw [SwapList.remove_of_getElem? h.nodup hk, (SwapList.swapRemove_perm hklt).nodup_iff]
      exact h.nodup.sublist (List.eraseIdx_sublist _ _)
    · intro i v hi
      show _ = some (BitVec.ofNat w (q.orphan.toList.length + i))
      rw [hoff]
      exact hrecord hi
    · obtain rfl : x = y := Option.some.inj (ho.symm.trans hy)
      by_cases hxl : last = x
      · refine ⟨BitVec.ofNat w (1 + k), ?_, by omega⟩
        rw [hxl]
        exact List.getElem?_set_self (h.sparse_length ▸ hxl ▸ hbelow)
      · refine ⟨BitVec.ofNat w (1 + k), ?_, by omega⟩
        show (s.sparse.set last.toNat _)[x.toNat]? = _
        rw [List.getElem?_set_ne fun e => hxl (BitVec.eq_of_toNat_eq e), hj]
  · have hb : s.has x = some false := by
      rw [h.has_eq, Bool.eq_false_iff.mpr (mt List.contains_iff_mem.mp hx)]
    rw [SwapList.remove_of_notMem hx]
    exact ⟨s, eraseRef_of_has_false (r := .cell 0) hd hb, h⟩

/-- `Erase(Begin())` is `take`. -/
theorem eraseAt (h : Queues s q) (hx : q.take.1 = some x) :
    s.dense[0]? = some x ∧ ∃ s', s.eraseAt 0 = some s' ∧ Queues s' q.take.2 := by
  rcases ho : q.orphan with - | y
  · exact h.eraseAt_none ho hx
  · have htake : q.take = (some y, { q with ids := SwapList.remove q.ids y }) := by
      rw [Waiting.take, ho]
    rw [htake] at hx ⊢
    obtain rfl := Option.some.inj hx
    exact h.eraseAt_some ho

end Queues

end SparseSet

end Indie
