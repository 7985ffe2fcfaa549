/-
Indie/Library/SwapList.lean

Removal by swapping with the last element.  An array that need not keep its
order deletes cell `i` in constant time: the last element moves into the cell
and the array gets one shorter.  Up to order this is `List.eraseIdx`
(`swapRemove_perm`), so on a list without repetitions it removes exactly the
element of the cell; `getElem?_swapRemove` says where every other element
ends up, and `pos_swapRemove_le` that no element moves up.

With `add`, which appends an element unless it is there, such a list is a set
whose elements have positions (`add`, `remove`).
-/
import Mathlib.Data.List.Perm.Basic
import Mathlib.Data.List.Nodup
import Mathlib.Tactic

namespace SwapList

variable {α : Type*}

/-- Move the last element into cell `i` and shorten the list. -/
def swapRemove (l : List α) (i : ℕ) : List α :=
  match l.getLast? with
  | some x => (l.set i x).dropLast
  | none => []

@[simp] theorem length_swapRemove (l : List α) (i : ℕ) :
    (swapRemove l i).length = l.length - 1 := by
  unfold swapRemove
  split
  · simp
  · rename_i h
    simp [List.getLast?_eq_none_iff.mp h]

theorem swapRemove_concat (l : List α) (x : α) (i : ℕ) :
    swapRemove (l ++ [x]) i = if i < l.length then l.set i x else l := by
  rw [swapRemove, List.getLast?_concat]
  dsimp only
  split
  · rename_i hi
    rw [List.set_append_left _ _ hi, List.dropLast_concat]
  · rename_i hi
    rw [List.set_append_right _ _ (Nat.le_of_not_lt hi)]
    rcases Nat.eq_zero_or_pos (i - l.length) with h | h
    · rw [h, List.set_cons_zero, List.dropLast_concat]
    · rw [List.set_eq_of_length_le (by rw [List.length_singleton]; omega), List.dropLast_concat]

theorem swapRemove_cons_succ {l : List α} (hl : l ≠ []) (x : α) (i : ℕ) :
    swapRemove (x :: l) (i + 1) = x :: swapRemove l i := by
  obtain ⟨z, hz⟩ := Option.ne_none_iff_exists'.mp (mt List.getLast?_eq_none_iff.mp hl)
  have hset : l.set i z ≠ [] := by
    rw [← List.length_pos_iff, List.length_set]
    exact List.length_pos_of_ne_nil hl
  rw [swapRemove, swapRemove, List.getLast?_cons, hz]
  exact List.dropLast_cons_of_ne_nil hset

/-- Up to order, swap-removal is removal. -/
theorem swapRemove_perm {l : List α} {i : ℕ} (hi : i < l.length) :
    (swapRemove l i).Perm (l.eraseIdx i) := by
  induction l using List.reverseRecOn with
  | nil => simp at hi
  | append_singleton l x _ =>
    rw [swapRemove_concat]
    split
    · rename_i h
      rw [List.eraseIdx_append_of_lt_length h, List.set_eq_take_append_cons_drop, if_pos h,
        List.eraseIdx_eq_take_drop_succ, List.append_assoc]
      exact (List.perm_append_left_iff _).mpr (List.perm_append_singleton x _).symm
    · rename_i h
      have hil : i = l.length := by
        rw [List.length_append, List.length_singleton] at hi
        omega
      subst hil
      rw [List.eraseIdx_append_of_length_le (Nat.le_refl _)]
      simp

/-- On a list without repetitions, exactly the element of the cell goes. -/
theorem mem_swapRemove {l : List α} (hl : l.Nodup) {i : ℕ} {v : α}
    (hv : l[i]? = some v) {x : α} :
    x ∈ swapRemove l i ↔ x ∈ l ∧ x ≠ v := by
  obtain ⟨hi, hvi⟩ := List.getElem?_eq_some_iff.mp hv
  rw [(swapRemove_perm hi).mem_iff, List.mem_eraseIdx_iff_getElem]
  constructor
  · rintro ⟨j, hj, hji, rfl⟩
    refine ⟨List.getElem_mem _, fun h => hji ?_⟩
    exact (List.Nodup.getElem_inj_iff hl).mp (h.trans hvi.symm)
  · rintro ⟨hx, hxv⟩
    obtain ⟨j, hj, rfl⟩ := List.mem_iff_getElem.mp hx
    refine ⟨j, hj, ?_, rfl⟩
    rintro rfl
    exact hxv hvi

/-- The cells after a swap-removal: cell `i` holds the old last element, the
others are as they were. -/
theorem getElem?_swapRemove {l : List α} {i j : ℕ} (hi : i < l.length)
    (hj : j < l.length - 1) :
    (swapRemove l i)[j]? = if j = i then l[l.length - 1]? else l[j]? := by
  induction l using List.reverseRecOn with
  | nil => simp at hi
  | append_singleton l x _ =>
    simp only [List.length_append, List.length_singleton, Nat.add_sub_cancel] at hi hj ⊢
    rw [swapRemove_concat]
    have hlast : (l ++ [x])[l.length]? = some x := by simp
    rw [hlast, List.getElem?_append_left hj]
    split
    · rename_i h
      rw [List.getElem?_set]
      by_cases hij : i = j
      · rw [if_pos hij, if_pos hij.symm, if_pos h]
      · rw [if_neg hij, if_neg (Ne.symm hij)]
    · rename_i h
      rw [if_neg (by omega)]

/-- No element moves up: what a cell holds after the removal was in that cell
or in a later one. -/
theorem pos_swapRemove_le {l : List α} {i j : ℕ} {x : α} (hi : i < l.length)
    (hj : (swapRemove l i)[j]? = some x) : ∃ k, j ≤ k ∧ l[k]? = some x := by
  have hlt : j < l.length - 1 := by
    simpa using (List.getElem?_eq_some_iff.mp hj).1
  rw [getElem?_swapRemove hi hlt] at hj
  split at hj
  · exact ⟨_, hlt.le, hj⟩
  · exact ⟨j, le_rfl, hj⟩

/-- Writing the last element over cell `i` and cutting the last cell off is
the swap-removal of cell `i`. -/
theorem take_set_last {l : List α} {n i : ℕ} {x : α} (hn : n ≤ l.length)
    (hx : l[n - 1]? = some x) (hi : i < n) :
    (l.set i x).take (n - 1) = swapRemove (l.take n) i := by
  apply List.ext_getElem?
  intro j
  have hlen : (l.take n).length = n := List.length_take_of_le hn
  rcases Nat.lt_or_ge j (n - 1) with hj | hj
  · rw [List.getElem?_take_of_lt hj, getElem?_swapRemove (by omega) (by omega), hlen,
      List.getElem?_take_of_lt (by omega), List.getElem?_take_of_lt (by omega), hx,
      List.getElem?_set]
    by_cases hij : i = j
    · rw [if_pos hij, if_pos hij.symm, if_pos (by omega)]
    · rw [if_neg hij, if_neg (Ne.symm hij)]
  · rw [List.getElem?_eq_none, List.getElem?_eq_none]
    · rw [length_swapRemove, hlen]
      exact hj
    · exact (List.length_take_le _ _).trans hj

/-! ### Ordered sets -/

section OrderedSet

variable [DecidableEq α] {l : List α} {x v : α} {i : ℕ}

/-- Append an element, unless it is there. -/
def add (l : List α) (v : α) : List α := if v ∈ l then l else l ++ [v]

/-- Swap-remove an element, if it is there. -/
def remove (l : List α) (v : α) : List α :=
  if v ∈ l then swapRemove l (l.idxOf v) else l

theorem add_of_mem (h : v ∈ l) : add l v = l := if_pos h

theorem add_of_notMem (h : v ∉ l) : add l v = l ++ [v] := if_neg h

theorem remove_of_notMem (h : v ∉ l) : remove l v = l := if_neg h

theorem getElem?_idxOf (h : x ∈ l) : l[l.idxOf x]? = some x := by
  rw [List.getElem?_eq_getElem (List.idxOf_lt_length_of_mem h), List.getElem_idxOf]

/-- In a list without repetitions an element has one position. -/
theorem idxOf_eq (hl : l.Nodup) (h : l[i]? = some x) : l.idxOf x = i := by
  obtain ⟨hi, rfl⟩ := List.getElem?_eq_some_iff.mp h
  exact hl.idxOf_getElem i hi

theorem remove_of_getElem? (hl : l.Nodup) (h : l[i]? = some v) :
    remove l v = swapRemove l i := by
  rw [remove, if_pos (List.mem_of_getElem? h), idxOf_eq hl h]

@[simp] theorem mem_add : x ∈ add l v ↔ x = v ∨ x ∈ l := by
  rw [add]
  split
  · rename_i h
    exact ⟨.inr, fun hx => hx.elim (fun e => e ▸ h) id⟩
  · rw [List.mem_append, List.mem_singleton, or_comm]

/-! ### Renamed elements -/

variable {β : Type*} [DecidableEq β] {f : α → β}

omit [DecidableEq α] [DecidableEq β] in
theorem map_swapRemove (f : α → β) (l : List α) (i : ℕ) :
    swapRemove (l.map f) i = (swapRemove l i).map f := by
  rw [swapRemove, swapRemove, List.getLast?_map]
  rcases l.getLast? with - | x
  · rfl
  · show ((l.map f).set i (f x)).dropLast = ((l.set i x).dropLast).map f
    rw [List.map_dropLast, List.map_set]

theorem idxOf_map (hf : f.Injective) (l : List α) (v : α) :
    (l.map f).idxOf (f v) = l.idxOf v := by
  induction l with
  | nil => rfl
  | cons x l ih =>
    have hbeq : (f x == f v) = (x == v) := by
      rw [Bool.eq_iff_iff, beq_iff_eq, beq_iff_eq, hf.eq_iff]
    rw [List.map_cons, List.idxOf_cons, List.idxOf_cons, ih, hbeq]

theorem map_add (hf : f.Injective) (l : List α) (v : α) :
    add (l.map f) (f v) = (add l v).map f := by
  by_cases h : v ∈ l
  · rw [add_of_mem h, add_of_mem (List.mem_map_of_mem h)]
  · rw [add_of_notMem h, add_of_notMem (mt (List.mem_map_of_injective hf).mp h), List.map_append]
    rfl

theorem map_remove (hf : f.Injective) (l : List α) (v : α) :
    remove (l.map f) (f v) = (remove l v).map f := by
  by_cases h : v ∈ l
  · rw [remove, remove, if_pos h, if_pos (List.mem_map_of_mem h), idxOf_map hf, map_swapRemove]
  · rw [remove_of_notMem h, remove_of_notMem (mt (List.mem_map_of_injective hf).mp h)]

end OrderedSet

end SwapList
