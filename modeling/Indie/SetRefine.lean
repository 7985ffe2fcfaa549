/-
Indie/SetRefine.lean

The sparse set refines a finite set.

The abstract calls (`Op.apply`) act on a `Finset`: `Insert` and `Erase` add
and remove one value, `Clear` empties, `Reserve` does nothing.  `Represents`
says that a sparse set answers as a finite set does: `Has`, `Size()`, the
range, and `IndexOf` as the inverse of the position in the range.

A member acts on the range alone, so two well-formed sets with one range stay
so under any further calls (`run_sameRange`).  That is why neither the
capacity nor what `Clear` leaves in the two vectors is ever seen.
-/
import Indie.Erase
import Mathlib.Data.Finset.Card
import Mathlib.Data.Set.Function

namespace Indie

namespace SparseSet

variable {w : ℕ} {s s' t : SparseSet w} {v x : BitVec w}

/-- What a call does to the set of values. -/
def Op.apply (A : Finset (BitVec w)) : Op w → Finset (BitVec w)
  | .insert val => Insert.insert val A
  | .erase val => A.erase val
  | .clear => ∅
  | .reserve _ => A

/-- Only values below the largest one are inserted. -/
def Op.Fits : Op w → Prop
  | .insert val => val.toNat + 1 < 2 ^ w
  | _ => True

/-- The answers of a sparse set are those of the finite set `A`. -/
structure Represents (s : SparseSet w) (A : Finset (BitVec w)) : Prop where
  has : ∀ x, s.has x = some (decide (x ∈ A))
  size : s.size.toNat = A.card
  nodup : s.range.Nodup
  mem_range : ∀ x, x ∈ s.range ↔ x ∈ A
  indexOf_bijOn : Set.BijOn (fun x => (s.indexOf x).map BitVec.toNat) A
    (some '' Set.Iio s.size.toNat)
  range_indexOf : ∀ x ∈ A, ∀ i, (s.indexOf x).map BitVec.toNat = some i →
    s.range[i]? = some x

/-- Two sets give the same answers: to `Has`, to `Size()`, in the range with
its order, and to `IndexOf` of its elements. -/
structure SameAnswers (s t : SparseSet w) : Prop where
  has : ∀ x, s.has x = t.has x
  size : s.size = t.size
  range : s.range = t.range
  indexOf : ∀ x ∈ s.range, s.indexOf x = t.indexOf x

/-! ### A member acts on the range alone -/

theorem WF.sameAnswers (hs : WF s) (ht : WF t) (h : s.range = t.range) :
    SameAnswers s t where
  has x := by rw [hs.has_eq, ht.has_eq, h]
  size := by
    apply BitVec.eq_of_toNat_eq
    rw [← hs.length_range, ← ht.length_range, h]
  range := h
  indexOf := by
    intro x hx
    obtain ⟨i, hi⟩ := List.getElem?_of_mem hx
    rw [hs.indexOf_eq hi, ht.indexOf_eq (h ▸ hi)]

/-- A well-formed set answers as the finite set of its range. -/
theorem WF.represents (h : WF s) : Represents s s.range.toFinset where
  has x := by
    rw [h.has_eq]
    simp
  size := by rw [List.toFinset_card_of_nodup h.range_nodup, h.length_range]
  nodup := h.range_nodup
  mem_range x := List.mem_toFinset.symm
  indexOf_bijOn := by
    have key : ∀ {x i}, s.range[i]? = some x →
        (s.indexOf x).map BitVec.toNat = some i := by
      intro x i hi
      rw [h.indexOf_eq hi, Option.map_some, h.toNat_ofNat hi]
    refine ⟨?_, ?_, ?_⟩
    · -- maps into the indices
      intro x hx
      obtain ⟨i, hi⟩ := List.getElem?_of_mem (List.mem_toFinset.mp hx)
      exact ⟨i, (h.getElem?_range.mp hi).1, (key hi).symm⟩
    · -- injective: the slot determines its element
      intro x hx y hy hxy
      obtain ⟨i, hi⟩ := List.getElem?_of_mem (List.mem_toFinset.mp hx)
      obtain ⟨j, hj⟩ := List.getElem?_of_mem (List.mem_toFinset.mp hy)
      obtain rfl : i = j := Option.some.inj ((key hi).symm.trans (hxy.trans (key hj)))
      exact Option.some.inj (hi.symm.trans hj)
    · -- surjective: every slot holds an element
      rintro _ ⟨i, hi, rfl⟩
      obtain ⟨x, hx⟩ := h.exists_getElem?_range hi
      exact ⟨x, List.mem_toFinset.mpr (List.mem_of_getElem? hx), key hx⟩
  range_indexOf := by
    intro x hx i hi
    obtain ⟨j, hj⟩ := List.getElem?_of_mem (List.mem_toFinset.mp hx)
    rw [h.indexOf_eq hj, Option.map_some, h.toNat_ofNat hj, Option.some.injEq] at hi
    exact hi ▸ hj

/-- A call that fits is defined on a well-formed set. -/
theorem WF.step_defined (h : WF s) {op : Op w} (hop : op.Fits) :
    ∃ s', s.step op = some s' ∧ WF s' := by
  have hdef : ∃ s', s.step op = some s' := by
    cases op with
    | insert val => exact h.insert_defined hop
    | erase val => exact h.erase_defined val
    | clear => exact ⟨_, rfl⟩
    | reserve count => exact ⟨_, rfl⟩
  obtain ⟨s', hs⟩ := hdef
  exact ⟨s', hs, h.step hs⟩

/-- A call changes the elements of the range as it changes the finite set. -/
theorem WF.step_toFinset (h : WF s) {op : Op w} (hs : s.step op = some s') :
    s'.range.toFinset = op.apply s.range.toFinset := by
  ext x
  cases op with
  | insert val =>
    show _ ↔ x ∈ Insert.insert val s.range.toFinset
    rw [List.mem_toFinset, h.mem_insert hs, Finset.mem_insert, List.mem_toFinset]
  | erase val =>
    show _ ↔ x ∈ s.range.toFinset.erase val
    rw [List.mem_toFinset, h.mem_erase hs, Finset.mem_erase, List.mem_toFinset, and_comm]
  | clear =>
    obtain rfl := Option.some.inj hs
    simp [Op.apply]
  | reserve count =>
    obtain rfl := Option.some.inj hs
    rw [h.range_reserve]
    rfl

/-- Two well-formed sets with one range have one range after any call. -/
theorem WF.step_sameRange (hs : WF s) (ht : WF t) (h : s.range = t.range) {op : Op w}
    (hstep : s.step op = some s') {t' : SparseSet w} (htep : t.step op = some t') :
    s'.range = t'.range := by
  cases op with
  | insert val => rw [(hs.insert_eq hstep).2, (ht.insert_eq htep).2, h]
  | erase val =>
    by_cases hv : val ∈ s.range
    · obtain ⟨i, hi⟩ := List.getElem?_of_mem hv
      obtain ⟨a, ha, -, har, -⟩ := hs.erase_of_mem hi
      obtain ⟨b, hb, -, hbr, -⟩ := ht.erase_of_mem (h ▸ hi)
      obtain rfl := Option.some.inj (ha.symm.trans hstep)
      obtain rfl := Option.some.inj (hb.symm.trans htep)
      rw [har, hbr, h]
    · obtain rfl := Option.some.inj ((hs.erase_of_notMem hv).symm.trans hstep)
      obtain rfl := Option.some.inj ((ht.erase_of_notMem (h ▸ hv)).symm.trans htep)
      exact h
  | clear =>
    obtain rfl := Option.some.inj hstep
    obtain rfl := Option.some.inj htep
    rw [range_clear, range_clear]
  | reserve count =>
    obtain rfl := Option.some.inj hstep
    obtain rfl := Option.some.inj htep
    rw [hs.range_reserve, ht.range_reserve, h]

/-! ### Runs -/

/-- The calls of a run fit. -/
theorem along_fits {ops : List (Op w)} (hops : ∀ op ∈ ops, op.Fits) (s : SparseSet w) :
    Machine.Along step (fun _ op => op.Fits) s ops := by
  induction ops generalizing s with
  | nil => trivial
  | cons op ops ih =>
    exact ⟨hops op List.mem_cons_self,
      fun s' _ => ih (fun o ho => hops o (List.mem_cons_of_mem _ ho)) s'⟩

theorem WF.run_defined (h : WF s) {ops : List (Op w)} (hops : ∀ op ∈ ops, op.Fits) :
    ∃ s', Machine.run SparseSet.step s ops = some s' ∧ WF s' :=
  Machine.run_defined (fun _ _ hI hP => hI.step_defined hP) h (along_fits hops s)

/-- Every further run from two well-formed sets with one range gives the same
answers. -/
theorem run_sameRange (hs : WF s) (ht : WF t) (h : s.range = t.range)
    {ops : List (Op w)} (hops : ∀ op ∈ ops, op.Fits) :
    ∃ a b, Machine.run step s ops = some a ∧ Machine.run step t ops = some b ∧
      SameAnswers a b := by
  obtain ⟨a, ha, -⟩ := hs.run_defined hops
  obtain ⟨b, hb, hwa, hwb, hr⟩ := Machine.run_sim step
    (R := fun a b => WF a ∧ WF b ∧ a.range = b.range)
    (fun a b op a' ⟨hwa, hwb, hr⟩ hop hstep => by
      obtain ⟨b', hb', hwb'⟩ := hwb.step_defined hop
      exact ⟨b', hb', hwa.step hstep, hwb', hwa.step_sameRange hwb hr hstep hb'⟩)
    ⟨hs, ht, h⟩ (along_fits hops s) ha
  exact ⟨a, b, ha, hb, hwa.sameAnswers hwb hr⟩

/-- A run represents the finite set its calls make. -/
theorem WF.run_represents (h : WF s) {ops : List (Op w)} (hops : ∀ op ∈ ops, op.Fits) :
    ∃ s', Machine.run SparseSet.step s ops = some s' ∧ WF s' ∧
      Represents s' (ops.foldl Op.apply s.range.toFinset) := by
  obtain ⟨s', hr, hwf⟩ := h.run_defined hops
  obtain ⟨A, hA, -, hfin⟩ := Machine.run_sim (fun A op => some (Op.apply A op))
    (R := fun s A => WF s ∧ s.range.toFinset = A)
    (fun s A op s' ⟨hwf, hA⟩ _ hs =>
      ⟨_, rfl, hwf.step hs, hA ▸ hwf.step_toFinset hs⟩)
    ⟨h, rfl⟩ (along_fits hops s) hr
  rw [Machine.run_total, Option.some.injEq] at hA
  refine ⟨s', hr, hwf, ?_⟩
  rw [hA, ← hfin]
  exact hwf.represents

/-- **By-value operations refine a finite set.**  After any run of calls that
fit, a sparse set represents the set its calls make.  `Reserve` is never seen,
now or after further calls; an `Insert`, growing or not, keeps the range and
every index; and what `Clear` leaves in the vectors is never seen. -/
theorem run_refines_finset (ops : List (Op w)) (hops : ∀ op ∈ ops, op.Fits) :
    ∃ s, Machine.run step empty ops = some s ∧
      Represents s (ops.foldl Op.apply ∅) ∧
      (∀ n more, (∀ op ∈ more, op.Fits) →
        ∃ a b, Machine.run step (s.reserve n) more = some a ∧
          Machine.run step s more = some b ∧ SameAnswers a b) ∧
      (∀ v, v.toNat + 1 < 2 ^ w → v ∉ s.range →
        ∃ s', s.insert v = some s' ∧ s'.range = s.range ++ [v] ∧
          ∀ x ∈ s.range, s'.has x = some true ∧ s'.indexOf x = s.indexOf x) ∧
      (∀ more, (∀ op ∈ more, op.Fits) →
        ∃ a b, Machine.run step s.clear more = some a ∧
          Machine.run step empty more = some b ∧ SameAnswers a b) := by
  obtain ⟨s, hr, hwf, hrep⟩ := wf_empty.run_represents hops
  refine ⟨s, hr, ?_, ?_, ?_, ?_⟩
  · simpa using hrep
  · intro n more hmore
    exact run_sameRange (hwf.reserve n) hwf (hwf.range_reserve n) hmore
  · intro v hv hno
    obtain ⟨s', hs⟩ := hwf.insert_defined hv
    obtain ⟨hwf', hrange⟩ := hwf.insert_eq hs
    rw [if_neg hno] at hrange
    refine ⟨s', hs, hrange, fun x hx => ?_⟩
    obtain ⟨i, hi⟩ := List.getElem?_of_mem hx
    have hi' : s'.range[i]? = some x := by
      rw [hrange, List.getElem?_append_left (List.getElem?_eq_some_iff.mp hi).1, hi]
    exact ⟨hwf'.has_eq_true.mpr (List.mem_of_getElem? hi'),
      (hwf'.indexOf_eq hi').trans (hwf.indexOf_eq hi).symm⟩
  · intro more hmore
    exact run_sameRange hwf.toShape.wf_clear wf_empty (by simp) hmore

theorem run_refines_finset_pair :
    ∃ s, Machine.run step (empty : SparseSet 8) [.insert 5, .insert 2, .erase 5] = some s ∧
      Represents s ([.insert 5, .insert 2, .erase 5].foldl Op.apply ∅) := by
  obtain ⟨s, hs, hrep, -⟩ := run_refines_finset (w := 8) [.insert 5, .insert 2, .erase 5]
    (by simp [Op.Fits])
  exact ⟨s, hs, hrep⟩

end SparseSet

end Indie
