/-
Indie/SetOrder.lean

The order of a sparse set, and how far its storage grows.

`Insert` appends and `Erase` moves the last element into the gap, so the range
`Begin()..End()` is a list with the two operations `add` and `remove` of
`SwapList`, and every answer of the set can be read off this list
(`run_refines_list`): `IndexOf` is the position in it.

`Capacity()` never goes down.  A run leaves it at the least number above every
value inserted and not below any count reserved; so where room has been
reserved, neither vector is resized until a larger value comes in.
-/
import Indie.IndexSafety

namespace Indie

namespace SparseSet

variable {w : ℕ} {s s' : SparseSet w} {v x : BitVec w} {ops : List (Op w)}

/-- What a call does to the range. -/
def Op.onRange (l : List (BitVec w)) : Op w → List (BitVec w)
  | .insert val => SwapList.add l val
  | .erase val => SwapList.remove l val
  | .clear => []
  | .reserve _ => l

/-- The capacity a call asks for. -/
def Op.demand : Op w → ℕ
  | .insert val => val.toNat + 1
  | .erase _ => 0
  | .clear => 0
  | .reserve count => count.toNat

/-! ### One call -/

theorem WF.range_insert (h : WF s) (hs : s.insert v = some s') :
    s'.range = SwapList.add s.range v := (h.insert_eq hs).2

theorem WF.range_erase (h : WF s) (hs : s.erase v = some s') :
    s'.range = SwapList.remove s.range v := by
  by_cases hv : v ∈ s.range
  · obtain ⟨i, hi⟩ := List.getElem?_of_mem hv
    obtain ⟨t, ht, -, hr, -⟩ := h.erase_of_mem hi
    obtain rfl := Option.some.inj (ht.symm.trans hs)
    rw [hr, SwapList.remove_of_getElem? h.range_nodup hi]
  · obtain rfl := Option.some.inj ((h.erase_of_notMem hv).symm.trans hs)
    exact (SwapList.remove_of_notMem hv).symm

/-- A call acts on the range as on a list. -/
theorem WF.range_step (h : WF s) {op : Op w} (hs : s.step op = some s') :
    s'.range = op.onRange s.range := by
  cases op with
  | insert val => exact h.range_insert hs
  | erase val => exact h.range_erase hs
  | clear =>
    obtain rfl := Option.some.inj hs
    exact range_clear s
  | reserve count =>
    obtain rfl := Option.some.inj hs
    exact h.range_reserve count

/-- `IndexOf` is the position in the range. -/
theorem WF.indexOf_eq_idxOf (h : WF s) (hx : x ∈ s.range) :
    s.indexOf x = some (BitVec.ofNat w (s.range.idxOf x)) :=
  h.indexOf_eq (SwapList.getElem?_idxOf hx)

/-! ### Capacity -/

theorem capacity_reserve (s : SparseSet w) (n : BitVec w) :
    (s.reserve n).capacity.toNat = max s.capacity.toNat n.toNat := by
  unfold reserve
  split
  · rename_i hn
    exact (Nat.max_eq_right (BitVec.lt_def.mp hn).le).symm
  · rename_i hn
    rw [BitVec.lt_def, Nat.not_lt] at hn
    exact (Nat.max_eq_left hn).symm

theorem capacity_grow (s : SparseSet w) (hv : v.toNat + 1 < 2 ^ w) :
    (s.grow v).capacity.toNat = max s.capacity.toNat (v.toNat + 1) := by
  unfold grow
  split
  · rw [capacity_reserve, Vec.toNat_add_one hv]
  · rename_i hc
    rw [BitVec.le_def] at hc
    exact (Nat.max_eq_left (by omega)).symm

/-- An insertion makes room for its value, and for no more. -/
theorem WF.capacity_insert (h : WF s) (hs : s.insert v = some s') :
    s'.capacity.toNat = max s.capacity.toNat (v.toNat + 1) := by
  by_cases hv : v ∈ s.range
  · rw [h.insert_of_mem hv, Option.some.injEq] at hs
    subst hs
    exact (Nat.max_eq_left (h.lt_capacity hv)).symm
  · have hmax : v.toNat + 1 < 2 ^ w := by
      by_contra hmax
      rw [h.insert_max hmax] at hs
      cases hs
    rw [h.insert_of_notMem hv] at hs
    obtain ⟨-, -, rfl⟩ := h.append_eq_some.mp hs
    exact capacity_grow s hmax

theorem WF.capacity_erase (h : WF s) (hs : s.erase v = some s') :
    s'.capacity = s.capacity := by
  by_cases hv : v ∈ s.range
  · obtain ⟨i, hi⟩ := List.getElem?_of_mem hv
    have hlt := (h.getElem?_range.mp hi).1
    obtain ⟨last, hlast⟩ := h.exists_last hlt
    obtain ⟨-, -, k, -, -, rfl⟩ := (h.eraseRef_eq_some (r := .value v) rfl
      (h.has_eq_true.mpr hv) (h.sparse_dense hi) ((h.toNat_ofNat hi).trans_lt hlt) hlast).mp hs
    rfl
  · obtain rfl := Option.some.inj ((h.erase_of_notMem hv).symm.trans hs)
    rfl

/-- A call raises the capacity to what it asks for. -/
theorem WF.capacity_step (h : WF s) {op : Op w} (hs : s.step op = some s') :
    s'.capacity.toNat = max s.capacity.toNat op.demand := by
  cases op with
  | insert val => exact h.capacity_insert hs
  | erase val =>
    rw [h.capacity_erase hs]
    exact (Nat.max_eq_left (Nat.zero_le _)).symm
  | clear =>
    obtain rfl := Option.some.inj hs
    exact (Nat.max_eq_left (Nat.zero_le _)).symm
  | reserve count =>
    obtain rfl := Option.some.inj hs
    exact capacity_reserve s count

/-! ### Runs -/

theorem WF.run_wf (h : WF s) (hs : Machine.run SparseSet.step s ops = some s') : WF s' :=
  Machine.run_invariant (P := fun _ _ => True) (fun _ _ _ hI _ hs => hI.step hs) h
    (Machine.Along.of_forall (fun _ _ => trivial) _ ops) hs

/-- A run acts on the range as on a list. -/
theorem WF.range_run (h : WF s) (hs : Machine.run SparseSet.step s ops = some s') :
    s'.range = ops.foldl Op.onRange s.range := by
  obtain ⟨l, hl, -, hr⟩ := Machine.run_sim (fun l op => some (Op.onRange l op))
    (R := fun s l => WF s ∧ s.range = l) (P := fun _ _ => True)
    (fun s l op s' ⟨hwf, hl⟩ _ hs => ⟨_, rfl, hwf.step hs, hl ▸ hwf.range_step hs⟩)
    ⟨h, rfl⟩ (Machine.Along.of_forall (fun _ _ => trivial) _ ops) hs
  rw [Machine.run_total, Option.some.injEq] at hl
  rw [hr, hl]

theorem WF.capacity_run (h : WF s) (hs : Machine.run SparseSet.step s ops = some s') :
    IsLeast {c | s.capacity.toNat ≤ c ∧ ∀ op ∈ ops, op.demand ≤ c} s'.capacity.toNat :=
  Machine.run_isLeast (I := WF) (P := fun _ _ => True) (m := fun s => s.capacity.toNat)
    (d := Op.demand) (fun _ _ _ hI _ hs => ⟨hI.step hs, hI.capacity_step hs⟩) h
    (Machine.Along.of_forall (fun _ _ => trivial) _ ops) hs

/-- Within the capacity no call resizes a vector. -/
theorem WF.run_within (h : WF s) (hs : Machine.run SparseSet.step s ops = some s')
    (hops : ∀ op ∈ ops, op.demand ≤ s.capacity.toNat) :
    s'.capacity = s.capacity ∧ s'.dense.length = s.dense.length ∧
      s'.sparse.length = s.sparse.length := by
  obtain ⟨⟨hle, -⟩, hleast⟩ := h.capacity_run hs
  have hcap : s'.capacity = s.capacity :=
    BitVec.eq_of_toNat_eq (le_antisymm (hleast ⟨le_rfl, hops⟩) hle)
  have hwf := h.run_wf hs
  refine ⟨hcap, ?_, ?_⟩
  · rw [hwf.dense_length, h.dense_length, hcap]
  · rw [hwf.sparse_length, h.sparse_length, hcap]

/-- **A sparse set is a list with a capacity.**  A run of by-value calls that fit
leaves the range as the list that appending new values and swap-removing old
ones makes; `Has`, `Size()` and `IndexOf` are membership, length and position in
it; and `Capacity()` is the least number above every value ever inserted and not
below any count reserved.  No call of a further run resizes the vectors, if it
inserts only values below the capacity and reserves no more than it. -/
theorem run_refines_list (ops : List (Op w)) (hops : ∀ op ∈ ops, op.Fits) :
    ∃ s, Machine.run step empty ops = some s ∧ s.range = ops.foldl Op.onRange [] ∧
      (∀ x, s.has x = some (decide (x ∈ s.range))) ∧ s.size.toNat = s.range.length ∧
      (∀ x ∈ s.range, (s.indexOf x).map BitVec.toNat = some (s.range.idxOf x)) ∧
      IsLeast {c | (∀ v, Op.insert v ∈ ops → v.toNat < c) ∧
        ∀ n, Op.reserve n ∈ ops → n.toNat ≤ c} s.capacity.toNat ∧
      ∀ more, (∀ v, Op.insert v ∈ more → v < s.capacity) →
        (∀ n, Op.reserve n ∈ more → n ≤ s.capacity) →
        ∃ s', Machine.run step s more = some s' ∧ s'.capacity = s.capacity ∧
          s'.dense.length = s.dense.length ∧ s'.sparse.length = s.sparse.length := by
  obtain ⟨s, hs, h⟩ := wf_empty.run_defined hops
  have hdemand : ∀ (ops : List (Op w)) (c : ℕ), (∀ op ∈ ops, op.demand ≤ c) ↔
      (∀ v, Op.insert v ∈ ops → v.toNat < c) ∧ ∀ n, Op.reserve n ∈ ops → n.toNat ≤ c := by
    intro ops c
    constructor
    · exact fun hall => ⟨fun v hv => hall _ hv, fun n hn => hall _ hn⟩
    · rintro ⟨hins, hres⟩ op hop
      cases op with
      | insert v => exact hins v hop
      | erase v => exact Nat.zero_le c
      | clear => exact Nat.zero_le c
      | reserve n => exact hres n hop
  refine ⟨s, hs, ?_, h.has_eq, h.length_range.symm, fun x hx => ?_, ?_,
    fun more hins hres => ?_⟩
  · rw [wf_empty.range_run hs, range_empty]
  · rw [h.indexOf_eq_idxOf hx, Option.map_some, h.toNat_ofNat (SwapList.getElem?_idxOf hx)]
  · have hleast := wf_empty.capacity_run hs
    have hzero : (empty : SparseSet w).capacity.toNat = 0 := by simp [empty]
    simp only [hdemand, hzero, Nat.zero_le, true_and] at hleast
    exact hleast
  · have hfits : ∀ op ∈ more, op.Fits := by
      intro op hop
      cases op with
      | insert v =>
        have hlt : v.toNat < s.capacity.toNat := BitVec.lt_def.mp (hins v hop)
        exact Nat.lt_of_le_of_lt hlt s.capacity.isLt
      | erase v => trivial
      | clear => trivial
      | reserve n => trivial
    obtain ⟨s', hs', -⟩ := h.run_defined hfits
    exact ⟨s', hs', h.run_within hs' ((hdemand more _).mpr
      ⟨fun v hv => BitVec.lt_def.mp (hins v hv), fun n hn => BitVec.le_def.mp (hres n hn)⟩)⟩

/-- Three insertions, an erasure in the middle, and room for six. -/
theorem run_refines_list_gap :
    ∃ s : SparseSet 8,
      Machine.run step empty [.insert 4, .insert 1, .insert 3, .erase 1, .reserve 6] = some s ∧
      s.range = [4, 3] ∧
      ∀ more, (∀ v, Op.insert v ∈ more → v < s.capacity) →
        (∀ n, Op.reserve n ∈ more → n ≤ s.capacity) →
        ∃ s', Machine.run step s more = some s' ∧ s'.capacity = s.capacity := by
  obtain ⟨s, hs, hr, -, -, -, -, hmore⟩ := run_refines_list (w := 8)
    [.insert 4, .insert 1, .insert 3, .erase 1, .reserve 6] (by simp [Op.Fits])
  refine ⟨s, hs, hr.trans (by decide), fun more hins hres => ?_⟩
  obtain ⟨s', hs', hcap, -⟩ := hmore more hins hres
  exact ⟨s', hs', hcap⟩

end SparseSet

end Indie
