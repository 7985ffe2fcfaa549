/-
Indie/PoolNear.lean

Two pools that cannot be told apart.

An extra `Assign` on an entity that is registered leaves the set alone and
appends a component nobody points to.  From then on the two vectors differ, at
and beyond the length the shorter one had.  `AgreeBelow n` is what the pools
keep in common: the set, and the cells below `n`; `Get` reads no other cell
while the set has at most `n` entities.  Every call keeps it, as long as a new
entity is registered only while there are fewer than `n` (`Near.assign`).
`Reset` empties both vectors, and makes the pools the same (`Near.reset`).
-/
import Indie.PoolMap

namespace Indie

namespace Pool

variable {α : Type} {w : ℕ} {p p' q q' : Pool α w} {et : BitVec w} {n : Option ℕ} {m : ℕ}
  {c : Ctor α} {r : Pool α w × Ending}

/-- How a call that builds `c` ends. -/
def ending (c : Ctor α) : Ending := if c.isSome then .returned else .threw

/-- `Assign` inserts the entity and appends what was built. -/
theorem assign_spec (h : p.base.WF) (hs : p.assign et c = some r) :
    p.base.insert et = some r.1.base ∧
      r.1.components.data = p.components.data ++ c.toList ∧ r.2 = ending c := by
  have hb := wf_assign h hs
  obtain ⟨q, -, hd, hq⟩ := assign_eq h hb c
  rw [hs, Option.some.injEq] at hq
  cases c with
  | none => exact ⟨hb, by rw [hq, hd]; simp, by rw [hq]; rfl⟩
  | some c => exact ⟨hb, by rw [hq, Vec.data_emplaceBack, hd]; rfl, by rw [hq]; rfl⟩

/-! ### The relation -/

/-- The same set, and the same cells. -/
structure SameCells (p q : Pool α w) : Prop where
  wf : p.base.WF
  base : q.base = p.base
  data : q.components.data = p.components.data

/-- The same set, of at most `m` entities, and the same cells below `m`. -/
structure AgreeBelow (m : ℕ) (p q : Pool α w) : Prop where
  wf : p.base.WF
  base : q.base = p.base
  size_le : p.size.toNat ≤ m
  le_length : m ≤ p.components.data.length
  length_le : p.components.data.length ≤ q.components.data.length
  cells : ∀ i < m, q.components.data[i]? = p.components.data[i]?

/-- The pools are the same up to storage, or they agree below the bound. -/
def Near (n : Option ℕ) (p q : Pool α w) : Prop :=
  SameCells p q ∨ ∃ m, n = some m ∧ AgreeBelow m p q

theorem sameCells_empty : SameCells (empty : Pool α w) empty := ⟨SparseSet.wf_empty, rfl, rfl⟩

theorem Near.wf : Near n p q → p.base.WF
  | .inl h => h.wf
  | .inr ⟨_, _, h⟩ => h.wf

theorem Near.base : Near n p q → q.base = p.base
  | .inl h => h.base
  | .inr ⟨_, _, h⟩ => h.base

theorem Near.has (h : Near n p q) (et : BitVec w) : q.has et = p.has et := by
  rw [Pool.has, Pool.has, h.base]

/-- `Get` cannot tell them apart. -/
theorem Near.get (h : Near n p q) (et : BitVec w) : q.get et = p.get et := by
  rcases h with h | ⟨m, -, h⟩
  · rw [Pool.get, Pool.get, Pool.has, Pool.has, h.base, h.data]
  · by_cases he : et ∈ p.base.range
    · -- a registered entity has its cell below the bound
      obtain ⟨i, hi⟩ := List.getElem?_of_mem he
      have hlt : i < m := ((h.wf.getElem?_range.mp hi).1).trans_le h.size_le
      rw [get_of_getElem? h.wf hi, get_of_getElem? (h.base ▸ h.wf) (h.base ▸ hi),
        h.cells i hlt]
    · rw [get_of_notMem h.wf he, get_of_notMem (h.base ▸ h.wf) (h.base ▸ he)]

/-! ### Every call keeps it -/

/-- A new entity is registered only below the bound. -/
def RoomFor (n : Option ℕ) (p : Pool α w) (et : BitVec w) : Prop :=
  ∀ m, n = some m → p.has et = some false → p.size.toNat < m

theorem AgreeBelow.assign (h : AgreeBelow m p q) (hroom : RoomFor (some m) p et)
    (hp : p.assign et c = some r) {r' : Pool α w × Ending} (hq : q.assign et c = some r') :
    AgreeBelow m r.1 r'.1 := by
  obtain ⟨hb, hd, -⟩ := assign_spec h.wf hp
  obtain ⟨hb', hd', -⟩ := assign_spec (h.base ▸ h.wf) hq
  obtain ⟨hwf, hrange⟩ := h.wf.insert_eq hb
  rw [h.base, hb, Option.some.injEq] at hb'
  refine ⟨hwf, hb'.symm, ?_, ?_, ?_, fun i hi => ?_⟩
  · show r.1.base.size.toNat ≤ m
    rw [← hwf.length_range, hrange]
    split
    · rw [h.wf.length_range]
      exact h.size_le
    · rename_i he
      rw [List.length_append, List.length_singleton, h.wf.length_range]
      exact hroom m rfl (h.wf.has_eq_false.mpr he)
  · rw [hd, List.length_append]
    exact h.le_length.trans (Nat.le_add_right _ _)
  · rw [hd, hd', List.length_append, List.length_append]
    exact Nat.add_le_add_right h.length_le _
  · -- what is appended lies beyond the bound in both vectors
    have hlt : i < p.components.data.length := hi.trans_le h.le_length
    rw [hd, hd', List.getElem?_append_left hlt,
      List.getElem?_append_left (hlt.trans_le h.length_le), h.cells i hi]

theorem Near.assign (h : Near n p q) (hroom : RoomFor n p et) (hs : p.assign et c = some r) :
    ∃ q', q.assign et c = some (q', r.2) ∧ Near n r.1 q' := by
  obtain ⟨hb, hd, hend⟩ := assign_spec h.wf hs
  obtain ⟨r', hr'⟩ : ∃ r', q.assign et c = some r' := by
    obtain ⟨_, -, -, hq⟩ := assign_eq (p := q) (h.base ▸ h.wf) (h.base ▸ hb) c
    exact ⟨_, hq⟩
  obtain ⟨hb', hd', hend'⟩ := assign_spec (h.base ▸ h.wf) hr'
  refine ⟨r'.1, by rw [hr', hend, ← hend'], ?_⟩
  rcases h with h | ⟨m, rfl, h⟩
  · rw [h.base, hb, Option.some.injEq] at hb'
    exact .inl ⟨(h.wf.insert_eq hb).1, hb'.symm, by rw [hd, hd', h.data]⟩
  · exact .inr ⟨m, rfl, h.assign hroom hs hr'⟩

theorem Near.replace (h : Near n p q) (hs : p.replace et c = some r) :
    ∃ q', q.replace et c = some (q', r.2) ∧ Near n r.1 q' := by
  cases c with
  | none =>
    obtain rfl := Option.some.inj hs
    exact ⟨q, rfl, h⟩
  | some c =>
    simp only [Pool.replace, Option.bind_eq_bind, Option.bind_eq_some_iff, Option.pure_def,
      Option.some.injEq] at hs
    obtain ⟨i, hi, v, hv, rfl⟩ := hs
    obtain ⟨hlt, hd⟩ := Vec.set_eq_some hv
    -- the longer vector has the cell as well
    have hlt' : i.toNat < q.components.data.length := by
      rcases h with h | ⟨m, -, h⟩
      · rwa [h.data]
      · exact hlt.trans_le h.length_le
    obtain ⟨v', hv', hd'⟩ := Vec.set_of_lt hlt' c
    refine ⟨{ q with components := v' }, ?_, ?_⟩
    · rw [Pool.replace, h.base, hi, Option.bind_eq_bind, Option.bind_some, hv']
      rfl
    · rcases h with h | ⟨m, rfl, h⟩
      · exact .inl ⟨h.wf, h.base, by rw [hd, hd', h.data]⟩
      · refine .inr ⟨m, rfl, h.wf, h.base, h.size_le, ?_, ?_, fun j hj => ?_⟩
        · rw [hd, List.length_set]
          exact h.le_length
        · rw [hd, hd', List.length_set, List.length_set]
          exact h.length_le
        · rw [hd, hd', List.getElem?_set, List.getElem?_set, h.cells j hj]
          split <;> rfl

theorem Near.assignOrReplace (h : Near n p q) (hroom : RoomFor n p et)
    (hs : p.assignOrReplace et c = some r) :
    ∃ q', q.assignOrReplace et c = some (q', r.2) ∧ Near n r.1 q' := by
  have hwf : q.base.WF := h.base ▸ h.wf
  by_cases he : et ∈ p.base.range
  · rw [assignOrReplace_of_mem h.wf he] at hs
    rw [assignOrReplace_of_mem hwf (h.base ▸ he)]
    exact h.replace hs
  · rw [assignOrReplace_of_notMem h.wf he] at hs
    rw [assignOrReplace_of_notMem hwf (h.base ▸ he)]
    exact h.assign hroom hs

theorem Near.delete (h : Near n p q) (hs : p.delete et = some p') :
    ∃ q', q.delete et = some q' ∧ Near n p' q' := by
  obtain ⟨b, hb, rfl⟩ := delete_eq_some.mp hs
  refine ⟨{ q with base := b }, delete_eq_some.mpr ⟨b, h.base ▸ hb, rfl⟩, ?_⟩
  have hwf := h.wf.erase hb
  rcases h with h | ⟨m, rfl, h⟩
  · exact .inl ⟨hwf, rfl, h.data⟩
  · refine .inr ⟨m, rfl, hwf, rfl, ?_, h.le_length, h.length_le, h.cells⟩
    by_cases he : et ∈ p.base.range
    · exact (h.wf.size_erase he hb).trans_le ((Nat.sub_le _ _).trans h.size_le)
    · rw [h.wf.erase_of_notMem he, Option.some.injEq] at hb
      exact hb ▸ h.size_le

/-- `Reset` makes them the same. -/
theorem Near.reset (h : Near n p q) : Near none p.reset q.reset :=
  .inl ⟨h.wf.toShape.wf_clear, by rw [Pool.reset, Pool.reset, h.base], rfl⟩

theorem Near.reserve (h : Near n p q) (count : BitVec w) :
    Near n (p.reserve count) (q.reserve count) := by
  rcases h with h | ⟨m, rfl, h⟩
  · exact .inl ⟨by rw [base_reserve]; exact h.wf, by rw [base_reserve, base_reserve, h.base],
      by rw [data_reserve, data_reserve, h.data]⟩
  · refine .inr ⟨m, rfl, ?_, ?_, ?_, ?_, ?_, ?_⟩
    · rw [base_reserve]
      exact h.wf
    · rw [base_reserve, base_reserve, h.base]
    · rw [Pool.size, base_reserve]
      exact h.size_le
    · rw [data_reserve]
      exact h.le_length
    · rw [data_reserve, data_reserve]
      exact h.length_le
    · rw [data_reserve, data_reserve]
      exact h.cells

/-! ### The extra `Assign` -/

/-- On an entity that is registered, `Assign` appends beyond every cell in use;
if the constructor throws it changes nothing. -/
theorem near_assign (h : p.base.WF) (he : et ∈ p.base.range) {c : Ctor α}
    (hcov : c.isSome → p.size.toNat ≤ p.components.data.length) :
    ∃ r, p.assign et c = some r ∧ Near (c.map fun _ => p.components.data.length) p r.1 := by
  obtain ⟨_, -, -, hq⟩ := assign_eq h (h.insert_of_mem he) c
  obtain ⟨hb, hd, -⟩ := assign_spec h hq
  rw [h.insert_of_mem he, Option.some.injEq] at hb
  refine ⟨_, hq, ?_⟩
  cases c with
  | none => exact .inl ⟨h, hb.symm, by rw [hd]; exact List.append_nil _⟩
  | some c =>
    refine .inr ⟨_, rfl, h, hb.symm, hcov rfl, le_rfl, ?_, fun i hi => ?_⟩
    · rw [hd, List.length_append]
      exact Nat.le_add_right _ _
    · rw [hd, List.getElem?_append_left hi]

end Pool

end Indie
