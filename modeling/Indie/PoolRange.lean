/-
Indie/PoolRange.lean

Lookups and iteration of a pool stay inside the vector of components.

`Delete` shortens the set and not the vector, and a redundant `Assign`
lengthens the vector and not the set.  What survives both is `WF.covered`, an
inequality: the set never has more entities than the vector has components.
With it an index the set hands out names a component (`WF.indexOf_lt`), so
`Get` and `ForEach` are defined, and both read the same cell
(`WF.forEach_eq`).

`Op.InScope` is the use of a pool considered here: `Assign` also on an entity
that has a component, `Replace` on entities that have one, constructors that
do not throw, and entities below the largest of their type.  Every such call
is defined (`WF.step_defined`), hence every run of them.
-/
import Indie.Invariant
import Indie.Library.Collect

namespace Indie

namespace Pool

variable {α : Type} {w : ℕ} {p p' : Pool α w} {e : BitVec w}

/-! ### The calls -/

/-- Redundant assignments allowed, replacements of what is there, no exception,
and entities below the largest. -/
def Op.InScope (p : Pool α w) : Op α w → Prop
  | .assign et c => et.toNat + 1 < 2 ^ w ∧ c.isSome
  | .replace et c => p.has et = some true ∧ c.isSome
  | .assignOrReplace et c => et.toNat + 1 < 2 ^ w ∧ c.isSome
  | .delete _ => True
  | .reset => True
  | .reserve _ => True

instance (p : Pool α w) (op : Op α w) : Decidable (op.InScope p) :=
  match op with
  | .assign et c | .assignOrReplace et c =>
    have : Decidable (et.toNat + 1 < 2 ^ w) := Nat.decLt _ _
    inferInstanceAs (Decidable (et.toNat + 1 < 2 ^ w ∧ c.isSome))
  | .replace et c => inferInstanceAs (Decidable (p.has et = some true ∧ c.isSome))
  | .delete _ | .reset | .reserve _ => isTrue trivial

theorem Op.InScope.noThrow {op : Op α w} (h : op.InScope p) : op.NoThrow := by
  cases op with
  | assign _ _ => exact h.2
  | replace _ _ => exact h.2
  | assignOrReplace _ _ => exact h.2
  | delete _ => trivial
  | reset => trivial
  | reserve _ => trivial

/-- A call in scope has defined behaviour, and leaves a component for every
index. -/
theorem WF.step_defined (h : WF p) {op : Op α w} (hop : op.InScope p) :
    ∃ p', p.step op = some p' ∧ WF p' := by
  have hdef : ∃ p', p.step op = some p' := by
    cases op with
    | assign et c =>
      obtain ⟨r, hr⟩ := Pool.assign_defined h.base hop.1 c
      exact ⟨r.1, by rw [Pool.step, hr]; rfl⟩
    | replace et c =>
      obtain ⟨r, hr⟩ := h.replace_defined (h.base.has_eq_true.mp hop.1) c
      exact ⟨r.1, by rw [Pool.step, hr]; rfl⟩
    | assignOrReplace et c =>
      obtain ⟨r, hr⟩ := h.assignOrReplace_defined hop.1 c
      exact ⟨r.1, by rw [Pool.step, hr]; rfl⟩
    | delete et =>
      obtain ⟨b, hb⟩ := h.base.erase_defined et
      exact ⟨_, delete_eq_some.mpr ⟨b, hb, rfl⟩⟩
    | reset => exact ⟨p.reset, rfl⟩
    | reserve count => exact ⟨p.reserve count, rfl⟩
  obtain ⟨p', hs⟩ := hdef
  exact ⟨p', hs, h.step hop.noThrow hs⟩

/-- A run of calls in scope ends, in a pool with a component for every
index. -/
theorem run_inScope {ops : List (Op α w)}
    (hops : Machine.Along step (fun p op => op.InScope p) empty ops) :
    ∃ p, Machine.run step empty ops = some p ∧ WF p :=
  Machine.run_defined (fun _ _ h hop => h.step_defined hop) wf_empty hops

/-! ### Lookups -/

/-- The index of an entity that has a component names a cell. -/
theorem WF.indexOf_lt (h : WF p) (he : p.has e = some true) :
    ∃ i, p.base.indexOf e = some i ∧ i.toNat < p.components.data.length := by
  obtain ⟨k, hk⟩ := List.getElem?_of_mem (h.base.has_eq_true.mp he)
  refine ⟨BitVec.ofNat w k, h.base.indexOf_eq hk, ?_⟩
  rw [h.base.toNat_ofNat hk]
  exact (h.get_eq hk).2

theorem WF.get_defined (h : WF p) (e : BitVec w) : ∃ r, p.get e = some r := by
  by_cases he : e ∈ p.base.range
  · obtain ⟨k, hk⟩ := List.getElem?_of_mem he
    exact ⟨_, (h.get_eq hk).1⟩
  · exact ⟨none, get_of_notMem h.base he⟩

/-! ### Iteration -/

/-- The component the loop reads for an entity. -/
def read (p : Pool α w) (e : BitVec w) : Option α := do
  let i ← p.base.indexOf e
  p.components.data[i.toNat]?

theorem forEach_eq_mapM (p : Pool α w) :
    p.forEach = p.base.range.mapM fun e => (p.read e).map (e, ·) := by
  unfold forEach read
  congr 1
  funext e
  rcases p.base.indexOf e with - | i
  · rfl
  · simp [Option.map_eq_bind]

/-- The loop reads the cell `Get` points to. -/
theorem WF.get_eq_read (h : WF p) (he : e ∈ p.base.range) :
    ∃ c, p.read e = some c ∧ p.get e = some (some c) := by
  obtain ⟨k, hk⟩ := List.getElem?_of_mem he
  obtain ⟨hget, hlt⟩ := h.get_eq hk
  have hcell := List.getElem?_eq_getElem hlt
  refine ⟨p.components.data[k], ?_, hget.trans (congrArg some hcell)⟩
  show (p.base.indexOf e).bind _ = _
  rw [h.base.indexOf_eq hk]
  show p.components.data[(BitVec.ofNat w k).toNat]? = _
  rw [h.base.toNat_ofNat hk, hcell]

/-- The loop makes one call for each entity of the set, in order, with the
component `Get` points to. -/
theorem WF.forEach_eq (h : WF p) :
    ∃ calls, p.forEach = some calls ∧ calls.map Prod.fst = p.base.range ∧
      ∀ v ∈ calls, p.get v.1 = some (some v.2) := by
  have hdef : ∀ e ∈ p.base.range, ∃ c, p.read e = some c := by
    intro e he
    obtain ⟨c, hc, -⟩ := h.get_eq_read he
    exact ⟨c, hc⟩
  obtain ⟨calls, hcalls, hfst, hread⟩ := Collect.mapM_tagged_defined hdef
  refine ⟨calls, (forEach_eq_mapM p).trans hcalls, hfst, fun v hv => ?_⟩
  have he : v.1 ∈ p.base.range := hfst ▸ List.mem_map_of_mem hv
  obtain ⟨c, hc, hget⟩ := h.get_eq_read he
  rw [hget, ← hc, hread v hv]

/-- **Lookups and iteration stay inside the components, and agree.**  Every run
of calls in scope ends in a pool where the index of each entity that has a
component names a cell, `Get` of any entity, `Replace` of one that has a
component and `ForEach` are defined, and `ForEach` calls its function once for
each entity that has a component, with the one `Get` points to, `Size()` times
in all. -/
theorem lookups_inRange {ops : List (Op α w)}
    (hops : Machine.Along step (fun p op => op.InScope p) empty ops) :
    ∃ p, Machine.run step empty ops = some p ∧
      (∀ e, p.has e = some true →
        ∃ i, p.base.indexOf e = some i ∧ i.toNat < p.components.data.length) ∧
      (∀ e, ∃ r, p.get e = some r) ∧
      (∀ e c, p.has e = some true → ∃ r, p.replace e c = some r) ∧
      ∃ calls, p.forEach = some calls ∧
        (calls.map Prod.fst).Nodup ∧
        (∀ e, e ∈ calls.map Prod.fst ↔ p.has e = some true) ∧
        (∀ v ∈ calls, p.get v.1 = some (some v.2)) ∧
        calls.length = p.size.toNat := by
  obtain ⟨p, hr, h⟩ := run_inScope hops
  obtain ⟨calls, hcalls, hfst, hget⟩ := h.forEach_eq
  refine ⟨p, hr, fun e => h.indexOf_lt, h.get_defined, fun e c he => ?_,
    calls, hcalls, ?_, fun e => ?_, hget, ?_⟩
  · exact h.replace_defined (h.base.has_eq_true.mp he) c
  · rw [hfst]
    exact h.base.range_nodup
  · rw [hfst]
    exact h.base.has_eq_true.symm
  · rw [← List.length_map (f := Prod.fst), hfst]
    exact h.base.toShape.length_range

/-- A redundant assignment and a deletion: the vector is longer than the set, and
entity 5 is left. -/
theorem lookups_inRange_drift :
    let ops : List (Op ℕ 8) := [.assign 3 (some 450), .assign 3 (some 666), .assign 5 (some 7),
      .delete 3]
    Machine.Along step (fun p op => op.InScope p) empty ops ∧
      (Machine.run step empty ops).bind (·.has 5) = some true ∧
      ∃ p, Machine.run step empty ops = some p ∧
      (∀ e, p.has e = some true →
        ∃ i, p.base.indexOf e = some i ∧ i.toNat < p.components.data.length) ∧
      (∀ e, ∃ r, p.get e = some r) ∧
      (∀ e c, p.has e = some true → ∃ r, p.replace e c = some r) ∧
      ∃ calls, p.forEach = some calls ∧
        (calls.map Prod.fst).Nodup ∧
        (∀ e, e ∈ calls.map Prod.fst ↔ p.has e = some true) ∧
        (∀ v ∈ calls, p.get v.1 = some (some v.2)) ∧
        calls.length = p.size.toNat :=
  ⟨by decide, by decide, lookups_inRange (by decide)⟩

end Pool

end Indie
