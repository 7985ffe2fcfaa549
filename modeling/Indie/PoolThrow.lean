/-
Indie/PoolThrow.lean

What a throwing constructor leaves behind in a pool.

`Replace` builds the component before it touches anything, so a throw leaves
the pool as it was.  `Assign` registers the entity first, so a throw leaves an
entity registered with no component of its own, unless the entity was
registered before (`assign_failsCleanly_iff`).
-/
import Indie.Pool

namespace Indie

namespace Pool

variable {α : Type} {w : ℕ} {p q : Pool α w} {et : BitVec w}

/-- Two pools give the same answers. -/
structure SameAnswers (p q : Pool α w) : Prop where
  has : ∀ e, p.has e = q.has e
  get : ∀ e, p.get e = q.get e
  size : p.size = q.size
  forEach : p.forEach = q.forEach

/-- The answers depend on the set and on the cells of the vector, not on its
capacity. -/
theorem sameAnswers_of_eq (hb : p.base = q.base)
    (hd : p.components.data = q.components.data) : SameAnswers p q where
  has e := by rw [has, has, hb]
  get e := by rw [get, get, has, has, hb, hd]
  size := by rw [size, size, hb]
  forEach := by rw [forEach, forEach, hb, hd]

/-- The call ends with the exception and leaves every answer as it was. -/
def FailsCleanly (p : Pool α w) (call : Option (Pool α w × Ending)) : Prop :=
  ∃ q, call = some (q, .threw) ∧ SameAnswers p q

/-- A throwing `Assign` is clean exactly on an entity that is registered. -/
theorem assign_failsCleanly_iff (h : p.base.WF) :
    p.FailsCleanly (p.assign et none) ↔ p.has et = some true := by
  constructor
  · rintro ⟨q, hq, hsame⟩
    have hb : p.base.insert et = some q.base := wf_assign h hq
    rw [hsame.has et]
    exact (h.insert_eq hb).1.has_eq_true.mpr ((h.mem_insert hb).mpr (.inl rfl))
  · intro he
    obtain ⟨q, hb, hd, hq⟩ :=
      assign_eq h (h.insert_of_mem (h.has_eq_true.mp he)) (none : Ctor α)
    exact ⟨q, hq, sameAnswers_of_eq hb.symm hd.symm⟩

theorem replace_failsCleanly (p : Pool α w) (et : BitVec w) :
    p.FailsCleanly (p.replace et none) :=
  ⟨p, rfl, sameAnswers_of_eq rfl rfl⟩

theorem assignOrReplace_failsCleanly_iff (h : p.base.WF) :
    p.FailsCleanly (p.assignOrReplace et none) ↔ p.has et = some true := by
  by_cases he : et ∈ p.base.range
  · rw [assignOrReplace_of_mem h he]
    exact iff_of_true (replace_failsCleanly p et) (h.has_eq_true.mpr he)
  · rw [assignOrReplace_of_notMem h he]
    exact assign_failsCleanly_iff h

end Pool

end Indie
