/-
Indie/ReplaceUnowned.lean

Replacing a component the entity does not own.

The documentation of `EntityManager::Replace` says that this does nothing.
The member asks nothing, though: it goes through the pointer of `GetPool<C>()`,
null where `C` was never used, and writes the cell of `_components` that
`_sparse` names for the entity.  That cell of `_sparse` may be missing, may
never have been written, or may date from an earlier owner, and then the
component written is that of the entity which has the slot now.

The write goes unseen in one case (`Pool.Spare`): the cell exists and belongs
to no entity, or held an equal component (`Pool.replace_unseen_iff`).
-/
import Indie.EntityThrow

namespace Indie

namespace Pool

variable {α : Type} {w : ℕ} {p q : Pool α w} {e et : BitVec w} {i : ℕ}

/-- The cell that `Replace(et, args...)` writes exists, and belongs to no
entity or holds what is written.  Nothing is written where the constructor
throws. -/
def Spare (p : Pool α w) (et : BitVec w) : Ctor α → Prop
  | some c => ∃ i v, p.base.indexOf et = some i ∧ p.components.data[i.toNat]? = some v ∧
      (p.size ≤ i ∨ v = c)
  | none => True

/-- A slot beyond the range is not the slot of any entity. -/
theorem get_set_of_size_le (h : p.base.WF) {v : Vec α} {c : α}
    (hv : v.data = p.components.data.set i c) (hi : p.size.toNat ≤ i) (e : BitVec w) :
    ({ p with components := v } : Pool α w).get e = p.get e := by
  by_cases he : e ∈ p.base.range
  · obtain ⟨j, hj⟩ := List.getElem?_of_mem he
    have hlt : j < p.size.toNat := (h.getElem?_range.mp hj).1
    rw [get_of_getElem? h hj, get_of_getElem? (p := { p with components := v }) h hj, hv,
      List.getElem?_set_ne (by omega)]
  · rw [get_of_notMem h he, get_of_notMem (p := { p with components := v }) h he]

/-- A replacement is defined and changes no answer exactly where the cell it
writes is spare. -/
theorem replace_unseen_iff (h : p.base.WF) (et : BitVec w) (c : Ctor α) :
    (∃ r, p.replace et c = some r ∧ ∀ e, r.1.has e = p.has e ∧ r.1.get e = p.get e) ↔
      p.Spare et c := by
  cases c with
  | none => exact iff_of_true ⟨_, replace_none p et, fun e => ⟨rfl, rfl⟩⟩ trivial
  | some c =>
    constructor
    · rintro ⟨r, hr, hsame⟩
      simp only [replace, Option.bind_eq_bind, Option.bind_eq_some_iff, Option.pure_def,
        Option.some.injEq] at hr
      obtain ⟨i, hidx, v, hset, rfl⟩ := hr
      obtain ⟨hlt, hv⟩ := Vec.set_eq_some hset
      refine ⟨i, _, hidx, List.getElem?_eq_getElem hlt, ?_⟩
      rw [or_iff_not_imp_left, BitVec.le_def, not_le]
      intro hi
      -- the slot is that of another entity, whose component is replaced
      obtain ⟨x, hx⟩ := h.exists_getElem?_range hi
      have hget := (hsame x).2
      rw [get_of_getElem? h hx,
        get_of_getElem? (p := { p with components := v }) h hx, hv,
        List.getElem?_set_self hlt, List.getElem?_eq_getElem hlt] at hget
      simpa [eq_comm] using hget
    · rintro ⟨i, v, hidx, hread, hspare⟩
      have hlt : i.toNat < p.components.data.length := (List.getElem?_eq_some_iff.mp hread).1
      obtain ⟨u, hset, hu⟩ := Vec.set_of_lt hlt c
      refine ⟨({ p with components := u }, .returned), ?_, fun e => ⟨rfl, ?_⟩⟩
      · simp [replace, hidx, hset]
      · rcases hspare with hi | rfl
        · exact get_set_of_size_le h hu (BitVec.le_def.mp hi) e
        · have hsame : u.data = p.components.data := by
            obtain ⟨_, hv⟩ := List.getElem?_eq_some_iff.mp hread
            rw [hu, ← hv, List.set_getElem_self]
          show ({ p with components := u } : Pool α w).get e = p.get e
          rw [get, get, hsame]
          rfl

end Pool

namespace Pools

variable {κ : Type} [DecidableEq κ] {Comp : κ → Type} {w : ℕ}
variable {ps : Pools Comp w} {C : κ} {et : BitVec w}

/-- `Has` and `Get` of one type, after a write of the pool of `C`. -/
theorem has_get_setPool_iff {p q : Pool (Comp C) w} (hp : getPool ps C = some p) :
    (∀ e D, has (setPool ps C q) [D] e = has ps [D] e ∧ get (setPool ps C q) D e = get ps D e) ↔
      ∀ e, q.has e = p.has e ∧ q.get e = p.get e := by
  have hself : getPool (setPool ps C q) C = some q := getPool_setPool_self hp q
  constructor
  · intro h e
    obtain ⟨hhas, hget⟩ := h e C
    rw [has_singleton, has_singleton, poolOf, poolOf, hself, hp] at hhas
    rw [get, get, hself, hp] at hget
    exact ⟨hhas, hget⟩
  · intro h e D
    by_cases hD : D = C
    · subst hD
      rw [has_singleton, has_singleton, poolOf, poolOf, get, get, hself, hp]
      exact h e
    · rw [has_singleton, has_singleton, poolOf, poolOf, get, get, getPool_setPool_ne hD]
      exact ⟨rfl, rfl⟩

/-- Replacing goes unseen exactly where there is a pool, and in it a spare
cell. -/
theorem replace_unseen_iff (h : Sound ps) (et : BitVec w) (c : Ctor (Comp C)) :
    (∃ r, replace ps C et c = some r ∧
      ∀ e D, has r.1 [D] e = has ps [D] e ∧ get r.1 D e = get ps D e) ↔
      ∃ p, getPool ps C = some p ∧ p.Spare et c := by
  constructor
  · rintro ⟨r, hr, hsame⟩
    obtain ⟨p, q, hp, hq, rfl⟩ := build_eq_some.mp hr
    exact ⟨p, hp, (Pool.replace_unseen_iff (h C p hp) et c).mp
      ⟨q, hq, (has_get_setPool_iff hp).mp hsame⟩⟩
  · rintro ⟨p, hp, hspare⟩
    obtain ⟨q, hq, hsame⟩ := (Pool.replace_unseen_iff (h C p hp) et c).mpr hspare
    exact ⟨_, build_eq_some.mpr ⟨p, q, hp, hq, rfl⟩, (has_get_setPool_iff hp).mpr hsame⟩

end Pools

namespace EntityManager

variable {κ : Type} [DecidableEq κ] {Comp : κ → Type} {w : ℕ}
variable {s : State Comp w} {C : κ} {et : BitVec w}

/-- **Replacing a component that is not owned does nothing only by chance.** In
every reachable state and for every entity that does not own `C`,
`Replace<C>(et, args)` is defined, leaves `et` without the component and changes
no answer of `Has` and `Get`, if and only if `C` has a pool and the cell that
the stale index of `et` names is spare. -/
theorem replace_unowned_iff (hs : Reachable s) (hno : s.em.has [C] et = some false)
    (c : Ctor (Comp C)) :
    (∃ s' r, step s (.onPools (.replace C et c)) = some (s', r) ∧
      s'.em.has [C] et = some false ∧
      ∀ e D, s'.em.has [D] e = s.em.has [D] e ∧ s'.em.pools.get D e = s.em.pools.get D e) ↔
      ∃ p, s.em.pools.getPool C = some p ∧ p.Spare et c := by
  rw [← Pools.replace_unseen_iff hs.inv.tidy.pools]
  constructor
  · rintro ⟨s', r, hstep, -, hsame⟩
    simp only [step, Pools.step, Option.bind_eq_bind, Option.bind_eq_some_iff, Option.pure_def,
      Option.some.injEq, Prod.mk.injEq] at hstep
    obtain ⟨q, hq, rfl, rfl⟩ := hstep
    exact ⟨q, hq, hsame⟩
  · rintro ⟨q, hq, hsame⟩
    refine ⟨⟨s.ett, { s.em with pools := q.1 }⟩, .ended q.2, ?_, ?_, hsame⟩
    · simp only [step, Pools.step, hq]
      rfl
    · exact (hsame et C).1.trans hno

/-- Entity 1 owned a component, and its cell is left. -/
theorem replace_unowned_iff_left :
    let pool : Pool ℕ 64 := ⟨⟨[0, 1], [0, 1], 1, 2⟩, ⟨[450, 1743], 2, Nat.le_refl 2⟩⟩
    let s : State (fun _ : Unit => ℕ) 64 :=
      ⟨2, ⟨[0, 1], [0, 1], 2, 2⟩, .empty, [⟨(), pool⟩]⟩
    s.em.has [()] 1 = some false ∧
      ∃ s' r, step s (.onPools (.replace () 1 (some 7))) = some (s', r) ∧
        s'.em.has [()] 1 = some false ∧
        ∀ e D, s'.em.has [D] e = s.em.has [D] e ∧
          s'.em.pools.get D e = s.em.pools.get D e := by
  intro pool s
  have hreach : Reachable s := ⟨0, [.create, .create, .onPools (.assign () 0 (some 450)),
    .onPools (.assign () 1 (some 1743)), .onPools (.delete [()] 1)], by decide, rfl⟩
  have hno : s.em.has [()] 1 = some false := by decide
  exact ⟨hno, (replace_unowned_iff hreach hno (some 7)).mpr
    ⟨pool, rfl, 1, 1743, rfl, rfl, .inl (by decide)⟩⟩

/-- Without a pool of the type, `Replace` goes through the null pointer.  With
one, entity 0 has index 0 without owning anything, and its replacement
overwrites the component of entity 1. -/
theorem replace_unowned_overwrites :
    let s₀ : State (fun _ : Unit => ℕ) 64 := ⟨2, ⟨[0, 1], [0, 1], 2, 2⟩, .empty, []⟩
    let s : State (fun _ : Unit => ℕ) 64 :=
      ⟨2, ⟨[0, 1], [0, 1], 2, 2⟩, .empty,
        [⟨(), ⟨⟨[1, 0], [0, 0], 1, 2⟩, ⟨[450], 1, Nat.le_refl 1⟩⟩⟩]⟩
    (Reachable s₀ ∧ s₀.em.exists_ 0 = some true ∧ s₀.em.has [()] 0 = some false ∧
      step s₀ (.onPools (.replace () 0 (some 7))) = none) ∧
    (Reachable s ∧ s.em.exists_ 0 = some true ∧ s.em.has [()] 0 = some false ∧
      s.em.pools.get () 1 = some (some 450) ∧
      ¬ ∃ s' r, step s (.onPools (.replace () 0 (some 7))) = some (s', r) ∧
        s'.em.pools.get () 1 = s.em.pools.get () 1) := by
  intro s₀ s
  have hreach : Reachable s :=
    ⟨0, [.create, .create, .onPools (.assign () 1 (some 450))], by decide, rfl⟩
  refine ⟨⟨⟨0, [.create, .create], by decide, rfl⟩, by decide, by decide, rfl⟩,
    hreach, by decide, by decide, rfl, ?_⟩
  rintro ⟨s', r, hstep, hget⟩
  have hafter : (step s (.onPools (.replace () 0 (some 7)))).bind
      (fun r => r.1.em.pools.get () 1) = some (some 7) := rfl
  rw [hstep, Option.bind_some, hget] at hafter
  have hbefore : s.em.pools.get () 1 = some (some 450) := rfl
  rw [hbefore] at hafter
  simp at hafter

end EntityManager

end Indie
