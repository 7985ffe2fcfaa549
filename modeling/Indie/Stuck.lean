/-
Indie/Stuck.lean

What becomes of a manager that has recycled with more than one id waiting.

`Create` takes the first recycled id out with `_deleted_et.Erase(Begin())`.
With two or more ids waiting this erasure puts the last of them into the first
cell and leaves its record in `_sparse` behind (`Erase`).  From then on the
first cell is never emptied:

* the record of its id names another cell, so a later `Erase(Begin())` finds
  nothing to erase, or erases a second copy of the id elsewhere;
* an insertion appends, and records a cell that is not the first.

A set in this state is `Stuck`, and no call leaves it.  So every later `Create`
returns the same id, whether it is live or not, and no id is ever drawn from
the counter again (`create_returns_forever`).
-/
import Indie.Recycle

namespace Indie

/-! ### The recycled set -/

namespace SparseSet

variable {w : ℕ} {s s' : SparseSet w} {v x last : BitVec w} {i : ℕ}

/-- The first cell holds `x`, and the record of `x` names another cell. -/
structure Stuck (s : SparseSet w) (x : BitVec w) : Prop extends Shape s where
  pos : 0 < s.size.toNat
  head : s.dense[0]? = some x
  lost : ∃ j, s.sparse[x.toNat]? = some j ∧ 0 < j.toNat
  below : ∀ v ∈ s.range, v.toNat < s.capacity.toNat

theorem Stuck.head_mem (h : Stuck s x) : x ∈ s.range :=
  List.mem_of_getElem? (h.getElem?_range.mpr ⟨h.pos, h.head⟩)

/-- Growing keeps the cells both vectors have. -/
theorem Shape.getElem?_grow (h : Shape s) (v : BitVec w) (hi : i < s.capacity.toNat) :
    (s.grow v).dense[i]? = s.dense[i]? ∧ (s.grow v).sparse[i]? = s.sparse[i]? := by
  unfold SparseSet.grow
  split
  · exact h.getElem?_reserve _ hi
  · exact ⟨rfl, rfl⟩

theorem capacity_le_grow (s : SparseSet w) (v : BitVec w) :
    s.capacity.toNat ≤ (s.grow v).capacity.toNat := by
  unfold grow
  split
  · exact (le_capacity_reserve s _).1
  · exact le_rfl

/-- An insertion appends behind the first cell. -/
theorem Stuck.insert (h : Stuck s x) (hs : s.insert v = some s') : Stuck s' x := by
  rcases h.insert_cases hs with ⟨-, rfl⟩ | ⟨-, hs⟩
  · exact h
  obtain ⟨hshape, hrange⟩ := h.toShape.append hs
  obtain ⟨hn, hv, rfl⟩ := h.append_eq_some.mp hs
  have hx := h.below x h.head_mem
  have hcap := capacity_le_grow s v
  obtain ⟨j, hj, hpos⟩ := h.lost
  refine ⟨hshape, ?_, ?_, ?_, ?_⟩
  · show 0 < (s.size + 1).toNat
    rw [Vec.toNat_add_one (by have := (s.grow v).capacity.isLt; omega)]
    exact Nat.succ_pos _
  · show ((s.grow v).dense.set s.size.toNat v)[0]? = some x
    rw [List.getElem?_set_ne h.pos.ne', (h.getElem?_grow v (h.pos.trans_le h.size_le)).1, h.head]
  · show ∃ j, ((s.grow v).sparse.set v.toNat s.size)[x.toNat]? = some j ∧ 0 < j.toNat
    by_cases hvx : v.toNat = x.toNat
    · -- `x` itself is appended, and its new record is not zero
      refine ⟨s.size, ?_, h.pos⟩
      rw [hvx, List.getElem?_set_self]
      rw [(h.grow v).sparse_length]
      exact hx.trans_le hcap
    · refine ⟨j, ?_, hpos⟩
      rw [List.getElem?_set_ne hvx, (h.getElem?_grow v hx).2, hj]
  · show ∀ u ∈ SparseSet.range _, u.toNat < (s.grow v).capacity.toNat
    intro u hu
    rw [hrange, List.mem_append, List.mem_singleton] at hu
    rcases hu with hu | rfl
    · exact (h.below u hu).trans_le hcap
    · exact hv

/-- What `Erase(Begin())` does: nothing, or it erases another copy of `x`. -/
theorem Stuck.eraseAt_eq (h : Stuck s x) :
    s.eraseAt 0 = some s ∨ ∃ j last, s.sparse[x.toNat]? = some j ∧ 0 < j.toNat ∧
      j.toNat < s.size.toNat ∧ s.range[s.size.toNat - 1]? = some last ∧
      s.eraseAt 0 = some { dense := s.dense.set j.toNat last
                           sparse := s.sparse.set last.toNat j
                           size := s.size - 1
                           capacity := s.capacity } := by
  obtain ⟨b, hb⟩ := h.has_defined x
  cases b with
  | false => exact .inl (eraseRef_of_has_false (r := .cell 0) h.head hb)
  | true =>
    obtain ⟨j, hj, hji, -⟩ := has_eq_some_true hb
    obtain ⟨j', hj', hpos⟩ := h.lost
    obtain rfl := Option.some.inj (hj.symm.trans hj')
    obtain ⟨last, hlast⟩ := h.exists_last hji
    refine .inr ⟨j, last, hj, hpos, hji, hlast, ?_⟩
    refine (h.eraseRef_eq_some (r := .cell 0) h.head hb hj hji hlast).mpr
      ⟨x, ?_, j, hj, h.below last (List.mem_of_getElem? hlast), rfl⟩
    -- the first cell is not the one overwritten: the parameter still reads `x`
    show (s.dense.set j.toNat last)[0]? = some x
    rw [List.getElem?_set_ne hpos.ne', h.head]

theorem Stuck.eraseAt (h : Stuck s x) : ∃ s', s.eraseAt 0 = some s' ∧ Stuck s' x := by
  rcases h.eraseAt_eq with hs | ⟨j, last, hj, hpos, hji, hlast, hs⟩
  · exact ⟨s, hs, h⟩
  refine ⟨_, hs, ?_⟩
  obtain ⟨hshape, -⟩ := h.toShape.eraseRef hs
  have hsub := h.range_eraseRef_subset hs
  refine ⟨hshape, ?_, ?_, ?_, fun u hu => h.below u (hsub hu)⟩
  · show 0 < (s.size - 1).toNat
    rw [Shape.toNat_size_sub_one hji]
    omega
  · show (s.dense.set j.toNat last)[0]? = some x
    rw [List.getElem?_set_ne hpos.ne', h.head]
  · show ∃ k, (s.sparse.set last.toNat j)[x.toNat]? = some k ∧ 0 < k.toNat
    refine ⟨j, ?_, hpos⟩
    rw [List.getElem?_set]
    split
    · rw [if_pos]
      rw [h.sparse_length]
      exact h.below last (List.mem_of_getElem? hlast)
    · exact hj

/-- With more than one id waiting, `Erase(Begin())` makes the set stuck at the
last of them. -/
theorem WF.stuck_eraseAt (h : WF s) (hsize : 1 < s.size.toNat)
    (hlast : s.range[s.size.toNat - 1]? = some last) (hs : s.eraseAt 0 = some s') :
    Stuck s' last := by
  have hpos : 0 < s.size.toNat := Nat.zero_lt_of_lt hsize
  have hsub := h.toShape.range_eraseRef_subset hs
  obtain ⟨hshape, -⟩ := h.toShape.eraseRef hs
  rw [h.eraseAt_eq hpos hlast, Option.some.injEq] at hs
  subst hs
  refine ⟨hshape, ?_, ?_, ?_, fun u hu => h.lt_capacity (hsub hu)⟩
  · show 0 < (s.size - 1).toNat
    rw [Shape.toNat_size_sub_one hpos]
    omega
  · exact List.getElem?_set_self (h.dense_length ▸ hpos.trans_le h.size_le)
  · refine ⟨_, h.sparse_dense hlast, ?_⟩
    rw [h.toNat_ofNat hlast]
    omega

end SparseSet

/-! ### The manager -/

namespace EntityManager

variable {κ : Type} [DecidableEq κ] {Comp : κ → Type} {w : ℕ}
variable {s : State Comp w} {x : BitVec w} {op : Op Comp w}

/-- `Create` returns `x`, and the set stays stuck. -/
theorem Inv.stuck_create (h : Inv s) (hx : s.em.deletedEt.Stuck x) :
    ∃ em', s.em.create s.ett = some (em', s.ett, x) ∧ em'.deletedEt.Stuck x := by
  obtain ⟨d, hd, hstuck⟩ := hx.eraseAt
  have hmax : x.toNat + 1 < 2 ^ w := by
    have := hx.below x hx.head_mem
    have := s.em.deletedEt.capacity.isLt
    omega
  obtain ⟨en, hen⟩ := h.tidy.entities.insert_defined hmax
  refine ⟨⟨en, d, s.em.pools⟩, create_eq_some.mpr ⟨hen, rfl, ?_⟩, hstuck⟩
  rw [if_neg fun h0 => by have := hx.pos; rw [h0] at this; simp at this]
  exact ⟨hx.head, hd, rfl⟩

/-- A valid call leaves the set stuck, draws no id and makes nobody live but
`x`. -/
theorem Inv.stuck_step (h : Inv s) (hx : s.em.deletedEt.Stuck x) (hv : op.Valid s.em)
    {r : State Comp w × Ret w} (hs : step s op = some r) :
    r.1.em.deletedEt.Stuck x ∧ r.1.ett = s.ett ∧
      ∀ e, Live r.1.em e → e = x ∨ Live s.em e := by
  rcases h.effect hv hs with ⟨-, et, -, hc⟩ | ⟨-, hett, -, ⟨es, -, hd⟩ | ⟨hrange, hdel⟩⟩
  · obtain ⟨em', hc', hstuck⟩ := h.stuck_create hx
    obtain ⟨rfl, hett, rfl⟩ : em' = r.1.em ∧ s.ett = r.1.ett ∧ x = et := by
      simpa using hc'.symm.trans hc
    exact ⟨hstuck, hett.symm, fun e he => ((h.tidy.create hc).2 e).mp he⟩
  · refine ⟨?_, hett, fun e he => .inr ((h.tidy.live_destroy hd).mp he).1⟩
    exact destroy_invariant (I := fun em => em.deletedEt.Stuck x)
      (fun _ _ _ _ hI hab => hI.insert (destroyEt_eq_some.mp hab).2.2) hx hd
  · rw [hdel]
    exact ⟨hx, hett, fun e he => .inr (by rwa [Live, hrange] at he)⟩

/-! ### Runs -/

/-- Whatever valid calls follow, the set stays stuck, no id is drawn, and nobody
comes to life but `x`. -/
theorem Inv.stuck_run {h h' : History Comp w} {ops : List (Op Comp w)} (hi : Inv h.1)
    (hx : h.1.em.deletedEt.Stuck x)
    (hops : Machine.Along History.step (fun h op => op.Admissible h) h ops)
    (hr : Machine.run History.step h ops = some h') :
    Inv h'.1 ∧ h'.1.em.deletedEt.Stuck x ∧ h'.1.ett = h.1.ett ∧
      ∀ e, Live h'.1.em e → e = x ∨ Live h.1.em e := by
  refine Machine.run_invariant (I := fun g => Inv g.1 ∧ g.1.em.deletedEt.Stuck x ∧
    g.1.ett = h.1.ett ∧ ∀ e, Live g.1.em e → e = x ∨ Live h.1.em e) ?_
    ⟨hi, hx, rfl, fun _ => .inr⟩ hops hr
  rintro g op g' ⟨hg, hgx, hett, hlive⟩ hop hs
  obtain ⟨r, hr, rfl⟩ := step_eq_some.mp hs
  obtain ⟨hstuck, hett', hlive'⟩ := hg.stuck_step hgx hop.1 hr
  refine ⟨hg.next hop.1 (next_of_step hr), hstuck, hett'.trans hett, fun e he => ?_⟩
  rcases hlive' e he with rfl | he
  · exact .inl rfl
  · exact hlive e he

/-- The first `Create` that finds more than one id waiting returns the first of
them and leaves the set stuck at the last. -/
theorem Ledger.create_sticks {h h' : History Comp w} (hh : Ledger h)
    (hsize : 1 < h.1.em.deletedEt.size.toNat) (hs : h.step .create = some h') :
    ∃ d x, h.1.em.deletedEt.range.head? = some d ∧
      h.1.em.deletedEt.range.getLast? = some x ∧ h'.2 = h.2 ++ [.created d] ∧
      h'.1.em.deletedEt.Stuck x ∧ h'.1.ett = h.1.ett ∧
      ∀ e, Live h'.1.em e → e = d ∨ Live h.1.em e := by
  have hpos : 0 < h.1.em.deletedEt.size.toNat := Nat.zero_lt_of_lt hsize
  obtain ⟨x, hlast⟩ := hh.deletedEt.exists_last hpos
  obtain ⟨r, hr, rfl⟩ := step_eq_some.mp hs
  have hv : (Op.create : Op Comp w).Valid h.1.em := trivial
  obtain ⟨-, d, hret, hc⟩ | ⟨hne, -⟩ := hh.inv.effect hv hr
  · obtain ⟨-, -, hd⟩ := create_eq_some.mp hc
    rw [if_neg fun h0 => by rw [h0] at hsize; simp at hsize] at hd
    obtain ⟨hv, hd, hett⟩ := hd
    refine ⟨d, x, ?_, ?_, by rw [hret], hh.deletedEt.stuck_eraseAt hsize hlast hd, hett,
      fun e he => ((hh.inv.tidy.create hc).2 e).mp he⟩
    · rw [List.head?_eq_getElem?]
      exact hh.deletedEt.getElem?_range.mpr ⟨hpos, hv⟩
    · rw [List.getLast?_eq_getElem?, hh.deletedEt.length_range, hlast]
  · exact absurd rfl hne

/-- **Once more than one id has waited, `Create` returns the same id for ever.**
Take the first `Create` of a run that finds more than one id waiting.  Whatever
calls follow it, as long as these have defined behaviour (a `Destroy` among them may
not), `Create` is defined after them and returns the id that was destroyed last
before it, live or not; the counter has not moved; and nobody is live but the
entities that were, the one that `Create` returned, and this id. -/
theorem create_returns_forever (ett : BitVec w) (ops more : List (Op Comp w))
    {h h' : History Comp w}
    (hops : Machine.Along History.step (fun h op => op.Admissible h) (History.init ett)
      (ops ++ .create :: more))
    (hone : Machine.Along History.step (fun h op => op.RecyclesAtMostOne h)
      (History.init ett) ops)
    (hr : Machine.run History.step (History.init ett) ops = some h)
    (hmany : 1 < h.1.em.deletedEt.size.toNat)
    (hr' : Machine.run History.step h (.create :: more) = some h') :
    ∃ d x, h.1.em.deletedEt.range.head? = some d ∧
      h.1.em.deletedEt.range.getLast? = some x ∧
      (∃ h'', h'.step .create = some h'' ∧ h''.2 = h'.2 ++ [.created x]) ∧
      h'.1.ett = h.1.ett ∧
      ∀ e, h'.1.em.exists_ e = some true → e = d ∨ e = x ∨ h.1.em.exists_ e = some true := by
  obtain ⟨hbefore, hafter⟩ := Machine.along_append.mp hops
  have hh : Ledger h := by
    refine Machine.run_invariant (I := Ledger)
      (P := fun h op => op.Admissible h ∧ op.RecyclesAtMostOne h)
      (fun _ _ _ hg hop hs => (hg.step hop.1 hop.2 hs).1) (ledger_init ett) ?_ hr
    exact hbefore.and hone
  obtain ⟨h₁, hs, hr'⟩ := Option.bind_eq_some_iff.mp hr'
  obtain ⟨d, x, hd, hx, -, hstuck, hett, hlive⟩ := hh.create_sticks hmany hs
  obtain ⟨r, hstep, rfl⟩ := step_eq_some.mp hs
  have hv : (Op.create : Op Comp w).Valid h.1.em := trivial
  have hi := hh.inv.next hv (next_of_step hstep)
  obtain ⟨hi', hstuck', hett', hlive'⟩ := hi.stuck_run hstuck ((hafter h hr).2 _ hs) hr'
  refine ⟨d, x, hd, hx, ?_, hett'.trans hett, fun e he => ?_⟩
  · obtain ⟨em', hc, -⟩ := hi'.stuck_create hstuck'
    refine ⟨(⟨h'.1.ett, em'⟩, h'.2 ++ [.created x]),
      step_eq_some.mpr ⟨(⟨h'.1.ett, em'⟩, .created x), ?_, rfl⟩, rfl⟩
    rw [EntityManager.step, hc]
    rfl
  · rw [hh.inv.tidy.exists_iff]
    rcases hlive' e (hi'.tidy.exists_iff.mp he) with rfl | he
    · exact .inr (.inl rfl)
    · exact (hlive e he).imp_right .inr

instance (h : History Comp w) (op : Op Comp w) : Decidable (op.RecyclesAtMostOne h) :=
  match op with
  | .create => Nat.decLe h.1.em.deletedEt.size.toNat 1
  | .destroy _ | .destroyWith _ | .reset | .reserve _ | .onPools _ => isTrue trivial

/-- Two ids wait.  Both are handed out once, and then 1 again and again. -/
theorem create_returns_forever_pair :
    let ops : List (Op (fun _ : Unit => ℕ) 8) := [.create, .create, .destroy [0], .destroy [1]]
    let more : List (Op (fun _ : Unit => ℕ) 8) := [.create, .create, .destroy [0], .create]
    ∃ h h', Machine.run History.step (History.init 0) ops = some h ∧
      Machine.run History.step h (.create :: more) = some h' ∧
      ∃ h'', h'.step .create = some h'' ∧ h''.2 = h'.2 ++ [.created 1] := by
  intro ops more
  obtain ⟨h, hr⟩ : ∃ h, Machine.run History.step (History.init 0) ops = some h :=
    Option.isSome_iff_exists.mp (by decide)
  obtain ⟨h', hr'⟩ : ∃ h', (Machine.run History.step (History.init 0) ops).bind
      (Machine.run History.step · (.create :: more)) = some h' :=
    Option.isSome_iff_exists.mp (by decide)
  rw [hr, Option.bind_some] at hr'
  have hwait : (Machine.run History.step (History.init 0) ops).map
      (fun h => (h.1.em.deletedEt.size, h.1.em.deletedEt.range.getLast?)) =
        some (2, some 1) := by decide
  rw [hr, Option.map_some, Option.some.injEq, Prod.mk.injEq] at hwait
  obtain ⟨d, x, -, hx, hforever, -⟩ := create_returns_forever 0 ops more (by decide) (by decide) hr
    (by rw [hwait.1]; decide) hr'
  obtain rfl : x = 1 := Option.some.inj (hx.symm.trans hwait.2)
  exact ⟨h, h', hr, hr', hforever⟩

end EntityManager

end Indie
