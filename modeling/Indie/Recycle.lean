/-
Indie/Recycle.lean

When ids are handed out once at a time.

The law: in every state the live and the recycled ids are disjoint, and
together they are the ids the manager has handed out; so `Create` returns an
id that was not live, and makes one more entity (`Lawful`, `CreatesNew`).

`Create` takes the first recycled id out with `_deleted_et.Erase(Begin())`,
the aliased erasure of `Erase.lean`.  With one id waiting the position is the
last one and all is well.  With more, the last id of `_deleted_et` is lost to
`Has`: it is neither live nor recycled any more, though its cell is still in
the range, and later calls of `Create` return it again and again.

So the law holds throughout a run exactly if every `Create` finds at most one
id waiting (`lawful_iff_recycles_at_most_one`).
-/
import Indie.Invariant

namespace Indie

namespace EntityManager

variable {κ : Type} [DecidableEq κ] {Comp : κ → Type} {w : ℕ}

/-- The entity a call has handed out. -/
def Ret.entity? : Ret w → Option (BitVec w)
  | .created et => some et
  | .ended _ => none

/-- The ids handed out by calls with these results. -/
def handed (log : List (Ret w)) : List (BitVec w) := log.filterMap Ret.entity?

/-- A state, and the results of the calls that led to it. -/
abbrev History (Comp : κ → Type) (w : ℕ) := State Comp w × List (Ret w)

/-- The history before the first call. -/
def History.init (ett : BitVec w) : History Comp w := (State.init ett, [])

/-- One more call. -/
def History.step : History Comp w → Op Comp w → Option (History Comp w) :=
  Machine.logged EntityManager.step

variable {h h' : History Comp w} {op : Op Comp w} {ett et e : BitVec w}

/-! ### The law -/

/-- The live ids and the recycled ids are disjoint, and together they are the
ids handed out so far. -/
structure Lawful (h : History Comp w) : Prop where
  disjoint : ∀ e, ¬ (h.1.em.exists_ e = some true ∧ h.1.em.deletedEt.has e = some true)
  handed : ∀ e, e ∈ handed h.2 ↔
    h.1.em.exists_ e = some true ∨ h.1.em.deletedEt.has e = some true

/-- The call has returned an id that was not live, and made one more entity. -/
def CreatesNew (h h' : History Comp w) : Prop :=
  ∃ et, h'.2 = h.2 ++ [.created et] ∧ h.1.em.exists_ et = some false ∧
    h'.1.em.size.toNat = h.1.em.size.toNat + 1

/-- A call of `Create`, `Destroy` in its two forms, or `Reset`. -/
def Op.IsLifecycle : Op Comp w → Prop
  | .create => True
  | .destroy _ => True
  | .destroyWith _ => True
  | .reset => True
  | .reserve _ => False
  | .onPools _ => False

/-- The call meets the law: it is defined, the state it leads to is lawful, and
a `Create` creates. -/
def Op.MeetsLaw (h : History Comp w) (op : Op Comp w) : Prop :=
  (op.IsLifecycle → ∃ h', h.step op = some h') ∧
    ∀ h', h.step op = some h' → Lawful h' ∧ (op = .create → CreatesNew h h')

/-- The call is valid, and draws an id only while fresh ones are left. -/
def Op.Admissible (h : History Comp w) (op : Op Comp w) : Prop :=
  op.Valid h.1.em ∧ op.FreshLeft h.1

instance (h : History Comp w) (op : Op Comp w) : Decidable (op.Admissible h) :=
  inferInstanceAs (Decidable (_ ∧ _))

/-- A `Create` finds at most one id waiting. -/
def Op.RecyclesAtMostOne (h : History Comp w) : Op Comp w → Prop
  | .create => h.1.em.deletedEt.size.toNat ≤ 1
  | _ => True

/-! ### The invariant -/

/-- The state of a lawful run. -/
structure Ledger (h : History Comp w) : Prop where
  inv : Inv h.1
  deletedEt : h.1.em.deletedEt.WF
  disjoint : ∀ e, Live h.1.em e → ¬ Recycled h.1.em e
  handed : ∀ e, e ∈ EntityManager.handed h.2 ↔ Live h.1.em e ∨ Recycled h.1.em e
  below : ∀ e ∈ EntityManager.handed h.2, e.toNat < h.1.ett.toNat

theorem ledger_init (ett : BitVec w) : Ledger (History.init ett : History Comp w) where
  inv := inv_init ett
  deletedEt := SparseSet.wf_empty
  disjoint e he := by
    rw [History.init, State.init, Live, empty, SparseSet.range_empty] at he
    cases he
  handed e := by simp [History.init, State.init, EntityManager.handed, Live, Recycled, empty]
  below e he := by cases he

theorem Ledger.lawful (hh : Ledger h) : Lawful h where
  disjoint e := by
    rw [hh.inv.tidy.exists_iff, hh.deletedEt.has_eq_true]
    exact fun he => hh.disjoint e he.1 he.2
  handed e := by
    rw [hh.inv.tidy.exists_iff, hh.deletedEt.has_eq_true]
    exact hh.handed e

theorem step_eq_some : h.step op = some h' ↔
    ∃ r, EntityManager.step h.1 op = some r ∧ h' = (r.1, h.2 ++ [r.2]) :=
  Machine.logged_eq_some

@[simp] theorem handed_created (log : List (Ret w)) (et : BitVec w) :
    handed (log ++ [.created et]) = handed log ++ [et] := by
  simp [handed, Ret.entity?]

@[simp] theorem handed_ended (log : List (Ret w)) (e : Ending) :
    handed (log ++ [.ended e]) = handed log := by
  simp [handed, Ret.entity?]

/-! ### Calls other than `Create` -/

theorem Ledger.destroy (hh : Ledger h) {es : List (BitVec w)} {em : EntityManager Comp w}
    {e : Ending} (hes : ∀ e ∈ es, Live h.1.em e) (hs : h.1.em.destroy es = some em) :
    Ledger (⟨h.1.ett, em⟩, h.2 ++ [.ended e]) := by
  have ht := hh.inv.tidy
  obtain ⟨hwf, hrec⟩ := destroy_deletedEt hh.deletedEt hs
  refine ⟨hh.inv.destroy hs, hwf, fun e he => ?_, fun e => ?_, fun e he => ?_⟩
  · obtain ⟨hl, hno⟩ := (ht.live_destroy hs).mp he
    rw [hrec, not_or]
    exact ⟨hh.disjoint e hl, hno⟩
  · rw [handed_ended, hh.handed, ht.live_destroy hs, hrec]
    by_cases hmem : e ∈ es
    · simp [hmem, hes e hmem]
    · simp [hmem]
  · rw [handed_ended] at he
    exact hh.below e he

theorem Ledger.sameIds (hh : Ledger h) {s : State Comp w} {e : Ending} (hinv : Inv s)
    (hr : s.em.entities.range = h.1.em.entities.range)
    (hd : s.em.deletedEt = h.1.em.deletedEt) (hett : s.ett = h.1.ett) :
    Ledger (s, h.2 ++ [.ended e]) where
  inv := hinv
  deletedEt := hd ▸ hh.deletedEt
  disjoint e he := by
    rw [Live, hr] at he
    rw [Recycled, hd]
    exact hh.disjoint e he
  handed e := by
    rw [handed_ended, hh.handed, Live, Live, Recycled, Recycled, hr, hd]
  below e he := by
    rw [handed_ended] at he
    exact hett ▸ hh.below e he

/-! ### `Create` -/

section Create

variable {em' : EntityManager Comp w} {ett' : BitVec w}

/-- An id that was not live makes one more entity. -/
theorem Tidy.size_create {em : EntityManager Comp w} (ht : Tidy em)
    (hs : em.create ett = some (em', ett', et)) (hno : ¬ Live em et) :
    em'.size.toNat = em.size.toNat + 1 := by
  obtain ⟨hins, -⟩ := create_eq_some.mp hs
  obtain ⟨hwf, hr⟩ := ht.entities.insert_eq hins
  rw [if_neg (show et ∉ em.entities.range from hno)] at hr
  rw [size, size, ← hwf.length_range, hr, ← ht.entities.length_range, List.length_append,
    List.length_singleton]

/-- A fresh id. -/
theorem Ledger.create_fresh (hh : Ledger h)
    (hs : h.1.em.create h.1.ett = some (em', ett', et))
    (hsize : h.1.em.deletedEt.size = 0) (hlt : h.1.ett.toNat + 1 < 2 ^ w) :
    Ledger (⟨ett', em'⟩, h.2 ++ [.created et]) ∧ ¬ Live h.1.em et := by
  obtain ⟨-, -, hd⟩ := create_eq_some.mp hs
  rw [if_pos hsize] at hd
  obtain ⟨hd, rfl, rfl⟩ := hd
  -- the counter is above every id handed out
  have hnew : h.1.ett ∉ EntityManager.handed h.2 :=
    fun hmem => lt_irrefl _ (hh.below _ hmem)
  rw [hh.handed, not_or] at hnew
  obtain ⟨-, hlive⟩ := hh.inv.tidy.create hs
  refine ⟨⟨hh.inv.create hs, hd ▸ hh.deletedEt, fun e he => ?_, fun e => ?_, fun e he => ?_⟩,
    hnew.1⟩
  · rw [Recycled, hd]
    rcases (hlive e).mp he with rfl | he
    · exact hnew.2
    · exact hh.disjoint e he
  · rw [handed_created, List.mem_append, List.mem_singleton, hh.handed, hlive, Recycled,
      Recycled, hd, or_comm, or_assoc]
  · rw [Vec.toNat_add_one hlt]
    rw [handed_created, List.mem_append, List.mem_singleton] at he
    rcases he with he | rfl
    · exact (hh.below e he).trans (Nat.lt_succ_self _)
    · exact Nat.lt_succ_self _

/-- The only id that waits. -/
theorem Ledger.create_last (hh : Ledger h)
    (hs : h.1.em.create h.1.ett = some (em', ett', et))
    (hsize : h.1.em.deletedEt.size.toNat = 1) :
    Ledger (⟨ett', em'⟩, h.2 ++ [.created et]) ∧ ¬ Live h.1.em et := by
  obtain ⟨-, -, hd⟩ := create_eq_some.mp hs
  rw [if_neg fun h0 => by rw [h0] at hsize; simp at hsize] at hd
  obtain ⟨hv, hd, rfl⟩ := hd
  have hrange := hh.deletedEt.getElem?_range.mpr ⟨hsize.symm ▸ Nat.one_pos, hv⟩
  have hrec : Recycled h.1.em et := List.mem_of_getElem? hrange
  -- the first position is the last one
  rw [hh.deletedEt.eraseAt_last (by omega) hrange] at hd
  obtain ⟨-, hlive⟩ := hh.inv.tidy.create hs
  have hnot : ¬ Live h.1.em et := fun hl => hh.disjoint et hl hrec
  have hrec' : ∀ e, Recycled em' e ↔ Recycled h.1.em e ∧ e ≠ et :=
    fun e => hh.deletedEt.mem_erase hd
  refine ⟨⟨hh.inv.create hs, hh.deletedEt.erase hd, fun e he => ?_, fun e => ?_,
    fun e he => ?_⟩, hnot⟩
  · show ¬ Recycled em' e
    rw [hrec', not_and_not_right]
    intro hr
    exact ((hlive e).mp he).resolve_right fun hl => hh.disjoint e hl hr
  · show _ ↔ Live em' e ∨ Recycled em' e
    rw [handed_created, List.mem_append, List.mem_singleton, hh.handed, hlive, hrec']
    by_cases heq : e = et
    · simp [heq]
    · simp [heq]
  · rw [handed_created, List.mem_append, List.mem_singleton] at he
    rcases he with he | rfl
    · exact hh.below e he
    · exact hh.below e ((hh.handed e).mpr (.inr hrec))

/-- With more than one id waiting, the last of them is lost: handed out, but
neither live nor recycled. -/
theorem Ledger.create_loses (hh : Ledger h)
    (hs : h.1.em.create h.1.ett = some (em', ett', et))
    (hsize : 1 < h.1.em.deletedEt.size.toNat) :
    ¬ Lawful (⟨ett', em'⟩, h.2 ++ [.created et]) := by
  intro hlaw
  obtain ⟨-, -, hd⟩ := create_eq_some.mp hs
  rw [if_neg fun h0 => by rw [h0] at hsize; simp at hsize] at hd
  obtain ⟨hv, hd, rfl⟩ := hd
  have hpos : 0 < h.1.em.deletedEt.size.toNat := Nat.zero_lt_of_lt hsize
  have hrange := hh.deletedEt.getElem?_range.mpr ⟨hpos, hv⟩
  obtain ⟨last, hlast⟩ := hh.deletedEt.exists_last hpos
  have hne : last ≠ et := by
    rintro rfl
    have := hh.deletedEt.slot_inj hrange hlast
    omega
  -- it was handed out, so by the law it would be live or recycled
  have hrec : Recycled h.1.em last := List.mem_of_getElem? hlast
  have hhanded : last ∈ EntityManager.handed (h.2 ++ [.created et]) := by
    rw [handed_created, List.mem_append]
    exact .inl ((hh.handed last).mpr (.inr hrec))
  obtain ⟨ht', hlive⟩ := hh.inv.tidy.create hs
  rcases (hlaw.handed last).mp hhanded with hex | hhas
  · rcases (hlive last).mp (ht'.exists_iff.mp hex) with heq | hl
    · exact hne heq
    · exact hh.disjoint last hl hrec
  · rw [show em'.deletedEt.has last = some false from
      hh.deletedEt.eraseAt_has_last hpos hlast hd] at hhas
    cases hhas

end Create

/-! ### Runs -/

theorem Ledger.create (hh : Ledger h) (hop : (Op.create : Op Comp w).Admissible h)
    (hone : h.1.em.deletedEt.size.toNat ≤ 1) {em' : EntityManager Comp w} {ett' : BitVec w}
    (hs : h.1.em.create h.1.ett = some (em', ett', et)) :
    Ledger (⟨ett', em'⟩, h.2 ++ [.created et]) ∧ ¬ Live h.1.em et := by
  by_cases hsize : h.1.em.deletedEt.size = 0
  · exact hh.create_fresh hs hsize (hop.2 hsize)
  · refine hh.create_last hs ?_
    have hpos := Vec.toNat_pos hsize
    omega

/-- An admissible call keeps the ledger, if it recycles at most one id. -/
theorem Ledger.step (hh : Ledger h) (hop : op.Admissible h) (hone : op.RecyclesAtMostOne h)
    (hs : h.step op = some h') : Ledger h' ∧ (op = .create → CreatesNew h h') := by
  obtain ⟨r, hr, rfl⟩ := step_eq_some.mp hs
  have hinv := hh.inv.next hop.1 (next_of_step hr)
  rcases hh.inv.effect hop.1 hr with ⟨rfl, et, hret, hc⟩ | ⟨hne, hett, ⟨e, hret⟩, hids⟩
  · obtain ⟨hl, hno⟩ := hh.create hop hone hc
    rw [hret]
    exact ⟨hl, fun _ => ⟨et, rfl, hh.inv.tidy.exists_eq_false.mpr hno,
      hh.inv.tidy.size_create hc hno⟩⟩
  · refine ⟨?_, fun h => absurd h hne⟩
    rw [hret]
    rcases hids with ⟨es, hes, hd⟩ | ⟨hrange, hdel⟩
    · have hl := hh.destroy (e := e) hes hd
      rwa [← hett] at hl
    · exact hh.sameIds hinv hrange hdel hett

/-- From a lawful history, an admissible call meets the law exactly if it
recycles at most one id. -/
theorem Ledger.meetsLaw_iff (hh : Ledger h) (hop : op.Admissible h) :
    op.MeetsLaw h ↔ op.RecyclesAtMostOne h := by
  -- nothing but a component missing in a pool makes an admissible call undefined
  have hdefined : op.IsLifecycle → ∃ h', h.step op = some h' := by
    intro hlife
    obtain ⟨s', hs⟩ := hh.inv.next_defined hh.deletedEt
      (fun heq => by
        subst heq
        exact hop.2)
      (fun o heq => by
        subst heq
        cases hlife) hop.1
    obtain ⟨r, hr⟩ := exists_step_of_next hs
    exact ⟨_, step_eq_some.mpr ⟨r, hr, rfl⟩⟩
  have hkeeps : op.RecyclesAtMostOne h → op.MeetsLaw h := by
    intro hone
    refine ⟨hdefined, fun h' hs => ?_⟩
    obtain ⟨hl, hnew⟩ := hh.step hop hone hs
    exact ⟨hl.lawful, hnew⟩
  refine ⟨fun ⟨_, hlaw⟩ => ?_, hkeeps⟩
  cases op with
  | create =>
    by_contra hmany
    obtain ⟨h', hs⟩ := hdefined trivial
    obtain ⟨r, hr, rfl⟩ := step_eq_some.mp hs
    rcases hh.inv.effect hop.1 hr with ⟨-, et, hret, hc⟩ | ⟨hne, -⟩
    · have := (hlaw _ hs).1
      rw [hret] at this
      exact hh.create_loses hc (Nat.lt_of_not_le hmany) this
    · exact hne rfl
  | _ => trivial

/-- **Ids are handed out once at a time exactly if they are recycled one at a
time.** Along a run of admissible calls from the empty manager, with the
counter anywhere: every call meets the law if and only if every `Create` finds
at most one id waiting. -/
theorem lawful_iff_recycles_at_most_one (ett : BitVec w) (ops : List (Op Comp w))
    (hops : Machine.Along History.step (fun h op => op.Admissible h)
      (History.init ett) ops) :
    Machine.Along History.step (fun h op => op.MeetsLaw h) (History.init ett) ops ↔
      Machine.Along History.step (fun h op => op.RecyclesAtMostOne h)
        (History.init ett) ops :=
  Machine.along_iff_along (fun _ _ hh hop => hh.meetsLaw_iff hop)
    (fun _ _ _ hh hop hone hs => (hh.step hop hone hs).1) (ledger_init ett) hops

theorem lawful_iff_recycles_at_most_one_pair :
    let ops : List (Op (fun _ : Unit => ℕ) 8) := [.create, .create, .destroy [0], .create]
    Machine.Along History.step (fun h op => op.MeetsLaw h) (History.init 0) ops ↔
      Machine.Along History.step (fun h op => op.RecyclesAtMostOne h) (History.init 0) ops :=
  lawful_iff_recycles_at_most_one 0 _ (by decide)

/-- Two entities are created, destroyed and created again: the next `Create`
returns the id 1, which is live, and the number of entities stays 2. -/
theorem create_returns_live :
    let ops : List (Op (fun _ : Unit => ℕ) 8) :=
      [.create, .create, .destroy [0], .destroy [1], .create, .create]
    Machine.Along History.step (fun h op => op.Admissible h) (History.init 0)
        (ops ++ [.create]) ∧
      (Machine.run History.step (History.init 0) ops).map
        (fun h => (handed h.2, h.1.em.exists_ 1, h.1.em.size)) =
          some ([0, 1, 0, 1], some true, 2) ∧
      (Machine.run History.step (History.init 0) (ops ++ [.create])).map
        (fun h => (handed h.2, h.1.em.size)) = some ([0, 1, 0, 1, 1], 2) ∧
      ¬ Machine.Along History.step (fun h op => op.MeetsLaw h) (History.init 0)
        (ops ++ [.create]) := by
  intro ops
  refine ⟨by decide, by decide, by decide, fun hlaw => ?_⟩
  obtain ⟨h, hr⟩ : ∃ h, Machine.run History.step (History.init 0) ops = some h :=
    Option.isSome_iff_exists.mp (by decide)
  obtain ⟨h', hr'⟩ : ∃ h', Machine.run History.step (History.init 0) (ops ++ [.create]) =
      some h' := Option.isSome_iff_exists.mp (by decide)
  have hsize : (Machine.run History.step (History.init 0) ops).map (·.1.em.size) = some 2 := by
    decide
  have hsize' : (Machine.run History.step (History.init 0) (ops ++ [.create])).map
      (·.1.em.size) = some 2 := by decide
  have hstep : h.step .create = some h' := by
    rw [Machine.run_append, hr, Option.bind_some, Machine.run_cons] at hr'
    simpa using hr'
  rw [hr, Option.map_some, Option.some.injEq] at hsize
  rw [hr', Option.map_some, Option.some.injEq] at hsize'
  obtain ⟨-, hlast⟩ := Machine.along_append.mp hlaw
  obtain ⟨-, -, -, hgrow⟩ := ((hlast h hr).1.2 h' hstep).2 rfl
  rw [hsize, hsize'] at hgrow
  cases hgrow

end EntityManager

end Indie
