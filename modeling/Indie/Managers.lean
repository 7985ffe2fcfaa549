/-
Indie/Managers.lean

Any number of entity managers of one entity type.

They share one thing, the static of `Create` fresh ids are drawn from.
Recycled ids come from the manager's own `_deleted_et`, so an id belongs to
the manager that drew it: it is found in the arrays of no other (`Apart`).
The invariant speaks of the cells of `_entities` and `_deleted_et` and not of
what `Has` says of the second one, because `Create` may damage that set; the
damage loses track of cells, but it never writes a foreign id.
-/
import Indie.Invariant

namespace Indie

namespace EntityManager

variable {κ : Type} [DecidableEq κ] {Comp : κ → Type} {w : ℕ}
variable {s s' : State Comp w} {em em' : EntityManager Comp w} {ett et e : BitVec w}

/-! ### The ids one manager holds -/

/-- The id stands in one of the arrays of the manager. -/
def Held (em : EntityManager Comp w) (e : BitVec w) : Prop := Live em e ∨ Recycled em e

/-- Destroying live entities brings no new id in. -/
theorem Inv.held_destroy (h : Inv s) {es : List (BitVec w)} (hes : ∀ et ∈ es, Live s.em et)
    (hs : s.em.destroy es = some em') (he : Held em' e) : Held s.em e := by
  rcases he with he | he
  · exact .inl ((h.tidy.live_destroy hs).mp he).1
  · -- a destroyed id enters `_deleted_et` only, and was live before
    refine (destroy_invariant
      (I := fun em => em.deletedEt.Shape ∧ ∀ e, Recycled em e → Held s.em e) ?_
      ⟨h.shape, fun _ => .inr⟩ hs).2 e he
    rintro a b et het ⟨hshape, hrec⟩ hab
    obtain ⟨hshape', hsub⟩ := hshape.insert (destroyEt_eq_some.mp hab).2.2
    refine ⟨hshape', fun x hx => ?_⟩
    rcases hsub x hx with rfl | hx
    · exact .inl (hes x het)
    · exact hrec x hx

/-- `Create` brings in the fresh id it has drawn, or none. -/
theorem Inv.held_create (h : Inv s) (hs : s.em.create s.ett = some (em', ett, et)) :
    (ett = s.ett ∧ Held s.em et ∧ ∀ e, Held em' e → Held s.em e) ∨
      (ett = s.ett + 1 ∧ s.em.deletedEt.size = 0 ∧ et = s.ett ∧
        ∀ e, Held em' e → e = s.ett ∨ Held s.em e) := by
  obtain ⟨-, hlive⟩ := h.tidy.create hs
  obtain ⟨-, -, hd⟩ := create_eq_some.mp hs
  split at hd
  · rename_i hsize
    obtain ⟨hdel, rfl, rfl⟩ := hd
    refine .inr ⟨rfl, hsize, rfl, fun e he => ?_⟩
    rw [Held, hlive, Recycled, hdel, or_assoc] at he
    exact he
  · rename_i hsize
    obtain ⟨hv, hdel, rfl⟩ := hd
    have hpos : 0 < s.em.deletedEt.size.toNat := Vec.toNat_pos hsize
    have hrec : Recycled s.em et :=
      List.mem_of_getElem? (h.shape.getElem?_range.mpr ⟨hpos, hv⟩)
    refine .inl ⟨rfl, .inr hrec, fun e he => ?_⟩
    rcases he with he | he
    · rcases (hlive e).mp he with rfl | he
      · exact .inr hrec
      · exact .inl he
    · exact .inr (h.shape.range_eraseRef_subset hdel he)

/-- A valid call brings in no id but the one it draws; it returns an id that is
held afterwards. -/
theorem Inv.held_step (h : Inv s) {op : Op Comp w} (hv : op.Valid s.em)
    (hfresh : op.FreshLeft s) {r : State Comp w × Ret w} (hs : step s op = some r) :
    s.ett.toNat ≤ r.1.ett.toNat ∧
      (∀ et, r.2 = .created et → Held r.1.em et) ∧
      ∀ e, Held r.1.em e →
        Held s.em e ∨ e = s.ett ∧ s.ett.toNat < r.1.ett.toNat := by
  rcases h.effect hv hs with ⟨rfl, et, hret, hc⟩ | ⟨-, hett, ⟨e, hret⟩, hids⟩
  · have hnew : Live r.1.em et := ((h.tidy.create hc).2 et).mpr (.inl rfl)
    have hheld : ∀ et', r.2 = .created et' → Held r.1.em et' := by
      intro et' het'
      obtain rfl := Ret.created.inj (hret.symm.trans het')
      exact .inl hnew
    rcases h.held_create hc with ⟨hett, -, hsub⟩ | ⟨hett, hsize, rfl, hsub⟩
    · rw [hett]
      exact ⟨le_rfl, hheld, fun e he => .inl (hsub e he)⟩
    · rw [hett, Vec.toNat_add_one (hfresh hsize)]
      refine ⟨Nat.le_succ _, hheld, fun e he => ?_⟩
      rcases hsub e he with rfl | he
      · exact .inr ⟨rfl, Nat.lt_succ_self _⟩
      · exact .inl he
  · rw [hett]
    refine ⟨le_rfl, fun et het => ?_, fun e he => .inl ?_⟩
    · rw [hret] at het
      cases het
    · rcases hids with ⟨es, hes, hd⟩ | ⟨hrange, hdel⟩
      · exact h.held_destroy hes hd he
      · rwa [Held, Live, Recycled, hrange, hdel] at he

end EntityManager

/-! ### All managers of the program -/

/-- The managers of a program, and the static they share. -/
structure Managers (ι : Type) {κ : Type} (Comp : κ → Type) (w : ℕ) where
  ett : BitVec w
  em : ι → EntityManager Comp w

namespace Managers

open EntityManager (State Op Ret Inv Held Live)

variable {ι : Type} [DecidableEq ι] {κ : Type} [DecidableEq κ] {Comp : κ → Type} {w : ℕ}
variable {m m' : Managers ι Comp w} {i j : ι} {e : BitVec w}

/-- The program starts: no manager has an entity. -/
def init : Managers ι Comp w := ⟨0, fun _ => .empty⟩

/-- What manager `i` works on. -/
def view (m : Managers ι Comp w) (i : ι) : State Comp w := ⟨m.ett, m.em i⟩

/-- One call on one manager, and what it returns. -/
def step (m : Managers ι Comp w) (c : ι × Op Comp w) :
    Option (Managers ι Comp w × (ι × Ret w)) :=
  (EntityManager.step (m.view c.1) c.2).map fun r =>
    (⟨r.1.ett, Function.update m.em c.1 r.1.em⟩, (c.1, r.2))

/-- The call is valid on its manager, and draws an id only while fresh ones are
left. -/
def Admissible (m : Managers ι Comp w) (c : ι × Op Comp w) : Prop :=
  c.2.Valid (m.em c.1) ∧ c.2.FreshLeft (m.view c.1)

instance (m : Managers ι Comp w) (c : ι × Op Comp w) : Decidable (m.Admissible c) :=
  inferInstanceAs (Decidable (_ ∧ _))

/-- An id belongs to at most one manager: the one that has drawn it, if it has
been drawn. -/
structure Apart (m : Managers ι Comp w) (log : List (ι × Ret w)) : Prop where
  inv : ∀ i, Inv (m.view i)
  below : ∀ i e, Held (m.em i) e → e.toNat < m.ett.toNat
  apart : ∀ i j e, Held (m.em i) e → Held (m.em j) e → i = j
  drawn : ∀ i e, (i, Ret.created e) ∈ log → e.toNat < m.ett.toNat ∧
    ∀ j, Held (m.em j) e → j = i

omit [DecidableEq ι] in
theorem apart_init : Apart (init : Managers ι Comp w) [] where
  inv _ := EntityManager.inv_init 0
  below i e he := by simp [init, Held, Live, EntityManager.Recycled, EntityManager.empty] at he
  apart i j e he := by simp [init, Held, Live, EntityManager.Recycled, EntityManager.empty] at he
  drawn i e he := by cases he

theorem step_eq_some {op : Op Comp w} {r : Managers ι Comp w × (ι × Ret w)} :
    m.step (i, op) = some r ↔ ∃ q, EntityManager.step (m.view i) op = some q ∧
      r = (⟨q.1.ett, Function.update m.em i q.1.em⟩, (i, q.2)) := by
  rw [step, Option.map_eq_some_iff]
  exact exists_congr fun q => and_congr_right fun _ => eq_comm

/-- An admissible call on one manager keeps the ids of all of them apart. -/
theorem Apart.step {log : List (ι × Ret w)} (h : Apart m log) {c : ι × Op Comp w}
    (hc : m.Admissible c) {r : Managers ι Comp w × (ι × Ret w)} (hs : m.step c = some r) :
    Apart r.1 (log ++ [r.2]) := by
  obtain ⟨k, op⟩ := c
  obtain ⟨q, hq, rfl⟩ := step_eq_some.mp hs
  obtain ⟨hle, hret, hsub⟩ := (h.inv k).held_step hc.1 hc.2 hq
  have hinv := (h.inv k).next hc.1 (EntityManager.next_of_step hq)
  -- an id held now was held by the same manager, or has just been drawn by `k`
  have hold : ∀ i e, Held (Function.update m.em k q.1.em i) e →
      Held (m.em i) e ∨ i = k ∧ e = m.ett ∧ m.ett.toNat < q.1.ett.toNat := by
    intro i e he
    by_cases hi : i = k
    · subst hi
      rw [Function.update_self] at he
      exact (hsub e he).imp_right fun hn => ⟨rfl, hn⟩
    · rw [Function.update_of_ne hi] at he
      exact .inl he
  have hfresh : ∀ i, ¬ Held (m.em i) m.ett := fun i he => lt_irrefl _ (h.below i _ he)
  have hbelow : ∀ i e, Held (Function.update m.em k q.1.em i) e →
      e.toNat < q.1.ett.toNat := by
    intro i e he
    rcases hold i e he with he | ⟨-, rfl, hlt⟩
    · exact (h.below i e he).trans_le hle
    · exact hlt
  have hapart : ∀ i j e, Held (Function.update m.em k q.1.em i) e →
      Held (Function.update m.em k q.1.em j) e → i = j := by
    intro i j e hi hj
    rcases hold i e hi with hi | ⟨rfl, rfl, -⟩
    · rcases hold j e hj with hj | ⟨-, rfl, -⟩
      · exact h.apart i j e hi hj
      · exact absurd hi (hfresh i)
    · rcases hold j m.ett hj with hj | ⟨rfl, -, -⟩
      · exact absurd hj (hfresh j)
      · rfl
  refine ⟨fun i => ?_, hbelow, hapart, fun i e hmem => ?_⟩
  · show Inv (⟨q.1.ett, Function.update m.em k q.1.em i⟩ : State Comp w)
    by_cases hi : i = k
    · subst hi
      rw [Function.update_self]
      exact hinv
    · rw [Function.update_of_ne hi]
      exact ⟨(h.inv i).tidy, (h.inv i).nodup, (h.inv i).shape⟩
  · rw [List.mem_append, List.mem_singleton] at hmem
    rcases hmem with hmem | heq
    · -- handed out earlier
      obtain ⟨hlt, hown⟩ := h.drawn i e hmem
      refine ⟨hlt.trans_le hle, fun j hj => ?_⟩
      rcases hold j e hj with hj | ⟨-, rfl, -⟩
      · exact hown j hj
      · exact absurd hlt (lt_irrefl _)
    · -- handed out by this call
      obtain ⟨rfl, hq2⟩ : i = k ∧ Ret.created e = q.2 := Prod.mk.inj heq
      have hnew : Held (Function.update m.em i q.1.em i) e := by
        rw [Function.update_self]
        exact hret e hq2.symm
      exact ⟨hbelow i e hnew, fun j hj => hapart j i e hj hnew⟩

/-! ### Runs -/

/-- The managers, and what their calls have returned. -/
abbrev History (ι : Type) (Comp : κ → Type) (w : ℕ) := Managers ι Comp w × List (ι × Ret w)

/-- One more call. -/
def History.step : History ι Comp w → ι × Op Comp w → Option (History ι Comp w) :=
  Machine.logged Managers.step

theorem Apart.history_step {h h' : History ι Comp w} {c : ι × Op Comp w} (ha : Apart h.1 h.2)
    (hc : h.1.Admissible c) (hs : h.step c = some h') : Apart h'.1 h'.2 := by
  obtain ⟨r, hm, rfl⟩ := Machine.logged_eq_some.mp hs
  exact ha.step hc hm

/-- An admissible call is defined, unless the recycled set of its manager is
damaged or a component is missing. -/
theorem Apart.defined {h : History ι Comp w} {c : ι × Op Comp w} (ha : Apart h.1 h.2)
    (hc : h.1.Admissible c) (hd : (h.1.em c.1).deletedEt.WF)
    (hcov : (h.1.em c.1).pools.Covered) : ∃ h', h.step c = some h' := by
  obtain ⟨i, op⟩ := c
  obtain ⟨s', hs⟩ := (ha.inv i).next_defined hd
    (fun heq => by
      subst heq
      exact hc.2)
    (fun _ _ => hcov) hc.1
  obtain ⟨q, hq⟩ := EntityManager.exists_step_of_next hs
  exact ⟨_, Machine.logged_eq_some.mpr ⟨_, step_eq_some.mpr ⟨q, hq, rfl⟩, rfl⟩⟩

/-- **No id is live in two managers.** After any interleaving of admissible
calls on any number of managers: an id is live in at most one of them, and an
entity that a manager has ever returned is never reported by `Exists` of
another.  A call on the way is undefined only where it meets a damaged recycled
set, or a component missing after a throw. -/
theorem live_in_one_manager (calls : List (ι × Op Comp w))
    (hcalls : Machine.Along History.step (fun h c => h.1.Admissible c) (init, []) calls) :
    (∀ h : History ι Comp w, Machine.run History.step (init, []) calls = some h →
      (∀ i j e, (h.1.em i).exists_ e = some true → (h.1.em j).exists_ e = some true →
        i = j) ∧
      ∀ i e, (i, Ret.created e) ∈ h.2 → ∀ j, j ≠ i → (h.1.em j).exists_ e = some false) ∧
    Machine.Along History.step (fun h c => h.step c = none →
      ¬ (h.1.em c.1).deletedEt.WF ∨ ¬ (h.1.em c.1).pools.Covered) (init, []) calls := by
  have hstep : ∀ (h : History ι Comp w) (c : ι × Op Comp w) (h' : History ι Comp w),
      Apart h.1 h.2 → h.1.Admissible c → h.step c = some h' → Apart h'.1 h'.2 :=
    fun _ _ _ ha hc hs => ha.history_step hc hs
  constructor
  · intro h hr
    have ha : Apart h.1 h.2 :=
      Machine.run_invariant (I := fun h => Apart h.1 h.2) hstep apart_init hcalls hr
    constructor
    · intro i j e hi hj
      exact ha.apart i j e (.inl ((ha.inv i).tidy.exists_iff.mp hi))
        (.inl ((ha.inv j).tidy.exists_iff.mp hj))
    · intro i e hmem j hji
      refine (ha.inv j).tidy.exists_eq_false.mpr fun hl => hji ?_
      exact (ha.drawn i e hmem).2 j (.inl hl)
  · -- where neither reason applies, the call is defined
    refine (hcalls.invariant (I := fun h => Apart h.1 h.2) hstep apart_init).mono ?_
    rintro h c ⟨ha, hc⟩ hnone
    by_contra hno
    rw [not_or, not_not, not_not] at hno
    obtain ⟨h', hs⟩ := ha.defined hc hno.1 hno.2
    rw [hnone] at hs
    cases hs

/-- Two managers take turns; one of them recycles. -/
theorem live_in_one_manager_pair :
    let calls : List (Bool × Op (fun _ : Unit => ℕ) 8) :=
      [(true, .create), (false, .create), (true, .destroy [0]), (false, .create),
        (true, .create)]
    ∃ h : History Bool (fun _ : Unit => ℕ) 8,
      Machine.run History.step (init, []) calls = some h ∧
        ∀ i j e, (h.1.em i).exists_ e = some true → (h.1.em j).exists_ e = some true → i = j := by
  intro calls
  obtain ⟨h, hr⟩ : ∃ h, Machine.run History.step (init, []) calls = some h :=
    Option.isSome_iff_exists.mp (by decide)
  exact ⟨h, hr, ((live_in_one_manager calls (by decide)).1 h hr).1⟩

end Managers

end Indie
