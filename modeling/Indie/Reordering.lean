/-
Indie/Reordering.lean

A reordering of a run that nobody can see.

Two managers that differ in the order of their pools only are `Rearranged`.
They answer alike and stay rearranged under any further calls (`Alike.call`).
Calls that have nothing to do with each other can be exchanged, and leave
rearranged managers (`Inv.swap`).  So component calls can be moved past calls
they are independent of, anywhere in a run and any number of times, and neither
results nor answers change (`reorder_unseen`).
-/
import Indie.Commute
import Indie.Library.Reorder

namespace Indie

namespace EntityManager

variable {κ : Type} [DecidableEq κ] {Comp : κ → Type} {w : ℕ}
variable {s s' t t' u : State Comp w} {em em' fm : EntityManager Comp w} {T : Set κ}
  {a b : Call Comp w} {x y : Answer Comp w} {et : BitVec w} {es : List (BitVec w)}

/-! ### Rearranged managers -/

/-- Two managers that agree but for the pools of types outside `T`. -/
structure SameOn (T : Set κ) (em fm : EntityManager Comp w) : Prop where
  entities : fm.entities = em.entities
  deletedEt : fm.deletedEt = em.deletedEt
  pools : Pools.AgreeOn T em.pools fm.pools

/-- Two managers that differ in the order of their pools at most. -/
abbrev Rearranged (em fm : EntityManager Comp w) : Prop := SameOn Set.univ em fm

theorem SameOn.valid (h : SameOn T em fm) (hem : Tidy em) (hfm : Tidy fm) {op : Pools.Op Comp w}
    (hop : ∀ C ∈ op.types, C ∈ T) (hv : (Op.onPools op).Valid em) : (Op.onPools op).Valid fm := by
  have hexists : ∀ {e : BitVec w}, em.exists_ e = some true → fm.exists_ e = some true := by
    intro e he
    rw [exists_, h.entities]
    exact he
  have hhas : ∀ {C e}, C ∈ op.types → em.has [C] e = some true → fm.has [C] e = some true := by
    intro C e hC he
    rw [hem.has_iff, List.forall_mem_singleton] at he
    rw [hfm.has_iff, List.forall_mem_singleton]
    exact (h.pools.owns (hop C hC)).mp he
  cases op with
  | assign C et c | assignOrReplace C et c => exact hexists hv
  | replace C et c => exact hhas List.mem_cons_self hv
  | delete Cs et => exact ⟨hv.1, fun C hC => hhas hC (hv.2 C hC)⟩
  | reset Cs => exact fun C hC => h.pools C (hop C hC) ▸ hv C hC
  | reserve C n => trivial

theorem SameOn.owners (h : Rearranged em fm) (Cs : List κ) : fm.owners Cs = em.owners Cs := by
  rw [EntityManager.owners, EntityManager.owners, h.entities]
  refine List.filter_congr fun e _ => decide_eq_decide.mpr ?_
  exact forall_congr' fun C => forall_congr' fun _ => (h.pools.owns trivial).symm

theorem SameOn.destroy (h : Rearranged em fm) (hem : Tidy em) (hfm : Tidy fm)
    (hs : em.destroy es = some em') : ∃ fm', fm.destroy es = some fm' ∧ Rearranged em' fm' := by
  refine (Machine.foldlM_sim destroyEt (R := fun a b => Tidy a ∧ Tidy b ∧ Rearranged a b)
    (fun a b et a' hab hs => ?_) ⟨hem, hfm, h⟩ hs).imp fun fm' hfm' => ⟨hfm'.1, hfm'.2.2.2⟩
  obtain ⟨ha, hb, h⟩ := hab
  obtain ⟨hp, hen, hde⟩ := destroyEt_eq_some.mp hs
  obtain ⟨qs, hq, hqs⟩ := h.pools.destroy ha.pools hb.pools hp
  have hs' : b.destroyEt et = some ⟨a'.entities, a'.deletedEt, qs⟩ := by
    rw [destroyEt_eq_some, h.entities, h.deletedEt]
    exact ⟨hq, hen, hde⟩
  exact ⟨_, hs', ha.destroyEt hs, hb.destroyEt hs', rfl, rfl, hqs⟩

theorem SameOn.ask (h : SameOn T em fm) (hem : Tidy em) (hfm : Tidy fm) {q : Query κ w}
    (hq : ∀ C ∈ q.types, C ∈ T) : fm.ask q = em.ask q := by
  rw [hem.ask_world, hfm.ask_world]
  refine World.ask_congr (congrArg SparseSet.range h.entities) q fun C hC => ?_
  exact (h.pools.slots (hq C hC)).symm

omit [DecidableEq κ] in
/-- `Create` does not look at the pools. -/
theorem create_with (qs : Pools Comp w) {ett ett' : BitVec w}
    (hs : em.create ett = some (em', ett', et)) :
    ({ em with pools := qs } : EntityManager Comp w).create ett =
      some ({ em' with pools := qs }, ett', et) := by
  obtain ⟨hen, -, hd⟩ := create_eq_some.mp hs
  exact create_eq_some.mpr ⟨hen, rfl, hd⟩

/-- A component call that is valid stays so while more entities come to life. -/
theorem Op.Valid.mono (h : Tidy em) (h' : Tidy em') (hp : em'.pools = em.pools)
    (hlive : ∀ e, Live em e → Live em' e) {op : Pools.Op Comp w}
    (hv : (Op.onPools op).Valid em) : (Op.onPools op).Valid em' := by
  have hexists : ∀ {e : BitVec w}, em.exists_ e = some true → em'.exists_ e = some true :=
    fun he => h'.exists_iff.mpr (hlive _ (h.exists_iff.mp he))
  cases op with
  | assign C et c | assignOrReplace C et c => exact hexists hv
  | replace C et c | delete Cs et | reset Cs =>
    simp only [Op.Valid, has, hp] at hv ⊢
    exact hv
  | reserve C n => trivial

/-! ### Calls -/

/-- The documented use of a call of either kind. -/
def Call.Valid (s : State Comp w) : Call Comp w → Prop
  | .op o => o.Valid s.em
  | .query _ => True

/-- The same counter, and rearranged managers. -/
def Alike (s t : State Comp w) : Prop := t.ett = s.ett ∧ Rearranged s.em t.em

theorem Inv.call (h : Inv s) {c : Call Comp w} (hv : c.Valid s)
    (hs : EntityManager.call s c = some (s', x)) : Inv s' := by
  cases c with
  | op o =>
    obtain ⟨r, hr, heq⟩ := Option.map_eq_some_iff.mp hs
    obtain ⟨rfl, rfl⟩ := Prod.mk.inj heq
    exact h.next hv (next_of_step hr)
  | query q =>
    obtain ⟨y, hy, heq⟩ := Option.map_eq_some_iff.mp hs
    exact (Prod.mk.inj heq).1 ▸ h

/-- Rearranged managers return the same, and stay rearranged. -/
theorem Alike.call (hst : Alike s t) (hs : Inv s) (ht : Inv t) {c : Call Comp w}
    (hv : c.Valid s) (hc : EntityManager.call s c = some (s', x)) :
    c.Valid t ∧ ∃ t', EntityManager.call t c = some (t', x) ∧ Alike s' t' := by
  obtain ⟨hett, h⟩ := hst
  have hlive : ∀ e, Live s.em e → Live t.em e := by
    intro e he
    rw [Live, h.entities]
    exact he
  cases c with
  | query q =>
    obtain ⟨y, hy, heq⟩ := Option.map_eq_some_iff.mp hc
    obtain ⟨rfl, rfl⟩ := Prod.mk.inj heq
    refine ⟨trivial, t, ?_, hett, h⟩
    rw [EntityManager.call, h.ask hs.tidy ht.tidy fun C _ => trivial, hy]
    rfl
  | op o =>
    obtain ⟨r, hr, heq⟩ := Option.map_eq_some_iff.mp hc
    obtain ⟨rfl, rfl⟩ := Prod.mk.inj heq
    -- it is enough to make the call on the other manager
    suffices hstep : o.Valid t.em ∧ ∃ t', step t o = some (t', r.2) ∧ Alike r.1 t' by
      obtain ⟨hv', t', ht', h'⟩ := hstep
      exact ⟨hv', t', by rw [EntityManager.call, ht']; rfl, h'⟩
    have hbulk : ∀ {es em'}, s.em.destroy es = some em' →
        ∃ fm', t.em.destroy es = some fm' ∧ Alike ⟨s.ett, em'⟩ ⟨t.ett, fm'⟩ := by
      intro es em' hd
      obtain ⟨fm', hd', h'⟩ := h.destroy hs.tidy ht.tidy hd
      exact ⟨fm', hd', hett, h'⟩
    cases o with
    | create =>
      obtain ⟨⟨em', ett', et⟩, hcr, hr⟩ := Option.bind_eq_some_iff.mp hr
      obtain rfl := Option.some.inj hr
      have hcr' : t.em.create t.ett = some ({ em' with pools := t.em.pools }, ett', et) := by
        rw [← create_with t.em.pools hcr, ← h.entities, ← h.deletedEt, hett]
      have hpools : em'.pools = s.em.pools := (create_eq_some.mp hcr).2.1
      refine ⟨trivial, ⟨ett', { em' with pools := t.em.pools }⟩, ?_, rfl, rfl, rfl, ?_⟩
      · rw [step, hcr']
        rfl
      · show Pools.AgreeOn _ em'.pools t.em.pools
        rw [hpools]
        exact h.pools
    | destroy ets =>
      obtain ⟨em', hd, hr⟩ := Option.bind_eq_some_iff.mp hr
      obtain rfl := Option.some.inj hr
      obtain ⟨fm', hd', h'⟩ := hbulk hd
      refine ⟨⟨hv.1, fun e he => ?_⟩, _, by rw [step, hd']; rfl, h'⟩
      exact ht.tidy.exists_iff.mpr (hlive e (hs.tidy.exists_iff.mp (hv.2 e he)))
    | destroyWith Cs =>
      obtain ⟨em', hd, hr⟩ := Option.bind_eq_some_iff.mp hr
      obtain rfl := Option.some.inj hr
      rw [hs.tidy.destroyWith_eq] at hd
      obtain ⟨fm', hd', h'⟩ := hbulk hd
      refine ⟨trivial, ⟨t.ett, fm'⟩, ?_, h'⟩
      rw [step, ht.tidy.destroyWith_eq, h.owners, hd']
      rfl
    | reset =>
      obtain ⟨em', hd, hr⟩ := Option.bind_eq_some_iff.mp hr
      obtain rfl := Option.some.inj hr
      rw [hs.tidy.reset_eq] at hd
      obtain ⟨fm', hd', h'⟩ := hbulk hd
      refine ⟨trivial, ⟨t.ett, fm'⟩, ?_, h'⟩
      rw [step, ht.tidy.reset_eq, h.entities, hd']
      rfl
    | reserve n =>
      obtain rfl := Option.some.inj hr
      refine ⟨trivial, _, rfl, hett, ?_, h.deletedEt, h.pools⟩
      show t.em.entities.reserve n = s.em.entities.reserve n
      rw [h.entities]
    | onPools op =>
      obtain ⟨p, hp, hr⟩ := Option.bind_eq_some_iff.mp hr
      obtain rfl := Option.some.inj hr
      obtain ⟨q, hq, hend, hpq⟩ := h.pools.step (fun C _ => trivial) hp
      refine ⟨h.valid hs.tidy ht.tidy (fun C _ => trivial) hv,
        ⟨t.ett, { t.em with pools := q.1 }⟩, ?_, hett, h.entities, h.deletedEt, hpq⟩
      rw [step, hq]
      show some (_, Ret.ended q.2) = some (_, Ret.ended p.2)
      rw [hend]

/-- A component call has nothing to do with a component call or a question about
other types, with `Create` after it, and with `Reserve(count)`. -/
def Independent : Call Comp w → Call Comp w → Prop
  | .op (.onPools a), .op (.onPools b) => ∀ C ∈ a.types, C ∉ b.types
  | .op (.onPools a), .query q => ∀ C ∈ a.types, C ∉ q.types
  | .query q, .op (.onPools a) => ∀ C ∈ a.types, C ∉ q.types
  | .op (.onPools _), .op .create => True
  | .op (.onPools _), .op (.reserve _) => True
  | .op (.reserve _), .op (.onPools _) => True
  | _, _ => False

theorem call_onPools {op : Pools.Op Comp w} :
    call s (.op (.onPools op)) = some (s', x) ↔
      ∃ r, s.em.pools.step op = some r ∧ s' = ⟨s.ett, { s.em with pools := r.1 }⟩ ∧
        x = .ret (.ended r.2) := by
  simp only [call, step, Option.bind_eq_bind, Option.map_eq_some_iff, Option.bind_eq_some_iff,
    Option.pure_def, Option.some.injEq]
  constructor
  · rintro ⟨_, ⟨r, hr, rfl⟩, heq⟩
    exact ⟨r, hr, (Prod.mk.inj heq).1.symm, (Prod.mk.inj heq).2.symm⟩
  · rintro ⟨r, hr, rfl, rfl⟩
    exact ⟨_, ⟨r, hr, rfl⟩, rfl⟩

theorem call_query {q : Query κ w} :
    call s (.query q) = some (s', x) ↔ s' = s ∧ s.em.ask q = some x := by
  simp only [call, Option.map_eq_some_iff, Prod.mk.injEq]
  constructor
  · rintro ⟨y, hy, rfl, rfl⟩
    exact ⟨rfl, hy⟩
  · rintro ⟨rfl, hx⟩
    exact ⟨x, hx, rfl, rfl⟩

/-- A component call leaves a manager that is the same on other types. -/
theorem sameOn_onPools {op : Pools.Op Comp w} {r : Pools Comp w × Ending}
    (hop : ∀ C ∈ op.types, C ∉ T) (hs : em.pools.step op = some r) :
    SameOn T em { em with pools := r.1 } := ⟨rfl, rfl, Pools.agreeOn_frame hop hs⟩

theorem SameOn.symm (h : SameOn T em fm) : SameOn T fm em :=
  ⟨h.entities.symm, h.deletedEt.symm, h.pools.symm⟩

/-- Independent neighbours can change places. -/
theorem Inv.swap (h : Inv s) (hab : Independent a b) (hva : a.Valid s)
    (ha : EntityManager.call s a = some (t, x)) (hvb : b.Valid t)
    (hb : EntityManager.call t b = some (u, y)) :
    ∃ t' u', b.Valid s ∧ EntityManager.call s b = some (t', y) ∧ a.Valid t' ∧
      EntityManager.call t' a = some (u', x) ∧ Alike u u' := by
  have ht : Inv t := h.call hva ha
  have hrefl : ∀ u : State Comp w, Alike u u := fun u => ⟨rfl, rfl, rfl, .refl _ _⟩
  match a, b with
  | .op (.onPools a), .op (.onPools b) =>
    obtain ⟨r₁, hr₁, rfl, rfl⟩ := call_onPools.mp ha
    obtain ⟨r₂, hr₂, rfl, rfl⟩ := call_onPools.mp hb
    obtain ⟨q₁, q₂, hq₁, hq₂, hend₁, hend₂, hsame⟩ := Pools.exchange hab hr₁ hr₂
    have hba : ∀ C ∈ b.types, C ∉ {C | C ∈ a.types} := fun C hC hCa => hab C hCa hC
    -- the second call is valid before the first, and the first after it
    have hvb' : (Op.onPools b).Valid s.em :=
      (sameOn_onPools (T := {C | C ∈ b.types}) hab hr₁).symm.valid ht.tidy h.tidy
        (fun C hC => hC) hvb
    have hq := h.onPools hvb' hq₁
    refine ⟨_, _, hvb', call_onPools.mpr ⟨q₁, hq₁, rfl, by rw [hend₁]⟩, ?_,
      call_onPools.mpr ⟨q₂, hq₂, rfl, by rw [hend₂]⟩, rfl, rfl, rfl, hsame⟩
    exact (sameOn_onPools hba hq₁).valid h.tidy hq.tidy (fun C hC => hC) hva
  | .op (.onPools a), .query q =>
    obtain ⟨r₁, hr₁, rfl, rfl⟩ := call_onPools.mp ha
    obtain ⟨rfl, hy⟩ := call_query.mp hb
    refine ⟨s, _, trivial, call_query.mpr ⟨rfl, ?_⟩, hva, ha, hrefl _⟩
    rw [← hy]
    exact ((sameOn_onPools (T := {C | C ∈ q.types}) hab hr₁).ask h.tidy ht.tidy
      fun C hC => hC).symm
  | .query q, .op (.onPools a) =>
    obtain ⟨rfl, hx⟩ := call_query.mp ha
    obtain ⟨r₁, hr₁, rfl, rfl⟩ := call_onPools.mp hb
    refine ⟨_, _, hvb, hb, trivial, call_query.mpr ⟨rfl, ?_⟩, hrefl _⟩
    rw [← hx]
    exact (sameOn_onPools (T := {C | C ∈ q.types}) hab hr₁).ask h.tidy (h.onPools hvb hr₁).tidy
      fun C hC => hC
  | .op (.onPools a), .op .create =>
    obtain ⟨r₁, hr₁, rfl, rfl⟩ := call_onPools.mp ha
    obtain ⟨_, hr, heq⟩ := Option.map_eq_some_iff.mp hb
    obtain ⟨⟨em', ett', et⟩, hcr, hr⟩ := Option.bind_eq_some_iff.mp hr
    obtain rfl := Option.some.inj hr
    obtain ⟨rfl, rfl⟩ := Prod.mk.inj heq
    have hpools : em'.pools = r₁.1 := (create_eq_some.mp hcr).2.1
    have hcr' := create_with s.em.pools hcr
    have hlive := (h.tidy.create hcr').2
    have htidy := (h.tidy.create hcr').1
    have hback : (⟨ett', { em' with pools := r₁.1 }⟩ : State Comp w) = ⟨ett', em'⟩ := by
      rw [← hpools]
    refine ⟨⟨ett', { em' with pools := s.em.pools }⟩, ⟨ett', em'⟩, trivial, ?_,
      hva.mono h.tidy htidy rfl (fun e he => (hlive e).mpr (.inr he)), ?_, hrefl _⟩
    · rw [EntityManager.call, step]
      exact congrArg (Option.map _) (congrArg (Option.bind · _) hcr')
    · exact call_onPools.mpr ⟨r₁, hr₁, hback.symm, rfl⟩
  | .op (.onPools a), .op (.reserve n) =>
    obtain ⟨r₁, hr₁, rfl, rfl⟩ := call_onPools.mp ha
    obtain ⟨rfl, rfl⟩ := Prod.mk.inj (Option.some.inj hb)
    have hres : Inv (⟨s.ett, s.em.reserve n⟩ : State Comp w) :=
      h.next (show (Op.reserve n).Valid s.em from trivial) rfl
    have hv : (Op.onPools a).Valid (s.em.reserve n) := by
      refine hva.mono h.tidy hres.tidy rfl fun e he => ?_
      rw [Live, reserve, h.tidy.entities.range_reserve]
      exact he
    exact ⟨_, _, trivial, rfl, hv, call_onPools.mpr ⟨r₁, hr₁, rfl, rfl⟩, hrefl _⟩
  | .op (.reserve n), .op (.onPools a) =>
    obtain ⟨rfl, rfl⟩ := Prod.mk.inj (Option.some.inj ha)
    obtain ⟨r₁, hr₁, rfl, rfl⟩ := call_onPools.mp hb
    have hv : (Op.onPools a).Valid s.em := by
      refine hvb.mono ht.tidy h.tidy rfl fun e he => ?_
      rw [Live, reserve, h.tidy.entities.range_reserve] at he
      exact he
    exact ⟨_, _, hv, call_onPools.mpr ⟨r₁, hr₁, rfl, rfl⟩, trivial, rfl, hrefl _⟩

/-- **A reordering is never seen.**  Take a run of valid calls, the questions
among them, and move component calls past neighbours they are independent of,
any number of times.  What comes out is a run of valid calls again; every call
in it returns what it returned before, and so does every question after it. -/
theorem reorder_unseen {ett : BitVec w} {l l' : List (Call Comp w × Answer Comp w)}
    (hl : Machine.Runs call (fun s c => c.Valid s) (State.init ett) l s)
    (hre : Machine.Reorder (fun a b => Independent a.1 b.1) l l') :
    ∃ t, Machine.Runs call (fun s c => c.Valid s) (State.init ett) l' t ∧
      ∀ q, t.em.ask q = s.em.ask q := by
  have hJ : ∀ (s t : State Comp w) c x, Inv s → Call.Valid s c → call s c = some (t, x) → Inv t :=
    fun _ _ _ _ h hv hs => h.call hv hs
  have htrans : ∀ s t u : State Comp w, Alike s t → Alike t u → Alike s u :=
    fun _ _ _ hst htu => ⟨htu.1.trans hst.1, htu.2.entities.trans hst.2.entities,
      htu.2.deletedEt.trans hst.2.deletedEt, hst.2.pools.trans htu.2.pools⟩
  obtain ⟨t, hl', hst⟩ := hl.reorder hJ (fun _ _ _ _ _ hs ht hst hv hc => hst.call hs ht hv hc)
    (fun u => ⟨rfl, rfl, rfl, .refl _ _⟩) htrans
    (fun _ _ _ _ _ _ _ hab h hva ha hvb hb => h.swap hab hva ha hvb hb) hre (inv_init ett)
  have hs := hl.invariant hJ (inv_init ett)
  have ht := hl'.invariant hJ (inv_init ett)
  exact ⟨t, hl', fun q => hst.2.ask hs.tidy ht.tidy fun C _ => trivial⟩

/-- The last call comes first, and its type is registered first. -/
theorem reorder_unseen_pair :
    let a : Call (fun _ : Bool => ℕ) 8 := .op (.onPools (.assign true 0 (some 4)))
    let b : Call (fun _ : Bool => ℕ) 8 := .op (.onPools (.assign false 0 (some 5)))
    let q : Call (fun _ : Bool => ℕ) 8 := .query (.has [true] 0)
    ∃ s t, Machine.Runs call (fun s c => c.Valid s) (State.init 0)
        [(.op .create, .ret (.created 0)), (a, .ret (.ended .returned)),
          (q, .bool true), (b, .ret (.ended .returned))] s ∧
      Machine.Runs call (fun s c => c.Valid s) (State.init 0)
        [(.op .create, .ret (.created 0)), (b, .ret (.ended .returned)),
          (a, .ret (.ended .returned)), (q, .bool true)] t ∧
      t.em.ask (.get [true, false] 0) = s.em.ask (.get [true, false] 0) := by
  intro a b q
  have hrun : Machine.Runs call (fun s c => c.Valid s) (State.init 0)
      [(.op .create, .ret (.created 0)), (a, .ret (.ended .returned)),
        (q, .bool true), (b, .ret (.ended .returned))] _ :=
    .cons trivial rfl (.cons rfl rfl (.cons trivial rfl (.cons rfl rfl (.nil _))))
  have hqb : Independent q b := by
    intro C hC
    obtain rfl := List.mem_singleton.mp hC
    decide
  have hab : Independent a b := by
    intro C hC
    obtain rfl := List.mem_singleton.mp hC
    decide
  obtain ⟨t, ht, hask⟩ := reorder_unseen hrun
    (.trans (.swap [_, _] [] hqb) (.swap [_] [_] hab))
  exact ⟨_, t, hrun, ht, hask _⟩

end EntityManager

end Indie
