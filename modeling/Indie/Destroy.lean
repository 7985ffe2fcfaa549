/-
Indie/Destroy.lean

Destroying entities, one by one and in bulk.

`Destroy(et)` takes `et` out of every pool and out of `_entities`, and leaves
it in `_deleted_et`; nothing else changes (`Tidy.destroyEt`).

`Destroy<Cs...>()` and `Reset()` erase from the very set they iterate.  By
`SparseSet.rangeFor_eq_foldlM` their loops make one round for each entity that
was live at the start.  A round for one entity does not change what another
one owns, so each loop is `Destroy` of a fixed list without repetitions:

    Destroy<Cs...>()  =  Destroy of the live owners of all of Cs   (`destroyWith_eq`)
    Reset()           =  Destroy of the live entities              (`reset_eq`)

Main result: bulk destruction is exact (`bulk_destroy_exact`).
-/
import Indie.EntityManager

namespace Indie

namespace EntityManager

variable {κ : Type} [DecidableEq κ] {Comp : κ → Type} {w : ℕ}
variable {em em' : EntityManager Comp w} {C : κ} {Cs : List κ} {et e : BitVec w}
  {es : List (BitVec w)}

/-- The entity is live. -/
def Live (em : EntityManager Comp w) (e : BitVec w) : Prop := e ∈ em.entities.range

/-- The id waits to be handed out again. -/
def Recycled (em : EntityManager Comp w) (e : BitVec w) : Prop := e ∈ em.deletedEt.range

/-- The entity owns a component of the type. -/
def Owns (em : EntityManager Comp w) (C : κ) (e : BitVec w) : Prop := em.pools.Owns C e

instance (em : EntityManager Comp w) (e : BitVec w) : Decidable (Live em e) :=
  inferInstanceAs (Decidable (e ∈ em.entities.range))

instance (em : EntityManager Comp w) (C : κ) (e : BitVec w) : Decidable (Owns em C e) :=
  inferInstanceAs (Decidable (em.pools.Owns C e))

/-- The live set and every pool are well-formed sparse sets, and an id that
owns a component is live. -/
structure Tidy (em : EntityManager Comp w) : Prop where
  entities : em.entities.WF
  pools : em.pools.Sound
  live : ∀ C e, Owns em C e → Live em e

theorem tidy_empty : Tidy (empty : EntityManager Comp w) where
  entities := SparseSet.wf_empty
  pools := Pools.every_nil
  live := by
    rintro C e ⟨p, hp, -⟩
    cases hp

theorem Tidy.exists_iff (h : Tidy em) : em.exists_ e = some true ↔ Live em e :=
  h.entities.has_eq_true

theorem Tidy.exists_eq_false (h : Tidy em) : em.exists_ e = some false ↔ ¬ Live em e :=
  h.entities.has_eq_false

theorem Tidy.has_eq (h : Tidy em) (Cs : List κ) (e : BitVec w) :
    em.has Cs e = some (decide (∀ C ∈ Cs, Owns em C e)) := Pools.has_eq h.pools Cs e

theorem Tidy.has_iff (h : Tidy em) : em.has Cs e = some true ↔ ∀ C ∈ Cs, Owns em C e :=
  Pools.has_eq_true h.pools

/-! ### One entity -/

theorem destroyEt_eq_some :
    em.destroyEt et = some em' ↔ em.pools.destroy et = some em'.pools ∧
      em.entities.erase et = some em'.entities ∧
      em.deletedEt.insert et = some em'.deletedEt := by
  simp only [destroyEt, Option.bind_eq_bind, Option.bind_eq_some_iff, Option.pure_def,
    Option.some.injEq]
  constructor
  · rintro ⟨ps, hp, en, he, de, hd, rfl⟩
    exact ⟨hp, he, hd⟩
  · rintro ⟨hp, he, hd⟩
    exact ⟨_, hp, _, he, _, hd, rfl⟩

theorem Tidy.live_destroyEt (h : Tidy em) (hs : em.destroyEt et = some em') :
    Live em' e ↔ Live em e ∧ e ≠ et :=
  h.entities.mem_erase (destroyEt_eq_some.mp hs).2.1

theorem Tidy.owns_destroyEt (h : Tidy em) (hs : em.destroyEt et = some em') :
    Owns em' C e ↔ Owns em C e ∧ e ≠ et :=
  Pools.owns_destroy h.pools (destroyEt_eq_some.mp hs).1

theorem Tidy.destroyEt (h : Tidy em) (hs : em.destroyEt et = some em') : Tidy em' where
  entities := h.entities.erase (destroyEt_eq_some.mp hs).2.1
  pools := Pools.Sound.destroy h.pools (destroyEt_eq_some.mp hs).1
  live C e he := by
    obtain ⟨ho, hne⟩ := (h.owns_destroyEt hs).mp he
    exact (h.live_destroyEt hs).mpr ⟨h.live C e ho, hne⟩

/-- Only the insertion into `_deleted_et` can fail. -/
theorem Tidy.destroyEt_defined (h : Tidy em) {d : SparseSet w}
    (hd : em.deletedEt.insert et = some d) : ∃ em', em.destroyEt et = some em' := by
  obtain ⟨ps, hps, -⟩ := Pools.destroy_eq h.pools et
  obtain ⟨en, hen⟩ := h.entities.erase_defined et
  exact ⟨⟨en, d, ps⟩, destroyEt_eq_some.mpr ⟨hps, hen, hd⟩⟩

/-! ### A list of entities -/

@[simp] theorem destroy_cons (em : EntityManager Comp w) (et : BitVec w)
    (es : List (BitVec w)) :
    em.destroy (et :: es) = (em.destroyEt et).bind (·.destroy es) := rfl

/-- No record comes or goes. -/
theorem Tidy.keys_destroyEt (h : Tidy em) (hs : em.destroyEt et = some em') :
    List.keys em'.pools = List.keys em.pools := by
  obtain ⟨ps, hps, hkeys, -⟩ := Pools.destroy_eq h.pools et
  obtain rfl := Option.some.inj (hps.symm.trans (destroyEt_eq_some.mp hs).1)
  exact hkeys

/-- What every single destruction keeps, a list of them keeps. -/
theorem destroy_invariant {I : EntityManager Comp w → Prop}
    (hI : ∀ a b et, et ∈ es → I a → a.destroyEt et = some b → I b) (h : I em)
    (hs : em.destroy es = some em') : I em' := by
  induction es generalizing em with
  | nil => exact Option.some.inj hs ▸ h
  | cons et es ih =>
    rw [destroy_cons, Option.bind_eq_some_iff] at hs
    obtain ⟨a, ha, hs⟩ := hs
    exact ih (fun a b e he => hI a b e (List.mem_cons_of_mem et he))
      (hI em a et List.mem_cons_self h ha) hs

theorem Tidy.destroy (h : Tidy em) (hs : em.destroy es = some em') : Tidy em' :=
  destroy_invariant (fun _ _ _ _ h hs => h.destroyEt hs) h hs

theorem Tidy.keys_destroy (h : Tidy em) (hs : em.destroy es = some em') :
    List.keys em'.pools = List.keys em.pools :=
  (destroy_invariant (I := fun a => Tidy a ∧ List.keys a.pools = List.keys em.pools)
    (fun _ _ _ _ ha hs => ⟨ha.1.destroyEt hs, (ha.1.keys_destroyEt hs).trans ha.2⟩)
    ⟨h, rfl⟩ hs).2

/-- What each destruction takes from the entity it destroys and from no other, a
list of them takes from the entities of the list. -/
theorem Tidy.destroy_takes {Q : EntityManager Comp w → Prop}
    (hQ : ∀ a b et, Tidy a → a.destroyEt et = some b → (Q b ↔ Q a ∧ e ≠ et))
    (h : Tidy em) (hs : em.destroy es = some em') : Q em' ↔ Q em ∧ e ∉ es := by
  induction es generalizing em with
  | nil =>
    obtain rfl := Option.some.inj hs
    simp
  | cons et es ih =>
    rw [destroy_cons, Option.bind_eq_some_iff] at hs
    obtain ⟨a, ha, hs⟩ := hs
    rw [ih (h.destroyEt ha) hs, hQ em a et h ha, List.mem_cons, not_or, and_assoc]

theorem Tidy.live_destroy (h : Tidy em) (hs : em.destroy es = some em') :
    Live em' e ↔ Live em e ∧ e ∉ es :=
  h.destroy_takes (Q := fun a => Live a e) (fun _ _ _ ha hab => ha.live_destroyEt hab) hs

theorem Tidy.owns_destroy (h : Tidy em) (hs : em.destroy es = some em') :
    Owns em' C e ↔ Owns em C e ∧ e ∉ es :=
  h.destroy_takes (Q := fun a => Owns a C e) (fun _ _ _ ha hab => ha.owns_destroyEt hab) hs

/-- The recycled set takes in the destroyed entities. -/
theorem destroy_deletedEt (hd : em.deletedEt.WF) (hs : em.destroy es = some em') :
    em'.deletedEt.WF ∧ ∀ e, Recycled em' e ↔ Recycled em e ∨ e ∈ es := by
  induction es generalizing em with
  | nil =>
    obtain rfl := Option.some.inj hs
    exact ⟨hd, fun e => by simp⟩
  | cons et es ih =>
    rw [destroy_cons, Option.bind_eq_some_iff] at hs
    obtain ⟨a, ha, hs⟩ := hs
    have hins := (destroyEt_eq_some.mp ha).2.2
    obtain ⟨hwf, hrec⟩ := ih (hd.insert_eq hins).1 hs
    refine ⟨hwf, fun e => (hrec e).trans ?_⟩
    rw [Recycled, hd.mem_insert hins, List.mem_cons, or_assoc, or_left_comm]
    rfl

/-- Live entities can be destroyed, as long as the recycled set is well
formed. -/
theorem Tidy.destroy_defined (h : Tidy em) (hd : em.deletedEt.WF)
    (hes : ∀ e ∈ es, e.toNat + 1 < 2 ^ w) : ∃ em', em.destroy es = some em' := by
  induction es generalizing em with
  | nil => exact ⟨em, rfl⟩
  | cons et es ih =>
    obtain ⟨d, hins⟩ := hd.insert_defined (hes et List.mem_cons_self)
    obtain ⟨a, ha⟩ := h.destroyEt_defined hins
    have ha' := (destroyEt_eq_some.mp ha).2.2
    obtain ⟨em', hs⟩ := ih (h.destroyEt ha) (hd.insert_eq ha').1
      fun e he => hes e (List.mem_cons_of_mem et he)
    exact ⟨em', by rw [destroy_cons, ha]; exact hs⟩

/-! ### The two loops -/

/-- Rounds that destroy the owners among `l` destroy a fixed list: one round
does not change what the entities of later rounds own. -/
theorem Tidy.rounds_eq (h : Tidy em) (Cs : List κ) {l : List (BitVec w)} (hl : l.Nodup)
    (f : BitVec w → Bool) (hf : ∀ e ∈ l, em.has Cs e = some (f e)) :
    l.foldlM (fun em et => do if ← em.has Cs et then em.destroyEt et else return em) em =
      em.destroy (l.filter f) := by
  induction l generalizing em with
  | nil => rfl
  | cons et l ih =>
    obtain ⟨het, hl⟩ := List.nodup_cons.mp hl
    have hf' : ∀ e ∈ l, em.has Cs e = some (f e) :=
      fun e he => hf e (List.mem_cons_of_mem et he)
    rw [List.foldlM_cons, hf et List.mem_cons_self]
    cases hb : f et with
    | false =>
      rw [List.filter_cons_of_neg (by simp [hb])]
      exact ih h hl hf'
    | true =>
      rw [List.filter_cons_of_pos hb, destroy_cons]
      show (em.destroyEt et).bind _ = _
      refine Option.bind_congr fun a ha => ih (h.destroyEt ha) hl fun e he => ?_
      -- a later entity is another one, and owns what it owned
      have hne : e ≠ et := fun heq => het (heq ▸ he)
      rw [← hf' e he, (h.destroyEt ha).has_eq, h.has_eq]
      simp only [h.owns_destroyEt ha, hne, ne_eq, not_false_eq_true, and_true]

/-- The live entities that own all of `Cs`, in the order of `_entities`. -/
def owners (em : EntityManager Comp w) (Cs : List κ) : List (BitVec w) :=
  em.entities.range.filter fun e => decide (∀ C ∈ Cs, Owns em C e)

theorem mem_owners : e ∈ em.owners Cs ↔ Live em e ∧ ∀ C ∈ Cs, Owns em C e := by
  rw [owners, List.mem_filter, decide_eq_true_iff]
  rfl

/-- The owners are the entities that `Exists` and `Has` say they are. -/
theorem Tidy.mem_owners_iff (h : Tidy em) :
    e ∈ em.owners Cs ↔ em.exists_ e = some true ∧ em.has Cs e = some true := by
  rw [mem_owners, h.exists_iff, h.has_iff]

theorem Tidy.nodup_owners (h : Tidy em) (Cs : List κ) : (em.owners Cs).Nodup :=
  h.entities.range_nodup.filter _

/-- The loop of `Destroy<Cs...>()` makes one round for each live entity. -/
theorem Tidy.destroyWith_rounds (h : Tidy em) (Cs : List κ) :
    em.destroyWith Cs = em.entities.range.foldlM (fun em et => do
      if ← em.has Cs et then em.destroyEt et else return em) em := by
  refine SparseSet.rangeFor_eq_foldlM (a := em) (fun et a b hb => ?_) h.entities
  rcases e : a.has Cs et with - | c
  · simp [e] at hb
  · cases c with
    | false =>
      refine .inl ?_
      obtain rfl : a = b := by simpa [e] using hb
      rfl
    | true =>
      refine .inr (destroyEt_eq_some.mp ?_).2.1
      simpa [e] using hb

/-- `Destroy<Cs...>()` is `Destroy` of the owners of `Cs`. -/
theorem Tidy.destroyWith_eq (h : Tidy em) (Cs : List κ) :
    em.destroyWith Cs = em.destroy (em.owners Cs) := by
  rw [h.destroyWith_rounds]
  exact h.rounds_eq Cs h.entities.range_nodup _ fun e _ => h.has_eq Cs e

/-- `Reset()` is `Destroy` of the live entities. -/
theorem Tidy.reset_eq (h : Tidy em) : em.reset = em.destroy em.entities.range := by
  refine SparseSet.rangeFor_eq_foldlM (a := em) (fun et a b hb => .inr ?_) h.entities
  exact (destroyEt_eq_some.mp hb).2.1

/-! ### Bulk destruction -/

/-- An id below the largest one can be put in any well-formed set. -/
theorem Tidy.lt_max (h : Tidy em) (he : Live em e) : e.toNat + 1 < 2 ^ w :=
  h.entities.lt_max he

theorem Tidy.has_singleton (h : Tidy em) (C : κ) (e : BitVec w) :
    em.has [C] e = some (decide (Owns em C e)) := by
  rw [h.has_eq]
  simp

/-- Where nobody is live, every pool is empty. -/
theorem Tidy.isEmpty_getPool (h : Tidy em) (hno : ∀ e, ¬ Live em e)
    {p : Pool (Comp C) w} (hp : em.pools.getPool C = some p) : p.isEmpty :=
  (h.pools C p hp).isEmpty_iff.mpr fun e he => hno e (h.live C e ⟨p, hp, he⟩)

theorem Tidy.destroyWith_exact (h : Tidy em) (hd : em.deletedEt.WF) (Cs : List κ) :
    ∃ em', em.destroyWith Cs = some em' ∧ em.destroy (em.owners Cs) = some em' ∧
      (∀ e, em'.exists_ e = some true ↔
        em.exists_ e = some true ∧ em.has Cs e = some false) ∧
      (∀ e C, em'.exists_ e = some true → em'.has [C] e = em.has [C] e) ∧
      ∀ e ∈ em.owners Cs, ∀ C, em'.has [C] e = some false := by
  obtain ⟨em', hs⟩ := h.destroy_defined hd fun e he => h.lt_max (mem_owners.mp he).1
  have h' := h.destroy hs
  refine ⟨em', (h.destroyWith_eq Cs).trans hs, hs, fun e => ?_, fun e C he => ?_,
    fun e he C => ?_⟩
  · rw [h'.exists_iff, h.exists_iff, h.live_destroy hs, mem_owners, h.has_eq]
    simp only [Option.some.injEq, decide_eq_false_iff_not]
    exact ⟨fun ⟨hl, hno⟩ => ⟨hl, fun ho => hno ⟨hl, ho⟩⟩,
      fun ⟨hl, hno⟩ => ⟨hl, fun ho => hno ho.2⟩⟩
  · have hno : e ∉ em.owners Cs := ((h.live_destroy hs).mp (h'.exists_iff.mp he)).2
    rw [h'.has_singleton, h.has_singleton]
    simp only [h.owns_destroy hs, hno, not_false_eq_true, and_true]
  · rw [h'.has_singleton]
    simp only [h.owns_destroy hs, he, not_true_eq_false, and_false, decide_false]

theorem Tidy.reset_exact (h : Tidy em) (hd : em.deletedEt.WF) :
    ∃ em', em.reset = some em' ∧ em.destroy em.entities.range = some em' ∧
      (∀ e, em'.exists_ e = some false) ∧ em'.isEmpty ∧
      (∀ C p, em'.pools.getPool C = some p → p.isEmpty) ∧
      (List.NodupKeys em.pools → ∀ d ∈ em'.pools, d.2.isEmpty) := by
  obtain ⟨em', hs⟩ := h.destroy_defined hd fun e he => h.lt_max he
  have h' := h.destroy hs
  have hno : ∀ e, ¬ Live em' e := fun e he => ((h.live_destroy hs).mp he).2
    ((h.live_destroy hs).mp he).1
  have hpools : ∀ C p, em'.pools.getPool C = some p → p.isEmpty :=
    fun C p hp => h'.isEmpty_getPool hno hp
  refine ⟨em', h.reset_eq.trans hs, hs, fun e => h'.exists_eq_false.mpr (hno e),
    h'.entities.isEmpty_iff.mpr hno, hpools, fun hnodup d hmem => ?_⟩
  have hnodup' : List.NodupKeys em'.pools := by
    rw [List.NodupKeys, h.keys_destroy hs]
    exact hnodup
  exact hpools d.1 d.2 (List.mem_dlookup hnodup' hmem)

/-- **Bulk destruction is exact.** `Destroy<Cs...>()` makes one round for each
live entity, and its effect is that of destroying, once each, the live entities
that own all of `Cs`.  The survivors are the other ones and own what they
owned; the destroyed ones own nothing.  `Reset()` destroys every live entity
once, and leaves no entity and no component. -/
theorem bulk_destroy_exact (h : Tidy em) (hd : em.deletedEt.WF) :
    (em.entities.range.Nodup ∧ ∀ e, e ∈ em.entities.range ↔ em.exists_ e = some true) ∧
    (∀ C Cs, ∃ em' es, em.destroyWith (C :: Cs) = some em' ∧
      (em.destroyWith (C :: Cs) = em.entities.range.foldlM (fun em et => do
        if ← em.has (C :: Cs) et then em.destroyEt et else return em) em) ∧
      em.destroy es = some em' ∧ es.Nodup ∧
      (∀ e, e ∈ es ↔ em.exists_ e = some true ∧ em.has (C :: Cs) e = some true) ∧
      (∀ e, em'.exists_ e = some true ↔
        em.exists_ e = some true ∧ em.has (C :: Cs) e = some false) ∧
      (∀ e D, em'.exists_ e = some true → em'.has [D] e = em.has [D] e) ∧
      ∀ e ∈ es, ∀ D, em'.has [D] e = some false) ∧
    ∃ em', em.reset = some em' ∧ em.destroy em.entities.range = some em' ∧
      (∀ e, em'.exists_ e = some false) ∧ em'.isEmpty ∧
      (∀ C p, em'.pools.getPool C = some p → p.isEmpty) ∧
      (List.NodupKeys em.pools → ∀ d ∈ em'.pools, d.2.isEmpty) := by
  refine ⟨⟨h.entities.range_nodup, fun e => h.exists_iff.symm⟩, fun C Cs => ?_,
    h.reset_exact hd⟩
  obtain ⟨em', hs, hes, hlive, hsame, hgone⟩ := h.destroyWith_exact hd (C :: Cs)
  exact ⟨em', em.owners (C :: Cs), hs, h.destroyWith_rounds _, hes, h.nodup_owners _,
    fun e => h.mem_owners_iff, hlive, hsame, hgone⟩

/-- Three entities, the first and the last with a component. -/
def trio : EntityManager (fun _ : Unit => ℕ) 8 where
  entities := ⟨[0, 1, 2], [0, 1, 2], 3, 3⟩
  deletedEt := .empty
  pools := [⟨(), ⟨⟨[2, 0, 0], [1, 0, 0], 2, 3⟩, ⟨[450, 1743], 2, Nat.le_refl 2⟩⟩⟩]

theorem tidy_trio : Tidy trio where
  entities := SparseSet.Reachable.wf ⟨[.insert 0, .insert 1, .insert 2], by decide⟩
  pools := by
    rintro ⟨⟩ p hp
    obtain rfl := Option.some.inj hp
    exact SparseSet.Reachable.wf ⟨[.insert 2, .insert 0], by decide⟩
  live := by
    rintro ⟨⟩ e ⟨p, hp, he⟩
    obtain rfl := Option.some.inj hp
    revert e
    decide

theorem bulk_destroy_exact_trio :
    ∃ em', trio.destroyWith [()] = some em' ∧ ∀ e, em'.exists_ e = some true ↔
      trio.exists_ e = some true ∧ trio.has [()] e = some false := by
  obtain ⟨-, hbulk, -⟩ := bulk_destroy_exact tidy_trio SparseSet.wf_empty
  obtain ⟨em', -, hs, -, -, -, -, hlive, -⟩ := hbulk () []
  exact ⟨em', hs, hlive⟩

end EntityManager

end Indie
