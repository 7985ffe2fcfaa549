/-
Indie/Callback.lean

`ForEach` with a function that takes the visited entity apart.

`ForEach(func)` and `ForEach<Cs...>(func)` hand entities to a function of the
caller while they iterate `_entities`.  A `Callback` is such a function, which
at each call leaves the manager alone, deletes components of the entity it was
given, or destroys that entity, and which chooses by everything it has been
given so far: its calls with the manager as each found it.

Whatever it chooses, a call touches one entity only (`Spares`).  So each round
of the loop leaves `_entities` alone or erases the element it read, and the
loop is a fold over a snapshot (`SparseSet.rangeFor_eq_foldlM`); and the
entities still to come are live, own what they owned at the start, and find their
components where there were any: an index can only get smaller (`Pending`).

A constructor that threw has left an owner without a component.  `ForEach<Cs...>`
then makes a reference to a cell outside the vector, before the function is called.

Main result: `ForEach` visits every entity once, and `ForEach<Cs...>` does so
whatever the function does exactly if every owner has its components
(`forEach_visits_once_iff`).
-/
import Indie.Counting

namespace Indie

/-! ### What a call takes from the pools -/

namespace Pool

variable {α : Type} {w : ℕ} {p p' : Pool α w} {et e : BitVec w}

/-- A deletion moves nobody to a greater index, and leaves the components where they
are. -/
theorem index_delete (h : p.base.WF) (hs : p.delete et = some p') (hne : e ≠ et) {j : ℕ}
    (hj : p.base.range[j]? = some e) (hlt : j < p.components.data.length) :
    ∃ k : ℕ, p'.base.range[k]? = some e ∧ k < p'.components.data.length := by
  obtain ⟨b, hb, rfl⟩ := delete_eq_some.mp hs
  by_cases het : et ∈ p.base.range
  · obtain ⟨i, hi⟩ := List.getElem?_of_mem het
    obtain ⟨t, ht, -, hrange, -⟩ := h.erase_of_mem hi
    obtain rfl := Option.some.inj (ht.symm.trans hb)
    have he : e ∈ t.range := (h.mem_erase hb).mpr ⟨List.mem_of_getElem? hj, hne⟩
    obtain ⟨k, hk⟩ := List.getElem?_of_mem he
    refine ⟨k, hk, ?_⟩
    rw [hrange] at hk
    obtain ⟨m, hkm, hm⟩ := SwapList.pos_swapRemove_le (List.getElem?_eq_some_iff.mp hi).1 hk
    exact (hkm.trans (h.slot_inj hm hj).le).trans_lt hlt
  · rw [h.erase_of_notMem het, Option.some.injEq] at hb
    subst hb
    exact ⟨j, hj, hlt⟩

end Pool

namespace Pools

variable {κ : Type} [DecidableEq κ] {Comp : κ → Type} {w : ℕ}
variable {ps qs rs : Pools Comp w} {C : κ} {Cs Ds : List κ} {et e : BitVec w}

theorem Sound.stored_of_index (h : Sound ps) {p : Pool (Comp C) w} (hp : getPool ps C = some p)
    {j : ℕ} (hj : p.base.range[j]? = some e) : Stored ps C e ↔ j < p.components.data.length := by
  have hidx := (h C p hp).indexOf_eq hj
  constructor
  · rintro ⟨q, i, hq, hi, hlt⟩
    obtain rfl := Option.some.inj (hp.symm.trans hq)
    obtain rfl := Option.some.inj (hidx.symm.trans hi)
    rwa [(h C p hp).toNat_ofNat hj] at hlt
  · intro hlt
    exact ⟨p, _, hp, hidx, by rwa [(h C p hp).toNat_ofNat hj]⟩

/-- Where the pool loses one entity, the others keep their components. -/
theorem Sound.stored_delete (h : Sound ps) (h' : Sound qs) {p p' : Pool (Comp C) w}
    (hp : getPool ps C = some p) (hp' : getPool qs C = some p') (hdel : p.delete et = some p')
    (hne : e ≠ et) (ho : Owns ps C e) (hst : Stored ps C e) : Stored qs C e := by
  obtain ⟨j, hj⟩ := List.getElem?_of_mem ((owns_iff hp).mp ho)
  obtain ⟨k, hk, hlt⟩ := Pool.index_delete (h C p hp) hdel hne hj ((h.stored_of_index hp hj).mp hst)
  exact (h'.stored_of_index hp' hk).mpr hlt

/-- `qs` comes from `ps` by taking components from `et` and from nobody else. -/
structure Spares (et : BitVec w) (ps qs : Pools Comp w) : Prop where
  sound : Sound qs
  keys : List.keys qs = List.keys ps
  owns_of : ∀ {C e}, Owns qs C e → Owns ps C e
  others : ∀ {C e}, e ≠ et → Owns ps C e → Owns qs C e
  stored : ∀ {C e}, e ≠ et → Owns ps C e → Stored ps C e → Stored qs C e

theorem Sound.spares (h : Sound ps) (et : BitVec w) : Spares et ps ps where
  sound := h
  keys := rfl
  owns_of := id
  others := fun _ => id
  stored := fun _ _ => id

theorem Spares.trans (h : Spares et ps qs) (h' : Spares et qs rs) : Spares et ps rs where
  sound := h'.sound
  keys := h'.keys.trans h.keys
  owns_of ho := h.owns_of (h'.owns_of ho)
  others hne ho := h'.others hne (h.others hne ho)
  stored hne ho hst := h'.stored hne (h.others hne ho) (h.stored hne ho hst)

/-- One deletion. -/
theorem Sound.spares_delete (h : Sound ps) (hC : C ∈ List.keys ps) (et : BitVec w) :
    ∃ qs, modify ps C (·.delete et) = some qs ∧ Spares et ps qs := by
  obtain ⟨p, hp⟩ := mem_keys_iff.mp hC
  have hwf := h C p hp
  obtain ⟨b, hb⟩ := hwf.erase_defined et
  have hdel : p.delete et = some { p with base := b } := Pool.delete_eq_some.mpr ⟨b, hb, rfl⟩
  have hm : modify ps C (·.delete et) = some (setPool ps C { p with base := b }) :=
    modify_eq_some.mpr ⟨p, _, hp, hdel, rfl⟩
  have hsound : Sound (setPool ps C { p with base := b }) :=
    h.modify (fun q q' hq hq' => @Pool.wf_step _ _ q q' hq (.delete et) hq') hm
  -- the pool of `C` has lost `et`, the others are as they were
  have howns : ∀ D e, Owns (setPool ps C { p with base := b }) D e ↔
      Owns ps D e ∧ (D = C → e ≠ et) := by
    intro D e
    by_cases hD : D = C
    · subst hD
      rw [owns_iff (getPool_setPool_self hp _), owns_iff hp, hwf.mem_erase hb]
      simp
    · rw [Owns, getPool_setPool_ne hD]
      exact ⟨fun ho => ⟨ho, fun e => absurd e hD⟩, And.left⟩
  refine ⟨_, hm, hsound, keys_modify hm, fun ho => ((howns _ _).mp ho).1,
    fun hne ho => (howns _ _).mpr ⟨ho, fun _ => hne⟩, fun {D e} hne ho hst => ?_⟩
  by_cases hD : D = C
  · subst hD
    exact h.stored_delete hsound hp (getPool_setPool_self hp _) hdel hne ho hst
  · rw [Stored, getPool_setPool_ne hD]
    exact hst

theorem Sound.spares_deleteAll (h : Sound ps) (hCs : ∀ C ∈ Cs, C ∈ List.keys ps)
    (et : BitVec w) : ∃ qs, delete ps Cs et = some qs ∧ Spares et ps qs := by
  induction Cs generalizing ps with
  | nil => exact ⟨ps, rfl, h.spares et⟩
  | cons C Cs ih =>
    obtain ⟨hC, hCs⟩ := List.forall_mem_cons.mp hCs
    obtain ⟨qs, hq, hpq⟩ := h.spares_delete hC et
    obtain ⟨rs, hr, hqr⟩ := ih hpq.sound fun D hD => hpq.keys ▸ hCs D hD
    refine ⟨rs, ?_, hpq.trans hqr⟩
    rw [delete, List.foldlM_cons, hq]
    exact hr

theorem Sound.spares_destroy (h : Sound ps) (hs : Pools.destroy ps et = some qs) :
    Spares et ps qs where
  sound := h.destroy hs
  keys := by
    obtain ⟨rs, hr, hkeys, -⟩ := destroy_eq h et
    obtain rfl := Option.some.inj (hr.symm.trans hs)
    exact hkeys
  owns_of ho := ((owns_destroy h hs).mp ho).1
  others hne ho := (owns_destroy h hs).mpr ⟨ho, hne⟩
  stored {C e} hne ho hst := by
    obtain ⟨rs, hr, -, hget⟩ := destroy_eq h et
    obtain rfl := Option.some.inj (hr.symm.trans hs)
    obtain ⟨p, hp, he⟩ := ho
    obtain ⟨p', hdel, hp'⟩ := hget C p hp
    exact h.stored_delete (h.destroy hs) hp hp' hdel hne ⟨p, hp, he⟩ hst

/-- A deletion leaves the pools of other types alone. -/
theorem getPool_delete (hs : delete ps Ds et = some qs) (hC : C ∉ Ds) :
    getPool qs C = getPool ps C := by
  induction Ds generalizing ps with
  | nil => exact Option.some.inj hs ▸ rfl
  | cons D Ds ih =>
    rw [List.mem_cons, not_or] at hC
    rw [delete, List.foldlM_cons, Option.bind_eq_bind, Option.bind_eq_some_iff] at hs
    obtain ⟨rs, hr, hs⟩ := hs
    obtain ⟨p, p', -, -, rfl⟩ := modify_eq_some.mp hr
    rw [ih hs hC.2, getPool_setPool_ne hC.1]

/-- A filter asks the pools of its types only. -/
theorem filterHas_congr (h : ∀ C ∈ Cs, getPool ps C = getPool qs C) (et : BitVec w) :
    filterHas ps Cs et = filterHas qs Cs et := by
  induction Cs with
  | nil => rfl
  | cons C Cs ih =>
    obtain ⟨hC, hCs⟩ := List.forall_mem_cons.mp h
    rw [filterHas, filterHas, closureHas, closureHas, hC, ih hCs]

end Pools

namespace EntityManager

variable {κ : Type} [DecidableEq κ] {Comp : κ → Type} {w : ℕ}

/-! ### The function given to `ForEach` -/

/-- A call of the function: the manager as it finds it, the entity, and the
components the references it is passed refer to. -/
structure Visit (Comp : κ → Type) (w : ℕ) where
  em : EntityManager Comp w
  et : BitVec w
  comps : List (Σ C, Comp C)

/-- What the function does to the manager in one call. -/
inductive Act (κ : Type)
  | nothing
  | delete (Cs : List κ)
  | destroy

/-- A function for `ForEach`: it chooses by the calls made so far and the one at
hand, and deletes only what the visited entity owns. -/
structure Callback (Comp : κ → Type) (w : ℕ) where
  act : List (Visit Comp w) → Visit Comp w → Act κ
  own : ∀ {seen v Cs}, act seen v = .delete Cs → ∀ C ∈ Cs, v.em.has [C] v.et = some true

/-- The call takes nothing of the types `Cs` away. -/
def Act.Leaves (Cs : List κ) : Act κ → Prop
  | .nothing => True
  | .delete Ds => ∀ C ∈ Cs, C ∉ Ds
  | .destroy => False

/-- Do it. -/
def perform (em : EntityManager Comp w) (et : BitVec w) :
    Act κ → Option (EntityManager Comp w)
  | .nothing => some em
  | .delete Cs => do return { em with pools := ← em.pools.delete Cs et }
  | .destroy => em.destroyEt et

/-- `func(et, comps...)`, the calls made so far kept with the manager. -/
def invoke (func : Callback Comp w) (et : BitVec w) (comps : List (Σ C, Comp C))
    (s : EntityManager Comp w × List (Visit Comp w)) :
    Option (EntityManager Comp w × List (Visit Comp w)) := do
  let v : Visit Comp w := ⟨s.1, et, comps⟩
  let em ← s.1.perform et (func.act s.2 v)
  return (em, s.2 ++ [v])

/-- `ForEach(func)`: the manager afterwards, and the calls made. -/
def forEachDo (em : EntityManager Comp w) (func : Callback Comp w) :
    Option (EntityManager Comp w × List (Visit Comp w)) :=
  SparseSet.rangeFor (fun s => s.1.entities) (fun et s => invoke func et [] s) (em, [])

/-- A round of `ForEach<Cs...>(func)`.  The filter holds the addresses of the pools,
which no call of the function moves. -/
def roundDo (Cs : List κ) (func : Callback Comp w) : BitVec w →
    EntityManager Comp w × List (Visit Comp w) →
    Option (EntityManager Comp w × List (Visit Comp w)) :=
  forEachRound (fun s => s.1.pools.filterHas Cs) (fun s => s.1.pools.filterGet Cs) (invoke func)

/-- `ForEach<Cs...>(func)`: the manager afterwards, and the calls made. -/
def forEachOfDo (em : EntityManager Comp w) (Cs : List κ) (func : Callback Comp w) :
    Option (EntityManager Comp w × List (Visit Comp w)) :=
  SparseSet.rangeFor (fun s => s.1.entities) (roundDo Cs func) (em, [])

/-! ### One call -/

variable {em em' em₀ : EntityManager Comp w} {et e : BitVec w} {Cs : List κ}
  {func : Callback Comp w} {act : Act κ} {comps : List (Σ C, Comp C)}
  {x y : EntityManager Comp w × List (Visit Comp w)}

/-- `em'` comes from `em` by a call that touches nobody but `et`. -/
structure Spares (et : BitVec w) (em em' : EntityManager Comp w) : Prop where
  tidy : Tidy em'
  deletedEt : em'.deletedEt.WF
  live : ∀ {e}, e ≠ et → Live em e → Live em' e
  pools : Pools.Spares et em.pools em'.pools

/-- The call leaves `_entities` alone, or erases the entity it was given. -/
theorem entities_perform (hs : em.perform et act = some em') :
    em'.entities = em.entities ∨ em.entities.erase et = some em'.entities := by
  cases act with
  | nothing =>
    obtain rfl := Option.some.inj hs
    exact .inl rfl
  | delete Cs =>
    simp only [perform, Option.bind_eq_bind, Option.bind_eq_some_iff, Option.pure_def,
      Option.some.injEq] at hs
    obtain ⟨ps, -, rfl⟩ := hs
    exact .inl rfl
  | destroy => exact .inr (destroyEt_eq_some.mp hs).2.1

/-- Pools of which nothing is taken away stay as they are. -/
theorem Act.Leaves.getPool_perform (h : act.Leaves Cs) (hs : em.perform et act = some em') :
    ∀ C ∈ Cs, em'.pools.getPool C = em.pools.getPool C := by
  intro C hC
  cases act with
  | nothing =>
    obtain rfl := Option.some.inj hs
    rfl
  | delete Ds =>
    simp only [perform, Option.bind_eq_bind, Option.bind_eq_some_iff, Option.pure_def,
      Option.some.injEq] at hs
    obtain ⟨ps, hps, rfl⟩ := hs
    exact Pools.getPool_delete hps (h C hC)
  | destroy => exact h.elim

/-- What the function may do is defined, and touches nobody but the visited
entity. -/
theorem Tidy.perform (h : Tidy em) (hd : em.deletedEt.WF) (hlive : Live em et)
    (hown : ∀ Cs, act = .delete Cs → ∀ C ∈ Cs, em.has [C] et = some true) :
    ∃ em', em.perform et act = some em' ∧ Spares et em em' := by
  cases act with
  | nothing => exact ⟨em, rfl, h, hd, fun _ hl => hl, h.pools.spares et⟩
  | delete Cs =>
    have hkeys : ∀ C ∈ Cs, C ∈ List.keys em.pools := by
      intro C hC
      have hhas := h.has_iff.mp (hown Cs rfl C hC)
      obtain ⟨p, hp, -⟩ := hhas C (List.mem_singleton_self C)
      exact Pools.mem_keys_iff.mpr ⟨p, hp⟩
    obtain ⟨ps, hps, hspares⟩ := h.pools.spares_deleteAll hkeys et
    refine ⟨{ em with pools := ps }, ?_, ⟨h.entities, hspares.sound, ?_⟩, hd,
      fun _ hl => hl, hspares⟩
    · rw [EntityManager.perform, hps]
      rfl
    · exact fun C e ho => h.live C e (hspares.owns_of ho)
  | destroy =>
    obtain ⟨d, hins⟩ := hd.insert_defined (h.lt_max hlive)
    obtain ⟨em', hs⟩ := h.destroyEt_defined hins
    refine ⟨em', hs, h.destroyEt hs, ?_, fun hne hl => (h.live_destroyEt hs).mpr ⟨hl, hne⟩,
      h.pools.spares_destroy (destroyEt_eq_some.mp hs).1⟩
    exact (hd.insert_eq (destroyEt_eq_some.mp hs).2.2).1

theorem invoke_eq_some (hs : invoke func et comps x = some y) :
    x.1.perform et (func.act x.2 ⟨x.1, et, comps⟩) = some y.1 ∧
      y.2 = x.2 ++ [⟨x.1, et, comps⟩] := by
  simp only [invoke, Option.bind_eq_bind, Option.bind_eq_some_iff, Option.pure_def,
    Option.some.injEq] at hs
  obtain ⟨em', hp, rfl⟩ := hs
  exact ⟨hp, rfl⟩

theorem roundDo_eq (Cs : List κ) (func : Callback Comp w) (et : BitVec w)
    (x : EntityManager Comp w × List (Visit Comp w)) :
    roundDo Cs func et x = do
      if ← x.1.pools.filterHas Cs et then invoke func et (← x.1.pools.filterGet Cs et) x
      else return x := rfl

theorem roundDo_eq_some (hs : roundDo Cs func et x = some y) :
    (x.1.pools.filterHas Cs et = some false ∧ y = x) ∨
    ∃ comps, x.1.pools.filterHas Cs et = some true ∧
      x.1.pools.filterGet Cs et = some comps ∧ invoke func et comps x = some y := by
  obtain ⟨b, hb, hs⟩ := Option.bind_eq_some_iff.mp hs
  cases b with
  | false => exact .inl ⟨hb, (Option.some.inj hs).symm⟩
  | true =>
    rw [if_pos rfl] at hs
    obtain ⟨comps, hcomps, hs⟩ := Option.bind_eq_some_iff.mp hs
    exact .inr ⟨comps, hb, hcomps, hs⟩

/-! ### The loop -/

/-- The loop from `em₀` has still to read `rest`: these are live, own what
they owned, and find what was stored. -/
structure Pending (em₀ : EntityManager Comp w) (rest : List (BitVec w))
    (em : EntityManager Comp w) : Prop where
  tidy : Tidy em
  deletedEt : em.deletedEt.WF
  keys : List.keys em.pools = List.keys em₀.pools
  live : ∀ e ∈ rest, Live em e
  owns : ∀ e ∈ rest, ∀ C, Owns em C e ↔ Owns em₀ C e
  stored : ∀ e ∈ rest, ∀ C, Owns em₀ C e → em₀.pools.Stored C e → em.pools.Stored C e

theorem Tidy.pending (h : Tidy em) (hd : em.deletedEt.WF) :
    Pending em em.entities.range em where
  tidy := h
  deletedEt := hd
  keys := rfl
  live _ he := he
  owns _ _ _ := Iff.rfl
  stored _ _ _ _ := id

variable {rest : List (BitVec w)}

/-- The next entity is passed over. -/
theorem Pending.skip (h : Pending em₀ (et :: rest) em) : Pending em₀ rest em where
  tidy := h.tidy
  deletedEt := h.deletedEt
  keys := h.keys
  live e he := h.live e (List.mem_cons_of_mem et he)
  owns e he := h.owns e (List.mem_cons_of_mem et he)
  stored e he := h.stored e (List.mem_cons_of_mem et he)

/-- The next entity is visited: what becomes of it does not concern the
others. -/
theorem Pending.spares (h : Pending em₀ (et :: rest) em) (hno : et ∉ rest)
    (hs : Spares et em em') : Pending em₀ rest em' where
  tidy := hs.tidy
  deletedEt := hs.deletedEt
  keys := hs.pools.keys.trans h.keys
  live e he := hs.live (fun heq => hno (heq ▸ he)) (h.live e (List.mem_cons_of_mem et he))
  owns e he C := by
    have hne : e ≠ et := fun heq => hno (heq ▸ he)
    rw [← h.owns e (List.mem_cons_of_mem et he) C]
    exact ⟨hs.pools.owns_of, hs.pools.others hne⟩
  stored e he C ho hst := by
    have hne : e ≠ et := fun heq => hno (heq ▸ he)
    have he' : e ∈ et :: rest := List.mem_cons_of_mem et he
    exact hs.pools.stored hne ((h.owns e he' C).mpr ho) (h.stored e he' C ho hst)

theorem Pending.invoke (h : Pending em₀ (et :: rest) em) (hno : et ∉ rest)
    (func : Callback Comp w) (comps : List (Σ C, Comp C)) (seen : List (Visit Comp w)) :
    ∃ em', EntityManager.invoke func et comps (em, seen) = some (em', seen ++ [⟨em, et, comps⟩]) ∧
      Pending em₀ rest em' := by
  obtain ⟨em', hs, hspares⟩ := h.tidy.perform h.deletedEt (h.live et List.mem_cons_self)
    fun Cs (hact : func.act seen ⟨em, et, comps⟩ = .delete Cs) => func.own hact
  refine ⟨em', ?_, h.spares hno hspares⟩
  rw [EntityManager.invoke, hs]
  rfl

/-- The rounds that are left visit the entities among `rest` that owned all of
`Cs` at the start, if these had their components. -/
theorem Pending.rounds (func : Callback Comp w)
    (hreg : ∀ C ∈ Cs, (em₀.pools.getPool C).isSome) (seen : List (Visit Comp w))
    (h : Pending em₀ rest em) (hrest : rest.Nodup)
    (hstored : ∀ e ∈ rest, (∀ C ∈ Cs, Owns em₀ C e) → ∀ C ∈ Cs, em₀.pools.Stored C e) :
    ∃ em' visits, rest.foldlM (fun s et => roundDo Cs func et s) (em, seen) =
        some (em', seen ++ visits) ∧
      visits.map Visit.et = rest.filter fun e => decide (∀ C ∈ Cs, Owns em₀ C e) := by
  induction rest generalizing em seen with
  | nil => exact ⟨em, [], by simp, rfl⟩
  | cons et rest ih =>
    obtain ⟨hno, hrest⟩ := List.nodup_cons.mp hrest
    obtain ⟨het, hstored⟩ := List.forall_mem_cons.mp hstored
    have hreg' : ∀ C ∈ Cs, (em.pools.getPool C).isSome := by
      intro C hC
      rw [Option.isSome_iff_exists, ← Pools.mem_keys_iff, h.keys, Pools.mem_keys_iff,
        ← Option.isSome_iff_exists]
      exact hreg C hC
    have hhas : em.pools.filterHas Cs et = some (decide (∀ C ∈ Cs, Owns em₀ C et)) := by
      rw [Pools.filterHas_eq hreg', Pools.has_eq h.tidy.pools]
      simp only [← h.owns et List.mem_cons_self]
      rfl
    rw [List.foldlM_cons, roundDo_eq, hhas]
    by_cases ho : ∀ C ∈ Cs, Owns em₀ C et
    · -- its components were stored at the start, and are still
      obtain ⟨comps, hcomps⟩ := (h.tidy.pools.filterGet_defined_iff fun C hC =>
        (h.owns et List.mem_cons_self C).mpr (ho C hC)).mpr fun C hC =>
          h.stored et List.mem_cons_self C (ho C hC) (het ho C hC)
      obtain ⟨em', hs, hp⟩ := h.invoke hno func comps seen
      obtain ⟨em'', visits, hloop, hmap⟩ := ih (seen ++ [⟨em, et, comps⟩]) hp hrest hstored
      refine ⟨em'', ⟨em, et, comps⟩ :: visits, ?_, ?_⟩
      · rw [decide_eq_true ho, hcomps]
        show (EntityManager.invoke func et comps (em, seen)).bind _ = _
        rw [hs, Option.bind_some, hloop, List.append_assoc]
        rfl
      · rw [List.filter_cons_of_pos (by simpa using ho), List.map_cons, hmap]
    · obtain ⟨em', visits, hloop, hmap⟩ := ih seen h.skip hrest hstored
      refine ⟨em', visits, ?_, ?_⟩
      · rw [decide_eq_false ho]
        exact hloop
      · rw [List.filter_cons_of_neg (by simpa using ho), hmap]

/-- Where nothing of `Cs` is taken away, rounds that are defined have found the
components of all that the filter lets through. -/
theorem filterGet_of_rounds (hleaves : ∀ seen v, (func.act seen v).Leaves Cs)
    {seen : List (Visit Comp w)} {r : EntityManager Comp w × List (Visit Comp w)}
    (hsame : ∀ C ∈ Cs, em.pools.getPool C = em₀.pools.getPool C)
    (hs : rest.foldlM (fun s et => roundDo Cs func et s) (em, seen) = some r) :
    ∀ e ∈ rest, em₀.pools.filterHas Cs e = some true →
      ∃ comps, em₀.pools.filterGet Cs e = some comps := by
  induction rest generalizing em seen with
  | nil => exact List.forall_mem_nil _
  | cons et rest ih =>
    obtain ⟨⟨em', seen'⟩, hround, hrest⟩ := Option.bind_eq_some_iff.mp
      (List.foldlM_cons.symm.trans hs)
    rcases roundDo_eq_some hround with ⟨hfalse, heq⟩ | ⟨comps, -, hcomps, hinv⟩
    · obtain ⟨rfl, rfl⟩ := Prod.mk.inj heq
      refine List.forall_mem_cons.mpr ⟨fun htrue => ?_, ih hsame hrest⟩
      rw [← Pools.filterHas_congr hsame, hfalse] at htrue
      cases htrue
    · have hpools := (hleaves _ _).getPool_perform (invoke_eq_some hinv).1
      refine List.forall_mem_cons.mpr ⟨fun _ => ⟨comps, ?_⟩,
        ih (fun C hC => (hpools C hC).trans (hsame C hC)) hrest⟩
      rw [← hcomps]
      refine (Pools.filterGet_congr fun C hC => ?_).symm
      rw [Pools.get, Pools.get, hsame C hC]

/-- The components passed are those the filter has found in this round. -/
theorem comps_of_rounds {seen : List (Visit Comp w)}
    {r : EntityManager Comp w × List (Visit Comp w)}
    (hseen : ∀ v ∈ seen, v.em.pools.filterGet Cs v.et = some v.comps)
    (hs : rest.foldlM (fun s et => roundDo Cs func et s) (em, seen) = some r) :
    ∀ v ∈ r.2, v.em.pools.filterGet Cs v.et = some v.comps := by
  induction rest generalizing em seen with
  | nil =>
    obtain rfl := Option.some.inj hs
    exact hseen
  | cons et rest ih =>
    obtain ⟨⟨em', seen'⟩, hround, hrest⟩ := Option.bind_eq_some_iff.mp
      (List.foldlM_cons.symm.trans hs)
    refine ih ?_ hrest
    rcases roundDo_eq_some hround with ⟨-, heq⟩ | ⟨comps, -, hcomps, hinv⟩
    · obtain ⟨rfl, rfl⟩ := Prod.mk.inj heq
      exact hseen
    · obtain rfl : seen' = seen ++ [⟨em, et, comps⟩] := (invoke_eq_some hinv).2
      exact List.forall_mem_append.mpr ⟨hseen, List.forall_mem_singleton.mpr hcomps⟩

/-- The loop reads `_entities` as it was at the start. -/
theorem Tidy.forEachOfDo_eq (h : Tidy em) (Cs : List κ) (func : Callback Comp w) :
    em.forEachOfDo Cs func =
      em.entities.range.foldlM (fun s et => roundDo Cs func et s) (em, []) := by
  refine SparseSet.rangeFor_eq_foldlM (a := (em, [])) (fun et x y hs => ?_) h.entities
  rcases roundDo_eq_some hs with ⟨-, rfl⟩ | ⟨comps, -, -, hinv⟩
  · exact .inl rfl
  · exact entities_perform (invoke_eq_some hinv).1

/-- `ForEach(func)` is `ForEach<>(func)`: every entity owns all of nothing. -/
theorem forEachDo_eq (em : EntityManager Comp w) (func : Callback Comp w) :
    em.forEachDo func = em.forEachOfDo [] func := rfl

/-- `ForEach<Cs...>(func)` visits every entity live at the start that owned all of `Cs`
once, and no other. -/
def VisitsOnce (em : EntityManager Comp w) (Cs : List κ) (func : Callback Comp w) : Prop :=
  ∃ em' visits, em.forEachOfDo Cs func = some (em', visits) ∧
    (visits.map Visit.et).Nodup ∧
    ∀ e, e ∈ visits.map Visit.et ↔ em.exists_ e = some true ∧ em.has Cs e = some true

/-- Every live entity that owns all of `Cs` has its components. -/
def OwnersStored (em : EntityManager Comp w) (Cs : List κ) : Prop :=
  ∀ e, em.exists_ e = some true → em.has Cs e = some true → ∀ C ∈ Cs, em.pools.Stored C e

theorem Tidy.visitsOnce (h : Tidy em) (hd : em.deletedEt.WF)
    (hreg : ∀ C ∈ Cs, (em.pools.getPool C).isSome) (hst : em.OwnersStored Cs)
    (func : Callback Comp w) : VisitsOnce em Cs func := by
  obtain ⟨em', visits, hloop, hmap⟩ := (h.pending hd).rounds func hreg []
    h.entities.range_nodup fun e he ho => hst e (h.exists_iff.mpr he) (h.has_iff.mpr ho)
  refine ⟨em', visits, (h.forEachOfDo_eq Cs func).trans hloop, ?_, fun e => ?_⟩
  · rw [hmap]
    exact h.nodup_owners Cs
  · rw [hmap]
    exact h.mem_owners_iff

/-- A function that takes nothing of `Cs` away finds out who lacks a component. -/
theorem Tidy.ownersStored (h : Tidy em) (hreg : ∀ C ∈ Cs, (em.pools.getPool C).isSome)
    (hleaves : ∀ seen v, (func.act seen v).Leaves Cs) (hv : VisitsOnce em Cs func) :
    em.OwnersStored Cs := by
  obtain ⟨em', visits, hloop, -⟩ := hv
  rw [h.forEachOfDo_eq] at hloop
  intro e hlive hhas
  rw [← h.pools.filterGet_defined_iff (h.has_iff.mp hhas)]
  refine filterGet_of_rounds hleaves (fun _ _ => rfl) hloop e (h.exists_iff.mp hlive) ?_
  rw [Pools.filterHas_eq hreg]
  exact hhas

/-- **`ForEach` tolerates a function that destroys the entity it is given, but not an
owner without a component.**  `ForEach(func)` visits every entity live at the start once
and no other, whatever the function does to the visited entity.  `ForEach<Cs...>(func)`
visits every one that owned all of `Cs` at the start once, whatever the function does,
if and only if each of these has its components; and for a function that takes nothing
of `Cs` away this is so for that function alone.  The components it passes are those
that `Get<Cs...>` points to in the same round. -/
theorem forEach_visits_once_iff (h : Tidy em) (hd : em.deletedEt.WF) :
    (∀ func : Callback Comp w, ∃ em' visits, em.forEachDo func = some (em', visits) ∧
      (visits.map Visit.et).Nodup ∧
      ∀ e, e ∈ visits.map Visit.et ↔ em.exists_ e = some true) ∧
    ∀ Cs, (∀ C ∈ Cs, (em.pools.getPool C).isSome) →
      ((∀ func : Callback Comp w, VisitsOnce em Cs func) ↔ em.OwnersStored Cs) ∧
      (∀ func : Callback Comp w, (∀ seen v, (func.act seen v).Leaves Cs) →
        (VisitsOnce em Cs func ↔ em.OwnersStored Cs)) ∧
      ∀ (func : Callback Comp w) em' visits, em.forEachOfDo Cs func = some (em', visits) →
        ∀ v ∈ visits, v.em.pools.getAll Cs v.et = some (v.comps.map Pools.pointed) := by
  constructor
  · intro func
    obtain ⟨em', visits, hloop, hnodup, hvisits⟩ :=
      h.visitsOnce hd (List.forall_mem_nil _) (fun _ _ _ => List.forall_mem_nil _) func
    refine ⟨em', visits, (forEachDo_eq em func).trans hloop, hnodup, fun e => ?_⟩
    rw [hvisits]
    exact and_iff_left rfl
  · intro Cs hreg
    have hone : ∀ func : Callback Comp w, (∀ seen v, (func.act seen v).Leaves Cs) →
        (VisitsOnce em Cs func ↔ em.OwnersStored Cs) := fun func hleaves =>
      ⟨h.ownersStored hreg hleaves, fun hst => h.visitsOnce hd hreg hst func⟩
    refine ⟨⟨fun hall => ?_, fun hst func => h.visitsOnce hd hreg hst func⟩, hone,
      fun func em' visits hloop v hv => ?_⟩
    · -- the function that does nothing
      exact (hone ⟨fun _ _ => .nothing, nofun⟩ fun _ _ => trivial).mp (hall _)
    · rw [h.forEachOfDo_eq] at hloop
      exact Pools.filterGet_eq_some.mp (comps_of_rounds (List.forall_mem_nil _) hloop v hv)

/-- Three entities, two of them with a component; the function destroys whom it is
given. -/
theorem forEach_visits_once_iff_trio :
    let func : Callback (fun _ : Unit => ℕ) 8 := ⟨fun _ _ => .destroy, by simp⟩
    (∃ em' visits, trio.forEachDo func = some (em', visits) ∧
      ∀ e, e ∈ visits.map Visit.et ↔ trio.exists_ e = some true) ∧
    VisitsOnce trio [()] func := by
  intro func
  have hst : trio.OwnersStored [()] := by
    intro e _ hhas C _
    have howner : Owns trio () e := tidy_trio.has_iff.mp hhas () (List.mem_singleton_self ())
    have hcov : trio.pools.Covered := by
      rintro ⟨⟩ p hp
      have hwf := tidy_trio.pools () p hp
      obtain rfl := Option.some.inj hp
      exact ⟨hwf, by decide⟩
    exact hcov.stored howner
  obtain ⟨hall, hof⟩ := forEach_visits_once_iff tidy_trio SparseSet.wf_empty
  obtain ⟨em', visits, hloop, -, hvisits⟩ := hall func
  exact ⟨⟨em', visits, hloop, hvisits⟩, (hof [()] (by decide)).1.mpr hst func⟩

/-- A constructor has thrown: entity 0 owns the component it has not, and no function is
ever called. -/
theorem forEach_passes_missing :
    let em : EntityManager (fun _ : Unit => ℕ) 8 :=
      ⟨⟨[0], [0], 1, 1⟩, .empty, [⟨(), ⟨⟨[0], [0], 1, 1⟩, ⟨[], 1, Nat.zero_le 1⟩⟩⟩]⟩
    Reachable (⟨1, em⟩ : State (fun _ : Unit => ℕ) 8) ∧ Tidy em ∧ em.deletedEt.WF ∧
      (em.pools.getPool ()).isSome ∧ em.exists_ 0 = some true ∧ em.has [()] 0 = some true ∧
      ∀ func : Callback (fun _ : Unit => ℕ) 8,
        em.forEachOfDo [()] func = none ∧ ¬ VisitsOnce em [()] func := by
  intro em
  have hreach : Reachable (⟨1, em⟩ : State (fun _ : Unit => ℕ) 8) :=
    ⟨0, [.create, .onPools (.assign () 0 none)], by decide, rfl⟩
  have hloop : ∀ func : Callback (fun _ : Unit => ℕ) 8, em.forEachOfDo [()] func = none :=
    fun _ => rfl
  refine ⟨hreach, hreach.inv.tidy, SparseSet.wf_empty, rfl, by decide, by decide, fun func =>
    ⟨hloop func, ?_⟩⟩
  rintro ⟨em', visits, hs, -⟩
  rw [hloop func] at hs
  cases hs

end EntityManager

end Indie
