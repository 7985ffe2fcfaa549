/-
Indie/PoolsSpec.lean

What the members on the pool vector do, read off through `GetPool`.

A member works on the pool of one type: it may allocate it, changes it, and
writes it back.  `Every ps P` says that each pool found in the vector meets
`P`; it is kept by a member as soon as the change keeps `P`
(`Every.modify`), so an invariant of the vector is proved pool
by pool.

`Owns ps C e` says that `e` is registered in the pool of `C`; `Has` decides it
(`has_eq`), and the loop of `Destroy(et)` takes `et` out of every pool and
nothing else (`destroy_eq`).
-/
import Indie.Pools

namespace Indie

namespace Pools

variable {κ : Type} [DecidableEq κ] {Comp : κ → Type} {w : ℕ}
variable {ps ps' : Pools Comp w} {C D : κ} {et e : BitVec w}

/-! ### Lookup and write -/

theorem mem_keys_iff : C ∈ List.keys ps ↔ ∃ p, getPool ps C = some p := by
  rw [← List.dlookup_isSome, Option.isSome_iff_exists]
  rfl

theorem getPool_setPool_self {q : Pool (Comp C) w} (h : getPool ps C = some q)
    (p : Pool (Comp C) w) : getPool (setPool ps C p) C = some p :=
  Keyed.dlookup_kreplace_self (mem_keys_iff.mpr ⟨q, h⟩) p

theorem getPool_setPool_ne (h : D ≠ C) (p : Pool (Comp C) w) :
    getPool (setPool ps C p) D = getPool ps D :=
  Keyed.dlookup_kreplace_ne (β := fun C => Pool (Comp C) w) h p

@[simp] theorem keys_setPool (ps : Pools Comp w) (p : Pool (Comp C) w) :
    List.keys (setPool ps C p) = List.keys ps :=
  List.keys_kreplace (β := fun C => Pool (Comp C) w) C p ps

theorem setPool_getPool {p : Pool (Comp C) w} (h : getPool ps C = some p) :
    setPool ps C p = ps :=
  Keyed.kreplace_dlookup h

/-- Allocating finds the pool that is there, or an empty one. -/
theorem getPool_tryAllocatePool_self (ps : Pools Comp w) (C : κ) :
    getPool (tryAllocatePool ps C) C = some ((getPool ps C).getD Pool.empty) := by
  rcases e : getPool ps C with - | p
  · rw [tryAllocatePool, e]
    exact Keyed.dlookup_concat_self (List.dlookup_eq_none.mp e) _
  · rw [tryAllocatePool, e]
    exact e

theorem getPool_tryAllocatePool_ne (h : D ≠ C) :
    getPool (tryAllocatePool ps C) D = getPool ps D := by
  rw [tryAllocatePool]
  split
  · rfl
  · exact Keyed.dlookup_concat_ne h _

/-- Allocating registers no type twice. -/
theorem nodupKeys_tryAllocatePool (h : List.NodupKeys ps) (C : κ) :
    List.NodupKeys (tryAllocatePool ps C) := by
  rw [tryAllocatePool]
  split
  · exact h
  · rename_i hC
    rw [Option.not_isSome_iff_eq_none] at hC
    exact Keyed.nodupKeys_concat h (List.dlookup_eq_none.mp hC) _

theorem modify_eq_some {f : Pool (Comp C) w → Option (Pool (Comp C) w)} :
    modify ps C f = some ps' ↔
      ∃ p p', getPool ps C = some p ∧ f p = some p' ∧ ps' = setPool ps C p' := by
  simp only [modify, Option.bind_eq_bind, Option.bind_eq_some_iff, Option.pure_def,
    Option.some.injEq]
  constructor
  · rintro ⟨p, hp, p', hf, rfl⟩
    exact ⟨p, p', hp, hf, rfl⟩
  · rintro ⟨p, p', hp, hf, rfl⟩
    exact ⟨p, hp, p', hf, rfl⟩

theorem build_eq_some {f : Pool (Comp C) w → Option (Pool (Comp C) w × Ending)}
    {r : Pools Comp w × Ending} :
    build ps C f = some r ↔
      ∃ p q, getPool ps C = some p ∧ f p = some q ∧ r = (setPool ps C q.1, q.2) := by
  simp only [build, Option.bind_eq_bind, Option.bind_eq_some_iff, Option.pure_def,
    Option.some.injEq]
  constructor
  · rintro ⟨p, hp, q, hf, rfl⟩
    exact ⟨p, q, hp, hf, rfl⟩
  · rintro ⟨p, q, hp, hf, rfl⟩
    exact ⟨p, hp, q, hf, rfl⟩

/-- What a member that builds does to the vector is a modification. -/
theorem build_fst (f : Pool (Comp C) w → Option (Pool (Comp C) w × Ending)) :
    (build ps C f).map Prod.fst = modify ps C fun p => (f p).map Prod.fst := by
  rw [build, modify]
  rcases getPool ps C with - | p
  · rfl
  · simp only [Option.bind_eq_bind, Option.bind_some]
    rcases f p with - | ⟨p', ending⟩ <;> rfl

/-! ### Properties of every pool -/

/-- Each pool found in the vector meets `P`. -/
def Every (ps : Pools Comp w) (P : ∀ C, Pool (Comp C) w → Prop) : Prop :=
  ∀ C p, getPool ps C = some p → P C p

variable {P : ∀ C, Pool (Comp C) w → Prop}

theorem every_nil : Every ([] : Pools Comp w) P := by
  intro C p h
  cases h

theorem Every.tryAllocatePool (h : Every ps P) (C : κ) (hC : P C Pool.empty) :
    Every (tryAllocatePool ps C) P := by
  intro D p hp
  by_cases hD : D = C
  · subst hD
    rw [getPool_tryAllocatePool_self, Option.some.injEq] at hp
    rcases e : getPool ps D with - | q
    · rw [e] at hp
      exact hp ▸ hC
    · rw [e] at hp
      exact hp ▸ h D q e
  · rw [getPool_tryAllocatePool_ne hD] at hp
    exact h D p hp

/-- A change of one pool keeps `P` for all as soon as it keeps it for that
one. -/
theorem Every.modify (h : Every ps P) {f : Pool (Comp C) w → Option (Pool (Comp C) w)}
    (hf : ∀ p p', P C p → f p = some p' → P C p') (hs : modify ps C f = some ps') :
    Every ps' P := by
  obtain ⟨p, p', hp, hfp, rfl⟩ := modify_eq_some.mp hs
  intro D q hq
  by_cases hD : D = C
  · subst hD
    rw [getPool_setPool_self hp, Option.some.injEq] at hq
    exact hq ▸ hf p p' (h D p hp) hfp
  · rw [getPool_setPool_ne hD] at hq
    exact h D q hq

theorem keys_modify {f : Pool (Comp C) w → Option (Pool (Comp C) w)}
    (hs : modify ps C f = some ps') : List.keys ps' = List.keys ps := by
  obtain ⟨p, p', -, -, rfl⟩ := modify_eq_some.mp hs
  exact keys_setPool ps p'

/-- The set of every pool is well formed. -/
def Sound (ps : Pools Comp w) : Prop := Every ps fun _ p => p.base.WF

/-! ### A call on the vector is calls on its pools -/

/-- The type whose pool is allocated first, if it is missing. -/
def Op.allocates : Op Comp w → List κ
  | .assign C _ _ => [C]
  | .assignOrReplace C _ _ => [C]
  | .reserve C _ => [C]
  | _ => []

/-- The calls made on single pools, in order. -/
def Op.calls : Op Comp w → List (Σ C, Pool.Op (Comp C) w)
  | .assign C et c => [⟨C, .assign et c⟩]
  | .replace C et c => [⟨C, .replace et c⟩]
  | .assignOrReplace C et c => [⟨C, .assignOrReplace et c⟩]
  | .delete Cs et => Cs.map fun C => ⟨C, .delete et⟩
  | .reset Cs => Cs.map fun C => ⟨C, .reset⟩
  | .reserve C count => [⟨C, .reserve count⟩]

/-- Make calls on single pools in order. -/
def callAll (ps : Pools Comp w) (calls : List (Σ C, Pool.Op (Comp C) w)) :
    Option (Pools Comp w) :=
  calls.foldlM (fun ps c => modify ps c.1 (·.step c.2)) ps

@[simp] theorem callAll_cons (ps : Pools Comp w) (c : Σ C, Pool.Op (Comp C) w)
    (calls : List (Σ C, Pool.Op (Comp C) w)) :
    callAll ps (c :: calls) = (modify ps c.1 (·.step c.2)).bind (callAll · calls) := rfl

@[simp] theorem callAll_singleton (ps : Pools Comp w) (c : Σ C, Pool.Op (Comp C) w) :
    callAll ps [c] = modify ps c.1 (·.step c.2) := Option.bind_fun_some _

theorem step_fst (ps : Pools Comp w) (op : Op Comp w) :
    (step ps op).map Prod.fst = callAll (op.allocates.foldl tryAllocatePool ps) op.calls := by
  have hmap : ∀ o : Option (Pools Comp w),
      (o.map (·, Ending.returned)).map Prod.fst = o := by
    intro o
    cases o <;> rfl
  cases op with
  | assign C et c =>
    rw [step, assign, build_fst, Op.calls, callAll_singleton]
    rfl
  | replace C et c =>
    rw [step, replace, build_fst, Op.calls, callAll_singleton]
    rfl
  | assignOrReplace C et c =>
    rw [step, assignOrReplace, build_fst, Op.calls, callAll_singleton]
    rfl
  | delete Cs et =>
    rw [step, hmap, Op.calls, callAll, List.foldlM_map]
    rfl
  | reset Cs =>
    rw [step, hmap, Op.calls, callAll, List.foldlM_map]
    rfl
  | reserve C count =>
    rw [step, hmap, Op.calls, callAll_singleton]
    rfl

/-- What every call on a pool keeps, a list of them keeps. -/
theorem callAll_invariant {I : Pools Comp w → Prop}
    {calls : List (Σ C, Pool.Op (Comp C) w)}
    (hI : ∀ c ∈ calls, ∀ qs qs', I qs → modify qs c.1 (·.step c.2) = some qs' → I qs')
    (h : I ps) (hs : callAll ps calls = some ps') : I ps' := by
  induction calls generalizing ps with
  | nil => exact Option.some.inj hs ▸ h
  | cons c calls ih =>
    rw [callAll_cons, Option.bind_eq_some_iff] at hs
    obtain ⟨qs, hq, hs⟩ := hs
    exact ih (fun d hd => hI d (List.mem_cons_of_mem c hd))
      (hI c List.mem_cons_self ps qs h hq) hs

/-- What allocation keeps, and each call an operation makes on a pool, the
operation keeps. -/
theorem step_invariant {I : Pools Comp w → Prop} {op : Op Comp w}
    (halloc : ∀ qs C, I qs → I (tryAllocatePool qs C))
    (hcalls : ∀ c ∈ op.calls, ∀ qs qs', I qs → modify qs c.1 (·.step c.2) = some qs' → I qs')
    (h : I ps) {r : Pools Comp w × Ending} (hs : step ps op = some r) : I r.1 := by
  have hs' := step_fst ps op
  rw [hs] at hs'
  refine callAll_invariant hcalls ?_ hs'.symm
  exact List.foldlRecOn _ _ h fun qs hqs C _ => halloc qs C hqs

/-- An invariant of pools, kept by the calls an operation makes on them, is
kept by the operation. -/
theorem Every.step (h : Every ps P) (hempty : ∀ C, P C Pool.empty) {op : Op Comp w}
    (hP : ∀ c ∈ op.calls, ∀ p p', P c.1 p → p.step c.2 = some p' → P c.1 p')
    {r : Pools Comp w × Ending} (hs : Pools.step ps op = some r) : Every r.1 P :=
  step_invariant (I := fun qs => Every qs P) (fun _ C hqs => hqs.tryAllocatePool C (hempty C))
    (fun c hc _ _ hqs hq => hqs.modify (hP c hc) hq) h hs

theorem Sound.step (h : Sound ps) {op : Op Comp w} {r : Pools Comp w × Ending}
    (hs : Pools.step ps op = some r) : Sound r.1 :=
  Every.step h (fun _ => SparseSet.wf_empty) (fun _ _ _ _ hp hp' => Pool.wf_step hp hp') hs

/-- No call registers a type twice. -/
theorem nodupKeys_step (h : List.NodupKeys ps) {op : Op Comp w} {r : Pools Comp w × Ending}
    (hs : step ps op = some r) : List.NodupKeys r.1 := by
  refine step_invariant (I := fun qs => List.NodupKeys qs)
    (fun _ C hqs => nodupKeys_tryAllocatePool hqs C) (fun c _ qs qs' hqs hq => ?_) h hs
  rw [List.NodupKeys, keys_modify hq]
  exact hqs

/-! ### Owners -/

/-- Entity `e` is registered in the pool of `C`. -/
def Owns (ps : Pools Comp w) (C : κ) (e : BitVec w) : Prop :=
  ∃ p, getPool ps C = some p ∧ e ∈ p.base.range

instance (ps : Pools Comp w) (C : κ) (e : BitVec w) : Decidable (Owns ps C e) :=
  match h : getPool ps C with
  | some p => decidable_of_iff (e ∈ p.base.range) (by simp [Owns, h])
  | none => isFalse (by simp [Owns, h])

theorem owns_iff {p : Pool (Comp C) w} (h : getPool ps C = some p) :
    Owns ps C e ↔ e ∈ p.base.range := by
  simp [Owns, h]

/-- `Has<Cs...>(e)` decides whether `e` owns a component of each type. -/
theorem has_eq (h : Sound ps) (Cs : List κ) (e : BitVec w) :
    has ps Cs e = some (decide (∀ C ∈ Cs, Owns ps C e)) := by
  induction Cs with
  | nil => simp [has]
  | cons C Cs ih =>
    rcases hp : getPool ps C with - | p
    · have hno : ¬ Owns ps C e := by simp [Owns, hp]
      simp [has, hp, hno]
    · have hb : p.has e = some (decide (e ∈ p.base.range)) := (h C p hp).has_eq e
      rw [has, hp, ih]
      simp only [hb, Option.bind_eq_bind, Option.bind_some, owns_iff hp, List.forall_mem_cons]
      by_cases he : e ∈ p.base.range <;> simp [he]

theorem has_eq_true (h : Sound ps) {Cs : List κ} :
    has ps Cs e = some true ↔ ∀ C ∈ Cs, Owns ps C e := by
  rw [has_eq h]
  simp

/-! ### A missing pool is an empty one -/

/-- The pool of a type, an empty one if it is missing. -/
def poolOf (ps : Pools Comp w) (C : κ) : Pool (Comp C) w := (getPool ps C).getD Pool.empty

/-- A missing pool has nothing, and neither has an empty one. -/
theorem has_cons (ps : Pools Comp w) (C : κ) (Cs : List κ) (e : BitVec w) :
    has ps (C :: Cs) e = do if ← (poolOf ps C).has e then has ps Cs e else return false := by
  have hempty : (Pool.empty : Pool (Comp C) w).has e = some false :=
    SparseSet.wf_empty.has_eq_false.mpr (by simp)
  rw [has, poolOf]
  rcases getPool ps C with - | p
  · rw [Option.getD_none, hempty]
  · rfl

theorem wf_poolOf (h : Sound ps) (C : κ) : (poolOf ps C).base.WF := by
  rw [poolOf]
  rcases e : getPool ps C with - | p
  · exact SparseSet.wf_empty
  · exact h C p e

theorem has_singleton (ps : Pools Comp w) (C : κ) (e : BitVec w) :
    has ps [C] e = (poolOf ps C).has e := by
  rw [has_cons]
  rcases (poolOf ps C).has e with - | b
  · rfl
  · cases b <;> rfl

/-! ### The loop of `Destroy(et)` over the records -/

/-- `pool.Delete(et)` on an entity that the pool lacks changes nothing, so one
round of the loop is a deletion in any case. -/
theorem destroy_round (h : Sound ps) {p : Pool (Comp C) w} (hp : getPool ps C = some p)
    (et : BitVec w) :
    ∃ p', p.delete et = some p' ∧
      (do if ← closureHas ps C et then closureDelete ps C et else return ps) =
        some (setPool ps C p') := by
  have hwf := h C p hp
  have hb : p.has et = some (decide (et ∈ p.base.range)) := hwf.has_eq et
  obtain ⟨b, hd⟩ := hwf.erase_defined et
  have hdel : p.delete et = some { p with base := b } := Pool.delete_eq_some.mpr ⟨b, hd, rfl⟩
  refine ⟨_, hdel, ?_⟩
  by_cases he : et ∈ p.base.range
  · simp [closureHas, closureDelete, modify, hp, hb, he, hdel]
  · rw [hwf.erase_of_notMem he, Option.some.injEq] at hd
    subst hd
    simp [closureHas, hp, hb, he, setPool_getPool hp]

/-- Rounds over the records of `Cs`: exactly their pools lose `et`. -/
theorem destroy_rounds (et : BitVec w) :
    ∀ {Cs : List κ} {ps : Pools Comp w}, Sound ps → (∀ C ∈ Cs, C ∈ List.keys ps) →
      ∃ ps', Cs.foldlM (fun ps C => do
          if ← closureHas ps C et then closureDelete ps C et else return ps) ps = some ps' ∧
        List.keys ps' = List.keys ps ∧
        ∀ D q, getPool ps D = some q → ∃ q', getPool ps' D = some q' ∧
          if D ∈ Cs then q.delete et = some q' else q' = q
  | [], ps, _, _ => ⟨ps, rfl, rfl, fun D q hq => ⟨q, hq, by simp⟩⟩
  | C :: Cs, ps, h, hCs => by
    -- the first round takes `et` out of the pool of `C`
    obtain ⟨p, hp⟩ := mem_keys_iff.mp (hCs C List.mem_cons_self)
    obtain ⟨p', hdel, hround⟩ := destroy_round h hp et
    obtain ⟨b, hb, rfl⟩ := Pool.delete_eq_some.mp hdel
    have hwf' := (h C p hp).erase hb
    have h' : Sound (setPool ps C { p with base := b }) :=
      h.modify (f := fun _ => some { p with base := b })
        (fun _ _ _ e => Option.some.inj e ▸ hwf')
        (modify_eq_some.mpr ⟨p, _, hp, rfl, rfl⟩)
    -- the others find every record where it was
    obtain ⟨ps', hrest, hkeys, hget⟩ := destroy_rounds et h' fun D hD => by
      rw [keys_setPool]
      exact hCs D (List.mem_cons_of_mem C hD)
    refine ⟨ps', ?_, hkeys.trans (keys_setPool ps _), fun D q hq => ?_⟩
    · rw [List.foldlM_cons, hround]
      exact hrest
    · by_cases hD : D = C
      · subst hD
        obtain rfl := Option.some.inj (hp.symm.trans hq)
        obtain ⟨q', hq', hq''⟩ := hget D _ (getPool_setPool_self hp _)
        refine ⟨q', hq', ?_⟩
        rw [if_pos List.mem_cons_self, hdel]
        split at hq''
        · -- the type comes again: `et` is gone already
          rw [← hq'']
          symm
          refine Pool.delete_eq_some.mpr ⟨b, hwf'.erase_of_notMem ?_, rfl⟩
          exact fun he => ((h D p hp).mem_erase hb).mp he |>.2 rfl
        · rw [hq'']
      · obtain ⟨q', hq', hq''⟩ := hget D q ((getPool_setPool_ne hD _).trans hq)
        refine ⟨q', hq', ?_⟩
        simpa [hD] using hq''

/-- The loop is defined, and takes `et` out of every pool. -/
theorem destroy_eq (h : Sound ps) (et : BitVec w) :
    ∃ ps', destroy ps et = some ps' ∧ List.keys ps' = List.keys ps ∧
      ∀ C p, getPool ps C = some p → ∃ p', p.delete et = some p' ∧
        getPool ps' C = some p' := by
  obtain ⟨ps', hs, hkeys, hget⟩ := destroy_rounds et h fun C hC => hC
  refine ⟨ps', hs, hkeys, fun C p hp => ?_⟩
  obtain ⟨p', hp', hdel⟩ := hget C p hp
  rw [if_pos (mem_keys_iff.mpr ⟨p, hp⟩)] at hdel
  exact ⟨p', hdel, hp'⟩

/-- An invariant of pools kept by `Delete` is kept by the loop. -/
theorem Every.destroy (hps : Sound ps) (h : Every ps P)
    (hP : ∀ C p p', p.base.WF → P C p → p.delete et = some p' → P C p')
    (hs : destroy ps et = some ps') : Every ps' P := by
  obtain ⟨qs, hqs, hkeys, hget⟩ := destroy_eq hps et
  obtain rfl := Option.some.inj (hqs.symm.trans hs)
  intro C p' hp'
  have hC : C ∈ List.keys ps := hkeys ▸ mem_keys_iff.mpr ⟨p', hp'⟩
  obtain ⟨p, hp⟩ := mem_keys_iff.mp hC
  obtain ⟨q, hdel, hq⟩ := hget C p hp
  obtain rfl := Option.some.inj (hp'.symm.trans hq)
  exact hP C p _ (hps C p hp) (h C p hp) hdel

theorem Sound.destroy (h : Sound ps) (hs : destroy ps et = some ps') : Sound ps' := by
  refine Every.destroy h h (fun C p p' hwf _ hdel => ?_) hs
  obtain ⟨b, hb, rfl⟩ := Pool.delete_eq_some.mp hdel
  exact hwf.erase hb

/-- Nobody but `et` loses a component, and `et` loses all. -/
theorem owns_destroy (h : Sound ps) (hs : destroy ps et = some ps') :
    Owns ps' C e ↔ Owns ps C e ∧ e ≠ et := by
  obtain ⟨qs, hqs, hkeys, hget⟩ := destroy_eq h et
  obtain rfl := Option.some.inj (hqs.symm.trans hs)
  by_cases hC : C ∈ List.keys ps
  · obtain ⟨p, hp⟩ := mem_keys_iff.mp hC
    obtain ⟨p', hdel, hp'⟩ := hget C p hp
    obtain ⟨b, hb, rfl⟩ := Pool.delete_eq_some.mp hdel
    rw [owns_iff hp, owns_iff hp']
    exact (h C p hp).mem_erase hb
  · have hno : ¬ Owns ps C e := fun ⟨p, hp, _⟩ => hC (mem_keys_iff.mpr ⟨p, hp⟩)
    have hno' : ¬ Owns qs C e := fun ⟨p, hp, _⟩ =>
      hC (hkeys ▸ mem_keys_iff.mpr ⟨p, hp⟩)
    exact ⟨fun hq => absurd hq hno', fun hq => absurd hq.1 hno⟩

end Pools

end Indie
