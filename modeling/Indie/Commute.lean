/-
Indie/Commute.lean

Calls about different component types commute.

A call on components works on the pools of the types it names: it depends on
no other pool (`Pools.AgreeOn.step`) and changes no other (`Pools.agreeOn_frame`).
So two such calls about disjoint sets of types can be exchanged
(`Pools.exchange`).  What the exchange does leave behind is another order of
the records in `_pools`, where new pools are put at the end; but `Destroy`
treats each record by itself, and everybody else looks records up by id.

A question too depends on the types it names, and on who is live
(`World.ask_congr`).
-/
import Indie.WorldRefine

namespace Indie

/-! ### The pool vector -/

namespace Pools

variable {κ : Type} [DecidableEq κ] {Comp : κ → Type} {w : ℕ}
variable {ps ps' qs rs : Pools Comp w} {C : κ} {Cs : List κ} {T : Set κ} {a b op : Op Comp w}
  {et : BitVec w}

/-- The types a call names. -/
def Op.types : Op Comp w → List κ
  | .assign C _ _ => [C]
  | .replace C _ _ => [C]
  | .assignOrReplace C _ _ => [C]
  | .delete Cs _ => Cs
  | .reset Cs => Cs
  | .reserve C _ => [C]

/-- The pools of the types in `T` are the same. -/
def AgreeOn (T : Set κ) (ps qs : Pools Comp w) : Prop := ∀ C ∈ T, getPool ps C = getPool qs C

theorem AgreeOn.refl (T : Set κ) (ps : Pools Comp w) : AgreeOn T ps ps := fun _ _ => rfl

theorem AgreeOn.symm (h : AgreeOn T ps qs) : AgreeOn T qs ps := fun C hC => (h C hC).symm

theorem AgreeOn.trans (h : AgreeOn T ps qs) (h' : AgreeOn T qs rs) : AgreeOn T ps rs :=
  fun C hC => (h C hC).trans (h' C hC)

/-! ### A call depends on the pools it names -/

theorem AgreeOn.setPool (h : AgreeOn T ps qs) {p q p' : Pool (Comp C) w}
    (hp : getPool ps C = some p) (hq : getPool qs C = some q) :
    AgreeOn T (setPool ps C p') (setPool qs C p') := by
  intro D hD
  by_cases hDC : D = C
  · subst hDC
    rw [getPool_setPool_self hp, getPool_setPool_self hq]
  · rw [getPool_setPool_ne hDC, getPool_setPool_ne hDC, h D hD]

theorem AgreeOn.tryAllocatePool (h : AgreeOn T ps qs) (C : κ) :
    AgreeOn T (tryAllocatePool ps C) (tryAllocatePool qs C) := by
  intro D hD
  by_cases hDC : D = C
  · subst hDC
    rw [getPool_tryAllocatePool_self, getPool_tryAllocatePool_self, h D hD]
  · rw [getPool_tryAllocatePool_ne hDC, getPool_tryAllocatePool_ne hDC, h D hD]

theorem AgreeOn.modify (h : AgreeOn T ps qs) (hC : C ∈ T)
    {f : Pool (Comp C) w → Option (Pool (Comp C) w)} (hs : modify ps C f = some ps') :
    ∃ qs', Pools.modify qs C f = some qs' ∧ AgreeOn T ps' qs' := by
  obtain ⟨p, p', hp, hf, rfl⟩ := modify_eq_some.mp hs
  have hq : getPool qs C = some p := (h C hC).symm.trans hp
  exact ⟨_, modify_eq_some.mpr ⟨p, p', hq, hf, rfl⟩, h.setPool hp hq⟩

theorem AgreeOn.build (h : AgreeOn T ps qs) (hC : C ∈ T)
    {f : Pool (Comp C) w → Option (Pool (Comp C) w × Ending)} {r : Pools Comp w × Ending}
    (hs : build ps C f = some r) :
    ∃ r', Pools.build qs C f = some r' ∧ r'.2 = r.2 ∧ AgreeOn T r.1 r'.1 := by
  obtain ⟨p, p', hp, hf, rfl⟩ := build_eq_some.mp hs
  have hq : getPool qs C = some p := (h C hC).symm.trans hp
  exact ⟨_, build_eq_some.mpr ⟨p, p', hq, hf, rfl⟩, rfl, h.setPool hp hq⟩

/-- A loop of calls on the pools of `Cs`. -/
theorem AgreeOn.foldlM (h : AgreeOn T ps qs) (hCs : ∀ C ∈ Cs, C ∈ T)
    {f : ∀ C, Pool (Comp C) w → Option (Pool (Comp C) w)}
    (hs : Cs.foldlM (fun ps C => Pools.modify ps C (f C)) ps = some ps') :
    ∃ qs', Cs.foldlM (fun ps C => Pools.modify ps C (f C)) qs = some qs' ∧
      AgreeOn T ps' qs' := by
  induction Cs generalizing ps qs with
  | nil =>
    obtain rfl := Option.some.inj hs
    exact ⟨qs, rfl, h⟩
  | cons C Cs ih =>
    obtain ⟨hC, hCs⟩ := List.forall_mem_cons.mp hCs
    rw [List.foldlM_cons, Option.bind_eq_bind, Option.bind_eq_some_iff] at hs
    obtain ⟨p₁, hp₁, hs⟩ := hs
    obtain ⟨q₁, hq₁, h₁⟩ := h.modify hC hp₁
    obtain ⟨qs', hqs', h'⟩ := ih h₁ hCs hs
    exact ⟨qs', by rw [List.foldlM_cons, hq₁]; exact hqs', h'⟩

/-- A call depends on the pools of the types it names, and on no other. -/
theorem AgreeOn.step (h : AgreeOn T ps qs) (hop : ∀ C ∈ op.types, C ∈ T)
    {r : Pools Comp w × Ending} (hs : step ps op = some r) :
    ∃ r', Pools.step qs op = some r' ∧ r'.2 = r.2 ∧ AgreeOn T r.1 r'.1 := by
  cases op with
  | assign C et c => exact (h.tryAllocatePool C).build (hop C List.mem_cons_self) hs
  | replace C et c => exact h.build (hop C List.mem_cons_self) hs
  | assignOrReplace C et c => exact (h.tryAllocatePool C).build (hop C List.mem_cons_self) hs
  | delete Cs et =>
    obtain ⟨ps', hp, rfl⟩ := Option.map_eq_some_iff.mp hs
    have hCs : ∀ C ∈ Cs, C ∈ T := hop
    obtain ⟨qs', hq, h'⟩ := h.foldlM (f := fun _ p => p.delete et) hCs hp
    exact ⟨(qs', .returned), by rw [Pools.step, Pools.delete, hq]; rfl, rfl, h'⟩
  | reset Cs =>
    obtain ⟨ps', hp, rfl⟩ := Option.map_eq_some_iff.mp hs
    have hCs : ∀ C ∈ Cs, C ∈ T := hop
    obtain ⟨qs', hq, h'⟩ := h.foldlM (f := fun _ p => some p.reset) hCs hp
    exact ⟨(qs', .returned), by rw [Pools.step, Pools.reset, hq]; rfl, rfl, h'⟩
  | reserve C n =>
    obtain ⟨ps', hp, rfl⟩ := Option.map_eq_some_iff.mp hs
    obtain ⟨qs', hq, h'⟩ := (h.tryAllocatePool C).modify (hop C List.mem_cons_self) hp
    exact ⟨(qs', .returned), by rw [Pools.step, Pools.reserve, hq]; rfl, rfl, h'⟩

/-! ### A call changes the pools it names -/

theorem agreeOn_tryAllocatePool (hC : C ∉ T) : AgreeOn T ps (tryAllocatePool ps C) := by
  intro D hD
  rw [getPool_tryAllocatePool_ne]
  rintro rfl
  exact hC hD

theorem agreeOn_modify (hC : C ∉ T) {f : Pool (Comp C) w → Option (Pool (Comp C) w)}
    (hs : modify ps C f = some ps') : AgreeOn T ps ps' := by
  obtain ⟨p, p', -, -, rfl⟩ := modify_eq_some.mp hs
  intro D hD
  rw [getPool_setPool_ne]
  rintro rfl
  exact hC hD

/-- A call changes the pools of the types it names, and no other. -/
theorem agreeOn_frame (hop : ∀ C ∈ op.types, C ∉ T) {r : Pools Comp w × Ending}
    (hs : step ps op = some r) : AgreeOn T ps r.1 := by
  have hs' := step_fst ps op
  rw [hs, Option.map_some] at hs'
  have hcalls : ∀ c ∈ op.calls, c.1 ∉ T := by
    intro c hc
    cases op with
    | delete Cs et =>
      obtain ⟨C, hC, rfl⟩ := List.mem_map.mp hc
      exact hop C hC
    | reset Cs =>
      obtain ⟨C, hC, rfl⟩ := List.mem_map.mp hc
      exact hop C hC
    | assign C et c | replace C et c | assignOrReplace C et c | reserve C n =>
      obtain rfl := List.mem_singleton.mp hc
      exact hop C List.mem_cons_self
  have halloc : AgreeOn T ps (op.allocates.foldl tryAllocatePool ps) := by
    cases op with
    | assign C et c | assignOrReplace C et c | reserve C n =>
      exact agreeOn_tryAllocatePool (hop C List.mem_cons_self)
    | replace _ _ _ | delete _ _ | reset _ => exact AgreeOn.refl T ps
  exact callAll_invariant (I := fun qs => AgreeOn T ps qs)
    (fun c hc _ _ hI hq => hI.trans (agreeOn_modify (hcalls c hc) hq)) halloc hs'.symm

/-! ### The exchange -/

/-- Two calls about different types, made in the other order, end alike and
leave the same pools. -/
theorem exchange (hab : ∀ C ∈ a.types, C ∉ b.types) {r₁ r₂ : Pools Comp w × Ending}
    (ha : step ps a = some r₁) (hb : step r₁.1 b = some r₂) :
    ∃ q₁ q₂, step ps b = some q₁ ∧ step q₁.1 a = some q₂ ∧ q₁.2 = r₂.2 ∧ q₂.2 = r₁.2 ∧
      AgreeOn Set.univ r₂.1 q₂.1 := by
  -- `b` finds its pools as they were before `a`
  have hba : ∀ C ∈ b.types, C ∉ {C | C ∈ a.types} := fun C hC hCa => hab C hCa hC
  have hfa : AgreeOn {C | C ∈ b.types} ps r₁.1 := agreeOn_frame hab ha
  obtain ⟨q₁, hq₁, hend₁, hb'⟩ := hfa.symm.step (fun C hC => hC) hb
  -- and `a` finds its own as they were before `b`
  have hfb : AgreeOn {C | C ∈ a.types} ps q₁.1 := agreeOn_frame hba hq₁
  obtain ⟨q₂, hq₂, hend₂, ha'⟩ := hfb.step (fun C hC => hC) ha
  refine ⟨q₁, q₂, hq₁, hq₂, hend₁, hend₂, fun C _ => ?_⟩
  by_cases hCa : C ∈ a.types
  · -- a type of `a`: the second call of the first order leaves it alone
    exact (agreeOn_frame hba hb C hCa).symm.trans (ha' C hCa)
  · by_cases hCb : C ∈ b.types
    · exact (hb' C hCb).trans (agreeOn_frame hab hq₂ C hCb)
    · -- a type of neither
      have hne : ∀ {l : List κ}, C ∉ l → ∀ D ∈ l, D ∉ ({C} : Set κ) := by
        rintro l hl D hD rfl
        exact hl hD
      have hC : C ∈ ({C} : Set κ) := rfl
      exact ((agreeOn_frame (hne hCa) ha C hC).trans (agreeOn_frame (hne hCb) hb C hC)).symm.trans
        ((agreeOn_frame (hne hCb) hq₁ C hC).trans (agreeOn_frame (hne hCa) hq₂ C hC))

theorem AgreeOn.owns (h : AgreeOn T ps qs) (hC : C ∈ T) {e : BitVec w} :
    Owns ps C e ↔ Owns qs C e := by
  rw [Owns, Owns, h C hC]

theorem AgreeOn.slots (h : AgreeOn T ps qs) (hC : C ∈ T) : slots ps C = Pools.slots qs C := by
  rw [Pools.slots, Pools.slots, h C hC]

/-- `Destroy` treats each record by itself. -/
theorem AgreeOn.destroy (h : AgreeOn Set.univ ps qs) (hps : Sound ps) (hqs : Sound qs)
    (hs : destroy ps et = some ps') :
    ∃ qs', Pools.destroy qs et = some qs' ∧ AgreeOn Set.univ ps' qs' := by
  obtain ⟨rs, hrs, hkeys, hget⟩ := destroy_eq hps et
  obtain rfl := Option.some.inj (hrs.symm.trans hs)
  obtain ⟨qs', hqs', hkeys', hget'⟩ := destroy_eq hqs et
  refine ⟨qs', hqs', fun C _ => ?_⟩
  rcases hC : getPool ps C with - | p
  · -- no record of the type, before or after
    have hnone : ∀ {xs ys : Pools Comp w}, List.keys ys = List.keys xs →
        getPool xs C = none → getPool ys C = none := by
      intro xs ys hk hx
      rw [← Option.not_isSome_iff_eq_none, Option.isSome_iff_exists, ← mem_keys_iff, hk,
        mem_keys_iff, hx]
      simp
    rw [hnone hkeys hC, hnone hkeys' ((h C trivial).symm.trans hC)]
  · obtain ⟨p', hdel, hp'⟩ := hget C p hC
    obtain ⟨q', hdel', hq'⟩ := hget' C p ((h C trivial).symm.trans hC)
    rw [hp', hq', ← hdel, ← hdel']

end Pools

/-! ### A question depends on the types it names -/

/-- The types a question names. -/
def EntityManager.Query.types {κ : Type} {w : ℕ} : Query κ w → List κ
  | .get Cs _ | .has Cs _ | .sizeOf Cs | .isEmptyOf Cs | .forEachOf Cs => Cs
  | .exists_ _ | .size | .isEmpty | .forEach => []

namespace World

open EntityManager (Query Answer)

variable {κ : Type} {Comp : κ → Type} {w : ℕ} {V W : World Comp w} {Cs : List κ}

theorem getAll_congr (h : ∀ C ∈ Cs, V.pools C = W.pools C) (et : BitVec w) :
    V.getAll Cs et = W.getAll Cs et :=
  Collect.mapM_congr fun C hC => by rw [get, get, h C hC]

theorem filterGet_congr (h : ∀ C ∈ Cs, V.pools C = W.pools C) (et : BitVec w) :
    V.filterGet Cs et = W.filterGet Cs et :=
  Collect.mapM_congr fun C hC => by rw [get, get, h C hC]

theorem filterHas_congr (h : ∀ C ∈ Cs, V.pools C = W.pools C) (et : BitVec w) :
    V.filterHas Cs et = W.filterHas Cs et := by
  induction Cs with
  | nil => rfl
  | cons C Cs ih =>
    obtain ⟨hC, hCs⟩ := List.forall_mem_cons.mp h
    rw [filterHas, filterHas, hC, ih hCs]

theorem owns_congr (h : ∀ C ∈ Cs, V.pools C = W.pools C) (e : BitVec w) :
    (∀ C ∈ Cs, V.Owns C e) ↔ ∀ C ∈ Cs, W.Owns C e :=
  forall₂_congr fun C hC => by rw [Owns, Owns, h C hC]

theorem sizeOf_congr (hlive : V.live = W.live) (h : ∀ C ∈ Cs, V.pools C = W.pools C) :
    V.sizeOf Cs = W.sizeOf Cs := by
  have howners : V.owners Cs = W.owners Cs := by
    rw [owners, owners, hlive]
    exact List.filter_congr fun e _ => decide_eq_decide.mpr (owns_congr h e)
  cases Cs with
  | nil => rw [sizeOf, sizeOf, hlive]
  | cons C Cs => rw [sizeOf, sizeOf, howners] <;> simp

/-- The answer to a question depends on who is live, and on the slots of the
types the question names. -/
theorem ask_congr (hlive : V.live = W.live) (q : Query κ w)
    (h : ∀ C ∈ q.types, V.pools C = W.pools C) : V.ask q = W.ask q := by
  cases q with
  | get Cs et => exact congrArg (Option.map _) (getAll_congr h et)
  | has Cs et =>
    refine congrArg (fun b => some (Answer.bool b)) ?_
    exact decide_eq_decide.mpr (owns_congr h et)
  | sizeOf Cs => exact congrArg (Option.map _) (sizeOf_congr hlive h)
  | isEmptyOf Cs => exact congrArg (Option.map _) (sizeOf_congr hlive h)
  | forEachOf Cs =>
    refine congrArg (Option.map _) ?_
    rw [forEachOf, forEachOf, hlive]
    congr 1
    funext calls et
    have hCs : ∀ C ∈ Cs, V.pools C = W.pools C := h
    rw [filterHas_congr hCs, filterGet_congr hCs]
  | exists_ et | size | isEmpty | forEach => simp only [ask, hlive]

end World

end Indie
