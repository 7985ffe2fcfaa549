/-
Indie/InPlace.lean

`ForEach<Cs...>` with a function that writes to the components it is given.

The function is handed references to components, cells of the `_components` of
the pools.  An `Update` is such a function: what it leaves in a component may
depend on everything it has been given so far, this call included.

Different owners have different indices, so a round works on the components of
one entity (`Pools.update_eq`) and later rounds find the others as they were.
The loop, which reads and writes in turns, is therefore one that first reads the
components of all owners and then writes (`rounds_eq`).

Main result: `ForEach` is a simultaneous update of the owners (`forEach_update`).
-/
import Indie.EntityThrow
import Indie.Counting

namespace Indie

/-! ### One pool -/

namespace Pool

variable {α : Type} {w : ℕ} {p : Pool α w} {et e : BitVec w} {c : α}

/-- Work on the component a reference to `*Get(et)` refers to. -/
def update (p : Pool α w) (et : BitVec w) (f : α → α) : Option (Pool α w) := do
  let i ← p.base.indexOf et
  let c ← p.components.data[i.toNat]?
  let components ← p.components.set i.toNat (f c)
  return { p with components }

/-- An entity with a component has an index, and the component is there. -/
theorem get_eq_some_some (h : p.base.WF) (hc : p.get et = some (some c)) :
    ∃ i : ℕ, p.base.range[i]? = some et ∧ p.components.data[i]? = some c := by
  by_cases he : et ∈ p.base.range
  · obtain ⟨i, hi⟩ := List.getElem?_of_mem he
    rw [get_of_getElem? h hi, Option.map_eq_some_iff] at hc
    obtain ⟨c', hc', heq⟩ := hc
    obtain rfl := Option.some.inj heq
    exact ⟨i, hi, hc'⟩
  · rw [get_of_notMem h he] at hc
    cases hc

/-- Only the component of the entity changes. -/
theorem update_eq (h : p.base.WF) (hc : p.get et = some (some c)) (f : α → α) :
    ∃ p', p.update et f = some p' ∧ p'.base = p.base ∧
      p'.get et = some (some (f c)) ∧ ∀ e, e ≠ et → p'.get e = p.get e := by
  obtain ⟨i, hi, hci⟩ := get_eq_some_some h hc
  obtain ⟨hlt, -⟩ := List.getElem?_eq_some_iff.mp hci
  obtain ⟨v, hv, hdata⟩ := Vec.set_of_lt hlt (f c)
  obtain ⟨q, hq⟩ : ∃ q : Pool α w, q = { p with components := v } := ⟨_, rfl⟩
  have hqb : q.base = p.base := hq ▸ rfl
  have hqd : q.components.data = p.components.data.set i (f c) := by rw [hq, ← hdata]
  have hwf : q.base.WF := hqb ▸ h
  refine ⟨q, ?_, hqb, ?_, fun e hne => ?_⟩
  · simp only [update, h.indexOf_eq hi, h.toNat_ofNat hi, hci, hv, Option.bind_eq_bind,
      Option.bind_some, Option.pure_def, hq]
  · rw [get_of_getElem? hwf (hqb ▸ hi), hqd, List.getElem?_set_self hlt, Option.map_some]
  · by_cases he : e ∈ p.base.range
    · obtain ⟨j, hj⟩ := List.getElem?_of_mem he
      -- another entity has another index
      have hij : i ≠ j := by
        rintro rfl
        exact hne (Option.some.inj (hj.symm.trans hi))
      rw [get_of_getElem? hwf (hqb ▸ hj), get_of_getElem? h hj, hqd, List.getElem?_set_ne hij]
    · rw [get_of_notMem h he, get_of_notMem hwf (hqb ▸ he)]

end Pool

/-! ### The pool vector -/

namespace Pools

variable {κ : Type} [DecidableEq κ] {Comp : κ → Type} {w : ℕ}
variable {ps qs rs : Pools Comp w} {C : κ} {Cs : List κ} {et e : BitVec w}

/-- Work on the components of one entity, through the references of a filter. -/
def update (ps : Pools Comp w) (Cs : List κ) (et : BitVec w) (f : ∀ C, Comp C → Comp C) :
    Option (Pools Comp w) :=
  Cs.foldlM (fun ps C => modify ps C (·.update et (f C))) ps

/-- The sets of the pools are the same, whatever the components. -/
def SameSets (ps qs : Pools Comp w) : Prop :=
  ∀ C, (getPool qs C).map Pool.base = (getPool ps C).map Pool.base

theorem SameSets.trans (h : SameSets ps qs) (h' : SameSets qs rs) : SameSets ps rs :=
  fun C => (h' C).trans (h C)

theorem SameSets.sound (h : SameSets ps qs) (hps : Sound ps) : Sound qs := by
  intro C q hq
  have hC := h C
  rw [hq, Option.map_some, eq_comm, Option.map_eq_some_iff] at hC
  obtain ⟨p, hp, heq⟩ := hC
  exact heq ▸ hps C p hp

theorem SameSets.isSome (h : SameSets ps qs) (C : κ) :
    (getPool qs C).isSome = (getPool ps C).isSome := by
  rw [← Option.isSome_map, h C, Option.isSome_map]

theorem SameSets.owns (h : SameSets ps qs) : Owns qs C e ↔ Owns ps C e := by
  have hown : ∀ rs : Pools Comp w,
      Owns rs C e ↔ ∃ b, (getPool rs C).map Pool.base = some b ∧ e ∈ b.range := by
    intro rs
    simp [Owns]
  rw [hown, hown, h C]

/-- One reference. -/
theorem modify_update (h : Sound ps) {c : Comp C} (hc : get ps C et = some (some c))
    (f : Comp C → Comp C) :
    ∃ qs, modify ps C (·.update et f) = some qs ∧ SameSets ps qs ∧
      get qs C et = some (some (f c)) ∧
      ∀ D e, D ≠ C ∨ e ≠ et → get qs D e = get ps D e := by
  obtain ⟨p, hp, hpc⟩ := Option.bind_eq_some_iff.mp hc
  obtain ⟨p', hs, hbase, hself, hother⟩ := Pool.update_eq (h C p hp) hpc f
  have hm : modify ps C (·.update et f) = some (setPool ps C p') :=
    modify_eq_some.mpr ⟨p, p', hp, hs, rfl⟩
  refine ⟨_, hm, fun D => ?_, ?_, fun D e hDe => ?_⟩
  · by_cases hD : D = C
    · subst hD
      rw [getPool_setPool_self hp, hp, Option.map_some, Option.map_some, hbase]
    · rw [getPool_setPool_ne hD]
  · rw [get, getPool_setPool_self hp]
    exact hself
  · by_cases hD : D = C
    · subst hD
      have hne : e ≠ et := hDe.resolve_left fun hno => hno rfl
      rw [get, get, getPool_setPool_self hp, hp]
      exact hother e hne
    · rw [get, get, getPool_setPool_ne hD]

/-- The references of a filter: the components of the entity change, each by
itself, and no others. -/
theorem update_eq (h : Sound ps) (hCs : Cs.Nodup)
    (hget : ∀ C ∈ Cs, ∃ c, get ps C et = some (some c)) (f : ∀ C, Comp C → Comp C) :
    ∃ qs, update ps Cs et f = some qs ∧ SameSets ps qs ∧
      (∀ C ∈ Cs, get qs C et = (get ps C et).map (Option.map (f C))) ∧
      ∀ C e, C ∉ Cs ∨ e ≠ et → get qs C e = get ps C e := by
  induction Cs generalizing ps with
  | nil => exact ⟨ps, rfl, fun _ => rfl, List.forall_mem_nil _, fun _ _ _ => rfl⟩
  | cons C Cs ih =>
    obtain ⟨hno, hCs⟩ := List.nodup_cons.mp hCs
    obtain ⟨⟨c, hc⟩, hget⟩ := List.forall_mem_cons.mp hget
    obtain ⟨rs, hr, hsets, hself, hother⟩ := modify_update h hc (f C)
    -- the other types are as they were
    have hrest : ∀ D ∈ Cs, get rs D et = get ps D et := fun D hD =>
      hother D et (.inl fun heq => hno (heq ▸ hD))
    obtain ⟨qs, hq, hsets', hself', hother'⟩ := ih (hsets.sound h) hCs fun D hD => by
      rw [hrest D hD]
      exact hget D hD
    refine ⟨qs, ?_, hsets.trans hsets', List.forall_mem_cons.mpr ⟨?_, fun D hD => ?_⟩,
      fun D e hDe => ?_⟩
    · rw [update, List.foldlM_cons, hr]
      exact hq
    · rw [hother' C et (.inl hno), hself, hc]
      rfl
    · rw [hself' D hD, hrest D hD]
    · rw [List.mem_cons, not_or] at hDe
      rw [hother' D e (hDe.imp_left And.right), hother D e (hDe.imp_left And.left)]

/-! ### The rounds -/

/-- A call of the function: the entity and the components it is given. -/
abbrev Given (Comp : κ → Type) (w : ℕ) := BitVec w × List (Σ C, Comp C)

/-- What a function for `ForEach<Cs...>` leaves in a component, by the calls made
so far, the last of them the one at hand. -/
abbrev Update (Comp : κ → Type) (w : ℕ) := List (Given Comp w) → ∀ C, Comp C → Comp C

/-- One round: `func` works on what it is given, through the references. -/
def visit (Cs : List κ) (func : Update Comp w) : BitVec w → Pools Comp w × List (Given Comp w) →
    Option (Pools Comp w × List (Given Comp w)) :=
  EntityManager.forEachRound (fun s => s.1.filterHas Cs) (fun s => s.1.filterGet Cs)
    fun et comps s => do
      let calls := s.2 ++ [(et, comps)]
      return (← s.1.update Cs et (func calls), calls)

theorem visit_eq (Cs : List κ) (func : Update Comp w) (et : BitVec w)
    (s : Pools Comp w × List (Given Comp w)) :
    visit Cs func et s = do
      if ← s.1.filterHas Cs et then
        let calls := s.2 ++ [(et, ← s.1.filterGet Cs et)]
        return (← s.1.update Cs et (func calls), calls)
      else return s := rfl

/-- Write to the components of the entities of `calls`, one after the other,
`seen` having been given before. -/
def writeAll (Cs : List κ) (func : Update Comp w) :
    Pools Comp w → List (Given Comp w) → List (Given Comp w) → Option (Pools Comp w)
  | ps, _, [] => some ps
  | ps, seen, v :: calls => do
    writeAll Cs func (← ps.update Cs v.1 (func (seen ++ [v]))) (seen ++ [v]) calls

/-- Read the components of some entities. -/
def readAll (ps : Pools Comp w) (Cs : List κ) (es : List (BitVec w)) :
    Option (List (Given Comp w)) :=
  es.mapM fun e => (ps.filterGet Cs e).map (e, ·)

/-- The references of a filter refer to components that are there. -/
theorem Sound.get_of_filterGet (h : Sound ps) (ho : ∀ C ∈ Cs, Owns ps C e)
    {l : List (Σ C, Comp C)} (hl : filterGet ps Cs e = some l) :
    ∀ C ∈ Cs, ∃ c, get ps C e = some (some c) := fun C hC =>
  (h.stored_iff (ho C hC)).mp ((h.filterGet_defined_iff ho).mp ⟨l, hl⟩ C hC)

variable {func : Update Comp w} {rest : List (BitVec w)}

/-- Reading and writing in turns is reading first and then writing. -/
theorem rounds_eq (h : Sound ps) (hCs : Cs.Nodup) (hreg : ∀ C ∈ Cs, (getPool ps C).isSome)
    (hrest : rest.Nodup) (seen : List (Given Comp w)) :
    rest.foldlM (fun s et => visit Cs func et s) (ps, seen) =
      (readAll ps Cs (rest.filter fun e => decide (∀ C ∈ Cs, Owns ps C e))).bind fun calls =>
        (writeAll Cs func ps seen calls).map fun qs => (qs, seen ++ calls) := by
  induction rest generalizing ps seen with
  | nil => simp [readAll, writeAll]
  | cons et rest ih =>
    obtain ⟨hno, hrest⟩ := List.nodup_cons.mp hrest
    rw [List.foldlM_cons, visit_eq, filterHas_eq hreg, has_eq h]
    by_cases ho : ∀ C ∈ Cs, Owns ps C et
    · rw [decide_eq_true ho, List.filter_cons_of_pos (by simpa using ho), readAll, List.mapM_cons]
      rcases hget : filterGet ps Cs et with - | comps
      · rfl
      · obtain ⟨rs, hr, hsets, -, hother⟩ := update_eq h hCs (h.get_of_filterGet ho hget)
          (func (seen ++ [(et, comps)]))
        -- the writes of this round are seen by no later one
        have hread : readAll rs Cs (rest.filter fun e => decide (∀ C ∈ Cs, Owns rs C e)) =
            readAll ps Cs (rest.filter fun e => decide (∀ C ∈ Cs, Owns ps C e)) := by
          simp only [hsets.owns]
          refine Collect.mapM_congr fun e he => ?_
          have hne : e ≠ et := fun heq => hno (heq ▸ List.mem_of_mem_filter he)
          rw [filterGet_congr fun C _ => hother C e (.inr hne)]
        have hrest' := ih (hsets.sound h) (fun C hC => by rw [hsets.isSome, hreg C hC]) hrest
          (seen ++ [(et, comps)])
        rw [hread] at hrest'
        simp only [hr, Option.bind_eq_bind, Option.bind_some, if_true, Option.pure_def,
          Option.map_some, hrest', Option.bind_assoc]
        refine Option.bind_congr fun calls _ => ?_
        rw [writeAll, hr, List.append_assoc]
        rfl
    · rw [decide_eq_false ho, List.filter_cons_of_neg (by simpa using ho)]
      exact ih h hreg hrest seen

/-- Each write finds the component as it was read, since nobody is written to
twice. -/
theorem writeAll_eq (func : Update Comp w) (h : Sound ps) (hCs : Cs.Nodup)
    {calls : List (Given Comp w)} (hcalls : (calls.map Prod.fst).Nodup)
    (hget : ∀ v ∈ calls, ∀ C ∈ Cs, ∃ c, get ps C v.1 = some (some c))
    (seen : List (Given Comp w)) :
    ∃ qs, writeAll Cs func ps seen calls = some qs ∧ SameSets ps qs ∧
      (∀ C e, C ∉ Cs ∨ e ∉ calls.map Prod.fst → get qs C e = get ps C e) ∧
      ∀ before v after, calls = before ++ v :: after → ∀ C ∈ Cs,
        get qs C v.1 = (get ps C v.1).map (Option.map (func (seen ++ before ++ [v]) C)) := by
  induction calls generalizing ps seen with
  | nil =>
    exact ⟨ps, rfl, fun _ => rfl, fun _ _ _ => rfl, fun before v after heq => by simp at heq⟩
  | cons u calls ih =>
    obtain ⟨hno, hcalls⟩ := List.nodup_cons.mp hcalls
    obtain ⟨hu, hget⟩ := List.forall_mem_cons.mp hget
    obtain ⟨rs, hr, hsets, hself, hother⟩ := update_eq h hCs hu (func (seen ++ [u]))
    -- the components of the others are as they were read
    have hrest : ∀ v ∈ calls, ∀ C, get rs C v.1 = get ps C v.1 := fun v hv C =>
      hother C v.1 (.inr fun heq => hno (heq ▸ List.mem_map_of_mem hv))
    obtain ⟨qs, hq, hsets', hother', hwrite⟩ := ih (hsets.sound h) hcalls
      (fun v hv C hC => by
        rw [hrest v hv C]
        exact hget v hv C hC) (seen ++ [u])
    refine ⟨qs, ?_, hsets.trans hsets', fun C e hCe => ?_, fun before v after heq C hC => ?_⟩
    · rw [writeAll, hr]
      exact hq
    · rw [List.map_cons, List.mem_cons, not_or] at hCe
      rw [hother' C e (hCe.imp_right And.right), hother C e (hCe.imp_right And.left)]
    · rcases before with - | ⟨u', before⟩
      · obtain ⟨rfl, rfl⟩ := List.cons.inj heq
        rw [hother' C u.1 (.inr hno), hself C hC, List.append_nil]
      · obtain ⟨rfl, rfl⟩ := List.cons.inj heq
        rw [hwrite before v after rfl C hC, hrest v (by simp), List.append_assoc seen]
        rfl

end Pools

namespace EntityManager

variable {κ : Type} [DecidableEq κ] {Comp : κ → Type} {w : ℕ}
variable {s : State Comp w} {em : EntityManager Comp w} {Cs : List κ}

open Pools (Given Update)

/-! ### The loop -/

/-- `ForEach<Cs...>(func)` with a function that writes to what it is given: the
manager afterwards, and the calls made. -/
def forEachUpdate (em : EntityManager Comp w) (Cs : List κ) (func : Update Comp w) :
    Option (EntityManager Comp w × List (Given Comp w)) :=
  SparseSet.rangeFor (fun s => s.1.entities) (fun et s => do
    let (pools, calls) ← Pools.visit Cs func et (s.1.pools, s.2)
    return ({ s.1 with pools }, calls)) (em, [])

/-- The loop works on the pools. -/
theorem Tidy.forEachUpdate_eq (h : Tidy em) (Cs : List κ) (func : Update Comp w) :
    em.forEachUpdate Cs func =
      (em.entities.range.foldlM (fun s et => Pools.visit Cs func et s) (em.pools, [])).map
        fun r => ({ em with pools := r.1 }, r.2) := by
  have hrounds : ∀ (l : List (BitVec w)) (ps : Pools Comp w) (seen : List (Given Comp w)),
      l.foldlM (fun s et => do
          let (pools, calls) ← Pools.visit Cs func et (s.1.pools, s.2)
          return ({ s.1 with pools }, calls))
            (({ em with pools := ps } : EntityManager Comp w), seen) =
        (l.foldlM (fun s et => Pools.visit Cs func et s) (ps, seen)).map
          fun r => ({ em with pools := r.1 }, r.2) := by
    intro l
    induction l with
    | nil => exact fun ps seen => rfl
    | cons et l ih =>
      intro ps seen
      rw [List.foldlM_cons, List.foldlM_cons]
      rcases Pools.visit Cs func et (ps, seen) with - | ⟨qs, calls⟩
      · rfl
      · exact ih qs calls
  refine .trans (SparseSet.rangeFor_eq_foldlM (a := (em, [])) (fun et a b hb => .inl ?_)
    h.entities) (hrounds em.entities.range em.pools [])
  obtain ⟨r, -, hr⟩ := Option.bind_eq_some_iff.mp hb
  exact Option.some.inj hr ▸ rfl

/-- **`ForEach` is a simultaneous update.**  For types that are registered and all
different: the loop reads the components of one entity, hands them to the function
and goes on to the next with what it has written.  Still every call is given the components its entity had before the
loop, in the order of `_entities`; the owners of `Cs` end up with what the
function has left in their components, everybody else with what they had; and
nothing is registered, unregistered, created or destroyed.  The loop is defined
exactly where `ForEach` with a function that writes nothing is. -/
theorem forEach_update (hs : Reachable s) (hCs : Cs.Nodup)
    (hreg : ∀ C ∈ Cs, (s.em.pools.getPool C).isSome) (func : Update Comp w) :
    ((s.em.forEachUpdate Cs func).isSome ↔ (s.em.forEachOf Cs).isSome) ∧
    ∀ em' calls, s.em.forEachUpdate Cs func = some (em', calls) →
      s.em.forEachOf Cs = some calls ∧ calls.map Prod.fst = s.em.owners Cs ∧
      em'.entities = s.em.entities ∧ em'.deletedEt = s.em.deletedEt ∧
      (∀ C e, em'.has [C] e = s.em.has [C] e) ∧
      (∀ C e, C ∉ Cs ∨ e ∉ s.em.owners Cs → em'.pools.get C e = s.em.pools.get C e) ∧
      ∀ before v after, calls = before ++ v :: after → ∀ C ∈ Cs, ∃ c,
        s.em.pools.get C v.1 = some (some c) ∧
        em'.pools.get C v.1 = some (some (func (before ++ [v]) C c)) := by
  have h := hs.inv.tidy
  -- the loop reads first, then writes
  have hloop : s.em.forEachUpdate Cs func = (s.em.forEachOf Cs).bind fun calls =>
      (Pools.writeAll Cs func s.em.pools [] calls).map
        fun ps => ({ s.em with pools := ps }, calls) := by
    rw [h.forEachUpdate_eq, Pools.rounds_eq h.pools hCs hreg h.entities.range_nodup,
      h.forEachOf_eq hreg, Option.map_bind]
    refine Option.bind_congr fun calls _ => ?_
    rw [Function.comp_apply, Option.map_map]
    rfl
  have hwrite : ∀ calls, s.em.forEachOf Cs = some calls →
      calls.map Prod.fst = s.em.owners Cs ∧
        (∀ v ∈ calls, ∀ C ∈ Cs, ∃ c, s.em.pools.get C v.1 = some (some c)) := by
    intro calls hcalls
    rw [h.forEachOf_eq hreg, Collect.mapM_tagged_eq_some] at hcalls
    refine ⟨hcalls.1, fun v hv C hC => ?_⟩
    have hv' : v.1 ∈ s.em.owners Cs := hcalls.1 ▸ List.mem_map_of_mem hv
    exact h.pools.get_of_filterGet (mem_owners.mp hv').2 (hcalls.2 v hv) C hC
  have hspec : ∀ calls, s.em.forEachOf Cs = some calls → _ := fun calls hcalls =>
    Pools.writeAll_eq func h.pools hCs
      ((hwrite calls hcalls).1 ▸ h.nodup_owners Cs) (hwrite calls hcalls).2 []
  constructor
  · rw [hloop]
    rcases hcalls : s.em.forEachOf Cs with - | calls
    · rfl
    · obtain ⟨ps, hps, -⟩ := hspec calls hcalls
      simp [hps]
  · intro em' calls hs'
    rw [hloop, Option.bind_eq_some_iff] at hs'
    obtain ⟨calls', hcalls, hs'⟩ := hs'
    obtain ⟨ps, hps, hsets, hother, hself⟩ := hspec calls' hcalls
    rw [hps, Option.map_some, Option.some.injEq, Prod.mk.injEq] at hs'
    obtain ⟨rfl, rfl⟩ := hs'
    obtain ⟨hmap, hget⟩ := hwrite calls' hcalls
    refine ⟨hcalls, hmap, rfl, rfl, fun C e => ?_, fun C e hCe => hother C e (hmap ▸ hCe),
      fun before v after heq C hC => ?_⟩
    · show ps.has [C] e = s.em.pools.has [C] e
      rw [Pools.has_eq h.pools, Pools.has_eq (hsets.sound h.pools)]
      simp only [hsets.owns]
    · obtain ⟨c, hc⟩ := hget v (heq ▸ by simp) C hC
      refine ⟨c, hc, ?_⟩
      rw [hself before v after heq C hC, hc]
      rfl

/-- Two owners among three entities; the function adds the number of the call. -/
theorem forEach_update_pair :
    let ops : List (Op (fun _ : Unit => ℕ) 8) :=
      [.create, .create, .create, .onPools (.assign () 2 (some 450)),
        .onPools (.assign () 0 (some 7))]
    let func : Update (fun _ : Unit => ℕ) 8 := fun calls _ c => c + calls.length
    ∃ s em' calls, Machine.run next (State.init 0) ops = some s ∧
      s.em.forEachUpdate [()] func = some (em', calls) ∧ calls.map Prod.fst = [0, 2] ∧
      s.em.forEachOf [()] = some calls ∧ em'.pools.get () 1 = s.em.pools.get () 1 := by
  intro ops func
  obtain ⟨s, hs⟩ : ∃ s, Machine.run next (State.init 0) ops = some s :=
    Option.isSome_iff_exists.mp (by decide)
  have howners : (Machine.run next (State.init 0) ops).map (fun s => s.em.owners [()]) =
      some [0, 2] := by decide
  have hpool : (Machine.run next (State.init 0) ops).map
      (fun s => (s.em.pools.getPool ()).isSome && (s.em.forEachOf [()]).isSome) = some true := by
    decide
  rw [hs, Option.map_some, Option.some.injEq] at howners hpool
  obtain ⟨hreg, hloop⟩ := Bool.and_eq_true_iff.mp hpool
  obtain ⟨hdef, hspec⟩ := forEach_update (s := s) ⟨0, ops, by decide, hs⟩
    (List.nodup_singleton ()) (fun _ _ => hreg) func
  obtain ⟨⟨em', calls⟩, hupd⟩ := Option.isSome_iff_exists.mp (hdef.mpr hloop)
  obtain ⟨hcalls, hmap, -, -, -, hother, -⟩ := hspec em' calls hupd
  exact ⟨s, em', calls, hs, hupd, hmap.trans howners, hcalls,
    hother () 1 (.inr (by simp [howners]))⟩

end EntityManager

end Indie
