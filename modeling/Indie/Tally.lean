/-
Indie/Tally.lean

Components are not given back.

`Delete`, `Destroy` and `Reset()` take entities out of the sets of the pools and leave
the vectors of components alone; only `Reset<C>` clears one.  `Assign<C>` appends a
component in any case, also for an entity that has one already, and
`AssignOrReplace<C>` does for an entity that has none.  So the number of components
held for `C` is the number that these calls have built since the last `Reset<C>`,
whoever owns them, and every respawn adds one (`components_pile_up`).

A constructor that throws in such a call builds no component, but its entity is
registered.  The owners of `C` are therefore at most the components and the throws
together, and where none of these constructors has thrown since the last `Reset<C>`,
no position of an owner is outside the vector, whatever the other types did.
-/
import Indie.WorldRefine

namespace Indie

/-- How often a component was built at the end of the vector of a type, and how often
its constructor threw, since the type was last reset: by every `Assign`, and by
`AssignOrReplace` for an entity that owned none. -/
structure Tally where
  built : ℕ
  thrown : ℕ

namespace Tally

def zero : Tally := ⟨0, 0⟩

/-- A component was to be built at the end of the vector. -/
def enter {α : Type} (l : Tally) (c : Ctor α) : Tally :=
  if c.isSome then { l with built := l.built + 1 } else { l with thrown := l.thrown + 1 }

end Tally

/-! ### One type -/

namespace Slots

variable {α : Type} {w : ℕ} {s : Slots α w} {l : Tally} {et : BitVec w} {c : Ctor α}

/-- The row is what was built, and the owners are not more than the tally has. -/
structure Balanced (s : Slots α w) (l : Tally) : Prop where
  built : s.cells.length = l.built
  owners : s.owners.length ≤ l.built + l.thrown

theorem balanced_empty : Balanced (empty : Slots α w) .zero := ⟨rfl, Nat.zero_le _⟩

theorem Balanced.assign (h : Balanced s l) (et : BitVec w) (c : Ctor α) :
    Balanced (s.assign et c) (l.enter c) := by
  have hadd : (SwapList.add s.owners et).length ≤ s.owners.length + 1 := by
    rw [SwapList.add]
    split
    · exact Nat.le_succ _
    · exact List.length_append.le
  have howners := h.owners
  cases c with
  | none =>
    refine ⟨?_, ?_⟩
    · show (s.cells ++ []).length = l.built
      rw [List.append_nil, h.built]
    · show (SwapList.add s.owners et).length ≤ l.built + (l.thrown + 1)
      omega
  | some c =>
    refine ⟨?_, ?_⟩
    · show (s.cells ++ [c]).length = l.built + 1
      rw [List.length_append, h.built]
      rfl
    · show (SwapList.add s.owners et).length ≤ l.built + 1 + l.thrown
      omega

theorem Balanced.replace (h : Balanced s l) (et : BitVec w) (c : Ctor α) :
    Balanced (s.replace et c) l := by
  cases c with
  | none => exact h
  | some c => exact ⟨List.length_set.trans h.built, h.owners⟩

theorem Balanced.delete (h : Balanced s l) (et : BitVec w) : Balanced (s.delete et) l := by
  refine ⟨h.built, .trans ?_ h.owners⟩
  show (SwapList.remove s.owners et).length ≤ s.owners.length
  rw [SwapList.remove]
  split
  · rw [SwapList.length_swapRemove]
    exact Nat.sub_le _ _
  · exact le_rfl

/-- Without a throw every owner has its component. -/
theorem Balanced.get_defined (h : Balanced s l) (hthrown : l.thrown = 0) (et : BitVec w) :
    ∃ c, s.get et = some c := by
  rw [get]
  split
  · rename_i he
    have hlt : s.owners.idxOf et < s.cells.length := by
      have hpos := List.idxOf_lt_length_of_mem (List.contains_iff_mem.mp he)
      have howners := h.owners
      have hbuilt := h.built
      omega
    exact ⟨_, by rw [List.getElem?_eq_getElem hlt]; rfl⟩
  · exact ⟨none, rfl⟩

end Slots

/-! ### The world -/

namespace World

variable {κ : Type} [DecidableEq κ] {Comp : κ → Type} {w : ℕ} {W : World Comp w} {C : κ}
  {l : Tally}

open EntityManager (Op Ret)

/-- The slots of a type, empty where it is not registered. -/
def slotsOf (W : World Comp w) (C : κ) : Slots (Comp C) w := (W.pools C).getD .empty

/-- The tally of `C` after a call. -/
def note (W : World Comp w) (C : κ) (l : Tally) : Op Comp w → Tally
  | .onPools (.assign D _ c) => if D = C then l.enter c else l
  | .onPools (.assignOrReplace D et c) => if D = C ∧ ¬ W.Owns D et then l.enter c else l
  | .onPools (.reset Cs) => if Cs.contains C then .zero else l
  | .onPools (.replace _ _ _) | .onPools (.delete _ _) | .onPools (.reserve _ _) => l
  | .create | .destroy _ | .destroyWith _ | .reset | .reserve _ => l

@[simp] theorem slotsOf_allocate (W : World Comp w) (C D : κ) :
    (W.allocate D).slotsOf C = W.slotsOf C := by
  show (Function.update W.pools D _ C).getD _ = _
  by_cases hC : C = D
  · subst hC
    rw [Function.update_self]
    rfl
  · rw [Function.update_of_ne hC]
    rfl

theorem slotsOf_modify_ne {D : κ} (h : C ≠ D) (f : Slots (Comp D) w → Slots (Comp D) w) :
    (W.modify D f).slotsOf C = W.slotsOf C := by
  show (Function.update W.pools D _ C).getD _ = _
  rw [Function.update_of_ne h]
  rfl

theorem slotsOf_modify_self (f : Slots (Comp C) w → Slots (Comp C) w) :
    (W.modify C f).slotsOf C = if (W.pools C).isSome then f (W.slotsOf C) else .empty := by
  show (Function.update W.pools C _ C).getD _ = if _ then f ((W.pools C).getD _) else _
  rw [Function.update_self]
  rcases W.pools C with - | s <;> rfl

theorem slotsOf_allocate_modify (f : Slots (Comp C) w → Slots (Comp C) w) :
    ((W.allocate C).modify C f).slotsOf C = f (W.slotsOf C) := by
  rw [slotsOf_modify_self, slotsOf_allocate, if_pos]
  show (Function.update W.pools C _ C).isSome
  rw [Function.update_self]
  rfl

omit [DecidableEq κ] in
theorem owns_iff_slotsOf {et : BitVec w} : W.Owns C et ↔ et ∈ (W.slotsOf C).owners := by
  rw [Owns, slotsOf]
  rcases W.pools C with - | s
  · exact iff_of_false (by rintro ⟨s, hs, -⟩; cases hs) List.not_mem_nil
  · exact ⟨fun ⟨t, ht, he⟩ => Option.some.inj ht ▸ he, fun he => ⟨s, rfl, he⟩⟩

omit [DecidableEq κ] in
theorem slotsOf_of_none (h : ¬ (W.pools C).isSome) : W.slotsOf C = .empty := by
  rw [slotsOf, Option.not_isSome_iff_eq_none.mp h]
  rfl

/-- A change of one type that keeps its balance. -/
theorem balanced_modify {D : κ} (h : (W.slotsOf C).Balanced l)
    {f : Slots (Comp D) w → Slots (Comp D) w}
    (hf : ∀ l s, Slots.Balanced s l → Slots.Balanced (f s) l) :
    ((W.modify D f).slotsOf C).Balanced l := by
  by_cases hC : C = D
  · subst hC
    rw [slotsOf_modify_self]
    split
    · exact hf l _ h
    · rename_i hnone
      exact slotsOf_of_none hnone ▸ h
  · rwa [slotsOf_modify_ne hC]

omit [DecidableEq κ] in
theorem balanced_destroyEt (h : (W.slotsOf C).Balanced l) (et : BitVec w) :
    ((W.destroyEt et).slotsOf C).Balanced l := by
  show Slots.Balanced (((W.pools C).map fun s => s.delete et).getD Slots.empty) l
  revert h
  rw [slotsOf]
  rcases W.pools C with - | s
  · exact fun h => h
  · exact fun h => Slots.Balanced.delete h et

omit [DecidableEq κ] in
theorem balanced_destroy (h : (W.slotsOf C).Balanced l) (ets : List (BitVec w)) :
    ((W.destroy ets).slotsOf C).Balanced l := by
  induction ets generalizing W with
  | nil => exact h
  | cons et ets ih => exact ih (balanced_destroyEt h et)

theorem slotsOf_reset (Cs : List κ) :
    ∀ W : World Comp w, (Cs.foldl (fun W D => W.modify D fun _ => .empty) W).slotsOf C =
      if Cs.contains C then .empty else W.slotsOf C := by
  induction Cs with
  | nil => exact fun _ => rfl
  | cons D Cs ih =>
    intro W
    rw [List.foldl_cons, ih, List.contains_cons]
    by_cases hC : C = D
    · subst hC
      rw [slotsOf_modify_self, beq_self_eq_true, Bool.true_or, if_pos rfl, ite_self, ite_self]
    · rw [slotsOf_modify_ne hC, beq_false_of_ne hC, Bool.false_or]

theorem balanced_onPools (h : (W.slotsOf C).Balanced l) (op : Pools.Op Comp w) :
    ((W.onPools op).slotsOf C).Balanced (W.note C l (.onPools op)) := by
  cases op with
  | assign D et c =>
    rw [note, onPools]
    by_cases hC : C = D
    · subst hC
      rw [if_pos rfl, slotsOf_allocate_modify]
      exact h.assign et c
    · rw [if_neg fun e => hC e.symm, slotsOf_modify_ne hC, slotsOf_allocate]
      exact h
  | replace D et c => exact balanced_modify h fun _ _ hs => hs.replace et c
  | assignOrReplace D et c =>
    rw [note, onPools]
    by_cases hC : C = D
    · subst hC
      rw [slotsOf_allocate_modify, Slots.assignOrReplace]
      split
      · rename_i he
        have hno : ¬ (C = C ∧ ¬ W.Owns C et) := fun hno =>
          hno.2 (owns_iff_slotsOf.mpr (List.contains_iff_mem.mp he))
        rw [if_neg hno]
        exact h.replace et c
      · rename_i he
        have hnew : C = C ∧ ¬ W.Owns C et :=
          ⟨rfl, fun ho => he (List.contains_iff_mem.mpr (owns_iff_slotsOf.mp ho))⟩
        rw [if_pos hnew]
        exact h.assign et c
    · have hno : ¬ (D = C ∧ ¬ W.Owns D et) := fun e => hC e.1.symm
      rw [if_neg hno, slotsOf_modify_ne hC, slotsOf_allocate]
      exact h
  | delete Cs et =>
    rw [note, onPools]
    induction Cs generalizing W with
    | nil => exact h
    | cons D Cs ih => exact ih (balanced_modify h fun _ _ hs => hs.delete et)
  | reset Cs =>
    rw [note, onPools, slotsOf_reset]
    split
    · exact Slots.balanced_empty
    · exact h
  | reserve D n =>
    rw [note, onPools, slotsOf_allocate]
    exact h

/-- Every call keeps the balance. -/
theorem balanced_after (h : (W.slotsOf C).Balanced l) (op : Op Comp w) (r : Ret w) :
    ((W.after op r).slotsOf C).Balanced (W.note C l op) := by
  cases op with
  | create => cases r <;> exact h
  | destroy ets => exact balanced_destroy h ets
  | destroyWith Cs => exact balanced_destroy h (W.owners Cs)
  | reset => exact balanced_destroy h W.live
  | reserve n => exact h
  | onPools op => exact balanced_onPools h op

end World

/-! ### Runs -/

namespace EntityManager

variable {κ : Type} [DecidableEq κ] {Comp : κ → Type} {w : ℕ} {C : κ}

/-- A call, and the tally of `C`. -/
def noted (C : κ) (x : State Comp w × Tally) (op : Op Comp w) :
    Option (State Comp w × Tally) :=
  (next x.1 op).map fun s => (s, x.1.em.world.note C x.2 op)

theorem noted_step {x y : State Comp w × Tally} {op : Op Comp w} (h : Inv x.1)
    (hb : (x.1.em.world.slotsOf C).Balanced x.2) (hv : op.Valid x.1.em)
    (hs : noted C x op = some y) : Inv y.1 ∧ (y.1.em.world.slotsOf C).Balanced y.2 := by
  obtain ⟨s, hn, rfl⟩ := Option.map_eq_some_iff.mp hs
  obtain ⟨r, hr⟩ := exists_step_of_next hn
  obtain rfl := Option.some.inj (hn.symm.trans (next_of_step hr))
  refine ⟨h.next hv hn, ?_⟩
  rw [h.world_step hv hr]
  exact World.balanced_after hb op r.2

theorem balanced_init (C : κ) (ett : BitVec w) :
    ((State.init ett : State Comp w).em.world.slotsOf C).Balanced .zero := by
  show ((EntityManager.empty : EntityManager Comp w).world.slotsOf C).Balanced .zero
  rw [world_empty]
  exact Slots.balanced_empty

theorem noted_run {ett : BitVec w} {ops : List (Op Comp w)} {x : State Comp w × Tally}
    (hops : Machine.Along (noted C) (fun x op => op.Valid x.1.em) (State.init ett, .zero) ops)
    (hs : Machine.run (noted C) (State.init ett, .zero) ops = some x) :
    Inv x.1 ∧ (x.1.em.world.slotsOf C).Balanced x.2 :=
  Machine.run_invariant
    (I := fun x => Inv x.1 ∧ (x.1.em.world.slotsOf C).Balanced x.2)
    (fun _ _ _ hx hv hs => noted_step hx.1 hx.2 hv hs) ⟨inv_init ett, balanced_init C ett⟩
    hops hs

theorem slotsOf_world {em : EntityManager Comp w} {p : Pool (Comp C) w}
    (hp : em.pools.getPool C = some p) : em.world.slotsOf C = p.slots := by
  rw [World.slotsOf, show em.world.pools C = some p.slots from Pools.slots_of_getPool hp]
  rfl

/-- **Components pile up.**  After any run of valid calls, the vector of `C` holds as many
components as were built since the last `Reset<C>` by `Assign<C>`, for whatever entity,
and by `AssignOrReplace<C>` for entities that owned none, whatever was deleted, destroyed
or reset otherwise; `Size()` is at most these and the throws; and where there was no
throw, `Get` is defined for everybody. -/
theorem components_pile_up (C : κ) (ett : BitVec w) (ops : List (Op Comp w))
    (hops : Machine.Along (noted C) (fun x op => op.Valid x.1.em) (State.init ett, .zero) ops)
    {s : State Comp w} {l : Tally}
    (hs : Machine.run (noted C) (State.init ett, .zero) ops = some (s, l))
    {p : Pool (Comp C) w} (hp : s.em.pools.getPool C = some p) :
    p.components.data.length = l.built ∧ p.size.toNat ≤ l.built + l.thrown ∧
      (l.thrown = 0 → ∀ et, ∃ c, p.get et = some c) := by
  obtain ⟨h, hb⟩ := noted_run hops hs
  have hwf := h.tidy.pools C p hp
  rw [slotsOf_world hp] at hb
  refine ⟨hb.built, ?_, fun hthrown et => ?_⟩
  · show p.base.size.toNat ≤ _
    rw [← hwf.length_range]
    exact hb.owners
  · rw [Pool.get_slots hwf]
    exact hb.get_defined hthrown et

/-- Three entities, one after the other under the same id, and the last of them is assigned
a component twice: four components. -/
theorem components_pile_up_respawn :
    let ops : List (Op (fun _ : Unit => ℕ) 8) := [.create, .onPools (.assign () 0 (some 1)),
      .destroy [0], .create, .onPools (.assignOrReplace () 0 (some 2)), .reset, .create,
      .onPools (.assign () 0 (some 3)), .onPools (.assign () 0 (some 4))]
    ∃ s l p, Machine.run (noted ()) (State.init 0, .zero) ops = some (s, l) ∧
      s.em.pools.getPool () = some p ∧ p.components.data.length = 4 ∧ p.size = 1 := by
  intro ops
  obtain ⟨⟨s, l⟩, hs⟩ : ∃ x, Machine.run (noted ()) (State.init 0, .zero) ops = some x :=
    Option.isSome_iff_exists.mp (by decide)
  have hend : (Machine.run (noted ()) (State.init 0, .zero) ops).map (fun x =>
      (x.2.built, (x.1.em.pools.getPool ()).map (·.size))) = some (4, some 1) := by decide
  rw [hs, Option.map_some, Option.some.injEq, Prod.mk.injEq] at hend
  obtain ⟨p, hp, hsize⟩ := Option.map_eq_some_iff.mp hend.2
  exact ⟨s, l, p, hs, hp, (components_pile_up () 0 ops (by decide) hs hp).1.trans hend.1, hsize⟩

end EntityManager

end Indie
