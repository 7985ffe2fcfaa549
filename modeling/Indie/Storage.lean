/-
Indie/Storage.lean

The storage of components.

`Assign` of a pool returns a reference to the component, `ForEach` of the manager passes
one, and `Get` gives a pointer to it.  All lead into the vector of the pool, and are good
as long as the vector keeps its storage: one that has to grow moves its components.
`Reserve<C>(n)` is there to prevent that, and it does as long as the components built at
the end of the vector and the throws since the last `Reset<C>`, the tally of `C`, are not
more than `n` (`reserve_keeps_storage`).

It is not the owners that count: every `Assign<C>` takes a cell, also for an entity that
has a component already, and what `Delete` and `Destroy` leave behind takes up the room
that was reserved.
-/
import Indie.Filter
import Indie.Tally

namespace Indie

/-! ### One pool -/

namespace Pool

variable {α : Type} {w n : ℕ} {p p' : Pool α w} {et : BitVec w} {c : Ctor α}
  {r : Pool α w × Ending}

/-- Room that is there already is not reserved again. -/
theorem storage_reserve {count : BitVec w} (h : count.toNat ≤ p.components.capacity) :
    (p.reserve count).components.capacity = p.components.capacity := by
  rw [reserve]
  split
  · exact Nat.max_eq_left h
  · rfl

theorem le_storage_reserve (p : Pool α w) (count : BitVec w) :
    count.toNat ≤ (p.reserve count).components.capacity := by
  rw [reserve]
  split
  · exact Nat.le_max_right _ _
  · rename_i h
    rw [BitVec.lt_def, Nat.not_lt, capacity, BitVec.toNat_ofNat] at h
    exact h.trans (Nat.mod_le _ _)

theorem storage_replace (hs : p.replace et c = some r) :
    r.1.components.capacity = p.components.capacity := by
  cases c with
  | none =>
    obtain rfl := Option.some.inj hs
    rfl
  | some c =>
    simp only [replace, Option.bind_eq_bind, Option.bind_eq_some_iff, Option.pure_def,
      Option.some.injEq] at hs
    obtain ⟨i, -, v, hv, rfl⟩ := hs
    exact Vec.capacity_set hv

/-- `Assign` has room for its entity, and for its component. -/
theorem storage_assign (h : p.base.WF) (hs : p.assign et c = some r)
    (hn : n ≤ p.components.capacity) (howners : r.1.base.range.length ≤ n)
    (hdata : r.1.components.data.length ≤ n) :
    r.1.components.capacity = p.components.capacity := by
  have hb := wf_assign h hs
  obtain ⟨i, hi⟩ := List.getElem?_of_mem ((h.mem_insert hb).mpr (.inl rfl))
  have hlt : i < n := (List.getElem?_eq_some_iff.mp hi).1.trans_le howners
  have hidx := (h.insert_eq hb).1.indexOf_eq hi
  have hnext : (BitVec.ofNat w i + 1).toNat ≤ p.components.capacity :=
    (Vec.toNat_ofNat_add_one_le i).trans (hlt.trans_le hn)
  let q : Pool α w := { p with base := r.1.base }
  let q' := if q.capacity ≤ BitVec.ofNat w i then q.reserve (BitVec.ofNat w i + 1) else q
  have hq : q'.components.capacity = p.components.capacity := by
    show (ite _ _ _ : Pool α w).components.capacity = _
    split
    · exact storage_reserve (p := q) hnext
    · rfl
  have hassign : p.assign et c = some (match c with
      | some c => ({ q' with components := q'.components.emplaceBack c }, .returned)
      | none => (q', .threw)) := by
    cases c <;> simp [assign, hb, hidx, q', q]
  have hr := Option.some.inj (hs.symm.trans hassign)
  cases c with
  | none =>
    rw [hr]
    exact hq
  | some c =>
    rw [hr] at hdata ⊢
    have hlen : q'.components.data.length + 1 ≤ n :=
      List.length_append.symm.trans_le hdata
    have hroom : q'.components.data.length ≠ q'.components.capacity := by omega
    exact (if_neg hroom).trans hq

theorem storage_assignOrReplace (h : p.base.WF) (hs : p.assignOrReplace et c = some r)
    (hn : n ≤ p.components.capacity) (howners : r.1.base.range.length ≤ n)
    (hdata : r.1.components.data.length ≤ n) :
    r.1.components.capacity = p.components.capacity := by
  by_cases he : et ∈ p.base.range
  · rw [assignOrReplace_of_mem h he] at hs
    exact storage_replace hs
  · rw [assignOrReplace_of_notMem h he] at hs
    exact storage_assign h hs hn howners hdata

/-- A call that leaves what fits into `n`, and reserves no more, keeps storage of that
size. -/
theorem storage_step (h : p.base.WF) {op : Op α w} (hs : p.step op = some p')
    (hn : n ≤ p.components.capacity) (howners : p'.base.range.length ≤ n)
    (hdata : p'.components.data.length ≤ n) (hres : ∀ m, op = .reserve m → m.toNat ≤ n) :
    p'.components.capacity = p.components.capacity := by
  cases op with
  | assign et c =>
    obtain ⟨r, hr, rfl⟩ := Option.map_eq_some_iff.mp hs
    exact storage_assign h hr hn howners hdata
  | replace et c =>
    obtain ⟨r, hr, rfl⟩ := Option.map_eq_some_iff.mp hs
    exact storage_replace hr
  | assignOrReplace et c =>
    obtain ⟨r, hr, rfl⟩ := Option.map_eq_some_iff.mp hs
    exact storage_assignOrReplace h hr hn howners hdata
  | delete et =>
    obtain ⟨b, -, rfl⟩ := delete_eq_some.mp hs
    rfl
  | reset =>
    obtain rfl := Option.some.inj hs
    rfl
  | reserve m =>
    obtain rfl := Option.some.inj hs
    exact storage_reserve ((hres m rfl).trans hn)

end Pool

/-! ### The pool vector -/

namespace Pools

variable {κ : Type} [DecidableEq κ] {Comp : κ → Type} {w n : ℕ}
variable {ps ps' : Pools Comp w} {C D : κ} {et : BitVec w}

/-- The capacity of the vector of `C`. -/
def storage (ps : Pools Comp w) (C : κ) : ℕ := (poolOf ps C).components.capacity

theorem storage_of_getPool {p : Pool (Comp C) w} (h : getPool ps C = some p) :
    storage ps C = p.components.capacity := by
  rw [storage, poolOf, h]
  rfl

theorem storage_congr (h : getPool ps' C = getPool ps C) : storage ps' C = storage ps C := by
  rw [storage, poolOf, h]
  rfl

@[simp] theorem storage_tryAllocatePool (ps : Pools Comp w) (C D : κ) :
    storage (tryAllocatePool ps D) C = storage ps C := by
  by_cases hC : C = D
  · subst hC
    exact storage_of_getPool (getPool_tryAllocatePool_self ps C)
  · exact storage_congr (getPool_tryAllocatePool_ne hC)

/-- A change of one pool that keeps the storage of `C`. -/
theorem storage_modify {f : Pool (Comp D) w → Option (Pool (Comp D) w)}
    (hs : modify ps D f = some ps')
    (hf : ∀ p p', D = C → getPool ps D = some p → f p = some p' → getPool ps' D = some p' →
      p'.components.capacity = p.components.capacity) :
    storage ps' C = storage ps C := by
  obtain ⟨p, p', hp, hfp, rfl⟩ := modify_eq_some.mp hs
  have hp' := getPool_setPool_self hp p'
  by_cases hC : C = D
  · subst hC
    rw [storage_of_getPool hp, storage_of_getPool hp']
    exact hf p p' rfl hp hfp hp'
  · exact storage_congr (getPool_setPool_ne hC p')

theorem storage_callAll {calls : List (Σ C, Pool.Op (Comp C) w)}
    (hcalls : ∀ c ∈ calls, ∀ p p' : Pool (Comp c.1) w, p.step c.2 = some p' →
      p'.components.capacity = p.components.capacity)
    (hs : callAll ps calls = some ps') : storage ps' C = storage ps C :=
  callAll_invariant (I := fun qs => storage qs C = storage ps C)
    (fun c hc _ _ hI hq =>
      (storage_modify hq fun p p' _ _ hp _ => hcalls c hc p p' hp).trans hI) rfl hs

theorem storage_step (h : Sound ps) {op : Op Comp w} {r : Pools Comp w × Ending}
    (hs : step ps op = some r) (hn : n ≤ storage ps C)
    (hfits : ∀ p, getPool r.1 C = some p →
      p.base.range.length ≤ n ∧ p.components.data.length ≤ n)
    (hres : ∀ m, op = .reserve C m → m.toNat ≤ n) : storage r.1 C = storage ps C := by
  have hcall : ∀ {qs : Pools Comp w} {D} {o : Pool.Op (Comp D) w}, Sound qs →
      storage qs C = storage ps C → modify qs D (·.step o) = some r.1 →
      (∀ m, D = C → o = .reserve m → m.toNat ≤ n) → storage r.1 C = storage ps C := by
    intro qs D o hqs hst hm ho
    refine (storage_modify hm fun p p' hD hp hp' hget => ?_).trans hst
    subst hD
    obtain ⟨howners, hdata⟩ := hfits p' hget
    rw [← hst, storage_of_getPool hp] at hn
    exact Pool.storage_step (hqs D p hp) hp' hn howners hdata fun m => ho m rfl
  have halloc : ∀ D, Sound (tryAllocatePool ps D) :=
    fun D => h.tryAllocatePool D SparseSet.wf_empty
  have hs' := step_fst ps op
  rw [hs, Option.map_some] at hs'
  replace hs' := hs'.symm
  cases op with
  | assign D et c =>
    rw [Op.calls, callAll_singleton] at hs'
    exact hcall (halloc D) (storage_tryAllocatePool ps C D) hs' fun _ _ ho => by cases ho
  | replace D et c =>
    rw [Op.calls, callAll_singleton] at hs'
    exact hcall h rfl hs' fun _ _ ho => by cases ho
  | assignOrReplace D et c =>
    rw [Op.calls, callAll_singleton] at hs'
    exact hcall (halloc D) (storage_tryAllocatePool ps C D) hs' fun _ _ ho => by cases ho
  | delete Cs et =>
    refine storage_callAll (fun c hc p p' hp => ?_) hs'
    obtain ⟨D, -, rfl⟩ := List.mem_map.mp hc
    obtain ⟨b, -, rfl⟩ := Pool.delete_eq_some.mp hp
    rfl
  | reset Cs =>
    refine storage_callAll (fun c hc p p' hp => ?_) hs'
    obtain ⟨D, -, rfl⟩ := List.mem_map.mp hc
    obtain rfl := Option.some.inj hp
    rfl
  | reserve D m =>
    rw [Op.calls, callAll_singleton] at hs'
    refine hcall (halloc D) (storage_tryAllocatePool ps C D) hs' fun m' hD ho => ?_
    subst hD
    cases ho
    exact hres m rfl

/-- The loop of `Destroy(et)` keeps the storage. -/
theorem storage_destroy (h : Sound ps) (hs : destroy ps et = some ps') :
    storage ps' C = storage ps C := by
  obtain ⟨qs, hqs, hkeys, hget⟩ := destroy_eq h et
  obtain rfl := Option.some.inj (hqs.symm.trans hs)
  rcases hC : getPool ps C with - | p
  · have hC' : getPool qs C = none := by
      rw [← Option.not_isSome_iff_eq_none, Option.isSome_iff_exists, ← mem_keys_iff, hkeys,
        mem_keys_iff, hC]
      simp
    exact storage_congr (hC'.trans hC.symm)
  · obtain ⟨p', hdel, hp'⟩ := hget C p hC
    obtain ⟨b, -, rfl⟩ := Pool.delete_eq_some.mp hdel
    rw [storage_of_getPool hC, storage_of_getPool hp']

theorem le_storage_reserve {m : BitVec w} {r : Pools Comp w × Ending}
    (hs : step ps (.reserve C m) = some r) : ∃ p, getPool r.1 C = some p ∧
      m.toNat ≤ p.components.capacity := by
  have hs' := step_fst ps (.reserve C m)
  rw [hs, Option.map_some, Op.calls, callAll_singleton] at hs'
  obtain ⟨p, p', hp, hpp, hr⟩ := modify_eq_some.mp hs'.symm
  obtain rfl := Option.some.inj hpp
  exact ⟨p.reserve m, hr ▸ getPool_setPool_self hp _, Pool.le_storage_reserve p m⟩

end Pools

/-! ### The manager -/

namespace EntityManager

variable {κ : Type} [DecidableEq κ] {Comp : κ → Type} {w n : ℕ} {C : κ}
  {em em' : EntityManager Comp w} {s s' : State Comp w} {l : Tally} {es : List (BitVec w)}

theorem Tidy.storage_destroy (h : Tidy em) (hs : em.destroy es = some em') :
    em'.pools.storage C = em.pools.storage C := by
  induction es generalizing em with
  | nil =>
    obtain rfl := Option.some.inj hs
    rfl
  | cons et es ih =>
    rw [destroy_cons, Option.bind_eq_some_iff] at hs
    obtain ⟨a, ha, hs⟩ := hs
    rw [ih (h.destroyEt ha) hs, Pools.storage_destroy h.pools (destroyEt_eq_some.mp ha).1]

/-- The room a call asks for. -/
def asked (C : κ) : Op Comp w → ℕ
  | .onPools (.reserve D count) => if D = C then count.toNat else 0
  | _ => 0

/-- A valid call keeps the storage of `C` when its tally stays within it. -/
theorem Inv.storage_next (h : Inv s) {op : Op Comp w} (hs : EntityManager.next s op = some s')
    (hn : n ≤ s.em.pools.storage C) (hb : (s'.em.world.slotsOf C).Balanced l)
    (hl : l.built + l.thrown ≤ n) (hres : asked C op ≤ n) :
    s'.em.pools.storage C = s.em.pools.storage C := by
  cases op with
  | create =>
    rw [next_create, Option.map_eq_some_iff] at hs
    obtain ⟨⟨em', ett', et⟩, hc, rfl⟩ := hs
    show em'.pools.storage C = _
    rw [(create_eq_some.mp hc).2.1]
  | destroy ets =>
    rw [next_destroy, Option.map_eq_some_iff] at hs
    obtain ⟨em', hd, rfl⟩ := hs
    exact h.tidy.storage_destroy hd
  | destroyWith Cs =>
    rw [next_destroyWith, Option.map_eq_some_iff, h.tidy.destroyWith_eq] at hs
    obtain ⟨em', hd, rfl⟩ := hs
    exact h.tidy.storage_destroy hd
  | reset =>
    rw [next_reset, Option.map_eq_some_iff, h.tidy.reset_eq] at hs
    obtain ⟨em', hd, rfl⟩ := hs
    exact h.tidy.storage_destroy hd
  | reserve m =>
    obtain rfl := Option.some.inj hs
    rfl
  | onPools op =>
    rw [next_onPools, Option.map_eq_some_iff] at hs
    obtain ⟨r, hr, rfl⟩ := hs
    refine Pools.storage_step h.tidy.pools hr hn (fun p hp => ?_) fun m ho => ?_
    · rw [slotsOf_world hp] at hb
      have hdata : p.components.data.length = l.built := hb.built
      have howners : p.base.range.length ≤ l.built + l.thrown := hb.owners
      omega
    · subst ho
      rwa [asked, if_pos rfl] at hres

/-- A valid call after which the tally of `C` is at most `n`, and that asks for no more. -/
def Within (C : κ) (n : ℕ) (x : State Comp w × Tally) (op : Op Comp w) : Prop :=
  op.Valid x.1.em ∧
    (x.1.em.world.note C x.2 op).built + (x.1.em.world.note C x.2 op).thrown ≤ n ∧
    asked C op ≤ n

instance (C : κ) (n : ℕ) (x : State Comp w × Tally) (op : Op Comp w) :
    Decidable (Within C n x op) := inferInstanceAs (Decidable (_ ∧ _ ∧ _))

/-- **What was reserved is not moved.**  Let any run of valid calls be followed by
`Reserve<C>(n)`.  Then through all valid calls that follow, as long as the tally of `C`,
the components that `Assign<C>` built for whatever entity and `AssignOrReplace<C>` for
entities that owned none, and the throws, since the last `Reset<C>`, is not more than `n`
(and no more is reserved), the vector of `C` keeps the storage it has then, of `n` at
least, and `Capacity<C>()` stays: until a `Reset<C>`, no reference to a component and no
pointer is left behind. -/
theorem reserve_keeps_storage (C : κ) (ett : BitVec w) (ops : List (Op Comp w))
    (hops : Machine.Along (noted C) (fun x op => op.Valid x.1.em) (State.init ett, .zero) ops)
    {s : State Comp w} {l : Tally}
    (hs : Machine.run (noted C) (State.init ett, .zero) ops = some (s, l))
    {count : BitVec w} {s₁ : State Comp w}
    (hres : next s (.onPools (.reserve C count)) = some s₁) (later : List (Op Comp w))
    (hlater : Machine.Along (noted C) (Within C count.toNat) (s₁, l) later)
    {s' : State Comp w} {l' : Tally}
    (hs' : Machine.run (noted C) (s₁, l) later = some (s', l')) :
    count.toNat ≤ s'.em.pools.storage C ∧
      s'.em.pools.storage C = s₁.em.pools.storage C ∧
      s'.em.capacityOf C = s₁.em.capacityOf C := by
  obtain ⟨h, hb⟩ := noted_run hops hs
  have hnoted : noted C (s, l) (.onPools (.reserve C count)) = some (s₁, l) := by
    rw [noted, hres]
    rfl
  have hvalid : (Op.onPools (.reserve C count)).Valid s.em := trivial
  obtain ⟨h₁, hb₁⟩ := noted_step h hb hvalid hnoted
  -- the pool is there from now on, with the room that was reserved
  obtain ⟨p₁, hp₁, hcount⟩ : ∃ p, s₁.em.pools.getPool C = some p ∧
      count.toNat ≤ p.components.capacity := by
    rw [next_onPools, Option.map_eq_some_iff] at hres
    obtain ⟨r, hr, rfl⟩ := hres
    exact Pools.le_storage_reserve hr
  rw [← Pools.storage_of_getPool hp₁] at hcount
  obtain ⟨-, -, hkeys, hst⟩ := Machine.run_invariant (P := Within C count.toNat)
    (I := fun x : State Comp w × Tally => Inv x.1 ∧ (x.1.em.world.slotsOf C).Balanced x.2 ∧
      List.keys s₁.em.pools <+: List.keys x.1.em.pools ∧
      x.1.em.pools.storage C = s₁.em.pools.storage C)
    (fun x op y ⟨hx, hbx, hkx, hsx⟩ hop hy => by
      obtain ⟨hy₁, hby⟩ := noted_step hx hbx hop.1 hy
      obtain ⟨t, ht, rfl⟩ := Option.map_eq_some_iff.mp hy
      refine ⟨hy₁, hby, hkx.trans (hx.keys_next ht), .trans ?_ hsx⟩
      exact hx.storage_next ht (hsx ▸ hcount) hby hop.2.1 hop.2.2)
    ⟨h₁, hb₁, List.prefix_refl _, rfl⟩ hlater hs'
  obtain ⟨p', hp'⟩ := Pools.mem_keys_iff.mp
    (hkeys.subset (Pools.mem_keys_iff.mpr ⟨p₁, hp₁⟩))
  refine ⟨hst ▸ hcount, hst, ?_⟩
  rw [Pools.storage_of_getPool hp₁, Pools.storage_of_getPool hp'] at hst
  rw [capacityOf, capacityOf, hp₁, hp']
  show some (BitVec.ofNat w _) = some (BitVec.ofNat w _)
  rw [hst]

/-- Room for two: the second component is built when the owner of the first has gone. -/
theorem reserve_keeps_storage_two :
    let later : List (Op (fun _ : Unit => ℕ) 8) := [.create, .onPools (.assign () 0 (some 1)),
      .destroy [0], .create, .onPools (.assign () 0 (some 2))]
    ∃ s₁ s' l', next (State.init 0) (.onPools (.reserve () 2)) = some s₁ ∧
      Machine.run (noted ()) (s₁, .zero) later = some (s', l') ∧
      s'.em.pools.storage () = s₁.em.pools.storage () := by
  intro later
  obtain ⟨s₁, hres⟩ : ∃ s₁, next (State.init 0 : State (fun _ : Unit => ℕ) 8)
      (.onPools (.reserve () 2)) = some s₁ := Option.isSome_iff_exists.mp (by decide)
  obtain ⟨⟨s', l'⟩, hs'⟩ : ∃ x, Machine.run (noted ()) (s₁, .zero) later = some x := by
    cases hres
    exact Option.isSome_iff_exists.mp (by decide)
  have hlater : Machine.Along (noted ()) (Within () 2) (s₁, .zero) later := by
    cases hres
    decide
  exact ⟨s₁, s', l', hres, hs', (reserve_keeps_storage () 0 [] trivial rfl hres later hlater
    hs').2.1⟩

end EntityManager

end Indie
