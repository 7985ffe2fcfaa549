/-
Indie/Spawn.lean

`ForEach<Cs...>` with a function that creates entities.

`for (auto et : _entities)` fixes both ends of the range at the start.  A new
entity is put behind the last one, so a function that creates entities, gives
components to them or to anybody else, but destroys nobody, leaves the range of
the loop as it is: the loop is a fold over the entities that were live at the
start (`forEach_creating`).  The iterators are positions here: that a resized vector
stays where it is, so that its iterators stay valid, is left to the program, which has
`Reserve` for it.

A function that destroys the entity it is given and creates another one is a
different matter.  `Destroy(et)` moves the last entity into the slot of `et`,
which the loop has passed, and `Create()` puts `et` back into the last slot,
which the loop has still to reach.  So the last entity is never visited, and the
one that was respawned last is visited twice (`forEach_respawning`).
-/
import Indie.SetOrder
import Indie.EntityThrow

namespace Indie

namespace EntityManager

variable {κ : Type} [DecidableEq κ] {Comp : κ → Type} {w : ℕ} {σ : Type}
variable {s s' : State Comp w} {em em' : EntityManager Comp w} {Cs : List κ} {et : BitVec w}

/-! ### Calls that destroy nobody -/

/-- The call destroys nobody. -/
def Op.Keeps : Op Comp w → Prop
  | .destroy _ | .destroyWith _ | .reset => False
  | .create | .reserve _ | .onPools _ => True

/-- Some valid calls that destroy nobody lead from `s` to `s'`. -/
def Grows (s s' : State Comp w) : Prop :=
  ∃ ops, Machine.Along next (fun s op => op.Valid s.em ∧ op.Keeps) s ops ∧
    Machine.run next s ops = some s'

theorem Reachable.grows (hs : Reachable s) (hg : Grows s s') : Reachable s' := by
  obtain ⟨ett, ops, hops, hr⟩ := hs
  obtain ⟨more, hmore, hr'⟩ := hg
  refine ⟨ett, ops ++ more, Machine.along_append.mpr ⟨hops, fun t ht => ?_⟩, ?_⟩
  · obtain rfl := Option.some.inj (hr.symm.trans ht)
    exact hmore.mono fun _ _ h => h.1
  · rw [Machine.run_append, hr]
    exact hr'

/-- New entities come behind the ones that are there. -/
theorem Inv.range_grows (h : Inv s) {op : Op Comp w} (hop : op.Keeps)
    (hs : EntityManager.next s op = some s') : s.em.entities.range <+: s'.em.entities.range := by
  cases op with
  | destroy _ | destroyWith _ | reset => cases hop
  | create =>
    rw [next_create, Option.map_eq_some_iff] at hs
    obtain ⟨⟨em', ett', et⟩, hc, rfl⟩ := hs
    show _ <+: em'.entities.range
    rw [h.tidy.entities.range_insert (create_eq_some.mp hc).1, SwapList.add]
    split
    · exact List.prefix_refl _
    · exact List.prefix_append _ _
  | reserve n =>
    obtain rfl := Option.some.inj hs
    show _ <+: (s.em.entities.reserve n).range
    rw [h.tidy.entities.range_reserve]
  | onPools op =>
    rw [next_onPools, Option.map_eq_some_iff] at hs
    obtain ⟨r, -, rfl⟩ := hs
    exact List.prefix_refl _

theorem Inv.grows (h : Inv s) (hg : Grows s s') :
    s.em.entities.range <+: s'.em.entities.range := by
  obtain ⟨ops, hops, hr⟩ := hg
  refine (Machine.run_invariant (I := fun t => Inv t ∧ s.em.entities.range <+: t.em.entities.range)
    (fun t op t' ht hv hs => ⟨ht.1.next hv.1 hs, ht.2.trans (ht.1.range_grows hv.2 hs)⟩)
    ⟨h, List.prefix_refl _⟩ hops hr).2

/-! ### The loop -/

/-- A function for `ForEach<Cs...>` that makes calls on the manager; `σ` are
variables of the caller. -/
abbrev Caller (Comp : κ → Type) (w : ℕ) (σ : Type) :=
  BitVec w → List (Σ C, Comp C) → State Comp w × σ → Option (State Comp w × σ)

/-- `func`, with a record of the calls made. -/
def record (func : Caller Comp w σ) (et : BitVec w) (comps : List (Σ C, Comp C))
    (x : (State Comp w × σ) × List (BitVec w × List (Σ C, Comp C))) :
    Option ((State Comp w × σ) × List (BitVec w × List (Σ C, Comp C))) := do
  return (← func et comps x.1, x.2 ++ [(et, comps)])

/-- One round: the state with the caller's variables, and the calls made. -/
def roundCalls (Cs : List κ) (func : Caller Comp w σ) : BitVec w →
    (State Comp w × σ) × List (BitVec w × List (Σ C, Comp C)) →
    Option ((State Comp w × σ) × List (BitVec w × List (Σ C, Comp C))) :=
  forEachRound (fun x => x.1.1.em.pools.filterHas Cs) (fun x => x.1.1.em.pools.filterGet Cs)
    (record func)

/-- `ForEach<Cs...>(func)`. -/
def forEachCalls (s : State Comp w) (Cs : List κ) (func : Caller Comp w σ) (v : σ) :
    Option ((State Comp w × σ) × List (BitVec w × List (Σ C, Comp C))) :=
  SparseSet.rangeFor (fun x => x.1.1.em.entities) (fun et x => roundCalls Cs func et x) ((s, v), [])

theorem roundCalls_eq_some {func : Caller Comp w σ}
    {x y : (State Comp w × σ) × List (BitVec w × List (Σ C, Comp C))}
    (hs : roundCalls Cs func et x = some y) :
    (x.1.1.em.pools.filterHas Cs et = some false ∧ y = x) ∨
    ∃ comps z, x.1.1.em.pools.filterHas Cs et = some true ∧
      x.1.1.em.pools.filterGet Cs et = some comps ∧ func et comps x.1 = some z ∧
      y = (z, x.2 ++ [(et, comps)]) := by
  obtain ⟨b, hb, hs⟩ := Option.bind_eq_some_iff.mp hs
  cases b with
  | false => exact .inl ⟨hb, (Option.some.inj hs).symm⟩
  | true =>
    rw [if_pos rfl] at hs
    obtain ⟨comps, hcomps, hs⟩ := Option.bind_eq_some_iff.mp hs
    obtain ⟨z, hz, hs⟩ := Option.bind_eq_some_iff.mp hs
    exact .inr ⟨comps, z, hb, hcomps, hz, (Option.some.inj hs).symm⟩

/-- What one round does: it visits the entity or passes it over, and new
entities come behind the ones that are there. -/
theorem roundCalls_grows {func : Caller Comp w σ}
    (hfunc : ∀ et comps x y, Reachable x.1 → Live x.1.em et → func et comps x = some y →
      Grows x.1 y.1)
    {x y : (State Comp w × σ) × List (BitVec w × List (Σ C, Comp C))} (hx : Reachable x.1.1)
    (het : et ∈ x.1.1.em.entities.range) (hs : roundCalls Cs func et x = some y) :
    Reachable y.1.1 ∧ x.1.1.em.entities.range <+: y.1.1.em.entities.range ∧
      ((Cs ≠ [] ∧ y.2 = x.2) ∨ ∃ comps, y.2 = x.2 ++ [(et, comps)]) := by
  obtain ⟨hfalse, rfl⟩ | ⟨comps, z, -, -, hz, rfl⟩ := roundCalls_eq_some hs
  · refine ⟨hx, List.prefix_refl _, .inl ⟨?_, rfl⟩⟩
    rintro rfl
    cases hfalse
  · have hg := hfunc et comps x.1 z hx het hz
    exact ⟨hx.grows hg, hx.inv.grows hg, .inr ⟨comps, rfl⟩⟩

/-- **`ForEach` does not visit what it creates.**  A function that only makes
valid calls, none of which destroys, leaves the loop a fold over the entities
live at the start: each has one turn, in order, and is visited if it owns all of
`Cs` when its turn comes.  Nobody created meanwhile is visited, and everybody is
live afterwards, where they were. -/
theorem forEach_creating (hs : Reachable s) (Cs : List κ) (func : Caller Comp w σ)
    (hfunc : ∀ et comps x y, Reachable x.1 → Live x.1.em et → func et comps x = some y →
      Grows x.1 y.1) (v : σ) :
    forEachCalls s Cs func v =
      s.em.entities.range.foldlM (fun x et => roundCalls Cs func et x) ((s, v), []) ∧
    ∀ y visits, forEachCalls s Cs func v = some (y, visits) →
      (visits.map Prod.fst).Sublist s.em.entities.range ∧
      (Cs = [] → visits.map Prod.fst = s.em.entities.range) ∧
      s.em.entities.range <+: y.1.em.entities.range := by
  have hloop : forEachCalls s Cs func v =
      s.em.entities.range.foldlM (fun x et => roundCalls Cs func et x) ((s, v), []) := by
    have hwf : ∀ x : (State Comp w × σ) × List (BitVec w × List (Σ C, Comp C)),
        Reachable x.1.1 → x.1.1.em.entities.WF := fun x hx => hx.inv.tidy.entities
    refine SparseSet.rangeFor_eq_foldlM_of_appends hwf (fun et x y hx het hy => ?_) hs
    obtain ⟨hy', hgrow, -⟩ := roundCalls_grows hfunc hx het hy
    exact ⟨hy', hgrow⟩
  -- the rounds that are left, after those over `pre`
  have hrounds : ∀ (rest pre : List (BitVec w))
      (x y : (State Comp w × σ) × List (BitVec w × List (Σ C, Comp C))), Reachable x.1.1 →
      (pre ++ rest) <+: x.1.1.em.entities.range →
      rest.foldlM (fun x et => roundCalls Cs func et x) x = some y →
      (∃ vs, y.2.map Prod.fst = x.2.map Prod.fst ++ vs ∧ vs.Sublist rest ∧ (Cs = [] → vs = rest)) ∧
        x.1.1.em.entities.range <+: y.1.1.em.entities.range := by
    intro rest
    induction rest with
    | nil =>
      intro pre x y _ _ hs
      obtain rfl := Option.some.inj hs
      exact ⟨⟨[], by simp, .refl _, fun _ => rfl⟩, List.prefix_refl _⟩
    | cons et rest ih =>
      intro pre x y hx hpre hs
      rw [List.foldlM_cons, Option.bind_eq_bind, Option.bind_eq_some_iff] at hs
      obtain ⟨z, hz, hs⟩ := hs
      obtain ⟨hxz, hgrow, hvisit⟩ := roundCalls_grows hfunc hx (hpre.subset (by simp)) hz
      obtain ⟨⟨vs, hvs, hsub, hall⟩, hgrow'⟩ := ih (pre ++ [et]) z y hxz
        (by simpa using hpre.trans hgrow) hs
      refine ⟨?_, hgrow.trans hgrow'⟩
      rcases hvisit with ⟨hCs, hskip⟩ | ⟨comps, hvisit⟩
      · exact ⟨vs, by rw [hvs, hskip], hsub.cons et, fun heq => absurd heq hCs⟩
      · refine ⟨et :: vs, ?_, hsub.cons_cons et, fun heq => by rw [hall heq]⟩
        rw [hvs, hvisit]
        simp
  refine ⟨hloop, fun y visits hs' => ?_⟩
  rw [hloop] at hs'
  obtain ⟨⟨vs, hvs, hsub, hall⟩, hgrow⟩ :=
    hrounds s.em.entities.range [] _ _ hs (List.prefix_refl _) hs'
  rw [List.map_nil, List.nil_append] at hvs
  exact ⟨hvs ▸ hsub, fun heq => hvs.trans (hall heq), hgrow⟩

/-- Each call creates an entity. -/
theorem forEach_creating_pair :
    let ops : List (Op (fun _ : Unit => ℕ) 8) := [.reserve 8, .create, .create]
    let func : Caller (fun _ : Unit => ℕ) 8 Unit := fun _ _ x =>
      (next x.1 .create).map (·, x.2)
    ∃ s y visits, Machine.run next (State.init 0) ops = some s ∧
      forEachCalls s [] func () = some (y, visits) ∧ visits.map Prod.fst = [0, 1] ∧
      y.1.em.entities.range = [0, 1, 2, 3] := by
  intro ops func
  obtain ⟨s, hs⟩ : ∃ s, Machine.run next (State.init 0) ops = some s :=
    Option.isSome_iff_exists.mp (by decide)
  have hgrows : ∀ et comps x y, Reachable x.1 → Live x.1.em et → func et comps x = some y →
      Grows x.1 y.1 := by
    intro et comps x y _ _ hy
    obtain ⟨t, ht, rfl⟩ := Option.map_eq_some_iff.mp hy
    exact ⟨[.create], ⟨⟨trivial, trivial⟩, fun _ _ => trivial⟩, by simp [ht]⟩
  have hrun : (Machine.run next (State.init 0) ops).bind (fun s =>
      (forEachCalls s [] func ()).map fun r =>
        (s.em.entities.range, r.1.1.em.entities.range)) = some ([0, 1], [0, 1, 2, 3]) := by decide
  rw [hs, Option.bind_some, Option.map_eq_some_iff] at hrun
  obtain ⟨⟨y, visits⟩, hloop, hrange⟩ := hrun
  obtain ⟨-, hspec⟩ := forEach_creating (s := s) ⟨0, ops, by decide, hs⟩ [] func hgrows ()
  obtain ⟨-, hall, -⟩ := hspec y visits hloop
  exact ⟨s, y, visits, hs, hloop, (hall rfl).trans (Prod.mk.inj hrange).1,
    (Prod.mk.inj hrange).2⟩

end EntityManager

/-! ### Respawning -/

namespace SparseSet

variable {w : ℕ} {s s' : SparseSet w} {v : BitVec w}

/-- An empty range is well formed, whatever the vectors hold. -/
theorem Shape.wf_of_size (h : Shape s) (hsize : s.size = 0) : WF s where
  toShape := h
  sparse_dense := by
    intro i v hv
    have hi := (h.getElem?_range.mp hv).1
    rw [hsize] at hi
    simp at hi

theorem WF.range_of_size (h : WF s) (hsize : s.size = 0) : s.range = [] := by
  rw [← List.length_eq_zero_iff, h.length_range, hsize]
  simp

/-- An element that is erased and inserted again ends in the last slot, and the
last element in its slot. -/
theorem WF.respawn (h : WF s) {l : List (BitVec w)} {t : BitVec w} (hl : s.range = l ++ [t])
    {i : ℕ} (hi : s.range[i]? = some v) :
    ∃ s₁ s₂, s.erase v = some s₁ ∧ s₁.insert v = some s₂ ∧ s₂.capacity = s.capacity ∧
      s₂.range = (if i < l.length then l.set i t else l) ++ [v] := by
  obtain ⟨s₁, h₁, hwf, hr, -⟩ := h.erase_of_mem hi
  have hv := h.lt_max (List.mem_of_getElem? hi)
  obtain ⟨s₂, h₂⟩ := hwf.insert_defined hv
  refine ⟨s₁, s₂, h₁, h₂, ?_, ?_⟩
  · have hcap := hwf.capacity_insert h₂
    rw [h.capacity_erase h₁, Nat.max_eq_left (h.lt_capacity (List.mem_of_getElem? hi))] at hcap
    exact BitVec.eq_of_toNat_eq hcap
  · have hno : v ∉ s₁.range := fun hmem => ((h.mem_erase h₁).mp hmem).2 rfl
    rw [(hwf.insert_eq h₂).2, if_neg hno, hr, hl, SwapList.swapRemove_concat]

/-- The only element is erased through its iterator. -/
theorem WF.eraseAt_single (h : WF s) (hr : s.range = [v]) :
    ∃ s', s.eraseAt 0 = some s' ∧ WF s' ∧ s'.size = 0 := by
  have hsize : 0 + 1 = s.size.toNat := by
    rw [← h.length_range, hr]
    rfl
  obtain ⟨s', hs⟩ := h.erase_defined v
  have hv : v ∈ s.range := hr ▸ List.mem_singleton_self v
  refine ⟨s', (h.eraseAt_last hsize (by rw [hr]; rfl)).trans hs, h.erase hs, ?_⟩
  have hsz := h.size_erase hv hs
  rw [← hsize] at hsz
  exact BitVec.eq_of_toNat_eq (hsz.trans (by simp))

end SparseSet

namespace EntityManager

variable {κ : Type} [DecidableEq κ] {Comp : κ → Type} {w : ℕ}
variable {s s' : State Comp w} {et : BitVec w}

/-- One round with a function that destroys the entity it is given and creates
one, whenever `choose` says so, by what it has done before. -/
def roundRespawn (choose : List (BitVec w × Bool) → BitVec w → Bool) (et : BitVec w)
    (x : State Comp w × List (BitVec w × Bool)) :
    Option (State Comp w × List (BitVec w × Bool)) :=
  if choose x.2 et then do
    let em ← x.1.em.destroyEt et
    let (em, ett, _) ← em.create x.1.ett
    return (⟨ett, em⟩, x.2 ++ [(et, true)])
  else return (x.1, x.2 ++ [(et, false)])

/-- `ForEach(func)` with this function: the state afterwards, and for each call
the entity and whether it was respawned. -/
def forEachRespawn (s : State Comp w) (choose : List (BitVec w × Bool) → BitVec w → Bool) :
    Option (State Comp w × List (BitVec w × Bool)) :=
  SparseSet.rangeFor (fun x => x.1.em.entities) (fun et x => roundRespawn choose et x) (s, [])

/-- What a round keeps, and where it leaves the entities. -/
structure Respawned (s s' : State Comp w) : Prop where
  inv : Inv s'
  deletedEt : s'.em.deletedEt.size = 0
  ett : s'.ett = s.ett
  capacity : s'.em.entities.capacity = s.em.entities.capacity
  live : ∀ e, Live s'.em e ↔ Live s.em e

theorem Inv.respawned (h : Inv s) (hd : s.em.deletedEt.size = 0) : Respawned s s where
  inv := h
  deletedEt := hd
  ett := rfl
  capacity := rfl
  live _ := Iff.rfl

theorem Respawned.trans {t : State Comp w} (h : Respawned s s') (h' : Respawned s' t) :
    Respawned s t where
  inv := h'.inv
  deletedEt := h'.deletedEt
  ett := h'.ett.trans h.ett
  capacity := h'.capacity.trans h.capacity
  live e := (h'.live e).trans (h.live e)

/-- Where no id waits, a respawned entity gets its id back, and the last slot. -/
theorem Inv.respawn (h : Inv s) (hd : s.em.deletedEt.size = 0) {l : List (BitVec w)}
    {t : BitVec w} (hl : s.em.entities.range = l ++ [t]) {i : ℕ}
    (hi : s.em.entities.range[i]? = some et) :
    ∃ em em', s.em.destroyEt et = some em ∧ em.create s.ett = some (em', s.ett, et) ∧
      Respawned s ⟨s.ett, em'⟩ ∧
      em'.entities.range = (if i < l.length then l.set i t else l) ++ [et] := by
  have hwf := h.shape.wf_of_size hd
  have hlive : Live s.em et := List.mem_of_getElem? hi
  have hlt := h.tidy.lt_max hlive
  obtain ⟨d, hd₁⟩ := hwf.insert_defined hlt
  obtain ⟨em, hem⟩ := h.tidy.destroyEt_defined hd₁
  obtain ⟨-, hen, hde⟩ := destroyEt_eq_some.mp hem
  have hinv : Inv (⟨s.ett, em⟩ : State Comp w) :=
    h.destroy (show s.em.destroy [et] = some em by rw [destroy_cons, hem]; rfl)
  -- the id is the only one that waits
  obtain ⟨hwfd, hrd⟩ := hwf.insert_eq hde
  rw [hwf.range_of_size hd, if_neg List.not_mem_nil, List.nil_append] at hrd
  have hv := hwfd.getElem?_range.mp (show em.deletedEt.range[0]? = some et by rw [hrd]; rfl)
  obtain ⟨d', hd', -, hsize⟩ := hwfd.eraseAt_single hrd
  obtain ⟨e₁, e₂, he₁, he₂, hcap, hrange⟩ := h.tidy.entities.respawn hl hi
  obtain rfl := Option.some.inj (he₁.symm.trans hen)
  have hcr : em.create s.ett = some (⟨e₂, d', em.pools⟩, s.ett, et) := by
    rw [create_eq_some, if_neg fun h0 => by rw [h0] at hv; simp at hv]
    exact ⟨he₂, rfl, hv.2, hd', rfl⟩
  refine ⟨em, _, hem, hcr, ⟨hinv.create hcr, hsize, rfl, hcap, fun e => ?_⟩, hrange⟩
  rw [(hinv.tidy.create hcr).2, h.tidy.live_destroyEt hem]
  by_cases he : e = et
  · exact iff_of_true (.inl he) (he ▸ hlive)
  · simp [he]

/-- A round that reads slot `i`: the last slot is left alone, or holds what was
read afterwards. -/
theorem Respawned.round {x : State Comp w × List (BitVec w × Bool)} (h : Respawned s x.1)
    (choose : List (BitVec w × Bool) → BitVec w → Bool) {l : List (BitVec w)} {t : BitVec w}
    (hl : x.1.em.entities.range = l ++ [t]) {i : ℕ}
    (hi : x.1.em.entities.range[i]? = some et) :
    ∃ s' b, roundRespawn choose et x = some (s', x.2 ++ [(et, b)]) ∧ Respawned s s' ∧
      s'.em.entities.range =
        if b then (if i < l.length then l.set i t else l) ++ [et] else l ++ [t] := by
  by_cases hc : choose x.2 et
  · obtain ⟨em, em', hem, hcr, hkeeps, hrange⟩ := h.inv.respawn h.deletedEt hl hi
    refine ⟨⟨x.1.ett, em'⟩, true, ?_, h.trans hkeeps, hrange⟩
    rw [roundRespawn, if_pos hc, hem]
    show (em.create x.1.ett).bind _ = _
    rw [hcr]
    rfl
  · refine ⟨x.1, false, ?_, h, hl⟩
    rw [roundRespawn, if_neg hc]
    rfl

/-- **Respawning in `ForEach` skips the last entity.**  Where no id waits for
reuse, a function that destroys the entity it is given and creates another one,
whenever it likes, is handed all live entities but the last, in order; and then
the one it respawned last, a second time.  Only a function that has respawned
nobody by then is handed the last one.  The loop never moves `_entities`, draws
no fresh id, and everybody is live afterwards. -/
theorem forEach_respawning (hs : Reachable s) (hd : s.em.deletedEt.size = 0)
    {init : List (BitVec w)} {last : BitVec w} (hl : s.em.entities.range = init ++ [last])
    (choose : List (BitVec w × Bool) → BitVec w → Bool) :
    ∃ s' log b, forEachRespawn s choose =
        some (s', log ++ [(((log.filter Prod.snd).map Prod.fst).getLastD last, b)]) ∧
      log.map Prod.fst = init ∧ last ∉ init ∧
      (log.any Prod.snd → ((log.filter Prod.snd).map Prod.fst).getLastD last ∈ init) ∧
      s'.ett = s.ett ∧ s'.em.entities.capacity = s.em.entities.capacity ∧
      ∀ e, s'.em.exists_ e = s.em.exists_ e := by
  -- the rounds that are left, `rest` and the last slot
  have hrounds : ∀ (rest seen : List (BitVec w)) (t : BitVec w)
      (x : State Comp w × List (BitVec w × Bool)), Respawned s x.1 →
      x.1.em.entities.range = seen ++ rest ++ [t] →
      ∃ s' log b, (List.range' seen.length (rest.length + 1)).foldlM (fun x i => do
          let et ← x.1.em.entities.dense[i]?
          roundRespawn choose et x) x =
            some (s', x.2 ++ (log ++ [(((log.filter Prod.snd).map Prod.fst).getLastD t, b)])) ∧
        log.map Prod.fst = rest ∧ Respawned s s' := by
    intro rest
    induction rest with
    | nil =>
      intro seen t x hx hl
      have hi : x.1.em.entities.range[seen.length]? = some t := by
        rw [hl]
        simp
      obtain ⟨s', b, hround, hs', -⟩ := hx.round choose hl hi
      refine ⟨s', [], b, ?_, rfl, hs'⟩
      show ((x.1.em.entities.dense[seen.length]?).bind _).bind _ = _
      rw [(hx.inv.tidy.entities.getElem?_range.mp hi).2, Option.bind_some, hround]
      rfl
    | cons et rest ih =>
      intro seen t x hx hl
      have hi : x.1.em.entities.range[seen.length]? = some et := by
        rw [hl]
        simp
      obtain ⟨y, b, hround, hy, hrange⟩ := hx.round choose hl hi
      -- one slot more has been read, and the last one holds what `b` says
      obtain ⟨u, hu⟩ : ∃ u, y.em.entities.range =
          (seen ++ [u]) ++ rest ++ [if b then et else t] := by
        cases b with
        | false => exact ⟨et, by rw [hrange]; simp⟩
        | true => exact ⟨t, by rw [hrange]; simp⟩
      obtain ⟨s', log, b', hloop, hlog, hs'⟩ := ih _ _ (y, x.2 ++ [(et, b)]) hy hu
      refine ⟨s', (et, b) :: log, b', ?_, by rw [List.map_cons, hlog], hs'⟩
      rw [List.length_cons, List.range'_succ, List.foldlM_cons,
        (hx.inv.tidy.entities.getElem?_range.mp hi).2]
      show (roundRespawn choose et x).bind _ = _
      rw [hround, Option.bind_some]
      rw [List.length_append, List.length_singleton] at hloop
      rw [hloop]
      cases b <;> simp [List.getLast?_cons]
  have h := hs.inv
  obtain ⟨s', log, b, hloop, hlog, hs'⟩ := hrounds init [] last (s, []) (h.respawned hd) (by simpa)
  refine ⟨s', log, b, ?_, hlog, ?_, fun hany => ?_, hs'.ett, hs'.capacity, fun e => ?_⟩
  · have hsize : s.em.entities.size.toNat = init.length + 1 := by
      rw [← h.tidy.entities.length_range, hl]
      simp
    rw [forEachRespawn, SparseSet.rangeFor, hsize, List.range_eq_range']
    exact hloop
  · have hnodup := h.tidy.entities.range_nodup
    rw [hl, List.nodup_append] at hnodup
    exact fun hmem => hnodup.2.2 last hmem last (List.mem_singleton_self last) rfl
  · -- somebody was respawned, and the last of them is among the entities before
    obtain ⟨v, hv, hb⟩ := List.any_eq_true.mp hany
    have hmem : v.1 ∈ (log.filter Prod.snd).map Prod.fst :=
      List.mem_map_of_mem (List.mem_filter.mpr ⟨hv, hb⟩)
    have hsub : ∀ e ∈ (log.filter Prod.snd).map Prod.fst, e ∈ init := fun e he =>
      hlog ▸ (List.filter_sublist.map Prod.fst).subset he
    rcases hlist : (log.filter Prod.snd).map Prod.fst with - | ⟨u, us⟩
    · rw [hlist] at hmem
      cases hmem
    · rw [List.getLastD_cons]
      exact hsub _ (hlist ▸ List.getLastD_mem_cons)
  · rw [exists_, exists_, h.tidy.entities.has_eq, hs'.inv.tidy.entities.has_eq]
    simp only [Option.some.injEq, decide_eq_decide]
    exact hs'.live e

/-- Three entities, the first is respawned: it is visited twice, the third one
never. -/
theorem forEach_respawning_trio :
    let ops : List (Op (fun _ : Unit => ℕ) 8) := [.create, .create, .create]
    ∃ s s' log b, Machine.run next (State.init 0) ops = some s ∧
      forEachRespawn s (fun log _ => log.isEmpty) = some (s', log ++ [(0, b)]) ∧
      log.map Prod.fst = [0, 1] ∧ s'.em.exists_ 2 = s.em.exists_ 2 := by
  intro ops
  obtain ⟨s, hs⟩ : ∃ s, Machine.run next (State.init 0) ops = some s :=
    Option.isSome_iff_exists.mp (by decide)
  have hrun : (Machine.run next (State.init 0) ops).map (fun s =>
      (s.em.deletedEt.size, s.em.entities.range)) = some (0, [0, 1, 2]) := by decide
  have hvisits : ((Machine.run next (State.init 0) ops).bind fun s =>
      (forEachRespawn s fun log _ => log.isEmpty).map Prod.snd) =
        some [(0, true), (1, false), (0, false)] := by decide
  rw [hs, Option.map_some, Option.some.injEq, Prod.mk.injEq] at hrun
  obtain ⟨s', log, b, hloop, hlog, -, -, -, -, hexists⟩ := forEach_respawning (s := s)
    ⟨0, ops, by decide, hs⟩ hrun.1 (show s.em.entities.range = [0, 1] ++ [2] from hrun.2)
    fun log _ => log.isEmpty
  rw [hs, Option.bind_some, hloop, Option.map_some, Option.some.injEq] at hvisits
  obtain ⟨-, heq⟩ := List.append_inj'
    (hvisits.trans (show _ = [(0, true), (1, false)] ++ [(0, false)] from rfl)) rfl
  rw [(List.cons.inj heq).1] at hloop
  exact ⟨s, s', log, false, hs, hloop, hlog, hexists 2⟩

end EntityManager

end Indie
