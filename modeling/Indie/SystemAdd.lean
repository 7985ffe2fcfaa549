/-
Indie/SystemAdd.lean

When `Add` registers the system it returns.

`Add<T>` constructs a system, offers it to the map with `emplace`, and returns
it whatever the map does with it.  A key that is present stays as it is, so the
system returned is the one stored for `T` exactly if `T` had no entry, and an
entry is made by the first call that names `T`, be it a `Has<T>` or the
`Remove<T>` of a system that was never added (`isSome_entryOf_run`).

If it is stored, it stays so until the next `Add<T>` or `Remove<T>`
(`Holds.run`): meanwhile `Update` updates it, and `Activate<T>` and
`Deactivate<T>` switch it and no other call does, because no other type has an
entry for it (`Entered`).  `Update` is defined unless the entry of another type is
null (`Entered.update_defined_iff`).
-/
import Indie.SystemRegistry

namespace Indie

namespace SystemManager

variable {κ : Type} [DecidableEq κ] {sm sm' : SystemManager κ} {S T : κ} {p : ℕ} {b : Bool}
  {c : Call κ} {calls : List (Call κ)}

/-- A call without its result. -/
def next (sm : SystemManager κ) (c : Call κ) : Option (SystemManager κ) :=
  (call sm c).map Prod.fst

/-- The type a call names. -/
def Call.subject : Call κ → Option κ
  | .add T | .remove T | .activate T | .deactivate T | .has T => some T
  | .update => none

theorem next_activate (sm : SystemManager κ) (T : κ) :
    next sm (.activate T) = sm.setActive true T := by
  show ((sm.setActive true T).map _).map Prod.fst = _
  rw [Option.map_map]
  exact Option.map_id'

theorem next_deactivate (sm : SystemManager κ) (T : κ) :
    next sm (.deactivate T) = sm.setActive false T := by
  show ((sm.setActive false T).map _).map Prod.fst = _
  rw [Option.map_map]
  exact Option.map_id'

/-- `Update` changes nothing here: it records its calls. -/
theorem next_update (hs : next sm .update = some sm') : sm' = sm := by
  obtain ⟨r, hr, rfl⟩ := Option.map_eq_some_iff.mp hs
  obtain ⟨systems, -, rfl⟩ := Option.map_eq_some_iff.mp hr
  rfl

/-! ### What a call does to the entries -/

theorem entryOf_remove_eq (sm : SystemManager κ) (T : κ) :
    (sm.remove T).entryOf = Function.update sm.entryOf T (some none) := by
  funext S
  by_cases hS : S = T
  · rw [hS, entryOf_remove, Function.update_self]
  · rw [Function.update_of_ne hS]
    have hhas : (sm.has T).1.entryOf S = sm.entryOf S := by
      rw [entryOf_has, Function.update_of_ne hS]
    show (if (sm.has T).2 then (sm.has T).1.resetAt T else (sm.has T).1).entryOf S = _
    split
    · rw [@entryOf_write κ _ (sm.has T).1 _ T rfl fun i hi => SystemMap.getElem?_insert_ne hi,
        Function.update_of_ne hS, hhas]
    · exact hhas

theorem heap_remove (sm : SystemManager κ) (T : κ) : (sm.remove T).heap = sm.heap := by
  show (if (sm.has T).2 then (sm.has T).1.resetAt T else (sm.has T).1).heap = _
  split <;> rfl

/-- `Activate<T>()` and `Deactivate<T>()` switch the system of `T`, or look `T`
up in vain. -/
theorem setActive_cases {active : Bool} (hs : sm.setActive active T = some sm') :
    (∃ p, sm.entryOf T = some (some p) ∧ sm' = { sm with heap := sm.heap.set p active }) ∨
      (sm.entryOf T).join = none ∧ sm' = (sm.has T).1 := by
  rcases hj : (sm.entryOf T).join with - | p
  · rw [setActive_of_null hj, Option.some.injEq] at hs
    exact .inr ⟨rfl, hs.symm⟩
  · have hentry := Option.join_eq_some_iff.mp hj
    rw [setActive_of_entry hentry, Option.some.injEq] at hs
    exact .inl ⟨p, hentry, hs.symm⟩

/-- A call leaves everything as it is, or writes the entry of the type it names:
with the pointer it has, the system just constructed, or null. -/
theorem next_cases (hs : next sm c = some sm') :
    (c.subject = none ∧ sm' = sm) ∨
    ∃ S v, c.subject = some S ∧ sm'.entryOf = Function.update sm.entryOf S (some v) ∧
      sm.heap.length ≤ sm'.heap.length ∧
      ∀ p, v = some p → sm.entryOf S = some (some p) ∨
        p = sm.heap.length ∧ p < sm'.heap.length := by
  have hhas : ∀ T, ∀ p, (sm.entryOf T).join = some p → sm.entryOf T = some (some p) :=
    fun T p hp => Option.join_eq_some_iff.mp hp
  have hactive : ∀ T active, sm.setActive active T = some sm' →
      ∃ v, sm'.entryOf = Function.update sm.entryOf T (some v) ∧
        sm.heap.length ≤ sm'.heap.length ∧ ∀ p, v = some p → sm.entryOf T = some (some p) := by
    intro T active hs
    rcases setActive_cases hs with ⟨p, hp, rfl⟩ | ⟨hj, rfl⟩
    · refine ⟨some p, ?_, (List.length_set ..).ge, fun q hq => Option.some.inj hq ▸ hp⟩
      rw [← hp, Function.update_eq_self]
      rfl
    · exact ⟨_, entryOf_has sm T, le_rfl, hhas T⟩
  cases c with
  | add T =>
    obtain rfl := Option.some.inj hs
    have hlen : (sm.add T).1.heap.length = sm.heap.length + 1 := List.length_append
    refine .inr ⟨T, _, rfl, entryOf_add sm T, (Nat.le_succ _).trans hlen.ge, fun p hp => ?_⟩
    rcases hT : sm.entryOf T with - | v
    · rw [hT, Option.getD_none, Option.some.injEq] at hp
      refine .inr ⟨hp.symm, ?_⟩
      show p < (sm.add T).1.heap.length
      omega
    · rw [hT, Option.getD_some] at hp
      exact .inl (by rw [hp])
  | remove T =>
    obtain rfl := Option.some.inj hs
    exact .inr ⟨T, none, rfl, entryOf_remove_eq sm T, (congrArg _ (heap_remove sm T)).ge, by simp⟩
  | activate T =>
    rw [next_activate] at hs
    obtain ⟨v, hv, hlen, hold⟩ := hactive T true hs
    exact .inr ⟨T, v, rfl, hv, hlen, fun p hp => .inl (hold p hp)⟩
  | deactivate T =>
    rw [next_deactivate] at hs
    obtain ⟨v, hv, hlen, hold⟩ := hactive T false hs
    exact .inr ⟨T, v, rfl, hv, hlen, fun p hp => .inl (hold p hp)⟩
  | has T =>
    obtain rfl := Option.some.inj hs
    exact .inr ⟨T, _, rfl, entryOf_has sm T, le_rfl, fun p hp => .inl (hhas T p hp)⟩
  | update => exact .inl ⟨rfl, next_update hs⟩

/-! ### Which types have an entry -/

theorem isSome_entryOf_next (hs : next sm c = some sm') (T : κ) :
    (sm'.entryOf T).isSome ↔ (sm.entryOf T).isSome ∨ c.subject = some T := by
  rcases next_cases hs with ⟨hc, rfl⟩ | ⟨S, v, hc, hentry, -, -⟩
  · rw [hc]
    simp
  · rw [hentry, hc, Option.some.injEq]
    by_cases hT : T = S
    · subst hT
      simp
    · rw [Function.update_of_ne hT]
      exact (or_iff_left fun e => hT e.symm).symm

/-- A type has an entry once a call has named it. -/
theorem isSome_entryOf_run (hs : Machine.run next sm calls = some sm') (T : κ) :
    (sm'.entryOf T).isSome ↔ (sm.entryOf T).isSome ∨ ∃ c ∈ calls, c.subject = some T := by
  induction calls generalizing sm with
  | nil =>
    obtain rfl := Option.some.inj hs
    simp
  | cons c calls ih =>
    obtain ⟨a, ha, hs⟩ := Option.bind_eq_some_iff.mp hs
    rw [ih hs, isSome_entryOf_next ha, or_assoc, List.exists_mem_cons_iff]

/-! ### No system is stored for two types -/

/-- The pointers of the map are to constructed systems, and to different ones. -/
structure Entered (sm : SystemManager κ) : Prop where
  lt : ∀ {T p}, sm.entryOf T = some (some p) → p < sm.heap.length
  inj : ∀ {S T p}, sm.entryOf S = some (some p) → sm.entryOf T = some (some p) → S = T

omit [DecidableEq κ] in
theorem entered_init (ids : TypeIds κ) : Entered (init ids) where
  lt h := by
    rw [entryOf_init] at h
    cases h
  inj h := by
    rw [entryOf_init] at h
    cases h

theorem Entered.next (h : Entered sm) (hs : SystemManager.next sm c = some sm') :
    Entered sm' := by
  rcases next_cases hs with ⟨-, rfl⟩ | ⟨S, v, -, hentry, hlen, hv⟩
  · exact h
  -- an entry of the new map is an old one, or that of the system just constructed
  have hold : ∀ {T p}, sm'.entryOf T = some (some p) →
      sm.entryOf T = some (some p) ∨ T = S ∧ p = sm.heap.length ∧ p < sm'.heap.length := by
    intro T p hT
    rw [hentry] at hT
    by_cases hTS : T = S
    · subst hTS
      rw [Function.update_self, Option.some.injEq] at hT
      rcases hv p hT with he | hp
      · exact .inl he
      · exact .inr ⟨rfl, hp⟩
    · rw [Function.update_of_ne hTS] at hT
      exact .inl hT
  constructor
  · intro T p hT
    rcases hold hT with he | ⟨-, -, hlt⟩
    · exact (h.lt he).trans_le hlen
    · exact hlt
  · intro R T p hR hT
    rcases hold hR with he | ⟨rfl, rfl, -⟩ <;> rcases hold hT with he' | ⟨hTS, hp, -⟩
    · exact h.inj he he'
    · exact absurd (hp ▸ h.lt he) (Nat.lt_irrefl _)
    · exact absurd (h.lt he') (Nat.lt_irrefl _)
    · exact hTS.symm

theorem Entered.run (h : Entered sm) (hs : Machine.run SystemManager.next sm calls = some sm') :
    Entered sm' :=
  Machine.run_invariant (I := Entered) (P := fun _ _ => True) (fun _ _ _ h _ hs => h.next hs) h
    (Machine.Along.of_forall (fun _ _ => trivial) _ calls) hs

/-! ### A system that stays stored -/

/-- Whether the system of `T` is active after a call, if it was `b` before. -/
def Call.switch (T : κ) (b : Bool) : Call κ → Bool
  | .activate S => if S = T then true else b
  | .deactivate S => if S = T then false else b
  | _ => b

/-- `p` is the system stored for `T`, and it is active or not. -/
structure Holds (sm : SystemManager κ) (T : κ) (p : ℕ) (b : Bool) : Prop where
  entered : Entered sm
  entry : sm.entryOf T = some (some p)
  active : sm.heap[p]? = some b

theorem Holds.setActive (h : Holds sm T p b) {active : Bool}
    (hs : sm.setActive active S = some sm') :
    sm'.entryOf T = some (some p) ∧
      sm'.heap[p]? = some (if S = T then active else b) := by
  rcases setActive_cases hs with ⟨q, hq, rfl⟩ | ⟨hj, rfl⟩
  · refine ⟨h.entry, ?_⟩
    show (sm.heap.set q active)[p]? = _
    by_cases hST : S = T
    · subst hST
      obtain rfl := Option.some.inj (Option.some.inj (hq.symm.trans h.entry))
      rw [if_pos rfl, List.getElem?_set_self (h.entered.lt hq)]
    · -- another type has another system
      have hne : q ≠ p := by
        rintro rfl
        exact hST (h.entered.inj hq h.entry)
      rw [if_neg hST, List.getElem?_set_ne hne, h.active]
  · have hST : S ≠ T := by
      rintro rfl
      rw [h.entry] at hj
      cases hj
    rw [entryOf_has, Function.update_of_ne hST.symm, if_neg hST]
    exact ⟨h.entry, h.active⟩

/-- A call other than `Add<T>` and `Remove<T>` leaves the system stored for `T`
in place, and only `Activate<T>` and `Deactivate<T>` switch it. -/
theorem Holds.next (h : Holds sm T p b) (hadd : c ≠ .add T) (hremove : c ≠ .remove T)
    (hs : SystemManager.next sm c = some sm') : Holds sm' T p (c.switch T b) := by
  suffices sm'.entryOf T = some (some p) ∧ sm'.heap[p]? = some (c.switch T b) from
    ⟨h.entered.next hs, this.1, this.2⟩
  cases c with
  | add S =>
    have hST : T ≠ S := fun e => hadd (e ▸ rfl)
    obtain rfl := Option.some.inj hs
    refine ⟨?_, ?_⟩
    · show (sm.add S).1.entryOf T = _
      rw [entryOf_add, Function.update_of_ne hST, h.entry]
    · show (sm.heap ++ [true])[p]? = _
      rw [List.getElem?_append_left (h.entered.lt h.entry)]
      exact h.active
  | remove S =>
    have hST : T ≠ S := fun e => hremove (e ▸ rfl)
    obtain rfl := Option.some.inj hs
    refine ⟨?_, ?_⟩
    · show (sm.remove S).entryOf T = _
      rw [entryOf_remove_eq, Function.update_of_ne hST, h.entry]
    · show (sm.remove S).heap[p]? = _
      rw [heap_remove]
      exact h.active
  | activate S =>
    rw [next_activate] at hs
    exact h.setActive hs
  | deactivate S =>
    rw [next_deactivate] at hs
    exact h.setActive hs
  | has S =>
    obtain rfl := Option.some.inj hs
    refine ⟨?_, h.active⟩
    show (sm.has S).1.entryOf T = _
    by_cases hST : T = S
    · subst hST
      rw [entryOf_has, Function.update_self, h.entry, Option.join_some]
    · rw [entryOf_has, Function.update_of_ne hST, h.entry]
  | update =>
    obtain rfl := next_update hs
    exact ⟨h.entry, h.active⟩

theorem Holds.run (h : Holds sm T p b) (hcalls : ∀ c ∈ calls, c ≠ .add T ∧ c ≠ .remove T)
    (hs : Machine.run SystemManager.next sm calls = some sm') :
    Holds sm' T p (calls.foldl (Call.switch T) b) := by
  induction calls generalizing sm b with
  | nil =>
    obtain rfl := Option.some.inj hs
    exact h
  | cons c calls ih =>
    obtain ⟨⟨hadd, hremove⟩, hcalls⟩ := List.forall_mem_cons.mp hcalls
    obtain ⟨a, ha, hs⟩ := Option.bind_eq_some_iff.mp hs
    exact ih (h.next hadd hremove ha) hcalls hs

/-! ### What `Update` updates -/

omit [DecidableEq κ] in
/-- Where the loop of `Update` is defined, it walks over systems. -/
theorem system_of_rounds {heap : List Bool} {l : List (ℕ × Option ℕ)} {done systems : List ℕ}
    (hs : l.foldlM (visit heap) done = some systems) :
    ∀ entry ∈ l, ∃ p, entry.2 = some p ∧ p < heap.length := by
  induction l generalizing done with
  | nil => exact List.forall_mem_nil _
  | cons entry l ih =>
    obtain ⟨r, hr, hs⟩ := Option.bind_eq_some_iff.mp (List.foldlM_cons.symm.trans hs)
    simp only [visit, Option.bind_eq_bind, Option.bind_eq_some_iff] at hr
    obtain ⟨p, hp, b, hb, -⟩ := hr
    exact List.forall_mem_cons.mpr
      ⟨⟨p, hp, (List.getElem?_eq_some_iff.mp hb).1⟩, ih hs⟩

omit [DecidableEq κ] in
/-- `Update` is defined where no type has a null entry, and only there. -/
theorem Entered.update_defined_iff (h : Entered sm) :
    (∃ systems, sm.update = some systems) ↔ ∀ T, sm.entryOf T ≠ some none := by
  constructor
  · rintro ⟨systems, hs⟩ T hT
    obtain ⟨i, hi, -⟩ := Option.bind_eq_some_iff.mp hT
    obtain ⟨p, hp, -⟩ := system_of_rounds hs (i, none) (mem_toList.mpr ⟨T, hi, hT⟩)
    cases hp
  · intro hnull
    refine ⟨_, visit_rounds (fun ⟨i, v⟩ hmem => ?_) []⟩
    obtain ⟨T, -, hT⟩ := mem_toList.mp hmem
    cases v with
    | none => exact absurd hT (hnull T)
    | some p => exact ⟨p, rfl, h.lt hT⟩

omit [DecidableEq κ] in
theorem update_eq_some {systems : List ℕ} (hs : sm.update = some systems) :
    systems = sm.systems.toList.filterMap (activeOf sm.heap) := by
  have hrounds := visit_rounds (system_of_rounds hs) []
  rw [List.nil_append] at hrounds
  exact Option.some.inj (hs.symm.trans hrounds)

omit [DecidableEq κ] in
/-- The stored system is updated once if it is active, and not otherwise. -/
theorem Holds.count_update (h : Holds sm T p b) {systems : List ℕ}
    (hs : sm.update = some systems) : systems.count p = if b then 1 else 0 := by
  obtain rfl := update_eq_some hs
  have hnodup := nodup_active fun _ _ _ hS hT => h.entered.inj hS hT
  have hmem : p ∈ sm.systems.toList.filterMap (activeOf sm.heap) ↔ b = true := by
    rw [mem_active, h.active, Option.some.injEq]
    exact ⟨fun ⟨_, _, hb⟩ => hb, fun hb => ⟨T, h.entry, hb⟩⟩
  cases b with
  | true => exact List.count_eq_one_of_mem hnodup (hmem.mpr rfl)
  | false => exact List.count_eq_zero.mpr fun hp => Bool.false_ne_true (hmem.mp hp)

/-! ### `Add` -/

/-- From here until the next `Add<T>` or `Remove<T>`, whatever is called:
`Has<T>()` is true, `system` is the system stored for `T`, `Update` is defined
unless another type has a null entry, and updates it once while it is active and not
otherwise, and `Activate<T>` and `Deactivate<T>` switch it. -/
def Registered (sm : SystemManager κ) (T : κ) (system : ℕ) : Prop :=
  ∀ calls sm', (∀ c ∈ calls, c ≠ .add T ∧ c ≠ .remove T) →
    Machine.run next sm calls = some sm' →
    (sm'.has T).2 = true ∧ sm'.entryOf T = some (some system) ∧
    ((∃ systems, sm'.update = some systems) ↔ ∀ S, S ≠ T → sm'.entryOf S ≠ some none) ∧
    (∀ systems, sm'.update = some systems →
      systems.count system = if calls.foldl (Call.switch T) true then 1 else 0) ∧
    ∀ active, ∃ sm'', sm'.setActive active T = some sm'' ∧
      sm''.heap = sm'.heap.set system active

theorem Holds.registered (h : Holds sm T p true) : Registered sm T p := by
  intro calls sm' hcalls hs
  have h' := h.run hcalls hs
  refine ⟨?_, h'.entry, ?_, fun systems hsys => h'.count_update hsys,
    fun active => ⟨_, setActive_of_entry h'.entry, rfl⟩⟩
  · rw [has_snd, h'.entry]
    rfl
  · rw [h'.entered.update_defined_iff]
    refine ⟨fun hnull S _ => hnull S, fun hothers S hS => ?_⟩
    have hST : S ≠ T := by
      rintro rfl
      rw [h'.entry] at hS
      cases hS
    exact hothers S hST hS

/-- A system that is added where `T` has no entry is stored. -/
theorem Entered.holds_add (h : Entered sm) (hT : sm.entryOf T = none) :
    Holds (sm.add T).1 T (sm.add T).2 true where
  entered := h.next (c := .add T) rfl
  entry := by
    rw [entryOf_add, Function.update_self, hT]
    rfl
  active := List.getElem?_concat_length

/-- **`Add` registers the system it returns exactly if it is the first call for
its type.** After any history of calls, the system that `Add<T>` returns is the
one stored, updated and switched for `T` until the next `Add<T>` or
`Remove<T>`, if and only if no call of the history names `T`. -/
theorem add_registers_iff {ids : TypeIds κ} (hs : Machine.run next (init ids) calls = some sm)
    (T : κ) :
    Registered (sm.add T).1 T (sm.add T).2 ↔ ∀ c ∈ calls, c.subject ≠ some T := by
  have hentered := (entered_init ids).run hs
  have hnamed := isSome_entryOf_run hs T
  rw [entryOf_init, Option.isSome_none, Bool.false_eq_true, false_or] at hnamed
  constructor
  · intro hreg c hc hT
    -- the entry of `T` is an old one, and the system returned is new
    obtain ⟨v, hv⟩ := Option.isSome_iff_exists.mp (hnamed.mpr ⟨c, hc, hT⟩)
    have hentry := (hreg [] _ (List.forall_mem_nil _) rfl).2.1
    rw [entryOf_add, Function.update_self, hv, Option.getD_some, Option.some.injEq] at hentry
    rw [hentry] at hv
    exact absurd (hentered.lt hv) (Nat.lt_irrefl _)
  · intro hno
    refine (hentered.holds_add ?_).registered
    rw [← Option.not_isSome_iff_eq_none, hnamed]
    rintro ⟨c, hc, hT⟩
    exact hno c hc hT

/-- Another type has been added and asked for; `Add` of a new one registers its
system, and `Update` updates both. -/
theorem add_registers_iff_other :
    let calls : List (Call Bool) := [.add true, .has true]
    ∃ sm, Machine.run next (init .init) calls = some sm ∧
      Registered (sm.add false).1 false (sm.add false).2 ∧
      (sm.add false).2 = 1 ∧ (sm.add false).1.update = some [0, 1] := by
  intro calls
  have hs : Machine.run next (init .init) calls = some _ := rfl
  exact ⟨_, hs, (add_registers_iff hs false).mpr (by decide), rfl, rfl⟩

/-- A second `Add` returns system 1 and leaves system 0 stored; after a
`Remove`, or one `Has`, `Add` leaves the null entry, and `Has` is false. -/
theorem add_returns_unregistered :
    let sm : SystemManager Unit := init .init
    answers sm [.add (), .add (), .update] =
        some [.system 0, .system 1, .updated [0]] ∧
      answers sm [.add (), .remove (), .add (), .has ()] =
        some [.system 0, .done, .system 1, .bool false] ∧
      answers sm [.has (), .add (), .has ()] = some [.bool false, .system 0, .bool false] ∧
      ¬ Registered ((sm.add ()).1.add ()).1 () ((sm.add ()).1.add ()).2 := by
  refine ⟨rfl, rfl, rfl, fun hreg => ?_⟩
  have hcount : [0].count 1 = 1 := (hreg [] _ (List.forall_mem_nil _) rfl).2.2.2.1 [0] rfl
  simp at hcount

end SystemManager

end Indie
