/-
Indie/Reentrant.lean

`Update` of systems that use their manager.

`for (auto &system : _systems)` walks over a `std::map`, and the systems it calls may
change the map: `Add` makes an entry, above or below the one at hand, and `Remove`, or
`Has`, `Activate` and `Deactivate` of a type that has no entry, leave a null pointer.
No entry is ever erased, so the iterator stays good, and `++` takes it to the next key
there is by then.

The loop is a walk over the ids, each looked up when its turn comes
(`update_reentrant`).  A system added by another one is updated in the same loop if its
id is above, and a null pointer left above is followed in the same loop.  Systems that
only add systems and switch registered ones on leave the `Update` of all the others as
it is (`update_gentle`).

`σ` is all the systems work on beside the manager, the entity manager for one.
-/
import Indie.SystemOrder

namespace Indie

/-! ### The walk -/

namespace SystemMap

/-- What an iterator still has before it that goes upwards from the key `i`. -/
def upper (m : SystemMap) (i : ℕ) : List (ℕ × Option ℕ) :=
  m.toList.filter fun entry => decide (i ≤ entry.1)

variable {m : SystemMap} {i : ℕ} {v : Option ℕ}

theorem mem_upper {j : ℕ} : (j, v) ∈ m.upper i ↔ m[j]? = some v ∧ i ≤ j := by
  rw [upper, List.mem_filter, Std.TreeMap.mem_toList_iff_getElem?_eq_some, decide_eq_true_iff]

theorem sorted_upper (m : SystemMap) (i : ℕ) :
    (m.upper i).Pairwise fun x y => x.1 < y.1 :=
  (Std.TreeMap.ordered_keys_toList.imp Nat.compare_eq_lt.mp).filter _

theorem upper_zero (m : SystemMap) : m.upper 0 = m.toList :=
  List.filter_eq_self.mpr fun entry _ => decide_eq_true (Nat.zero_le entry.1)

theorem upper_of_none (h : m[i]? = none) : m.upper i = m.upper (i + 1) := by
  refine List.filter_congr fun entry he => decide_eq_decide.mpr ?_
  obtain ⟨j, v⟩ := entry
  have hne : i ≠ j := by
    rintro rfl
    rw [Std.TreeMap.mem_toList_iff_getElem?_eq_some, h] at he
    cases he
  exact ⟨fun hle => Nat.lt_of_le_of_ne hle hne, fun hlt => Nat.le_of_succ_le hlt⟩

theorem upper_of_some (h : m[i]? = some v) : m.upper i = (i, v) :: m.upper (i + 1) := by
  have : Std.Antisymm fun x y : ℕ × Option ℕ => x.1 < y.1 :=
    ⟨fun _ _ hxy hyx => absurd hyx (Nat.lt_asymm hxy)⟩
  have : Std.Irrefl fun x y : ℕ × Option ℕ => x.1 < y.1 := ⟨fun x => Nat.lt_irrefl x.1⟩
  refine List.Pairwise.eq_of_mem_iff (r := fun x y => x.1 < y.1) (m.sorted_upper i) ?_ ?_
  · refine List.pairwise_cons.mpr ⟨?_, m.sorted_upper (i + 1)⟩
    rintro ⟨j, u⟩ hj
    exact (mem_upper.mp hj).2
  · rintro ⟨j, u⟩
    rw [List.mem_cons, mem_upper, mem_upper, Prod.mk.injEq]
    constructor
    · rintro ⟨hj, hle⟩
      rcases Nat.eq_or_lt_of_le hle with rfl | hlt
      · exact .inl ⟨rfl, Option.some.inj (hj.symm.trans h)⟩
      · exact .inr ⟨hj, hlt⟩
    · rintro (⟨rfl, rfl⟩ | ⟨hj, hlt⟩)
      · exact ⟨h, le_rfl⟩
      · exact ⟨hj, Nat.le_of_succ_le hlt⟩

theorem upper_of_lt (h : ∀ j ∈ m, j < i) : m.upper i = [] := by
  refine List.filter_eq_nil_iff.mpr ?_
  rintro ⟨j, v⟩ hj hle
  rw [Std.TreeMap.mem_toList_iff_getElem?_eq_some] at hj
  have hlt := h j (Std.TreeMap.mem_iff_isSome_getElem?.mpr (by rw [hj]; rfl))
  exact absurd (of_decide_eq_true hle) (Nat.not_le.mpr hlt)

end SystemMap

namespace SystemManager

variable {κ σ : Type}

/-- What a system does in its `Update`. -/
abbrev Behaviour (κ σ : Type) := ℕ → SystemManager κ × σ → Option (SystemManager κ × σ)

/-- The body of the loop of `Update()`, on the systems it has updated so far. -/
def round (does : Behaviour κ σ) (entry : Option ℕ) (x : (SystemManager κ × σ) × List ℕ) :
    Option ((SystemManager κ × σ) × List ℕ) := do
  let system ← entry
  let isActive ← x.1.1.heap[system]?
  if isActive then return (← does system x.1, x.2 ++ [system]) else return x

/-- The rest of the loop, the iterator on its way up from the key `i`. -/
def updateFrom (does : Behaviour κ σ) : ℕ → ℕ → (SystemManager κ × σ) × List ℕ →
    Option ((SystemManager κ × σ) × List ℕ)
  | 0, i, x => if (x.1.1.systems.upper i).isEmpty then some x else none
  | fuel + 1, i, x =>
    match (x.1.1.systems.upper i).head? with
    | none => some x
    | some (j, entry) => (round does entry x).bind (updateFrom does fuel (j + 1))

/-- `Update()`, with at most `fuel` rounds. -/
def updateWith (does : Behaviour κ σ) (fuel : ℕ) (x : SystemManager κ × σ) :
    Option ((SystemManager κ × σ) × List ℕ) :=
  updateFrom does fuel 0 (x, [])

/-- The turn of the id `i`. -/
def turn (does : Behaviour κ σ) (i : ℕ) (x : (SystemManager κ × σ) × List ℕ) :
    Option ((SystemManager κ × σ) × List ℕ) :=
  match x.1.1.systems[i]? with
  | none => some x
  | some entry => round does entry x

variable {does : Behaviour κ σ} {x y : (SystemManager κ × σ) × List ℕ} {p : ℕ}

theorem round_eq_some {entry : Option ℕ} (hs : round does entry x = some y) :
    ∃ p, entry = some p ∧ ((x.1.1.heap[p]? = some false ∧ y = x) ∨
      x.1.1.heap[p]? = some true ∧ does p x.1 = some y.1 ∧ y.2 = x.2 ++ [p]) := by
  obtain ⟨p, rfl, hs⟩ := Option.bind_eq_some_iff.mp hs
  obtain ⟨b, hb, hs⟩ := Option.bind_eq_some_iff.mp hs
  cases b with
  | false => exact ⟨p, rfl, .inl ⟨hb, (Option.some.inj hs).symm⟩⟩
  | true =>
    obtain ⟨z, hz, hs⟩ := Option.bind_eq_some_iff.mp hs
    obtain rfl := Option.some.inj hs
    exact ⟨p, rfl, .inr ⟨hb, hz, rfl⟩⟩

/-- With fuel for each id, the loop gives each id its turn. -/
theorem updateFrom_eq {J : SystemManager κ → Prop} {n : ℕ}
    (hlt : ∀ sm, J sm → ∀ i ∈ sm.systems, i < n)
    (hdoes : ∀ p x y, J x.1 → does p x = some y → J y.1) (k : ℕ) :
    ∀ {i fuel : ℕ} {x : (SystemManager κ × σ) × List ℕ}, i + k = n → k ≤ fuel → J x.1.1 →
      updateFrom does fuel i x = (List.range' i k).foldlM (fun x i => turn does i x) x := by
  induction k with
  | zero =>
    intro i fuel x hi _ hx
    have hnil : x.1.1.systems.upper i = [] :=
      SystemMap.upper_of_lt fun j hj => (hlt x.1.1 hx j hj).trans_eq hi.symm
    cases fuel with
    | zero =>
      rw [updateFrom, hnil]
      rfl
    | succ fuel =>
      rw [updateFrom, hnil]
      rfl
  | succ k ih =>
    intro i fuel x hi hfuel hx
    obtain ⟨fuel, rfl⟩ := Nat.exists_eq_succ_of_ne_zero (Nat.ne_zero_of_lt hfuel)
    rw [List.range'_succ, List.foldlM_cons, turn]
    rcases hentry : x.1.1.systems[i]? with - | entry
    · -- the iterator has passed the id
      have hskip : updateFrom does (fuel + 1) i x = updateFrom does (fuel + 1) (i + 1) x := by
        rw [updateFrom, updateFrom, SystemMap.upper_of_none hentry]
      rw [hskip]
      exact ih (by omega) (by omega) hx
    · rw [updateFrom, SystemMap.upper_of_some hentry]
      show (round does entry x).bind _ = (round does entry x).bind _
      refine Option.bind_congr fun y hy => ih (by omega) (by omega) ?_
      obtain ⟨p, -, ⟨-, rfl⟩ | ⟨-, hz, -⟩⟩ := round_eq_some hy
      · exact hx
      · exact hdoes p x.1 y.1 hx hz

/-! ### What systems may do -/

variable [DecidableEq κ] {sm sm' : SystemManager κ} {P : SystemManager κ → Call κ → Prop}
  {T : κ} {q : ℕ}

/-- A call of the manager that meets `P`, or a call anywhere else that names a type. -/
inductive Act (P : SystemManager κ → Call κ → Prop) : SystemManager κ → SystemManager κ → Prop
  | call {sm sm' : SystemManager κ} (c : Call κ) (hP : P sm c) (hs : next sm c = some sm') :
      Act P sm sm'
  | names (sm : SystemManager κ) (T : κ) : Act P sm (sm.numbers T)

/-- Any number of them. -/
def Acts (P : SystemManager κ → Call κ → Prop) : SystemManager κ → SystemManager κ → Prop :=
  Relation.ReflTransGen (Act P)

/-- The types have their ids in the order of some list, and the map keeps some agenda. -/
def Tracked (sm : SystemManager κ) : Prop := ∃ names a, Follows names sm a

omit [DecidableEq κ] in
theorem tracked_init : Tracked (init .init : SystemManager κ) := ⟨[], .empty, .init⟩

theorem Tracked.act (h : Tracked sm) (ha : Act P sm sm') : Tracked sm' := by
  obtain ⟨names, a, h⟩ := h
  cases ha with
  | call c hP hs =>
    obtain ⟨x, hx, rfl⟩ := Option.map_eq_some_iff.mp hs
    have hcall := h.call c
    rw [hx] at hcall
    revert hcall
    generalize a.call names c = y
    intro hcall
    cases hcall with
    | some hxy => exact ⟨_, _, hxy.2⟩
  | names T => exact ⟨_, a, h.sees (.has T)⟩

theorem Tracked.acts (h : Tracked sm) (ha : Acts P sm sm') : Tracked sm' := by
  induction ha with
  | refl => exact h
  | tail _ hstep ih => exact ih.act hstep

omit [DecidableEq κ] in
/-- There is a key for at most each type. -/
theorem Tracked.lt_card [Fintype κ] (h : Tracked sm) {i : ℕ} (hi : i ∈ sm.systems) :
    i < Fintype.card κ := by
  obtain ⟨names, a, h⟩ := h
  have hnodup : names.Nodup := by
    rw [List.nodup_iff_getElem?_ne_getElem?]
    intro j k hjk hk heq
    have hT : names[k]? = some names[k] := List.getElem?_eq_getElem hk
    have hj := (h.numbered.id_iff names[k] j).mpr (heq.trans hT)
    have hk := (h.numbered.id_iff names[k] k).mpr hT
    exact absurd (Option.some.inj (hj.symm.trans hk)) (Nat.ne_of_lt hjk)
  obtain ⟨T, hT⟩ := sm.keys i hi
  exact (List.getElem?_eq_some_iff.mp ((h.numbered.id_iff T i).mp hT)).1.trans_le
    hnodup.length_le_card

theorem Act.heap_le (ha : Act P sm sm') : sm.heap.length ≤ sm'.heap.length := by
  cases ha with
  | call c hP hs =>
    obtain ⟨-, rfl⟩ | ⟨-, -, -, -, hlen, -⟩ := next_cases hs
    · exact le_rfl
    · exact hlen
  | names T => exact le_rfl

/-- A type keeps its id. -/
theorem Act.id (ha : Act P sm sm') {i : ℕ} (hT : sm.ids.id T = some i) :
    sm'.ids.id T = some i := by
  cases ha with
  | call c hP hs =>
    obtain ⟨x, hx, rfl⟩ := Option.map_eq_some_iff.mp hs
    rw [ids_call hx, sees]
    rcases c.subject with - | S
    · exact hT
    · exact TypeIds.id_getSystemId_mono hT S
  | names S => exact TypeIds.id_getSystemId_mono hT S

/-- A system is stored for the type it was stored for, or new. -/
theorem Act.system (ha : Act P sm sm') (hT : sm'.entryOf T = some (some q)) :
    sm.entryOf T = some (some q) ∨ q = sm.heap.length := by
  cases ha with
  | call c hP hs =>
    obtain ⟨-, rfl⟩ | ⟨S, v, -, hentry, -, hv⟩ := next_cases hs
    · exact .inl hT
    · rw [hentry] at hT
      by_cases hTS : T = S
      · subst hTS
        rw [Function.update_self, Option.some.injEq] at hT
        exact (hv q hT).imp_right And.left
      · rw [Function.update_of_ne hTS] at hT
        exact .inl hT
  | names S =>
    rw [entryOf_numbers] at hT
    exact .inl hT

/-! ### Once each -/

/-- The system is made, and if it is stored, then below the id `i`. -/
def Past (i q : ℕ) (sm : SystemManager κ) : Prop :=
  q < sm.heap.length ∧ ∀ T, sm.entryOf T = some (some q) → ∃ j < i, sm.ids.id T = some j

theorem Past.acts {i : ℕ} (h : Past i q sm) (ha : Acts P sm sm') : Past i q sm' := by
  induction ha with
  | refl => exact h
  | tail _ hstep ih =>
    refine ⟨ih.1.trans_le hstep.heap_le, fun T hT => ?_⟩
    rcases hstep.system hT with hold | rfl
    · obtain ⟨j, hj, hid⟩ := ih.2 T hold
      exact ⟨j, hj, hstep.id hid⟩
    · exact absurd ih.1 (Nat.lt_irrefl _)

/-- A turn updates a system no earlier turn has updated, or none. -/
theorem turn_once (h : Tracked x.1.1) {i : ℕ}
    (hdoes : ∀ p x y, does p x = some y → Acts P x.1 y.1) (hnodup : x.2.Nodup)
    (hpast : ∀ q ∈ x.2, Past i q x.1.1) (hs : turn does i x = some y) :
    Acts P x.1.1 y.1.1 ∧ y.2.Nodup ∧ ∀ q ∈ y.2, Past (i + 1) q y.1.1 := by
  have hlater : ∀ q ∈ x.2, Past (i + 1) q x.1.1 := fun q hq =>
    ⟨(hpast q hq).1, fun T hT => (hpast q hq).2 T hT |>.imp fun j hj => ⟨hj.1.le.trans_lt
      (Nat.lt_succ_self i), hj.2⟩⟩
  rw [turn] at hs
  rcases hentry : x.1.1.systems[i]? with - | entry
  · rw [hentry] at hs
    obtain rfl := Option.some.inj hs
    exact ⟨.refl, hnodup, hlater⟩
  · rw [hentry] at hs
    obtain ⟨p, rfl, ⟨-, rfl⟩ | ⟨-, hz, hupdated⟩⟩ := round_eq_some hs
    · exact ⟨.refl, hnodup, hlater⟩
    · obtain ⟨names, a, hf⟩ := h
      obtain ⟨T, hid, hT⟩ := mem_toList.mp (Std.TreeMap.mem_toList_iff_getElem?_eq_some.mpr hentry)
      have hacts := hdoes p x.1 y.1 hz
      have hp : Past (i + 1) p x.1.1 := by
        refine ⟨hf.entered.lt hT, fun S hS => ⟨i, Nat.lt_succ_self i, ?_⟩⟩
        rw [hf.entered.inj hS hT, hid]
      have hnew : p ∉ x.2 := by
        intro hmem
        obtain ⟨j, hj, hid'⟩ := (hpast p hmem).2 T hT
        exact absurd (Option.some.inj (hid'.symm.trans hid)) (Nat.ne_of_lt hj)
      rw [hupdated]
      refine ⟨hacts, ?_, fun q hq => ?_⟩
      · rw [List.nodup_append]
        exact ⟨hnodup, List.nodup_singleton p, fun a ha b hb e =>
          hnew (List.mem_singleton.mp hb ▸ e ▸ ha)⟩
      · rcases List.mem_append.mp hq with hq | hq
        · exact (hlater q hq).acts hacts
        · exact (List.mem_singleton.mp hq ▸ hp).acts hacts

theorem turns_once (hdoes : ∀ p x y, does p x = some y → Acts P x.1 y.1) (k : ℕ) :
    ∀ {i : ℕ} {x : (SystemManager κ × σ) × List ℕ}, Tracked x.1.1 → x.2.Nodup →
      (∀ q ∈ x.2, Past i q x.1.1) →
      (List.range' i k).foldlM (fun x i => turn does i x) x = some y →
        Acts P x.1.1 y.1.1 ∧ y.2.Nodup := by
  induction k with
  | zero =>
    intro i x _ hnodup _ hs
    obtain rfl := Option.some.inj hs
    exact ⟨.refl, hnodup⟩
  | succ k ih =>
    intro i x h hnodup hpast hs
    rw [List.range'_succ, List.foldlM_cons] at hs
    obtain ⟨z, hz, hs⟩ := Option.bind_eq_some_iff.mp hs
    obtain ⟨hacts, hnodup', hpast'⟩ := turn_once h hdoes hnodup hpast hz
    obtain ⟨hrest, hy⟩ := ih (h.acts hacts) hnodup' hpast' hs
    exact ⟨hacts.trans hrest, hy⟩

/-- **`Update` gives each id its turn, in order, whatever the systems do.**  Systems may
make any calls of the manager but `Update`, and types may be named anywhere else; each
id is looked up when its turn comes, so that an entry made by a system is met in the same
loop if its id is above, and a null pointer left above is followed.  Nobody is updated
twice, and as many rounds as there are types are enough. -/
theorem update_reentrant [Fintype κ] (h : Tracked sm) (does : Behaviour κ σ)
    (hdoes : ∀ p x y, does p x = some y → Acts (fun _ c => c ≠ .update) x.1 y.1) (v : σ)
    (fuel : ℕ) (hfuel : Fintype.card κ ≤ fuel) :
    updateWith does fuel (sm, v) =
        (List.range (Fintype.card κ)).foldlM (fun x i => turn does i x) ((sm, v), []) ∧
      ∀ y updated, updateWith does fuel (sm, v) = some (y, updated) →
        Acts (fun _ c => c ≠ .update) sm y.1 ∧ updated.Nodup := by
  have hloop : updateWith does fuel (sm, v) =
      (List.range (Fintype.card κ)).foldlM (fun x i => turn does i x) ((sm, v), []) := by
    rw [List.range_eq_range']
    exact updateFrom_eq (fun sm h i hi => h.lt_card hi)
      (fun p x y hx hs => hx.acts (hdoes p x y hs)) _ (Nat.zero_add _) hfuel h
  refine ⟨hloop, fun y updated hs => ?_⟩
  rw [hloop, List.range_eq_range'] at hs
  exact turns_once hdoes _ h List.nodup_nil (List.forall_mem_nil _) hs

/-- The first system adds a second one, of a type nobody has named, in its `Update`. -/
theorem update_reentrant_add :
    let sm : SystemManager Bool := ((init .init).add true).1
    let does : Behaviour Bool Unit := fun p x =>
      if p = 0 then some ((x.1.add false).1, x.2) else some x
    ∃ y updated, updateWith does 2 (sm, ()) = some (y, updated) ∧ updated = [0, 1] ∧
      updated.Nodup := by
  intro sm does
  have htracked : Tracked sm := tracked_init.act (.call (P := fun _ c => c ≠ .update) (.add true)
    nofun rfl)
  have hdoes : ∀ p x y, does p x = some y → Acts (fun _ c => c ≠ .update) x.1 y.1 := by
    intro p x y hs
    show Relation.ReflTransGen _ _ _
    by_cases hp : p = 0
    · obtain rfl := Option.some.inj ((if_pos hp).symm.trans hs)
      exact .single (.call (.add false) nofun rfl)
    · obtain rfl := Option.some.inj ((if_neg hp).symm.trans hs)
      exact .refl
  obtain ⟨-, hnodup⟩ := update_reentrant htracked does hdoes () 2 le_rfl
  have hrun : (updateWith does 2 (sm, ())).map Prod.snd = some [0, 1] := by rfl
  obtain ⟨⟨y, updated⟩, hs, hupdated⟩ := Option.map_eq_some_iff.mp hrun
  exact ⟨y, updated, hs, hupdated, (hnodup y updated hs).2⟩

/-! ### Systems that take nothing away -/

/-- The call adds a system, or asks for or switches on one that is there. -/
def Gentle (sm : SystemManager κ) : Call κ → Prop
  | .add _ => True
  | .has T | .activate T => ∃ p, sm.entryOf T = some (some p)
  | .remove _ | .deactivate _ | .update => False

/-- What was there is there, and active if it was; the rest is new. -/
structure Kept (sm sm' : SystemManager κ) : Prop where
  acts : Acts Gentle sm sm'
  entry : ∀ {T p}, sm.entryOf T = some (some p) → sm'.entryOf T = some (some p)
  active : ∀ {q : ℕ}, sm.heap[q]? = some true → sm'.heap[q]? = some true
  nonnull : ∀ T, sm'.entryOf T ≠ some none
  old : ∀ {T q}, sm'.entryOf T = some (some q) → q < sm.heap.length →
    sm.entryOf T = some (some q)

theorem kept_refl (h : ∀ T, sm.entryOf T ≠ some none) : Kept sm sm where
  acts := .refl
  entry := id
  active := id
  nonnull := h
  old hT _ := hT

theorem Acts.heap_le (ha : Acts P sm sm') : sm.heap.length ≤ sm'.heap.length := by
  induction ha with
  | refl => exact le_rfl
  | tail _ hstep ih => exact ih.trans hstep.heap_le

theorem Kept.act {tm : SystemManager κ} (h : Kept sm sm') (ha : Act Gentle sm' tm) :
    Kept sm tm := by
  have hold : ∀ {T q}, tm.entryOf T = some (some q) → q < sm.heap.length →
      sm.entryOf T = some (some q) := by
    intro T q hT hlt
    rcases ha.system hT with hT | rfl
    · exact h.old hT hlt
    · exact absurd (hlt.trans_le h.acts.heap_le) (Nat.lt_irrefl _)
  suffices (∀ {T p}, sm'.entryOf T = some (some p) → tm.entryOf T = some (some p)) ∧
      (∀ {q : ℕ}, sm'.heap[q]? = some true → tm.heap[q]? = some true) ∧
      ∀ T, tm.entryOf T ≠ some none from
    ⟨h.acts.tail ha, fun hT => this.1 (h.entry hT), fun hq => this.2.1 (h.active hq),
      this.2.2, hold⟩
  cases ha with
  | names S =>
    refine ⟨fun hT => ?_, fun hq => hq, fun T => ?_⟩
    · rw [entryOf_numbers, hT]
    · rw [entryOf_numbers]
      exact h.nonnull T
  | call c hP hs =>
    cases c with
    | add S =>
      obtain rfl := Option.some.inj hs
      have hentry := entryOf_add sm' S
      refine ⟨fun {T p} hT => ?_, fun {q} hq => ?_, fun T hT => ?_⟩
      · show (sm'.add S).1.entryOf T = _
        rw [hentry]
        by_cases hTS : T = S
        · subst hTS
          rw [Function.update_self, hT]
          rfl
        · rw [Function.update_of_ne hTS, hT]
      · show (sm'.heap ++ [true])[q]? = _
        rw [List.getElem?_append_left (List.getElem?_eq_some_iff.mp hq).1, hq]
      · change (sm'.add S).1.entryOf T = _ at hT
        rw [hentry] at hT
        by_cases hTS : T = S
        · subst hTS
          rw [Function.update_self, Option.some.injEq] at hT
          rcases hold : sm'.entryOf T with - | v
          · rw [hold] at hT
            cases hT
          · rw [hold, Option.getD_some] at hT
            exact h.nonnull T (hT ▸ hold)
        · rw [Function.update_of_ne hTS] at hT
          exact h.nonnull T hT
    | has S =>
      obtain ⟨p, hp⟩ := hP
      obtain rfl := Option.some.inj hs
      have hsame : (sm'.has S).1 = sm' := by rw [has_of_entry (by rw [hp]; rfl)]
      show (∀ {T p}, _ → (sm'.has S).1.entryOf T = _) ∧ (∀ {q : ℕ}, _ → _) ∧ _
      rw [hsame]
      exact ⟨id, id, h.nonnull⟩
    | activate S =>
      obtain ⟨p, hp⟩ := hP
      rw [next_activate, setActive_of_entry hp, Option.some.injEq] at hs
      subst hs
      refine ⟨id, fun {q} hq => ?_, h.nonnull⟩
      show (sm'.heap.set p true)[q]? = _
      by_cases hqp : p = q
      · subst hqp
        exact List.getElem?_set_self (List.getElem?_eq_some_iff.mp hq).1
      · rw [List.getElem?_set_ne hqp, hq]
    | remove S => cases hP
    | deactivate S => cases hP
    | update => cases hP

theorem Kept.acts_trans {tm : SystemManager κ} (h : Kept sm sm') (ha : Acts Gentle sm' tm) :
    Kept sm tm := by
  induction ha with
  | refl => exact h
  | tail _ hstep ih => exact ih.act hstep

theorem Acts.id (ha : Acts P sm sm') {i : ℕ} (hT : sm.ids.id T = some i) :
    sm'.ids.id T = some i := by
  induction ha with
  | refl => exact hT
  | tail _ hstep ih => exact hstep.id ih

omit [DecidableEq κ] in
theorem entryOf_eq_some {v : Option ℕ} :
    sm.entryOf T = some v ↔ ∃ i, sm.ids.id T = some i ∧ sm.systems[i]? = some v :=
  Option.bind_eq_some_iff

omit [DecidableEq κ] in
/-- A key of the map is the id of a type, and its entry that of the type. -/
theorem exists_type {i : ℕ} {v : Option ℕ} (h : sm.systems[i]? = some v) :
    ∃ T, sm.ids.id T = some i ∧ sm.entryOf T = some v :=
  mem_toList.mp (Std.TreeMap.mem_toList_iff_getElem?_eq_some.mpr h)

/-- A system that was there at the start. -/
theorem Kept.systems {i p : ℕ} (h : Kept sm sm') (hi : sm.systems[i]? = some (some p)) :
    sm'.systems[i]? = some (some p) := by
  obtain ⟨T, hid, hT⟩ := exists_type hi
  obtain ⟨j, hj, hp⟩ := entryOf_eq_some.mp (h.entry hT)
  obtain rfl := Option.some.inj (hj.symm.trans (h.acts.id hid))
  exact hp

/-- Where there was nothing at the start, there is a new system or nothing. -/
theorem Kept.systems_new {i : ℕ} {v : Option ℕ} (h : Kept sm sm') (hi : sm.systems[i]? = none)
    (hv : sm'.systems[i]? = some v) : ∃ q, v = some q ∧ sm.heap.length ≤ q := by
  obtain ⟨T, hid, hT⟩ := exists_type hv
  rcases v with - | q
  · exact absurd hT (h.nonnull T)
  · refine ⟨q, rfl, Nat.le_of_not_lt fun hlt => ?_⟩
    obtain ⟨j, hj, hq⟩ := entryOf_eq_some.mp (h.old hT hlt)
    obtain rfl := Option.some.inj ((h.acts.id hj).symm.trans hid)
    rw [hi] at hq
    cases hq

/-- The body of the loop on a system, where systems are gentle. -/
theorem round_gentle
    (hdoes : ∀ p x, Acts Gentle sm x.1 → ∃ y, does p x = some y ∧ Acts Gentle x.1 y.1)
    (h : Kept sm x.1.1) (ht : Tracked x.1.1) (hq : q < x.1.1.heap.length) :
    ∃ y, round does (some q) x = some y ∧ Kept sm y.1.1 ∧ Tracked y.1.1 ∧
      y.2 = if x.1.1.heap[q]? = some true then x.2 ++ [q] else x.2 := by
  have hb : x.1.1.heap[q]? = some x.1.1.heap[q] := List.getElem?_eq_getElem hq
  rw [round, Option.bind_eq_bind, Option.bind_some, hb, Option.bind_eq_bind, Option.bind_some]
  cases x.1.1.heap[q] with
  | false => exact ⟨x, rfl, h, ht, rfl⟩
  | true =>
    obtain ⟨z, hz, hacts⟩ := hdoes q x.1 h.acts
    refine ⟨(z, x.2 ++ [q]), ?_, h.acts_trans hacts, ht.acts hacts, rfl⟩
    rw [hz]
    rfl

/-- A turn, as far as the systems that were active at the start are concerned. -/
theorem turn_gentle
    (hdoes : ∀ p x, Acts Gentle sm x.1 → ∃ y, does p x = some y ∧ Acts Gentle x.1 y.1)
    (hsm : Tracked sm) (hnull : ∀ T, sm.entryOf T ≠ some none) (h : Kept sm x.1.1)
    (ht : Tracked x.1.1) (i : ℕ) :
    ∃ y, turn does i x = some y ∧ Kept sm y.1.1 ∧ Tracked y.1.1 ∧
      y.2.filter (fun q => sm.heap[q]? == some true) =
        x.2.filter (fun q => sm.heap[q]? == some true) ++
          ((sm.systems[i]?.map fun v => (i, v)).bind (activeOf sm.heap)).toList := by
  have hround : ∀ {p}, x.1.1.systems[i]? = some (some p) →
      ∃ y, turn does i x = some y ∧ Kept sm y.1.1 ∧ Tracked y.1.1 ∧
        y.2 = if x.1.1.heap[p]? = some true then x.2 ++ [p] else x.2 := by
    intro p hp
    obtain ⟨T, -, hT⟩ := exists_type hp
    obtain ⟨names, a, hf⟩ := ht
    rw [turn, hp]
    exact round_gentle hdoes h ⟨names, a, hf⟩ (hf.entered.lt hT)
  rcases hi : sm.systems[i]? with - | v
  · rcases hx : x.1.1.systems[i]? with - | v
    · refine ⟨x, ?_, h, ht, (List.append_nil _).symm⟩
      rw [turn, hx]
    · -- a system made in the loop
      obtain ⟨q, rfl, hle⟩ := h.systems_new hi hx
      obtain ⟨y, hy, hk, ht', hupdated⟩ := hround hx
      refine ⟨y, hy, hk, ht', ?_⟩
      have hnone : sm.heap[q]? = none := List.getElem?_eq_none hle
      rw [hupdated]
      split
      · rw [List.filter_append, List.filter_cons_of_neg (by simp [hnone])]
        rfl
      · exact (List.append_nil _).symm
  · obtain ⟨T, -, hT⟩ := exists_type hi
    rcases v with - | p
    · exact absurd hT (hnull T)
    · obtain ⟨y, hy, hk, ht', hupdated⟩ := hround (h.systems hi)
      refine ⟨y, hy, hk, ht', ?_⟩
      rw [hupdated, Option.map_some, Option.bind_some, activeOf]
      obtain ⟨names, a, hf⟩ := hsm
      obtain ⟨b, hb⟩ : ∃ b, sm.heap[p]? = some b :=
        ⟨_, List.getElem?_eq_getElem (hf.entered.lt hT)⟩
      cases b with
      | true =>
        rw [if_pos (h.active hb), List.filter_append, List.filter_cons_of_pos (by simp [hb]),
          Option.filter_some, if_pos (by simp [hb])]
        rfl
      | false =>
        have hoff : (some p).filter (fun q => sm.heap[q]? == some true) = none := by
          simp [Option.filter, hb]
        rw [hoff]
        split
        · rw [List.filter_append, List.filter_cons_of_neg (by simp [hb])]
          rfl
        · exact (List.append_nil _).symm

theorem turns_gentle
    (hdoes : ∀ p x, Acts Gentle sm x.1 → ∃ y, does p x = some y ∧ Acts Gentle x.1 y.1)
    (hsm : Tracked sm) (hnull : ∀ T, sm.entryOf T ≠ some none) {n : ℕ}
    (hn : ∀ i ∈ sm.systems, i < n) (k : ℕ) :
    ∀ {i : ℕ} {x : (SystemManager κ × σ) × List ℕ}, i + k = n → Kept sm x.1.1 → Tracked x.1.1 →
      ∃ y, (List.range' i k).foldlM (fun x i => turn does i x) x = some y ∧
        y.2.filter (fun q => sm.heap[q]? == some true) =
          x.2.filter (fun q => sm.heap[q]? == some true) ++
            (sm.systems.upper i).filterMap (activeOf sm.heap) := by
  induction k with
  | zero =>
    intro i x hi _ _
    refine ⟨x, rfl, ?_⟩
    have hnil : sm.systems.upper i = [] :=
      SystemMap.upper_of_lt fun j hj => (hn j hj).trans_eq hi.symm
    rw [hnil, List.filterMap_nil, List.append_nil]
  | succ k ih =>
    intro i x hi h ht
    obtain ⟨z, hz, hk, ht', hupdated⟩ := turn_gentle hdoes hsm hnull h ht i
    obtain ⟨y, hy, hrest⟩ := ih (i := i + 1) (by omega) hk ht'
    refine ⟨y, ?_, ?_⟩
    · rw [List.range'_succ, List.foldlM_cons, hz]
      exact hy
    · rw [hrest, hupdated, List.append_assoc]
      congr 1
      rcases hentry : sm.systems[i]? with - | v
      · rw [SystemMap.upper_of_none hentry]
        rfl
      · rw [SystemMap.upper_of_some hentry, List.filterMap_cons]
        show (activeOf sm.heap (i, v)).toList ++ _ = _
        rcases activeOf sm.heap (i, v) with - | p <;> rfl

/-- **Systems that take nothing away do not disturb `Update`.**  From a manager without
null pointers, with systems that in their `Update` add systems of any types, and ask for
and switch on only systems that are there: the loop is defined, and of the systems that
were made and active at its start it updates those a quiet `Update` would, in its order. -/
theorem update_gentle [Fintype κ] (h : Tracked sm) (hnull : ∀ T, sm.entryOf T ≠ some none)
    (does : Behaviour κ σ)
    (hdoes : ∀ p x, Acts Gentle sm x.1 → ∃ y, does p x = some y ∧ Acts Gentle x.1 y.1) (v : σ)
    (fuel : ℕ) (hfuel : Fintype.card κ ≤ fuel) :
    ∃ y updated, updateWith does fuel (sm, v) = some (y, updated) ∧
      sm.update = some (updated.filter fun q => sm.heap[q]? == some true) := by
  have hrounds : sm.update = some (sm.systems.toList.filterMap (activeOf sm.heap)) := by
    refine (visit_rounds ?_ []).trans (congrArg some (List.nil_append _))
    rintro ⟨i, u⟩ hmem
    obtain ⟨T, -, hT⟩ := mem_toList.mp hmem
    obtain ⟨names, a, hf⟩ := h
    rcases u with - | p
    · exact absurd hT (hnull T)
    · exact ⟨p, rfl, hf.entered.lt hT⟩
  obtain ⟨⟨y, updated⟩, hy, hupdated⟩ := turns_gentle hdoes h hnull
    (fun i hi => h.lt_card hi) _ (Nat.zero_add _) (x := ((sm, v), [])) (kept_refl hnull) h
  refine ⟨y, updated, ?_, ?_⟩
  · rw [updateWith, ← hy]
    refine updateFrom_eq (J := Acts Gentle sm) (fun sm' hacts i hi => (h.acts hacts).lt_card hi)
      (fun p x z hx hz => ?_) _ (Nat.zero_add _) hfuel .refl
    obtain ⟨z', hz', hacts⟩ := hdoes p x hx
    obtain rfl := Option.some.inj (hz.symm.trans hz')
    exact hx.trans hacts
  · rw [hrounds, hupdated, SystemMap.upper_zero]
    rfl

/-- The first of two systems adds a third, whose type comes last. -/
theorem update_gentle_add :
    let sm : SystemManager (Fin 3) :=
      (((init .init).add 0).1.add 1).1
    let does : Behaviour (Fin 3) Unit := fun p x =>
      if p = 0 then some ((x.1.add 2).1, x.2) else some x
    ∃ y updated, updateWith does 3 (sm, ()) = some (y, updated) ∧ updated = [0, 1, 2] ∧
      sm.update = some (updated.filter fun q => sm.heap[q]? == some true) := by
  intro sm does
  have htracked : Tracked sm :=
    (tracked_init.act (.call (P := fun _ _ => True) (.add 0) trivial rfl)).act
      (.call (P := fun _ _ => True) (.add 1) trivial rfl)
  have hnull : ∀ T, sm.entryOf T ≠ some none := by decide
  have hdoes : ∀ p x, Acts Gentle sm x.1 → ∃ y, does p x = some y ∧ Acts Gentle x.1 y.1 := by
    intro p x _
    show ∃ y, (if p = 0 then _ else _) = some y ∧ Relation.ReflTransGen _ _ _
    split
    · exact ⟨_, rfl, .single (.call (.add 2) trivial rfl)⟩
    · exact ⟨x, rfl, .refl⟩
  obtain ⟨y, updated, hs, hupdate⟩ := update_gentle htracked hnull does hdoes () 3 le_rfl
  have hrun : (updateWith does 3 (sm, ())).map Prod.snd = some [0, 1, 2] := by rfl
  rw [hs] at hrun
  exact ⟨y, updated, hs, Option.some.inj hrun, hupdate⟩

-- a lookup of a type that was never added ends the loop on a null pointer
example :
    let sm : SystemManager Bool := ((init .init).add true).1
    updateWith (fun _ x => some ((x.1.has false).1, x.2)) 2 (sm, ()) = none := by
  rfl

end SystemManager

end Indie
