/-
Indie/Alone.lean

A manager among others is the manager alone.

All managers draw their fresh ids from one counter, so what the others do shows in the
ids `Create` returns, and in nothing else.  Of a run of a program keep the calls of one
manager (`alone`): under other names for the entities they make a valid program, and as
long as this has defined behaviour everything it returns is what the manager returned
among the others, with the entities renamed (`runs_alone`).

The new names are those the counter would have given: alone, the manager draws the
numbers from zero on; among others, some of them (`Realms.drawn`), and a permutation
takes the ones to the others.  The program alone may have undefined behaviour where the
other had none: its ids are smaller, and so is the capacity of its recycled set, which
a damaged set needs (`Waiting.put`).
-/
import Mathlib.GroupTheory.GroupAction.MultipleTransitivity
import Indie.Rename

namespace Indie

open EntityManager (Op Query Call Ret Answer)

variable {κ : Type} {Comp : κ → Type} {w : ℕ} {f : Equiv.Perm (BitVec w)}

/-! ### Valid calls -/

/-- The documented use of each member, read off the world. -/
def World.Valid (W : World Comp w) : Op Comp w → Prop
  | .destroy ets => ets.Nodup ∧ ∀ et ∈ ets, et ∈ W.live
  | .onPools (.assign _ et _) | .onPools (.assignOrReplace _ et _) => et ∈ W.live
  | .onPools (.replace C et _) => W.Owns C et
  | .onPools (.delete Cs et) => Cs.Nodup ∧ ∀ C ∈ Cs, W.Owns C et
  | .onPools (.reset Cs) => ∀ C ∈ Cs, (W.pools C).isSome
  | .create | .destroyWith _ | .reset | .reserve _ | .onPools (.reserve _ _) => True

theorem World.valid_rename (W : World Comp w) (op : Op Comp w) :
    (W.rename f).Valid (op.rename f) ↔ W.Valid op := by
  have hlive : ∀ et, f et ∈ W.live.map f ↔ et ∈ W.live := fun et =>
    List.mem_map_of_injective f.injective
  cases op with
  | destroy ets =>
    show (ets.map f).Nodup ∧ (∀ et ∈ ets.map f, et ∈ W.live.map f) ↔ _
    rw [List.nodup_map_iff f.injective, List.forall_mem_map]
    simp only [hlive]
    rfl
  | onPools op =>
    cases op with
    | assign C et c => exact hlive et
    | assignOrReplace C et c => exact hlive et
    | replace C et c => exact W.owns_rename f C et
    | delete Cs et =>
      show Cs.Nodup ∧ (∀ C ∈ Cs, (W.rename f).Owns C (f et)) ↔ _
      simp only [W.owns_rename f]
      rfl
    | reset Cs =>
      show (∀ C ∈ Cs, ((W.pools C).map _).isSome) ↔ ∀ C ∈ Cs, (W.pools C).isSome
      simp only [Option.isSome_map]
    | reserve C n => exact Iff.rfl
  | _ => exact Iff.rfl

theorem EntityManager.Tidy.valid_iff [DecidableEq κ] {em : EntityManager Comp w} (h : Tidy em)
    (op : Op Comp w) : op.Valid em ↔ em.world.Valid op := by
  have howns : ∀ C et, em.has [C] et = some true ↔ em.world.Owns C et := by
    intro C et
    rw [h.has_iff, List.forall_mem_singleton, owns_world]
  cases op with
  | destroy ets =>
    refine and_congr_right fun _ => ?_
    simp only [h.exists_iff]
    rfl
  | onPools op =>
    cases op with
    | assign C et c => exact h.exists_iff
    | assignOrReplace C et c => exact h.exists_iff
    | replace C et c => exact howns C et
    | delete Cs et =>
      refine and_congr_right fun _ => ?_
      simp only [howns]
    | reset Cs =>
      show (∀ C ∈ Cs, (em.pools.getPool C).isSome) ↔ ∀ C ∈ Cs, ((em.pools.getPool C).map _).isSome
      simp only [Option.isSome_map]
    | reserve C n => exact Iff.rfl
  | _ => exact Iff.rfl

namespace Realm

theorem Renamed.draws {R R' : Realm Comp w} (h : Renamed f R R') (op : Op Comp w) :
    R'.draws (op.rename f) = R.draws op := by
  cases op with
  | create =>
    show R'.waiting.take.1.isNone = R.waiting.take.1.isNone
    rw [h.waiting.take.1, Option.isNone_map]
  | _ => rfl

end Realm

/-! ### The realms of a program -/

namespace Realms

variable {ι : Type} {r r₀ : Realms ι Comp w} {i : ι}

/-- The call is valid, and a fresh id is left if it draws one. -/
def Admits (r : Realms ι Comp w) (c : ι × Call Comp w) : Prop :=
  match c.2 with
  | .op o => (r.of c.1).world.Valid o ∧ ((r.of c.1).draws o → r.ett.toNat + 1 < 2 ^ w)
  | .query _ => True

/-- The call draws a fresh id. -/
def draws (r : Realms ι Comp w) (c : ι × Call Comp w) : Bool :=
  match c.2 with
  | .op o => (r.of c.1).draws o
  | .query _ => false

theorem Admits.lt {c : ι × Call Comp w} (h : r.Admits c) (hd : r.draws c) :
    r.ett.toNat + 1 < 2 ^ w := by
  obtain ⟨i, o | q⟩ := c
  · exact h.2 hd
  · cases hd

theorem draws_rename (h : (r₀.of i).Renamed f (r.of i)) (c : Call Comp w) :
    r.draws (i, c.rename f) = r₀.draws (i, c) := by
  cases c with
  | op o => exact h.draws o
  | query q => rfl

theorem admits_rename (h : (r₀.of i).Renamed f (r.of i)) (hle : r₀.ett.toNat ≤ r.ett.toNat)
    {c : Call Comp w} (hc : r.Admits (i, c.rename f)) : r₀.Admits (i, c) := by
  cases c with
  | op o =>
    obtain ⟨hv, hlt⟩ := hc
    have hv' : (r.of i).world.Valid (o.rename f) := hv
    rw [h.world, World.valid_rename] at hv'
    refine ⟨hv', fun hd => ?_⟩
    have := hlt ((h.draws o).trans hd)
    omega
  | query q => exact trivial

variable [DecidableEq ι] [DecidableEq κ]

theorem ett_call {c : ι × Call Comp w} {x : Realms ι Comp w × (ι × Answer Comp w)}
    (hs : r.call c = some x) : x.1.ett = if r.draws c then r.ett + 1 else r.ett := by
  obtain ⟨i, o | q⟩ := c
  · obtain ⟨y, hy, rfl⟩ := Option.map_eq_some_iff.mp hs
    exact Realm.ett_step hy
  · obtain ⟨a, -, rfl⟩ := Option.map_eq_some_iff.mp hs
    rfl

/-- A call leaves the realms of the other managers alone. -/
theorem of_call {c : ι × Call Comp w} {x : Realms ι Comp w × (ι × Answer Comp w)}
    (hs : r.call c = some x) (hi : i ≠ c.1) : x.1.of i = r.of i := by
  obtain ⟨j, o | q⟩ := c
  · obtain ⟨y, -, rfl⟩ := Option.map_eq_some_iff.mp hs
    exact Function.update_of_ne hi _ _
  · obtain ⟨a, -, rfl⟩ := Option.map_eq_some_iff.mp hs
    rfl

theorem fst_call {c : ι × Call Comp w}
    {x : Realms ι Comp w × (ι × Answer Comp w)} (hs : r.call c = some x) : x.2.1 = c.1 := by
  obtain ⟨j, o | q⟩ := c
  · obtain ⟨y, -, rfl⟩ := Option.map_eq_some_iff.mp hs
    rfl
  · obtain ⟨a, -, rfl⟩ := Option.map_eq_some_iff.mp hs
    rfl

/-- A call and the renamed one on the renamed realm return the same, renamed. -/
theorem call_rename (h : (r₀.of i).Renamed f (r.of i)) {c : Call Comp w}
    (hett : r₀.draws (i, c) → r.ett = f r₀.ett)
    {x x₀ : Realms ι Comp w × (ι × Answer Comp w)} (hs : r.call (i, c.rename f) = some x)
    (hs₀ : r₀.call (i, c) = some x₀) :
    x.2.2 = x₀.2.2.rename f ∧ (x₀.1.of i).Renamed f (x.1.of i) := by
  cases c with
  | op o =>
    obtain ⟨y, hy, rfl⟩ := Option.map_eq_some_iff.mp hs
    obtain ⟨y₀, hy₀, rfl⟩ := Option.map_eq_some_iff.mp hs₀
    obtain ⟨hret, hren⟩ := h.step hett hy₀ hy
    refine ⟨congrArg Answer.ret hret, ?_⟩
    show (Function.update r₀.of i y₀.1.1 i).Renamed f (Function.update r.of i y.1.1 i)
    rw [Function.update_self, Function.update_self]
    exact hren
  | query q =>
    obtain ⟨a, ha, rfl⟩ := Option.map_eq_some_iff.mp hs
    obtain ⟨a₀, ha₀, rfl⟩ := Option.map_eq_some_iff.mp hs₀
    change (r.of i).world.ask (q.rename f) = some a at ha
    rw [h.world, World.ask_rename, ha₀] at ha
    exact ⟨(Option.some.inj ha).symm, h⟩

/-! ### The names -/

/-- The fresh ids manager `i` draws in a run. -/
def drawn (i : ι) : Realms ι Comp w → List (ι × Call Comp w) → List (BitVec w)
  | _, [] => []
  | r, c :: calls =>
    let rest := (r.call c).elim [] fun x => drawn i x.1 calls
    if c.1 = i ∧ r.draws c then r.ett :: rest else rest

/-- The counter only moves up. -/
theorem Admits.le_call {c : ι × Call Comp w} (hc : r.Admits c)
    {x : Realms ι Comp w × (ι × Answer Comp w)} (hs : r.call c = some x) :
    x.1.ett.toNat = r.ett.toNat + (r.draws c).toNat := by
  rw [ett_call hs]
  split
  · rename_i hd
    rw [hd, Vec.toNat_add_one (hc.lt hd)]
    rfl
  · rename_i hd
    rw [Bool.eq_false_iff.mpr hd]
    rfl

/-- The fresh ids come in order. -/
theorem sorted_drawn {calls : List (ι × Call Comp w)}
    (hcalls : Machine.Along (fun r c => (call r c).map Prod.fst) Admits r calls) :
    (drawn i r calls).Pairwise (·.toNat < ·.toNat) ∧
      ∀ x ∈ drawn i r calls, r.ett.toNat ≤ x.toNat := by
  induction calls generalizing r with
  | nil => exact ⟨.nil, nofun⟩
  | cons c calls ih =>
    -- what is drawn later is above
    have hrest : let rest := (r.call c).elim [] fun x => drawn i x.1 calls
        rest.Pairwise (·.toNat < ·.toNat) ∧
          ∀ y ∈ rest, r.ett.toNat + (r.draws c).toNat ≤ y.toNat := by
      rcases hs : r.call c with - | x
      · exact ⟨.nil, nofun⟩
      · obtain ⟨hsorted, hle⟩ := ih (hcalls.2 x.1 (Option.map_eq_some_iff.mpr ⟨x, hs, rfl⟩))
        exact ⟨hsorted, fun y hy => hcalls.1.le_call hs ▸ hle y hy⟩
    obtain ⟨hsorted, hle⟩ := hrest
    rw [drawn]
    split
    · rename_i hd
      rw [hd.2] at hle
      refine ⟨List.pairwise_cons.mpr ⟨hle, hsorted⟩, fun y hy => ?_⟩
      rcases List.mem_cons.mp hy with rfl | hy
      · exact le_rfl
      · exact (Nat.le_succ _).trans (hle y hy)
    · exact ⟨hsorted, fun y hy => (Nat.le_add_right _ _).trans (hle y hy)⟩

/-- There are names under which the numbers from zero on are the ids drawn. -/
theorem exists_names {calls : List (ι × Call Comp w)}
    (hcalls : Machine.Along (fun r c => (call r c).map Prod.fst) Admits r calls) (i : ι) :
    ∃ f : Equiv.Perm (BitVec w),
      ∀ n x, (drawn i r calls)[n]? = some x → f (BitVec.ofNat w n) = x := by
  obtain ⟨hsorted, -⟩ := sorted_drawn (i := i) hcalls
  revert hsorted
  generalize drawn i r calls = l
  intro hsorted
  -- the `n`-th id drawn is at least `n`, so there is a number `n`
  have hle : ∀ n (h : n < l.length), n ≤ l[n].toNat := by
    intro n
    induction n with
    | zero => exact fun _ => Nat.zero_le _
    | succ n ih =>
      intro h
      have hlt := List.pairwise_iff_getElem.mp hsorted n (n + 1) (by omega) h (Nat.lt_succ_self n)
      exact (ih (by omega)).trans_lt hlt
  let ids : Fin l.length ↪ BitVec w := ⟨fun n => BitVec.ofNat w n, fun a b hab => by
    have ha := (hle a a.isLt).trans_lt l[a].isLt
    have hb := (hle b b.isLt).trans_lt l[b].isLt
    have hnat := congrArg BitVec.toNat hab
    exact Fin.ext (by simpa [Nat.mod_eq_of_lt ha, Nat.mod_eq_of_lt hb] using hnat)⟩
  let fresh : Fin l.length ↪ BitVec w := ⟨l.get, List.nodup_iff_injective_get.mp
    (hsorted.imp fun h e => (e ▸ h).false)⟩
  have := Equiv.Perm.isMultiplyPretransitive (BitVec w) l.length
  obtain ⟨f, hf⟩ := MulAction.exists_smul_eq (Equiv.Perm (BitVec w)) ids fresh
  refine ⟨f, fun n x hx => ?_⟩
  obtain ⟨hn, rfl⟩ := List.getElem?_eq_some_iff.mp hx
  exact DFunLike.congr_fun hf ⟨n, hn⟩

theorem drawn_cons {c : ι × Call Comp w} {calls : List (ι × Call Comp w)}
    {x : Realms ι Comp w × (ι × Answer Comp w)} (hs : r.call c = some x) :
    drawn i r (c :: calls) =
      if c.1 = i ∧ r.draws c then r.ett :: drawn i x.1 calls else drawn i x.1 calls := by
  rw [drawn, hs]
  rfl

/-! ### Side by side -/

/-- Manager `i` alone in `r₀` and among others in `r`: the same under other names, and
the ids it will draw among others have as names those it will draw alone. -/
structure Beside (f : Equiv.Perm (BitVec w)) (i : ι) (r₀ r : Realms ι Comp w)
    (calls : List (ι × Call Comp w)) : Prop where
  renamed : (r₀.of i).Renamed f (r.of i)
  le : r₀.ett.toNat ≤ r.ett.toNat
  names : ∀ n x, (drawn i r calls)[n]? = some x → f (r₀.ett + BitVec.ofNat w n) = x

namespace Beside

variable {c : Call Comp w} {calls : List (ι × Call Comp w)}
  {x x₀ : Realms ι Comp w × (ι × Answer Comp w)}

/-- Another manager makes a call. -/
theorem other {c : ι × Call Comp w} (h : Beside f i r₀ r (c :: calls)) (hi : c.1 ≠ i)
    (hc : r.Admits c) (hs : r.call c = some x) : Beside f i r₀ x.1 calls where
  renamed := by
    rw [of_call hs hi.symm]
    exact h.renamed
  le := by
    have hett := hc.le_call hs
    have hle := h.le
    omega
  names := by
    have hnames := h.names
    rwa [drawn_cons hs, if_neg fun hd => hi hd.1] at hnames

/-- The manager makes a call, in both programs. -/
theorem same (h : Beside f i r₀ r ((i, c.rename f) :: calls)) (hc : r.Admits (i, c.rename f))
    (hs : r.call (i, c.rename f) = some x) (hs₀ : r₀.call (i, c) = some x₀) :
    x.2.2 = x₀.2.2.rename f ∧ Beside f i x₀.1 x.1 calls := by
  have hdraws := draws_rename h.renamed c
  have hnames := h.names
  rw [drawn_cons hs] at hnames
  have hett : r₀.draws (i, c) → r.ett = f r₀.ett := by
    intro hd
    have hzero := hnames 0 r.ett (by rw [if_pos ⟨rfl, hdraws.trans hd⟩]; rfl)
    exact hzero.symm.trans (congrArg f (BitVec.add_zero r₀.ett))
  obtain ⟨hret, hren⟩ := call_rename h.renamed hett hs hs₀
  refine ⟨hret, hren, ?_, fun n y hy => ?_⟩
  · rw [hc.le_call hs, (admits_rename h.renamed h.le hc).le_call hs₀, hdraws]
    exact Nat.add_le_add_right h.le _
  · rw [ett_call hs₀]
    split
    · rename_i hd
      rw [if_pos ⟨rfl, hdraws.trans hd⟩] at hnames
      have hsucc := hnames (n + 1) y (by rw [List.getElem?_cons_succ, hy])
      rwa [Nat.add_comm, BitVec.ofNat_add, ← BitVec.add_assoc] at hsucc
    · rename_i hd
      rw [if_neg fun hd' => hd (hdraws.symm.trans hd'.2)] at hnames
      exact hnames n y hy

end Beside

/-! ### The run -/

/-- The calls of manager `i`, with the entities under their names before `f`. -/
def alone (f : Equiv.Perm (BitVec w)) (i : ι) (calls : List (ι × Call Comp w)) :
    List (ι × Call Comp w) :=
  (calls.filter (·.1 = i)).map fun c => (c.1, c.2.rename f.symm)

omit [DecidableEq κ] in
theorem alone_same (c : Call Comp w) (calls : List (ι × Call Comp w)) :
    alone f i ((i, c.rename f) :: calls) = (i, c) :: alone f i calls := by
  rw [alone, List.filter_cons_of_pos (by simp), List.map_cons]
  exact congrArg (fun c => (i, c) :: alone f i calls) (c.rename_symm f.symm)

omit [DecidableEq κ] in
theorem alone_other {c : ι × Call Comp w} (hi : c.1 ≠ i) (calls : List (ι × Call Comp w)) :
    alone f i (c :: calls) = alone f i calls := by
  rw [alone, List.filter_cons_of_neg (by simpa using hi)]
  rfl

theorem beside_run {calls : List (ι × Call Comp w)} (h : Beside f i r₀ r calls)
    (hcalls : Machine.Along (fun r c => (call r c).map Prod.fst) Admits r calls)
    {log log₀ : List (ι × Answer Comp w)} {x : Realms ι Comp w × List (ι × Answer Comp w)}
    (hlog : log.filter (·.1 = i) = log₀.map fun a => (a.1, a.2.rename f))
    (hrun : Machine.run (Machine.logged call) (r, log) calls = some x) :
    Machine.Along (fun r c => (call r c).map Prod.fst) Admits r₀ (alone f i calls) ∧
      ∀ x₀, Machine.run (Machine.logged call) (r₀, log₀) (alone f i calls) = some x₀ →
        x.2.filter (·.1 = i) = x₀.2.map fun a => (a.1, a.2.rename f) := by
  induction calls generalizing r r₀ log log₀ with
  | nil =>
    obtain rfl := Option.some.inj hrun
    exact ⟨trivial, fun x₀ hrun₀ => Option.some.inj hrun₀ ▸ hlog⟩
  | cons c calls ih =>
    obtain ⟨y, hy, hrest⟩ := Option.bind_eq_some_iff.mp hrun
    obtain ⟨z, hz, rfl⟩ := Machine.logged_eq_some.mp hy
    have hnext := hcalls.2 z.1 (Option.map_eq_some_iff.mpr ⟨z, hz, rfl⟩)
    by_cases hi : c.1 = i
    · obtain ⟨j, c⟩ := c
      obtain rfl : j = i := hi
      obtain ⟨c₀, rfl⟩ : ∃ c₀ : Call Comp w, c = c₀.rename f := ⟨_, (c.rename_symm f).symm⟩
      rw [alone_same]
      have hstep : ∀ z₀, r₀.call (j, c₀) = some z₀ →
          Machine.Along (fun r c => (call r c).map Prod.fst) Admits z₀.1 (alone f j calls) ∧
            ∀ x₀, Machine.run (Machine.logged call) (z₀.1, log₀ ++ [z₀.2]) (alone f j calls) =
                some x₀ → x.2.filter (·.1 = j) = x₀.2.map fun a => (a.1, a.2.rename f) := by
        intro z₀ hz₀
        obtain ⟨hret, hbeside⟩ := h.same hcalls.1 hz hz₀
        refine ih hbeside hnext ?_ hrest
        have hj : z.2.1 = j := fst_call hz
        have hj₀ : z₀.2.1 = j := fst_call hz₀
        rw [List.filter_append, hlog, List.filter_cons_of_pos (by simp [hj]),
          List.filter_nil, List.map_append, List.map_singleton, hj₀, ← hret]
        exact congrArg (fun k => _ ++ [(k, z.2.2)]) hj
      refine ⟨⟨admits_rename h.renamed h.le hcalls.1, fun s hs => ?_⟩, fun x₀ hrun₀ => ?_⟩
      · obtain ⟨z₀, hz₀, rfl⟩ := Option.map_eq_some_iff.mp hs
        exact (hstep z₀ hz₀).1
      · obtain ⟨y₀, hy₀, hrest₀⟩ := Option.bind_eq_some_iff.mp hrun₀
        obtain ⟨z₀, hz₀, rfl⟩ := Machine.logged_eq_some.mp hy₀
        exact (hstep z₀ hz₀).2 x₀ hrest₀
    · rw [alone_other hi]
      refine ih (h.other hi hcalls.1 hz) hnext ?_ hrest
      rw [List.filter_append, hlog, List.filter_cons_of_neg (by simpa [fst_call hz] using hi),
        List.filter_nil, List.append_nil]

end Realms

/-! ### The program -/

namespace Managers

variable {ι : Type} [DecidableEq ι] [DecidableEq κ]

omit [DecidableEq ι] in
theorem Mirrors.admits_iff {m : Managers ι Comp w} {r : Realms ι Comp w} (h : Mirrors m r)
    (c : ι × Call Comp w) : m.Admits c ↔ r.Admits c := by
  obtain ⟨i, o | q⟩ := c
  · have hworld := (h.mirrors i).world
    refine and_congr ?_ ?_
    · exact ((h.inv i).tidy.valid_iff o).trans (hworld ▸ Iff.rfl)
    · cases o with
      | create =>
        show ((m.em i).deletedEt.size = 0 → m.ett.toNat + 1 < 2 ^ w) ↔
          ((r.of i).waiting.take.1.isNone → r.ett.toNat + 1 < 2 ^ w)
        rw [(h.mirrors i).waiting.size_eq_zero_iff, h.ett, Option.isNone_iff_eq_none]
      | _ => exact ⟨fun _ => nofun, fun _ => trivial⟩
  · exact Iff.rfl

/-- Managers and realms admit the same programs. -/
theorem along_iff_realms (calls : List (ι × Call Comp w)) :
    Machine.Along (fun m c => (call m c).map Prod.fst) Admits init calls ↔
      Machine.Along (fun r c => (Realms.call r c).map Prod.fst) Realms.Admits Realms.init calls :=
  Machine.along_iff_of_rel Realms.call (fun _ _ _ h hc => h.call hc)
    (fun _ _ c h => h.admits_iff c) calls mirrors_init

/-- **A manager among others is the manager alone.**  In any program of valid calls and
questions of any number of managers, sharing the counter of the ids: keep only the calls
of one of them, with the entities under other names, the same in all calls.  These
calls are valid too; and if they have defined behaviour, they return what they returned
among the others, with the entities renamed. -/
theorem runs_alone (calls : List (ι × Call Comp w))
    (hcalls : Machine.Along (fun m c => (call m c).map Prod.fst) Admits init calls)
    {x : Managers ι Comp w × List (ι × Answer Comp w)}
    (hrun : Machine.run (Machine.logged call) (init, []) calls = some x) (i : ι) :
    ∃ f : Equiv.Perm (BitVec w),
      Machine.Along (fun m c => (call m c).map Prod.fst) Admits init
          (Realms.alone f i calls) ∧
        ∀ x₀, Machine.run (Machine.logged call) (init, []) (Realms.alone f i calls) = some x₀ →
          x.2.filter (·.1 = i) = x₀.2.map fun a => (a.1, a.2.rename f) := by
  have hr := (along_iff_realms calls).mp hcalls
  have hlog : ∀ {calls}, Machine.Along (fun m c => (call m c).map Prod.fst) Admits init calls →
      ∀ {x : Managers ι Comp w × List (ι × Answer Comp w)},
        Machine.run (Machine.logged call) (init, []) calls = some x →
          ∃ y, Machine.run (Machine.logged Realms.call) (Realms.init, []) calls = some y ∧
            x.2 = y.2 := by
    intro calls hcalls x hrun
    have hrel := Machine.run_logged_rel Realms.call (R := Mirrors)
      (fun _ _ _ h hc => Mirrors.call h hc) [] calls mirrors_init hcalls
    rw [hrun] at hrel
    revert hrel
    generalize Machine.run (Machine.logged Realms.call) (Realms.init, []) calls = o
    intro hrel
    cases hrel with
    | some h => exact ⟨_, rfl, h.1⟩
  obtain ⟨f, hf⟩ := Realms.exists_names hr i
  obtain ⟨y, hy, hxy⟩ := hlog hcalls hrun
  have hbeside : Realms.Beside f i Realms.init Realms.init calls := by
    refine ⟨⟨rfl, rfl, rfl⟩, le_rfl, fun n x hx => ?_⟩
    rw [← hf n x hx]
    exact congrArg f (BitVec.zero_add _)
  have hnil : ([] : List (ι × Answer Comp w)).filter (·.1 = i) =
      [].map fun a : ι × Answer Comp w => (a.1, a.2.rename f) := rfl
  obtain ⟨hadm, hall⟩ := Realms.beside_run hbeside hr hnil hy
  have hcalls₀ := (along_iff_realms _).mpr hadm
  refine ⟨f, hcalls₀, fun x₀ hrun₀ => ?_⟩
  obtain ⟨y₀, hy₀, hxy₀⟩ := hlog hcalls₀ hrun₀
  rw [hxy, hxy₀]
  exact hall y₀ hy₀

/-- Two managers draw in turn; the second destroys and creates again, and does so alone
with the same answers. -/
theorem runs_alone_pair :
    let calls : List (Bool × Call (fun _ : Unit => ℕ) 8) := [(true, .op .create),
      (false, .op .create), (true, .op .create), (false, .op .create),
      (false, .op (.onPools (.assign () 3 (some 7)))), (false, .op (.destroy [1])),
      (false, .op .create), (false, .query (.forEachOf [()]))]
    ∃ x, Machine.run (Machine.logged call) (init, []) calls = some x ∧
      ∃ f : Equiv.Perm (BitVec 8),
        Machine.Along (fun m c => (call m c).map Prod.fst) Admits init
            (Realms.alone f false calls) ∧
          ∃ x₀, Machine.run (Machine.logged call) (init, []) (Realms.alone f false calls) =
            some x₀ ∧ x.2.filter (·.1 = false) = x₀.2.map fun a => (a.1, a.2.rename f) := by
  intro calls
  obtain ⟨x, hrun⟩ := Option.isSome_iff_exists.mp
    (show (Machine.run (Machine.logged call) (init, []) calls).isSome by decide)
  obtain ⟨f, hvalid, hall⟩ := runs_alone calls (by decide) hrun false
  -- alone the ids are 0 and 1, so the valid calls name these
  let alone : BitVec 8 → BitVec 8 → List (Bool × Call (fun _ : Unit => ℕ) 8) := fun a b =>
    [(false, .op .create), (false, .op .create),
      (false, .op (.onPools (.assign () a (some 7)))), (false, .op (.destroy [b])),
      (false, .op .create), (false, .query (.forEachOf [()]))]
  have hassign : ∀ a : BitVec 8, Machine.Along (fun m c => (call m c).map Prod.fst) Admits init
      ((alone a 0).take 3) → a = 0 ∨ a = 1 := by decide +kernel
  have hdestroy : ∀ a b : BitVec 8, a = 0 ∨ a = 1 →
      Machine.Along (fun m c => (call m c).map Prod.fst) Admits init
        ((alone a b).take 4) → b = 0 ∨ b = 1 := by
    rintro a b (rfl | rfl) <;> revert b <;> decide +kernel
  have hdefined : ∀ a b : BitVec 8, a = 0 ∨ a = 1 → b = 0 ∨ b = 1 →
      (Machine.run (Machine.logged call) (init, []) (alone a b)).isSome := by
    rintro a b (rfl | rfl) (rfl | rfl) <;> decide
  have hf : Realms.alone f false calls = alone (f.symm 3) (f.symm 1) := rfl
  have hstart : ∀ n, Machine.Along (fun m c => (call m c).map Prod.fst) Admits init
      ((alone (f.symm 3) (f.symm 1)).take n) := fun n => by
    rw [hf, ← List.take_append_drop n (alone _ _)] at hvalid
    exact (Machine.along_append.mp hvalid).1
  have ha := hassign _ (hstart 3)
  have hb := hdestroy _ _ ha (hstart 4)
  obtain ⟨x₀, hrun₀⟩ := Option.isSome_iff_exists.mp (hdefined _ _ ha hb)
  exact ⟨x, hrun, f, hvalid, x₀, hrun₀, hall x₀ hrun₀⟩

-- among others the ids are larger, and there is a cell where alone there is none
example :
    let calls : List (Bool × Call (fun _ : Unit => ℕ) 8) := [(true, .op .create),
      (true, .op .create), (false, .op .create), (false, .op .create), (false, .op (.destroy [2])),
      (false, .op (.destroy [3])), (false, .op .create), (false, .op .create),
      (false, .op (.destroy [2])), (false, .op (.destroy [3]))]
    (Machine.run (Machine.logged call) (init, []) calls).isSome ∧
      (Machine.run (Machine.logged call) (init, []) (Realms.alone
        (Equiv.swap 0 2 * Equiv.swap 1 3) false calls)).isNone := by
  decide

end Managers

end Indie
