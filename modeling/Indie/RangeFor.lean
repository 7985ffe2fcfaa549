/-
Indie/RangeFor.lean

A range-for over a sparse set whose body erases from the set.

`for (auto et : set)` fixes both ends at the start.  If the body erases the
element it is given, the last element moves into its slot and the set gets
shorter, so later iterations read slots beyond the current end.  The loop
still meets every element of the initial range once and in order
(`rangeFor_eq_foldlM`): it is a fold over a snapshot.

The invariant (`Ahead`) has two parts.  A slot not yet read still holds its
original element; and no element sits above its original slot.  The second
part is what keeps the first: the slot an erasure writes is the slot of the
element just read, which is not above the slot it was read from.
-/
import Indie.Erase

namespace Indie

namespace SparseSet

variable {w : ℕ} {s s' : SparseSet w} {l : List (BitVec w)} {v : BitVec w} {k : ℕ}

/-- The loop over the range `l` has read the slots below `k`. -/
structure Ahead (l : List (BitVec w)) (k : ℕ) (s : SparseSet w) : Prop where
  wf : WF s
  unread : ∀ j : ℕ, k ≤ j → j < l.length → s.dense[j]? = l[j]?
  not_above : ∀ (p j : ℕ) (x : BitVec w), s.range[p]? = some x → l[j]? = some x → p ≤ j

theorem WF.ahead (h : WF s) : Ahead s.range 0 s where
  wf := h
  unread j _ hj := by
    obtain ⟨x, hx⟩ := h.exists_getElem?_range (h.length_range ▸ hj)
    rw [hx, (h.getElem?_range.mp hx).2]
  not_above p j x hp hj := (h.slot_inj hp hj).le

/-- Erasing the element read from slot `k` keeps the later slots. -/
theorem Ahead.erase (h : Ahead l k s) (hv : l[k]? = some v) (hs : s.erase v = some s') :
    Ahead l (k + 1) s' := by
  by_cases hmem : v ∈ s.range
  · obtain ⟨p, hp⟩ := List.getElem?_of_mem hmem
    obtain ⟨t, ht, hwf, hrange, hdense⟩ := h.wf.erase_of_mem hp
    obtain rfl := Option.some.inj (ht.symm.trans hs)
    have hpk : p ≤ k := h.not_above p k v hp hv
    refine ⟨hwf, ?_, ?_⟩
    · intro j hj hjl
      rw [hdense j (by omega), h.unread j (by omega) hjl]
    · intro q j x hq hj
      rw [hrange] at hq
      obtain ⟨m, hqm, hm⟩ :=
        SwapList.pos_swapRemove_le (List.getElem?_eq_some_iff.mp hp).1 hq
      exact hqm.trans (h.not_above m j x hm hj)
  · rw [h.wf.erase_of_notMem hmem, Option.some.injEq] at hs
    subst hs
    exact ⟨h.wf, fun j hj => h.unread j (by omega), h.not_above⟩

theorem Ahead.succ (h : Ahead l k s) : Ahead l (k + 1) s :=
  ⟨h.wf, fun j hj => h.unread j (by omega), h.not_above⟩

section Loop

variable {σ : Type} {view : σ → SparseSet w} {body : BitVec w → σ → Option σ}

/-- The rounds that are left, after those over `pre`. -/
theorem Ahead.rounds
    (hbody : ∀ et a b, body et a = some b →
      view b = view a ∨ (view a).erase et = some (view b)) :
    ∀ (rest pre : List (BitVec w)) (b : σ), Ahead (pre ++ rest) pre.length (view b) →
      (List.range' pre.length rest.length).foldlM (fun b i => do
        let et ← (view b).dense[i]?
        body et b) b = rest.foldlM (fun b et => body et b) b
  | [], _, _, _ => rfl
  | v :: rest, pre, b, hb => by
      have hv : (pre ++ v :: rest)[pre.length]? = some v := by simp
      -- the slot has not been read, so it holds what it held at the start
      have hread : (view b).dense[pre.length]? = some v := by
        rw [hb.unread _ le_rfl (by simp), hv]
      rw [List.length_cons, List.range'_succ, List.foldlM_cons, List.foldlM_cons, hread]
      show (body v b).bind _ = (body v b).bind _
      refine Option.bind_congr fun c hc => ?_
      have hc' : Ahead (pre ++ v :: rest) (pre.length + 1) (view c) := by
        rcases hbody v b c hc with e | e
        · rw [e]
          exact hb.succ
        · exact hb.erase hv e
      have hrest := Ahead.rounds hbody rest (pre ++ [v]) c (by simpa using hc')
      simpa using hrest

/-- **The loop is a fold over a snapshot of the range**, provided each round of
the body leaves the set alone or erases the element it was given. -/
theorem rangeFor_eq_foldlM
    (hbody : ∀ et a b, body et a = some b →
      view b = view a ∨ (view a).erase et = some (view b))
    {a : σ} (h : WF (view a)) :
    rangeFor view body a = (view a).range.foldlM (fun a et => body et a) a := by
  have hall := Ahead.rounds hbody (view a).range [] a h.ahead
  rw [h.length_range] at hall
  rw [rangeFor, List.range_eq_range']
  exact hall

/-- A loop that leaves the set alone. -/
theorem WF.rangeFor_const (h : WF s) (body : BitVec w → σ → Option σ) (a : σ) :
    rangeFor (fun _ => s) body a = s.range.foldlM (fun a et => body et a) a := by
  have hloop := @rangeFor_eq_foldlM w σ (fun _ => s) body (fun _ _ _ _ => .inl rfl) a h
  exact hloop

/-- **The loop is a fold over a snapshot** also where the body puts new elements
after the old ones.  `J` is what the body keeps, and under which the set is well
formed. -/
theorem rangeFor_eq_foldlM_of_appends {J : σ → Prop} (hwf : ∀ a, J a → WF (view a))
    (hbody : ∀ et a b, J a → et ∈ (view a).range → body et a = some b →
      J b ∧ (view a).range <+: (view b).range) {a : σ} (h : J a) :
    rangeFor view body a = (view a).range.foldlM (fun a et => body et a) a := by
  have hrounds : ∀ (rest pre : List (BitVec w)) (b : σ), J b →
      (pre ++ rest) <+: (view b).range →
      (List.range' pre.length rest.length).foldlM (fun b i => do
        let et ← (view b).dense[i]?
        body et b) b = rest.foldlM (fun b et => body et b) b := by
    intro rest
    induction rest with
    | nil => exact fun _ _ _ _ => rfl
    | cons v rest ih =>
      intro pre b hb hpre
      obtain ⟨new, hnew⟩ := hpre
      have hv : (view b).range[pre.length]? = some v := by
        rw [← hnew]
        simp
      rw [List.length_cons, List.range'_succ, List.foldlM_cons, List.foldlM_cons,
        ((hwf b hb).getElem?_range.mp hv).2]
      show (body v b).bind _ = (body v b).bind _
      refine Option.bind_congr fun c hc => ?_
      obtain ⟨hJc, hbc⟩ := hbody v b c hb (List.mem_of_getElem? hv) hc
      have hpre' : (pre ++ [v] ++ rest) <+: (view c).range := by
        rw [List.append_assoc]
        exact .trans ⟨new, hnew⟩ hbc
      simpa using ih (pre ++ [v]) c hJc hpre'
  have hall := hrounds (view a).range [] a h (List.prefix_refl _)
  rw [(hwf a h).length_range] at hall
  rw [rangeFor, List.range_eq_range']
  exact hall

/-- Loops whose bodies agree as long as `J` holds. -/
theorem rangeFor_congr {body' : BitVec w → σ → Option σ} {J : σ → Prop}
    (hbody : ∀ et a, J a → body et a = body' et a ∧ ∀ b, body et a = some b → J b)
    {a : σ} (h : J a) : rangeFor view body a = rangeFor view body' a := by
  have hrounds : ∀ (is : List ℕ) (a : σ), J a →
      is.foldlM (fun a i => do
        let et ← (view a).dense[i]?
        body et a) a = is.foldlM (fun a i => do
        let et ← (view a).dense[i]?
        body' et a) a := by
    intro is
    induction is with
    | nil => exact fun _ _ => rfl
    | cons i is ih =>
      intro a ha
      rw [List.foldlM_cons, List.foldlM_cons]
      rcases (view a).dense[i]? with - | et
      · rfl
      · obtain ⟨heq, hJ⟩ := hbody et a ha
        show (body et a).bind _ = (body' et a).bind _
        rw [← heq]
        exact Option.bind_congr fun b hb => ih b (hJ b hb)
  exact hrounds _ a h

end Loop

end SparseSet

end Indie
