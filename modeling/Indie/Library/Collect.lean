/-
Indie/Library/Collect.lean

Loops over a list that collect or count, in the option monad.

A loop that appends one entry for each element that passes a test, and may
fail on the way, is `mapM` on the filtered list (`foldlM_collect`); a counter
with a bound counts the elements that pass, as long as they fit
(`foldlM_count`, `foldlM_count_none`).  `mapM` itself is pointwise (`mapM_eq_some`), so it succeeds
when every element has a result (`mapM_defined`), and where it tags each
result with its argument the tags are the list (`mapM_tagged_eq_some`,
`mapM_tagged_defined`).
-/
import Mathlib.Data.List.Basic
import Mathlib.Data.List.Forall2
import Mathlib.Tactic

namespace Collect

variable {α β : Type}

/-- `mapM` succeeds with the pointwise results. -/
theorem mapM_eq_some {f : α → Option β} {l : List α} {r : List β} :
    l.mapM f = some r ↔ List.Forall₂ (fun a b => f a = some b) l r := by
  induction l generalizing r with
  | nil =>
    rw [List.mapM_nil, List.forall₂_nil_left_iff]
    exact ⟨fun h => (Option.some.inj h).symm, fun h => h ▸ rfl⟩
  | cons a l ih =>
    rw [List.mapM_cons, List.forall₂_cons_left_iff]
    simp only [Option.bind_eq_bind, Option.bind_eq_some_iff, Option.pure_def, Option.some.injEq]
    constructor
    · rintro ⟨b, hb, r, hr, rfl⟩
      exact ⟨b, r, hb, ih.mp hr, rfl⟩
    · rintro ⟨b, r, hb, hr, rfl⟩
      exact ⟨b, hb, r, ih.mpr hr, rfl⟩

/-- `mapM` succeeds when every element has a result. -/
theorem mapM_defined {f : α → Option β} {l : List α} (h : ∀ a ∈ l, ∃ b, f a = some b) :
    ∃ r, l.mapM f = some r := by
  simp only [mapM_eq_some]
  induction l with
  | nil => exact ⟨[], .nil⟩
  | cons a l ih =>
    obtain ⟨⟨b, hb⟩, hl⟩ := List.forall_mem_cons.mp h
    obtain ⟨r, hr⟩ := ih hl
    exact ⟨b :: r, .cons hb hr⟩

/-- One failure is enough. -/
theorem mapM_eq_none {f : α → Option β} {l : List α} {a : α} (ha : a ∈ l) (h : f a = none) :
    l.mapM f = none := by
  induction l with
  | nil => cases ha
  | cons b l ih =>
    rw [List.mapM_cons]
    rcases List.mem_cons.mp ha with rfl | ha
    · rw [h]
      rfl
    · rw [ih ha]
      rcases f b with - | c <;> rfl

theorem mapM_congr {f g : α → Option β} {l : List α} (h : ∀ a ∈ l, f a = g a) :
    l.mapM f = l.mapM g := by
  induction l with
  | nil => rfl
  | cons a l ih =>
    obtain ⟨ha, hl⟩ := List.forall_mem_cons.mp h
    rw [List.mapM_cons, List.mapM_cons, ha, ih hl]

/-- Each result tagged with its argument. -/
theorem mapM_tagged_eq_some {g : α → Option β} {l : List α} {r : List (α × β)} :
    l.mapM (fun a => (g a).map (a, ·)) = some r ↔
      r.map Prod.fst = l ∧ ∀ v ∈ r, g v.1 = some v.2 := by
  rw [mapM_eq_some]
  constructor
  · intro h
    induction h with
    | nil => exact ⟨rfl, List.forall_mem_nil _⟩
    | cons hb _ ih =>
      obtain ⟨b, hg, rfl⟩ := Option.map_eq_some_iff.mp hb
      exact ⟨congrArg _ ih.1, List.forall_mem_cons.mpr ⟨hg, ih.2⟩⟩
  · rintro ⟨rfl, hr⟩
    rw [List.forall₂_map_left_iff, List.forall₂_same]
    intro v hv
    rw [hr v hv]
    rfl

theorem mapM_tagged_defined {g : α → Option β} {l : List α} (h : ∀ a ∈ l, ∃ b, g a = some b) :
    ∃ r, l.mapM (fun a => (g a).map (a, ·)) = some r ∧
      r.map Prod.fst = l ∧ ∀ v ∈ r, g v.1 = some v.2 := by
  have htag : ∀ a ∈ l, ∃ v, (g a).map (a, ·) = some v := by
    intro a ha
    obtain ⟨b, hb⟩ := h a ha
    exact ⟨(a, b), by rw [hb]; rfl⟩
  obtain ⟨r, hr⟩ := mapM_defined htag
  exact ⟨r, hr, mapM_tagged_eq_some.mp hr⟩

/-- A loop that appends an entry for each element that passes. -/
theorem foldlM_collect {p : α → Option Bool} {q : α → Bool} {g : α → Option β} {l : List α}
    (hp : ∀ a ∈ l, p a = some (q a)) (acc : List β) :
    l.foldlM (fun acc a => do if ← p a then return acc ++ [← g a] else return acc) acc =
      ((l.filter q).mapM g).map (acc ++ ·) := by
  induction l generalizing acc with
  | nil => simp
  | cons a l ih =>
    obtain ⟨ha, hl⟩ := List.forall_mem_cons.mp hp
    rw [List.foldlM_cons, ha]
    cases hq : q a with
    | false =>
      rw [List.filter_cons_of_neg (by simp [hq])]
      exact ih hl acc
    | true =>
      rw [List.filter_cons_of_pos hq, List.mapM_cons]
      rcases g a with - | b
      · rfl
      · show List.foldlM _ (acc ++ [b]) l = _
        rw [ih hl]
        rcases (l.filter q).mapM g with - | r
        · rfl
        · simp

/-- A counter of the elements that pass, undefined from `n` on. -/
theorem foldlM_count {p : α → Option Bool} {q : α → Bool} {l : List α} {n : ℕ}
    (hp : ∀ a ∈ l, p a = some (q a)) {k : ℕ} (hk : k + (l.filter q).length < n) :
    l.foldlM (fun k a => do
        if ← p a then (if k + 1 < n then return k + 1 else none) else return k) k =
      some (k + (l.filter q).length) := by
  induction l generalizing k with
  | nil => rfl
  | cons a l ih =>
    obtain ⟨ha, hl⟩ := List.forall_mem_cons.mp hp
    rw [List.foldlM_cons, ha]
    cases hq : q a with
    | false =>
      rw [List.filter_cons_of_neg (by simp [hq])] at hk ⊢
      exact ih hl hk
    | true =>
      rw [List.filter_cons_of_pos hq, List.length_cons] at hk ⊢
      have hlt : k + 1 < n := by omega
      show ((if k + 1 < n then some (k + 1) else none : Option ℕ).bind _) = _
      rw [if_pos hlt]
      show List.foldlM _ (k + 1) l = _
      rw [ih hl (by omega)]
      congr 1
      omega

/-- From `n` elements on the counter is undefined. -/
theorem foldlM_count_none {p : α → Option Bool} {q : α → Bool} {l : List α} {n : ℕ}
    (hp : ∀ a ∈ l, p a = some (q a)) {k : ℕ} (hkn : k < n) (hk : n ≤ k + (l.filter q).length) :
    l.foldlM (fun k a => do
        if ← p a then (if k + 1 < n then return k + 1 else none) else return k) k = none := by
  induction l generalizing k with
  | nil =>
    rw [List.filter_nil, List.length_nil] at hk
    omega
  | cons a l ih =>
    obtain ⟨ha, hl⟩ := List.forall_mem_cons.mp hp
    rw [List.foldlM_cons, ha]
    cases hq : q a with
    | false =>
      rw [List.filter_cons_of_neg (by simp [hq])] at hk
      exact ih hl hkn hk
    | true =>
      rw [List.filter_cons_of_pos hq, List.length_cons] at hk
      show ((if k + 1 < n then some (k + 1) else none : Option ℕ).bind _) = _
      split
      · rename_i hlt
        exact ih hl hlt (by omega)
      · rfl

end Collect
