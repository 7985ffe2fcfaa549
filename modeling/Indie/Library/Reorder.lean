/-
Indie/Library/Reorder.lean

Runs in which independent neighbours change places.

`Runs step P s l s'` is a run written down with its results: the calls of `l`,
each meeting its precondition `P`, lead from `s` to `s'` and return what stands
beside them.  `Reorder I` closes the exchange of two neighbours, `a` before `b`
with `I a b`, under everything before and after them; `I` need not be
symmetric, so a call may be allowed to move one way only.

The rule (`Runs.reorder`) asks for two facts about single calls.  A relation `R`
between states is kept by every call, which returns the same on both sides; and
two independent neighbours may change places, up to `R`.  Then a reordered run is
a run, with the same result beside every call, and ends in a related state.
-/
import Indie.Library.Run

namespace Machine

variable {σ α β : Type*} {step : σ → α → Option (σ × β)} {P : σ → α → Prop}

/-- Lists in which neighbours `a`, `b` with `I a b` have changed places. -/
inductive Reorder (I : α → α → Prop) : List α → List α → Prop
  | refl (as : List α) : Reorder I as as
  | swap (as bs : List α) {a b : α} (h : I a b) :
      Reorder I (as ++ a :: b :: bs) (as ++ b :: a :: bs)
  | trans {as bs cs : List α} : Reorder I as bs → Reorder I bs cs → Reorder I as cs

/-- The calls of a list, with the results that stand beside them, lead from one
state to another, and each meets its precondition. -/
inductive Runs (step : σ → α → Option (σ × β)) (P : σ → α → Prop) :
    σ → List (α × β) → σ → Prop
  | nil (s : σ) : Runs step P s [] s
  | cons {s t s' : σ} {a : α} {b : β} {l : List (α × β)} (hP : P s a)
      (hs : step s a = some (t, b)) (hl : Runs step P t l s') : Runs step P s ((a, b) :: l) s'

/-- An invariant kept by every call holds in the state a run ends in. -/
theorem Runs.invariant {J : σ → Prop}
    (hJ : ∀ s t a b, J s → P s a → step s a = some (t, b) → J t) {s s' : σ}
    {l : List (α × β)} (hl : Runs step P s l s') (h : J s) : J s' := by
  induction hl with
  | nil s => exact h
  | cons hP hs hl ih => exact ih (hJ _ _ _ _ h hP hs)

/-- A relation that every call keeps, returning the same on both sides, is kept
by every run. -/
theorem Runs.sim {J : σ → Prop} {R : σ → σ → Prop}
    (hJ : ∀ s t a b, J s → P s a → step s a = some (t, b) → J t)
    (hR : ∀ s t a s' b, J s → J t → R s t → P s a → step s a = some (s', b) →
      P t a ∧ ∃ t', step t a = some (t', b) ∧ R s' t')
    {s s' t : σ} {l : List (α × β)} (hl : Runs step P s l s') (hs : J s) (ht : J t)
    (hst : R s t) : ∃ t', Runs step P t l t' ∧ R s' t' := by
  induction hl generalizing t with
  | nil s => exact ⟨t, .nil t, hst⟩
  | cons hP hstep hl ih =>
    obtain ⟨hP', t₁, ht₁, h₁⟩ := hR _ _ _ _ _ hs ht hst hP hstep
    obtain ⟨t', hl', h'⟩ := ih (hJ _ _ _ _ hs hP hstep) (hJ _ _ _ _ ht hP' ht₁) h₁
    exact ⟨t', .cons hP' ht₁ hl', h'⟩

/-- A reordered run is a run, with the same result beside every call. -/
theorem Runs.reorder {J : σ → Prop} {R : σ → σ → Prop} {I : α × β → α × β → Prop}
    (hJ : ∀ s t a b, J s → P s a → step s a = some (t, b) → J t)
    (hR : ∀ s t a s' b, J s → J t → R s t → P s a → step s a = some (s', b) →
      P t a ∧ ∃ t', step t a = some (t', b) ∧ R s' t')
    (hrefl : ∀ s, R s s) (htrans : ∀ s t u, R s t → R t u → R s u)
    (hswap : ∀ s t u a b x y, I (a, x) (b, y) → J s → P s a → step s a = some (t, x) → P t b →
      step t b = some (u, y) → ∃ t' u', P s b ∧ step s b = some (t', y) ∧ P t' a ∧
        step t' a = some (u', x) ∧ R u u')
    {s s' : σ} {l l' : List (α × β)} (hre : Reorder I l l') (hl : Runs step P s l s')
    (hs : J s) : ∃ t', Runs step P s l' t' ∧ R s' t' := by
  induction hre generalizing s s' with
  | refl l => exact ⟨s', hl, hrefl s'⟩
  | trans _ _ ih₁ ih₂ =>
    obtain ⟨t, hl₁, h₁⟩ := ih₁ hl hs
    obtain ⟨u, hl₂, h₂⟩ := ih₂ hl₁ hs
    exact ⟨u, hl₂, htrans _ _ _ h₁ h₂⟩
  | @swap as bs a b hI =>
    -- up to the exchange the runs are the same
    induction as generalizing s with
    | cons c as ih =>
      obtain - | ⟨hP, hstep, hl⟩ := hl
      obtain ⟨t', hl', h'⟩ := ih hl (hJ _ _ _ _ hs hP hstep)
      exact ⟨t', .cons hP hstep hl', h'⟩
    | nil =>
      obtain ⟨a, x⟩ := a
      obtain ⟨b, y⟩ := b
      obtain - | ⟨hPa, ha, hl⟩ := hl
      obtain - | ⟨hPb, hb, hl⟩ := hl
      obtain ⟨t₁, u₁, hPb', hb', hPa', ha', hu⟩ := hswap _ _ _ _ _ _ _ hI hs hPa ha hPb hb
      -- after it they are related
      obtain ⟨t', hl', h'⟩ := hl.sim hJ hR (hJ _ _ _ _ (hJ _ _ _ _ hs hPa ha) hPb hb)
        (hJ _ _ _ _ (hJ _ _ _ _ hs hPb' hb') hPa' ha') hu
      exact ⟨t', .cons hPb' hb' (.cons hPa' ha' hl'), h'⟩

end Machine
