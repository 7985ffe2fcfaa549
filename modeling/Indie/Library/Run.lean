/-
Indie/Library/Run.lean

Runs of partial step functions.  A system is a function
`step : σ → α → Option σ`: the state after a call, or `none` where the call
has no defined behaviour.  `run step s as` makes the calls `as` one after the
other and is defined exactly when every one of them is.

Two predicates speak about the whole of a run:

* `Along step P s as` — every call meets its precondition `P` in the state it
  is made in (calls after an undefined one are not constrained);
* `Throughout step T s as` — every call is defined and its transition meets
  `T`.

The rules below package the inductions over runs: an invariant
(`run_invariant`), an invariant with progress (`run_defined`), a measure that
calls raise (`run_isLeast`), a simulation (`run_sim`), and the exact form of a
conditional law (`throughout_iff_along`): if one call from a good state keeps the law
precisely under a condition, then a run keeps it throughout precisely when every call
meets the condition.
-/
import Mathlib.Data.List.Basic
import Mathlib.Tactic

namespace Machine

variable {σ τ α β : Type*} {step : σ → α → Option σ}

/-- Make the calls of a list in order. -/
def run (step : σ → α → Option σ) : σ → List α → Option σ
  | s, [] => some s
  | s, a :: as => (step s a).bind fun s' => run step s' as

@[simp] theorem run_nil (s : σ) : run step s [] = some s := rfl

@[simp] theorem run_cons (s : σ) (a : α) (as : List α) :
    run step s (a :: as) = (step s a).bind fun s' => run step s' as := rfl

theorem run_append (s : σ) (as bs : List α) :
    run step s (as ++ bs) = (run step s as).bind fun s' => run step s' bs := by
  induction as generalizing s with
  | nil => rfl
  | cons a as ih => simp only [List.cons_append, run_cons, ih, Option.bind_assoc]

/-- Every call of the list meets `P` in the state it is made in. -/
def Along (step : σ → α → Option σ) (P : σ → α → Prop) : σ → List α → Prop
  | _, [] => True
  | s, a :: as => P s a ∧ ∀ s', step s a = some s' → Along step P s' as

/-- Every call of the list is defined, and its transition meets `T`. -/
def Throughout (step : σ → α → Option σ) (T : σ → α → σ → Prop) : σ → List α → Prop
  | _, [] => True
  | s, a :: as => ∃ s', step s a = some s' ∧ T s a s' ∧ Throughout step T s' as

instance decidableAlong (P : σ → α → Prop) [∀ s a, Decidable (P s a)] :
    ∀ s as, Decidable (Along step P s as)
  | _, [] => isTrue trivial
  | s, a :: as =>
    match h : step s a with
    | none => decidable_of_iff (P s a) (by simp [Along, h])
    | some s' =>
      have := decidableAlong P s' as
      decidable_of_iff (P s a ∧ Along step P s' as) (by simp [Along, h])

instance decidableThroughout (T : σ → α → σ → Prop) [∀ s a s', Decidable (T s a s')] :
    ∀ s as, Decidable (Throughout step T s as)
  | _, [] => isTrue trivial
  | s, a :: as =>
    match h : step s a with
    | none => isFalse (by simp [Throughout, h])
    | some s' =>
      have := decidableThroughout T s' as
      decidable_of_iff (T s a s' ∧ Throughout step T s' as) (by simp [Throughout, h])

theorem Throughout.mono {T U : σ → α → σ → Prop} (h : ∀ s a s', T s a s' → U s a s') :
    ∀ {s : σ} {as : List α}, Throughout step T s as → Throughout step U s as
  | _, [], _ => trivial
  | _, _ :: _, ⟨s', hs, hT, hrest⟩ => ⟨s', hs, h _ _ _ hT, hrest.mono h⟩

theorem Along.mono {P Q : σ → α → Prop} (h : ∀ s a, P s a → Q s a) :
    ∀ {s : σ} {as : List α}, Along step P s as → Along step Q s as
  | _, [], _ => trivial
  | _, _ :: _, hP => ⟨h _ _ hP.1, fun _ hs => (hP.2 _ hs).mono h⟩

theorem Along.and {P Q : σ → α → Prop} :
    ∀ {s : σ} {as : List α}, Along step P s as → Along step Q s as →
      Along step (fun s a => P s a ∧ Q s a) s as
  | _, [], _, _ => trivial
  | _, _ :: _, hP, hQ => ⟨⟨hP.1, hQ.1⟩, fun s' hs => (hP.2 s' hs).and (hQ.2 s' hs)⟩

/-- A condition met by every call in every state is met along every run. -/
theorem Along.of_forall {P : σ → α → Prop} (h : ∀ s a, P s a) :
    ∀ (s : σ) (as : List α), Along step P s as
  | _, [] => trivial
  | s, a :: as => ⟨h s a, fun s' _ => Along.of_forall h s' as⟩

theorem along_append {P : σ → α → Prop} {s : σ} {as bs : List α} :
    Along step P s (as ++ bs) ↔
      Along step P s as ∧ ∀ s', run step s as = some s' → Along step P s' bs := by
  induction as generalizing s with
  | nil => simp [Along]
  | cons a as ih =>
    simp only [List.cons_append, Along, run_cons, Option.bind_eq_some_iff, ih]
    constructor
    · rintro ⟨hP, hrest⟩
      exact ⟨⟨hP, fun s' hs => (hrest s' hs).1⟩,
        fun s'' ⟨s', hs, hr⟩ => (hrest s' hs).2 s'' hr⟩
    · rintro ⟨⟨hP, has⟩, hbs⟩
      exact ⟨hP, fun s' hs => ⟨has s' hs, fun s'' hr => hbs s'' ⟨s', hs, hr⟩⟩⟩

/-- A law kept throughout makes the run defined. -/
theorem Throughout.run_isSome {T : σ → α → σ → Prop} :
    ∀ {s : σ} {as : List α}, Throughout step T s as → (run step s as).isSome
  | _, [], _ => rfl
  | s, a :: as, ⟨s', hs, _, hrest⟩ => by
      rw [run_cons, hs]
      exact hrest.run_isSome

/-! ### The induction rules -/

/-- An invariant kept by every call holds in the state a run ends in. -/
theorem run_invariant {I : σ → Prop} {P : σ → α → Prop}
    (hstep : ∀ s a s', I s → P s a → step s a = some s' → I s') :
    ∀ {s s' : σ} {as : List α}, I s → Along step P s as →
      run step s as = some s' → I s'
  | s, s', [], hI, _, hr => by
      rw [run_nil, Option.some.injEq] at hr
      exact hr ▸ hI
  | s, s', a :: as, hI, hP, hr => by
      rw [run_cons, Option.bind_eq_some_iff] at hr
      obtain ⟨t, ht, hr⟩ := hr
      exact run_invariant hstep (hstep s a t hI hP.1 ht) (hP.2 t ht) hr

/-- An invariant kept by every call holds wherever a call is made. -/
theorem Along.invariant {I : σ → Prop} {P : σ → α → Prop}
    (hstep : ∀ s a s', I s → P s a → step s a = some s' → I s') :
    ∀ {s : σ} {as : List α}, I s → Along step P s as →
      Along step (fun s a => I s ∧ P s a) s as
  | _, [], _, _ => trivial
  | s, a :: _, hI, hP => ⟨⟨hI, hP.1⟩, fun s' hs =>
      (hP.2 s' hs).invariant hstep (hstep s a s' hI hP.1 hs)⟩

/-- A property of the state and of the calls made so far. -/
theorem run_history {J : σ → List α → Prop}
    (hstep : ∀ s as a s', J s as → step s a = some s' → J s' (as ++ [a])) :
    ∀ {s s' : σ} {as bs : List α}, J s as → run step s bs = some s' → J s' (as ++ bs)
  | s, s', as, [], hJ, hr => by
      rw [run_nil, Option.some.injEq] at hr
      rw [List.append_nil]
      exact hr ▸ hJ
  | s, s', as, b :: bs, hJ, hr => by
      rw [run_cons, Option.bind_eq_some_iff] at hr
      obtain ⟨t, ht, hr⟩ := hr
      rw [List.append_cons]
      exact run_history hstep (hstep s as b t hJ ht) hr

/-- An invariant that makes every call defined makes every run defined. -/
theorem run_defined {I : σ → Prop} {P : σ → α → Prop}
    (hstep : ∀ s a, I s → P s a → ∃ s', step s a = some s' ∧ I s') :
    ∀ {s : σ} {as : List α}, I s → Along step P s as →
      ∃ s', run step s as = some s' ∧ I s'
  | s, [], hI, _ => ⟨s, rfl, hI⟩
  | s, a :: as, hI, hP => by
      obtain ⟨t, ht, hIt⟩ := hstep s a hI hP.1
      obtain ⟨s', hr, hI'⟩ := run_defined hstep hIt (hP.2 t ht)
      exact ⟨s', by simp [ht, hr], hI'⟩

/-- Where every call raises a measure to its demand, a run raises it to the least
value that meets all the demands. -/
theorem run_isLeast {β : Type*} [SemilatticeSup β] {I : σ → Prop} {P : σ → α → Prop}
    {m : σ → β} {d : α → β}
    (hstep : ∀ s a s', I s → P s a → step s a = some s' → I s' ∧ m s' = m s ⊔ d a) :
    ∀ {s s' : σ} {as : List α}, I s → Along step P s as → run step s as = some s' →
      IsLeast {c | m s ≤ c ∧ ∀ a ∈ as, d a ≤ c} (m s')
  | s, s', [], _, _, hr => by
      rw [run_nil, Option.some.injEq] at hr
      subst hr
      exact ⟨⟨le_rfl, List.forall_mem_nil _⟩, fun c hc => hc.1⟩
  | s, s', a :: as, hI, hP, hr => by
      rw [run_cons, Option.bind_eq_some_iff] at hr
      obtain ⟨t, ht, hr⟩ := hr
      obtain ⟨hIt, hm⟩ := hstep s a t hI hP.1 ht
      obtain ⟨⟨hle, hall⟩, hleast⟩ := run_isLeast hstep hIt (hP.2 t ht) hr
      rw [hm] at hle hleast
      refine ⟨⟨le_sup_left.trans hle, List.forall_mem_cons.mpr ⟨le_sup_right.trans hle, hall⟩⟩,
        fun c hc => hleast ⟨sup_le hc.1 (hc.2 a List.mem_cons_self), fun b hb => ?_⟩⟩
      exact hc.2 b (List.mem_cons_of_mem a hb)

/-- Forward simulation: a relation carried by every call is carried by every
run. -/
theorem run_sim (step' : τ → α → Option τ) {R : σ → τ → Prop} {P : σ → α → Prop}
    (hstep : ∀ s t a s', R s t → P s a → step s a = some s' →
      ∃ t', step' t a = some t' ∧ R s' t') :
    ∀ {s s' : σ} {t : τ} {as : List α}, R s t → Along step P s as →
      run step s as = some s' → ∃ t', run step' t as = some t' ∧ R s' t'
  | s, s', t, [], hR, _, hr => by
      rw [run_nil, Option.some.injEq] at hr
      exact ⟨t, rfl, hr ▸ hR⟩
  | s, s', t, a :: as, hR, hP, hr => by
      rw [run_cons, Option.bind_eq_some_iff] at hr
      obtain ⟨u, hu, hr⟩ := hr
      obtain ⟨t', ht', hR'⟩ := hstep s t a u hR hP.1 hu
      obtain ⟨t'', hr', hR''⟩ := run_sim step' hstep hR' (hP.2 u hu) hr
      exact ⟨t'', by simp [ht', hr'], hR''⟩

/-- A fold that may fail is a run. -/
theorem foldlM_eq_run (s : σ) (as : List α) : as.foldlM step s = run step s as := by
  induction as generalizing s with
  | nil => rfl
  | cons a as ih =>
    rw [List.foldlM_cons, run_cons]
    exact Option.bind_congr fun s' _ => ih s'

/-- Forward simulation of loops. -/
theorem foldlM_sim (step' : τ → α → Option τ) {R : σ → τ → Prop}
    (hstep : ∀ s t a s', R s t → step s a = some s' → ∃ t', step' t a = some t' ∧ R s' t')
    {s s' : σ} {t : τ} {as : List α} (hR : R s t) (hs : as.foldlM step s = some s') :
    ∃ t', as.foldlM step' t = some t' ∧ R s' t' := by
  rw [foldlM_eq_run] at hs ⊢
  exact run_sim step' (P := fun _ _ => True) (fun s t a s' hR _ => hstep s t a s' hR) hR
    (Along.of_forall (fun _ _ => trivial) s as) hs

/-- Calls that are total make a run a fold. -/
theorem run_total (f : τ → α → τ) (t : τ) (as : List α) :
    run (fun t a => some (f t a)) t as = some (as.foldl f t) := by
  induction as generalizing t with
  | nil => rfl
  | cons a as ih => exact ih (f t a)

/-- The exact form of a conditional law.  In a good state a call keeps the law
`T` precisely when it meets the condition `C`, and then the next state is good
again; so a run keeps `T` throughout precisely when every call meets `C`. -/
theorem throughout_iff_along {I : σ → Prop} {P C : σ → α → Prop}
    {T : σ → α → σ → Prop}
    (hstep : ∀ s a, I s → P s a → (C s a ↔ ∃ s', step s a = some s' ∧ T s a s'))
    (hgood : ∀ s a s', I s → P s a → C s a → step s a = some s' → I s') :
    ∀ {s : σ} {as : List α}, I s → Along step P s as →
      (Throughout step T s as ↔ Along step C s as)
  | _, [], _, _ => Iff.rfl
  | s, a :: as, hI, hP => by
      constructor
      · rintro ⟨s', hs, hT, hrest⟩
        have hC : C s a := (hstep s a hI hP.1).mpr ⟨s', hs, hT⟩
        refine ⟨hC, fun t ht => ?_⟩
        obtain rfl : s' = t := by simpa [hs] using ht
        exact (throughout_iff_along hstep hgood (hgood s a s' hI hP.1 hC hs)
          (hP.2 s' hs)).mp hrest
      · rintro ⟨hC, hrest⟩
        obtain ⟨s', hs, hT⟩ := (hstep s a hI hP.1).mp hC
        exact ⟨s', hs, hT, (throughout_iff_along hstep hgood
          (hgood s a s' hI hP.1 hC hs) (hP.2 s' hs)).mpr (hrest s' hs)⟩

/-- The same for a condition on calls: where one call from a good state keeps the
law `L` precisely under `C`, so does a run. -/
theorem along_iff_along {I : σ → Prop} {P C L : σ → α → Prop}
    (hstep : ∀ s a, I s → P s a → (L s a ↔ C s a))
    (hgood : ∀ s a s', I s → P s a → C s a → step s a = some s' → I s') :
    ∀ {s : σ} {as : List α}, I s → Along step P s as →
      (Along step L s as ↔ Along step C s as)
  | _, [], _, _ => Iff.rfl
  | s, a :: as, hI, hP => by
      have hhead := hstep s a hI hP.1
      constructor
      · rintro ⟨hL, hrest⟩
        have hC := hhead.mp hL
        exact ⟨hC, fun s' hs => (along_iff_along hstep hgood
          (hgood s a s' hI hP.1 hC hs) (hP.2 s' hs)).mp (hrest s' hs)⟩
      · rintro ⟨hC, hrest⟩
        exact ⟨hhead.mpr hC, fun s' hs => (along_iff_along hstep hgood
          (hgood s a s' hI hP.1 hC hs) (hP.2 s' hs)).mpr (hrest s' hs)⟩

/-! ### Recording what the calls return -/

/-- The system that also keeps the list of results its calls have returned. -/
def logged (step : σ → α → Option (σ × β)) (s : σ × List β) (a : α) :
    Option (σ × List β) :=
  (step s.1 a).map fun r => (r.1, s.2 ++ [r.2])

theorem logged_eq_some {step : σ → α → Option (σ × β)} {s s' : σ × List β} {a : α} :
    logged step s a = some s' ↔
      ∃ r, step s.1 a = some r ∧ s' = (r.1, s.2 ++ [r.2]) := by
  simp only [logged, Option.map_eq_some_iff]
  exact exists_congr fun r => and_congr_right fun _ => eq_comm

/-- Two systems in lockstep: if from related states a call is defined in both or in
neither, returns the same and leaves them related, then so does a run. -/
theorem run_logged_rel {step : σ → α → Option (σ × β)} (step' : τ → α → Option (τ × β))
    {R : σ → τ → Prop} {P : σ → α → Prop}
    (hstep : ∀ s t a, R s t → P s a →
      Option.Rel (fun x y => x.2 = y.2 ∧ R x.1 y.1) (step s a) (step' t a)) :
    ∀ {s : σ} {t : τ} (bs : List β) (as : List α), R s t →
      Along (fun s a => (step s a).map Prod.fst) P s as →
      Option.Rel (fun x y => x.2 = y.2 ∧ R x.1 y.1)
        (run (logged step) (s, bs) as) (run (logged step') (t, bs) as)
  | _, _, _, [], hR, _ => .some ⟨rfl, hR⟩
  | s, t, bs, a :: as, hR, hP => by
      have h := hstep s t a hR hP.1
      have hrest : ∀ u, (step s a).map Prod.fst = some u →
          Along (fun s a => (step s a).map Prod.fst) P u as := hP.2
      rw [run_cons, run_cons, logged, logged]
      revert h hrest
      generalize step s a = x, step' t a = y
      intro h hrest
      cases h with
      | none => exact .none
      | @some x y hxy =>
        obtain ⟨s', b⟩ := x
        obtain ⟨t', b'⟩ := y
        obtain ⟨rfl, hR'⟩ := hxy
        exact run_logged_rel step' hstep (bs ++ [b]) as hR' (hrest s' rfl)

/-- Systems in lockstep meet in the same runs preconditions that say the same. -/
theorem along_iff_of_rel {step : σ → α → Option (σ × β)} (step' : τ → α → Option (τ × β))
    {R : σ → τ → Prop} {P : σ → α → Prop} {Q : τ → α → Prop}
    (hstep : ∀ s t a, R s t → P s a →
      Option.Rel (fun x y => x.2 = y.2 ∧ R x.1 y.1) (step s a) (step' t a))
    (hPQ : ∀ s t a, R s t → (P s a ↔ Q t a)) :
    ∀ {s : σ} {t : τ} (as : List α), R s t →
      (Along (fun s a => (step s a).map Prod.fst) P s as ↔
        Along (fun t a => (step' t a).map Prod.fst) Q t as)
  | _, _, [], _ => Iff.rfl
  | s, t, a :: as, hR => by
      rw [Along, Along, hPQ s t a hR]
      refine and_congr_right fun hQ => ?_
      have h := hstep s t a hR ((hPQ s t a hR).mpr hQ)
      revert h
      generalize step s a = x, step' t a = y
      intro h
      cases h with
      | none => exact ⟨fun _ _ => nofun, fun _ _ => nofun⟩
      | @some x y hxy =>
        have ih := along_iff_of_rel step' hstep hPQ as hxy.2
        constructor
        · intro h t' ht'
          exact Option.some.inj ht' ▸ ih.mp (h x.1 rfl)
        · intro h s' hs'
          exact Option.some.inj hs' ▸ ih.mpr (h y.1 rfl)

/-- Two systems in lockstep return the same. -/
theorem run_logged_eq {step : σ → α → Option (σ × β)} (step' : τ → α → Option (τ × β))
    {R : σ → τ → Prop} {P : σ → α → Prop}
    (hstep : ∀ s t a, R s t → P s a →
      Option.Rel (fun x y => x.2 = y.2 ∧ R x.1 y.1) (step s a) (step' t a))
    {s : σ} {t : τ} (bs : List β) (as : List α) (hR : R s t)
    (hP : Along (fun s a => (step s a).map Prod.fst) P s as) :
    (run (logged step) (s, bs) as).map Prod.snd = (run (logged step') (t, bs) as).map Prod.snd := by
  have h := run_logged_rel step' hstep bs as hR hP
  revert h
  generalize run (logged step) (s, bs) as = x, run (logged step') (t, bs) as = y
  intro h
  cases h with
  | none => rfl
  | some h => exact congrArg some h.1

end Machine
