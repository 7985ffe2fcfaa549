/-
Indie/Library/Keyed.lean

Lists of records looked up by key.  A record is a key with a value of the type
the key selects; `List.dlookup` finds the first record of a key and
`List.kreplace` writes it in place.  The lemmas below say how a write, and an
append at the end, show through a lookup, and that with distinct keys a write
touches exactly the one record.
-/
import Mathlib.Data.List.Sigma

namespace Keyed

variable {κ : Type*} [DecidableEq κ] {β : κ → Type*} {l : List (Sigma β)} {a a' : κ}

theorem kreplace_cons_self (b b' : β a) (l : List (Sigma β)) :
    List.kreplace a b (⟨a, b'⟩ :: l) = ⟨a, b⟩ :: l := by
  rw [List.kreplace, List.lookmap_cons_some]
  simp

theorem kreplace_cons_ne (h : a ≠ a') (b : β a) (b' : β a') (l : List (Sigma β)) :
    List.kreplace a b (⟨a', b'⟩ :: l) = ⟨a', b'⟩ :: List.kreplace a b l := by
  rw [List.kreplace, List.lookmap_cons_none]
  exact if_neg h

/-- A write is read back. -/
theorem dlookup_kreplace_self (h : a ∈ l.keys) (b : β a) :
    (l.kreplace a b).dlookup a = some b := by
  induction l with
  | nil => cases h
  | cons s l ih =>
    obtain ⟨k, c⟩ := s
    by_cases hk : a = k
    · subst hk
      rw [kreplace_cons_self, List.dlookup_cons_eq]
    · rw [kreplace_cons_ne hk, List.dlookup_cons_ne _ _ hk]
      rw [List.keys_cons, List.mem_cons] at h
      exact ih (h.resolve_left hk)

/-- A write is not seen under another key. -/
theorem dlookup_kreplace_ne (h : a' ≠ a) (b : β a) :
    (l.kreplace a b).dlookup a' = l.dlookup a' := by
  induction l with
  | nil => rfl
  | cons s l ih =>
    obtain ⟨k, c⟩ := s
    by_cases hk : a = k
    · subst hk
      rw [kreplace_cons_self, List.dlookup_cons_ne _ _ h, List.dlookup_cons_ne _ _ h]
    · rw [kreplace_cons_ne hk]
      by_cases hk' : a' = k
      · subst hk'
        rw [List.dlookup_cons_eq, List.dlookup_cons_eq]
      · rw [List.dlookup_cons_ne _ _ hk', List.dlookup_cons_ne _ _ hk', ih]

/-- Writing what is there changes nothing. -/
theorem kreplace_dlookup {b : β a} (h : l.dlookup a = some b) : l.kreplace a b = l := by
  induction l with
  | nil => rfl
  | cons s l ih =>
    obtain ⟨k, c⟩ := s
    by_cases hk : a = k
    · subst hk
      rw [List.dlookup_cons_eq, Option.some.injEq] at h
      rw [kreplace_cons_self, h]
    · rw [List.dlookup_cons_ne _ _ hk] at h
      rw [kreplace_cons_ne hk, ih h]

/-- With distinct keys, a write replaces the one record of its key. -/
theorem kreplace_middle {l₁ l₂ : List (Sigma β)} {b : β a}
    (h : (l₁ ++ ⟨a, b⟩ :: l₂).NodupKeys) (b' : β a) :
    (l₁ ++ ⟨a, b⟩ :: l₂).kreplace a b' = l₁ ++ ⟨a, b'⟩ :: l₂ := by
  induction l₁ with
  | nil => exact kreplace_cons_self b' b l₂
  | cons s l₁ ih =>
    obtain ⟨k, c⟩ := s
    rw [List.cons_append, List.nodupKeys_cons] at h
    have hk : a ≠ k := by
      rintro rfl
      exact h.1 (List.mem_keys.mpr ⟨b, by simp⟩)
    rw [List.cons_append, kreplace_cons_ne hk, ih h.2, List.cons_append]

/-- A record appended under a new key is found, and hides no other. -/
theorem dlookup_concat_self (h : a ∉ l.keys) (b : β a) :
    (l ++ [Sigma.mk a b]).dlookup a = some b := by
  rw [List.dlookup_append, List.dlookup_eq_none.mpr h, List.dlookup_cons_eq]
  rfl

theorem dlookup_concat_ne (h : a' ≠ a) (b : β a) :
    (l ++ [Sigma.mk a b]).dlookup a' = l.dlookup a' := by
  rw [List.dlookup_append, List.dlookup_cons_ne _ _ h, List.dlookup_nil, Option.or_none]

omit [DecidableEq κ] in
theorem nodupKeys_concat (hl : l.NodupKeys) (h : a ∉ l.keys) (b : β a) :
    (l ++ [Sigma.mk a b]).NodupKeys := by
  rw [List.nodupKeys_middle, List.append_nil, List.nodupKeys_cons]
  exact ⟨h, hl⟩

end Keyed
