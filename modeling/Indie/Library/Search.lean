/-
Indie/Library/Search.lean

First occurrences in a list, and replacing what was found.

`find p s` is the first position at which `p` occurs in `s`, and
`splice s pos count t` puts `t` in place of `count` elements.  Together they
are search and replace on strings.

A *marked* pattern is `c :: t` where `c` is not in `t`: two of its occurrences
cannot overlap.  So in `pre ++ (c :: t) ++ post` the pattern is found where it
was put, unless it occurs in `pre` already (`find_marked`, `find_lt`).  Marked
patterns are looked for piece by piece: a piece without `c` never takes part
in an occurrence (`infix_append_of_notMem`).  A *bracketed* pattern
`bracket c d w` is a word `w` between two marks, and one bracketed word occurs
in another only if the words are equal (`bracket_infix_append`).
-/
import Mathlib.Data.List.Infix
import Mathlib.Tactic

namespace Search

variable {α : Type*}

section Find

variable [DecidableEq α]

/-- The first position at which `p` occurs. -/
def find (p : List α) : List α → Option ℕ
  | [] => if p <+: [] then some 0 else none
  | a :: s => if p <+: a :: s then some 0 else (find p s).map (· + 1)

/-- `t` in the place of the `count` elements from `pos` on. -/
def splice (s : List α) (pos count : ℕ) (t : List α) : List α :=
  s.take pos ++ t ++ s.drop (pos + count)

variable {p s pre post t : List α} {c : α}

omit [DecidableEq α] in
/-- Of a piece that begins where the splice does, the rest stays. -/
theorem splice_append (pre post t : List α) {count : ℕ} (hp : count ≤ p.length) :
    splice (pre ++ (p ++ post)) pre.length count t = pre ++ (t ++ p.drop count ++ post) := by
  have hdrop : (pre ++ (p ++ post)).drop (pre.length + count) = p.drop count ++ post := by
    rw [← List.drop_drop, List.drop_left, List.drop_append_of_le_length hp]
  rw [splice, List.take_left, hdrop, List.append_assoc, List.append_assoc]

theorem find_cons (p : List α) (c : α) (s : List α) :
    find p (c :: s) = if p <+: c :: s then some 0 else (find p s).map (· + 1) := rfl

theorem find_of_prefix (h : p <+: s) : find p s = some 0 := by
  cases s with
  | nil => exact if_pos h
  | cons c s => exact if_pos h

/-- An occurrence in the first part is found there. -/
theorem find_lt (hp : p ≠ []) (h : p <:+: pre) (s : List α) :
    ∃ i, find p (pre ++ s) = some i ∧ i < pre.length := by
  induction pre with
  | nil => exact absurd (List.infix_nil.mp h) hp
  | cons c pre ih =>
    rw [List.cons_append, find_cons]
    by_cases hpre : p <+: c :: (pre ++ s)
    · exact ⟨0, if_pos hpre, Nat.succ_pos _⟩
    · have htail : p <:+: pre := by
        rcases List.infix_cons_iff.mp h with h | h
        · exact absurd (h.trans (List.prefix_append (c :: pre) s)) hpre
        · exact h
      obtain ⟨i, hi, hlt⟩ := ih htail
      refine ⟨i + 1, ?_, Nat.succ_lt_succ hlt⟩
      rw [if_neg hpre, hi]
      rfl

theorem find_eq_none (h : ¬ p <:+: s) : find p s = none := by
  induction s with
  | nil => exact if_neg fun hp => h hp.isInfix
  | cons c s ih =>
    rw [find_cons, if_neg fun hp => h hp.isInfix, ih fun hin => h (List.infix_cons hin)]
    rfl

/-- A marked pattern that does not occur before is found where it was put. -/
theorem find_marked (hc : c ∉ t) (h : ¬ c :: t <:+: pre) :
    find (c :: t) (pre ++ (c :: t ++ post)) = some pre.length := by
  induction pre with
  | nil => exact find_of_prefix (List.prefix_append _ _)
  | cons a pre ih =>
    have hhead : ¬ c :: t <+: a :: (pre ++ (c :: t ++ post)) := by
      intro hp
      have hown : a :: pre <+: a :: (pre ++ (c :: t ++ post)) := List.prefix_append (a :: pre) _
      rcases List.prefix_or_prefix_of_prefix hp hown with hin | ⟨r, hr⟩
      · exact h hin.isInfix
      · -- the occurrence would run on into the mark of the next one
        obtain ⟨rfl, rfl⟩ := List.cons_eq_cons.mp (show a :: (pre ++ r) = c :: t from hr)
        have hrun := (List.prefix_append_right_inj pre).mp (List.cons_prefix_cons.mp hp).2
        rcases r with - | ⟨x, r⟩
        · apply h
          rw [List.append_nil]
        · obtain ⟨rfl, -⟩ := List.cons_prefix_cons.mp hrun
          exact hc (List.mem_append_right pre List.mem_cons_self)
    rw [List.cons_append, find_cons, if_neg hhead, ih fun hin => h (List.infix_cons hin)]
    rfl

end Find

/-! ### Occurrences piece by piece -/

variable {c d : α} {a b t v w : List α}

/-- A piece without the mark takes no part in an occurrence. -/
theorem infix_append_of_notMem (ha : c ∉ a) : c :: t <:+: a ++ b ↔ c :: t <:+: b := by
  refine ⟨fun h => ?_, List.infix_append_of_infix_right⟩
  rcases List.infix_append_iff.mp h with h | h | ⟨l₁, l₂, hl, h₁, h₂⟩
  · exact absurd (h.mem List.mem_cons_self) ha
  · exact h
  · rcases l₁ with - | ⟨x, l₁⟩
    · rw [List.nil_append] at hl
      exact hl ▸ h₂.isInfix
    · obtain ⟨rfl, -⟩ := List.cons_eq_cons.mp hl
      exact absurd (h₁.mem List.mem_cons_self) ha

/-- A word between two marks. -/
def bracket (c d : α) (w : List α) : List α := c :: (w ++ [d])

/-- Words up to the same closing mark are equal. -/
theorem word_eq (hv : d ∉ v) (hw : d ∉ w) (h : v ++ d :: a = w ++ d :: b) : v = w := by
  induction v generalizing w with
  | nil =>
    rcases w with - | ⟨x, w⟩
    · rfl
    · obtain ⟨rfl, -⟩ := List.cons_eq_cons.mp h
      exact absurd List.mem_cons_self hw
  | cons y v ih =>
    rcases w with - | ⟨x, w⟩
    · obtain ⟨rfl, -⟩ := List.cons_eq_cons.mp h
      exact absurd List.mem_cons_self hv
    · obtain ⟨rfl, htail⟩ := List.cons_eq_cons.mp h
      have hv' : d ∉ v := fun hm => hv (List.mem_cons_of_mem y hm)
      have hw' : d ∉ w := fun hm => hw (List.mem_cons_of_mem y hm)
      rw [ih hv' hw' htail]

theorem bracket_prefix_append (hv : d ∉ v) (hw : d ∉ w) :
    bracket c d v <+: bracket c d w ++ b ↔ v = w := by
  constructor
  · rintro ⟨a, h⟩
    have hword : v ++ d :: a = w ++ d :: b := by
      simpa [bracket] using h
    exact word_eq hv hw hword
  · rintro rfl
    exact List.prefix_append _ _

/-- A bracketed word occurs in another only as a whole. -/
theorem bracket_infix_append (hcd : c ≠ d) (hv : d ∉ v) (hc : c ∉ w) (hw : d ∉ w) :
    bracket c d v <:+: bracket c d w ++ b ↔ v = w ∨ bracket c d v <:+: b := by
  have hrest : c ∉ w ++ [d] := by
    simp [hc, hcd]
  show bracket c d v <:+: c :: (w ++ [d] ++ b) ↔ _
  rw [List.infix_cons_iff]
  exact or_congr (bracket_prefix_append hv hw) (infix_append_of_notMem hrest)

/-- A bracketed word does not occur in pieces that lack the opening mark or are
other bracketed words. -/
theorem not_bracket_infix_flatMap {β : Type*} {f : β → List α} {l : List β} (hcd : c ≠ d)
    (hv : d ∉ v) (hl : ∀ x ∈ l, c ∉ f x ∨ ∃ w, f x = bracket c d w ∧ c ∉ w ∧ d ∉ w ∧ v ≠ w) :
    ¬ bracket c d v <:+: l.flatMap f := by
  induction l with
  | nil => exact fun h => List.cons_ne_nil _ _ (List.infix_nil.mp h)
  | cons x l ih =>
    obtain ⟨hx, hl⟩ := List.forall_mem_cons.mp hl
    rw [List.flatMap_cons]
    rcases hx with hx | ⟨w, hw, hcw, hdw, hne⟩
    · exact fun h => ih hl ((infix_append_of_notMem hx).mp h)
    · rw [hw, bracket_infix_append hcd hv hcw hdw]
      rintro (rfl | h)
      · exact hne rfl
      · exact ih hl h

end Search
