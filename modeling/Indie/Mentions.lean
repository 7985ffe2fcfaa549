/-
Indie/Mentions.lean

`FormatMsg` on format strings that mention their arguments as they like.

A format may mention an index several times, or not at all, and there may be more
arguments than it mentions.  `find` sees only the first placeholder of an index, so the
others stay in the message as they are: to `FormatMsg` they are text (`firsts`).  And
the first index that is not mentioned ends the work (`used`): the arguments from there
on are never read, although the format may mention them (`formatMsg_uses`).
-/
import Indie.Message

namespace Indie

open StringFormat (Arg)

namespace Logger

/-- The placeholders of an index after its first, and those of the indices `seen`, as
text. -/
def firstsFrom (seen : List ℕ) : List Piece → List Piece
  | [] => []
  | .text s :: ps => .text s :: firstsFrom seen ps
  | .arg i :: ps =>
    if seen.contains i then .text (placeholder i) :: firstsFrom seen ps
    else .arg i :: firstsFrom (i :: seen) ps

def firsts (ps : List Piece) : List Piece := firstsFrom [] ps

/-- The number of arguments, of `n`, before the first that is not mentioned. -/
def used (ps : List Piece) (n : ℕ) : ℕ :=
  (List.range n).findIdx fun i => ! ps.contains (.arg i)

variable {n k m i : ℕ} {ps pre post : List Piece} {seen : List ℕ} {args : List Arg}
  {out : ℕ → Str}

/-! ### First placeholders -/

theorem firstsFrom_text (s : Str) :
    firstsFrom seen (.text s :: ps) = .text s :: firstsFrom seen ps := rfl

theorem firstsFrom_of_mem (h : i ∈ seen) :
    firstsFrom seen (.arg i :: ps) = .text (placeholder i) :: firstsFrom seen ps :=
  if_pos (List.contains_iff_mem.mpr h)

theorem firstsFrom_of_notMem (h : i ∉ seen) :
    firstsFrom seen (.arg i :: ps) = .arg i :: firstsFrom (i :: seen) ps :=
  if_neg fun hc => h (List.contains_iff_mem.mp hc)

/-- The format string is the same. -/
theorem written_firstsFrom (ps : List Piece) :
    ∀ seen, written (firstsFrom seen ps) = written ps := by
  induction ps with
  | nil => exact fun _ => rfl
  | cons x ps ih =>
    intro seen
    cases x with
    | text s => exact congrArg (s ++ ·) (ih seen)
    | arg i =>
      by_cases hi : i ∈ seen
      · rw [firstsFrom_of_mem hi]
        exact congrArg (placeholder i ++ ·) (ih seen)
      · rw [firstsFrom_of_notMem hi]
        exact congrArg (placeholder i ++ ·) (ih (i :: seen))

theorem arg_mem_firstsFrom (ps : List Piece) :
    ∀ seen, .arg k ∈ firstsFrom seen ps ↔ .arg k ∈ ps ∧ k ∉ seen := by
  induction ps with
  | nil => exact fun _ => iff_of_false List.not_mem_nil fun h => List.not_mem_nil h.1
  | cons x ps ih =>
    intro seen
    cases x with
    | text s =>
      rw [firstsFrom_text, List.mem_cons, List.mem_cons, ih]
      simp
    | arg i =>
      by_cases hi : i ∈ seen
      · rw [firstsFrom_of_mem hi, List.mem_cons, List.mem_cons, ih, Piece.arg.injEq]
        constructor
        · rintro (h | ⟨hk, hs⟩)
          · cases h
          · exact ⟨.inr hk, hs⟩
        · rintro ⟨rfl | hk, hs⟩
          · exact absurd hi hs
          · exact .inr ⟨hk, hs⟩
      · rw [firstsFrom_of_notMem hi, List.mem_cons, List.mem_cons, ih, Piece.arg.injEq,
          List.mem_cons]
        constructor
        · rintro (rfl | ⟨hk, hs⟩)
          · exact ⟨.inl rfl, hi⟩
          · exact ⟨.inr hk, fun h => hs (.inr h)⟩
        · rintro ⟨hk, hs⟩
          by_cases hki : k = i
          · exact .inl hki
          · exact .inr ⟨hk.resolve_left hki, fun h => h.elim hki hs⟩

theorem arg_mem_firsts : .arg k ∈ firsts ps ↔ .arg k ∈ ps := by
  rw [firsts, arg_mem_firstsFrom, and_iff_left List.not_mem_nil]

theorem nodup_firstsFrom (ps : List Piece) :
    ∀ seen, ((firstsFrom seen ps).filterMap Piece.index).Nodup := by
  induction ps with
  | nil => exact fun _ => List.nodup_nil
  | cons x ps ih =>
    intro seen
    cases x with
    | text s => exact ih seen
    | arg i =>
      by_cases hi : i ∈ seen
      · rw [firstsFrom_of_mem hi]
        exact ih seen
      · rw [firstsFrom_of_notMem hi, List.filterMap_cons_some
          (show (Piece.arg i).index = some i from rfl), List.nodup_cons, mem_filterMap_index,
          arg_mem_firstsFrom]
        exact ⟨fun h => h.2 List.mem_cons_self, ih (i :: seen)⟩

/-- A text up to some place is one of the format, or a placeholder whose index was
mentioned before that place. -/
theorem text_mem_firstsFrom {s : Str} (ps : List Piece) :
    ∀ seen pre post, firstsFrom seen ps = pre ++ post → .text s ∈ pre →
      .text s ∈ ps ∨ ∃ i, s = placeholder i ∧ (i ∈ seen ∨ .arg i ∈ pre) := by
  induction ps with
  | nil =>
    intro seen pre post h hs
    rw [(List.append_eq_nil_iff.mp h.symm).1] at hs
    cases hs
  | cons x ps ih =>
    intro seen pre post h hs
    rcases pre with - | ⟨y, pre⟩
    · cases hs
    cases x with
    | text t =>
      obtain ⟨rfl, htail⟩ := List.cons_eq_cons.mp h
      rcases List.mem_cons.mp hs with hs | hs
      · exact .inl (hs ▸ List.mem_cons_self)
      · rcases ih seen pre post htail hs with hs | ⟨i, hi, hmem⟩
        · exact .inl (List.mem_cons_of_mem _ hs)
        · exact .inr ⟨i, hi, hmem.imp_right (List.mem_cons_of_mem _)⟩
    | arg j =>
      by_cases hj : j ∈ seen
      · rw [firstsFrom_of_mem hj] at h
        obtain ⟨rfl, htail⟩ := List.cons_eq_cons.mp h
        rcases List.mem_cons.mp hs with hs | hs
        · exact .inr ⟨j, Piece.text.inj hs, .inl hj⟩
        · rcases ih seen pre post htail hs with hs | ⟨i, hi, hmem⟩
          · exact .inl (List.mem_cons_of_mem _ hs)
          · exact .inr ⟨i, hi, hmem.imp_right (List.mem_cons_of_mem _)⟩
      · rw [firstsFrom_of_notMem hj] at h
        obtain ⟨rfl, htail⟩ := List.cons_eq_cons.mp h
        rcases List.mem_cons.mp hs with hs | hs
        · cases hs
        · rcases ih (j :: seen) pre post htail hs with hs | ⟨i, hi, hmem⟩
          · exact .inl (List.mem_cons_of_mem _ hs)
          · refine .inr ⟨i, hi, ?_⟩
            rcases hmem with hmem | hmem
            · rcases List.mem_cons.mp hmem with rfl | hmem
              · exact .inr List.mem_cons_self
              · exact .inl hmem
            · exact .inr (List.mem_cons_of_mem _ hmem)

theorem text_mem_firsts {s : Str} (h : firsts ps = pre ++ post) (hs : .text s ∈ pre) :
    .text s ∈ ps ∨ ∃ i, s = placeholder i ∧ .arg i ∈ pre := by
  refine (text_mem_firstsFrom ps [] pre post h hs).imp_right ?_
  rintro ⟨i, hi, hmem⟩
  exact ⟨i, hi, hmem.resolve_left List.not_mem_nil⟩

/-! ### Used arguments -/

theorem used_le : used ps n ≤ n :=
  List.findIdx_le_length.trans_eq List.length_range

theorem mem_of_lt_used (h : i < used ps n) : .arg i ∈ ps := by
  have hnot := List.not_of_lt_findIdx h
  rw [List.getElem_range] at hnot
  simpa using hnot

theorem notMem_used (h : used ps n < n) : .arg (used ps n) ∉ ps := by
  have hlt : used ps n < (List.range n).length := h.trans_eq List.length_range.symm
  have hp : (! ps.contains (.arg (List.range n)[used ps n])) = true :=
    List.findIdx_getElem (p := fun i => ! ps.contains (.arg i)) (w := hlt)
  rw [List.getElem_range] at hp
  simpa using hp

/-! ### The message -/

theorem lbrace_notMem_spliced (h : ∀ a ∈ args, '{' ∉ StringFormat.toString a) (i : ℕ) :
    '{' ∉ spliced args i := by
  rw [spliced, List.mem_append, not_or]
  refine ⟨?_, lbrace_notMem_leftover i⟩
  rcases ha : args[i]? with - | a
  · rw [argText, ha]
    exact List.not_mem_nil
  · rw [argText_eq ha]
    exact h a (List.mem_of_getElem? ha)

/-- Each index that is mentioned is found at its first placeholder. -/
theorem clear_firsts (hps : ∀ s, .text s ∈ ps → '{' ∉ s) (hout : ∀ i, '{' ∉ out i)
    (hk : .arg k ∈ ps) : Clear out (firsts ps) k := by
  obtain ⟨pre, post, h⟩ := List.append_of_mem (arg_mem_firsts.mpr hk)
  have hnodup := nodup_firstsFrom ps []
  refine clear_of_eq hnodup h (fun s hs => ?_) fun i _ _ => .inl (hout i)
  refine (text_mem_firsts h hs).imp (hps s) ?_
  rintro ⟨i, hi, hmem⟩
  exact ⟨i, hi, fun he => (notMem_of_nodup hnodup h).1 (he ▸ hmem)⟩

/-- An index that is not mentioned is not found. -/
theorem not_infix_firsts (hps : ∀ s, .text s ∈ ps → '{' ∉ s) (hout : ∀ i, '{' ∉ out i)
    (hk : .arg k ∉ ps) : ¬ placeholder k <:+: fill out k (firsts ps) := by
  refine not_placeholder_infix fun x hx => ?_
  cases x with
  | text s =>
    refine (text_mem_firsts (List.append_nil _).symm hx).imp (hps s) ?_
    rintro ⟨i, hi, hmem⟩
    exact ⟨i, hi, fun he => hk (he ▸ arg_mem_firsts.mp hmem)⟩
  | arg i =>
    by_cases hi : i < k
    · rw [fill_arg_of_lt hi]
      exact .inl (hout i)
    · rw [fill_arg_of_le (Nat.not_lt.mp hi)]
      exact .inr ⟨i, rfl, fun he => hk (he ▸ arg_mem_firsts.mp hx)⟩

/-- Where the placeholder is not found the string stays. -/
theorem formatMsgFrom_of_not_infix {s : Str} (h : ¬ placeholder k <:+: s) (args : List Arg) :
    formatMsgFrom s k args = s := by
  cases args with
  | nil => rfl
  | cons arg args => rw [formatMsgFrom, Search.find_eq_none h]

/-- **Each argument is used once, up to the first that is not mentioned.**  For any
format with literals, and any arguments with texts, without an opening brace:
`FormatMsg` puts each argument, from the first to the last before one that is not
mentioned, in place of the first of its placeholders (and leaves what a longer
placeholder has beyond three characters); all other placeholders stay as they are; and
the arguments from the one that is not mentioned on may be any. -/
theorem formatMsg_uses (ps : List Piece) (hps : ∀ s, .text s ∈ ps → '{' ∉ s) (args : List Arg)
    (h : ∀ a ∈ args, '{' ∉ StringFormat.toString a) :
    formatMsg (written ps) args = fill (spliced args) (used ps args.length) (firsts ps) ∧
      (used ps args.length < args.length → ∀ rest,
        formatMsg (written ps) (args.take (used ps args.length) ++ rest) =
          formatMsg (written ps) args) := by
  have hspliced := lbrace_notMem_spliced h
  have hle : used ps args.length ≤ args.length := used_le
  have hrun : ∀ rest, formatMsg (written ps) (args.take (used ps args.length) ++ rest) =
      formatMsgFrom (fill (spliced args) (used ps args.length) (firsts ps))
        (used ps args.length) rest := by
    intro rest
    have hdrop := formatMsgFrom_drop (Nat.zero_le _) hle
      (fun j _ hj => clear_firsts hps hspliced (mem_of_lt_used hj)) rest
    rwa [fill_zero, firsts, written_firstsFrom, List.drop_zero] at hdrop
  have hstop : used ps args.length < args.length → ∀ rest,
      formatMsgFrom (fill (spliced args) (used ps args.length) (firsts ps))
        (used ps args.length) rest =
        fill (spliced args) (used ps args.length) (firsts ps) := fun hlt rest =>
    formatMsgFrom_of_not_infix (not_infix_firsts hps hspliced (notMem_used hlt)) rest
  have hmsg : formatMsg (written ps) args =
      fill (spliced args) (used ps args.length) (firsts ps) := by
    have hall := hrun (args.drop (used ps args.length))
    rw [List.take_append_drop] at hall
    rcases hle.eq_or_lt with heq | hlt
    · rw [hall, heq, List.drop_length]
      rfl
    · rw [hall, hstop hlt]
  exact ⟨hmsg, fun hlt rest => by rw [hrun rest, hstop hlt, hmsg]⟩

/-- `{1}{0}{0}{3}` and four arguments: the first two are used, each once, and the last is
never read. -/
theorem formatMsg_uses_two :
    let ps : List Piece := [.arg 1, .arg 0, .arg 0, .arg 3]
    let args : List Arg := [.integer 5, .string ['x'], .integer 7, .integer 8]
    formatMsg (written ps) args = 'x' :: '5' :: (placeholder 0 ++ placeholder 3) ∧
      formatMsg (written ps) (args.take 2 ++ [.string (placeholder 3)]) =
        formatMsg (written ps) args := by
  intro ps args
  obtain ⟨hmsg, hrest⟩ := formatMsg_uses ps (fun s hs => by simp [ps] at hs) args (by decide)
  exact ⟨hmsg.trans (by decide), hrest (by decide) [.string (placeholder 3)]⟩

end Logger

end Indie
