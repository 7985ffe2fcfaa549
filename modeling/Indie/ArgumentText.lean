/-
Indie/ArgumentText.lean

Argument texts that are read as format.

The texts put in by the earlier steps of `FormatMsg` lie before the later
placeholders, and each step searches the string from its start.  A text that
holds the characters of a later placeholder, or forms them with its
surroundings, is then spliced instead of the placeholder of the format
(`Format.ReadsText`).  `Format.Unread` says that none does: the string before
each placeholder, with the earlier arguments put in, does not contain its
characters.  For placeholders of one digit this is exact
(`formatMsg_verbatim_iff`): the message is as meant, and no text is read as
format, if and only if the texts are unread.

A message may come out right although a text was read: where both texts of
`{0}{1}` are `{1}`, the two are exchanged.  What can be said of the message
alone is which formats are safe whatever the texts are: those whose
placeholders stand in descending order.
-/
import Indie.Message

namespace Indie

open StringFormat (Arg)

namespace Logger

variable {n k : ℕ} {ps pre post : List Piece} {args : List Arg}

/-! ### Texts that are not read -/

/-- Before each placeholder, with the earlier arguments put in, its characters
do not occur. -/
def Format.Unread (fmt : Format n) (args : List Arg) : Prop :=
  ∀ k < n, ∀ pre post, fmt.pieces = pre ++ .arg k :: post →
    ¬ placeholder k <:+: fill (argText args) k pre

/-- Some step takes its placeholder from before that of the format. -/
def Format.ReadsText (fmt : Format n) (args : List Arg) : Prop :=
  ∃ k < n, ∃ pre post pos, fmt.pieces = pre ++ .arg k :: post ∧
    formatMsg (written fmt.pieces) (args.take k) =
      fill (argText args) k (pre ++ .arg k :: post) ∧
    Search.find (placeholder k) (formatMsg (written fmt.pieces) (args.take k)) = some pos ∧
    pos < (fill (argText args) k pre).length

theorem Clear.congr {out out' : ℕ → Str} (h : Clear out ps k) (hout : fill out k = fill out' k) :
    Clear out' ps k := by
  obtain ⟨pre, post, heq, hpre, hpost, hnot⟩ := h
  exact ⟨pre, post, heq, hpre, hpost, hout ▸ hnot⟩

/-- Where no text was read up to `k`, each of the steps before finds its own
placeholder. -/
theorem Format.clear_of_not_infix (fmt : Format n) (hn : n ≤ 10) (hk : k < n)
    (h : ∀ pre post, fmt.pieces = pre ++ .arg k :: post →
      ¬ placeholder k <:+: fill (argText args) k pre) :
    Clear (spliced args) fmt.pieces k := by
  obtain ⟨pre, post, heq⟩ := List.append_of_mem (fmt.mem_pieces.mpr hk)
  obtain ⟨hpre, hpost⟩ := notMem_of_nodup fmt.nodup heq
  have hclear : Clear (argText args) fmt.pieces k := ⟨pre, post, heq, hpre, hpost, h pre post heq⟩
  exact hclear.congr (fill_spliced (hk.le.trans hn)).symm

theorem Format.formatMsg_of_unread (fmt : Format n) (hn : n ≤ 10) (hlen : args.length = n)
    (h : fmt.Unread args) : formatMsg (written fmt.pieces) args = expand args fmt.pieces := by
  subst hlen
  rw [formatMsg_eq fun j hj => fmt.clear_of_not_infix hn hj (h j hj), fill_spliced hn,
    fill_eq_expand fun i hi => fmt.mem_pieces.mp hi]

/-- The first text that holds a later placeholder is read. -/
theorem Format.unread_of_not_readsText (fmt : Format n) (hn : n ≤ 10) (hlen : args.length = n)
    (h : ¬ fmt.ReadsText args) : fmt.Unread args := by
  intro k
  induction k using Nat.strong_induction_on with
  | _ k ih =>
    intro hk pre post heq hin
    -- the steps before `k` went well, so this is the string step `k` searches
    have hstr : formatMsg (written fmt.pieces) (args.take k) =
        fill (argText args) k (pre ++ .arg k :: post) := by
      rw [formatMsg_take (hk.le.trans_eq hlen.symm) fun j hj =>
        fmt.clear_of_not_infix hn (hj.trans hk) (ih j hj (hj.trans hk)),
        fill_spliced (hk.le.trans hn), heq]
    obtain ⟨pos, hpos, hlt⟩ := Search.find_lt (List.cons_ne_nil _ _) hin
      (fill (argText args) k (.arg k :: post))
    refine h ⟨k, hk, pre, post, pos, heq, hstr, ?_, hlt⟩
    rw [hstr, fill_append]
    exact hpos

theorem Format.not_readsText_of_unread (fmt : Format n) (h : fmt.Unread args) :
    ¬ fmt.ReadsText args := by
  rintro ⟨k, hk, pre, post, pos, heq, hstr, hfind, hlt⟩
  rw [hstr, find_placeholder (h k hk pre post heq)] at hfind
  exact hlt.ne (Option.some.inj hfind).symm

/-! ### Formats that are safe for all texts -/

/-- In descending order only placeholders and literals stand before a
placeholder when its step comes. -/
theorem Format.unread_of_descending (fmt : Format n)
    (h : ∀ k pre post, fmt.pieces = pre ++ .arg k :: post → ∀ i, .arg i ∈ pre → k < i)
    (args : List Arg) : fmt.Unread args := by
  intro k _ pre post heq
  refine not_placeholder_infix fun x hx => ?_
  cases x with
  | text s => exact .inl (fmt.braceFree s (heq ▸ List.mem_append_left _ hx)).1
  | arg i =>
    have hki := h k pre post heq i hx
    exact .inr ⟨i, fill_arg_of_le hki.le, hki.ne'⟩

/-- The indices fall exactly if before each placeholder the indices are
greater. -/
theorem Format.indices_eq_iff (fmt : Format n) :
    fmt.pieces.filterMap Piece.index = (List.range n).reverse ↔
      ∀ k pre post, fmt.pieces = pre ++ .arg k :: post → ∀ i, .arg i ∈ pre → k < i := by
  have hrange : (List.range n).reverse.Pairwise (· > ·) :=
    List.pairwise_reverse.mpr List.pairwise_lt_range
  constructor
  · intro h k pre post heq i hi
    rw [← h, heq, List.filterMap_append,
      List.filterMap_cons_some (show (Piece.arg k).index = some k from rfl)] at hrange
    exact (List.pairwise_append.mp hrange).2.2 i (mem_filterMap_index.mpr hi) k List.mem_cons_self
  · intro h
    have hfall : (fmt.pieces.filterMap Piece.index).Pairwise (· > ·) := by
      rw [List.pairwise_filterMap, List.pairwise_iff_forall_sublist]
      intro x y hxy i hi k hk
      obtain ⟨r, t, hr, hx, hy⟩ := List.cons_sublist_iff.mp hxy
      obtain ⟨u, v, rfl⟩ := List.append_of_mem (List.singleton_sublist.mp hy)
      cases x with
      | text s => cases hi
      | arg i' =>
        cases y with
        | text s => cases hk
        | arg k' =>
          obtain rfl := Option.some.inj hi
          obtain rfl := Option.some.inj hk
          exact h k' (r ++ u) v (by rw [hr, List.append_assoc]) i' (List.mem_append_left u hx)
    exact (fmt.once.trans (List.reverse_perm _).symm).eq_of_pairwise' hfall hrange

/-- Arguments whose text at `i` is the placeholder at `j`. -/
def decoy (n i j : ℕ) : List Arg :=
  (List.range n).map fun m =>
    if m = i then .string (placeholder j) else if m = j then .string ['x'] else .string []

@[simp] theorem length_decoy (n i j : ℕ) : (decoy n i j).length = n := by
  rw [decoy, List.length_map, List.length_range]

theorem argText_decoy (n i j m : ℕ) (hm : m < n) :
    argText (decoy n i j) m = if m = i then placeholder j else if m = j then ['x'] else [] := by
  have hget : (decoy n i j)[m]? = some
      (if m = i then .string (placeholder j) else if m = j then .string ['x'] else .string []) := by
    rw [decoy, List.getElem?_map, List.getElem?_range hm]
    rfl
  rw [argText_eq hget]
  split
  · rfl
  · split <;> rfl

theorem lbrace_notMem_argText_decoy {i j m : ℕ} (hm : m < n) (hne : m ≠ i) :
    '{' ∉ argText (decoy n i j) m := by
  rw [argText_decoy n i j m hm, if_neg hne]
  split <;> decide

/-- The texts do not hide any placeholder but that at `j`. -/
theorem argText_decoy_cases {i j m : ℕ} (hm : m < n) (hk : k ≠ j) :
    '{' ∉ argText (decoy n i j) m ∨
      ∃ l, argText (decoy n i j) m = placeholder l ∧ l ≠ k := by
  by_cases hmi : m = i
  · exact .inr ⟨j, (argText_decoy n i j m hm).trans (if_pos hmi), hk.symm⟩
  · exact .inl (lbrace_notMem_argText_decoy hm hmi)

/-- The steps before `j` are not misled. -/
theorem clear_before (fmt : Format n) (i : ℕ) {j m : ℕ} (hj : j < n) (hm : m < j) :
    Clear (argText (decoy n i j)) fmt.pieces m :=
  clear_of_mem fmt.nodup (fmt.mem_pieces.mpr (hm.trans hj))
    (fun s hs => .inl (fmt.braceFree s hs).1)
    fun _ hl => argText_decoy_cases (hl.trans (hm.trans hj)) hm.ne

/-- The format with the two placeholders exchanged, as the text at `i` makes it
look. -/
def swapped (j : ℕ) (A B C : List Piece) : List Piece :=
  A ++ .arg j :: (B ++ .text (placeholder j) :: C)

section Decoy

variable (fmt : Format n) {i j : ℕ} {A B C : List Piece}
  (heq : fmt.pieces = A ++ .arg i :: (B ++ .arg j :: C))

include heq

theorem nodup_swapped : ((swapped j A B C).filterMap Piece.index).Nodup := by
  have h := fmt.nodup
  simp only [heq, swapped, List.filterMap_append, List.filterMap_cons, Piece.index,
    List.nodup_middle, List.nodup_cons, ← List.append_assoc] at h ⊢
  exact h.2

theorem mem_swapped {x : Piece} (hx : x ∈ swapped j A B C) :
    x ∈ fmt.pieces ∨ x = .text (placeholder j) := by
  simp only [heq, swapped, List.mem_append, List.mem_cons] at hx ⊢
  tauto

theorem fill_swapped (hij : i < j) (hi : i < n) :
    fill (argText (decoy n i j)) j fmt.pieces =
      fill (argText (decoy n i j)) j (swapped j A B C) := by
  rw [heq, swapped]
  simp only [fill_append, fill_cons, fill_text, fill_arg_of_lt hij, fill_arg_of_le le_rfl,
    argText_decoy n i j i hi, if_true]

/-- After the exchange each step finds the placeholder it looks for. -/
theorem clear_swapped (hij : i < j) {m : ℕ} (hjm : j ≤ m) (hm : m < n) :
    Clear (argText (decoy n i j)) (swapped j A B C) m := by
  have hnodup := nodup_swapped fmt heq
  rcases hjm.eq_or_lt with rfl | hjm
  · have hA : .arg i ∉ A := (notMem_of_nodup fmt.nodup heq).1
    exact clear_of_eq hnodup rfl
      (fun s hs => .inl (fmt.braceFree s (heq ▸ List.mem_append_left _ hs)).1)
      fun l hl hx => .inl (lbrace_notMem_argText_decoy (hl.trans hm) fun h => hA (h ▸ hx))
  · refine clear_of_mem hnodup ?_ (fun s hs => ?_) fun i' hi' =>
      argText_decoy_cases (hi'.trans hm) hjm.ne'
    · have hmem := fmt.mem_pieces.mpr hm
      simp only [heq, swapped, List.mem_append, List.mem_cons, Piece.arg.injEq] at hmem ⊢
      have hmi : m ≠ i := (hij.trans hjm).ne'
      tauto
    · rcases mem_swapped fmt heq hs with h | h
      · exact .inl (fmt.braceFree s h).1
      · exact .inr ⟨j, Piece.text.inj h, hjm.ne⟩

/-- `FormatMsg` takes the decoy for the placeholder. -/
theorem formatMsg_decoy (hn : n ≤ 10) (hij : i < j) :
    formatMsg (written fmt.pieces) (decoy n i j) =
      fill (argText (decoy n i j)) n (swapped j A B C) := by
  have hj : j < n := fmt.mem_pieces.mp (by simp [heq])
  have hlen : (decoy n i j).length = n := length_decoy n i j
  have hbefore := formatMsgFrom_drop j.zero_le (hj.le.trans_eq hlen.symm)
    (fun m _ hm => (clear_before fmt i hj hm).congr
      (fill_spliced ((hm.trans hj).le.trans hn)).symm) ((decoy n i j).drop j)
  have hafter := formatMsgFrom_drop hj.le hlen.ge
    (fun m hjm hm => (clear_swapped fmt heq hij hjm hm).congr
      (fill_spliced (hm.le.trans hn)).symm) []
  rw [fill_zero, List.drop_zero, List.take_append_drop, fill_spliced (hj.le.trans hn)] at hbefore
  rw [List.take_of_length_le hlen.le, List.append_nil, fill_spliced (hj.le.trans hn),
    fill_spliced hn] at hafter
  calc formatMsg (written fmt.pieces) (decoy n i j)
      = formatMsgFrom (fill (argText (decoy n i j)) j fmt.pieces) j ((decoy n i j).drop j) :=
        hbefore
    _ = formatMsgFrom (fill (argText (decoy n i j)) j (swapped j A B C)) j
          ((decoy n i j).drop j) := by rw [fill_swapped fmt heq hij (hij.trans hj)]
    _ = fill (argText (decoy n i j)) n (swapped j A B C) := hafter

theorem formatMsg_decoy_ne (hn : n ≤ 10) (hij : i < j) :
    formatMsg (written fmt.pieces) (decoy n i j) ≠ expand (decoy n i j) fmt.pieces := by
  have hj : j < n := fmt.mem_pieces.mp (by simp [heq])
  have hi : i < n := hij.trans hj
  rw [formatMsg_decoy fmt heq hn hij, ← fill_eq_expand fun m hm => fmt.mem_pieces.mp hm, heq,
    swapped]
  simp only [fill_append, fill_cons, fill_arg_of_lt hj, fill_arg_of_lt hi,
    argText_decoy n i j i hi, argText_decoy n i j j hj, if_true, if_neg hij.ne']
  intro h
  -- where the decoy stood there is the text at `j` now
  have hhead := List.append_cancel_left h
  exact absurd (List.cons_eq_cons.mp hhead).1 (by decide)

end Decoy

/-! ### The exact condition -/

/-- The message is the one meant, and no step takes its placeholder out of the
text of an argument. -/
def Format.Verbatim (fmt : Format n) (args : List Arg) : Prop :=
  ¬ fmt.ReadsText args ∧ formatMsg (written fmt.pieces) args = expand args fmt.pieces

/-- **Argument texts are copied, and not read, exactly if they are unread.**
For at most ten arguments with any texts: `FormatMsg` makes the message meant
without reading a text as format if and only if no text, in its place before a
later placeholder, brings up the characters of that placeholder.  A format is
safe for all texts if and only if its placeholders descend. -/
theorem formatMsg_verbatim_iff (fmt : Format n) (hn : n ≤ 10) :
    (∀ args : List Arg, args.length = n → (fmt.Verbatim args ↔ fmt.Unread args)) ∧
      ((∀ args : List Arg, args.length = n →
          formatMsg (written fmt.pieces) args = expand args fmt.pieces) ↔
        fmt.pieces.filterMap Piece.index = (List.range n).reverse) := by
  constructor
  · intro args hlen
    constructor
    · rintro ⟨hnot, -⟩
      exact fmt.unread_of_not_readsText hn hlen hnot
    · intro h
      exact ⟨fmt.not_readsText_of_unread h, fmt.formatMsg_of_unread hn hlen h⟩
  · rw [fmt.indices_eq_iff]
    constructor
    · intro h k pre post heq i hi
      by_contra hik
      have hne : i ≠ k := fun he => (notMem_of_nodup fmt.nodup heq).1 (he ▸ hi)
      obtain ⟨A, B, rfl⟩ := List.append_of_mem hi
      rw [List.append_assoc, List.cons_append] at heq
      exact formatMsg_decoy_ne fmt heq hn (by omega) (h _ (length_decoy n i k))
    · intro h args hlen
      exact fmt.formatMsg_of_unread hn hlen (fmt.unread_of_descending h args)

theorem formatMsg_verbatim_iff_pair :
    (∀ args : List Arg, args.length = 2 →
        ((Format.plain 2).Verbatim args ↔ (Format.plain 2).Unread args)) ∧
      ((∀ args : List Arg, args.length = 2 →
          formatMsg (written (Format.plain 2).pieces) args = expand args (Format.plain 2).pieces) ↔
        (Format.plain 2).pieces.filterMap Piece.index = (List.range 2).reverse) :=
  formatMsg_verbatim_iff (Format.plain 2) (by decide)

/-- Of two equal texts that are read nothing shows in the message. -/
example :
    let args : List Arg := [.string (placeholder 1), .string (placeholder 1)]
    formatMsg (written (Format.plain 2).pieces) args = expand args (Format.plain 2).pieces := by
  decide

/-- The text `{1}` in place of `{0}` gets the second argument, and `{1}` is left
as it was. -/
theorem formatMsg_reads_text :
    let args : List Arg := [.string (placeholder 1), .string ['x']]
    args.length = 2 ∧
      formatMsg (written (Format.plain 2).pieces) args = 'x' :: placeholder 1 ∧
      expand args (Format.plain 2).pieces = placeholder 1 ++ ['x'] ∧
      formatMsg (written (Format.plain 2).pieces) args ≠ expand args (Format.plain 2).pieces := by
  decide

end Logger

end Indie
