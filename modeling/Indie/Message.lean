/-
Indie/Message.lean

What a formatted message is meant to be, and when `FormatMsg` makes it.

A format string is meant as a list of pieces, literal text and placeholders
(`Format`), and a message as the same list with each placeholder replaced, as
a whole, by the text of its argument (`Format.expand`).  `FormatMsg` only has
the string.  After `k` steps the placeholders below `k` have been replaced
(`fill`), provided each step finds the placeholder of the format and nothing
before it (`Clear`).  Two things go wrong:

* from index 10 on a placeholder has more than the three characters that are
  replaced, and its end is left in the message (`formatMsg_complete_iff`);
* the text of an earlier argument is searched again by the later steps, and
  may hold their placeholders (`formatMsg_verbatim_iff`).
-/
import Indie.Logger
import Mathlib.Data.List.TakeWhile

namespace Indie

open StringFormat (Arg)

namespace Logger

/-! ### Formats -/

/-- A piece of a format string. -/
inductive Piece
  | text (s : Str)
  | arg (i : ℕ)
  deriving DecidableEq

/-- The argument a piece stands for. -/
def Piece.index : Piece → Option ℕ
  | .text _ => none
  | .arg i => some i

def BraceFree (s : Str) : Prop := '{' ∉ s ∧ '}' ∉ s

instance (s : Str) : Decidable (BraceFree s) := inferInstanceAs (Decidable (_ ∧ _))

/-- The text of the argument at `i`. -/
def argText (args : List Arg) (i : ℕ) : Str := (args[i]?).elim [] StringFormat.toString

/-- The pieces as a format string. -/
def written (ps : List Piece) : Str :=
  ps.flatMap fun
    | .text s => s
    | .arg i => placeholder i

/-- The pieces with each placeholder replaced by the text of its argument. -/
def expand (args : List Arg) (ps : List Piece) : Str :=
  ps.flatMap fun
    | .text s => s
    | .arg i => argText args i

/-- A format for `n` arguments: brace-free literals, and each placeholder
once. -/
structure Format (n : ℕ) where
  pieces : List Piece
  braceFree : ∀ s, .text s ∈ pieces → BraceFree s
  once : (pieces.filterMap Piece.index).Perm (List.range n)

/-! ### A format half filled in -/

/-- A piece when the placeholders below `k` have become `out`. -/
def Piece.fill (out : ℕ → Str) (k : ℕ) : Piece → Str
  | .text s => s
  | .arg i => if i < k then out i else placeholder i

/-- The string when the placeholders below `k` have become `out`. -/
def fill (out : ℕ → Str) (k : ℕ) (ps : List Piece) : Str := ps.flatMap (Piece.fill out k)

/-- What `FormatMsg` leaves in the place of a placeholder. -/
def spliced (args : List Arg) (i : ℕ) : Str := argText args i ++ leftover i

/-- The placeholder at `k` is there once, and its characters do not occur before
it. -/
def Clear (out : ℕ → Str) (ps : List Piece) (k : ℕ) : Prop :=
  ∃ pre post, ps = pre ++ .arg k :: post ∧ .arg k ∉ pre ∧ .arg k ∉ post ∧
    ¬ placeholder k <:+: fill out k pre

variable {n k : ℕ} {out out' : ℕ → Str} {ps pre post : List Piece} {args : List Arg}

@[simp] theorem fill_append (out : ℕ → Str) (k : ℕ) (ps qs : List Piece) :
    fill out k (ps ++ qs) = fill out k ps ++ fill out k qs := List.flatMap_append

@[simp] theorem fill_cons (out : ℕ → Str) (k : ℕ) (x : Piece) (ps : List Piece) :
    fill out k (x :: ps) = x.fill out k ++ fill out k ps := List.flatMap_cons

@[simp] theorem fill_text (out : ℕ → Str) (k : ℕ) (s : Str) : (Piece.text s).fill out k = s := rfl

theorem fill_arg_of_lt {i : ℕ} (h : i < k) : (Piece.arg i).fill out k = out i := if_pos h

theorem fill_arg_of_le {i : ℕ} (h : k ≤ i) : (Piece.arg i).fill out k = placeholder i :=
  if_neg (Nat.not_lt.mpr h)

theorem fill_zero (out : ℕ → Str) (ps : List Piece) : fill out 0 ps = written ps := by
  unfold fill written
  congr 1

/-- Only what stands below `k` matters. -/
theorem fill_congr (h : ∀ i < k, out i = out' i) : fill out k = fill out' k := by
  funext ps
  unfold fill
  congr 1
  funext x
  cases x with
  | text s => rfl
  | arg i =>
    by_cases hi : i < k
    · rw [fill_arg_of_lt hi, fill_arg_of_lt hi, h i hi]
    · rw [fill_arg_of_le (Nat.not_lt.mp hi), fill_arg_of_le (Nat.not_lt.mp hi)]

/-- A step changes only the placeholder it is about. -/
theorem fill_succ (h : .arg k ∉ ps) : fill out (k + 1) ps = fill out k ps := by
  unfold fill
  refine List.flatMap_congr fun x hx => ?_
  cases x with
  | text s => rfl
  | arg i =>
    have hne : i ≠ k := fun hi => h (hi ▸ hx)
    show (if i < k + 1 then _ else _) = if i < k then _ else _
    simp only [show i < k + 1 ↔ i < k by omega]

theorem fill_eq_expand (h : ∀ i, .arg i ∈ ps → i < n) :
    fill (argText args) n ps = expand args ps := by
  unfold fill expand
  refine List.flatMap_congr fun x hx => ?_
  cases x with
  | text s => rfl
  | arg i => exact fill_arg_of_lt (h i hx)

theorem spliced_of_lt {i : ℕ} (hi : i < 10) : spliced args i = argText args i := by
  rw [spliced, leftover_eq_nil_iff.mpr hi, List.append_nil]

theorem fill_spliced (hk : k ≤ 10) : fill (spliced args) k = fill (argText args) k :=
  fill_congr fun _ hi => spliced_of_lt (hi.trans_le hk)

/-! ### One step and a run of them -/

/-- The placeholder is found where the format has it. -/
theorem find_placeholder (h : ¬ placeholder k <:+: fill out k pre) :
    Search.find (placeholder k) (fill out k (pre ++ .arg k :: post)) =
      some (fill out k pre).length := by
  have hmark : '{' ∉ digits k ++ ['}'] := by
    rw [List.mem_append, List.mem_singleton]
    exact not_or.mpr ⟨lbrace_notMem_digits k, by decide⟩
  rw [fill_append, fill_cons, fill_arg_of_le le_rfl]
  exact Search.find_marked hmark h

/-- A step that finds its own placeholder fills it in. -/
theorem formatMsgFrom_cons (h : Clear out ps k) {arg : Arg}
    (hout : out k = StringFormat.toString arg ++ leftover k) (args : List Arg) :
    formatMsgFrom (fill out k ps) k (arg :: args) =
      formatMsgFrom (fill out (k + 1) ps) (k + 1) args := by
  obtain ⟨pre, post, rfl, hpre, hpost, hclear⟩ := h
  rw [formatMsgFrom, find_placeholder hclear]
  show formatMsgFrom (Search.splice _ _ _ _) _ _ = _
  rw [fill_append, fill_cons, fill_arg_of_le le_rfl,
    Search.splice_append _ _ _ (three_le_length_placeholder k)]
  -- that is the format filled in one step further
  rw [fill_append, fill_cons, fill_arg_of_lt k.lt_succ_self, fill_succ hpre, fill_succ hpost,
    hout]
  rfl

/-- Steps that find their own placeholders fill them in. -/
theorem formatMsgFrom_append (args rest : List Arg)
    (hout : ∀ j arg, args[j]? = some arg →
      out (k + j) = StringFormat.toString arg ++ leftover (k + j))
    (hclear : ∀ j < args.length, Clear out ps (k + j)) :
    formatMsgFrom (fill out k ps) k (args ++ rest) =
      formatMsgFrom (fill out (k + args.length) ps) (k + args.length) rest := by
  induction args generalizing k with
  | nil => rfl
  | cons arg args ih =>
    have hstep := formatMsgFrom_cons (hclear 0 (Nat.succ_pos _)) (hout 0 arg rfl) (args ++ rest)
    have hnext : ∀ j, k + 1 + j = k + (j + 1) := fun j => by omega
    refine hstep.trans ((ih (fun j a ha => ?_) fun j hj => ?_).trans ?_)
    · rw [Nat.add_zero, hnext]
      exact hout (j + 1) a ha
    · rw [Nat.add_zero, hnext]
      exact hclear (j + 1) (Nat.succ_lt_succ hj)
    · rw [Nat.add_zero, hnext, List.length_cons]

theorem argText_eq {i : ℕ} {arg : Arg} (h : args[i]? = some arg) :
    argText args i = StringFormat.toString arg := by
  rw [argText, h]
  rfl

/-- The steps from `k` to `m`, on a string filled in up to `k`. -/
theorem formatMsgFrom_drop {m : ℕ} (hkm : k ≤ m) (hm : m ≤ args.length)
    (h : ∀ j, k ≤ j → j < m → Clear (spliced args) ps j) (rest : List Arg) :
    formatMsgFrom (fill (spliced args) k ps) k ((args.take m).drop k ++ rest) =
      formatMsgFrom (fill (spliced args) m ps) m rest := by
  have hlen : k + ((args.take m).drop k).length = m := by
    rw [List.length_drop, List.length_take_of_le hm]
    omega
  have hout : ∀ j arg, ((args.take m).drop k)[j]? = some arg →
      spliced args (k + j) = StringFormat.toString arg ++ leftover (k + j) := by
    intro j arg hj
    have hjm : j < ((args.take m).drop k).length := (List.getElem?_eq_some_iff.mp hj).1
    rw [List.getElem?_drop, List.getElem?_take_of_lt (by omega)] at hj
    rw [spliced, argText_eq hj]
  rw [formatMsgFrom_append _ rest hout fun j hj => h _ (by omega) (by omega), hlen]

/-- The string `FormatMsg` has made after `k` arguments. -/
theorem formatMsg_take (hk : k ≤ args.length) (h : ∀ j < k, Clear (spliced args) ps j) :
    formatMsg (written ps) (args.take k) = fill (spliced args) k ps := by
  have hrun := formatMsgFrom_drop k.zero_le hk (fun j _ hj => h j hj) []
  rwa [fill_zero, List.drop_zero, List.append_nil] at hrun

theorem formatMsg_eq (h : ∀ j < args.length, Clear (spliced args) ps j) :
    formatMsg (written ps) args = fill (spliced args) args.length ps := by
  have hall := formatMsg_take le_rfl h
  rwa [List.take_length] at hall

/-! ### The placeholders of a format -/

theorem mem_filterMap_index {i : ℕ} : i ∈ ps.filterMap Piece.index ↔ .arg i ∈ ps := by
  rw [List.mem_filterMap]
  constructor
  · rintro ⟨x, hx, hi⟩
    cases x with
    | text s => cases hi
    | arg j => exact Option.some.inj hi ▸ hx
  · exact fun h => ⟨_, h, rfl⟩

theorem Format.mem_pieces (fmt : Format n) {i : ℕ} : .arg i ∈ fmt.pieces ↔ i < n := by
  rw [← mem_filterMap_index, fmt.once.mem_iff, List.mem_range]

theorem Format.nodup (fmt : Format n) : (fmt.pieces.filterMap Piece.index).Nodup :=
  fmt.once.nodup_iff.mpr List.nodup_range

/-- Around a placeholder that is there once there is no other of its index. -/
theorem notMem_of_nodup (hps : (ps.filterMap Piece.index).Nodup)
    (h : ps = pre ++ .arg k :: post) : .arg k ∉ pre ∧ .arg k ∉ post := by
  rw [h, List.filterMap_append,
    List.filterMap_cons_some (show (Piece.arg k).index = some k from rfl), List.nodup_middle,
    List.nodup_cons, List.mem_append, mem_filterMap_index, mem_filterMap_index] at hps
  exact not_or.mp hps.1

/-- Pieces without an opening brace, or with that of another placeholder, do not
hide the placeholder at `k`. -/
theorem not_placeholder_infix
    (h : ∀ x ∈ pre, '{' ∉ x.fill out k ∨ ∃ i, x.fill out k = placeholder i ∧ i ≠ k) :
    ¬ placeholder k <:+: fill out k pre := by
  refine Search.not_bracket_infix_flatMap (by decide) (rbrace_notMem_digits k) fun x hx => ?_
  refine (h x hx).imp_right ?_
  rintro ⟨i, hi, hne⟩
  exact ⟨digits i, hi, lbrace_notMem_digits i, rbrace_notMem_digits i,
    fun heq => hne (digits_injective heq).symm⟩

/-- A step finds its placeholder when the literals and the texts before it have
no opening brace, or only as other placeholders. -/
theorem clear_of_eq (hps : (ps.filterMap Piece.index).Nodup) (h : ps = pre ++ .arg k :: post)
    (htext : ∀ s, .text s ∈ pre → '{' ∉ s ∨ ∃ i, s = placeholder i ∧ i ≠ k)
    (hout : ∀ i < k, .arg i ∈ pre → '{' ∉ out i ∨ ∃ j, out i = placeholder j ∧ j ≠ k) :
    Clear out ps k := by
  obtain ⟨hpre, hpost⟩ := notMem_of_nodup hps h
  refine ⟨pre, post, h, hpre, hpost, not_placeholder_infix fun x hx => ?_⟩
  cases x with
  | text s => exact htext s hx
  | arg i =>
    by_cases hi : i < k
    · rw [fill_arg_of_lt hi]
      exact hout i hi hx
    · rw [fill_arg_of_le (Nat.not_lt.mp hi)]
      exact .inr ⟨i, rfl, fun he => hpre (he ▸ hx)⟩

theorem clear_of_mem (hps : (ps.filterMap Piece.index).Nodup) (hk : .arg k ∈ ps)
    (htext : ∀ s, .text s ∈ ps → '{' ∉ s ∨ ∃ i, s = placeholder i ∧ i ≠ k)
    (hout : ∀ i < k, '{' ∉ out i ∨ ∃ j, out i = placeholder j ∧ j ≠ k) :
    Clear out ps k := by
  obtain ⟨pre, post, rfl⟩ := List.append_of_mem hk
  exact clear_of_eq hps rfl (fun s hs => htext s (List.mem_append_left _ hs))
    fun i hi _ => hout i hi

/-! ### Any number of arguments -/

theorem braceFree_argText (h : ∀ a ∈ args, BraceFree (StringFormat.toString a)) (i : ℕ) :
    BraceFree (argText args i) := by
  rcases ha : args[i]? with - | a
  · rw [argText, ha]
    exact ⟨List.not_mem_nil, List.not_mem_nil⟩
  · rw [argText_eq ha]
    exact h a (List.mem_of_getElem? ha)

/-- Without braces in the texts each step finds its placeholder. -/
theorem Format.formatMsg_eq_fill (fmt : Format n) (hlen : args.length = n)
    (h : ∀ a ∈ args, BraceFree (StringFormat.toString a)) :
    formatMsg (written fmt.pieces) args = fill (spliced args) n fmt.pieces := by
  subst hlen
  refine formatMsg_eq fun j hj => clear_of_mem fmt.nodup (fmt.mem_pieces.mpr hj)
    (fun s hs => .inl (fmt.braceFree s hs).1) fun i _ => .inl fun hmem => ?_
  rcases List.mem_append.mp hmem with hmem | hmem
  · exact (braceFree_argText h i).1 hmem
  · exact lbrace_notMem_leftover i hmem

/-- The message meant has no braces if the texts have none. -/
theorem Format.rbrace_notMem_expand (fmt : Format n)
    (h : ∀ a ∈ args, BraceFree (StringFormat.toString a)) : '}' ∉ expand args fmt.pieces := by
  intro hmem
  obtain ⟨x, hx, hmem⟩ := List.mem_flatMap.mp hmem
  cases x with
  | text s => exact (fmt.braceFree s hx).2 hmem
  | arg i => exact (braceFree_argText h i).2 hmem

/-- **A message is formatted completely exactly if it has at most ten
arguments.**  For texts without braces, `FormatMsg` replaces each placeholder
of the format as a whole if and only if there are no more arguments than there
are indices of one digit; from the eleventh argument on the closing brace of
its placeholder stays in the message. -/
theorem formatMsg_complete_iff (fmt : Format n) (hlen : args.length = n)
    (h : ∀ a ∈ args, BraceFree (StringFormat.toString a)) :
    formatMsg (written fmt.pieces) args = expand args fmt.pieces ↔ n ≤ 10 := by
  rw [fmt.formatMsg_eq_fill hlen h]
  constructor
  · intro heq
    by_contra hn
    have hten : Piece.arg 10 ∈ fmt.pieces := fmt.mem_pieces.mpr (Nat.not_le.mp hn)
    apply fmt.rbrace_notMem_expand h
    rw [← heq]
    refine List.mem_flatMap.mpr ⟨.arg 10, hten, ?_⟩
    rw [fill_arg_of_lt (Nat.not_le.mp hn)]
    exact List.mem_append_right _ (rbrace_mem_leftover le_rfl)
  · intro hn
    rw [fill_spliced hn, fill_eq_expand fun i hi => fmt.mem_pieces.mp hi]

/-- `Log` prints the message meant, of up to ten arguments without braces or
null characters. -/
theorem log_format (l : Logger) (time : Str) (level : LoggerLevel) (fmt : Format n) (hn : n ≤ 10)
    (hlen : args.length = n) (h : ∀ a ∈ args, BraceFree (StringFormat.toString a))
    (hnull : '\x00' ∉ expand args fmt.pieces) :
    l.log time level (written fmt.pieces) args =
      l.logMsg time level (expand args fmt.pieces) := by
  rw [log, fmt.formatMsg_eq_fill hlen h, fill_spliced hn,
    fill_eq_expand fun i hi => fmt.mem_pieces.mp hi]
  congr 1
  refine List.takeWhile_eq_self_iff.mpr fun c hc => ?_
  exact decide_eq_true fun heq => hnull (heq ▸ hc)

/-- The format that is only placeholders, in order. -/
def Format.plain (n : ℕ) : Format n where
  pieces := (List.range n).map .arg
  braceFree := by
    intro s hs
    obtain ⟨i, -, hi⟩ := List.mem_map.mp hs
    cases hi
  once := by
    rw [List.filterMap_map]
    exact (List.filterMap_some (l := List.range n)).symm ▸ List.Perm.refl _

theorem formatMsg_complete_iff_pair :
    let args : List Arg := [.integer (-7), .string ['a']]
    formatMsg (written (Format.plain 2).pieces) args = expand args (Format.plain 2).pieces ↔
      2 ≤ 10 :=
  formatMsg_complete_iff (Format.plain 2) rfl (by decide)

/-- With eleven arguments the message ends in a brace of the format. -/
theorem formatMsg_eleven :
    let args : List Arg := List.replicate 11 (.integer 7)
    (∀ a ∈ args, BraceFree (StringFormat.toString a)) ∧ args.length = 11 ∧
      expand args (Format.plain 11).pieces = List.replicate 11 '7' ∧
      formatMsg (written (Format.plain 11).pieces) args = List.replicate 11 '7' ++ ['}'] ∧
      formatMsg (written (Format.plain 11).pieces) args ≠ expand args (Format.plain 11).pieces := by
  decide

end Logger

end Indie
