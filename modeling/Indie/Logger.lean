/-
Indie/Logger.lean

The logger of `log/Logger.hpp` and the texts of `details/StringFormat.hpp`.

`FormatMsg` works through its arguments from the first: it looks for the
placeholder of the argument at `arg_pos` in the whole of the string made so
far, and puts the text of the argument in place of *three* characters.  Where
a placeholder is not found it stops, whatever arguments are left.

A string is a list of characters.  Two things come from outside: the time
`Log` prints, and the texts of arguments that are neither strings nor
integers, which `std::to_string` of a floating-point number or
`typeid(T).name()` give.
-/
import Indie.Library.Search

namespace Indie

/-- `std::string`. -/
abbrev Str := List Char

/-- `std::to_string` of an unsigned number. -/
def digits (n : ℕ) : Str := Nat.toDigits 10 n

namespace StringFormat

/-- An argument, by the specialisation of `ToString` its type selects. -/
inductive Arg
  | string (s : Str)
  | charPtr (s : Str)
  | integer (i : ℤ)
  | floating (text : Str)
  | other (name : Str)
  deriving DecidableEq

/-- `ToString(arg)`. -/
def toString : Arg → Str
  | .string s => s
  | .charPtr s => s
  | .integer i => if i < 0 then '-' :: digits i.natAbs else digits i.natAbs
  | .floating text => text
  | .other name => name

end StringFormat

open StringFormat (Arg)

/-- `LoggerLevel`. -/
inductive LoggerLevel
  | trace
  | debug
  | info
  | warn
  | error
  | critical
  deriving DecidableEq

namespace LoggerLevel

/-- The value of the enumerator. -/
def value : LoggerLevel → ℕ
  | .trace => 0
  | .debug => 1
  | .info => 2
  | .warn => 3
  | .error => 4
  | .critical => 5

/-- `LevelToStr(level)`. -/
def toStr : LoggerLevel → Str
  | .trace => "Trace".toList
  | .debug => "Debug".toList
  | .info => "Info".toList
  | .warn => "Warn".toList
  | .error => "Error".toList
  | .critical => "Critical".toList

end LoggerLevel

/-- The fields of a `Logger`. -/
structure Logger where
  name : Str
  level : LoggerLevel

namespace Logger

/-- `IsLoggable(level)`. -/
def isLoggable (l : Logger) (level : LoggerLevel) : Bool :=
  decide (l.level.value ≤ level.value)

/-- The placeholder of the argument at `argPos`. -/
def placeholder (argPos : ℕ) : Str := '{' :: (digits argPos ++ ['}'])

/-- `FormatMsg(to_format, arg_pos, args...)`. -/
def formatMsgFrom (toFormat : Str) (argPos : ℕ) : List Arg → Str
  | [] => toFormat
  | arg :: args =>
    match Search.find (placeholder argPos) toFormat with
    | none => toFormat
    | some formatPos =>
      formatMsgFrom (Search.splice toFormat formatPos 3 (StringFormat.toString arg))
        (argPos + 1) args

/-- `FormatMsg(fmt, args...)`. -/
def formatMsg (fmt : Str) (args : List Arg) : Str := formatMsgFrom fmt 0 args

/-- `Log(level, msg)` on a C string: the line it prints at `time`. -/
def logMsg (l : Logger) (time : Str) (level : LoggerLevel) (msg : Str) : Option Str :=
  if l.isLoggable level then
    some ("[".toList ++ time ++ "] [".toList ++ level.toStr ++ "] [".toList ++ l.name ++
      "] : ".toList ++ msg ++ ['\n'])
  else none

/-- `Log(level, fmt, args...)`: `msg.c_str()` ends at the first null
character. -/
def log (l : Logger) (time : Str) (level : LoggerLevel) (fmt : Str) (args : List Arg) :
    Option Str :=
  l.logMsg time level ((formatMsg fmt args).takeWhile (· ≠ '\x00'))

/-! ### Placeholders -/

theorem isDigit_of_mem_digits {c : Char} {n : ℕ} (hc : c ∈ digits n) : c.isDigit :=
  Nat.isDigit_of_mem_toDigits (by decide) (by decide) hc

theorem lbrace_notMem_digits (n : ℕ) : '{' ∉ digits n :=
  fun h => absurd (isDigit_of_mem_digits h) (by decide)

theorem rbrace_notMem_digits (n : ℕ) : '}' ∉ digits n :=
  fun h => absurd (isDigit_of_mem_digits h) (by decide)

theorem digits_injective : Function.Injective digits := by
  intro m n h
  have hval := congrArg (Nat.ofDigitChars 10 · 0) h
  simpa [digits, Nat.ofDigitChars_ten_toDigits] using hval

theorem digits_length_le_one {n : ℕ} : (digits n).length ≤ 1 ↔ n < 10 :=
  Nat.length_toDigits_le_iff (by decide) (by decide)

theorem three_le_length_placeholder (n : ℕ) : 3 ≤ (placeholder n).length := by
  have hpos : 0 < (digits n).length := Nat.length_toDigits_pos
  rw [placeholder, List.length_cons, List.length_append, List.length_singleton]
  omega

/-- What `FormatMsg` leaves of a placeholder it has found. -/
def leftover (n : ℕ) : Str := (placeholder n).drop 3

/-- Three characters are the whole of a placeholder up to index 9, and not from
10 on. -/
theorem leftover_eq_nil_iff {n : ℕ} : leftover n = [] ↔ n < 10 := by
  rw [leftover, List.drop_eq_nil_iff, ← digits_length_le_one, placeholder, List.length_cons,
    List.length_append, List.length_singleton]
  omega

theorem lbrace_notMem_leftover (n : ℕ) : '{' ∉ leftover n := by
  intro h
  have htail : '{' ∈ digits n ++ ['}'] := List.mem_of_mem_drop (i := 2) h
  rcases List.mem_append.mp htail with h | h
  · exact lbrace_notMem_digits n h
  · exact absurd (List.mem_singleton.mp h) (by decide)

/-- Of a longer placeholder the closing brace is left. -/
theorem rbrace_mem_leftover {n : ℕ} (hn : 10 ≤ n) : '}' ∈ leftover n := by
  have hlen : ¬ (digits n).length ≤ 1 := by
    rw [digits_length_le_one]
    exact Nat.not_lt.mpr hn
  show '}' ∈ (digits n ++ ['}']).drop 2
  rw [List.drop_append_of_le_length (by omega)]
  exact List.mem_append_right _ (List.mem_singleton_self _)

end Logger

end Indie
