import Mathlib.Data.List.DropRight
import PulseForge.Foundation.Decimal

/-!
# CPU lists (`cpu_list.hpp`)

`parse_cpu_list` on the bytes of its text. C++ leaves an overflow of `int` undefined: what such an
execution does is `overflow`, and nothing is said about it.
-/

set_option autoImplicit false

namespace PulseForge.CpuList

open Foundation

/-- What a parse comes to: `std::optional`, or undefined behaviour. -/
inductive Parsed (β : Type) where
  | value (b : β)
  | nullopt
  | overflow
deriving Repr, DecidableEq

/-- The largest `int`. -/
def kIntMax : ℕ := 2147483647

/-- `std::isspace` of the C locale. -/
def isSpace (c : UInt8) : Bool := (9 ≤ c && c ≤ 13) || c = 32

/-- The loop of `parse_non_negative_int` (cpu_list.hpp:30-35). -/
def parseIntLoop : List UInt8 → ℕ → Parsed ℕ
  | [], value => .value value
  | c :: s, value =>
    if ¬ isDigit c then .nullopt
    else
      let next := value * 10 + (c.toNat - 48)
      if kIntMax < next then .overflow else parseIntLoop s next

/-- `parse_non_negative_int` (cpu_list.hpp:25-37). -/
def parseNonNegativeInt (s : List UInt8) : Parsed ℕ :=
  if s = [] then .nullopt else parseIntLoop s 0

/-- The loop that appends a range (cpu_list.hpp:67-69); counting past the largest `int` is an
overflow. -/
def pushRange (hi c : ℕ) (cpus : List ℕ) : Parsed (List ℕ) :=
  if c ≤ hi then
    if c = kIntMax then .overflow else pushRange hi (c + 1) (cpus ++ [c])
  else .value cpus
termination_by hi + 1 - c

/-- The numbers before and behind a dash (cpu_list.hpp:62-69). Both are parsed before either is
looked at. -/
def parseRange (lo hi : Parsed ℕ) (cpus : List ℕ) : Parsed (List ℕ) :=
  match lo, hi with
  | .overflow, _ => .overflow
  | _, .overflow => .overflow
  | .value lo, .value hi => if hi < lo then .nullopt else pushRange hi lo cpus
  | _, _ => .nullopt

/-- One item (cpu_list.hpp:54-70). -/
def parseItem (item : List UInt8) (cpus : List ℕ) : Parsed (List ℕ) :=
  if 45 ∈ item then
    parseRange (parseNonNegativeInt (item.takeWhile fun c => decide (c ≠ 45)))
      (parseNonNegativeInt (item.dropWhile fun c => decide (c ≠ 45)).tail) cpus
  else
    match parseNonNegativeInt item with
    | .value cpu => .value (cpus ++ [cpu])
    | .nullopt => .nullopt
    | .overflow => .overflow

/-- The loop over the items (cpu_list.hpp:49-71): the text up to the first comma, and the text
behind it. -/
def parseItems (text : List UInt8) (cpus : List ℕ) : Parsed (List ℕ) :=
  if text = [] then .value cpus
  else
    match parseItem (text.takeWhile fun c => decide (c ≠ 44)) cpus with
    | .value cpus => parseItems (text.dropWhile fun c => decide (c ≠ 44)).tail cpus
    | .nullopt => .nullopt
    | .overflow => .overflow
termination_by text.length
decreasing_by
  have hpos : 0 < text.length := List.length_pos_iff.mpr ‹_›
  have hle := (List.dropWhile_suffix (l := text) fun c => decide (c ≠ 44)).length_le
  rw [List.length_tail]
  omega

/-- The text without its trailing whitespace (cpu_list.hpp:40-42). -/
def trim (text : List UInt8) : List UInt8 := text.rdropWhile isSpace

/-- `parse_cpu_list` (cpu_list.hpp:39-73). -/
def parseCpuList (text : List UInt8) : Parsed (List ℕ) := parseItems (trim text) []

end PulseForge.CpuList
