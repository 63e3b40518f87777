import FormulaStack.Text.Digits

/-!
Numbers of JSON texts. A number that is no integer is held as a double: a word of its leading
digits times a power of ten, where the word, the power and their product each round to the nearest
double. A number is huge if that ends beyond all doubles, whatever the number itself is.
-/
namespace FormulaStack.Json

/-- The nearest number of at most 53 binary digits and trailing zeros; of two, the one whose last
digit is even. -/
def rounded (n : Nat) : Nat :=
  let unit := Nat.pow 2 (n.log2 + 1 - 53)
  let low := n / unit
  let rest := n % unit
  if unit < 2 * rest ∨ (2 * rest = unit ∧ low % 2 = 1) then (low + 1) * unit else low * unit

theorem rounded_of_lt {n : Nat} (h : n < Nat.pow 2 53) : rounded n = n := by
  have hlog : n.log2 + 1 - 53 = 0 := by
    rcases Nat.eq_zero_or_pos n with rfl | hn
    · rfl
    · have := (Nat.log2_lt (by omega)).2 h
      omega
  simp [rounded, hlog, Nat.mod_one]

/-- Appends digits to a number as long as it stays a machine word; gives the number and the digits
left out. -/
def fillWord : (word : Nat) → List Char → Nat × List Char
  | word, [] => (word, [])
  | word, c :: cs =>
    match Text.digit? c with
    | none => (word, c :: cs)
    | some d =>
      let longer := word * 10 + d
      if longer < Nat.pow 2 64 then fillWord longer cs else (word, c :: cs)

/-- The parts of a number behind its sign. -/
structure Numeral where
  whole : List Char
  fraction : List Char
  exponent : Option Int

namespace Numeral

/-- The number as a natural, if it is written as one that fits a machine word. -/
def word? (n : Numeral) : Option Nat :=
  match n.fraction, n.exponent, Text.natural? n.whole with
  | [], none, some k => if k < Nat.pow 2 64 then some k else none
  | _, _, _ => none

/-- The leading digits, and the power of ten that goes with them. Digits before the point that are
left out count in the power, those behind it do not count at all; so digits behind the point may
fill a word that was full before. -/
def scaled (n : Numeral) : Nat × Int :=
  let (word, skipped) := fillWord 0 n.whole
  let (word, ignored) := fillWord word n.fraction
  (word, skipped.length - (n.fraction.length - ignored.length : Nat) + n.exponent.getD 0)

/-- Whether the number is beyond all doubles. Powers of ten above the 308th are. -/
def isHuge (n : Numeral) : Bool :=
  match n.scaled with
  | (0, _) => false
  | (_, .negSucc _) => false
  | (word, .ofNat power) =>
    308 < power || Nat.pow 2 1024 ≤ rounded (rounded word * rounded (Nat.pow 10 power))

end Numeral
end FormulaStack.Json
