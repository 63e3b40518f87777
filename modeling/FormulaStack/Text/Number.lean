import FormulaStack.Text.Blank
import FormulaStack.Text.Digits

/-!
Texts of numbers: integers, fractions and decimals.

An integer is digits after at most one sign; behind the first digit underscores may separate
digits. A decimal is read as the integer of all its digits, divided by a power of ten: one power
for each character behind the point. Any minus signs in front of it count as one.
-/
namespace FormulaStack.Text

/-- Digits that may be separated by underscores. -/
def separated? (cs : List Char) : Option Nat :=
  match cs with
  | [] => none
  | '_' :: _ => none
  | cs => ((cs.filter (· ≠ '_')).mapM digit?).map (ofDigits 10)

/-- An integer. -/
def integer? : List Char → Option Int
  | '-' :: cs => (separated? cs).map fun n => -(n : Int)
  | '+' :: cs => (separated? cs).map fun n => (n : Int)
  | cs => (separated? cs).map fun n => (n : Int)

/-- Splits a text at the first occurrence of a character, which is left out. -/
def splitAt? (c : Char) (cs : List Char) : Option (List Char × List Char) :=
  match cs.dropWhile (· ≠ c) with
  | [] => none
  | _ :: rest => some (cs.takeWhile (· ≠ c), rest)

/-- A fraction of integers. -/
def fraction? (numerator denominator : List Char) : Option Rat := do
  let n ← integer? numerator
  let d ← integer? denominator
  if d = 0 then none else some ((n : Rat) / d)

/-- A decimal, by what stands before and behind its point. -/
def decimal? (whole decimals : List Char) : Option Rat := do
  let n ← integer? (whole.dropWhile (· == '-') ++ decimals)
  let value := (n : Rat) / (Nat.pow 10 decimals.length : Nat)
  if whole.head? = some '-' then some (-value) else some value

/-- A number, with white space around it. -/
def number? (text : String) : Option Rat :=
  let cs := trimBlank text.toList
  match splitAt? '/' cs with
  | some (numerator, denominator) => fraction? numerator denominator
  | none =>
    match splitAt? '.' cs with
    | some (whole, decimals) => decimal? whole decimals
    | none => (integer? cs).map fun n => (n : Rat)

end FormulaStack.Text
