import FormulaStack.Text.Blank
import FormulaStack.Text.Digits

/-!
Durations in nanoseconds and their texts. A text is a sum of numbers with units, white space
anywhere; a duration is written in the largest unit that divides it.
-/
namespace FormulaStack

structure Duration where
  nanos : Nat
  deriving DecidableEq, Inhabited

namespace Duration

/-- The units, the largest first, with their lengths in nanoseconds. A year is the mean
tropical year in whole seconds. -/
def units : List (String × Nat) :=
  [("y", 31556926000000000), ("w", 604800000000000), ("d", 86400000000000),
   ("h", 3600000000000), ("m", 60000000000), ("s", 1000000000), ("ms", 1000000),
   ("us", 1000), ("ns", 1)]

/-- The seconds of a duration are a machine word. -/
def maxSeconds : Nat := Nat.pow 2 64 - 1

def fits (d : Duration) : Bool := d.nanos / 1000000000 ≤ maxSeconds

def millis (d : Duration) : Nat := d.nanos / 1000000

/-- The largest unit that divides the duration, with its multiple. -/
def text (d : Duration) : String :=
  match units.find? fun u => d.nanos % u.2 == 0 with
  | some (unit, length) => s!"{d.nanos / length}{unit}"
  | none => s!"{d.nanos}ns"

/-- The duration in seconds, with no more decimals than it needs. -/
def secondsText (d : Duration) : String :=
  let fraction := Text.zeroPadded 9 (toString (d.nanos % 1000000000)).toList
  let digits := (fraction.reverse.dropWhile (· == '0')).reverse
  let point := if digits.isEmpty then "" else "."
  s!"{d.nanos / 1000000000}{point}{String.ofList digits}s"

/-- Splits a text into numbers and the texts that follow them. -/
def groups : List Char → List (List Char × List Char)
  | [] => [([], [])]
  | c :: rest =>
    match groups rest with
    | [] => []
    | (number, unit) :: more =>
      if c.isDigit then
        (c :: number, unit) :: more
      else if number.isEmpty then
        ([], c :: unit) :: more
      else
        ([], [c]) :: (number, unit) :: more

/-- One number with its unit; the number is a machine word, and so are the seconds. -/
def ofGroup? (number unit : List Char) : Option Duration := do
  let n ← Text.natural? number
  let (_, length) ← units.find? (·.1 == String.ofList unit)
  let d : Duration := ⟨n * length⟩
  if n < Nat.pow 2 64 && d.fits then some d else none

def add? (a b : Duration) : Option Duration :=
  let d : Duration := ⟨a.nanos + b.nanos⟩
  if d.fits then some d else none

/-- Reads a duration. -/
def ofText? (text : String) : Option Duration :=
  (groups (text.toList.filter (!Text.isBlank ·))).foldlM
    (fun sum g => do sum.add? (← ofGroup? g.1 g.2)) ⟨0⟩

end Duration
end FormulaStack
