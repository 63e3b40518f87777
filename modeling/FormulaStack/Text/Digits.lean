/-!
Decimal and binary digits.
-/
namespace FormulaStack.Text

/-- The value of a decimal digit. -/
def digit? (c : Char) : Option Nat :=
  if c.isDigit then some (c.toNat - '0'.toNat) else none

/-- The number a list of digit values denotes in a base, the most significant digit first. -/
def ofDigits (base : Nat) (ds : List Nat) : Nat :=
  ds.foldl (fun n d => n * base + d) 0

@[simp] theorem ofDigits_nil (base : Nat) : ofDigits base [] = 0 := rfl

theorem ofDigits_append_singleton (base : Nat) (ds : List Nat) (d : Nat) :
    ofDigits base (ds ++ [d]) = ofDigits base ds * base + d := by
  simp [ofDigits]

/-- The number written by a nonempty list of decimal digits. -/
def natural? (cs : List Char) : Option Nat :=
  if cs.isEmpty then none else (cs.mapM digit?).map (ofDigits 10)

/-- The binary digits of a number, the most significant first; zero has the digit `0`. -/
def binary (n : Nat) : List Char :=
  Nat.toDigits 2 n

/-- Fills a text up to a width with zeros on the left. -/
def zeroPadded (width : Nat) (cs : List Char) : List Char :=
  List.replicate (width - cs.length) '0' ++ cs

@[simp] theorem length_zeroPadded (width : Nat) (cs : List Char) :
    (zeroPadded width cs).length = max width cs.length := by
  simp [zeroPadded]; omega

end FormulaStack.Text
