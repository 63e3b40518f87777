import FormulaStack.Store

/-!
Terms of integer and rational arithmetic. Operands of one operator have one sort; only `toReal`
leads from the integers to the rationals.
-/
namespace FormulaStack.Build

/-- The literal of a number in a numeric sort. -/
def numeral (value : Rat) : TermSort → Build Term
  | .int =>
    if value.den = 1 then
      intern ⟨.int value.num, [], .int⟩
    else
      fail (.badArgument (.notInteger value))
  | .real => intern ⟨.real value, [], .real⟩
  | other => mismatch .real other

/-- The sort of the operands, which must be numeric. -/
def numericSort (ts : List Term) : Build TermSort := do
  let sort ← commonSort ts
  unless sort = .int ∨ sort = .real do mismatch .real sort
  return sort

def arith (op : ArithOp) (ts : List Term) : Build Term := do
  let sort ← numericSort ts
  intern ⟨.arith op, ts, sort⟩

def compare (op : ArithOp) (a b : Term) : Build Term := do
  let _ ← numericSort [a, b]
  intern ⟨.arith op, [a, b], .bool⟩

/-- Division of integers or of rationals, by the sort of the dividend. -/
def divide (a b : Term) : Build Term := do
  match ← Build.sort a with
  | .int => arith .intDiv [a, b]
  | _ => arith .div [a, b]

def modulo (a b : Term) : Build Term := do
  expect .int a
  arith .mod [a, b]

def toReal (t : Term) : Build Term := do
  expect .int t
  intern ⟨.arith .toReal, [t], .real⟩

end FormulaStack.Build
