import FormulaStack.Boolean

/-!
Bit-vector formulas.
-/
namespace FormulaStack

open Environment

namespace Bitvector

def width (f : Formula) : Effect Environment Nat :=
  match f.type.bitvectorWidth? with
  | some width => pure width
  | none => throw (.typeMismatch (.bitvector 1) f.type)

/-- The literal of a number modulo the number of values of the width. -/
def constant (width : Nat) (value : Int) : Effect Environment Formula := do
  wrap (.bitvector width) (← build (Build.bits value width))

/-- The width of two formulas of one width, and their terms. -/
def operands (f g : Formula) : Effect Environment (Nat × Term × Term) := do
  let w ← width f
  if (← width g) ≠ w then throw (.typeMismatch f.type g.type)
  return (w, ← .ask (·.unwrap f), ← .ask (·.unwrap g))

def unary (op : BitOp) (f : Formula) : Effect Environment Formula := do
  let w ← width f
  let t ← .ask (·.unwrap f)
  wrap (.bitvector w) (← build (Build.bitwise op t []))

def binary (op : BitOp) (f g : Formula) : Effect Environment Formula := do
  let (w, t, u) ← operands f g
  wrap (.bitvector w) (← build (Build.bitwise op t [u]))

def less (signed : Bool) (f g : Formula) : Effect Environment BoolFormula := do
  let (_, t, u) ← operands f g
  wrapBool (← build (Build.bitwise (if signed then .slt else .ult) t [u]))

def lessOrEqual (signed : Bool) (f g : Formula) : Effect Environment BoolFormula := do
  let (_, t, u) ← operands f g
  wrapBool (← build (Build.bitwise (if signed then .sle else .ule) t [u]))

def greater (signed : Bool) (f g : Formula) : Effect Environment BoolFormula := less signed g f

def greaterOrEqual (signed : Bool) (f g : Formula) : Effect Environment BoolFormula :=
  lessOrEqual signed g f

def eq (f g : Formula) : Effect Environment BoolFormula := do
  let (_, t, u) ← operands f g
  wrapBool (← build (Build.eq t u))

/-- The bits of `f` above those of `g`. -/
def concat (f g : Formula) : Effect Environment Formula := do
  let w := (← width f) + (← width g)
  let t ← .ask (·.unwrap f)
  let u ← .ask (·.unwrap g)
  wrap (.bitvector w) (← build (Build.concat t u))

/-- The bits from `high` down to `low`. -/
def extract (f : Formula) (high low : Nat) : Effect Environment Formula := do
  let w ← width f
  if high < low ∨ w ≤ high then throw (.badArgument (.extractFrom high low f.type))
  let t ← .ask (·.unwrap f)
  wrap (.bitvector (high - low + 1)) (← build (Build.extract high low t))

end Bitvector
end FormulaStack
