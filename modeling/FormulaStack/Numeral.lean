import FormulaStack.Boolean
import FormulaStack.Text.Number

/-!
Integer and rational formulas. Rational operators take integers too, which they convert.
-/
namespace FormulaStack

open Environment

/-- The two kinds of numbers. -/
inductive NumberDomain where
  | integers
  | rationals
  deriving DecidableEq

namespace NumberDomain

def type : NumberDomain → FormulaType
  | .integers => .integer
  | .rationals => .rational

def theory : NumberDomain → Theory
  | .integers => .integers
  | .rationals => .rationals

end NumberDomain

namespace Numeral

/-- Converts an integer term where a rational is wanted. -/
def widened (type : FormulaType) (t : Term) : Effect Environment Term := do
  if type = .rational ∧ (← .ask (·.typeOf t)) = .integer then
    unless ← .look (·.theories.numerals) do throw (.missingTheory .arithmetic)
    build (Build.toReal t)
  else return t

/-- The term of an operand. -/
def operand (d : NumberDomain) (f : Formula) : Effect Environment Term := do
  unless d.type.accepts f.type do throw (.typeMismatch d.type f.type)
  widened d.type (← .ask (·.unwrap f))

def constant (d : NumberDomain) (value : Rat) : Effect Environment Formula := do
  if d = .integers ∧ value.den ≠ 1 then throw (.badArgument (.notInteger value))
  let sort ← .ask (·.sortOf d.type)
  wrap d.type (← build (Build.numeral value sort))

/-- The constant that a text denotes. -/
def read (d : NumberDomain) (text : String) : Effect Environment Formula := do
  match Text.number? text with
  | some value => constant d value
  | none => throw (.badArgument (.notNumber text))

def neg (d : NumberDomain) (f : Formula) : Effect Environment Formula := do
  let t ← operand d f
  wrap d.type (← build (Build.arith .neg [t]))

/-- The sum of a list; without operands it is zero, a single operand is its own. -/
def sum (d : NumberDomain) : List Formula → Effect Environment Formula
  | [] => constant d 0
  | [f] => do wrap d.type (← operand d f)
  | fs => do
    let ts ← fs.mapM (operand d)
    wrap d.type (← build (Build.arith .add ts))

def add (d : NumberDomain) (f g : Formula) : Effect Environment Formula := sum d [f, g]

/-- An operator over two operands. -/
def binary (d : NumberDomain) (op : Term → Term → Build Term) (f g : Formula) :
    Effect Environment Formula := do
  let t ← operand d f
  let u ← operand d g
  wrap d.type (← build (op t u))

def sub (d : NumberDomain) : Formula → Formula → Effect Environment Formula :=
  binary d fun t u => Build.arith .sub [t, u]

def mul (d : NumberDomain) : Formula → Formula → Effect Environment Formula :=
  binary d fun t u => Build.arith .mul [t, u]

/-- The quotient, of integers in the domain of integers. -/
def div (d : NumberDomain) : Formula → Formula → Effect Environment Formula :=
  binary d Build.divide

/-- The remainder, of integers only. -/
def mod (d : NumberDomain) (f g : Formula) : Effect Environment Formula := do
  if d ≠ .integers then throw (.missingOperator .rationalModulo)
  binary d Build.modulo f g

/-- A relation between two operands. -/
def relation (d : NumberDomain) (op : Term → Term → Build Term) (f g : Formula) :
    Effect Environment BoolFormula := do
  let t ← operand d f
  let u ← operand d g
  wrapBool (← build (op t u))

def eq (d : NumberDomain) : Formula → Formula → Effect Environment BoolFormula :=
  relation d Build.eq

def gt (d : NumberDomain) : Formula → Formula → Effect Environment BoolFormula :=
  relation d (Build.compare .gt)

def ge (d : NumberDomain) : Formula → Formula → Effect Environment BoolFormula :=
  relation d (Build.compare .ge)

def lt (d : NumberDomain) : Formula → Formula → Effect Environment BoolFormula :=
  relation d (Build.compare .lt)

def le (d : NumberDomain) : Formula → Formula → Effect Environment BoolFormula :=
  relation d (Build.compare .le)

/-- Whether the operands differ pairwise; fewer than two always do. -/
def distinct (d : NumberDomain) (fs : List Formula) : Effect Environment BoolFormula := do
  if fs.length < 2 then
    Boolean.constant true
  else
    let ts ← fs.mapM (operand d)
    wrapBool (← build (Build.distinct ts))

end Numeral
end FormulaStack
