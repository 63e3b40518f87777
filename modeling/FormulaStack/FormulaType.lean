/-!
Types of formulas. A type says how a term may be used; the term underneath has a sort of its own.
The two agree, except that an integer term may stand where a rational is expected.
-/
namespace FormulaStack

inductive FormulaType where
  | boolean
  | integer
  | rational
  | bitvector (width : Nat)
  | floatingPoint (exponent mantissa : Nat)
  | array (index element : FormulaType)
  deriving DecidableEq, Inhabited

namespace FormulaType

def isBoolean (t : FormulaType) : Bool := t == .boolean

def isNumeral : FormulaType → Bool
  | .integer | .rational => true
  | _ => false

def bitvectorWidth? : FormulaType → Option Nat
  | .bitvector width => some width
  | _ => none

def arrayTypes? : FormulaType → Option (FormulaType × FormulaType)
  | .array index element => some (index, element)
  | _ => none

/-- Whether a term of type `actual` may be wrapped as `expected`: equal types, or an integer
widened to a rational. -/
def accepts (expected actual : FormulaType) : Bool :=
  expected == actual || (expected == .rational && actual == .integer)

/-- The text of a type in answers and error messages. -/
def text : FormulaType → String
  | .boolean => "Boolean"
  | .integer => "Integer"
  | .rational => "Rational"
  | .bitvector width => s!"Bitvector<{width}>"
  | .floatingPoint exponent mantissa => s!"FloatingPoint<{exponent}, {mantissa}>"
  | .array index element => s!"Array<{index.text}, {element.text}>"

/-- The text of a type as a constructor application. -/
def constructorText : FormulaType → String
  | .boolean => "Boolean"
  | .integer => "Integer"
  | .rational => "Rational"
  | .bitvector width => s!"Bitvector({width})"
  | .floatingPoint exponent mantissa =>
    s!"FloatingPoint \x7b exponent: {exponent}, mantissa: {mantissa} \x7d"
  | .array index element => s!"Array({index.constructorText}, {element.constructorText})"

@[simp] theorem accepts_self (t : FormulaType) : t.accepts t = true := by simp [accepts]

theorem accepts_iff {expected actual : FormulaType} :
    expected.accepts actual = true ↔
      expected = actual ∨ (expected = .rational ∧ actual = .integer) := by
  simp [accepts]

end FormulaType
end FormulaStack
