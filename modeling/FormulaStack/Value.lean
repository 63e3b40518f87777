import FormulaStack.Build.Arith
import FormulaStack.Build.Bits
import FormulaStack.Build.Logic
import FormulaStack.Store.Bottom

/-!
Values of terms. Folding finds the value of a term where that takes no search; completion gives
the constants that nothing is known of a default value.
-/
namespace FormulaStack

inductive Value where
  | truth (value : Bool)
  | number (value : Rat)
  | bits (value : Nat)
  deriving DecidableEq

namespace Value

/-- The value that completion gives to a constant. Arrays have none. -/
def default? : TermSort → Option Value
  | .bool => some (.truth false)
  | .int | .real => some (.number 0)
  | .bitvec _ => some (.bits 0)
  | .array .. => none

def truth? : Option Value → Option Bool
  | some (.truth b) => some b
  | _ => none

def number? : Option Value → Option Rat
  | some (.number q) => some q
  | _ => none

/-- The conjunction of what is known: false as soon as one operand is. -/
def all (vs : List (Option Value)) : Option Value :=
  if vs.any (truth? · == some false) then some (.truth false)
  else if vs.all (truth? · == some true) then some (.truth true)
  else none

/-- The disjunction of what is known: true as soon as one operand is. -/
def any (vs : List (Option Value)) : Option Value :=
  if vs.any (truth? · == some true) then some (.truth true)
  else if vs.all (truth? · == some false) then some (.truth false)
  else none

def implies (a b : Option Value) : Option Value :=
  match truth? a, truth? b with
  | some false, _ => some (.truth true)
  | _, some true => some (.truth true)
  | some true, some false => some (.truth false)
  | _, _ => none

def arith : ArithOp → List Rat → Option Value
  | .add, qs => some (.number (qs.foldr (· + ·) 0))
  | .mul, [a, b] => some (.number (a * b))
  | .neg, [a] => some (.number (-a))
  | .sub, [a, b] => some (.number (a - b))
  | .div, [a, b] => if b = 0 then none else some (.number (a / b))
  | .toReal, [a] => some (.number a)
  | .lt, [a, b] => some (.truth (decide (a < b)))
  | .le, [a, b] => some (.truth (decide (a ≤ b)))
  | .gt, [a, b] => some (.truth (decide (b < a)))
  | .ge, [a, b] => some (.truth (decide (b ≤ a)))
  | _, _ => none

/-- The value of a node from those of its arguments. Equal terms have equal values, known or
not; so have the two branches of a choice that are one term. -/
def ofNode (complete : Bool) (_ : Term) (n : Node) (vs : List (Option Value)) : Option Value :=
  match n.op, n.args, vs with
  | .true, _, _ => some (.truth true)
  | .false, _, _ => some (.truth false)
  | .int value, _, _ => some (.number value)
  | .real value, _, _ => some (.number value)
  | .bits value _, _, _ => some (.bits value)
  | .apply _, [], _ => if complete then default? n.sort else none
  | .not, _, [v] => (truth? v).map fun b => .truth !b
  | .and, _, vs => all vs
  | .or, _, vs => any vs
  | .implies, _, [v, w] => implies v w
  | .iff, [a, b], [v, w] | .eq, [a, b], [v, w] =>
    if a = b then some (.truth true) else do some (.truth (decide ((← v) = (← w))))
  | .distinct, _, vs => (vs.mapM id).map fun vs => .truth (decide vs.Nodup)
  | .ite, [_, a, b], [c, v, w] =>
    match truth? c with
    | some true => v
    | some false => w
    | none => if a = b then v else none
  | .arith op, _, vs => (vs.mapM number?).bind (arith op)
  | _, _, _ => none

/-- The literal of a value in a sort. -/
def literal : Value → TermSort → Build Term
  | .truth b, _ => Build.truth b
  | .number q, sort => Build.numeral q sort
  | .bits n, .bitvec width => Build.bits n width
  | .bits _, sort => Build.fail (.missingTheory (.valuesOf sort.type))

end Value

namespace Store

/-- The value of a term, if folding finds one. -/
def fold (s : Store) (complete : Bool) (t : Term) : Option Value :=
  (s.bottomUp? (Value.ofNode complete) t).join

end Store

/-- What a literal term denotes, as a client sees it. -/
inductive ConstantValue where
  | bool (value : Bool)
  | integer (value : Int)
  | rational (value : Rat)
  /-- An approximation of a value that is no ratio of integers. -/
  | decimal (text : String)
  | bitvector (value : Int) (width : Nat)
  deriving DecidableEq

namespace ConstantValue

/-- The digits of a number in base two, a minus sign in front of a negative one. -/
def binaryText (value : Int) : List Char :=
  if value < 0 then '-' :: Text.binary value.natAbs else Text.binary value.natAbs

def text : ConstantValue → String
  | .bool value => if value then "true" else "false"
  | .integer value => s!"{value}"
  | .rational value => rationalText value
  | .decimal text => text
  | .bitvector value width => "#b" ++ String.ofList (Text.zeroPadded width (binaryText value))

def variant : ConstantValue → String
  | .bool _ => "Bool"
  | .integer _ => "Integer"
  | .rational _ => "Rational"
  | .decimal _ => "Decimal"
  | .bitvector .. => "Bitvector"

def ofNode? (n : Node) : Option ConstantValue :=
  match n.op with
  | .true => some (.bool true)
  | .false => some (.bool false)
  | .int value => some (.integer value)
  | .real value => some (.rational value)
  | .bits value width => some (.bitvector value width)
  | _ => none

end ConstantValue

def Store.constantValue (s : Store) (t : Term) : Except Fault (Option ConstantValue) :=
  (s.node t).map ConstantValue.ofNode?

end FormulaStack
