import FormulaStack.Sort
import FormulaStack.Term

/-!
Nodes of the term graph: an operator, the terms it is applied to, and its sort.
-/
namespace FormulaStack

inductive ArithOp where
  | add | sub | neg | mul | div | intDiv | mod | toReal | lt | le | gt | ge
  deriving DecidableEq

def ArithOp.symbol : ArithOp → String
  | .add => "+"
  | .sub => "-"
  | .neg => "-"
  | .mul => "*"
  | .div => "/"
  | .intDiv => "div"
  | .mod => "mod"
  | .toReal => "to_real"
  | .lt => "<"
  | .le => "<="
  | .gt => ">"
  | .ge => ">="

inductive BitOp where
  | add | sub | mul | and | or | xor | not | neg | ult | ule | slt | sle | concat
  deriving DecidableEq

namespace BitOp

def symbol : BitOp → String
  | .add => "bvadd"
  | .sub => "bvsub"
  | .mul => "bvmul"
  | .and => "bvand"
  | .or => "bvor"
  | .xor => "bvxor"
  | .not => "bvnot"
  | .neg => "bvneg"
  | .ult => "bvult"
  | .ule => "bvule"
  | .slt => "bvslt"
  | .sle => "bvsle"
  | .concat => "concat"

/-- The operators that compare. -/
def isPredicate : BitOp → Bool
  | .ult | .ule | .slt | .sle => true
  | _ => false

end BitOp

inductive Operator where
  | true | false | not | and | or | iff | implies | ite | eq | distinct
  /-- A declared function; constants are functions without arguments. -/
  | apply (decl : FuncDecl)
  /-- The variable of an enclosing binder, counted from the innermost. -/
  | bound (index : Nat)
  | quantifier (q : Quantifier) (vars : List (String × TermSort))
  | int (value : Int)
  | real (value : Rat)
  | bits (value width : Nat)
  | arith (op : ArithOp)
  | bitwise (op : BitOp)
  | extract (high low : Nat)
  | select | store | constArray
  deriving DecidableEq

structure Node where
  op : Operator
  args : List Term
  sort : TermSort
  deriving DecidableEq

namespace Node

def kind (n : Node) : TermKind :=
  match n.op with
  | .true => .true
  | .false => .false
  | .not => .not
  | .and => .and
  | .or => .or
  | .iff => .iff
  | .implies => .implies
  | .ite => .ite
  | .eq => .eq
  | .distinct => .distinct
  | .apply _ => if n.args.isEmpty then .variable else .application
  | .bound index => .boundVariable index
  | .quantifier q _ => .quantifier q
  | .int _ | .real _ | .bits .. => .value
  | .arith _ | .bitwise _ | .extract .. | .select | .store | .constArray => .interpreted

/-- The declaration that a node applies. -/
def decl? (n : Node) : Option FuncDecl :=
  match n.op with
  | .apply d => some d
  | _ => none

end Node

/-- A declared name with the sorts of its arguments and its result. -/
structure Signature where
  name : String
  domain : List TermSort
  range : TermSort
  deriving DecidableEq, Inhabited

end FormulaStack
