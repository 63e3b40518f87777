import FormulaStack.Store.Bottom

/-!
The SMT-LIB text of terms.
-/
namespace FormulaStack

/-- The text of an integer literal; a negative one is a negation. -/
def integerText (value : Int) : String :=
  if value < 0 then s!"(- {value.natAbs})" else s!"{value}"

def bindingText (var : String × TermSort) : String := s!"({var.1} {var.2.text})"

namespace Store

/-- The symbol or operator at the root of a node. -/
def headText (s : Store) (n : Node) : String :=
  match n.op with
  | .true => "true"
  | .false => "false"
  | .not => "not"
  | .and => "and"
  | .or => "or"
  | .iff | .eq => "="
  | .implies => "=>"
  | .ite => "ite"
  | .distinct => "distinct"
  | .apply d => s.declName d
  | .bound index => s!"(:var {index})"
  | .quantifier q vars => q.keyword ++ " (" ++ " ".intercalate (vars.map bindingText) ++ ")"
  | .int value => integerText value
  | .real value => s!"(/ {value.num} {value.den})"
  | .bits value width => s!"(_ bv{value} {width})"
  | .arith op => op.symbol
  | .bitwise op => op.symbol
  | .extract high low => s!"(_ extract {high} {low})"
  | .select => "select"
  | .store => "store"
  | .constArray => s!"(as const {n.sort.text})"

/-- A node with the texts of its arguments; without arguments the parentheses are left out. -/
def nodeText (s : Store) (_ : Term) (n : Node) (args : List String) : String :=
  if args.isEmpty then s.headText n else "(" ++ " ".intercalate (s.headText n :: args) ++ ")"

def dump (s : Store) (t : Term) : Except Fault String :=
  match s.bottomUp? s.nodeText t with
  | some text => .ok text
  | none => .error (.badArgument (.unknownTerm t))

def symbolName (s : Store) (t : Term) : Except Fault String :=
  (s.node t).map s.headText

end Store
end FormulaStack
