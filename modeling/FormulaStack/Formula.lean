import FormulaStack.Fault

/-!
Formulas: terms with a declared type and the environment they belong to.
-/
namespace FormulaStack

structure Formula where
  term : Term
  type : FormulaType
  /-- The environment that made it. -/
  owner : Nat
  /-- The registration that its copies share. -/
  ticket : Option Nat
  deriving Inhabited

/-- Formulas are equal if they wrap one term of one environment. -/
instance : BEq Formula where
  beq a b := a.owner == b.owner && a.term == b.term

/-- Formulas whose declared type is boolean. -/
structure BoolFormula where
  formula : Formula
  isBoolean : formula.type = .boolean

namespace BoolFormula

def term (f : BoolFormula) : Term := f.formula.term

instance : BEq BoolFormula where
  beq a b := a.formula == b.formula

end BoolFormula

def Formula.toBool (f : Formula) : Except Fault BoolFormula :=
  if h : f.type = .boolean then .ok ⟨f, h⟩ else .error (.typeMismatch .boolean f.type)

/-- A declared function with the types it was declared with. -/
structure FunctionDeclaration where
  name : String
  arguments : List FormulaType
  result : FormulaType
  decl : FuncDecl
  owner : Nat
  deriving Inhabited

/-- Declarations are equal if their names, types and environments are. -/
instance : BEq FunctionDeclaration where
  beq a b :=
    a.owner == b.owner && a.name == b.name && a.arguments == b.arguments && a.result == b.result

/-- What a solver session has to know before it is used: a constant or a function. -/
inductive Symbol where
  | boolean (t : Term)
  | numeric (t : Term)
  | function (d : FuncDecl)
  deriving DecidableEq

/-- The text of a formula that shows its term and its type. -/
def Formula.debugText (f : Formula) : String :=
  s!"Formula \x7b term: {f.term.text}, type: {f.type.constructorText} \x7d"

end FormulaStack
