import FormulaStack.Text.Digits

/-!
Names of terms and function declarations inside one term store.
-/
namespace FormulaStack

/-- A term, by its place among the terms of its store. -/
structure Term where
  index : Nat
  deriving DecidableEq, Inhabited, Hashable

/-- A declared function or constant, by its place among the declarations of its store. -/
structure FuncDecl where
  index : Nat
  deriving DecidableEq, Inhabited, Hashable

def Term.text (t : Term) : String := s!"DummyTerm({t.index})"

def FuncDecl.text (d : FuncDecl) : String := s!"DummyDecl({d.index})"

inductive Quantifier where
  | all
  | some
  deriving DecidableEq, Inhabited

namespace Quantifier

def text : Quantifier → String
  | .all => "Forall"
  | .some => "Exists"

def keyword : Quantifier → String
  | .all => "forall"
  | .some => "exists"

end Quantifier

/-- What a term is at its root, as far as a client has to know. -/
inductive TermKind where
  | true | false | not | and | or | xor | iff | implies | ite | eq | distinct
  /-- A literal that is not a truth value. -/
  | value
  /-- A free constant. -/
  | variable
  | boundVariable (index : Nat)
  | quantifier (q : Quantifier)
  /-- An uninterpreted function applied to at least one argument. -/
  | application
  /-- Any other operator with a fixed meaning. -/
  | interpreted
  | unknown
  deriving DecidableEq, Inhabited

namespace TermKind

def text : TermKind → String
  | .true => "True"
  | .false => "False"
  | .not => "Not"
  | .and => "And"
  | .or => "Or"
  | .xor => "Xor"
  | .iff => "Iff"
  | .implies => "Implies"
  | .ite => "Ite"
  | .eq => "Eq"
  | .distinct => "Distinct"
  | .value => "Value"
  | .variable => "Variable"
  | .boundVariable index => s!"BoundVariable({index})"
  | .quantifier q => s!"Quantifier({q.text})"
  | .application => "Uf"
  | .interpreted => "Interpreted"
  | .unknown => "Unknown"

/-- The kinds other than bound variables. -/
def fixed : List TermKind :=
  [.true, .false, .not, .and, .or, .xor, .iff, .implies, .ite, .eq, .distinct, .value, .variable,
   .quantifier .all, .quantifier .some, .application, .interpreted, .unknown]

/-- Reads a kind; the index of a bound variable fits 32 bits. -/
def ofText? (text : String) : Option TermKind :=
  let index := (Text.natural? (text.toList.filter (·.isDigit))).filter (· < Nat.pow 2 32)
  (fixed ++ (index.map boundVariable).toList).find? (·.text == text)

/-- The kinds that combine truth values. -/
def isConnective : TermKind → Bool
  | .not | .and | .or | .xor | .iff | .implies | .ite => Bool.true
  | _ => Bool.false

end TermKind
end FormulaStack
