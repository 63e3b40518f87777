import FormulaStack.Environment

/-!
Models: a constant with its value in each line, sorted by name. A model stays what it is when the
stack it came from changes.
-/
namespace FormulaStack

open Environment

structure Assignment where
  name : String
  key : Formula
  value : Formula
  /-- The value as a literal; arrays have none. -/
  constant : Option ConstantValue
  deriving Inhabited

abbrev Model := List Assignment

namespace Assignment

def formulas (a : Assignment) : List Formula := [a.key, a.value]

def text (a : Assignment) : String :=
  match a.constant with
  | some c => s!"{a.name} = {c.text}\n"
  | none => s!"{a.name} = ?\n"

/-- A constant and its value, wrapped. -/
def ofPair (pair : Term × Term) : Effect Environment Assignment := do
  let name ← .ask (·.terms.symbolName pair.1)
  let constant ← .ask (·.terms.constantValue pair.2)
  let key ← wrapAsIs pair.1
  let value ← (wrapAsIs pair.2).undoing (discard key)
  return ⟨name, key, value, constant⟩

end Assignment

namespace Model

def formulas (m : Model) : List Formula := m.flatMap (·.formulas)

/-- Assignments for pairs from left to right; if one fails, those before it are discarded. -/
def assignments : List (Term × Term) → Effect Environment Model
  | [] => return []
  | pair :: pairs => do
    let a ← Assignment.ofPair pair
    let m ← (assignments pairs).undoing (discardAll a.formulas)
    return a :: m

/-- The model of a list of constants and values. Constants of one name keep their order. -/
def ofPairs (pairs : List (Term × Term)) : Effect Environment Model := do
  return (← assignments pairs).mergeSort fun a b => decide (a.name ≤ b.name)

def find? (m : Model) (name : String) : Option Assignment := List.find? (·.name == name) m

def valueOf? (m : Model) (f : Formula) : Option Formula :=
  (List.find? (·.key == f) m).map (·.value)

def text (m : Model) : String := String.join (m.map (·.text))

end Model
end FormulaStack
