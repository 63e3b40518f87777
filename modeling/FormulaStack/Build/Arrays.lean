import FormulaStack.Store

/-!
Terms over arrays.
-/
namespace FormulaStack.Build

def select (array index : Term) : Build Term := do
  match ← Build.sort array with
  | .array indexSort elementSort =>
    expect indexSort index
    intern ⟨.select, [array, index], elementSort⟩
  | other => fail (.missingOperator (.select other.type))

def store (array index value : Term) : Build Term := do
  match ← Build.sort array with
  | .array indexSort elementSort =>
    expect indexSort index
    expect elementSort value
    intern ⟨.store, [array, index, value], .array indexSort elementSort⟩
  | other => fail (.missingOperator (.store other.type))

/-- The array with one value everywhere. -/
def constArray (index : TermSort) (value : Term) : Build Term := do
  let element ← Build.sort value
  intern ⟨.constArray, [value], .array index element⟩

end FormulaStack.Build
