import FormulaStack.Boolean
import FormulaStack.Build.Arrays

/-!
Array formulas. The declared types of index and element have to be those of the array.
-/
namespace FormulaStack

open Environment

namespace Arrays

def types (f : Formula) : Effect Environment (FormulaType × FormulaType) :=
  match f.type.arrayTypes? with
  | some types => pure types
  | none => throw (.typeMismatch (.array .integer .integer) f.type)

/-- The term of a formula that must have a type. -/
def ofType (type : FormulaType) (f : Formula) : Effect Environment Term := do
  if type ≠ f.type then throw (.typeMismatch type f.type)
  .ask (·.unwrap f)

/-- The array with one value everywhere. -/
def constant (index : FormulaType) (value : Formula) : Effect Environment Formula := do
  let sort ← .ask (·.sortOf index)
  let t ← .ask (·.unwrap value)
  wrap (.array index value.type) (← build (Build.constArray sort t))

def select (array index : Formula) : Effect Environment Formula := do
  let (indexType, elementType) ← types array
  let a ← .ask (·.unwrap array)
  let i ← ofType indexType index
  wrap elementType (← build (Build.select a i))

def store (array index value : Formula) : Effect Environment Formula := do
  let (indexType, elementType) ← types array
  let a ← .ask (·.unwrap array)
  let i ← ofType indexType index
  let v ← ofType elementType value
  wrap array.type (← build (Build.store a i v))

def eq (f g : Formula) : Effect Environment BoolFormula := do
  let _ ← types f
  let t ← .ask (·.unwrap f)
  let u ← ofType f.type g
  wrapBool (← build (Build.eq t u))

end Arrays
end FormulaStack
