import FormulaStack.Numeral

/-!
Applications of uninterpreted functions. An integer argument is converted where a rational is
declared.
-/
namespace FormulaStack

open Environment

namespace Functions

/-- The terms of arguments for parameters of the given types. -/
def arguments : List Formula → List FormulaType → Effect Environment (List Term)
  | f :: fs, type :: types => do
    unless type.accepts f.type do throw (.typeMismatch type f.type)
    let t ← Numeral.widened type (← .ask (·.unwrap f))
    return t :: (← arguments fs types)
  | _, _ => return []

def apply (d : FunctionDeclaration) (fs : List Formula) : Effect Environment Formula := do
  if d.owner ≠ (← .look (·.id)) then throw .foreign
  if d.arguments.length ≠ fs.length then
    throw (.badArgument (.arity d.name d.arguments.length fs.length))
  let ts ← arguments fs d.arguments
  wrap d.result (← build (Build.apply d.decl ts))

end Functions
end FormulaStack
