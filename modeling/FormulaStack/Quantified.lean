import FormulaStack.Boolean
import FormulaStack.Build.Binding

/-!
Quantified formulas.
-/
namespace FormulaStack

open Environment

namespace Quantified

/-- The terms of formulas that must all be free constants. -/
def constants (fs : List Formula) : Effect Environment (List Term) :=
  fs.mapM fun f => do
    let t ← .ask (·.unwrap f)
    unless (← .ask (·.kind t)) = .variable do
      throw (.badArgument (.notQuantifiable (← .ask (·.terms.dump t))))
    return t

/-- Quantifies a body over free constants. -/
def quantify (q : Quantifier) (vars : List Formula) (body : BoolFormula) :
    Effect Environment BoolFormula := do
  let ts ← constants vars
  let t ← body.unwrap
  wrapBool (← build (Build.quantifier q ts t))

def isQuantifier (f : BoolFormula) : Effect Environment Bool := do
  match ← .ask (·.kind (← f.unwrap)) with
  | .quantifier _ => return true
  | _ => return false

def body (f : BoolFormula) : Effect Environment BoolFormula := do
  let t ← f.unwrap
  match ← .ask (·.kind t), ← .ask (·.children t) with
  | .quantifier _, [body] => wrapBool body
  | _, _ => throw (.badArgument (.notQuantifier (← .ask (·.terms.dump t))))

def isBound (f : Formula) : Effect Environment Bool := do
  match ← .ask (·.kind (← .ask (·.unwrap f))) with
  | .boundVariable _ => return true
  | _ => return false

/-- No backend here eliminates quantifiers. -/
def eliminate (f : BoolFormula) : Effect Environment BoolFormula := do
  let _ ← f.unwrap
  throw (.missingOperator .quantifierElimination)

end Quantified
end FormulaStack
