import FormulaStack.Boolean

/-!
What a formula is at its root, with its operands wrapped. A boolean view shows connectives and
takes everything else for an atom; a term view shows variables, constants, applications and
quantifiers.

The operands of a view belong to it, the formula it was taken of does not.
-/
namespace FormulaStack

open Environment

inductive BoolView where
  | true
  | false
  | atom (f : BoolFormula)
  | not (f : BoolFormula)
  | and (fs : List BoolFormula)
  | or (fs : List BoolFormula)
  | iff (f g : BoolFormula)
  | implies (f g : BoolFormula)
  | ite (c f g : BoolFormula)
  | quantifier (whole : BoolFormula) (q : Quantifier) (body : BoolFormula)

namespace BoolView

def operands : BoolView → List BoolFormula
  | .true | .false | .atom _ => []
  | .not f => [f]
  | .and fs | .or fs => fs
  | .iff f g | .implies f g => [f, g]
  | .ite c f g => [c, f, g]
  | .quantifier _ _ body => [body]

end BoolView

namespace BoolFormula

/-- The operands of a term, wrapped as boolean formulas. -/
def operandsOf (t : Term) : Effect Environment (List BoolFormula) := do
  wrapAll wrapBool (·.formula) (← .ask (·.children t))

/-- Refuses operands that do not fit the kind of their term. -/
def malformed (k : TermKind) (t : Term) (fs : List BoolFormula) : Effect Environment α := do
  .update (discardAll (fs.map (·.formula)))
  throw (.badArgument (.malformed k (← .look (·.textOf t))))

/-- Refuses a term that no boolean visit can enter. -/
def unsupported (k : TermKind) (t : Term) : Effect Environment α := do
  match (← .look (·.terms.symbolName t)) with
  | .ok symbol => throw (.missingOperator (.root symbol))
  | .error _ => throw (.missingOperator (.root k.text))

def view (f : BoolFormula) : Effect Environment BoolView := do
  let t ← f.unwrap
  let k ← .ask (·.kind t)
  match k with
  | .true => return .true
  | .false => return .false
  | .not =>
    match ← operandsOf t with
    | [a] => return .not a
    | fs => malformed k t fs
  | .and => return .and (← operandsOf t)
  | .or => return .or (← operandsOf t)
  | .iff =>
    match ← operandsOf t with
    | [a, b] => return .iff a b
    | fs => malformed k t fs
  | .eq | .distinct =>
    match ← .ask (·.children t) with
    | [] => malformed k t []
    | first :: rest =>
      if (← .ask (·.typeOf first)) ≠ .boolean then return .atom f
      match k, rest with
      | .eq, [_] =>
        match ← operandsOf t with
        | [a, b] => return .iff a b
        | fs => malformed k t fs
      | _, _ => unsupported k t
  | .implies =>
    match ← operandsOf t with
    | [a, b] => return .implies a b
    | fs => malformed k t fs
  | .ite =>
    match ← operandsOf t with
    | [a, b, c] => return .ite a b c
    | fs => malformed k t fs
  | .quantifier q =>
    match ← operandsOf t with
    | [body] => return .quantifier f q body
    | fs => malformed k t fs
  | .xor | .unknown => unsupported k t
  | .value | .variable | .boundVariable _ | .application | .interpreted => return .atom f

/-- Whether a walk goes on to the children of a term. -/
def hasOperands (t : Term) : Effect Environment Bool := do
  match ← .ask (·.kind t) with
  | .not | .and | .or | .iff | .implies | .ite | .quantifier _ => return true
  | .eq =>
    match ← .ask (·.children t) with
    | [] => return false
    | first :: _ => return (← .ask (·.typeOf first)) = .boolean
  | _ => return false

end BoolFormula

inductive TermView where
  | free (name : String)
  | bound (index : Nat)
  | constant (value : ConstantValue)
  | function (name : String) (kind : TermKind) (args : List Formula)
  | quantifier (whole : BoolFormula) (q : Quantifier) (body : BoolFormula)

namespace TermView

def operands : TermView → List Formula
  | .free _ | .bound _ | .constant _ => []
  | .function _ _ args => args
  | .quantifier _ _ body => [body.formula]

end TermView

namespace Formula

def view (f : Formula) : Effect Environment TermView := do
  let t ← .ask (·.unwrap f)
  match ← .ask (·.kind t) with
  | .variable => return .free (← .ask (·.terms.symbolName t))
  | .boundVariable index => return .bound index
  | .true | .false | .value =>
    match ← .ask (·.terms.constantValue t) with
    | some value => return .constant value
    | none => throw (.badArgument (.noValue (← .look (·.textOf t))))
  | .quantifier q =>
    match f.toBool with
    | .error e => throw e
    | .ok whole =>
      match ← .ask (·.children t) with
      | body :: _ => return .quantifier whole q (← wrapBool body)
      | [] => throw (.badArgument .noBody)
  | k =>
    let args ← wrapAll wrapAsIs id (← .ask (·.children t))
    return .function (← .ask (·.terms.symbolName t)) k args

/-- The same application over new arguments. -/
def rebuild (f : Formula) (args : List Formula) : Effect Environment Formula := do
  let t ← .ask (·.unwrap f)
  let ts ← .ask (·.unwrapAll args)
  wrap f.type (← build (Build.replaceChildren t ts))

end Formula

/-- The same quantifier over a new body. -/
def BoolFormula.rebuildQuantifier (f body : BoolFormula) : Effect Environment BoolFormula := do
  let t ← f.unwrap
  let b ← body.unwrap
  wrapBool (← build (Build.replaceChildren t [b]))

end FormulaStack
