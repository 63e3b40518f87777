import FormulaStack.Environment

/-!
Boolean formulas. Connectives are simplified where that takes one look at the operands: a double
negation, a neutral operand, a repeated operand, and an operand that two operands share.
-/
namespace FormulaStack

open Environment

/-- The two connectives that take any number of operands. -/
inductive Junction where
  | and
  | or
  deriving DecidableEq

namespace Junction

def build : Junction → List Term → Build Term
  | .and => Build.and
  | .or => Build.or

def neutral : Junction → TermKind
  | .and => .true
  | .or => .false

def absorbing : Junction → TermKind
  | .and => .false
  | .or => .true

def ofKind? : TermKind → Option Junction
  | .and => some .and
  | .or => some .or
  | _ => none

end Junction

namespace BoolFormula

def copy (f : BoolFormula) : Effect Environment BoolFormula := do
  .update (retain f.formula)
  return f

def unwrap (f : BoolFormula) : Effect Environment Term := .ask (·.unwrap f.formula)

end BoolFormula

namespace Boolean

def constant (value : Bool) : Effect Environment BoolFormula := do
  wrapBool (← build (Build.truth value))

/-- The formula that a text denotes to a parser of the backend. -/
def parse (parser : String → Option Term) (text : String) : Effect Environment BoolFormula := do
  match parser text with
  | some t => wrapBool t
  | none => throw (.missingOperator .parse)

/-- Whether a formula is the literal `true`; a formula that is merely always true is not. -/
def isTrue (f : BoolFormula) : Effect Environment Bool := do
  return (← .ask (·.kind (← f.unwrap))) == .true

/-- Whether a formula is the literal `false`. -/
def isFalse (f : BoolFormula) : Effect Environment Bool := do
  return (← .ask (·.kind (← f.unwrap))) == .false

/-- The negation; that of a negation is its operand. -/
def not (f : BoolFormula) : Effect Environment BoolFormula := do
  let t ← f.unwrap
  match ← .ask (·.kind t), ← .ask (·.children t) with
  | .not, operand :: _ => wrapBool operand
  | _, _ => wrapBool (← build (Build.not t))

/-- Of two pairs of terms that share exactly one term: that term and the two others. -/
def sharedOperand? (a b c d : Term) : Option (Term × Term × Term) :=
  match [(a, c, b, d), (a, d, b, c), (b, c, a, d), (b, d, a, c)].filter fun p => p.1 == p.2.1 with
  | [(shared, _, rest, rest')] => some (shared, rest, rest')
  | _ => none

/-- Turns `(a . b) * (a . c)` into `a . (b * c)`, for operands that are binary nodes of one
connective with exactly one operand in common. -/
def factored? (outer : Junction) (t u : Term) : Effect Environment (Option Term) := do
  let left ← .ask (·.kind t)
  let right ← .ask (·.kind u)
  match Junction.ofKind? left, Junction.ofKind? right with
  | some inner, some inner' =>
    if inner ≠ inner' then return none
    match ← .ask (·.children t), ← .ask (·.children u) with
    | [a, b], [c, d] =>
      match sharedOperand? a b c d with
      | some (shared, rest, rest') =>
        let rest ← build (outer.build [rest, rest'])
        return some (← build (inner.build [shared, rest]))
      | none => return none
    | _, _ => return none
  | _, _ => return none

/-- The junction of two terms, factored if they share an operand. -/
def binary (j : Junction) (t u : Term) : Effect Environment BoolFormula := do
  match ← factored? j t u with
  | some v => wrapBool v
  | none => wrapBool (← build (j.build [t, u]))

/-- The junction of two formulas; a neutral or equal operand is left out. -/
def junction (j : Junction) (f g : BoolFormula) : Effect Environment BoolFormula := do
  let t ← f.unwrap
  let u ← g.unwrap
  if t = u then return ← f.copy
  if (← .ask (·.kind u)) = j.neutral then return ← f.copy
  if (← .ask (·.kind t)) = j.neutral then return ← g.copy
  binary j t u

def and : BoolFormula → BoolFormula → Effect Environment BoolFormula := junction .and

def or : BoolFormula → BoolFormula → Effect Environment BoolFormula := junction .or

/-- What is left of a list of operands: the first absorbing one, or the terms of the others, each
once and without the neutral ones. -/
inductive Gathered where
  | absorbed (operand : BoolFormula)
  | terms (ts : List Term)

/-- Gathers operands behind those already seen, which stand in reverse. -/
def gather (j : Junction) (seen : List Term) : List BoolFormula → Effect Environment Gathered
  | [] => return .terms seen.reverse
  | f :: fs => do
    let t ← f.unwrap
    let k ← .ask (·.kind t)
    if k = j.absorbing then return .absorbed f
    if k = j.neutral ∨ t ∈ seen then gather j seen fs else gather j (t :: seen) fs

/-- The junction of a list of formulas. -/
def nary (j : Junction) (fs : List BoolFormula) : Effect Environment BoolFormula := do
  match ← gather j [] fs with
  | .absorbed f => f.copy
  | .terms [] => constant (j == .and)
  | .terms [t] => wrapBool t
  | .terms [t, u] => binary j t u
  | .terms ts => wrapBool (← build (j.build ts))

def andAll : List BoolFormula → Effect Environment BoolFormula := nary .and

def orAll : List BoolFormula → Effect Environment BoolFormula := nary .or

def iff (f g : BoolFormula) : Effect Environment BoolFormula := do
  let t ← f.unwrap
  let u ← g.unwrap
  wrapBool (← build (Build.iff t u))

/-- The exclusive disjunction, as a negated equivalence. -/
def xor (f g : BoolFormula) : Effect Environment BoolFormula := do
  let t ← f.unwrap
  let u ← g.unwrap
  let same ← build (Build.iff t u)
  wrapBool (← build (Build.not same))

def implies (f g : BoolFormula) : Effect Environment BoolFormula := do
  let t ← f.unwrap
  let u ← g.unwrap
  wrapBool (← build (Build.implies t u))

/-- The term of a choice between two formulas of one declared type. -/
def choice (c : BoolFormula) (f g : Formula) : Effect Environment Term := do
  if f.type ≠ g.type then throw (.typeMismatch f.type g.type)
  let t ← c.unwrap
  let u ← .ask (·.unwrap f)
  let v ← .ask (·.unwrap g)
  build (Build.ite t u v)

def ite (c : BoolFormula) (f g : Formula) : Effect Environment Formula := do
  wrap f.type (← choice c f g)

def iteBool (c f g : BoolFormula) : Effect Environment BoolFormula := do
  wrapBool (← choice c f.formula g.formula)

end Boolean
end FormulaStack
