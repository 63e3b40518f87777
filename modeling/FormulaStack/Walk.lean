import FormulaStack.View

/-!
Walks over the sub-formulas of a formula: each distinct one is visited once, parents before
children and children from left to right. A visitor may keep what is below a formula out of the
walk, or end it.
-/
namespace FormulaStack

open Environment

/-- How a walk goes on after a visit. -/
inductive Step where
  | proceed
  /-- Not to the children of this formula. -/
  | skip
  | abort
  deriving DecidableEq

def Step.text : Step → String
  | .proceed => "Continue"
  | .skip => "Skip"
  | .abort => "Abort"

/-- Work in an environment beside a state of a visitor. -/
abbrev Visit (τ : Type) := Effect (Environment × τ)

def Visit.inEnvironment (e : Effect Environment α) : Visit τ α :=
  .on Prod.fst (fun env s => (env, s.2)) e

namespace Walk

variable {α τ : Type}

/-- A kind of walk: how the formulas on it are wrapped, and the children of each. -/
structure Route (α : Type) where
  formula : α → Formula
  children : α → Effect Environment (List α)

/-- Walks through pending formulas, the next one first. The formulas already seen are kept until
the walk ends. -/
def walkFrom (route : Route α) (visit : α → Visit τ Step) :
    (fuel : Nat) → (seen pending : List α) → Visit τ Unit
  | 0, seen, pending => finish (seen ++ pending)
  | _ + 1, seen, [] => finish seen
  | fuel + 1, seen, f :: pending => do
    if seen.any (route.formula · == route.formula f) then
      finish [f]
      walkFrom route visit fuel seen pending
    else
      let visited ← Effect.attempt do
        match ← visit f with
        | .abort => return none
        | .skip => return some []
        | .proceed => return some (← Visit.inEnvironment (route.children f))
      match visited with
      | .error e =>
        finish (f :: seen ++ pending)
        throw e
      | .ok none => finish (f :: seen ++ pending)
      | .ok (some children) => walkFrom route visit fuel (f :: seen) (children ++ pending)
where
  finish (fs : List α) : Visit τ Unit :=
    Visit.inEnvironment (.update (discardAll (fs.map route.formula)))

/-- Walks from a formula. -/
def walk (route : Route α) (visit : α → Visit τ Step) (f : α) : Visit τ Unit := do
  let env ← .look (·.1)
  Visit.inEnvironment (.update (retain (route.formula f)))
  walkFrom route visit (env.terms.edges + 2) [] [f]

end Walk

namespace BoolFormula

def route : Walk.Route BoolFormula where
  formula := (·.formula)
  children f := do
    let t ← f.unwrap
    if ← hasOperands t then operandsOf t else return []

/-- Shows a visitor what a formula is at its root. -/
def visit (f : BoolFormula) (visitor : BoolView → Visit τ ρ) : Visit τ ρ := do
  let v ← Visit.inEnvironment f.view
  (visitor v).andThen fun (env, s) => (discardAll (v.operands.map (·.formula)) env, s)

/-- Visits the distinct boolean sub-formulas. -/
def visitAll (f : BoolFormula) (visitor : BoolView → Visit τ Step) : Visit τ Unit :=
  Walk.walk route (fun g => g.visit visitor) f

end BoolFormula

namespace Formula

def route : Walk.Route Formula where
  formula := id
  children f := do
    let t ← .ask (·.unwrap f)
    return (← wrapAll wrapAsIs id (← .ask (·.children t)).reverse).reverse

/-- Shows a visitor what a formula is at its root. -/
def visit (f : Formula) (visitor : TermView → Visit τ ρ) : Visit τ ρ := do
  let v ← Visit.inEnvironment f.view
  (visitor v).andThen fun (env, s) => (discardAll v.operands env, s)

/-- Visits the distinct sub-terms. -/
def visitAll (f : Formula) (visitor : Formula → TermView → Visit τ Step) : Visit τ Unit :=
  Walk.walk route (fun g => g.visit (visitor g)) f

/-- The free constants of a formula by name, and with `functions` the applications of
uninterpreted functions too. Of several with one name the last one visited is kept. -/
def symbols (functions : Bool) (f : Formula) : Effect Environment (List (String × Formula)) :=
  .of fun env =>
    let (r, env, found) := (f.visitAll collect).exec (env, [])
    let found := found.mergeSort fun a b => decide (a.1 ≤ b.1)
    match r with
    | .ok () => (.ok found, env)
    | .error e => (.error e, discardAll (found.map (·.2)) env)
where
  /-- Keeps a formula under a name in place of an earlier one. -/
  put (name : String) (f : Formula) : Visit (List (String × Formula)) Unit :=
    .update fun (env, found) =>
      let old := (found.filter (·.1 == name)).map (·.2)
      (discardAll old (env.retain f), (name, f) :: found.filter (·.1 != name))
  collect (g : Formula) : TermView → Visit (List (String × Formula)) Step
    | .free name => do
      put name g
      return .proceed
    | .function name kind _ => do
      if functions && kind == .application then put name g
      return .proceed
    | _ => return .proceed

end Formula
end FormulaStack
