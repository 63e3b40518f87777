import FormulaStack.Store

/-!
Quantifiers. Binding replaces constants by indices that count the enclosing binders from the
innermost. A constant that is listed twice belongs to its last place.
-/
namespace FormulaStack.Build

/-- Terms already bound under a number of binders. -/
abbrev BoundTerms := List ((Term × Nat) × Term)

/-- How far a constant is from the end of the list of bound constants. -/
def binderIndex? (vars : List Term) (t : Term) : Option Nat :=
  vars.reverse.idxOf? t

/-- Replaces constants by bound variables in a term under `depth` further binders. The fuel
exceeds the index of the term. -/
def abstractWith (vars : List Term) :
    (fuel : Nat) → (depth : Nat) → Term → StateT BoundTerms Build Term
  | 0, _, t => pure t
  | fuel + 1, depth, t => do
    if let some done := (← get).lookup (t, depth) then return done
    let n ← node t
    let result ←
      match binderIndex? vars t with
      | some index => intern ⟨.bound (index + depth), [], n.sort⟩
      | none =>
        if n.args.isEmpty then
          pure t
        else do
          let inner :=
            match n.op with
            | .quantifier _ bound => depth + bound.length
            | _ => depth
          let args ← n.args.mapM (abstractWith vars fuel inner)
          intern { n with args := args }
    modify (((t, depth), result) :: ·)
    return result

/-- A term with the given constants replaced by bound variables. -/
def abstract (vars : List Term) (t : Term) : Build Term :=
  (abstractWith vars (t.index + 1) 0 t).run' []

/-- The name and sort of a constant that is to be bound. -/
def boundName (t : Term) : Build (String × TermSort) := do
  let n ← node t
  match n.op, n.args with
  | .apply d, [] => return ((← ofExcept (·.decl d)).name, n.sort)
  | _, _ => fail (.badArgument .notBindable)

/-- Quantifies a body over constants; over none it is the body. -/
def quantifier (q : Quantifier) (vars : List Term) (body : Term) : Build Term := do
  expect .bool body
  if vars.isEmpty then return body
  let names ← vars.mapM boundName
  let body ← abstract vars body
  intern ⟨.quantifier q names, [body], .bool⟩

end FormulaStack.Build
