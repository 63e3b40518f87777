import FormulaStack.Store

/-!
Terms of the core theory: truth values and connectives, equality, choice and applications.
-/
namespace FormulaStack.Build

def truth (value : Bool) : Build Term :=
  intern ⟨if value then .true else .false, [], .bool⟩

/-- A connective over terms that must all be boolean. -/
def connective (op : Operator) (ts : List Term) : Build Term := do
  ts.forM (expect .bool)
  intern ⟨op, ts, .bool⟩

def not (t : Term) : Build Term := connective .not [t]

/-- The conjunction; a single term is its own. -/
def and : List Term → Build Term
  | [] => truth true
  | [t] => pure t
  | ts => connective .and ts

/-- The disjunction; a single term is its own. -/
def or : List Term → Build Term
  | [] => truth false
  | [t] => pure t
  | ts => connective .or ts

def iff (a b : Term) : Build Term := connective .iff [a, b]

def implies (a b : Term) : Build Term := connective .implies [a, b]

/-- A choice between two terms of one sort. -/
def ite (c a b : Term) : Build Term := do
  expect .bool c
  let sort ← commonSort [a, b]
  intern ⟨.ite, [c, a, b], sort⟩

def eq (a b : Term) : Build Term := do
  let _ ← commonSort [a, b]
  intern ⟨.eq, [a, b], .bool⟩

def distinct (ts : List Term) : Build Term := do
  if ts.length < 2 then fail (.badArgument .fewDistinct)
  let _ ← commonSort ts
  intern ⟨.distinct, ts, .bool⟩

def apply (d : FuncDecl) (ts : List Term) : Build Term := do
  let f ← ofExcept (·.decl d)
  if f.domain.length ≠ ts.length then
    fail (.badArgument (.arity f.name f.domain.length ts.length))
  (ts.zip f.domain).forM fun (t, sort) => expect sort t
  intern ⟨.apply d, ts, f.range⟩

/-- The constant with a name and a sort. -/
def constant (name : String) (sort : TermSort) : Build Term := do
  let d ← internDecl ⟨name, [], sort⟩
  apply d []

/-- The same node over other children of the same sorts. -/
def replaceChildren (t : Term) (ts : List Term) : Build Term := do
  let n ← node t
  if n.args.length ≠ ts.length then
    fail (.badArgument (.childCount n.args.length ts.length))
  (n.args.zip ts).forM fun (old, new) => do expect (← Build.sort old) new
  intern { n with args := ts }

end FormulaStack.Build
