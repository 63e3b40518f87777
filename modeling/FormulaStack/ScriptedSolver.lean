import FormulaStack.Build.Logic
import FormulaStack.FoldingSolver

/-!
A folding solver some of whose answers are given in advance, and some of whose calls are made to
fail. It stands for solvers that answer more, or less, than folding does.
-/
namespace FormulaStack

/-- A value given in advance. -/
inductive GivenValue where
  | truth (value : Bool)
  | none
  | term (t : Term)

/-- An interpolant given in advance. -/
inductive GivenInterpolant where
  /-- The implication between the conjunctions of the two sides. -/
  | implication
  | term (t : Term)

structure Script where
  checks : List Verdict
  values : List GivenValue
  reason : Option (Option String)
  forgets : Option Bool
  model : Option (List (Term × Term))
  interpolant : Option GivenInterpolant
  /-- The calls that fail, counted from zero. -/
  failPush : Option Nat
  failPop : Option Nat
  failDeclare : Option Nat
  failShutdown : Bool
  /-- The session has only what every session must have. -/
  minimal : Bool
  deriving Inhabited

structure ScriptedSolver where
  inner : FoldingSolver
  script : Script
  pushes : Nat
  pops : Nat
  declarations : Nat
  deriving Inhabited

namespace ScriptedSolver

def new (script : Script) : ScriptedSolver where
  inner := .new
  script
  pushes := 0
  pops := 0
  declarations := 0

/-- Work of the folding solver. -/
def folding (e : SessionM FoldingSolver α) : SessionM ScriptedSolver α :=
  .on (fun (store, s) => (store, s.inner)) (fun (store, inner) (_, s) => (store, { s with inner })) e

/-- Fails if this is the call that is to fail. -/
def failing (chosen : Option Nat) (call : Nat) (text : String) : SessionM ScriptedSolver Unit := do
  if chosen = some call then throw (.solver (.reported text))

def declare (symbol : Symbol) : SessionM ScriptedSolver Unit := do
  let s ← SessionM.session
  SessionM.update fun s => { s with declarations := s.declarations + 1 }
  failing s.script.failDeclare s.declarations "declare failed"
  unless s.script.minimal do folding (FoldingSolver.declare symbol)

def push : SessionM ScriptedSolver Unit := do
  let s ← SessionM.session
  SessionM.update fun s => { s with pushes := s.pushes + 1 }
  failing s.script.failPush s.pushes "push failed"
  folding FoldingSolver.push

def pop : SessionM ScriptedSolver Unit := do
  let s ← SessionM.session
  SessionM.update fun s => { s with pops := s.pops + 1 }
  failing s.script.failPop s.pops "pop failed"
  folding FoldingSolver.pop

def check : SessionM ScriptedSolver Verdict := do
  match (← SessionM.session).script.checks with
  | v :: checks =>
    SessionM.update fun s => { s with script := { s.script with checks } }
    return v
  | [] => folding FoldingSolver.check

def eval (complete : Bool) (t : Term) : SessionM ScriptedSolver (Option Term) := do
  match (← SessionM.session).script.values with
  | v :: values =>
    SessionM.update fun s => { s with script := { s.script with values } }
    match v with
    | .truth b => return some (← SessionM.build (Build.truth b))
    | .none => return none
    | .term t => return some t
  | [] => folding (FoldingSolver.eval complete t)

def assignments : SessionM ScriptedSolver (List (Term × Term)) := do
  match (← SessionM.session).script.model with
  | some pairs => return pairs
  | none => folding FoldingSolver.assignments

def interpolate (a b : List Term) : SessionM ScriptedSolver Term := do
  match (← SessionM.session).script.interpolant with
  | some .implication => do
    let t ← SessionM.build (Build.and a)
    let u ← SessionM.build (Build.and b)
    SessionM.build (Build.implies t u)
  | some (.term t) => return t
  | none => throw (.missingOperator .interpolation)

def shutdown : SessionM ScriptedSolver Unit := do
  if (← SessionM.session).script.failShutdown then
    throw (.solver (.reported "shutdown failed"))
  folding Session.shutdown

instance : Session ScriptedSolver where
  declare
  assert t := folding (FoldingSolver.assert t)
  push
  pop
  check
  reasonUnknown s := s.script.reason.getD s.inner.reason
  eval
  assignments
  forgetsDeclarations s := s.script.forgets.getD (!s.script.minimal)
  interpolate
  abbreviate ts := do
    unless (← SessionM.session).script.minimal do folding (Session.abbreviate ts)
  shutdown
  interrupt s := { s with inner := Session.interrupt s.inner }

end ScriptedSolver
end FormulaStack
