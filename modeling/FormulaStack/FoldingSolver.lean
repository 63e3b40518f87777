import FormulaStack.Session
import FormulaStack.Tower
import FormulaStack.Value

/-!
A solver that searches for nothing: a check is conclusive if an assertion folds to false, or all
fold to true. Declarations are forgotten with the frame they were made in.
-/
namespace FormulaStack

structure Frame where
  assertions : List Term
  declared : List FuncDecl
  deriving Inhabited, DecidableEq

structure FoldingSolver where
  frames : Tower Frame
  abbreviations : List Term
  last : Option Verdict
  reason : Option String
  interrupted : Bool
  deriving Inhabited

/-- The functions and constants in a term, each once. -/
def Store.symbols (s : Store) (t : Term) : List FuncDecl :=
  (s.bottomUp? (fun _ n args => (n.decl?.toList ++ args.flatten).eraseDups) t).getD []

namespace FoldingSolver

def new : FoldingSolver := default

def isDeclared (s : FoldingSolver) (d : FuncDecl) : Bool :=
  s.frames.toList.any fun f => d ∈ f.declared

def assertions (s : FoldingSolver) : List Term := s.frames.toList.flatMap (·.assertions)

/-- Fails unless the last check was satisfiable. -/
def modelAvailable : SessionM FoldingSolver Unit := do
  if (← SessionM.session).last ≠ some .sat then throw (.badState .noModel)

def declare (symbol : Symbol) : SessionM FoldingSolver Unit := do
  let d ←
    match symbol with
    | .boolean t | .numeric t =>
      match (← SessionM.ofStore (·.node t)).decl? with
      | some d => pure d
      | none => throw (.badArgument .notDeclarable)
    | .function d => pure d
  SessionM.update fun s =>
    { s with frames := s.frames.modifyTop fun f => { f with declared := f.declared.insert d } }

/-- The oldest of the given declarations that is not known. -/
def undeclared? (s : FoldingSolver) (ds : List FuncDecl) : Option FuncDecl :=
  ((ds.filter (!s.isDeclared ·)).mergeSort fun a b => decide (a.index ≤ b.index)).head?

/-- Adds an assertion. Of several unknown symbols the oldest is named. -/
def assert (t : Term) : SessionM FoldingSolver Unit := do
  SessionM.build (Build.expect .bool t)
  let symbols ← Effect.look fun (store, _) => store.symbols t
  let s ← SessionM.session
  if let some d := s.undeclared? symbols then
    throw (.solver (.undeclared (← Effect.look fun (store, _) => store.declName d)))
  SessionM.update fun s =>
    { s with
      last := none
      frames := s.frames.modifyTop fun f => { f with assertions := f.assertions ++ [t] } }

def push : SessionM FoldingSolver Unit :=
  SessionM.update fun s => { s with frames := s.frames.push default, last := none }

def pop : SessionM FoldingSolver Unit := do
  match (← SessionM.session).frames.pop? with
  | some (_, frames) => SessionM.update fun s => { s with frames, last := none }
  | none => throw (.badState .noFrame)

/-- What folded assertions say together. -/
def verdict (values : List (Option Value)) : Verdict :=
  if some (.truth false) ∈ values then .unsat
  else if values.all (· == some (.truth true)) then .sat
  else .unknown

def check : SessionM FoldingSolver Verdict :=
  .of fun (store, s) =>
    if s.interrupted then
      (.ok .unknown, store,
        { s with interrupted := false, reason := some "canceled", last := some .unknown })
    else
      let v := verdict (s.assertions.map (store.fold false))
      let reason := if v = .unknown then some "incomplete" else none
      (.ok v, store, { s with reason, last := some v })

def eval (complete : Bool) (t : Term) : SessionM FoldingSolver (Option Term) := do
  modelAvailable
  let sort ← SessionM.ofStore (·.sort t)
  match ← Effect.look fun (store, _) => store.fold complete t with
  | some value => return some (← SessionM.build (value.literal sort))
  | none => return none

/-- The constant of a declaration with its default value; functions and arrays have none. -/
def assignment? (d : FuncDecl) : SessionM FoldingSolver (Option (Term × Term)) := do
  let f ← SessionM.ofStore (·.decl d)
  if !f.domain.isEmpty then return none
  let t ← SessionM.build (Build.apply d [])
  match Value.default? f.range with
  | some value => return some (t, ← SessionM.build (value.literal f.range))
  | none => return none

/-- The declared constants in the order of their declarations in the store. -/
def assignments : SessionM FoldingSolver (List (Term × Term)) := do
  modelAvailable
  let ds := (← SessionM.session).frames.toList.flatMap (·.declared)
  let ds := ds.mergeSort fun a b => decide (a.index ≤ b.index)
  return (← ds.mapM assignment?).filterMap id

instance : Session FoldingSolver where
  declare
  assert
  push
  pop
  check
  reasonUnknown := (·.reason)
  eval
  assignments
  forgetsDeclarations _ := true
  interpolate _ _ := throw (.missingOperator .interpolation)
  abbreviate ts := SessionM.update fun s => { s with abbreviations := s.abbreviations ++ ts }
  shutdown := SessionM.update fun s => { s with frames := default, last := none }
  interrupt s := { s with interrupted := true }

end FoldingSolver
end FormulaStack
