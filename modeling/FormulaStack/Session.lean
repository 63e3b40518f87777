import FormulaStack.Effect
import FormulaStack.Formula
import FormulaStack.Store

/-!
Sessions of a solver. A session works on the terms of a store, keeps assertions in frames, and
answers whether they can all be true.
-/
namespace FormulaStack

inductive Verdict where
  | sat
  | unsat
  | unknown
  deriving DecidableEq, Inhabited

def Verdict.text : Verdict → String
  | .sat => "sat"
  | .unsat => "unsat"
  | .unknown => "unknown"

/-- Work of a session on the terms of its environment. -/
abbrev SessionM (σ : Type) := Effect (Store × σ)

/-- What an assertion stack asks of a session. -/
class Session (σ : Type) where
  declare : Symbol → SessionM σ Unit
  assert : Term → SessionM σ Unit
  push : SessionM σ Unit
  pop : SessionM σ Unit
  check : SessionM σ Verdict
  /-- Why the last check was inconclusive. -/
  reasonUnknown : σ → Option String
  /-- The value of a term in the model of the last satisfiable check; `complete` asks for values
  of the symbols that the model leaves open. -/
  eval : (complete : Bool) → Term → SessionM σ (Option Term)
  /-- Constants and their values in the model of the last satisfiable check. -/
  assignments : SessionM σ (List (Term × Term))
  /-- Whether a pop forgets what was declared above the popped frame. -/
  forgetsDeclarations : σ → Bool
  interpolate : List Term → List Term → SessionM σ Term
  /-- Takes note of terms that are used more than once. -/
  abbreviate : List Term → SessionM σ Unit
  /-- Gives up all frames. -/
  shutdown : SessionM σ Unit
  /-- Makes the next check inconclusive. -/
  interrupt : σ → σ

namespace SessionM

variable {σ : Type} {α : Type}

def build (b : Build α) : SessionM σ α :=
  .of fun (store, s) =>
    match b store with
    | .ok (a, store) => (.ok a, store, s)
    | .error f => (.error f, store, s)

def ofStore (f : Store → Except Fault α) : SessionM σ α := .ask fun s => f s.1

def session : SessionM σ σ := .look (·.2)

def update (f : σ → σ) : SessionM σ Unit := Effect.update fun (store, s) => (store, f s)

end SessionM
end FormulaStack
