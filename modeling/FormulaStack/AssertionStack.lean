import FormulaStack.Abbreviation
import FormulaStack.Boolean
import FormulaStack.Model
import FormulaStack.Notifier
import FormulaStack.Options
import FormulaStack.Session
import FormulaStack.Tower

/-!
Assertion stacks: levels of assertions over a solver session. A level stands for each frame of the
session; it records what was asserted and declared while it was on top. Symbols outlive the level
they were declared in: where the session forgets them, they are declared again one level below.
-/
namespace FormulaStack

structure Level where
  symbols : List Symbol
  /-- The asserted terms with the partitions they belong to. -/
  assertions : List (Option Nat × Term)
  deriving Inhabited

structure AssertionStack (σ : Type) where
  id : Nat
  /-- The context it was opened in. -/
  home : Nat
  session : σ
  levels : Tower Level
  closed : Bool
  /-- Forgotten declarations are made again. -/
  replaying : Bool
  interpolating : Bool
  logging : Bool
  abbreviationAtoms : Nat
  /-- The number of the listener that interrupts the session. -/
  listener : Nat
  /-- The answer of the last check, as long as nothing changed since. -/
  last : Option Verdict

/-- What a request to stop sets off. -/
inductive Reaction where
  /-- The session of a stack is interrupted. -/
  | interrupt (stack : Nat)
  /-- The reason is noted under a name. -/
  | note (name : String)

/-- A stack with its surroundings: the environment, the notifier and the log of queries. -/
structure Site (σ : Type) where
  env : Environment
  notifier : Notifier Reaction
  queries : List String
  stack : AssertionStack σ

namespace Site

variable {σ : Type} {α : Type}

def inEnvironment (e : Effect Environment α) : Effect (Site σ) α :=
  .on (·.env) (fun env s => { s with env }) e

def native (e : SessionM σ α) : Effect (Site σ) α :=
  .on (fun s => (s.env.terms, s.stack.session))
    (fun (terms, session) s =>
      { s with env := { s.env with terms }, stack := { s.stack with session } }) e

def updateStack (f : AssertionStack σ → AssertionStack σ) : Effect (Site σ) Unit :=
  .update fun s => { s with stack := f s.stack }

def ensureOpen : Effect (Site σ) Unit := do
  if (← .look (·.stack.closed)) then throw (.badState .stackClosed)

/-- Fails if a stop was requested. -/
def ensureRunning : Effect (Site σ) Unit := do
  if let some reason := (← .look (·.notifier.reason)) then throw (.interrupted reason)

/-- Gives back the references of assertions that are no longer recorded. -/
def releaseAll (assertions : List (Option Nat × Term)) : Effect (Site σ) Unit :=
  assertions.forM fun a => inEnvironment (Environment.release a.2)

/-- The number of levels above the base. -/
def size : Effect (Site σ) Nat := do
  ensureOpen
  .look (·.stack.levels.depth)

variable [Session σ]

/-- Declares a symbol and records it, unless only the base level is there. -/
def declare (symbol : Symbol) : Effect (Site σ) Unit := do
  native (Session.declare symbol)
  updateStack fun s =>
    { s with levels := s.levels.modifyUpper fun l => { l with symbols := l.symbols ++ [symbol] } }

def addSymbol (symbol : Symbol) : Effect (Site σ) Unit := do
  ensureOpen
  declare symbol

/-- Takes note of a symbol that was requested of the environment; a closed stack does not. -/
def symbolRequested (symbol : Symbol) : Effect (Site σ) Unit := do
  unless ← .look (·.stack.closed) do declare symbol

def pushLevels : Nat → Effect (Site σ) Unit
  | 0 => return ()
  | n + 1 => do
    native Session.push
    updateStack fun s => { s with levels := s.levels.push default }
    pushLevels n

def push (n : Nat) : Effect (Site σ) Unit := do
  ensureOpen
  pushLevels n
  updateStack fun s => { s with last := none }

/-- Pops one level; gives its assertions. Its symbols are declared again where the session has
forgotten them. -/
def popLevel : Effect (Site σ) (List (Option Nat × Term)) := do
  native Session.pop
  match (← .look (·.stack.levels)).pop? with
  | none => throw (.badState .noFrame)
  | some (level, below) =>
    updateStack fun s => { s with levels := below }
    let stack ← .look (·.stack)
    if stack.replaying && Session.forgetsDeclarations stack.session then
      level.symbols.forM fun symbol => native (Session.declare symbol)
      updateStack fun s =>
        { s with
          levels := s.levels.modifyUpper fun l =>
            { l with symbols := l.symbols ++ level.symbols } }
    return level.assertions

def popLevels : Nat → Effect (Site σ) Unit
  | 0 => return ()
  | n + 1 => do
    releaseAll (← popLevel)
    popLevels n

def pop (n : Nat) : Effect (Site σ) Unit := do
  ensureOpen
  let depth ← .look (·.stack.levels.depth)
  if depth < n then throw (.badState (.noLevel n depth))
  popLevels n
  updateStack fun s => { s with last := none }

/-- Asserts a term in the session and records it. -/
def assertTerm (t : Term) (partition : Option Nat) : Effect (Site σ) Unit := do
  native (Session.assert t)
  inEnvironment (Environment.hold t)
  updateStack fun s =>
    { s with
      levels := s.levels.modifyTop fun l =>
        { l with assertions := l.assertions ++ [(partition, t)] }
      last := none }

/-- Asserts a formula, as part of a partition if one is given. -/
def assert (f : BoolFormula) (partition : Option Nat) : Effect (Site σ) Unit := do
  ensureOpen
  let t ← inEnvironment f.unwrap
  let stack ← .look (·.stack)
  if stack.logging then
    let text ← .ask (·.env.terms.dump t)
    .update fun s => { s with queries := s.queries ++ [s!"(assert {text})"] }
  let shared ← .look (·.env.sharedSubterms stack.abbreviationAtoms t)
  unless shared.isEmpty do native (Session.abbreviate shared)
  assertTerm t partition

/-- Whether the assertions can all be true. An inconclusive answer is a fault. -/
def check : Effect (Site σ) Bool := do
  ensureOpen
  ensureRunning
  let verdict ← native Session.check
  updateStack fun s => { s with last := some verdict }
  match verdict with
  | .sat => return true
  | .unsat => return false
  | .unknown =>
    let reason ← .look fun s => (Session.reasonUnknown s.stack.session).getD "unknown"
    ensureRunning
    throw (.solver (.inconclusive reason))

def isUnsat : Effect (Site σ) Bool := do
  return !(← check)

/-- One side of a cut: the assertions without a partition, and those of the partitions of some
groups, group by group. -/
def side (assertions : List (Option Nat × Term)) (groups : List (List Nat)) : List Term :=
  let ofPartition (p : Option Nat) := (assertions.filter (·.1 == p)).map (·.2)
  ofPartition none ++ groups.flatten.flatMap fun id => ofPartition (some id)

/-- The interpolants at the cuts that are left, from the cut behind the groups of `before` on; if
one fails, those before it are discarded. -/
def interpolantsFrom (assertions : List (Option Nat × Term)) (before : List (List Nat)) :
    List (List Nat) → Effect (Site σ) (List BoolFormula)
  | [] => return []
  | group :: groups => do
    ensureRunning
    let t ← native (Session.interpolate (side assertions before) (side assertions (group :: groups)))
    let f ← inEnvironment (Environment.wrapBool t)
    let fs ← (interpolantsFrom assertions (before ++ [group]) groups).undoing fun s =>
      { s with env := s.env.discard f.formula }
    return f :: fs

/-- One interpolant for each cut between consecutive groups of partitions, after an unsatisfiable
check. -/
def interpolants (groups : List (List Nat)) : Effect (Site σ) (List BoolFormula) := do
  ensureOpen
  let stack ← .look (·.stack)
  unless stack.interpolating do throw (.badState .notForInterpolation)
  if stack.last ≠ some .unsat then throw (.badState .notUnsatisfiable)
  if groups.isEmpty || groups.any (·.isEmpty) then throw (.badArgument .emptyGroup)
  interpolantsFrom (stack.levels.toList.flatMap (·.assertions)) (groups.take 1) (groups.drop 1)

def model : Effect (Site σ) Model := do
  ensureOpen
  let pairs ← native Session.assignments
  inEnvironment (Model.ofPairs pairs)

/-- The value of a formula in the model of the last check, if there is one. -/
def evaluate (f : Formula) : Effect (Site σ) (Option Formula) := do
  ensureOpen
  let t ← inEnvironment (.ask (·.unwrap f))
  match ← native (Session.eval true t) with
  | some value => return some (← inEnvironment (Environment.wrap f.type value))
  | none => return none

/-- The literal that is true in the model, and its negation. -/
def literal (f : BoolFormula) (t : Term) : Effect (Site σ) (BoolFormula × Term) := do
  let value ←
    match ← native (Session.eval true t) with
    | some value => .ask (·.env.terms.constantValue value)
    | none => pure none
  let negated ← inEnvironment (Environment.build (Build.not t))
  match value with
  | some (.bool true) => return (← inEnvironment f.copy, negated)
  | some (.bool false) => return (← inEnvironment (Environment.wrapBool negated), t)
  | _ => throw (.solver (.noValue (← .ask (·.env.terms.dump t))))

/-- The literals of formulas, from left to right; if one fails, those before it are discarded. -/
def literals : List (BoolFormula × Term) → Effect (Site σ) (List (BoolFormula × Term))
  | [] => return []
  | (f, t) :: rest => do
    let l ← literal f t
    let ls ← (literals rest).undoing fun s => { s with env := s.env.discard l.1.formula }
    return l :: ls

/-- The next model of a list of formulas, as literals with their negations; none if there is no
further model. -/
def nextModel? (important : List (BoolFormula × Term)) :
    Effect (Site σ) (Option (List (BoolFormula × Term))) := do
  ensureRunning
  if ← check then return some (← literals important) else return none

/-- Detaches the stack and gives up its levels, or the whole session after a request to stop. The
stack is closed whatever happens. -/
def close : Effect (Site σ) Unit := do
  ensureOpen
  .update fun s =>
    { s with
      env := { s.env with observers := s.env.observers.filter (· ≠ .stack s.stack.id) }
      notifier := (s.notifier.unregister s.stack.listener).2
      stack := { s.stack with closed := true, last := none } }
  let s ← get
  let outcome ← Effect.attempt do
    if s.notifier.requested then native Session.shutdown
    else popLevels s.stack.levels.depth
  let remaining := (← get).stack.levels.toList
  updateStack fun s => { s with levels := default }
  releaseAll (remaining.flatMap (·.assertions))
  match outcome with
  | .ok () => return ()
  | .error e => throw e

end Site
end FormulaStack
