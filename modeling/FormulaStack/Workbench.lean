import FormulaStack.Names
import FormulaStack.World

/-!
A workbench: a world, and what was made in it under the names it was given. Formulas, declarations,
stacks, models, listeners and watches have tables of their own. What a name stood for before is
dropped when the name is given again.
-/
namespace FormulaStack

structure Workbench (σ : Type) where
  world : World σ
  /-- Formulas with the contexts they were made for. -/
  values : Names (Nat × Formula)
  decls : Names FunctionDeclaration
  stackIds : Names Nat
  models : Names Model
  /-- Listeners by their numbers, which are their own only within one notifier. -/
  listeners : Names Nat
  watches : Names Nat
  watchdogs : Names Unit
  lastFault : Option Fault

/-- Why a request was not met. -/
inductive Refusal where
  | fault (f : Fault)
  | unnamed (name : String)
  | unreadable (message : String)

/-- Requests to a workbench. -/
abbrev Bench (σ : Type) := ExceptT Refusal (StateM (Workbench σ))

namespace Workbench

variable {σ α β : Type}

def new (world : World σ) : Workbench σ :=
  ⟨world, .empty, .empty, .empty, .empty, .empty, .empty, .empty, none⟩

/-- A request that may fail; the workbench remembers the last fault. -/
def perform (b : Workbench σ) (request : Bench σ α) : Except Refusal α × Workbench σ :=
  match request.run b with
  | (.error (.fault f), b) => (.error (.fault f), { b with lastFault := some f })
  | done => done

end Workbench

namespace Bench

variable {σ α β : Type}

def ofExcept : Except Fault α → Bench σ α
  | .ok a => return a
  | .error f => throw (.fault f)

def world (e : Effect (World σ) α) : Bench σ α := do
  let (r, world) := e.exec (← get).world
  modify ({ · with world })
  ofExcept r

def env (ctx : Nat) (e : Effect Environment α) : Bench σ α := world (World.inEnvironment ctx e)

def atStack (id : Nat) (e : Effect (Site σ) α) : Bench σ α := world (World.atStack id e)

/-- Notes a fault that is part of an answer. -/
def noteFault (r : Except Fault α) : Bench σ Unit := do
  if let .error f := r then modify ({ · with lastFault := some f })

/-- What a table has under a name. -/
def find (table : Workbench σ → Names α) (name : String) : Bench σ α := do
  match (table (← get)).find? name with
  | some a => return a
  | none => throw (.unnamed name)

def formula (name : String) : Bench σ Formula := return (← find (·.values) name).2

def bool (name : String) : Bench σ BoolFormula := do ofExcept (← formula name).toBool

/-- The term of a formula, taken out by the context that made it. -/
def handle (name : String) : Bench σ Term := do
  let (ctx, f) ← find (·.values) name
  env ctx (.ask (·.unwrap f))

/-- The symbol that declares a formula to a session, as the context that made it sees it. -/
def symbol (name : String) : Bench σ Symbol := do
  let (ctx, f) ← find (·.values) name
  env ctx (.ask fun env => do env.symbolOf (← env.unwrap f))

def discard (fs : List Formula) : Bench σ Unit := world (.update (World.discardAll fs))

/-- Gives a formula a name. -/
def keep (name : String) (ctx : Nat) (f : Formula) : Bench σ Unit := do
  let old := (← get).values.find? name
  modify fun b => { b with values := b.values.put name (ctx, f) }
  discard (old.map (·.2)).toList

/-- Drops a named formula; tells whether there was one. -/
def forget (name : String) : Bench σ Bool := do
  let old := (← get).values.find? name
  modify fun b => { b with values := b.values.erase name }
  discard (old.map (·.2)).toList
  return old.isSome

/-- Gives a copy of a named formula another name. -/
def copy (name other : String) : Bench σ Unit := do
  let (ctx, f) ← find (·.values) name
  world (.update (World.retain f))
  keep other ctx f

def keepModel (name : String) (m : Model) : Bench σ Unit := do
  let old := (← get).models.find? name
  modify fun b => { b with models := b.models.put name m }
  discard (old.map (·.formulas)).toList.flatten

variable [Session σ]

/-- Drops a named stack; tells whether there was one. -/
def dropStack (name : String) : Bench σ Bool := do
  match (← get).stackIds.find? name with
  | none => return false
  | some id =>
    modify fun b => { b with stackIds := b.stackIds.erase name }
    world (.update (World.dropStack id))
    return true

/-- Opens a stack under a name; `checked` refuses after a request to stop. -/
def openStack (name : String) (ctx : Nat) (session : σ) (interpolating checked : Bool) :
    Bench σ Nat := do
  let start := if checked then World.newStack else World.openStack
  let id ← world (start ctx session interpolating)
  let _ ← dropStack name
  modify fun b => { b with stackIds := b.stackIds.put name id }
  return id

def dropWatch (name : String) : Bench σ Unit := do
  if let some id := (← get).watches.find? name then
    modify fun b => { b with watches := b.watches.erase name }
    world (.update (World.dropWatch id))

/-- Sets a watch under a name. -/
def watch (name : String) (ctx : Nat) (closes : Option Nat) (fails : Bool) : Bench σ Unit := do
  let id ← world (.of fun w =>
    let (id, w) := w.addWatch ctx closes fails
    (.ok id, w))
  dropWatch name
  modify fun b => { b with watches := b.watches.put name id }

/-- Registers a listener under a name. -/
def listen (name : String) (ctx : Nat) : Bench σ Unit := do
  let id ← world (.of fun w =>
    let (id, w) := w.listen ctx (.note name)
    (.ok id, w))
  modify fun b => { b with listeners := b.listeners.put name id }

/-- Removes from a context the listener that has the number of a named one; tells whether there
was one. -/
def unlisten (name : String) (ctx : Nat) : Bench σ Bool := do
  let id ← find (·.listeners) name
  world (.of fun w =>
    let (was, w) := w.unlisten ctx id
    (.ok was, w))

end Bench
end FormulaStack
