import FormulaStack.AssertionStack
import FormulaStack.FormulaMap
import FormulaStack.Functions
import FormulaStack.Symbols

/-!
Solver contexts side by side: their environments, notifiers, assertion stacks and watches. A symbol
that is requested of an environment for the first time is told to the stacks and watches that
observe it, in the order in which they came; the first one that fails ends the round.
-/
namespace FormulaStack

/-- An environment with its options and its notifier, which it may share with others. -/
structure Context where
  env : Environment
  options : Options
  notifier : Nat

/-- An observer that notes which symbols were requested. -/
structure Watch where
  received : List Symbol
  /-- The stack that it closes whenever it is told of a symbol. -/
  closes : Option Nat
  /-- Whether it then fails. -/
  fails : Bool

structure World (σ : Type) where
  contexts : Array Context
  notifiers : Array (Notifier Reaction)
  /-- Stacks that were dropped leave their places empty. -/
  stackTable : Array (Option (AssertionStack σ))
  watches : Array (Option Watch)
  /-- What listeners noted. -/
  notes : List String
  queries : List String

def Symbol.sort : Symbol → String
  | .boolean _ => "boolean"
  | .numeric _ => "numeric"
  | .function _ => "function"

/-- What a watch says of the symbols it was told of. -/
def Watch.notes (w : Watch) : List String := w.received.map (·.sort)

namespace World

variable {σ τ α : Type}

def empty : World σ := ⟨#[], #[], #[], #[], [], []⟩

/-- Adds a context with the notifier of an earlier one, or with its own. -/
def addContext (w : World σ) (theories : Theories) (counting announced : Bool) (options : Options)
    (notifierOf : Option Nat) : World σ :=
  let env :=
    Environment.new w.contexts.size theories counting announced options.trackReferences
  match notifierOf.bind (w.contexts[·]?) with
  | some other => { w with contexts := w.contexts.push ⟨env, options, other.notifier⟩ }
  | none =>
    { w with
      contexts := w.contexts.push ⟨env, options, w.notifiers.size⟩
      notifiers := w.notifiers.push .new }

/-- A world with one context, whose solver is the one that the options name. -/
def ofOptions (options : Options) : Except Fault (World σ) :=
  match options.solver with
  | .builtIn => .ok (empty.addContext .everything false false options none)
  | .external => .error (.badOptions .solverNotBuiltIn)

def context (ctx : Nat) : Effect (World σ) Context := do
  match (← .look (·.contexts))[ctx]? with
  | some c => return c
  | none => throw .foreign

def notifierOf (w : World σ) (ctx : Nat) : Notifier Reaction :=
  ((w.contexts[ctx]?).bind fun c => w.notifiers[c.notifier]?).getD .new

def setNotifier (ctx : Nat) (n : Notifier Reaction) (w : World σ) : World σ :=
  match w.contexts[ctx]? with
  | some c => { w with notifiers := w.notifiers.setIfInBounds c.notifier n }
  | none => w

def setEnvironment (ctx : Nat) (env : Environment) (w : World σ) : World σ :=
  { w with contexts := w.contexts.modify ctx fun c => { c with env } }

def inEnvironment (ctx : Nat) (e : Effect Environment α) : Effect (World σ) α := do
  let _ ← context ctx
  .on (fun w => ((w.contexts[ctx]?).map (·.env)).getD default) (setEnvironment ctx) e

/-- Discards a formula in the environment it belongs to. -/
def discard (f : Formula) (w : World σ) : World σ :=
  { w with contexts := w.contexts.modify f.owner fun c => { c with env := c.env.discard f } }

/-- A copy more of a formula in the environment it belongs to. -/
def retain (f : Formula) (w : World σ) : World σ :=
  { w with contexts := w.contexts.modify f.owner fun c => { c with env := c.env.retain f } }

def discardAll (fs : List Formula) (w : World σ) : World σ := fs.foldl (fun w f => w.discard f) w

def stack? (w : World σ) (id : Nat) : Option (AssertionStack σ) := w.stackTable[id]?.join

/-- The context that a stack was opened in. -/
def home (w : World σ) (id : Nat) : Nat := ((w.stack? id).map (·.home)).getD 0

/-- Work at a stack. -/
def atStack (id : Nat) (e : Effect (Site σ) α) : Effect (World σ) α := do
  let w ← get
  match w.stack? id with
  | none => throw (.badState .stackClosed)
  | some stack =>
    let c ← context stack.home
    .on (fun w => ⟨c.env, w.notifierOf stack.home, w.queries, stack⟩)
      (fun site w =>
        let w := setNotifier stack.home site.notifier (setEnvironment stack.home site.env w)
        { w with
          queries := site.queries
          stackTable := w.stackTable.setIfInBounds id (some site.stack) })
      e

/-- Fails if the context was requested to stop. -/
def ensureRunning (ctx : Nat) : Effect (World σ) Unit := do
  if let some reason := (← .look fun w => (w.notifierOf ctx).reason) then throw (.interrupted reason)

/-- The outcome of a map of formulas. A map may put formulas of other contexts for atoms: an image
that is one is a copy more of it there. -/
def image (ctx : Nat) (r : FormulaMap τ) (s : τ) (f : BoolFormula) :
    Effect (World σ) (Except Fault BoolFormula × τ × Nat) := do
  let (out, s, made) ← inEnvironment ctx (r.apply s f)
  if let .ok g := out then
    if g.formula.owner ≠ (← context ctx).env.id then .update (retain g.formula)
  return (out, s, made)

variable [Session σ]

/-- What a listener does. -/
def react (reason : String) (w : World σ) : Reaction → World σ
  | .interrupt id =>
    { w with
      stackTable := w.stackTable.modify id fun s =>
        s.map fun s => { s with session := Session.interrupt s.session } }
  | .note name => { w with notes := w.notes ++ [name ++ ":" ++ reason] }

/-- Requests a context, and all that share its notifier, to stop. -/
def requestStop (ctx : Nat) (reason : String) (w : World σ) : World σ :=
  let (reactions, n) := (w.notifierOf ctx).request reason
  reactions.foldl (react reason) (setNotifier ctx n w)

/-- Registers a listener; it runs at once if the context was requested to stop before. -/
def listen (ctx : Nat) (reaction : Reaction) (w : World σ) : Nat × World σ :=
  let (id, reason, n) := (w.notifierOf ctx).register reaction
  let w := setNotifier ctx n w
  match reason with
  | some reason => (id, react reason w reaction)
  | none => (id, w)

/-- Removes a listener; tells whether it was there. -/
def unlisten (ctx id : Nat) (w : World σ) : Bool × World σ :=
  let (removed, n) := (w.notifierOf ctx).unregister id
  (removed, setNotifier ctx n w)

/-- Closes a stack that is still there. -/
def closeStack (id : Nat) : Effect (World σ) Unit := do
  if ((← get).stack? id).isSome then atStack id Site.close

/-- Tells an observer of a new symbol. -/
def tell (symbol : Symbol) : Observer → Effect (World σ) Unit
  | .stack id => do
    if ((← get).stack? id).isSome then atStack id (Site.symbolRequested symbol)
  | .watch id => do
    match (← get).watches[id]?.join with
    | none => return ()
    | some watch =>
      .update fun w =>
        { w with
          watches := w.watches.setIfInBounds id
            (some { watch with received := watch.received ++ [symbol] }) }
      if let some stack := watch.closes then closeStack stack
      if watch.fails then throw (.solver (.reported "watch failed"))

/-- Tells the observers of an environment of a new symbol. -/
def publish (ctx : Nat) (symbol : Symbol) : Effect (World σ) Unit := do
  (← context ctx).env.observers.forM (tell symbol)

/-- The constant of a type and a name, made if it is new. -/
def constantTerm (ctx : Nat) (type : FormulaType) (name : String) : Effect (World σ) Term := do
  let (t, new) ← inEnvironment ctx (Environment.requestVariable type name)
  if let some symbol := new then publish ctx symbol
  return t

def constant (ctx : Nat) (type : FormulaType) (name : String) : Effect (World σ) Formula := do
  let t ← constantTerm ctx type name
  inEnvironment ctx (Environment.wrap type t)

/-- The function of a name and types, made if it is new. -/
def function (ctx : Nat) (name : String) (result : FormulaType) (arguments : List FormulaType) :
    Effect (World σ) FunctionDeclaration := do
  let (d, new) ← inEnvironment ctx (Environment.requestFunction name arguments result)
  if let some symbol := new then publish ctx symbol
  return d

/-- Declares a function for the types of its arguments, and applies it. -/
def declareAndApply (ctx : Nat) (name : String) (result : FormulaType) (args : List Formula) :
    Effect (World σ) Formula := do
  let d ← function ctx name result (args.map (·.type))
  inEnvironment ctx (Functions.apply d args)

/-- Opens a stack on a session, which learns of all symbols so far. -/
def openStack (ctx : Nat) (session : σ) (interpolating : Bool) : Effect (World σ) Nat := do
  let c ← context ctx
  let id ← .look (·.stackTable.size)
  let stack : AssertionStack σ :=
    { id
      home := ctx
      session
      levels := default
      closed := false
      replaying := c.options.globalDeclarations
      interpolating
      logging := c.options.logQueries
      abbreviationAtoms := c.options.abbreviationAtoms
      listener := (← get).notifierOf ctx |>.nextListener
      last := none }
  let session ← Effect.of fun w =>
    match (c.env.declared.forM Session.declare : SessionM σ Unit).exec (c.env.terms, session) with
    | (.ok (), terms, session) => (.ok session, setEnvironment ctx { c.env with terms } w)
    | (.error e, terms, _) => (.error e, setEnvironment ctx { c.env with terms } w)
  .update fun w =>
    let w := { w with stackTable := w.stackTable.push (some { stack with session }) }
    let w := { w with
      contexts := w.contexts.modify ctx fun c =>
        { c with env := { c.env with observers := c.env.observers ++ [Observer.stack id] } } }
    (w.listen ctx (.interrupt id)).2
  return id

/-- Opens a stack, unless the context was requested to stop. -/
def newStack (ctx : Nat) (session : σ) (interpolating : Bool) : Effect (World σ) Nat := do
  ensureRunning ctx
  openStack ctx session interpolating

/-- Drops a stack, which is closed first. -/
def dropStack (id : Nat) (w : World σ) : World σ :=
  let w :=
    match w.stack? id with
    | some stack => if stack.closed then w else ((closeStack id).exec w).2
    | none => w
  { w with stackTable := w.stackTable.setIfInBounds id none }

/-- Sets a watch on an environment. -/
def addWatch (ctx : Nat) (closes : Option Nat) (fails : Bool) (w : World σ) : Nat × World σ :=
  let id := w.watches.size
  (id,
    { w with
      watches := w.watches.push (some ⟨[], closes, fails⟩)
      contexts := w.contexts.modify ctx fun c =>
        { c with env := { c.env with observers := c.env.observers ++ [Observer.watch id] } } })

/-- Ends the registration of a watch with an environment. -/
def removeWatch (ctx id : Nat) (w : World σ) : World σ :=
  { w with
    contexts := w.contexts.modify ctx fun c =>
      { c with env := { c.env with observers := c.env.observers.filter (· ≠ .watch id) } } }

/-- Sets the stack that a watch closes. -/
def aimWatch (id stack : Nat) (w : World σ) : World σ :=
  { w with watches := w.watches.modify id fun watch => watch.map ({ · with closes := some stack }) }

/-- Drops a watch; nobody tells it anything any more. -/
def dropWatch (id : Nat) (w : World σ) : World σ :=
  { w with
    watches := w.watches.setIfInBounds id none
    contexts := w.contexts.map fun c =>
      { c with env := { c.env with observers := c.env.observers.filter (· ≠ .watch id) } } }

/-- How many stacks and watches observe an environment. -/
def observers (w : World σ) (ctx : Nat) : Nat :=
  ((w.contexts[ctx]?).map (·.env.observers.length)).getD 0

/-- Asserts that a model is not to come again. -/
def block (id : Nat) (negations : List Term) : Effect (World σ) Unit :=
  atStack id do
    let t ← Site.inEnvironment (Environment.build (Build.or negations))
    Site.assertTerm t none

/-- Work in a world beside another state. -/
def beside (e : Effect (World σ) α) : Effect (World σ × τ) α := .on Prod.fst (fun w s => (w, s.2)) e

/-- Counts of models are machine words. -/
def maxModels : Nat := Nat.pow 2 64

/-- Goes through the models that are left, of which `count` came before. It fails where the count
runs over, as that is no number of models. -/
def modelsFrom (id : Nat) (important : List (BoolFormula × Term))
    (callback : Nat → List BoolFormula → Effect (World σ × τ) Unit) :
    (fuel : Nat) → (count : Nat) → Effect (World σ × τ) Nat
  | 0, _ => throw (.solver (.reported "attempt to add with overflow"))
  | fuel + 1, count => do
    match ← beside (atStack id (Site.nextModel? important)) with
    | none => return count
    | some model =>
      let literals := model.map (·.1)
      let round : Effect (World σ × τ) Bool := do
        callback count literals
        if model.isEmpty then return false
        beside (block id (model.map (·.2)))
        return true
      let more ← round.andThen fun (w, s) => (w.discardAll (literals.map (·.formula)), s)
      if more then modelsFrom id important callback fuel (count + 1) else return count + 1

/-- Shows a callback each assignment of truth values to formulas that the assertions allow, as
literals; gives their number. Whatever happens, the assertions are then as before. -/
def allSat (id : Nat) (important : List BoolFormula)
    (callback : Nat → List BoolFormula → Effect (World σ × τ) Unit) : Effect (World σ × τ) Nat := do
  beside (atStack id (Site.push 1))
  let outcome ← Effect.attempt do
    let terms ← beside (atStack id (Site.inEnvironment (important.mapM (·.unwrap))))
    modelsFrom id (important.zip terms) callback maxModels 0
  beside (atStack id (Site.pop 1))
  match outcome with
  | .ok count => return count
  | .error e => throw e

end World
end FormulaStack
