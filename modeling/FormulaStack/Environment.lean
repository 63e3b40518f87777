import FormulaStack.Effect
import FormulaStack.Formula
import FormulaStack.Handles
import FormulaStack.Store.Text
import FormulaStack.Value

/-!
An environment: a term store, what its backend can do, the symbols requested of it, and the
references that wrappers hold. Terms enter and leave it as formulas.

An effect borrows the formulas it is given and owns those it returns; a formula that is made on the
way and not returned is discarded.
-/
namespace FormulaStack

/-- The theories of a backend beyond the booleans. -/
structure Theories where
  numerals : Bool
  bitvectors : Bool
  arrays : Bool
  quantifiers : Bool
  deriving DecidableEq, Inhabited

def Theories.everything : Theories := ⟨true, true, true, true⟩

/-- The theories that a client can ask for. -/
inductive Theory where
  | integers
  | rationals
  | bitvectors
  | arrays
  | quantifiers
  deriving DecidableEq

namespace Theory

def missing : Theory → MissingTheory
  | .integers => .integers
  | .rationals => .rationals
  | .bitvectors => .bitvectors
  | .arrays => .arrays
  | .quantifiers => .quantifiers

def isIn (available : Theories) : Theory → Bool
  | .integers | .rationals => available.numerals
  | .bitvectors => available.bitvectors
  | .arrays => available.arrays
  | .quantifiers => available.quantifiers

end Theory

/-- Who hears of new symbols. -/
inductive Observer where
  | stack (id : Nat)
  | watch (id : Nat)
  deriving DecidableEq

structure Environment where
  id : Nat
  theories : Theories
  terms : Store
  /-- Kinds that the backend reports in place of those of the nodes. -/
  reported : List (Term × TermKind)
  handles : Handles
  constants : List ((String × FormulaType) × Term)
  functions : List ((String × List FormulaType × FormulaType) × FuncDecl)
  /-- The symbols in the order of their requests. -/
  declared : List Symbol
  observers : List Observer
  deriving Inhabited

namespace Environment

/-- An environment without terms. Wrappers register only if that is wanted and the backend
announces counts. -/
def new (id : Nat) (theories : Theories) (counting announced track : Bool) : Environment where
  id
  theories
  terms := .empty
  reported := []
  handles := ⟨counting, announced, track && announced, [], [], 0, 0⟩
  constants := []
  functions := []
  declared := []
  observers := []

/-- Work on the term store. -/
def build (b : Build α) : Effect Environment α :=
  .of fun env =>
    match b env.terms with
    | .ok (a, terms) => (.ok a, { env with terms })
    | .error f => (.error f, env)

def kind (env : Environment) (t : Term) : Except Fault TermKind :=
  match env.reported.lookup t with
  | some k => .ok k
  | none => (env.terms.node t).map (·.kind)

def children (env : Environment) (t : Term) : Except Fault (List Term) :=
  (env.terms.node t).map (·.args)

/-- The children of a term; a term that is not there has none. -/
def childrenOf (env : Environment) (t : Term) : List Term :=
  match env.terms.node? t with
  | some n => n.args
  | none => []

/-- From now on the backend reports a kind for a term; all else about the term stays. -/
def report (t : Term) (k : TermKind) (env : Environment) : Environment :=
  { env with reported := (t, k) :: env.reported }

/-- The type of a term's own sort. -/
def typeOf (env : Environment) (t : Term) : Except Fault FormulaType :=
  (env.terms.sort t).map (·.type)

/-- Fails if the backend does not have a theory. -/
def require (t : Theory) : Effect Environment Unit := do
  unless t.isIn (← .look (·.theories)) do throw (.missingTheory t.missing)

/-- The sort of a type, if the backend has its theory. -/
def sortOf (env : Environment) (type : FormulaType) : Except Fault TermSort :=
  match type with
  | .integer => if env.theories.numerals then .ok .int else .error (.missingTheory .integers)
  | .rational => if env.theories.numerals then .ok .real else .error (.missingTheory .rationals)
  | other =>
    match TermSort.ofType? other with
    | some sort => .ok sort
    | none => .error (.missingTheory .floatingPoint)

/-- The term of a formula of this environment. -/
def unwrap (env : Environment) (f : Formula) : Except Fault Term :=
  if f.owner = env.id then .ok f.term else .error .foreign

def unwrapAll (env : Environment) (fs : List Formula) : Except Fault (List Term) :=
  fs.mapM env.unwrap

/-- The text of a formula. -/
def dump (env : Environment) (f : Formula) : Except Fault String := do
  env.terms.dump (← env.unwrap f)

/-- The text of a term in a message; a term that is not there has none. -/
def textOf (env : Environment) (t : Term) : String :=
  match env.terms.dump t with
  | .ok text => text
  | .error _ => ""

/-- One copy of a formula more. -/
def retain (f : Formula) (env : Environment) : Environment :=
  if f.owner = env.id then { env with handles := env.handles.retain f.ticket } else env

/-- One copy of a formula less. -/
def discard (f : Formula) (env : Environment) : Environment :=
  if f.owner = env.id then { env with handles := env.handles.discard f.ticket } else env

def discardAll (fs : List Formula) (env : Environment) : Environment :=
  fs.foldl (fun env f => env.discard f) env

/-- A copy of a formula. -/
def copy (f : Formula) : Effect Environment Formula := do
  .update (retain f)
  return f

def hold (t : Term) : Effect Environment Unit :=
  .update fun env => { env with handles := env.handles.hold t }

def release (t : Term) : Effect Environment Unit :=
  .update fun env => { env with handles := env.handles.release t }

/-- Gives back the references of wrappers that are gone; the number of these. -/
def cleanUp : Effect Environment Nat :=
  .of fun env =>
    let (n, handles) := env.handles.drain
    (.ok n, { env with handles })

/-- The end of an environment: its constants and all registrations give back their references. -/
def retire (env : Environment) : Environment :=
  { env with handles := env.handles.retire (env.constants.map (·.2)) }

/-- Wraps a term as a formula of a type that accepts the term's own. -/
def wrap (type : FormulaType) (t : Term) : Effect Environment Formula := do
  let actual ← .ask (·.typeOf t)
  unless type.accepts actual do throw (.typeMismatch type actual)
  .of fun env =>
    let (ticket, handles) := env.handles.register t
    (.ok ⟨t, type, env.id, ticket⟩, { env with handles })

def wrapBool (t : Term) : Effect Environment BoolFormula := do
  let actual ← .ask (·.typeOf t)
  unless actual = .boolean do throw (.typeMismatch .boolean actual)
  .of fun env =>
    let (ticket, handles) := env.handles.register t
    (.ok ⟨⟨t, .boolean, env.id, ticket⟩, rfl⟩, { env with handles })

/-- Wraps a term with the type of its own sort. -/
def wrapAsIs (t : Term) : Effect Environment Formula := do
  let actual ← .ask (·.typeOf t)
  wrap actual t

/-- Wraps terms from left to right; if one is refused, those before it are discarded. -/
def wrapAll (wrapOne : Term → Effect Environment α) (formula : α → Formula) :
    List Term → Effect Environment (List α)
  | [] => pure []
  | t :: ts => do
    let f ← wrapOne t
    let fs ← (wrapAll wrapOne formula ts).undoing (discard (formula f))
    return f :: fs

/-- Does `body` and then discards `f`. -/
def discarding (f : Formula) (body : Effect Environment α) : Effect Environment α :=
  body.andThen (discard f)

def discardingAll (fs : List Formula) (body : Effect Environment α) : Effect Environment α :=
  body.andThen (discardAll fs)

end Environment
end FormulaStack
