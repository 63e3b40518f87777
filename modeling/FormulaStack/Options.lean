import FormulaStack.Json.Reader

/-!
Options of a solver context and their JSON form: an object whose missing members keep their
defaults and whose unknown members are skipped, or a list of the members in order.
-/
namespace FormulaStack

/-- The solvers that options can name. -/
inductive SolverName where
  | external
  | builtIn
  deriving DecidableEq, Inhabited

def SolverName.text : SolverName → String
  | .external => "Z3"
  | .builtIn => "Dummy"

structure Options where
  solver : SolverName := .builtIn
  randomSeed : Nat := 42
  timeout : Option Duration := none
  logQueries : Bool := false
  /-- Wrappers register the references they hold. -/
  trackReferences : Bool := false
  /-- Declarations that a pop forgets are made again. -/
  globalDeclarations : Bool := true
  /-- How many atoms a shared term must have to be worth an abbreviation. -/
  abbreviationAtoms : Nat := 100
  produceModels : Bool := true
  deriving DecidableEq

namespace Options

instance : Inhabited Options := ⟨{}⟩

/-- The timeout in milliseconds, which have to fit 32 bits. -/
def timeoutMillis (o : Options) : Except Fault (Option Nat) :=
  match o.timeout with
  | none => .ok none
  | some d =>
    if d.millis < Nat.pow 2 32 then .ok (some d.millis)
    else .error (.badOptions (.timeoutTooLong d))

open Json

def boolean : Reader Bool := do
  match ← token with
  | .bool b => return b
  | _ => throw .data

def natural (limit : Nat) : Reader Nat := do
  match ← token with
  | .word n => if n < limit then return n else throw .data
  | _ => throw .data

/-- The rest of a string that names a solver. -/
def solverName : Reader SolverName := do
  match ← string with
  | "Z3" => return .external
  | "Dummy" => return .builtIn
  | _ => throw .data

/-- A solver by its name, alone or as an object that maps it to null. -/
def solverMember : Reader SolverName := do
  match ← peek with
  | none => throw .ended
  | some '"' =>
    drop
    solverName
  | some '{' =>
    drop
    expect '"'
    let name ← solverName
    expect ':'
    if (← token) ≠ .null then throw .data
    expect '}'
    return name
  | some _ => throw .malformed

def duration : Reader (Option Duration) := do
  match ← token with
  | .null => return none
  | .string text =>
    match Duration.ofText? text with
    | some d => return some d
    | none => throw .data
  | _ => throw .data

/-- The members in order, with how each is read. -/
def members : List (String × (Options → Reader Options)) :=
  [("solver", fun o => do return { o with solver := ← solverMember }),
   ("random_seed", fun o => do return { o with randomSeed := ← natural (Nat.pow 2 32) }),
   ("timeout", fun o => do return { o with timeout := ← duration }),
   ("log_all_queries", fun o => do return { o with logQueries := ← boolean }),
   ("track_native_references", fun o => do return { o with trackReferences := ← boolean }),
   ("global_declarations", fun o => do return { o with globalDeclarations := ← boolean }),
   ("min_atoms_for_abbreviation", fun o => do
      return { o with abbreviationAtoms := ← natural (Nat.pow 2 64) }),
   ("produce_models", fun o => do return { o with produceModels := ← boolean })]

/-- The members of an object up to its end. A member may occur once. -/
def ofObject : (fuel : Nat) → (first : Bool) → (seen : List String) → Options → Reader Options
  | 0, _, _, _ => throw .ended
  | fuel + 1, first, seen, o => do
    match ← peek with
    | none => throw .ended
    | some '}' =>
      drop
      return o
    | some c =>
      if !first then
        if c ≠ ',' then throw .malformed
        drop
      expect '"'
      let name ← string
      if name ∈ seen then throw .data
      match members.lookup name with
      | some member =>
        expect ':'
        ofObject fuel false (name :: seen) (← member o)
      | none =>
        expect ':'
        skip
        ofObject fuel false seen o

/-- The members of a list, in order, as many as there are. -/
def ofList (first : Bool) : List (String × (Options → Reader Options)) → Options → Reader Options
  | [], o => do
    match ← peek with
    | none => throw .ended
    | some ']' =>
      drop
      return o
    | some _ => throw .malformed
  | (_, member) :: rest, o => do
    match ← peek with
    | none => throw .ended
    | some ']' =>
      drop
      return o
    | some c =>
      if !first then
        if c ≠ ',' then throw .malformed
        drop
        match ← peek with
        | none => throw .ended
        | some ']' => throw .malformed
        | some _ => pure ()
      ofList false rest (← member o)

def reader : Reader Options := do
  match ← token with
  | .object =>
    drop
    ofObject ((← get).length + 1) true [] {}
  | .list =>
    drop
    ofList true members {}
  | _ => throw .data

def ofJson (text : String) : Except Fault Options :=
  match Json.read reader text with
  | .ok o => .ok o
  | .error e => .error (.json e)

def boolText (b : Bool) : String := if b then "true" else "false"

def quoted (text : String) : String := "\"" ++ text ++ "\""

def timeoutText : Option Duration → String
  | none => "null"
  | some d => quoted d.text

/-- The JSON text of options: every member, in order. -/
def toJson (o : Options) : String :=
  let values :=
    [quoted o.solver.text, toString o.randomSeed, timeoutText o.timeout, boolText o.logQueries,
     boolText o.trackReferences, boolText o.globalDeclarations, toString o.abbreviationAtoms,
     boolText o.produceModels]
  let members := (members.zip values).map fun (m, value) => quoted m.1 ++ ":" ++ value
  "\x7b" ++ ",".intercalate members ++ "\x7d"

end Options
end FormulaStack
