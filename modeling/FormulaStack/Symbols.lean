import FormulaStack.Environment

/-!
Requests for constants and functions. The first request for a name and a type makes a new symbol,
which the environment remembers and its observers have to be told of; later requests find it.
-/
namespace FormulaStack.Environment

/-- The constant of a type and a name, and the symbol if the request is the first. -/
def requestVariable (type : FormulaType) (name : String) :
    Effect Environment (Term × Option Symbol) := do
  if let some t := (← .look (·.constants)).lookup (name, type) then return (t, none)
  let sort ← .ask (·.sortOf type)
  let t ← build (Build.constant name sort)
  hold t
  let symbol := if type.isBoolean then Symbol.boolean t else Symbol.numeric t
  .update fun env =>
    { env with
      constants := ((name, type), t) :: env.constants
      declared := env.declared ++ [symbol] }
  return (t, some symbol)

/-- The function of a name and types, and the symbol if the request is the first. -/
def requestFunction (name : String) (arguments : List FormulaType) (result : FormulaType) :
    Effect Environment (FunctionDeclaration × Option Symbol) := do
  if arguments.isEmpty then throw (.badArgument (.noParameters name))
  let id ← .look (·.id)
  let key := (name, arguments, result)
  if let some d := (← .look (·.functions)).lookup key then
    return (⟨name, arguments, result, d, id⟩, none)
  let domain ← arguments.mapM fun type => .ask (·.sortOf type)
  let range ← .ask (·.sortOf result)
  let d ← build (Build.internDecl ⟨name, domain, range⟩)
  .update fun env =>
    { env with
      functions := (key, d) :: env.functions
      declared := env.declared ++ [.function d] }
  return (⟨name, arguments, result, d, id⟩, some (.function d))

/-- The symbol that declares a term: its function if it has arguments, else itself. -/
def symbolOf (env : Environment) (t : Term) : Except Fault Symbol := do
  let n ← env.terms.node t
  match n.decl? with
  | some d =>
    if n.args.isEmpty then
      return if n.sort = .bool then .boolean t else .numeric t
    else
      return .function d
  | none => return if n.sort = .bool then .boolean t else .numeric t

end FormulaStack.Environment
