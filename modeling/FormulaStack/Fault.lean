import FormulaStack.Duration
import FormulaStack.FormulaType
import FormulaStack.Term

/-!
What can go wrong, by cause, and the message for each cause.
-/
namespace FormulaStack

/-- The text of a rational: the denominator is left out where it is one. -/
def rationalText (q : Rat) : String :=
  if q.den = 1 then s!"{q.num}" else s!"{q.num}/{q.den}"

/-- Operators that are not there. -/
inductive MissingOperator where
  | parse
  | interpolation
  | quantifierElimination
  | rationalModulo
  | select (on : FormulaType)
  | store (on : FormulaType)
  /-- A term that no boolean visit can enter, by the symbol at its root. -/
  | root (symbol : String)
  deriving DecidableEq

def MissingOperator.message : MissingOperator → String
  | .parse => "parse"
  | .interpolation => "interpolation"
  | .quantifierElimination => "quantifier elimination"
  | .rationalModulo => "modulo over rationals"
  | .select on => s!"select on {on.text}"
  | .store on => s!"store on {on.text}"
  | .root symbol => symbol

/-- Theories that are not there. -/
inductive MissingTheory where
  | integers
  | rationals
  | arithmetic
  | bitvectors
  | arrays
  | quantifiers
  | floatingPoint
  | valuesOf (type : FormulaType)
  deriving DecidableEq

def MissingTheory.message : MissingTheory → String
  | .integers => "integer arithmetic"
  | .rationals => "rational arithmetic"
  | .arithmetic => "arithmetic"
  | .bitvectors => "bit-vectors"
  | .arrays => "arrays"
  | .quantifiers => "quantifiers"
  | .floatingPoint => "floating point"
  | .valuesOf type => s!"values of sort {type.text}"

/-- Calls that come at the wrong time. -/
inductive BadState where
  | stackClosed
  | noLevel (wanted depth : Nat)
  | noFrame
  | noModel
  | notForInterpolation
  | notUnsatisfiable
  deriving DecidableEq

def BadState.message : BadState → String
  | .stackClosed => "assertion stack is closed"
  | .noLevel wanted depth => s!"cannot pop {wanted} levels from a stack of depth {depth}"
  | .noFrame => "pop on an empty solver stack"
  | .noModel => "no model is available, the last check was not satisfiable"
  | .notForInterpolation => "stack was not created for interpolation"
  | .notUnsatisfiable => "interpolants need an unsatisfiable check first"

/-- Arguments that cannot be used. Formulas appear by their texts. -/
inductive BadArgument where
  | unknownTerm (t : Term)
  | unknownDecl (d : FuncDecl)
  | noOperands
  | arity (name : String) (expected got : Nat)
  | childCount (expected got : Nat)
  | fewDistinct
  | notInteger (value : Rat)
  | notNumber (text : String)
  | zeroWidth
  | extractBeyond (high low width : Nat)
  | extractFrom (high low : Nat) (type : FormulaType)
  | notBindable
  | notQuantifiable (formula : String)
  | notQuantifier (formula : String)
  | noBody
  | notDeclarable
  | noParameters (name : String)
  | malformed (kind : TermKind) (formula : String)
  | noValue (formula : String)
  | emptyGroup
  deriving DecidableEq

def BadArgument.message : BadArgument → String
  | .unknownTerm t => s!"unknown term {t.text}"
  | .unknownDecl d => s!"unknown declaration {d.text}"
  | .noOperands => "operator needs arguments"
  | .arity name expected got => s!"{name} expects {expected} arguments, got {got}"
  | .childCount expected got => s!"expected {expected} children, got {got}"
  | .fewDistinct => "distinct needs at least two arguments"
  | .notInteger value => s!"{rationalText value} is not an integer"
  | .notNumber text => s!"'{text}' is not a number"
  | .zeroWidth => "bit-vector width must be positive"
  | .extractBeyond high low width =>
    s!"cannot extract [{high}:{low}] from a bit-vector of width {width}"
  | .extractFrom high low type => s!"cannot extract [{high}:{low}] from {type.text}"
  | .notBindable => "only constants can be bound"
  | .notQuantifiable formula => s!"cannot quantify over {formula}"
  | .notQuantifier formula => s!"{formula} is not a quantifier"
  | .noBody => "quantifier without body"
  | .notDeclarable => "only constants can be declared"
  | .noParameters name => s!"function {name} needs at least one argument, use a variable instead"
  | .malformed kind formula => s!"malformed {kind.text} node {formula}"
  | .noValue formula => s!"{formula} has no constant value"
  | .emptyGroup => "partition groups must not be empty"

/-- Failures of a solver at its own work. -/
inductive SolverFault where
  | undeclared (name : String)
  | inconclusive (reason : String)
  | noValue (formula : String)
  /-- Whatever else a solver or an observer reports. -/
  | reported (text : String)
  deriving DecidableEq

def SolverFault.message : SolverFault → String
  | .undeclared name => s!"unknown constant {name}"
  | .inconclusive reason => s!"solver returned unknown: {reason}"
  | .noValue formula => s!"model has no value for {formula}"
  | .reported text => text

inductive BadOptions where
  | timeoutTooLong (timeout : Duration)
  | solverNotBuiltIn
  deriving DecidableEq

def BadOptions.message : BadOptions → String
  | .timeoutTooLong timeout => s!"timeout {timeout.secondsText} is too long"
  | .solverNotBuiltIn => "this build does not include the z3 backend"

/-- Why a JSON text was refused: not JSON, not the expected data, or too short. -/
inductive JsonFault where
  | malformed
  | data
  | ended
  deriving DecidableEq

def JsonFault.message : JsonFault → String
  | .malformed => "syntax"
  | .data => "data"
  | .ended => "eof"

inductive Fault where
  | typeMismatch (expected actual : FormulaType)
  | missingOperator (which : MissingOperator)
  | missingTheory (which : MissingTheory)
  /-- A formula of another environment. -/
  | foreign
  | badState (which : BadState)
  | badArgument (which : BadArgument)
  | solver (which : SolverFault)
  | interrupted (reason : String)
  | badOptions (which : BadOptions)
  | json (which : JsonFault)
  | fileNotFound
  deriving DecidableEq

namespace Fault

def message : Fault → String
  | .typeMismatch expected actual =>
    s!"type mismatch: expected {expected.text}, found {actual.text}"
  | .missingOperator which => s!"unsupported operator: {which.message}"
  | .missingTheory which => s!"theory not supported by this solver: {which.message}"
  | .foreign => "formula was created by a different solver environment"
  | .badState which => s!"illegal state: {which.message}"
  | .badArgument which => s!"invalid argument: {which.message}"
  | .solver which => s!"solver failed: {which.message}"
  | .interrupted reason => s!"interrupted: {reason}"
  | .badOptions which => s!"invalid configuration: {which.message}"
  | .json which => which.message
  | .fileNotFound => "NotFound"

/-- Faults after which another solver may still succeed. -/
def isRecoverable : Fault → Bool
  | .solver _ | .interrupted _ => true
  | _ => false

end Fault
end FormulaStack
