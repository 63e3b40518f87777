import FormulaStack.Arrays
import FormulaStack.Bitvector
import FormulaStack.Quantified
import FormulaStack.World

/-!
Expressions: formulas as data. Building one makes its operands first, from left to right, and then
asks the manager of the operator for the formula.
-/
namespace FormulaStack

open Environment

/-- The theory whose manager makes the variables of a type, where there is one. -/
def FormulaType.theory? : FormulaType → Option Theory
  | .integer => some .integers
  | .rational => some .rationals
  | .bitvector _ => some .bitvectors
  | .array .. => some .arrays
  | .boolean | .floatingPoint .. => none

namespace Expression

variable {α : Type}

/-- Work of the manager of a theory. -/
def managed (t : Theory) (e : Effect Environment α) : Effect Environment α := do
  require t
  e

/-- The operand of a manager that wants truth values. -/
def claim (f : Formula) : Effect Environment BoolFormula := .ask fun _ => f.toBool

def formula (e : Effect Environment BoolFormula) : Effect Environment Formula :=
  return (← e).formula

inductive Literal where
  | truth (value : Bool)
  | number (d : NumberDomain) (value : Rat)
  | numeral (d : NumberDomain) (text : String)
  | bits (width : Nat) (value : Int)

def Literal.make : Literal → Effect Environment Formula
  | truth value => formula (Boolean.constant value)
  | number d value => managed d.theory (Numeral.constant d value)
  | numeral d text => managed d.theory (Numeral.read d text)
  | bits width value => managed .bitvectors (Bitvector.constant width value)

inductive Unary where
  | not
  | neg (d : NumberDomain)
  | constantArray (index : FormulaType)
  | bitNot
  | bitNeg
  | extract (high low : Nat)
  | body
  | eliminate

def Unary.apply (f : Formula) : Unary → Effect Environment Formula
  | not => formula do Boolean.not (← claim f)
  | neg d => managed d.theory (Numeral.neg d f)
  | constantArray index => managed .arrays (Arrays.constant index f)
  | bitNot => managed .bitvectors (Bitvector.unary .not f)
  | bitNeg => managed .bitvectors (Bitvector.unary .neg f)
  | extract high low => managed .bitvectors (Bitvector.extract f high low)
  | body => managed .quantifiers (formula do Quantified.body (← claim f))
  | eliminate => managed .quantifiers (formula do Quantified.eliminate (← claim f))

inductive Connective where
  | and | or | xor | iff | implies

def Connective.apply : Connective → BoolFormula → BoolFormula → Effect Environment BoolFormula
  | and => Boolean.and
  | or => Boolean.or
  | xor => Boolean.xor
  | iff => Boolean.iff
  | implies => Boolean.implies

inductive Arithmetic where
  | add | sub | mul | div | mod

def Arithmetic.apply (d : NumberDomain) :
    Arithmetic → Formula → Formula → Effect Environment Formula
  | add => Numeral.add d
  | sub => Numeral.sub d
  | mul => Numeral.mul d
  | div => Numeral.div d
  | mod => Numeral.mod d

inductive Comparison where
  | eq | gt | ge | lt | le

def Comparison.apply (d : NumberDomain) :
    Comparison → Formula → Formula → Effect Environment BoolFormula
  | eq => Numeral.eq d
  | gt => Numeral.gt d
  | ge => Numeral.ge d
  | lt => Numeral.lt d
  | le => Numeral.le d

inductive BitArithmetic where
  | add | sub | mul | and | or | xor

def BitArithmetic.op : BitArithmetic → BitOp
  | add => .add
  | sub => .sub
  | mul => .mul
  | and => .and
  | or => .or
  | xor => .xor

inductive BitComparison where
  | eq
  | lt (signed : Bool)
  | le (signed : Bool)
  | gt (signed : Bool)
  | ge (signed : Bool)

def BitComparison.apply : BitComparison → Formula → Formula → Effect Environment BoolFormula
  | eq => Bitvector.eq
  | lt signed => Bitvector.less signed
  | le signed => Bitvector.lessOrEqual signed
  | gt signed => Bitvector.greater signed
  | ge signed => Bitvector.greaterOrEqual signed

inductive Binary where
  | connective (op : Connective)
  | arithmetic (d : NumberDomain) (op : Arithmetic)
  | comparison (d : NumberDomain) (op : Comparison)
  | select
  | arrayEq
  | bits (op : BitArithmetic)
  | bitComparison (op : BitComparison)
  | concat

def Binary.apply (f g : Formula) : Binary → Effect Environment Formula
  | connective op => formula do op.apply (← claim f) (← claim g)
  | arithmetic d op => managed d.theory (op.apply d f g)
  | comparison d op => managed d.theory (formula (op.apply d f g))
  | select => managed .arrays (Arrays.select f g)
  | arrayEq => managed .arrays (formula (Arrays.eq f g))
  | bits op => managed .bitvectors (Bitvector.binary op.op f g)
  | bitComparison op => managed .bitvectors (formula (op.apply f g))
  | concat => managed .bitvectors (Bitvector.concat f g)

inductive Ternary where
  | ite
  | iteBool
  | store

def Ternary.apply (f g h : Formula) : Ternary → Effect Environment Formula
  | ite => do Boolean.ite (← claim f) g h
  | iteBool => formula do Boolean.iteBool (← claim f) (← claim g) (← claim h)
  | store => managed .arrays (Arrays.store f g h)

/-- Operators over any number of operands. -/
inductive Nary where
  | junction (j : Junction)
  | sum (d : NumberDomain)
  | distinct (d : NumberDomain)
  /-- The function of a name and types, applied. -/
  | call (name : String) (result : FormulaType) (arguments : List FormulaType)
  /-- The function of a name and of the types of its arguments, applied. -/
  | declareAndCall (name : String) (result : FormulaType)

variable {σ : Type} [Session σ]

def Nary.apply (ctx : Nat) (fs : List Formula) : Nary → Effect (World σ) Formula
  | junction j => World.inEnvironment ctx (formula do Boolean.nary j (← fs.mapM claim))
  | sum d => World.inEnvironment ctx (managed d.theory (Numeral.sum d fs))
  | distinct d => World.inEnvironment ctx (managed d.theory (formula (Numeral.distinct d fs)))
  | call name result arguments => do
    let d ← World.function ctx name result arguments
    World.inEnvironment ctx (Functions.apply d fs)
  | declareAndCall name result => World.declareAndApply ctx name result fs

end Expression

inductive Expression where
  | literal (l : Expression.Literal)
  | variable (type : FormulaType) (name : String)
  | unary (op : Expression.Unary) (e : Expression)
  | binary (op : Expression.Binary) (e₁ e₂ : Expression)
  | ternary (op : Expression.Ternary) (e₁ e₂ e₃ : Expression)
  | nary (op : Expression.Nary) (es : List Expression)
  | quantifier (q : Quantifier) (vars : List Expression) (body : Expression)

namespace Expression

variable {σ : Type} [Session σ]

/-- The variable of a type and a name, from the manager of the type. -/
def makeVariable (ctx : Nat) (type : FormulaType) (name : String) : Effect (World σ) Formula := do
  if let some t := type.theory? then World.inEnvironment ctx (require t)
  World.constant ctx type name

/-- A formula quantified over others. -/
def quantified (q : Quantifier) (vars : List Formula) (body : Formula) :
    Effect Environment Formula :=
  managed .quantifiers (formula do Quantified.quantify q vars (← claim body))

mutual
/-- Builds an expression in a context. -/
def build (ctx : Nat) : Expression → Effect (World σ) Formula
  | .literal l => World.inEnvironment ctx l.make
  | .variable type name => makeVariable ctx type name
  | .unary op e => do
    let f ← build ctx e
    World.inEnvironment ctx (op.apply f)
  | .binary op e₁ e₂ => do
    let f ← build ctx e₁
    let g ← build ctx e₂
    World.inEnvironment ctx (op.apply f g)
  | .ternary op e₁ e₂ e₃ => do
    let f ← build ctx e₁
    let g ← build ctx e₂
    let h ← build ctx e₃
    World.inEnvironment ctx (op.apply f g h)
  | .nary op es => do
    let fs ← buildAll ctx es
    op.apply ctx fs
  | .quantifier q vars body => do
    let fs ← buildAll ctx vars
    let f ← build ctx body
    World.inEnvironment ctx (quantified q fs f)

def buildAll (ctx : Nat) : List Expression → Effect (World σ) (List Formula)
  | [] => return []
  | e :: es => do
    let f ← build ctx e
    let fs ← buildAll ctx es
    return f :: fs
end

end Expression
end FormulaStack
