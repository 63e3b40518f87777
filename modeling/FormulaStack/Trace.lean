import FormulaStack.Walk

/-!
Traces of walks: what a visitor is shown, in order. The visitor answers by the names of what it is
shown, and may rebuild applications and quantifiers over given operands on the way.
-/
namespace FormulaStack

open Environment

/-- What a visitor is shown of a formula. -/
inductive TracePart where
  | text (text : String)
  | number (n : Nat)
  | flag (b : Bool)
  | constant (value : ConstantValue)
  /-- The text of an argument and its type. -/
  | typed (text : String) (type : FormulaType)
  /-- What was rebuilt, for an application with its type. -/
  | rebuilt (text : String) (type : Option FormulaType)

structure Trace where
  visits : Nat
  entries : List (String × List TracePart)

def Trace.empty : Trace := ⟨0, []⟩

/-- A visitor that records what it is shown. -/
structure Recorder where
  skip : List String
  abort : List String
  /-- The operands to rebuild over. -/
  operands : Option (List Formula)
  /-- Visits are counted and not recorded. -/
  countOnly : Bool

namespace Recorder

def textPart (f : Formula) : Effect Environment TracePart := do
  return .text (← .ask (·.dump f))

/-- Records a visit, and answers how the walk goes on. -/
def note (r : Recorder) (name : String) (parts : Effect Environment (List TracePart)) :
    Visit Trace Step := do
  let entries ← if r.countOnly then pure [] else pure [(name, ← Visit.inEnvironment parts)]
  .update fun (env, t) => (env, ⟨t.visits + 1, t.entries ++ entries⟩)
  return if name ∈ r.abort then .abort else if name ∈ r.skip then .skip else .proceed

def quantifier (r : Recorder) (whole : BoolFormula) (q : Quantifier) (body : BoolFormula)
    (more : List TracePart) : Visit Trace Step :=
  r.note "quantifier" do
    return .text q.text :: (← textPart whole.formula) :: (← textPart body.formula) :: more

def onBool (r : Recorder) : BoolView → Visit Trace Step
  | .true => r.note "true" (pure [])
  | .false => r.note "false" (pure [])
  | .atom f => operands "atom" [f]
  | .not f => operands "not" [f]
  | .and fs => operands "and" fs
  | .or fs => operands "or" fs
  | .iff f g => operands "equivalence" [f, g]
  | .implies f g => operands "implication" [f, g]
  | .ite c f g => operands "ite" [c, f, g]
  | .quantifier whole q body => r.quantifier whole q body []
where
  operands (name : String) (fs : List BoolFormula) : Visit Trace Step :=
    r.note name (fs.mapM fun f => textPart f.formula)

/-- Shows what was rebuilt, and discards it. -/
def rebuilt (f : Formula) (type : Option FormulaType) : Effect Environment (List TracePart) :=
  discarding f do return [.rebuilt (← .ask (·.dump f)) type]

def onTerm (r : Recorder) (f : Formula) : TermView → Visit Trace Step
  | .free name => r.note "free" (pure [.text name])
  | .bound index => r.note "bound" (pure [.number index])
  | .constant value => r.note "constant" (pure [.constant value])
  | .function name kind args => do
    let more ← Visit.inEnvironment do
      match r.operands with
      | some fs =>
        let g ← f.rebuild fs
        rebuilt g (some g.type)
      | none => return []
    r.note "function" do
      let args ← args.mapM fun a => return TracePart.typed (← .ask (·.dump a)) a.type
      return [.text name, .text kind.text, .flag (kind == .application), .text f.type.text] ++
        args ++ more
  | .quantifier whole q body => do
    let more ← Visit.inEnvironment do
      match r.operands with
      | some (g :: _) =>
        let body ← .ask fun _ => g.toBool
        rebuilt (← whole.rebuildQuantifier body).formula none
      | _ => return []
    r.quantifier whole q body more

/-- Records a visit of the root of a formula. -/
def visitBool (r : Recorder) (f : BoolFormula) : Visit Trace Step := f.visit r.onBool

def visitTerm (r : Recorder) (f : Formula) : Visit Trace Step := f.visit (r.onTerm f)

/-- Records a walk. -/
def walkBool (r : Recorder) (f : BoolFormula) : Visit Trace Unit := f.visitAll r.onBool

def walkTerm (r : Recorder) (f : Formula) : Visit Trace Unit := f.visitAll r.onTerm

end Recorder
end FormulaStack
