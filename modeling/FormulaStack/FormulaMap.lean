import FormulaStack.Build.Binding
import FormulaStack.Walk

/-!
Maps of boolean formulas from the atoms up. The image of a formula is made from the images of
its operands, and kept, so each distinct formula is worked on once.
-/
namespace FormulaStack

open Environment

/-- How images are made from those of the operands. -/
structure FormulaMap (τ : Type) where
  onTrue : Visit τ BoolFormula
  onFalse : Visit τ BoolFormula
  onAtom : BoolFormula → Visit τ BoolFormula
  onNot : BoolFormula → Visit τ BoolFormula
  onAnd : List BoolFormula → Visit τ BoolFormula
  onOr : List BoolFormula → Visit τ BoolFormula
  onIff : BoolFormula → BoolFormula → Visit τ BoolFormula
  onImplies : BoolFormula → BoolFormula → Visit τ BoolFormula
  onIte : BoolFormula → BoolFormula → BoolFormula → Visit τ BoolFormula
  /-- From the quantified formula and the image of its body. -/
  onQuantifier : BoolFormula → BoolFormula → Visit τ BoolFormula

/-- Formulas with their images. -/
abbrev Images := List (BoolFormula × BoolFormula)

namespace Images

def of? (images : Images) (f : BoolFormula) : Option BoolFormula :=
  (images.find? fun p => p.1 == f).map (·.2)

def formulas (images : Images) : List Formula :=
  images.flatMap fun p => [p.1.formula, p.2.formula]

end Images

/-- Work of a map beside the images made so far. -/
abbrev Imaging (τ : Type) := Effect ((Environment × τ) × Images)

namespace Imaging

variable {α τ : Type}

def inVisit (e : Visit τ α) : Imaging τ α := .on Prod.fst (fun v s => (v, s.2)) e

/-- Does `body` and then discards formulas. -/
def discarding (fs : List BoolFormula) (body : Imaging τ α) : Imaging τ α :=
  body.andThen fun ((env, s), images) => ((discardAll (fs.map (·.formula)) env, s), images)

end Imaging

namespace FormulaMap

variable {α τ : Type}

/-- Rebuilds every formula from the images of its operands; atoms stay. -/
def plain : FormulaMap τ where
  onTrue := Visit.inEnvironment (Boolean.constant true)
  onFalse := Visit.inEnvironment (Boolean.constant false)
  onAtom f := Visit.inEnvironment f.copy
  onNot f := Visit.inEnvironment (Boolean.not f)
  onAnd fs := Visit.inEnvironment (Boolean.andAll fs)
  onOr fs := Visit.inEnvironment (Boolean.orAll fs)
  onIff f g := Visit.inEnvironment (Boolean.iff f g)
  onImplies f g := Visit.inEnvironment (Boolean.implies f g)
  onIte c f g := Visit.inEnvironment (Boolean.iteBool c f g)
  onQuantifier f body := Visit.inEnvironment (f.rebuildQuantifier body)

/-- Exchanges the truth values and the junctions. -/
def dual : FormulaMap τ :=
  { plain with
    onTrue := Visit.inEnvironment (Boolean.constant false)
    onFalse := Visit.inEnvironment (Boolean.constant true)
    onAnd := fun fs => Visit.inEnvironment (Boolean.orAll fs)
    onOr := fun fs => Visit.inEnvironment (Boolean.andAll fs) }

/-- Puts other formulas for atoms, of several for one atom the last. One atom may be refused. The
state counts the atoms met. -/
def substitution (pairs : List (BoolFormula × BoolFormula)) (refused : Option BoolFormula) :
    FormulaMap Nat :=
  { plain with
    onAtom := fun f => do
      .update fun (env, n) => (env, n + 1)
      if refused.any (· == f) then throw (.solver (.reported "atom refused"))
      match pairs.reverse.find? (·.1 == f) with
      | some (_, g) => Visit.inEnvironment g.copy
      | none => Visit.inEnvironment f.copy }

/-- Goes on with the image of a formula, and then discards it. -/
def withImage (image : BoolFormula → Imaging τ BoolFormula) (f : BoolFormula)
    (body : BoolFormula → Imaging τ α) : Imaging τ α := do
  let g ← image f
  Imaging.discarding [g] (body g)

/-- Goes on with the images of formulas, made from left to right. -/
def withImages (image : BoolFormula → Imaging τ BoolFormula) :
    List BoolFormula → (List BoolFormula → Imaging τ α) → Imaging τ α
  | [], body => body []
  | f :: fs, body => withImage image f fun g => withImages image fs fun gs => body (g :: gs)

/-- The image of a view, given a way to get those of its operands. -/
def imageOfView (r : FormulaMap τ) (image : BoolFormula → Imaging τ BoolFormula) :
    BoolView → Imaging τ BoolFormula
  | .true => Imaging.inVisit r.onTrue
  | .false => Imaging.inVisit r.onFalse
  | .atom f => Imaging.inVisit (r.onAtom f)
  | .not f => withImage image f fun f => Imaging.inVisit (r.onNot f)
  | .and fs => withImages image fs fun fs => Imaging.inVisit (r.onAnd fs)
  | .or fs => withImages image fs fun fs => Imaging.inVisit (r.onOr fs)
  | .iff f g =>
    withImage image f fun f => withImage image g fun g => Imaging.inVisit (r.onIff f g)
  | .implies f g =>
    withImage image f fun f => withImage image g fun g => Imaging.inVisit (r.onImplies f g)
  | .ite c f g =>
    withImage image c fun c => withImage image f fun f => withImage image g fun g =>
      Imaging.inVisit (r.onIte c f g)
  | .quantifier whole _ body =>
    withImage image body fun body => Imaging.inVisit (r.onQuantifier whole body)

/-- The image of a formula. Operands have smaller indices than their formula, so fuel above the
index of the term is enough; without fuel a formula is its own image. -/
def imageWith (r : FormulaMap τ) : (fuel : Nat) → BoolFormula → Imaging τ BoolFormula
  | 0, f => Imaging.inVisit (Visit.inEnvironment f.copy)
  | fuel + 1, f => do
    if let some g := (← .look (·.2)).of? f then
      return ← Imaging.inVisit (Visit.inEnvironment g.copy)
    let v ← Imaging.inVisit (Visit.inEnvironment f.view)
    let out ← Imaging.discarding v.operands (r.imageOfView (imageWith r fuel) v)
    .update fun ((env, s), images) =>
      (((env.retain f.formula).retain out.formula, s), images ++ [(f, out)])
    return out

/-- The image of a formula, given the images that are known already. -/
def image (r : FormulaMap τ) (f : BoolFormula) : Imaging τ BoolFormula :=
  imageWith r (f.term.index + 1) f

/-- The image of a formula, if there is one; the state that the map leaves; and how many images
were made. -/
def apply (r : FormulaMap τ) (s : τ) (f : BoolFormula) :
    Effect Environment (Except Fault BoolFormula × τ × Nat) :=
  .of fun env =>
    let (out, (env, s), images) := (r.image f).exec ((env, s), [])
    (.ok (out, s, images.length), discardAll images.formulas env)

end FormulaMap
end FormulaStack
