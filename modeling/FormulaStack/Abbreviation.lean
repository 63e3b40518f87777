import FormulaStack.Environment

/-!
Terms worth an abbreviation: those that are reached more than once through connectives, and have
enough atoms.
-/
namespace FormulaStack.Environment

/-- The largest count of atoms; larger ones count as this. -/
def maxAtoms : Nat := Nat.pow 2 64 - 1

/-- Whether a term combines truth values. -/
def isConnective (env : Environment) (t : Term) : Bool :=
  match env.kind t with
  | .ok k => k.isConnective
  | .error _ => false

/-- The terms reached from pending ones through connectives, in the order in which they are taken
up, the last pending first; and the argument places in which each was met. -/
def reachFrom (env : Environment) :
    (fuel : Nat) → (pending reached places : List Term) → List Term × List Term
  | 0, _, reached, places => (reached.reverse, places)
  | _ + 1, [], reached, places => (reached.reverse, places)
  | fuel + 1, t :: pending, reached, places =>
    if env.isConnective t then
      let (pending, places) :=
        (env.childrenOf t).foldl
          (fun (pending, places) u =>
            (if u ∈ places then pending else u :: pending, u :: places))
          (pending, places)
      reachFrom env fuel pending (t :: reached) places
    else reachFrom env fuel pending (t :: reached) places

/-- The terms below a root, itself included, in order, and the argument places they fill. -/
def reach (env : Environment) (root : Term) : List Term × List Term :=
  env.reachFrom (env.terms.nodes.size + 2) [root] [] []

/-- Counts the atoms of pending terms that are written out, the first pending one first, and notes
the counts. A connective is put back, marked, below its operands; it is counted when it comes up
again. -/
def countFrom (env : Environment) :
    (fuel : Nat) → (pending : List (Term × Bool)) → (counts : List (Term × Nat)) →
      List (Term × Nat)
  | 0, _, counts => counts
  | _ + 1, [], counts => counts
  | fuel + 1, (t, expanded) :: pending, counts =>
    if (counts.lookup t).isSome then countFrom env fuel pending counts
    else if env.isConnective t then
      if expanded then
        let count := (env.childrenOf t).foldl
          (fun n u => min maxAtoms (n + (counts.lookup u).getD 0)) 0
        countFrom env fuel pending ((t, count) :: counts)
      else
        let operands := (env.childrenOf t).filter fun u => (counts.lookup u).isNone
        countFrom env fuel (operands.reverse.map (·, false) ++ (t, true) :: pending) counts
    else countFrom env fuel pending ((t, 1) :: counts)

/-- How often atoms occur in a root and in what is below it. -/
def atomCounts (env : Environment) (root : Term) : List (Term × Nat) :=
  env.countFrom (env.terms.edges + env.terms.nodes.size + 2) [(root, false)] []

/-- The terms worth an abbreviation, in the order in which they are reached. -/
def sharedSubterms (env : Environment) (threshold : Nat) (root : Term) : List Term :=
  let (reached, places) := env.reach root
  let counts := env.atomCounts root
  reached.filter fun t =>
    decide (1 < places.count t) && decide (threshold ≤ (counts.lookup t).getD 0)

end FormulaStack.Environment
