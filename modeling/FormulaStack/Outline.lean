import FormulaStack.Environment

/-!
Outlines of terms: the distinct terms below a root, parents before children and children from left
to right, each with the places of its children in the list.
-/
namespace FormulaStack

structure OutlineNode where
  kind : TermKind
  symbol : String
  type : FormulaType
  children : List Nat

namespace Environment

/-- Takes pending terms up from the front, each once; those taken up before stand in reverse. -/
def preorderFrom (env : Environment) : (fuel : Nat) → (seen pending : List Term) → List Term
  | 0, seen, _ => seen.reverse
  | _ + 1, seen, [] => seen.reverse
  | fuel + 1, seen, t :: pending =>
    if t ∈ seen then preorderFrom env fuel seen pending
    else preorderFrom env fuel (t :: seen) (env.childrenOf t ++ pending)

/-- The distinct terms below a root, itself included, in preorder. -/
def preorder (env : Environment) (root : Term) : List Term :=
  env.preorderFrom (env.terms.edges + 2) [] [root]

def outline (env : Environment) (root : Term) : Except Fault (List OutlineNode) :=
  let ts := env.preorder root
  ts.mapM fun t => do
    return ⟨← env.kind t, ← env.terms.symbolName t, ← env.typeOf t,
      (env.childrenOf t).map fun u => ts.idxOf u⟩

end Environment
end FormulaStack
