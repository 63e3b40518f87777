import FormulaStack.Fault
import FormulaStack.Node

/-!
The store of terms. A node is kept once, so equal nodes are equal terms, and a node's arguments are
older than the node itself. What a term stands for never changes.
-/
namespace FormulaStack

structure Store where
  nodes : Array Node
  decls : Array Signature
  deriving Inhabited

namespace Store

def empty : Store := ⟨#[], #[]⟩

def node? (s : Store) (t : Term) : Option Node := s.nodes[t.index]?

def decl? (s : Store) (d : FuncDecl) : Option Signature := s.decls[d.index]?

def node (s : Store) (t : Term) : Except Fault Node :=
  match s.node? t with
  | some n => .ok n
  | none => .error (.badArgument (.unknownTerm t))

def decl (s : Store) (d : FuncDecl) : Except Fault Signature :=
  match s.decl? d with
  | some f => .ok f
  | none => .error (.badArgument (.unknownDecl d))

def sort (s : Store) (t : Term) : Except Fault TermSort :=
  (s.node t).map (·.sort)

/-- The term of a node, which is added if it is new. -/
def intern (s : Store) (n : Node) : Term × Store :=
  match s.nodes.findIdx? (· == n) with
  | some i => (⟨i⟩, s)
  | none => (⟨s.nodes.size⟩, { s with nodes := s.nodes.push n })

def internDecl (s : Store) (f : Signature) : FuncDecl × Store :=
  match s.decls.findIdx? (· == f) with
  | some i => (⟨i⟩, s)
  | none => (⟨s.decls.size⟩, { s with decls := s.decls.push f })

/-- The number of argument places of all nodes. -/
def edges (s : Store) : Nat := (s.nodes.toList.map (·.args.length)).foldl (· + ·) 0

/-- The name of a declaration. -/
def declName (s : Store) (d : FuncDecl) : String :=
  match s.decl? d with
  | some f => f.name
  | none => ""

/-- `s` has everything that `r` has, under the same names. -/
structure Extends (s r : Store) : Prop where
  node? : ∀ t n, r.node? t = some n → s.node? t = some n
  decl? : ∀ d f, r.decl? d = some f → s.decl? d = some f

theorem Extends.refl (s : Store) : s.Extends s := ⟨fun _ _ h => h, fun _ _ h => h⟩

theorem Extends.trans {s r q : Store} (h : s.Extends r) (g : r.Extends q) : s.Extends q :=
  ⟨fun t n e => h.node? t n (g.node? t n e), fun d f e => h.decl? d f (g.decl? d f e)⟩

theorem node?_intern (s : Store) (n : Node) : (s.intern n).2.node? (s.intern n).1 = some n := by
  unfold intern
  split
  · next i h =>
    obtain ⟨hi, he, _⟩ := Array.findIdx?_eq_some_iff_getElem.1 h
    simp [node?, eq_of_beq he, hi]
  · simp [node?]

theorem intern_extends (s : Store) (n : Node) : (s.intern n).2.Extends s := by
  unfold intern
  split
  · exact .refl s
  · refine ⟨fun t m h => ?_, fun _ _ h => h⟩
    simp only [node?, Array.getElem?_push] at h ⊢
    have := (Array.getElem?_eq_some_iff.1 h).1
    simp [Nat.ne_of_lt this, h]

theorem internDecl_extends (s : Store) (f : Signature) : (s.internDecl f).2.Extends s := by
  unfold internDecl
  split
  · exact .refl s
  · refine ⟨fun _ _ h => h, fun d g h => ?_⟩
    simp only [decl?, Array.getElem?_push] at h ⊢
    have := (Array.getElem?_eq_some_iff.1 h).1
    simp [Nat.ne_of_lt this, h]

end Store

/-- Work on a store that leaves it alone when it fails. -/
abbrev Build := StateT Store (Except Fault)

namespace Build

def ofExcept (f : Store → Except Fault α) : Build α := fun s => (f s).map fun a => (a, s)

def node (t : Term) : Build Node := ofExcept (·.node t)

def sort (t : Term) : Build TermSort := ofExcept (·.sort t)

def intern (n : Node) : Build Term := fun s => .ok (s.intern n)

def internDecl (f : Signature) : Build FuncDecl := fun s => .ok (s.internDecl f)

def fail (f : Fault) : Build α := fun _ => .error f

def mismatch (expected actual : TermSort) : Build α := fail (.typeMismatch expected.type actual.type)

/-- Succeeds if a term has a sort. -/
def expect (sort : TermSort) (t : Term) : Build Unit := do
  let actual ← Build.sort t
  unless actual = sort do mismatch sort actual

/-- The sort that all terms of a nonempty list have. -/
def commonSort : List Term → Build TermSort
  | [] => fail (.badArgument .noOperands)
  | t :: ts => do
    let sort ← Build.sort t
    ts.forM (expect sort)
    return sort

end Build
end FormulaStack
