import FormulaStack.Environment
import FormulaStack.Proofs.Folding
import Mathlib.Algebra.BigOperators.Group.Finset.Basic
import Mathlib.Algebra.BigOperators.Fin

/-!
What a walk over the terms of a store has left to do, if it deals with each node once. The fuel of
the walks is measured by it.
-/
namespace FormulaStack

namespace Store

variable {s : Store} {t : Term} {n : Node}

/-- What the nodes cost together that are not done. -/
def workLeft (s : Store) (cost : Node → Nat) (done : List Term) : Nat :=
  ∑ i ∈ Finset.range s.nodes.size, if (⟨i⟩ : Term) ∈ done then 0 else (s.nodes[i]?).elim 0 cost

theorem workLeft_cons (cost : Node → Nat) {done : List Term} (h : s.node? t = some n)
    (ht : t ∉ done) : s.workLeft cost done = cost n + s.workLeft cost (t :: done) := by
  have hlt : t.index < s.nodes.size := (Array.getElem?_eq_some_iff.1 h).1
  have hmem : t.index ∈ Finset.range s.nodes.size := Finset.mem_range.2 hlt
  unfold workLeft
  rw [← Finset.add_sum_erase _ _ hmem, ← Finset.add_sum_erase _ _ hmem]
  have hcost : (s.nodes[t.index]?).elim 0 cost = cost n := by
    rw [show s.nodes[t.index]? = some n from h]
    rfl
  rw [if_neg ht, if_pos (by simp), hcost, Nat.zero_add]
  congr 1
  refine Finset.sum_congr rfl fun i hi => ?_
  have hne : (⟨i⟩ : Term) ≠ t := fun h => (Finset.mem_erase.1 hi).1 (congrArg Term.index h)
  simp [hne]

theorem workLeft_nil (cost : Node → Nat) :
    s.workLeft cost [] = (s.nodes.toList.map cost).sum := by
  have hsum : ∀ ns : List Node,
      ∑ i ∈ Finset.range ns.length, (ns[i]?).elim 0 cost = (ns.map cost).sum := by
    intro ns
    induction ns with
    | nil => rfl
    | cons n ns ih =>
      rw [List.length_cons, Finset.sum_range_succ', List.map_cons, List.sum_cons, Nat.add_comm]
      simpa using ih
  rw [← hsum]
  simp [workLeft]

theorem edges_eq_sum (s : Store) : s.edges = (s.nodes.toList.map (·.args.length)).sum :=
  List.sum_eq_foldl.symm

end Store

namespace Environment

variable {env : Environment} {t u : Term} {n : Node}

theorem childrenOf_eq (hn : env.terms.node? t = some n) : env.childrenOf t = n.args := by
  rw [childrenOf, hn]

/-- A child is older than its parent. -/
theorem index_childrenOf_lt (hs : env.terms.WellFormed) (h : u ∈ env.childrenOf t) :
    u.index < t.index := by
  unfold childrenOf at h
  split at h
  · next n hn => exact hs.older hn u h
  · cases h

theorem exists_node_childrenOf (hs : env.terms.WellFormed) (h : u ∈ env.childrenOf t) :
    ∃ n, env.terms.node? u = some n := by
  unfold childrenOf at h
  split at h
  · next n hn =>
    obtain ⟨ks, hks, -⟩ := hs.fits hn
    exact hks.node? u h
  · cases h

end Environment
end FormulaStack
