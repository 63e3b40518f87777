import FormulaStack.Proofs.Binders

/-!
Quantifiers over open bodies. The listed constants become variables of the new binder, and an index
that the body leaves unbound stays the number it was: below the number of the new variables it is
captured, and above it refers to a variable that much further in.
-/
namespace FormulaStack

namespace Tree

def index (i : Nat) (k : TermSort) : Tree := node (.op (.bound i)) k []

/-- The subtree at a place, which says what argument to take at each node. -/
def subtree? (x : Tree) : List Nat → Option Tree
  | [] => some x
  | i :: place => x.args[i]?.bind fun y => y.subtree? place

/-- The number of variables that are bound on the way to a place. -/
def boundOver (x : Tree) : List Nat → Nat
  | [] => 0
  | i :: place => x.label.binds + x.args[i]?.elim 0 fun y => y.boundOver place

variable {fs : List Signature} {f : Signature} {x y : Tree} {i depth : Nat} {k : TermSort}
  {place : List Nat}

/-- Below a listed constant there is nothing, so abstraction leaves at each node the number of
variables that it binds, and works at each argument by itself. -/
theorem root_abstract :
    (x.abstract (fs.map Signature.constant) depth).label.binds = x.label.binds ∧
      (x.abstract (fs.map Signature.constant) depth).args =
        x.args.map fun y => y.abstract (fs.map Signature.constant) (depth + x.label.binds) := by
  obtain ⟨l, k, xs⟩ := x
  rw [abstract_node]
  cases hi : (fs.map Signature.constant).reverse.idxOf? (node l k xs) with
  | some j =>
    obtain ⟨f, -, hf⟩ := List.mem_map.1 (mem_of_idxOf? hi)
    cases hf
    exact ⟨rfl, rfl⟩
  | none => exact ⟨rfl, rfl⟩

theorem subtree?_abstract :
    (x.abstract (fs.map Signature.constant) depth).subtree? place =
      (x.subtree? place).map fun y =>
        y.abstract (fs.map Signature.constant) (depth + x.boundOver place) := by
  induction place generalizing x depth with
  | nil => rfl
  | cons i place ih =>
    rw [subtree?, subtree?, boundOver, root_abstract.2, List.getElem?_map]
    cases x.args[i]? with
    | none => rfl
    | some y => simp only [Option.map_some, Option.bind_some, Option.elim_some, ih, Nat.add_assoc]

theorem boundOver_abstract :
    (x.abstract (fs.map Signature.constant) depth).boundOver place = x.boundOver place := by
  induction place generalizing x depth with
  | nil => rfl
  | cons i place ih =>
    rw [boundOver, boundOver, root_abstract.1, root_abstract.2, List.getElem?_map]
    cases x.args[i]? with
    | none => rfl
    | some y => simp only [Option.map_some, Option.elim_some, ih]

theorem abstract_index :
    (index i k).abstract (fs.map Signature.constant) depth = index i k := by
  have hnone : (fs.map Signature.constant).reverse.idxOf? (index i k) = none := by
    rw [List.idxOf?_eq_none_iff, List.mem_reverse]
    rintro h
    obtain ⟨f, -, hf⟩ := List.mem_map.1 h
    cases hf
  rw [index, abstract_node, ← index, hnone]
  rfl

theorem abstract_constant (depth : Nat) (hf : f ∈ fs) :
    ∃ i, fs.reverse[i]? = some f ∧
      f.constant.abstract (fs.map Signature.constant) depth = index (i + depth) f.range := by
  obtain ⟨i, hi⟩ : ∃ i, (fs.map Signature.constant).reverse.idxOf? f.constant = some i := by
    rw [← Option.isSome_iff_exists, Option.isSome_iff_ne_none, ne_eq, List.idxOf?_eq_none_iff]
    exact not_not.2 (List.mem_reverse.2 (List.mem_map_of_mem hf))
  have hplace := getElem?_of_idxOf? hi
  rw [← List.map_reverse, List.getElem?_map] at hplace
  obtain ⟨g, hg, hsame⟩ := Option.map_eq_some_iff.1 hplace
  cases hsame
  refine ⟨i, hg, ?_⟩
  rw [Signature.constant, abstract_node, ← Signature.constant, hi]
  rfl

end Tree

/-- A quantifier takes any body, open or closed. The places of the listed constants become those of
the new variables, every index stays what it was, and so the unbound ones have in the new binder the
values of its variables. -/
theorem Store.quantifier_keeps_indices (requests : List Request) (q : Quantifier)
    (vars : List Term) (body : Term) (fs : List Signature) (x : Tree) (hne : vars ≠ [])
    (hvars : (empty.serveAll requests).Unfolds vars (fs.map Signature.constant))
    (hbody : (empty.serveAll requests).tree? body = some x) (hsort : x.sort = .bool) :
    ∃ t u y, Build.quantifier q vars body (empty.serveAll requests) = .ok (t, u) ∧
      u.tree? t =
        some (.connective (.quantifier q (fs.map fun f => (f.name, f.range))) [y]) ∧
      (∀ place, y.boundOver place = x.boundOver place) ∧
      (∀ place i k, x.subtree? place = some (.index i k) →
        y.subtree? place = some (.index i k)) ∧
      (∀ place, ∀ f ∈ fs, x.subtree? place = some f.constant → ∃ i, fs.reverse[i]? = some f ∧
        y.subtree? place = some (.index (i + x.boundOver place) f.range)) ∧
      ∀ (A : TermSort → TermSort → Type) (M : Structure A) (ρ : Binding A),
        (Tree.connective (.quantifier q (fs.map fun f => (f.name, f.range))) [y]).truth M ρ = true ↔
          q.Holds (fs.map Signature.range) fun ds =>
            x.truth (M.assign (fs.map Signature.constant) ds) (ρ.extend ds) = true := by
  have hs : (empty.serveAll requests).WellFormed := wellFormed_serveAll requests
  obtain ⟨t, u, ht, hgrows, hy⟩ := Build.quantifier_eq_ok (q := q) hs hvars hne hbody hsort
  have hwell := (hgrows.wellFormed hs).wellSorted_of_tree? hy
  refine ⟨t, u, _, ht, hy, fun place => Tree.boundOver_abstract, fun place i k hi => ?_,
    fun place f hf hplace => ?_, fun A M ρ => ?_⟩
  · rw [Tree.subtree?_abstract, hi, Option.map_some, Tree.abstract_index]
  · obtain ⟨i, hi, habs⟩ := Tree.abstract_constant (0 + x.boundOver place) hf
    refine ⟨i, hi, ?_⟩
    rw [Tree.subtree?_abstract, hplace, Option.map_some, habs, Nat.zero_add]
  · refine Tree.truth_abstracted ⟨hs.wellSorted_of_tree? hbody, hsort⟩ ⟨?_, ?_⟩
    · exact (Tree.wellSorted_node.1 hwell).2 _ (by simp)
    · rw [Tree.sort_abstract, hsort]

/-- The body of a quantifier, quantified over another constant: the index that belonged to the first
binder now belongs to the second. -/
theorem Store.quantifier_keeps_indices_captured :
    let s := empty.serveAll [.construct (.constant "x" .int), .construct (.constant "y" .int),
      .construct (.compare .lt (by decide) ⟨0⟩ ⟨1⟩), .construct (.quantifier .all [⟨0⟩] ⟨2⟩)]
    (∃ x, s.tree? ⟨4⟩ = some x ∧ x.subtree? [0] = some (.index 0 .int)) ∧ ∃ t u y,
      Build.quantifier .some [⟨1⟩] ⟨4⟩ s = .ok (t, u) ∧
      u.tree? t = some (.connective (.quantifier .some [("y", .int)]) [y]) ∧
      y.subtree? [0] = some (.index 0 .int) ∧ y.subtree? [1] = some (.index 0 .int) := by
  intro s
  let f : Signature := ⟨"y", [], .int⟩
  let x := Tree.connective (.arith .lt) [.index 0 .int, f.constant]
  have hf : s.tree? ⟨1⟩ = some f.constant := by decide +kernel
  have hx : s.tree? ⟨4⟩ = some x := by decide +kernel
  obtain ⟨t, u, y, ht, hy, -, hindex, hconstant, -⟩ :=
    quantifier_keeps_indices _ .some [⟨1⟩] ⟨4⟩ [f] x (by simp) (.cons hf .nil) hx rfl
  obtain ⟨i, hi, hplace⟩ := hconstant [1] f (by simp) rfl
  obtain rfl : i = 0 := by simpa using (List.getElem?_eq_some_iff.1 hi).1
  exact ⟨⟨x, hx, rfl⟩, t, u, y, ht, hy, hindex [0] 0 .int rfl, hplace⟩

end FormulaStack
