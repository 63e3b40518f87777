import FormulaStack.Proofs.Trees

/-!
Meanings of trees. A structure gives a meaning to the symbols and to everything else that has no
standard one. Quantifiers range over all values of the sorts of their variables.
-/
namespace FormulaStack

open Meaning

variable {A : TermSort → TermSort → Type}

/-- The sorts of arguments and result that a label takes. -/
def Label.Fits (l : Label) (args : List TermSort) (sort : TermSort) : Prop :=
  match l with
  | .op o => o.Fits (fun _ => none) args sort
  | .apply f => args = f.domain ∧ sort = f.range

namespace Tree

def WellSorted : Tree → Prop :=
  fold fun l k xs => l.Fits (xs.map (·.1.sort)) k ∧ ∀ x ∈ xs, x.2

/-- A tree that can be true or false. -/
structure Proposition (x : Tree) : Prop where
  wellSorted : x.WellSorted
  boolean : x.sort = .bool

def constant (value : Bool) : Tree := node (.op (if value then .true else .false)) .bool []

def connective (op : Operator) (xs : List Tree) : Tree := node (.op op) .bool xs

theorem wellSorted_node {l : Label} {k : TermSort} {xs : List Tree} :
    (node l k xs).WellSorted ↔ l.Fits (xs.map sort) k ∧ ∀ x ∈ xs, x.WellSorted := by
  rw [WellSorted, fold_node, List.map_map, List.forall_mem_map]
  rfl

theorem Proposition.of_fits {op : Operator} {xs : List Tree}
    (hop : op.Fits (fun _ => none) (xs.map sort) .bool) (h : ∀ x ∈ xs, x.WellSorted) :
    (connective op xs).Proposition :=
  ⟨wellSorted_node.2 ⟨hop, h⟩, rfl⟩

theorem proposition_constant (b : Bool) : (constant b).Proposition := by
  cases b <;> exact .of_fits ⟨rfl, rfl⟩ (by simp)

theorem map_sort_propositions {xs : List Tree} (h : ∀ x ∈ xs, x.Proposition) :
    xs.map sort = List.replicate xs.length .bool := by
  rw [List.eq_replicate_iff]
  simp +contextual [fun x hx => (h x hx).boolean]

/-- A connective over as many propositions as it takes. -/
theorem proposition_connective {op : Operator} {xs : List Tree}
    (hop : op.Fits (fun _ => none) (List.replicate xs.length .bool) .bool)
    (h : ∀ x ∈ xs, x.Proposition) : (connective op xs).Proposition :=
  .of_fits (by rwa [map_sort_propositions h]) fun x hx => (h x hx).wellSorted

end Tree

namespace Store

theorem WellFormed.wellSorted_of_tree? {s : Store} (hs : s.WellFormed) {t : Term} {x : Tree}
    (h : s.tree? t = some x) : x.WellSorted := by
  induction x using Tree.induction generalizing t with
  | step l k xs ih =>
    obtain ⟨n, hn, rfl, rfl, hxs⟩ := hs.node_of_tree? h
    obtain ⟨ks, hks, hop⟩ := hs.fits hn
    have hsorts : xs.map Tree.sort = ks := by
      refine Sorts.unique ?_ hks
      rw [Sorts, List.forall₂_map_right_iff]
      exact hxs.imp fun a x ha => hs.sort?_of_tree? ha
    rw [Tree.wellSorted_node, hsorts]
    refine ⟨?_, fun x hx => ?_⟩
    · generalize n.op = op at hop ⊢
      cases op with
      | apply d =>
        obtain ⟨name, hd⟩ := hop
        simp [label, hd, Label.Fits]
      | _ => exact hop
    · obtain ⟨a, -, ha⟩ := exists_related hxs x hx
      exact ih x hx ha

end Store

/-- Values of the variables of the enclosing binders, the innermost first. -/
abbrev Binding (A : TermSort → TermSort → Type) := Nat → Meaning A

/-- Values of the variables of one more binder, of which the last is the innermost. -/
def Binding.extend (ρ : Binding A) (ds : List (Meaning A)) : Binding A :=
  fun i => (ds.reverse[i]?).getD (ρ (i - ds.length))

def Quantifier.Holds (q : Quantifier) (sorts : List TermSort) (p : List (Meaning A) → Prop) :
    Prop :=
  match q with
  | .all => ∀ ds, ds.map Meaning.sort = sorts → p ds
  | .some => ∃ ds, ds.map Meaning.sort = sorts ∧ p ds

/-- A meaning for everything that has no standard one. -/
structure Structure (A : TermSort → TermSort → Type) where
  meaning : Label → TermSort → List (Meaning A) → Meaning A
  sort_meaning : ∀ l k ds, (meaning l k ds).sort = k

section

variable [∀ index element, Inhabited (A index element)]

noncomputable def Meaning.ofSort : TermSort → Meaning A
  | .bool => .truth false
  | .int => .integer 0
  | .real => .real 0
  | .bitvec width => .bits width 0
  | .array index element => .array index element default

theorem Meaning.sort_ofSort (k : TermSort) : (Meaning.ofSort k : Meaning A).sort = k := by
  cases k <;> rfl

noncomputable instance : Inhabited (Structure A) :=
  ⟨⟨fun _ k _ => .ofSort k, fun _ k _ => Meaning.sort_ofSort k⟩⟩

end

open scoped Classical in
/-- The meaning of a node from those of its arguments, under values for the bound variables. -/
noncomputable def Structure.ofNode (M : Structure A) (l : Label) (k : TermSort)
    (ds : List (Binding A → Meaning A)) (ρ : Binding A) : Meaning A :=
  match l, ds with
  | .op (.bound i), ds => if (ρ i).sort = k then ρ i else M.meaning l k (ds.map (· ρ))
  | .op (.quantifier q vars), [d] =>
    .truth (decide (q.Holds (vars.map (·.2)) fun es => d (ρ.extend es) = .truth true))
  | .op op, ds => (op.standard? (ds.map (· ρ))).getD (M.meaning l k (ds.map (· ρ)))
  | .apply _, ds => M.meaning l k (ds.map (· ρ))

namespace Tree

variable (M : Structure A) (ρ : Binding A)

noncomputable def value : Tree → Binding A → Meaning A :=
  fold fun l k xs => M.ofNode l k (xs.map (·.2))

theorem value_node (l : Label) (k : TermSort) (xs : List Tree) :
    (node l k xs).value M = M.ofNode l k (xs.map (value M)) := by
  simp [value, fold_node, Function.comp_def]

/-- Whether a proposition is true. -/
noncomputable def truth (x : Tree) : Bool := ((x.value M ρ).truth?).getD false

theorem sort_value {x : Tree} (h : x.WellSorted) : (x.value M ρ).sort = x.sort := by
  induction x using Tree.induction with
  | step l k xs ih =>
    obtain ⟨hl, hxs⟩ := wellSorted_node.1 h
    rw [value_node]
    unfold Structure.ofNode
    split
    · split
      · assumption
      · exact M.sort_meaning _ _ _
    · exact hl.2.2.symm
    · next ds op _ _ =>
      cases hstd : op.standard? ((xs.map (value M)).map (· ρ)) with
      | none => exact M.sort_meaning _ _ _
      | some d =>
        have hsorts : xs.map (fun x => (x.value M ρ).sort) = xs.map sort :=
          List.map_congr_left fun x hx => ih x hx (hxs x hx)
        change d.sort = k
        apply Operator.sort_standard? _ hstd
        · exact fun _ => none
        · simpa [Function.comp_def, hsorts, Label.Fits] using hl
    · exact M.sort_meaning _ _ _

theorem value_eq_truth {x : Tree} (h : x.Proposition) : x.value M ρ = .truth (x.truth M ρ) := by
  obtain ⟨b, hb⟩ := sort_eq_bool ((sort_value M ρ h.wellSorted).trans h.boolean)
  simp [truth, hb, truth?]

@[simp] theorem truth_constant (b : Bool) : (constant b).truth M ρ = b := by
  cases b <;>
    simp [constant, truth, value_node, Structure.ofNode, Operator.standard?, truth?]

/-- What a connective says of propositions. -/
theorem truth_connective {op : Operator} {xs : List Tree} {b : Bool}
    (h : ∀ x ∈ xs, x.Proposition)
    (hb : op.standard? (xs.map fun x => (.truth (x.truth M ρ) : Meaning A)) = some (.truth b)) :
    (connective op xs).truth M ρ = b := by
  have hvalues : (xs.map (value M)).map (· ρ) = xs.map fun x => .truth (x.truth M ρ) := by
    simpa using fun x hx => value_eq_truth M ρ (h x hx)
  rw [truth, connective, value_node, Structure.ofNode, hvalues, hb]
  · rfl
  · rintro i rfl
    simp [Operator.standard?] at hb
  · rintro q vars d - rfl
    simp [Operator.standard?] at hb

variable {M ρ} {c x y : Tree} {xs : List Tree}

theorem truth_not (hx : x.Proposition) : (connective .not [x]).truth M ρ = !x.truth M ρ :=
  truth_connective M ρ (by simpa) rfl

theorem map_truth_eq : (xs.map fun x => (.truth (x.truth M ρ) : Meaning A)) =
    (xs.map (truth M ρ)).map .truth := by
  simp

theorem truth_and (h : ∀ x ∈ xs, x.Proposition) :
    (connective .and xs).truth M ρ = xs.all (truth M ρ) := by
  apply truth_connective M ρ h
  rw [Operator.standard?, map_truth_eq, mapM_map .truth truth? fun _ => rfl]
  simp [List.all_map]

theorem truth_or (h : ∀ x ∈ xs, x.Proposition) :
    (connective .or xs).truth M ρ = xs.any (truth M ρ) := by
  apply truth_connective M ρ h
  rw [Operator.standard?, map_truth_eq, mapM_map .truth truth? fun _ => rfl]
  simp [List.any_map]

theorem truth_iff (hx : x.Proposition) (hy : y.Proposition) :
    (connective .iff [x, y]).truth M ρ = (x.truth M ρ == y.truth M ρ) :=
  truth_connective M ρ (by simp [hx, hy]) rfl

theorem truth_eq (hx : x.Proposition) (hy : y.Proposition) :
    (connective .eq [x, y]).truth M ρ = (x.truth M ρ == y.truth M ρ) := by
  apply truth_connective M ρ (by simp [hx, hy])
  simp only [List.map_cons, List.map_nil]
  cases x.truth M ρ <;> cases y.truth M ρ <;> simp [Operator.standard?]

theorem truth_implies (hx : x.Proposition) (hy : y.Proposition) :
    (connective .implies [x, y]).truth M ρ = (!x.truth M ρ || y.truth M ρ) :=
  truth_connective M ρ (by simp [hx, hy]) rfl

theorem truth_ite (hc : c.Proposition) (hx : x.Proposition) (hy : y.Proposition) :
    (connective .ite [c, x, y]).truth M ρ = if c.truth M ρ then x.truth M ρ else y.truth M ρ := by
  apply truth_connective M ρ (by simp [hc, hx, hy])
  simp only [List.map_cons, List.map_nil]
  cases c.truth M ρ <;> rfl

open scoped Classical in
theorem truth_quantifier {q : Quantifier} {vars : List (String × TermSort)} (hx : x.Proposition) :
    (connective (.quantifier q vars) [x]).truth M ρ =
      decide (q.Holds (vars.map (·.2)) fun ds => x.truth M (ρ.extend ds) = true) := by
  simp only [truth, connective, value_node, List.map_cons, List.map_nil, Structure.ofNode,
    Meaning.truth?, Option.getD_some]
  simp [value_eq_truth M _ hx]

end Tree
end FormulaStack
