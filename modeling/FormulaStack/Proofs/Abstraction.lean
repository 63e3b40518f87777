import FormulaStack.Proofs.Structures

/-!
Abstraction over constants. Under the new binder a tree means what it meant when the constants had
the values of the bound variables.
-/
namespace FormulaStack

open Meaning

/-- The number of variables that a label binds in its arguments. -/
def Label.binds : Label → Nat
  | .op (.quantifier _ vars) => vars.length
  | _ => 0

theorem Label.binds_eq_zero {l : Label} (h : ∀ q vars, l ≠ .op (.quantifier q vars)) :
    l.binds = 0 := by
  unfold binds
  split
  · exact absurd rfl (h _ _)
  · rfl

/-- A constant as a tree. -/
def Signature.constant (f : Signature) : Tree := .node (.apply f) f.range []

namespace Tree

/-- The listed constants become variables of a binder with `depth` variables bound below it. A
constant that is listed twice belongs to its last place. -/
def abstract (cs : List Tree) : Tree → Nat → Tree :=
  fold fun l k xs depth =>
    match cs.reverse.idxOf? (node l k (xs.map (·.1))) with
    | some i => node (.op (.bound (i + depth))) k []
    | none => node l k (xs.map fun x => x.2 (depth + l.binds))

/-- Every index belongs to an enclosing binder, if binders outside have `depth` variables. -/
def BoundBelow : Tree → Nat → Prop :=
  fold fun l _ xs depth =>
    (∀ i, l = .op (.bound i) → i < depth) ∧ ∀ x ∈ xs, x.2 (depth + l.binds)

/-- No index is unbound. -/
def Closed (x : Tree) : Prop := x.BoundBelow 0

/-- A tree occurs in another. -/
def Occurs (c : Tree) : Tree → Prop :=
  fold fun l k xs => node l k (xs.map (·.1)) = c ∨ ∃ x ∈ xs, x.2

variable {cs xs : List Tree} {c x : Tree} {l : Label} {k : TermSort} {depth : Nat}

theorem abstract_node : (node l k xs).abstract cs depth =
    match cs.reverse.idxOf? (node l k xs) with
    | some i => node (.op (.bound (i + depth))) k []
    | none => node l k (xs.map fun x => x.abstract cs (depth + l.binds)) := by
  simp [abstract, fold_node, Function.comp_def]

theorem boundBelow_node : (node l k xs).BoundBelow depth ↔
    (∀ i, l = .op (.bound i) → i < depth) ∧ ∀ x ∈ xs, x.BoundBelow (depth + l.binds) := by
  rw [BoundBelow, fold_node, List.forall_mem_map]

theorem occurs_node : Occurs c (node l k xs) ↔ node l k xs = c ∨ ∃ x ∈ xs, Occurs c x := by
  rw [Occurs, fold_node, List.map_map]
  refine or_congr (by simp [Function.comp_def]) ⟨?_, ?_⟩
  · rintro ⟨_, hy, hc⟩
    obtain ⟨x, hx, rfl⟩ := List.mem_map.1 hy
    exact ⟨x, hx, hc⟩
  · rintro ⟨x, hx, hc⟩
    exact ⟨_, List.mem_map_of_mem hx, hc⟩

/-- A place counted from the end holds the listed tree. -/
theorem getElem?_of_idxOf? {i : Nat} (h : cs.reverse.idxOf? c = some i) :
    cs.reverse[i]? = some c := by
  obtain ⟨hi, hc, -⟩ := List.idxOf?_eq_some_iff.1 h
  rw [List.getElem?_eq_getElem hi, hc]

theorem mem_of_idxOf? {i : Nat} (h : cs.reverse.idxOf? c = some i) : c ∈ cs :=
  List.mem_reverse.1 (List.mem_of_getElem? (getElem?_of_idxOf? h))

theorem sort_abstract : (x.abstract cs depth).sort = x.sort := by
  obtain ⟨l, k, xs⟩ := x
  rw [abstract_node]
  split <;> rfl

/-- All indices that abstraction adds belong to the new binder. -/
theorem BoundBelow.abstract (h : x.BoundBelow depth) :
    (x.abstract cs depth).BoundBelow (depth + cs.length) := by
  induction x using Tree.induction generalizing depth with
  | step l k xs ih =>
    obtain ⟨hl, hxs⟩ := boundBelow_node.1 h
    rw [abstract_node]
    cases hi : cs.reverse.idxOf? (node l k xs) with
    | some i =>
      obtain ⟨hlt, -, -⟩ := List.idxOf?_eq_some_iff.1 hi
      refine boundBelow_node.2 ⟨?_, by simp⟩
      rintro j ⟨⟩
      rw [List.length_reverse] at hlt
      omega
    | none =>
      refine boundBelow_node.2 ⟨fun i hl' => ?_, ?_⟩
      · exact Nat.lt_add_right _ (hl i hl')
      · rw [List.forall_mem_map]
        intro x hx
        rw [Nat.add_right_comm]
        exact ih x hx (hxs x hx)

/-- Nothing is left of the constants. -/
theorem not_occurs_abstract {fs : List Signature} (hcs : cs = fs.map Signature.constant)
    {f : Signature} (hf : f ∈ fs) : ¬ Occurs f.constant (x.abstract cs depth) := by
  induction x using Tree.induction generalizing depth with
  | step l k xs ih =>
    rw [abstract_node]
    cases hi : cs.reverse.idxOf? (node l k xs) with
    | some i => simp [occurs_node, Signature.constant]
    | none =>
      intro h
      obtain h | ⟨y, hy, h⟩ := occurs_node.1 h
      · -- A constant that is left would be the tree itself, which is not listed.
        obtain ⟨rfl, rfl, hxs⟩ : l = .apply f ∧ k = f.range ∧ xs = [] := by
          simpa [Signature.constant] using h
        subst hxs
        refine List.idxOf?_eq_none_iff.1 hi (List.mem_reverse.2 ?_)
        rw [hcs]
        exact List.mem_map_of_mem hf
      · obtain ⟨x, hx, rfl⟩ := List.mem_map.1 hy
        exact ih x hx h

end Tree

variable {A : TermSort → TermSort → Type}

theorem Quantifier.holds_congr (q : Quantifier) {sorts : List TermSort}
    {p p' : List (Meaning A) → Prop} (h : ∀ ds, ds.map Meaning.sort = sorts → (p ds ↔ p' ds)) :
    q.Holds sorts p ↔ q.Holds sorts p' := by
  cases q with
  | all => exact forall₂_congr h
  | some => exact exists_congr fun ds => and_congr_right (h ds)

namespace Structure

/-- Apart from variables and binders, a node only depends on the values of its arguments. -/
theorem ofNode_congr {M M' : Structure A} {l : Label} {k : TermSort}
    {ds ds' : List (Binding A → Meaning A)} {ρ ρ' : Binding A}
    (hbound : ∀ i, l ≠ .op (.bound i)) (hquant : ∀ q vars, l ≠ .op (.quantifier q vars))
    (h : ds.map (· ρ) = ds'.map (· ρ'))
    (hM : M.meaning l k (ds.map (· ρ)) = M'.meaning l k (ds.map (· ρ))) :
    M.ofNode l k ds ρ = M'.ofNode l k ds' ρ' := by
  cases l with
  | apply f => simpa [ofNode, ← h] using hM
  | op o =>
    cases o with
    | bound i => exact absurd rfl (hbound i)
    | quantifier q vars => exact absurd rfl (hquant q vars)
    | _ => simp only [ofNode, ← h, hM]

open scoped Classical in
/-- The structure in which listed constants have other values. -/
noncomputable def assign (M : Structure A) (cs : List Tree) (ds : List (Meaning A)) :
    Structure A where
  meaning l k es :=
    match es, (cs.reverse.idxOf? (.node l k [])).bind (ds.reverse[·]?) with
    | [], some d => if d.sort = k then d else M.meaning l k es
    | _, _ => M.meaning l k es
  sort_meaning l k es := by
    split
    · split
      · assumption
      · exact M.sort_meaning _ _ _
    · exact M.sort_meaning _ _ _

/-- Two structures that differ at most in the values of listed constants. -/
def AgreeOff (cs : List Tree) (M M' : Structure A) : Prop :=
  ∀ l k es, (es = [] → Tree.node l k [] ∉ cs) → M'.meaning l k es = M.meaning l k es

variable {M M' : Structure A} {cs : List Tree} {ds : List (Meaning A)} {l : Label} {k : TermSort}

theorem agreeOff_assign : AgreeOff cs M (M.assign cs ds) := by
  intro l k es h
  cases es with
  | nil =>
    have hnone : cs.reverse.idxOf? (.node l k []) = none :=
      List.idxOf?_eq_none_iff.2 fun hc => h rfl (List.mem_reverse.1 hc)
    simp [assign, hnone]
  | cons e es => rfl

/-- A listed constant has the value in its last place. -/
theorem meaning_assign (hds : ds.map Meaning.sort = cs.map Tree.sort) {i : Nat}
    (hi : cs.reverse.idxOf? (.node l k []) = some i) :
    ds.reverse[i]? = some ((M.assign cs ds).meaning l k []) := by
  have hsorts : (ds.reverse.map Meaning.sort)[i]? = (cs.reverse.map Tree.sort)[i]? := by
    rw [List.map_reverse, List.map_reverse, hds]
  rw [List.getElem?_map, List.getElem?_map, Tree.getElem?_of_idxOf? hi] at hsorts
  obtain ⟨d, hd, hk⟩ := Option.map_eq_some_iff.1 hsorts
  have hk : d.sort = k := hk
  simp [assign, hi, hd, hk]

/-- A structure that differs only in the constants comes from assigning values to them. -/
theorem AgreeOff.exists_assign (h : AgreeOff cs M M') :
    ∃ ds, ds.map Meaning.sort = cs.map Tree.sort ∧ M' = M.assign cs ds := by
  have hds : (cs.map fun c => M'.meaning c.label c.sort []).map Meaning.sort =
      cs.map Tree.sort := by
    simp [M'.sort_meaning]
  refine ⟨_, hds, ?_⟩
  suffices hm : M'.meaning = (M.assign cs (cs.map fun c => M'.meaning c.label c.sort [])).meaning by
    cases M'
    simpa [assign] using hm
  funext l k es
  by_cases hc : es = [] ∧ Tree.node l k [] ∈ cs
  · obtain ⟨rfl, hc⟩ := hc
    obtain ⟨i, hi⟩ : ∃ i, cs.reverse.idxOf? (.node l k []) = some i := by
      rw [← Option.isSome_iff_exists, Option.isSome_iff_ne_none, ne_eq, List.idxOf?_eq_none_iff]
      exact not_not.2 (List.mem_reverse.2 hc)
    have hvalue := meaning_assign (M := M) hds hi
    rw [← List.map_reverse, List.getElem?_map, Tree.getElem?_of_idxOf? hi] at hvalue
    exact Option.some.inj hvalue
  · have hoff : es = [] → Tree.node l k [] ∉ cs := fun hes hmem => hc ⟨hes, hmem⟩
    rw [h l k es hoff, agreeOff_assign l k es hoff]

end Structure

/-- What is said of the structures that differ from one at most in listed constants. -/
def Quantifier.Reassigns (q : Quantifier) (cs : List Tree) (M : Structure A)
    (p : Structure A → Prop) : Prop :=
  match q with
  | .all => ∀ M', M.AgreeOff cs M' → p M'
  | .some => ∃ M', M.AgreeOff cs M' ∧ p M'

/-- Values for a new binder and other values for the constants come to the same. -/
theorem Quantifier.holds_iff_reassigns {q : Quantifier} {cs : List Tree} {M : Structure A}
    {p : Structure A → Prop} :
    q.Holds (cs.map Tree.sort) (fun ds => p (M.assign cs ds)) ↔ q.Reassigns cs M p := by
  cases q with
  | all =>
    constructor
    · intro h M' hM'
      obtain ⟨ds, hds, rfl⟩ := hM'.exists_assign
      exact h ds hds
    · exact fun h ds _ => h _ Structure.agreeOff_assign
  | some =>
    constructor
    · rintro ⟨ds, -, h⟩
      exact ⟨_, Structure.agreeOff_assign, h⟩
    · rintro ⟨M', hM', h⟩
      obtain ⟨ds, hds, rfl⟩ := hM'.exists_assign
      exact ⟨ds, hds, h⟩

namespace Tree

variable {M : Structure A} {ρ ρ' : Binding A} {x : Tree} {fs : List Signature}
variable {ds : List (Meaning A)} {depth : Nat}

/-- The variables of a binder around `depth` other variables have the values `ds`. -/
def Bound (depth : Nat) (ds : List (Meaning A)) (ρ : Binding A) : Prop :=
  ∀ i d, ds.reverse[i]? = some d → ρ (i + depth) = d

theorem bound_extend (ρ : Binding A) (ds : List (Meaning A)) : Bound 0 ds (ρ.extend ds) := by
  intro i d hd
  simp [Binding.extend, hd]

theorem Bound.extend (h : Bound depth ds ρ) (es : List (Meaning A)) :
    Bound (depth + es.length) ds (ρ.extend es) := by
  intro i d hd
  have hout : es.reverse[i + (depth + es.length)]? = none := by
    rw [List.getElem?_eq_none_iff, List.length_reverse]
    omega
  simp only [Binding.extend, hout, Option.getD_none]
  rw [← h i d hd]
  congr 1
  omega

/-- A variable has the value of the constant that it stands for. -/
theorem value_bound {c : Tree} {i : Nat}
    (hds : ds.map Meaning.sort = (fs.map Signature.constant).map sort)
    (hρ : Bound depth ds ρ) (hi : (fs.map Signature.constant).reverse.idxOf? c = some i) :
    (node (.op (.bound (i + depth))) c.sort []).value M ρ =
      c.value (M.assign (fs.map Signature.constant) ds) ρ := by
  obtain ⟨f, -, rfl⟩ := List.mem_map.1 (mem_of_idxOf? hi)
  have hd := hρ i _ (Structure.meaning_assign (M := M) hds hi)
  simp only [Signature.constant, value_node, List.map_nil, Structure.ofNode, hd]
  exact if_pos (Structure.sort_meaning _ _ _ _)

theorem value_quantifier_congr {M M' : Structure A} {y : Tree} {q : Quantifier}
    {vars : List (String × TermSort)} {k : TermSort}
    (h : ∀ es : List (Meaning A), es.map Meaning.sort = vars.map (·.2) →
      y.value M' (ρ'.extend es) = x.value M (ρ.extend es)) :
    (node (.op (.quantifier q vars)) k [y]).value M' ρ' =
      (node (.op (.quantifier q vars)) k [x]).value M ρ := by
  simp only [value_node, Structure.ofNode, List.map_cons, List.map_nil]
  refine congrArg (fun b => Meaning.truth b) (decide_eq_decide.2 (q.holds_congr ?_))
  intro es hes
  rw [← h es hes]

/-- Abstraction changes where the values of the constants come from, and nothing else. -/
theorem value_abstract {cs : List Tree} (hcs : cs = fs.map Signature.constant)
    (hds : ds.map Meaning.sort = cs.map Tree.sort) (hx : x.WellSorted)
    (hρ : Bound depth ds ρ) :
    (x.abstract cs depth).value M ρ = x.value (M.assign cs ds) ρ := by
  induction x using Tree.induction generalizing depth ρ with
  | step l k xs ih =>
    obtain ⟨hl, hxs⟩ := wellSorted_node.1 hx
    rw [abstract_node]
    cases hi : cs.reverse.idxOf? (node l k xs) with
    | some i =>
      subst hcs
      exact value_bound hds hρ hi
    | none =>
      have hother : ∀ es, es.length = xs.length →
          (M.assign cs ds).meaning l k es = M.meaning l k es := by
        refine fun es hlen => Structure.agreeOff_assign l k es ?_
        rintro rfl hmem
        obtain rfl : xs = [] := List.length_eq_zero_iff.1 hlen.symm
        exact List.idxOf?_eq_none_iff.1 hi (List.mem_reverse.2 hmem)
      by_cases hbound : ∃ i, l = .op (.bound i)
      · obtain ⟨i, rfl⟩ := hbound
        obtain rfl : xs = [] := List.map_eq_nil_iff.1 hl
        simp only [value_node, Structure.ofNode, List.map_nil, hother [] rfl]
      by_cases hquant : ∃ q vars, l = .op (.quantifier q vars)
      · obtain ⟨q, vars, rfl⟩ := hquant
        obtain ⟨x, rfl, -⟩ := List.map_eq_singleton_iff.1 hl.2.1
        refine value_quantifier_congr fun es hes => ?_
        have hlen : es.length = vars.length := by simpa using congrArg List.length hes
        refine ih x (by simp) (hxs x (by simp)) ?_
        simpa only [Label.binds, hlen] using hρ.extend es
      · have h0 : l.binds = 0 := Label.binds_eq_zero fun q vars h => hquant ⟨q, vars, h⟩
        rw [h0]
        have hvalues : xs.map (fun x => (x.abstract cs (depth + 0)).value M ρ) =
            xs.map fun x => x.value (M.assign cs ds) ρ :=
          List.map_congr_left fun x hx => ih x hx (hxs x hx) hρ
        simp only [value_node, List.map_map]
        refine Structure.ofNode_congr (fun i h => hbound ⟨i, h⟩)
          (fun q vars h => hquant ⟨q, vars, h⟩) ?_ ?_
        · simpa [Function.comp_def] using hvalues
        · exact (hother _ (by simp)).symm

/-- A tree says nothing of variables beyond those that its indices belong to. -/
theorem BoundBelow.value_congr (hb : x.BoundBelow depth) (hx : x.WellSorted)
    (h : ∀ i < depth, ρ' i = ρ i) : x.value M ρ' = x.value M ρ := by
  induction x using Tree.induction generalizing depth ρ ρ' with
  | step l k xs ih =>
    obtain ⟨hl, hxs⟩ := wellSorted_node.1 hx
    obtain ⟨hbl, hbxs⟩ := boundBelow_node.1 hb
    by_cases hbound : ∃ i, l = .op (.bound i)
    · obtain ⟨i, rfl⟩ := hbound
      obtain rfl : xs = [] := List.map_eq_nil_iff.1 hl
      simp only [value_node, Structure.ofNode, List.map_nil, h i (hbl i rfl)]
    by_cases hquant : ∃ q vars, l = .op (.quantifier q vars)
    · obtain ⟨q, vars, rfl⟩ := hquant
      obtain ⟨x, rfl, -⟩ := List.map_eq_singleton_iff.1 hl.2.1
      refine value_quantifier_congr fun es hes => ?_
      have hlen : es.length = vars.length := by simpa using congrArg List.length hes
      refine ih x (by simp) (hbxs x (by simp)) (hxs x (by simp)) fun i hi => ?_
      simp only [Binding.extend]
      by_cases hlt : i < es.length
      · have hin : i < es.reverse.length := by simpa using hlt
        simp only [List.getElem?_eq_getElem hin, Option.getD_some]
      · have hout : es.reverse[i]? = none := by simpa using hlt
        simp only [Label.binds] at hi
        rw [hout, Option.getD_none, Option.getD_none, h _ (by omega)]
    · have h0 : l.binds = 0 := Label.binds_eq_zero fun q vars h => hquant ⟨q, vars, h⟩
      rw [h0] at hbxs
      have hvalues : xs.map (fun x => x.value M ρ') = xs.map fun x => x.value M ρ :=
        List.map_congr_left fun x hx => ih x hx (hbxs x hx) (hxs x hx) h
      simp only [value_node]
      refine Structure.ofNode_congr (fun i h => hbound ⟨i, h⟩)
        (fun q vars h => hquant ⟨q, vars, h⟩) ?_ rfl
      simpa [Function.comp_def] using hvalues

end Tree
end FormulaStack
