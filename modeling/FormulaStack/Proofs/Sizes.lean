import FormulaStack.Proofs.Connectives
import Mathlib.Data.Finset.Card
import Mathlib.Data.Set.Card
import Mathlib.Logic.Relation

/-!
Sizes of formulas: the nodes of the tree, and the distinct terms in it. The simplifying constructors
make nothing larger than the plain connective is.
-/
namespace FormulaStack

namespace Tree

/-- The number of nodes. -/
def size : Tree → Nat := fold fun _ _ xs => 1 + (xs.map (·.2)).sum

/-- The distinct trees in a tree, itself included. -/
def subtrees : Tree → Finset Tree :=
  fold fun l k xs => insert (node l k (xs.map (·.1))) ((xs.map (·.2)).foldr (· ∪ ·) ∅)

variable {x y z : Tree}

theorem size_eq (x : Tree) : x.size = 1 + (x.args.map size).sum := by
  obtain ⟨l, k, xs⟩ := x
  rw [size, fold_node, List.map_map]
  rfl

theorem mem_foldr_union {α : Type} [DecidableEq α] {a : α} {ss : List (Finset α)} :
    a ∈ ss.foldr (· ∪ ·) ∅ ↔ ∃ s ∈ ss, a ∈ s := by
  induction ss with
  | nil => simp
  | cons s ss ih => simp [ih]

theorem mem_subtrees : y ∈ x.subtrees ↔ y = x ∨ ∃ z ∈ x.args, y ∈ z.subtrees := by
  obtain ⟨l, k, xs⟩ := x
  rw [subtrees, fold_node, List.map_map, List.map_map, Finset.mem_insert, mem_foldr_union]
  simp [args, Function.comp_def]

theorem mem_subtrees_self (x : Tree) : x ∈ x.subtrees := mem_subtrees.2 (.inl rfl)

theorem size_arg_lt (h : y ∈ x.args) : y.size < x.size := by
  have hy : y.size ≤ (x.args.map size).sum := List.le_sum_of_mem (List.mem_map_of_mem h)
  rw [x.size_eq]
  omega

theorem size_le_of_mem_subtrees (h : y ∈ x.subtrees) : y.size ≤ x.size := by
  induction x using Tree.induction with
  | step l k xs ih =>
    obtain rfl | ⟨z, hz, hy⟩ := mem_subtrees.1 h
    · exact le_refl _
    · exact (ih z hz hy).trans (size_arg_lt hz).le

theorem notMem_subtrees_of_size_lt (h : x.size < y.size) : y ∉ x.subtrees := by
  intro hy
  have hle := size_le_of_mem_subtrees hy
  omega

theorem subtrees_arg_subset (h : y ∈ x.args) : y.subtrees ⊆ x.subtrees :=
  fun _ hz => mem_subtrees.2 (.inr ⟨y, h, hz⟩)

/-- No more distinct trees than in another tree, and fewer nodes. -/
structure Smaller (x y : Tree) : Prop where
  card : x.subtrees.card ≤ y.subtrees.card
  size : x.size < y.size

theorem smaller_arg (h : y ∈ x.args) : y.Smaller x :=
  ⟨Finset.card_le_card (subtrees_arg_subset h), size_arg_lt h⟩

section Distributing

variable {i j : Operator} {a b c : Tree}

theorem size_pair (i : Operator) (x y : Tree) :
    (connective i [x, y]).size = 1 + (x.size + y.size) := by
  rw [size_eq]
  simp [connective, args]

theorem subtrees_pair (i : Operator) (x y : Tree) :
    (connective i [x, y]).subtrees =
      insert (connective i [x, y]) (x.subtrees ∪ y.subtrees) := by
  ext z
  rw [mem_subtrees]
  simp [connective, args]

/-- Of two trees over `a` and `b` and over `a` and `c`, one is new to what they are made of: each
would otherwise be in the operand that only the other has. -/
theorem exists_new_operand (hx : x.args.Perm [a, b]) (hy : y.args.Perm [a, c]) :
    x ∉ a.subtrees ∪ b.subtrees ∪ c.subtrees ∨ y ∉ a.subtrees ∪ b.subtrees ∪ c.subtrees := by
  have hax : a.size < x.size := size_arg_lt (hx.mem_iff.2 (by simp))
  have hbx : b.size < x.size := size_arg_lt (hx.mem_iff.2 (by simp))
  have hay : a.size < y.size := size_arg_lt (hy.mem_iff.2 (by simp))
  have hcy : c.size < y.size := size_arg_lt (hy.mem_iff.2 (by simp))
  by_contra! h
  simp only [Finset.mem_union, notMem_subtrees_of_size_lt hax, notMem_subtrees_of_size_lt hbx,
    notMem_subtrees_of_size_lt hay, notMem_subtrees_of_size_lt hcy, false_or, or_false] at h
  have hxc : x.size ≤ c.size := size_le_of_mem_subtrees h.1
  have hyb : y.size ≤ b.size := size_le_of_mem_subtrees h.2
  omega

/-- Distributing adds two trees to those of the operands. The pair has as many more: itself, and an
operand that is new. -/
theorem card_subtrees_distributed (hx : x.args.Perm [a, b]) (hy : y.args.Perm [a, c]) :
    (connective i [a, connective j [b, c]]).subtrees.card ≤
      (connective j [x, y]).subtrees.card := by
  have hsub : a.subtrees ∪ b.subtrees ∪ c.subtrees ⊆ x.subtrees ∪ y.subtrees := by
    have ha : a.subtrees ⊆ x.subtrees := subtrees_arg_subset (hx.mem_iff.2 (by simp))
    have hb : b.subtrees ⊆ x.subtrees := subtrees_arg_subset (hx.mem_iff.2 (by simp))
    have hc : c.subtrees ⊆ y.subtrees := subtrees_arg_subset (hy.mem_iff.2 (by simp))
    exact Finset.union_subset_union (Finset.union_subset ha hb) hc
  obtain ⟨w, hw, hnew⟩ : ∃ w ∈ x.subtrees ∪ y.subtrees,
      w ∉ a.subtrees ∪ b.subtrees ∪ c.subtrees := by
    obtain h | h := exists_new_operand hx hy
    · exact ⟨x, Finset.mem_union_left _ x.mem_subtrees_self, h⟩
    · exact ⟨y, Finset.mem_union_right _ y.mem_subtrees_self, h⟩
  have hpair : connective j [x, y] ∉ x.subtrees ∪ y.subtrees := by
    have hxp : x.size < (connective j [x, y]).size := by
      rw [size_pair]
      omega
    have hyp : y.size < (connective j [x, y]).size := by
      rw [size_pair]
      omega
    simp [notMem_subtrees_of_size_lt hxp, notMem_subtrees_of_size_lt hyp]
  rw [subtrees_pair j x y, Finset.card_insert_of_notMem hpair, subtrees_pair i, subtrees_pair j b c,
    Finset.union_insert, ← Finset.union_assoc]
  calc _ ≤ (a.subtrees ∪ b.subtrees ∪ c.subtrees).card + 1 + 1 :=
        (Finset.card_insert_le _ _).trans (Nat.add_le_add_right (Finset.card_insert_le _ _) 1)
    _ = (insert w (a.subtrees ∪ b.subtrees ∪ c.subtrees)).card + 1 := by
        rw [Finset.card_insert_of_notMem hnew]
    _ ≤ (x.subtrees ∪ y.subtrees).card + 1 :=
        Nat.add_le_add_right (Finset.card_le_card (Finset.insert_subset hw hsub)) 1

theorem size_distributed (hx : x.args.Perm [a, b]) (hy : y.args.Perm [a, c]) :
    (connective i [a, connective j [b, c]]).size < (connective j [x, y]).size := by
  have hxs : x.size = 1 + (a.size + b.size) := by
    rw [x.size_eq, (hx.map size).sum_eq]
    simp
  have hys : y.size = 1 + (a.size + c.size) := by
    rw [y.size_eq, (hy.map size).sum_eq]
    simp
  rw [size_pair, size_pair, size_pair, hxs, hys]
  omega

end Distributing

/-- The junction of two propositions is the plain connective over them, or smaller. -/
theorem junction_smaller (j : Junction) (hx : x.Proposition) (hy : y.Proposition) :
    junction j x y = connective j.op [x, y] ∨
      (junction j x y).Smaller (connective j.op [x, y]) := by
  have hleft : x.Smaller (connective j.op [x, y]) := smaller_arg (by simp [connective, args])
  have hright : y.Smaller (connective j.op [x, y]) := smaller_arg (by simp [connective, args])
  unfold junction
  split_ifs with hsame hneutral hneutral'
  · exact .inr hleft
  · exact .inr hleft
  · exact .inr hright
  · unfold binary
    cases hz : factored? j x y with
    | none => exact .inl rfl
    | some z =>
      obtain ⟨i, a, b, c, -, -, -, hxe, hye, rfl⟩ := factored?_eq_some hx hy hz
      have hxp : x.args.Perm [a, b] := by
        obtain rfl | rfl := hxe
        · exact .refl _
        · exact .swap _ _ _
      have hyp : y.args.Perm [a, c] := by
        obtain rfl | rfl := hye
        · exact .refl _
        · exact .swap _ _ _
      exact .inr ⟨card_subtrees_distributed hxp hyp, size_distributed hxp hyp⟩

end Tree

namespace Store

variable {s : Store} {t u : Term} {x : Tree}

/-- The distinct terms in a term, itself included. -/
def subterms (s : Store) (t : Term) : Set Term :=
  {u | Relation.ReflTransGen (fun a b => ∃ n, s.node? a = some n ∧ b ∈ n.args) t u}

/-- The number of nodes of a term that is written out. -/
def treeSize (s : Store) (t : Term) : Nat := ((s.tree? t).map Tree.size).getD 0

theorem treeSize_eq (h : s.tree? t = some x) : s.treeSize t = x.size := by
  rw [treeSize, h]
  rfl

/-- The trees of the terms in a term are the trees in its tree. -/
theorem WellFormed.image_subterms (hs : s.WellFormed) (h : s.tree? t = some x) :
    s.tree? '' s.subterms t = some '' (x.subtrees : Set Tree) := by
  apply Set.Subset.antisymm
  · rintro _ ⟨u, hu, rfl⟩
    change Relation.ReflTransGen _ t u at hu
    induction hu using Relation.ReflTransGen.head_induction_on generalizing x with
    | refl => exact ⟨x, x.mem_subtrees_self, h.symm⟩
    | head hstep _ ih =>
      obtain ⟨n, hn, hc⟩ := hstep
      obtain ⟨xs, hxs, hx⟩ := hs.tree? hn
      obtain rfl := Option.some.inj (h.symm.trans hx)
      obtain ⟨y, hy, hcy⟩ := exists_related hxs.flip _ hc
      obtain ⟨z, hz, hzu⟩ := ih hcy
      exact ⟨z, Tree.subtrees_arg_subset hy hz, hzu⟩
  · rintro _ ⟨y, hy, rfl⟩
    induction x using Tree.induction generalizing t with
    | step l k xs ih =>
      obtain rfl | ⟨z, hz, hy⟩ := Tree.mem_subtrees.1 hy
      · exact ⟨t, .refl, h⟩
      · obtain ⟨n, hn, -, -, hxs⟩ := hs.node_of_tree? h
        obtain ⟨a, ha, haz⟩ := exists_related hxs z hz
        obtain ⟨u, hu, huy⟩ := ih z hz haz hy
        exact ⟨u, .head ⟨n, hn, ha⟩ hu, huy⟩

theorem WellFormed.encard_subterms (hs : s.WellFormed) (h : s.tree? t = some x) :
    (s.subterms t).encard = x.subtrees.card := by
  have himage := hs.image_subterms h
  have hinj : Set.InjOn s.tree? (s.subterms t) := by
    intro u hu v hv huv
    obtain ⟨y, -, hy⟩ := himage.subset (Set.mem_image_of_mem s.tree? hu)
    exact hs.tree?_injective hy.symm (huv.symm.trans hy.symm)
  rw [← hinj.encard_image, himage, (Option.some_injective _).encard_image,
    Set.encard_coe_eq_coe_finsetCard]

end Store

open Environment

namespace Boolean

variable {env : Environment} {f g : BoolFormula}

/-- The junction of two formulas of a proper environment is no larger than the plain connective over
them, and smaller when written out where it is not that connective. -/
theorem junction_never_enlarges (henv : env.Proper) (j : Junction) (hf : env.Owned f)
    (hg : env.Owned g) :
    ∃ h env₁ plain env₂, (junction j f g).exec env = (.ok h, env₁) ∧
      (build (j.build [f.term, g.term])).exec env₁ = (.ok plain, env₂) ∧
      (env₂.terms.subterms h.term).encard ≤ (env₂.terms.subterms plain).encard ∧
      env₂.terms.treeSize h.term ≤ env₂.terms.treeSize plain ∧
      (h.term ≠ plain → env₂.terms.treeSize h.term < env₂.terms.treeSize plain) := by
  obtain ⟨x, hx⟩ := hf.exists_reads henv
  obtain ⟨y, hy⟩ := hg.exists_reads henv
  obtain ⟨h, env₁, hrun, ha₁, hh⟩ := (computes_joined j henv hx hy).exists_ok
  have henv₁ : env₁.Proper := ha₁.proper henv
  have hx₁ := hx.advance henv ha₁
  have hy₁ := hy.advance henv ha₁
  obtain ⟨plain, env₂, hbuild, ha₂, hplain⟩ :=
    (computes_pair j henv₁ hx₁.2.1 hy₁.2.1 hx₁.2.2 hy₁.2.2).exists_ok
  have hs : env₂.terms.WellFormed := (ha₂.proper henv₁).wellFormed
  have hh₂ : env₂.Shows h.term (Tree.junction j x y) := hh.2.1.advance henv₁ ha₂
  refine ⟨h, env₁, plain, env₂, hrun, hbuild, ?_⟩
  rw [hs.encard_subterms hh₂, hs.encard_subterms hplain, Store.treeSize_eq hh₂,
    Store.treeSize_eq hplain]
  obtain heq | hlt := Tree.junction_smaller j (hx.proposition henv) (hy.proposition henv)
  · have hsame : h.term = plain := hs.tree?_injective (heq ▸ hh₂) hplain
    rw [heq]
    exact ⟨le_refl _, le_refl _, fun hne => absurd hsame hne⟩
  · exact ⟨by exact_mod_cast hlt.card, hlt.size.le, fun _ => hlt.size⟩

/-- Two constants, a conjunction of them, and one of the first with that conjunction. -/
def absorbed : Environment :=
  { Environment.new 0 .everything false false false with
    terms := Store.empty.serveAll
      [.construct (.constant "p" .bool), .construct (.constant "q" .bool),
        .construct (.and [⟨0⟩, ⟨1⟩]), .construct (.and [⟨0⟩, ⟨2⟩])] }

/-- The first operand of the disjunction occurs inside the second. Factoring takes out `p`: it makes
no fewer terms, but a smaller tree. -/
theorem junction_never_enlarges_absorbed :
    let f : BoolFormula := ⟨⟨⟨2⟩, .boolean, 0, none⟩, rfl⟩
    let g : BoolFormula := ⟨⟨⟨3⟩, .boolean, 0, none⟩, rfl⟩
    absorbed.Proper ∧ absorbed.Owned f ∧ absorbed.Owned g ∧
    ∃ h env₁ plain env₂, (junction .or f g).exec absorbed = (.ok h, env₁) ∧
      (build (Junction.or.build [f.term, g.term])).exec env₁ = (.ok plain, env₂) ∧ h.term ≠ plain ∧
      (env₂.terms.subterms h.term).encard ≤ (env₂.terms.subterms plain).encard ∧
      env₂.terms.treeSize h.term < env₂.terms.treeSize plain := by
  intro f g
  have henv : absorbed.Proper := ⟨Store.wellFormed_serveAll _, rfl⟩
  have hf : absorbed.Owned f := ⟨rfl, by decide +kernel⟩
  have hg : absorbed.Owned g := ⟨rfl, by decide +kernel⟩
  obtain ⟨h, env₁, plain, env₂, hrun, hbuild, hcard, -, hlt⟩ :=
    junction_never_enlarges henv .or hf hg
  have hterm : ((junction .or f g).exec absorbed).1.map (·.term) = .ok ⟨5⟩ := by decide +kernel
  have hplain : ((build (Junction.or.build [f.term, g.term])).exec
      ((junction .or f g).exec absorbed).2).1 = .ok ⟨6⟩ := by decide +kernel
  rw [hrun] at hterm hplain
  rw [hbuild] at hplain
  have hne : h.term ≠ plain := by
    intro heq
    cases heq.symm.trans (Except.ok.inj hterm)
    cases hplain
  exact ⟨henv, hf, hg, h, env₁, plain, env₂, hrun, hbuild, hne, hcard, hlt hne⟩

end Boolean
end FormulaStack
