import FormulaStack.Proofs.Canonicity
import FormulaStack.Proofs.Readings

/-!
The constructors of boolean formulas. Whichever simplification made it, the result says in every
structure what the plain connective says of the operands.
-/
namespace FormulaStack

/-- A boolean formula made of others. -/
inductive Combination (α : Type) where
  | not (f : α)
  | junction (j : Junction) (f g : α)
  | nary (j : Junction) (fs : List α)
  | xor (f g : α)
  | iff (f g : α)
  | implies (f g : α)
  | ite (c f g : α)

namespace Combination

variable {α : Type}

def operands : Combination α → List α
  | not f => [f]
  | junction _ f g | xor f g | iff f g | implies f g => [f, g]
  | nary _ fs => fs
  | ite c f g => [c, f, g]

/-- What the connective says of operands that say `v`. -/
def truth (v : α → Bool) : Combination α → Bool
  | not f => !v f
  | junction j f g => j.combine [v f, v g]
  | nary j fs => j.combine (fs.map v)
  | xor f g => v f != v g
  | iff f g => v f == v g
  | implies f g => !v f || v g
  | ite c f g => if v c then v f else v g

def make : Combination BoolFormula → Effect Environment BoolFormula
  | not f => Boolean.not f
  | junction j f g => Boolean.junction j f g
  | nary j fs => Boolean.nary j fs
  | xor f g => Boolean.xor f g
  | iff f g => Boolean.iff f g
  | implies f g => Boolean.implies f g
  | ite c f g => Boolean.iteBool c f g

theorem truth_congr {v w : α → Bool} {c : Combination α} (h : ∀ f ∈ c.operands, v f = w f) :
    c.truth v = c.truth w := by
  cases c with
  | nary j fs =>
    have hfs : fs.map v = fs.map w := List.map_congr_left h
    rw [truth, truth, hfs]
  | _ => simp_all [truth, operands]

end Combination

namespace Environment

variable {env env' : Environment} {f : BoolFormula}

/-- A formula of the environment over a boolean term of its store. -/
structure Owned (env : Environment) (f : BoolFormula) : Prop where
  owner : f.formula.owner = env.id
  sort : env.terms.sort? f.term = some .bool

/-- What a formula says in a structure. -/
noncomputable def truth {A : TermSort → TermSort → Type} (env : Environment) (M : Structure A)
    (ρ : Binding A) (f : BoolFormula) : Bool :=
  (env.terms.tree? f.term).any (Tree.truth M ρ)

theorem Owned.exists_reads (henv : env.Proper) (h : env.Owned f) :
    ∃ x, env.Reads f (.own x) := by
  obtain ⟨n, hn⟩ : ∃ n, env.terms.node? f.term = some n := by
    have hsort := h.sort
    rw [Store.sort?] at hsort
    exact ⟨_, (Option.map_eq_some_iff.1 hsort).choose_spec.1⟩
  obtain ⟨xs, -, hx⟩ := henv.wellFormed.tree? hn
  refine ⟨_, h.owner, hx, ?_⟩
  exact Option.some.inj ((henv.wellFormed.sort?_of_tree? hx).symm.trans h.sort)

theorem Reads.owned {x : Tree} (henv : env.Proper) (h : env.Reads f (.own x)) : env.Owned f :=
  ⟨h.1, h.2.1.sort? henv h.2.2⟩

theorem Reads.truth {A : TermSort → TermSort → Type} {M : Structure A} {ρ : Binding A} {x : Tree}
    (h : env.Reads f (.own x)) : env.truth M ρ f = x.truth M ρ := by
  rw [Environment.truth, h.2.1, Option.any_some]

end Environment

open Environment

namespace Combination

variable {env : Environment}

/-- One tree for each constructor, that says what the connective does. -/
theorem computes_make (henv : env.Proper) (c : Combination BoolFormula) {x : BoolFormula → Tree}
    (hx : ∀ f ∈ c.operands, env.Reads f (.own (x f))) :
    ∃ y, Computes env Reads c.make (.ok (.own y)) ∧
      ∀ (A : TermSort → TermSort → Type) (M : Structure A) (ρ : Binding A),
        y.truth M ρ = c.truth fun f => (x f).truth M ρ := by
  have hp : ∀ f ∈ c.operands, (x f).Proposition := fun f hf => (hx f hf).proposition henv
  cases c with
  | not f =>
    have hf := hx f (by simp [operands])
    exact ⟨_, computes_not henv hf, fun A M ρ => Tree.truth_negation (hf.proposition henv)⟩
  | junction j f g =>
    have hf := hx f (by simp [operands])
    have hg := hx g (by simp [operands])
    refine ⟨_, computes_joined j henv hf hg, fun A M ρ => ?_⟩
    exact ((Tree.judges_truth M ρ).joined j ⟨hf.proposition henv, rfl⟩
      ⟨hg.proposition henv, rfl⟩).2
  | nary j fs =>
    have hreads : env.ReadsAll fs ((fs.map x).map .own) := by
      rw [ReadsAll, List.map_map, List.forall₂_map_right_iff, List.forall₂_same]
      exact hx
    obtain ⟨y, hy⟩ : ∃ y, Tree.nary j ((fs.map x).map .own) = .ok y := by
      obtain ⟨out, hout⟩ := Tree.exists_gather j [] (fs.map x)
      exact ⟨_, by rw [Tree.nary, hout]; rfl⟩
    have hcomputes := computes_nary j henv hreads
    rw [hy] at hcomputes
    refine ⟨y, hcomputes, fun A M ρ => ?_⟩
    rw [(Tree.truth_nary (List.forall_mem_map.2 hp) hy).2, List.map_map]
    rfl
  | xor f g =>
    have hf := hx f (by simp [operands])
    have hg := hx g (by simp [operands])
    refine ⟨_, computes_xor henv hf hg, fun A M ρ => ?_⟩
    have hiff : (Tree.connective .iff [x f, x g]).Proposition :=
      Tree.proposition_connective ⟨rfl, rfl⟩
        (by simp [hf.proposition henv, hg.proposition henv])
    rw [Tree.truth_not hiff, Tree.truth_iff (hf.proposition henv) (hg.proposition henv)]
    rfl
  | iff f g =>
    have hf := hx f (by simp [operands])
    have hg := hx g (by simp [operands])
    exact ⟨_, computes_iff henv hf hg,
      fun A M ρ => Tree.truth_iff (hf.proposition henv) (hg.proposition henv)⟩
  | implies f g =>
    have hf := hx f (by simp [operands])
    have hg := hx g (by simp [operands])
    exact ⟨_, computes_implies henv hf hg,
      fun A M ρ => Tree.truth_implies (hf.proposition henv) (hg.proposition henv)⟩
  | ite c f g =>
    have hc := hx c (by simp [operands])
    have hf := hx f (by simp [operands])
    have hg := hx g (by simp [operands])
    exact ⟨_, computes_ite henv hc hf hg, fun A M ρ => Tree.truth_ite (hc.proposition henv)
      (hf.proposition henv) (hg.proposition henv)⟩

/-- A combination of formulas of a proper environment is made, and in every structure it says what
the connective says of the operands. What formulas said before, they say after it. -/
theorem truth_make (henv : env.Proper) (c : Combination BoolFormula)
    (h : ∀ f ∈ c.operands, env.Owned f) :
    ∃ g env', c.make.exec env = (.ok g, env') ∧ env'.Proper ∧ env'.Owned g ∧
      ∀ (A : TermSort → TermSort → Type) (M : Structure A) (ρ : Binding A),
        env'.truth M ρ g = c.truth (env.truth M ρ) ∧
        ∀ f, env.Owned f → env'.Owned f ∧ env'.truth M ρ f = env.truth M ρ f := by
  have hreads : ∀ f, ∃ x, f ∈ c.operands → env.Reads f (.own x) := fun f => by
    by_cases hf : f ∈ c.operands
    · obtain ⟨x, hx⟩ := (h f hf).exists_reads henv
      exact ⟨x, fun _ => hx⟩
    · exact ⟨.constant false, fun hf' => absurd hf' hf⟩
  choose x hx using hreads
  obtain ⟨y, hy, htruth⟩ := c.computes_make henv hx
  obtain ⟨g, env', hrun, ha, hg⟩ := hy.exists_ok
  have henv' := ha.proper henv
  refine ⟨g, env', hrun, henv', hg.owned henv', fun A M ρ => ⟨?_, fun f hf => ?_⟩⟩
  · rw [hg.truth, htruth]
    exact truth_congr fun f hf => (hx f hf).truth.symm
  · obtain ⟨z, hz⟩ := hf.exists_reads henv
    exact ⟨(hz.advance henv ha).owned henv', (hz.advance henv ha).truth.trans hz.truth.symm⟩

/-- Two constants, the conjunction of one with itself, and that of both. -/
def repeated : Environment :=
  { Environment.new 0 .everything false false false with
    terms := Store.empty.serveAll
      [.construct (.constant "p" .bool), .construct (.constant "q" .bool),
        .construct (.and [⟨0⟩, ⟨0⟩]), .construct (.and [⟨0⟩, ⟨1⟩])] }

/-- Operands that share a term twice are not factored; the disjunction is one all the same. -/
theorem truth_make_repeated :
    let f : BoolFormula := ⟨⟨⟨2⟩, .boolean, 0, none⟩, rfl⟩
    let g : BoolFormula := ⟨⟨⟨3⟩, .boolean, 0, none⟩, rfl⟩
    repeated.Proper ∧ repeated.Owned f ∧ repeated.Owned g ∧
    ∃ h env', (junction .or f g).make.exec repeated = (.ok h, env') ∧ env'.Owned h ∧
      ∀ (A : TermSort → TermSort → Type) (M : Structure A) (ρ : Binding A),
        env'.truth M ρ h = (repeated.truth M ρ f || repeated.truth M ρ g) := by
  intro f g
  have henv : repeated.Proper := ⟨Store.wellFormed_serveAll _, rfl⟩
  have hf : repeated.Owned f := ⟨rfl, by decide +kernel⟩
  have hg : repeated.Owned g := ⟨rfl, by decide +kernel⟩
  obtain ⟨h, env', hrun, -, hh, htruth⟩ :=
    truth_make henv (junction .or f g) (by simp [operands, hf, hg])
  refine ⟨henv, hf, hg, h, env', hrun, hh, fun A M ρ => ?_⟩
  rw [(htruth A M ρ).1]
  simp [truth, Junction.combine]

end Combination
end FormulaStack
