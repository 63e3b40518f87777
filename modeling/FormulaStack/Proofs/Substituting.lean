import FormulaStack.Proofs.Canonicity
import FormulaStack.Proofs.Imaging

/-!
Maps that put formulas for atoms. What such a map returns is as true as the formula it was given is
with its atoms read as their images, whatever the constructors simplify on the way.
-/
namespace FormulaStack

open Effect Environment

variable {τ : Type} {env env' : Environment} {f : BoolFormula} {x : Tree} {s : τ}

namespace Tree.Substitution

/-- Atoms fail or have the images of a substitution. -/
def Allows (σ : Substitution) : Outcomes := fun a o => ∀ r, o = .ok r → .own (σ.image a) = r

/-- Trees for others, of several for one the last. -/
def ofPairs (pairs : List (Tree × Tree)) (h : ∀ q ∈ pairs, q.2.Proposition) : Substitution where
  image a := ((pairs.reverse.find? (·.1 = a)).map (·.2)).getD a
  proposition a _ ha := by
    cases hq : pairs.reverse.find? (·.1 = a) with
    | none => exact ha
    | some q => exact h q (List.mem_reverse.1 (List.mem_of_find?_eq_some hq))

end Tree.Substitution

namespace FormulaMap

theorem answers_copy (env : Environment) :
    Answers env (Exactly .own)
      (fun f => Visit.inEnvironment f.copy : BoolFormula → Visit τ BoolFormula) := by
  intro env' s f x _ henv hf _
  have hcopy := computes_copy hf henv
  exact ⟨hcopy.advances, _, rfl, hcopy.agrees⟩

/-- The map that puts formulas for others, the last of several, is a substitution. -/
theorem answers_substitution {pairs : List (BoolFormula × BoolFormula)} {trees : List (Tree × Tree)}
    (henv : env.Proper) (refused : Option BoolFormula)
    (h : List.Forall₂ (fun p q => env.Reads p.1 (.own q.1) ∧ env.Reads p.2 (.own q.2)) pairs trees)
    (htrees : ∀ q ∈ trees, q.2.Proposition) :
    Answers env (Tree.Substitution.ofPairs trees htrees).Allows
      (substitution pairs refused).onAtom := by
  intro env' s f x ha henv' hf _
  have hpairs : List.Forall₂ (fun p q => env'.Reads p.1 (.own q.1) ∧ env'.Reads p.2 q.2)
      pairs.reverse (trees.reverse.map fun q => (q.1, .own q.2)) := by
    rw [List.forall₂_map_right_iff, List.forall₂_reverse_iff]
    exact h.imp fun _ _ hp => ⟨hp.1.advance henv ha, hp.2.advance henv ha⟩
  have hfound := find?_pairs henv' hpairs hf
  rw [List.find?_map] at hfound
  let image := (Tree.Substitution.ofPairs trees htrees).image x
  have hcopied : ∀ g, env'.Reads g (.own image) → env'.Advances (env'.retain g.formula) ∧
      ∃ o, (Tree.Substitution.ofPairs trees htrees).Allows x o ∧
        Agree (env'.retain g.formula).Reads (.ok g) o := by
    intro g hg
    have ha' := env'.advances_retain g.formula
    exact ⟨ha', .ok (.own image), fun r hr => Except.ok.inj hr, .ok (hg.advance henv' ha')⟩
  unfold substitution
  simp only [exec_bind, exec_update]
  split
  · exact ⟨.refl env', .error _, nofun, .error _⟩
  · generalize hp : pairs.reverse.find? (·.1 == f) = p at hfound ⊢
    generalize hq : trees.reverse.find? _ = q at hfound
    have himage : image = (q.map (·.2)).getD x := by
      rw [← hq]
      rfl
    rw [himage] at hcopied
    cases q with
    | none =>
      cases hfound
      exact hcopied f hf
    | some q =>
      cases hfound with
      | some hg => exact hcopied _ hg.2

theorem exec_apply (r : FormulaMap τ) (s : τ) (f : BoolFormula) (env : Environment) :
    (r.apply s f).exec env =
      (.ok (((r.image f).exec ((env, s), [])).1, ((r.image f).exec ((env, s), [])).2.1.2,
          ((r.image f).exec ((env, s), [])).2.2.length),
        discardAll ((r.image f).exec ((env, s), [])).2.2.formulas
          ((r.image f).exec ((env, s), [])).2.1.1) := rfl

/-- From what an atom may have become to what the formula has become. -/
theorem apply_agrees {G : Outcomes} {hook : BoolFormula → Visit τ BoolFormula} {σ : Tree → Reading}
    (hσ : ∀ a r, a.isAtom = true → G a (.ok r) → σ a = r) (henv : env.Proper)
    (hf : env.Reads f (.own x)) (hhook : Answers env G hook) (s : τ) :
    ∃ out s' n env', ((onAtoms hook).apply s f).exec env = (.ok (out, s', n), env') ∧
      env.Advances env' ∧
      match out with
      | .ok g => ∃ r, x.rebuild σ = .ok r ∧ env'.Reads g r
      | .error e => (∃ a, x.Reaches a ∧ a.isAtom = true ∧ G a (.error e)) ∨
          x.rebuild σ = .error e := by
  obtain ⟨out, env₁, s', images, hrun, ha, hout⟩ := image_agrees hσ hhook (.refl env)
    (tracks_start G henv s) (by simp [Record.PendingAbove]) hf
  have ha' := env₁.advances_discardAll images.formulas
  refine ⟨out, s', images.length, _, by rw [exec_apply, hrun], ha.trans ha', ?_⟩
  cases out with
  | ok g =>
    obtain ⟨r, hr, hg⟩ := hout
    exact ⟨r, hr, hg.advance (ha.proper henv) ha'⟩
  | error e => exact hout

/-- A map of atoms to formulas is a substitution: what it returns has the truth value of the formula
with its atoms read as their images, under all values of the bound variables. The plain map returns
an equivalent formula, unless it comes to a term that no visit can enter. -/
theorem apply_substitutes (σ : Tree.Substitution) {hook : BoolFormula → Visit τ BoolFormula}
    (henv : env.Proper) (hf : env.Reads f (.own x)) (hhook : Answers env σ.Allows hook) (s : τ) :
    (∀ g s' n env', ((onAtoms hook).apply s f).exec env = (.ok (.ok g, s', n), env') →
      ∃ y, env'.Reads g (.own y) ∧
        ∀ (A : TermSort → TermSort → Type) (M : Structure A) (ρ : Binding A),
          y.truth M ρ = x.truthWith (fun a ρ => (σ.image a).truth M ρ) ρ) ∧
    ∃ out s' n env', (plain.apply s f).exec env = (.ok (out, s', n), env') ∧
      match out with
      | .ok g => ∃ y, env'.Reads g (.own y) ∧
          ∀ (A : TermSort → TermSort → Type) (M : Structure A) (ρ : Binding A),
            y.truth M ρ = x.truth M ρ
      | .error _ => ∃ y, x.Reaches y ∧ y.isRefused = true := by
  have hx : x.Proposition := hf.proposition henv
  constructor
  · intro g s' n env' hrun
    obtain ⟨out, s₁, n₁, env₁, hrun₁, -, hout⟩ :=
      apply_agrees (fun a r _ h => h r rfl) henv hf hhook s
    rw [hrun] at hrun₁
    cases hrun₁
    obtain ⟨r, hr, hg⟩ := hout
    obtain ⟨y, rfl, -, hy⟩ := Tree.truth_rebuild σ hx hr
    exact ⟨y, hg, hy⟩
  · let same : Tree.Substitution := ⟨id, fun _ _ h => h⟩
    obtain ⟨out, s', n, env', hrun, -, hout⟩ :=
      apply_agrees (fun a r _ h => Exactly.eq h) henv hf (answers_copy env) s
    refine ⟨out, s', n, env', hrun, ?_⟩
    cases out with
    | ok g =>
      obtain ⟨r, hr, hg⟩ := hout
      obtain ⟨y, rfl, -, hy⟩ := Tree.truth_rebuild same hx hr
      exact ⟨y, hg, fun A M ρ => (hy A M ρ).trans (Tree.truthWith_truth hx)⟩
    | error e =>
      by_contra hno
      obtain ⟨y, hy⟩ := Tree.exists_rebuild id hx fun y hxy => by
        simpa using fun h => hno ⟨y, hxy, h⟩
      obtain ⟨a, -, -, h⟩ | h := hout
      · cases h
      · exact absurd (hy.symm.trans h) nofun

/-- Two constants, and the negation of their conjunction. -/
def conjoined : Environment :=
  { Environment.new 0 .everything false false false with
    terms := Store.empty.serveAll
      [.construct (.constant "p" .bool), .construct (.constant "q" .bool),
        .construct (.and [⟨0⟩, ⟨1⟩]), .construct (.not ⟨2⟩)] }

/-- With the second constant in the place of the first. -/
theorem apply_substitutes_conjoined :
    let p : BoolFormula := ⟨⟨⟨0⟩, .boolean, 0, none⟩, rfl⟩
    let q : BoolFormula := ⟨⟨⟨1⟩, .boolean, 0, none⟩, rfl⟩
    let f : BoolFormula := ⟨⟨⟨3⟩, .boolean, 0, none⟩, rfl⟩
    let y : Tree := .node (.apply ⟨"q", [], .bool⟩) .bool []
    ∃ g s' n env', ((substitution [(p, q)] none).apply 0 f).exec conjoined =
        (.ok (.ok g, s', n), env') ∧
      ∃ z, env'.Reads g (.own z) ∧
        ∀ (A : TermSort → TermSort → Type) (M : Structure A) (ρ : Binding A),
          z.truth M ρ = !y.truth M ρ := by
  intro p q f y
  let x : Tree := .node (.apply ⟨"p", [], .bool⟩) .bool []
  have henv : conjoined.Proper := ⟨Store.wellFormed_serveAll _, rfl⟩
  have hp : conjoined.Reads p (.own x) := ⟨rfl, by unfold Shows; decide +kernel, rfl⟩
  have hq : conjoined.Reads q (.own y) := ⟨rfl, by unfold Shows; decide +kernel, rfl⟩
  have hf : conjoined.Reads f (.own (.connective .not [.connective .and [x, y]])) :=
    ⟨rfl, by unfold Shows; decide +kernel, rfl⟩
  have hrun : (match ((substitution [(p, q)] none).apply 0 f).exec conjoined with
      | (.ok (.ok _, _), _) => true
      | _ => false) = true := by decide +kernel
  have hpairs : List.Forall₂ (fun (p : BoolFormula × BoolFormula) (r : Tree × Tree) =>
      conjoined.Reads p.1 (.own r.1) ∧ conjoined.Reads p.2 (.own r.2)) [(p, q)] [(x, y)] :=
    .cons ⟨hp, hq⟩ .nil
  have htrees : ∀ r ∈ [(x, y)], r.2.Proposition := by simpa using hq.proposition henv
  let σ : Tree.Substitution := .ofPairs [(x, y)] htrees
  have hx : σ.image x = y := by
    change (([(x, y)].reverse.find? (·.1 = x)).map (·.2)).getD x = y
    decide +kernel
  have hy : σ.image y = y := by
    change (([(x, y)].reverse.find? (·.1 = y)).map (·.2)).getD y = y
    decide +kernel
  obtain ⟨himage, -⟩ := apply_substitutes σ henv hf
    (answers_substitution henv none hpairs htrees) 0
  rcases hout : ((substitution [(p, q)] none).apply 0 f).exec conjoined with
    ⟨_ | ⟨_ | g, s', n⟩, env'⟩ <;> rw [hout] at hrun
  · cases hrun
  · cases hrun
  · obtain ⟨z, hz, htruth⟩ := himage g s' n env' hout
    refine ⟨g, s', n, env', rfl, z, hz, fun A M ρ => ?_⟩
    rw [htruth]
    simp [Tree.truthWith_eq, Tree.isAtom, Tree.connect?, Tree.connective, Tree.label, Tree.args,
      hx, hy, x, y]

end FormulaMap
end FormulaStack
