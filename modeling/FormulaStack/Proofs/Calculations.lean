import FormulaStack.Proofs.Exactness
import FormulaStack.Proofs.Managers
import FormulaStack.Proofs.Models

/-!
Calculations. From formulas with exact values the managers of truth values and numbers make formulas
with exact values, and refuse none of the right types.
-/
namespace FormulaStack

open Environment

namespace Environment

variable {α β : Type} {env env₁ : Environment} {t u : Term} {k : TermSort} {v w : Value}
  {f g : Formula} {τ : FormulaType}

/-- Work that succeeds, with a result that `R` holds of. -/
def Yields (env : Environment) (R : Environment → α → Prop) (e : Effect Environment α) : Prop :=
  ∃ a env₁, e.exec env = (.ok a, env₁) ∧ env.Continues env₁ ∧ R env₁ a

namespace Yields

variable {R : Environment → α → Prop} {S : Environment → β → Prop} {e : Effect Environment α}
  {p : α → Effect Environment β}

theorem pure {a : α} (h : R env a) : env.Yields R (Pure.pure a) :=
  ⟨a, env, rfl, Std.Refl.refl env, h⟩

theorem bind (h : env.Yields R e)
    (hp : ∀ a env₁, env.Continues env₁ → R env₁ a → env₁.Yields S (p a)) :
    env.Yields S (e >>= p) := by
  obtain ⟨a, env₁, hx, hc, ha⟩ := h
  obtain ⟨b, env₂, hy, hc₂, hb⟩ := hp a env₁ hc ha
  exact ⟨b, env₂, by rw [Effect.exec_bind_ok hx, hy], Trans.trans hc hc₂, hb⟩

theorem mono {R' : Environment → α → Prop} (h : env.Yields R e)
    (hR : ∀ env₁ a, R env₁ a → R' env₁ a) : env.Yields R' e := by
  obtain ⟨a, env₁, hx, hc, ha⟩ := h
  exact ⟨a, env₁, hx, hc, hR env₁ a ha⟩

theorem ask_bind {q : Environment → Except Fault α} {a : α} (h : q env = .ok a)
    (hp : env.Yields S (p a)) : env.Yields S (.ask q >>= p) := by
  obtain ⟨b, env₁, hx, hc, hb⟩ := hp
  exact ⟨b, env₁, by rw [Effect.exec_ask_bind_ok h, hx], hc, hb⟩

theorem look_bind {q : Environment → α} (hp : env.Yields S (p (q env))) :
    env.Yields S (.look q >>= p) := by
  obtain ⟨b, env₁, hx, hc, hb⟩ := hp
  exact ⟨b, env₁, by rw [Effect.exec_bind_ok (Effect.exec_look q env), hx], hc, hb⟩

theorem of_computes {γ : Type} {R : Environment → α → γ → Prop} {c : γ}
    (h : Computes env R e (.ok c)) (hc : Effect.Within Continues e) :
    env.Yields (fun env₁ a => R env₁ a c) e := by
  obtain ⟨a, env₁, hx, -, ha⟩ := h.exists_ok
  have henv := hc env
  rw [hx] at henv
  exact ⟨a, env₁, hx, henv, ha⟩

/-- One piece of work after the other, for each element of a list. -/
theorem mapM {γ δ : Type} {P : Environment → γ → δ → Prop} {Q : Environment → α → δ → Prop}
    {work : γ → Effect Environment α}
    (hP : ∀ {env env₁ c d}, env.Orderly → env.Continues env₁ → P env c d → P env₁ c d)
    (hQ : ∀ {env env₁ a d}, env.Orderly → env.Continues env₁ → Q env a d → Q env₁ a d)
    (hwork : ∀ {env₁ c d}, env₁.Orderly → env.Continues env₁ → P env₁ c d →
      env₁.Yields (fun env a => Q env a d) (work c))
    (henv : env.Orderly) {cs : List γ} {ds : List δ} (h : List.Forall₂ (P env) cs ds) :
    env.Yields (fun env as => List.Forall₂ (Q env) as ds) (cs.mapM work) := by
  suffices ∀ env₁, env.Continues env₁ → List.Forall₂ (P env₁) cs ds →
      env₁.Yields (fun env as => List.Forall₂ (Q env) as ds) (cs.mapM work) from
    this env (Std.Refl.refl env) h
  clear h
  induction cs generalizing ds with
  | nil =>
    intro env₁ _ h
    cases h
    exact pure .nil
  | cons c cs ih =>
    intro env₁ hc₁ h
    obtain ⟨d, ds, hd, hds, rfl⟩ := List.forall₂_cons_left_iff.1 h
    have henv₁ := hc₁.orderly henv
    rw [List.mapM_cons]
    refine bind (hwork henv₁ hc₁ hd) fun a env₂ hc₂ ha => ?_
    have hds₂ := hds.imp fun _ _ hd => hP henv₁ hc₂ hd
    refine bind (ih env₂ (Trans.trans hc₁ hc₂) hds₂) fun as env₃ hc₃ has => ?_
    exact pure (.cons (hQ (hc₂.orderly henv₁) hc₃ ha) has)

end Yields

/-- A term of a sort that has an exact value. -/
def ExactTerm (k : TermSort) (env : Environment) (t : Term) (v : Value) : Prop :=
  ∃ x, env.Shows t x ∧ x.sort = k ∧ x.known? = some v

/-- A formula of a type that has an exact value. -/
structure ExactFormula (τ : FormulaType) (env : Environment) (f : Formula) (v : Value) : Prop where
  owner : f.owner = env.id
  type : f.type = τ
  term : ∃ k : TermSort, k.type = τ ∧ ExactTerm k env f.term v

theorem ExactTerm.continue (h : ExactTerm k env t v) (henv : env.Orderly)
    (hc : env.Continues env₁) : ExactTerm k env₁ t v := by
  obtain ⟨x, ht, hk, hv⟩ := h
  exact ⟨x, hc.tree? henv ht, hk, hv⟩

theorem ExactFormula.continue (h : ExactFormula τ env f v) (henv : env.Orderly)
    (hc : env.Continues env₁) : ExactFormula τ env₁ f v := by
  obtain ⟨k, hk, ht⟩ := h.term
  exact ⟨h.owner.trans hc.id.symm, h.type, k, hk, ht.continue henv hc⟩

theorem ExactTerm.sort? (h : ExactTerm k env t v) (henv : env.Orderly) :
    env.terms.sort? t = some k := by
  obtain ⟨x, ht, rfl, -⟩ := h
  exact henv.wellFormed.sort?_of_tree? ht

theorem ExactTerm.typeOf (h : ExactTerm k env t v) (henv : env.Orderly) :
    env.typeOf t = .ok k.type := by
  obtain ⟨x, ht, rfl, -⟩ := h
  exact ht.typeOf henv.proper

theorem ExactFormula.unwrap (h : ExactFormula τ env f v) : env.unwrap f = .ok f.term :=
  if_pos h.owner

/-- The trees of terms that have exact values. -/
theorem exists_exacts {ts : List Term} {vs : List Value}
    (h : List.Forall₂ (fun t v => ∃ k, ExactTerm k env t v) ts vs) :
    ∃ xs, env.ShowsAll ts xs ∧ Tree.Exacts xs vs := by
  obtain ⟨xs, hxs, hvs⟩ := exists_of_forall₂_comp (h.imp fun _ _ ⟨_, x, hx, _, hv⟩ => ⟨x, hx, hv⟩)
  exact ⟨xs, hxs.flip, hvs⟩

/-- A node over terms that have exact values. -/
theorem yields_node {o : Operator} {ts : List Term} {vs : List Value} (henv : env.Orderly)
    (c : Constructor) (hb : c.build env.terms = .ok (env.terms.intern ⟨o, ts, k⟩))
    (hts : List.Forall₂ (fun t v => ∃ k, ExactTerm k env t v) ts vs) (hv : o.known? vs = some v)
    (hop : ∀ d, o ≠ .apply d) :
    env.Yields (fun env t => ExactTerm k env t v) (build c.build) := by
  obtain ⟨xs, hxs, hvs⟩ := exists_exacts hts
  have hcomputes := computes_build henv.proper hb c.grows hxs hop
  refine (Yields.of_computes hcomputes (build_continues c.grows)).mono fun env₁ t ht => ?_
  exact ⟨_, ht, rfl, Tree.known?_node.2 ⟨vs, hvs, hv⟩⟩

theorem yields_wrap (henv : env.Orderly) (hk : k.type = τ) (ht : ExactTerm k env t v) :
    env.Yields (fun env f => ExactFormula τ env f v) (wrap τ t) := by
  have haccepts : τ.accepts k.type = true := hk ▸ FormulaType.accepts_self _
  obtain ⟨ticket, handles, hx⟩ := exec_wrap (ht.sort? henv) haccepts
  have hc := env.continues_handles handles
  exact ⟨_, _, hx, hc, rfl, rfl, k, hk, ht.continue henv hc⟩

theorem yields_wrapBool (henv : env.Orderly) (ht : ExactTerm .bool env t v) :
    env.Yields (fun env p => ExactFormula .boolean env p.formula v) (wrapBool t) := by
  obtain ⟨x, hx, hk, hv⟩ := ht
  refine (Yields.of_computes (computes_wrapBool henv.proper hx hk) (wrapBool_continues t)).mono
    fun env₁ p hp => ⟨hp.1, p.isBoolean, .bool, rfl, x, hp.2.1, hk, hv⟩

/-- A node of a type, made and wrapped. -/
theorem yields_construct_wrap {o : Operator} {ts : List Term} {vs : List Value} (henv : env.Orderly)
    (c : Constructor) (hb : c.build env.terms = .ok (env.terms.intern ⟨o, ts, k⟩))
    (hts : List.Forall₂ (fun t v => ∃ k, ExactTerm k env t v) ts vs) (hv : o.known? vs = some v)
    (hop : ∀ d, o ≠ .apply d) (hk : k.type = τ) :
    env.Yields (fun env f => ExactFormula τ env f v) (do wrap τ (← build c.build)) :=
  (yields_node henv c hb hts hv hop).bind fun _ _ hc ht => yields_wrap (hc.orderly henv) hk ht

theorem yields_construct_wrapBool {o : Operator} {ts : List Term} {vs : List Value}
    (henv : env.Orderly) (c : Constructor)
    (hb : c.build env.terms = .ok (env.terms.intern ⟨o, ts, .bool⟩))
    (hts : List.Forall₂ (fun t v => ∃ k, ExactTerm k env t v) ts vs) (hv : o.known? vs = some v)
    (hop : ∀ d, o ≠ .apply d) :
    env.Yields (fun env p => ExactFormula .boolean env p.formula v)
      (do wrapBool (← build c.build)) :=
  (yields_node henv c hb hts hv hop).bind fun _ _ hc ht => yields_wrapBool (hc.orderly henv) ht

/-- A claim that has an exact truth value. -/
def ExactClaim (env : Environment) (p : BoolFormula) (b : Bool) : Prop :=
  ExactFormula .boolean env p.formula (.truth b)

theorem ExactClaim.continue {p : BoolFormula} {b : Bool} (h : ExactClaim env p b)
    (henv : env.Orderly) (hc : env.Continues env₁) : ExactClaim env₁ p b :=
  ExactFormula.continue h henv hc

end Environment

/-! Truth values -/

namespace Boolean

variable {env : Environment} {p q r : BoolFormula} {a b c : Bool}

/-- An exact claim, as trees have it. -/
theorem exists_exactTruth (henv : env.Orderly) (hp : ExactClaim env p b) :
    ∃ x, env.Reads p (.own x) ∧ Tree.ExactTruth x b := by
  obtain ⟨k, hk, x, hx, hs, hv⟩ := hp.term
  have hbool : x.sort = .bool := hs.trans (TermSort.type_injective hk)
  exact ⟨x, ⟨hp.owner, hx, hbool⟩, ⟨henv.wellFormed.wellSorted_of_tree? hx, hbool⟩, hv⟩

theorem exactClaim_of_reads {x : Tree} (hp : env.Reads p (.own x)) (hx : Tree.ExactTruth x b) :
    ExactClaim env p b :=
  ⟨hp.1, p.isBoolean, .bool, rfl, x, hp.2.1, hp.2.2, hx.value⟩

/-- Work that computes a tree of an exact truth value. -/
theorem yields_of_computes {e : Effect Environment BoolFormula} {x : Tree}
    (h : Computes env Reads e (.ok (.own x))) (hx : Tree.ExactTruth x b)
    (hc : Effect.Within Continues e) : env.Yields (fun env p => ExactClaim env p b) e :=
  (Yields.of_computes h hc).mono fun _ _ hp => exactClaim_of_reads hp hx

section

variable (henv : env.Orderly)
include henv

theorem exact_constant (b : Bool) : env.Yields (fun env p => ExactClaim env p b) (constant b) :=
  yields_of_computes (computes_constant henv.proper b) (Tree.judges_exactTruth.constant b)
    (constant_continues b)

theorem exact_not (hp : ExactClaim env p b) :
    env.Yields (fun env p => ExactClaim env p (!b)) (Boolean.not p) := by
  obtain ⟨x, hx, hb⟩ := exists_exactTruth henv hp
  refine yields_of_computes (computes_not henv.proper hx) (Tree.judges_exactTruth.negation hb) ?_
  refine .bind (.ask _) fun t => .bind (.ask _) fun k => .bind (.ask _) fun ts => ?_
  split
  · exact wrapBool_continues _
  · exact .bind (build_continues (.not t)) fun u => wrapBool_continues u

theorem exact_junction (j : Junction) (hp : ExactClaim env p a) (hq : ExactClaim env q b) :
    env.Yields (fun env p => ExactClaim env p (j.combine [a, b])) (junction j p q) := by
  obtain ⟨x, hx, ha⟩ := exists_exactTruth henv hp
  obtain ⟨y, hy, hb⟩ := exists_exactTruth henv hq
  exact yields_of_computes (computes_joined j henv.proper hx hy)
    (Tree.judges_exactTruth.joined j ha hb) (junction_continues j p q)

theorem exact_nary (j : Junction) {ps : List BoolFormula} {bs : List Bool}
    (hps : List.Forall₂ (ExactClaim env) ps bs) :
    env.Yields (fun env p => ExactClaim env p (j.combine bs)) (nary j ps) := by
  obtain ⟨xs, hxs, hbs⟩ : ∃ xs : List Tree, env.ReadsAll ps (xs.map .own) ∧
      List.Forall₂ Tree.ExactTruth xs bs := by
    induction hps with
    | nil => exact ⟨[], .nil, .nil⟩
    | cons hp _ ih =>
      obtain ⟨x, hx, hb⟩ := exists_exactTruth henv hp
      obtain ⟨xs, hxs, hbs⟩ := ih
      exact ⟨x :: xs, .cons hx hxs, .cons hb hbs⟩
  obtain ⟨y, hy, hb⟩ := Tree.judges_exactTruth.nary (j := j) hbs
  have hcomputes := computes_nary j henv.proper hxs
  rw [hy] at hcomputes
  exact yields_of_computes hcomputes hb (nary_continues j ps)

/-- The terms of claims that have exact values. -/
theorem connective_eq_ok {o : Operator} {ts : List Term} {vs : List Value}
    (hts : List.Forall₂ (ExactTerm .bool env) ts vs) :
    Build.connective o ts env.terms = .ok (env.terms.intern ⟨o, ts, .bool⟩) := by
  have hsorts : ∀ t ∈ ts, env.terms.sort? t = some .bool := fun t ht => by
    obtain ⟨v, -, hv⟩ := exists_related hts.flip t ht
    exact ExactTerm.sort? hv henv
  exact Build.connective_of_sorts hsorts

omit henv in
theorem ExactClaim.exactTerm (hp : ExactClaim env p b) : ExactTerm .bool env p.term (.truth b) := by
  obtain ⟨k, hk, ht⟩ := hp.term
  obtain rfl : k = .bool := TermSort.type_injective hk
  exact ht

theorem exact_iff (hp : ExactClaim env p a) (hq : ExactClaim env q b) :
    env.Yields (fun env p => ExactClaim env p (a == b)) (iff p q) := by
  have ht := ExactClaim.exactTerm hp
  have hu := ExactClaim.exactTerm hq
  have hvalue : Operator.known? .iff [.truth a, .truth b] = some (.truth (a == b)) := by
    cases a <;> cases b <;> rfl
  exact .ask_bind hp.unwrap (.ask_bind hq.unwrap (yields_construct_wrapBool henv (.iff _ _)
    (connective_eq_ok henv (.cons ht (.cons hu .nil))) (.cons ⟨_, ht⟩ (.cons ⟨_, hu⟩ .nil)) hvalue
    nofun))

theorem exact_implies (hp : ExactClaim env p a) (hq : ExactClaim env q b) :
    env.Yields (fun env p => ExactClaim env p (!a || b)) (implies p q) := by
  have ht := ExactClaim.exactTerm hp
  have hu := ExactClaim.exactTerm hq
  exact .ask_bind hp.unwrap (.ask_bind hq.unwrap (yields_construct_wrapBool henv (.implies _ _)
    (connective_eq_ok henv (.cons ht (.cons hu .nil))) (.cons ⟨_, ht⟩ (.cons ⟨_, hu⟩ .nil)) rfl
    nofun))

theorem exact_xor (hp : ExactClaim env p a) (hq : ExactClaim env q b) :
    env.Yields (fun env p => ExactClaim env p (a != b)) (xor p q) := by
  have ht := ExactClaim.exactTerm hp
  have hu := ExactClaim.exactTerm hq
  have hvalue : Operator.known? .iff [.truth a, .truth b] = some (.truth (a == b)) := by
    cases a <;> cases b <;> rfl
  refine .ask_bind hp.unwrap (.ask_bind hq.unwrap ?_)
  refine (yields_node henv (.iff _ _) (connective_eq_ok henv (.cons ht (.cons hu .nil)))
    (.cons ⟨_, ht⟩ (.cons ⟨_, hu⟩ .nil)) hvalue nofun).bind fun t env₁ hc₁ ht₁ => ?_
  have henv₁ := hc₁.orderly henv
  exact yields_construct_wrapBool henv₁ (.not t) (connective_eq_ok henv₁ (.cons ht₁ .nil))
    (.cons ⟨_, ht₁⟩ .nil) rfl nofun

variable {f g : Formula} {τ : FormulaType} {v w : Value}

/-- A choice between formulas of one type. -/
theorem exact_choice (hp : ExactClaim env p b) (hf : ExactFormula τ env f v)
    (hg : ExactFormula τ env g w) :
    env.Yields (fun env t => ∃ k : TermSort, k.type = τ ∧ ExactTerm k env t (if b then v else w))
      (choice p f g) := by
  have hc := ExactClaim.exactTerm hp
  obtain ⟨k, hk, ht⟩ := hf.term
  obtain ⟨l, hl, hu⟩ := hg.term
  obtain rfl : l = k := TermSort.type_injective (hl.trans hk.symm)
  have hsorts : ∀ t ∈ [f.term, g.term], env.terms.sort? t = some l := by
    simp [ht.sort? henv, hu.sort? henv]
  have hb := Build.ite_of_sorts (hc.sort? henv) hsorts
  unfold choice
  rw [hf.type, hg.type]
  simp only [ne_eq, not_true_eq_false, if_false]
  refine .ask_bind hp.unwrap (.ask_bind hf.unwrap (.ask_bind hg.unwrap ?_))
  exact (yields_node henv (.ite _ _ _) hb (.cons ⟨_, hc⟩ (.cons ⟨_, ht⟩ (.cons ⟨_, hu⟩ .nil))) rfl
    nofun).mono fun _ _ ht => ⟨l, hl, ht⟩

theorem exact_ite (hp : ExactClaim env p b) (hf : ExactFormula τ env f v)
    (hg : ExactFormula τ env g w) :
    env.Yields (fun env f => ExactFormula τ env f (if b then v else w)) (ite p f g) := by
  refine (exact_choice henv hp hf hg).bind fun t env₁ hc ht => ?_
  obtain ⟨k, hk, ht⟩ := ht
  rw [hf.type]
  exact yields_wrap (hc.orderly henv) hk ht

theorem exact_iteBool (hp : ExactClaim env p a) (hq : ExactClaim env q b)
    (hr : ExactClaim env r c) :
    env.Yields (fun env p => ExactClaim env p (if a then b else c)) (iteBool p q r) := by
  refine (exact_choice henv hp hq hr).bind fun t env₁ hc ht => ?_
  obtain ⟨k, hk, ht⟩ := ht
  obtain rfl : k = .bool := TermSort.type_injective hk
  have hvalue : (if a then Value.truth b else .truth c) = .truth (if a then b else c) := by
    cases a <;> rfl
  rw [hvalue] at ht
  exact yields_wrapBool (hc.orderly henv) ht

end
end Boolean

/-! Integers and rationals -/

namespace NumberDomain

def sort : NumberDomain → TermSort
  | .integers => .int
  | .rationals => .real

theorem type_sort (d : NumberDomain) : d.sort.type = d.type := by
  cases d <;> rfl

theorem numeric (d : NumberDomain) : d.sort = .int ∨ d.sort = .real := by
  cases d <;> simp [sort]

/-- Whether a domain has a number. -/
def Has (d : NumberDomain) (q : Rat) : Prop := d = .integers → q.den = 1

end NumberDomain

namespace Numeral

variable {env : Environment} {d : NumberDomain} {f g : Formula} {a b : Rat}

theorem exact_constant (henv : env.Orderly) (hnumerals : env.theories.numerals = true)
    (ha : d.Has a) :
    env.Yields (fun env f => ExactFormula d.type env f (.number a)) (constant d a) := by
  have hsort : env.sortOf d.type = .ok d.sort := by
    cases d <;> simp [NumberDomain.type, NumberDomain.sort, sortOf, hnumerals]
  unfold constant
  have hif : ¬(d = .integers ∧ a.den ≠ 1) := fun h => h.2 (ha h.1)
  simp only [if_neg hif]
  refine .ask_bind hsort ?_
  cases d with
  | integers =>
    have hden := ha rfl
    have hb : Build.numeral a .int env.terms = .ok (env.terms.intern ⟨.int a.num, [], .int⟩) := by
      unfold Build.numeral
      rw [if_pos hden]
      rfl
    have hvalue : Operator.known? (.int a.num) [] = some (.number a) := by
      rw [Operator.known?, Rat.coe_int_num_of_den_eq_one hden]
    exact yields_construct_wrap henv (.numeral a .int) hb .nil hvalue (by simp) rfl
  | rationals => exact yields_construct_wrap henv (.numeral a .real) rfl .nil rfl (by simp) rfl

/-- A number as a formula that the operators of a domain take. -/
def Operand (d : NumberDomain) (env : Environment) (f : Formula) (q : Rat) : Prop :=
  ∃ τ, d.type.accepts τ = true ∧ ExactFormula τ env f (.number q)

theorem Operand.continue {env₁ : Environment} (h : Operand d env f a) (henv : env.Orderly)
    (hc : env.Continues env₁) : Operand d env₁ f a := by
  obtain ⟨τ, hτ, hf⟩ := h
  exact ⟨τ, hτ, hf.continue henv hc⟩

theorem exact_operand (henv : env.Orderly) (hnumerals : env.theories.numerals = true)
    (h : Operand d env f a) :
    env.Yields (fun env t => ExactTerm d.sort env t (.number a)) (operand d f) := by
  obtain ⟨τ, haccepts, hf⟩ := h
  obtain ⟨k, hk, ht⟩ := hf.term
  unfold operand
  rw [hf.type]
  simp only [if_pos haccepts]
  refine .ask_bind hf.unwrap (.ask_bind (ht.typeOf henv) ?_)
  rw [hk]
  obtain hsame | ⟨hd, rfl⟩ := FormulaType.accepts_iff.1 haccepts
  · have hif : ¬(d.type = .rational ∧ τ = .integer) := by
      rintro ⟨h, rfl⟩
      rw [h] at hsame
      cases hsame
    rw [if_neg hif]
    have htypes : k.type = d.sort.type := hk.trans (hsame.symm.trans d.type_sort.symm)
    obtain rfl := TermSort.type_injective htypes
    exact .pure ht
  · obtain rfl : d = .rationals := by cases d <;> first | rfl | cases hd
    obtain rfl : k = .int := TermSort.type_injective hk
    rw [if_pos ⟨rfl, rfl⟩]
    refine .look_bind ?_
    simp only [hnumerals, if_true]
    have hb := Build.toReal_of_sort (ht.sort? henv)
    exact yields_node henv (.toReal _) hb (.cons ⟨_, ht⟩ .nil) rfl nofun

/-- Numbers as terms of a domain. -/
def ExactNumbers (d : NumberDomain) (env : Environment) (ts : List Term) (qs : List Rat) : Prop :=
  List.Forall₂ (fun t q => ExactTerm d.sort env t (.number q)) ts qs

theorem ExactNumbers.values {ts : List Term} {qs : List Rat} (h : ExactNumbers d env ts qs) :
    List.Forall₂ (fun t v => ∃ k, ExactTerm k env t v) ts (qs.map .number) :=
  List.forall₂_map_right_iff.2 (h.imp fun _ _ ht => ⟨_, ht⟩)

theorem ExactNumbers.sorts {ts : List Term} {qs : List Rat} (h : ExactNumbers d env ts qs)
    (henv : env.Orderly) : ∀ t ∈ ts, env.terms.sort? t = some d.sort := by
  intro t ht
  obtain ⟨q, -, hq⟩ := exists_related h.flip t ht
  exact ExactTerm.sort? hq henv

theorem exact_operands (henv : env.Orderly) (hnumerals : env.theories.numerals = true)
    {fs : List Formula} {qs : List Rat} (h : List.Forall₂ (Operand d env) fs qs) :
    env.Yields (fun env ts => ExactNumbers d env ts qs) (fs.mapM (operand d)) := by
  refine .mapM (P := Operand d) (Q := fun env t q => ExactTerm d.sort env t (.number q))
    (fun henv hc hf => hf.continue henv hc) (fun henv hc ht => ht.continue henv hc)
    (fun henv hc hf => ?_) henv h
  exact exact_operand henv (by rw [hc.theories, hnumerals]) hf

/-- Arithmetic over numbers of one domain. -/
theorem exact_arith (henv : env.Orderly) {op : ArithOp} {ts : List Term} {qs : List Rat}
    (c : Constructor) (hc : c.build = Build.arith op ts) (hts : ExactNumbers d env ts qs)
    (hne : ts ≠ []) (hv : Value.arith op qs = some (.number a)) :
    env.Yields (fun env f => ExactFormula d.type env f (.number a))
      (do wrap d.type (← build c.build)) := by
  have hb : c.build env.terms = .ok (env.terms.intern ⟨.arith op, ts, d.sort⟩) := by
    rw [hc]
    exact Build.arith_of_sorts d.numeric hne (hts.sorts henv)
  refine yields_construct_wrap henv c hb hts.values ?_ nofun d.type_sort
  rw [Operator.known?, Value.numbers?_eq_some.2 rfl]
  exact hv

variable (henv : env.Orderly) (hnumerals : env.theories.numerals = true)
include henv hnumerals

theorem exact_neg (hf : Operand d env f a) :
    env.Yields (fun env f => ExactFormula d.type env f (.number (-a))) (neg d f) :=
  (exact_operand henv hnumerals hf).bind fun t _ hc ht =>
    exact_arith (hc.orderly henv) (.neg t) rfl (.cons ht .nil) (by simp) rfl

theorem exact_sum {fs : List Formula} {qs : List Rat} (h : List.Forall₂ (Operand d env) fs qs) :
    env.Yields (fun env f => ExactFormula d.type env f (.number (qs.foldr (· + ·) 0)))
      (sum d fs) := by
  cases h with
  | nil => exact exact_constant henv hnumerals fun _ => rfl
  | cons hf hfs =>
    cases hfs with
    | nil =>
      refine (exact_operand henv hnumerals hf).bind fun t env₁ hc ht => ?_
      rw [List.foldr_cons, List.foldr_nil, add_zero]
      exact yields_wrap (hc.orderly henv) d.type_sort ht
    | cons hg hfs =>
      refine (exact_operands henv hnumerals (.cons hf (.cons hg hfs))).bind fun ts env₁ hc hts => ?_
      refine exact_arith (hc.orderly henv) (.add ts) rfl hts ?_ rfl
      rintro rfl
      cases hts

/-- The operands of an operator over two. -/
theorem exact_pair {α : Type} {R : Environment → α → Prop}
    {work : Term → Term → Effect Environment α} (hf : Operand d env f a) (hg : Operand d env g b)
    (hwork : ∀ {t u env}, env.Orderly → ExactNumbers d env [t, u] [a, b] →
      env.Yields R (work t u)) :
    env.Yields R (do work (← operand d f) (← operand d g)) := by
  refine (exact_operand henv hnumerals hf).bind fun t env₁ hc ht => ?_
  have henv₁ := hc.orderly henv
  have hnumerals₁ : env₁.theories.numerals = true := by rw [hc.theories, hnumerals]
  refine (exact_operand henv₁ hnumerals₁ (hg.continue henv hc)).bind fun u env₂ hc₂ hu => ?_
  exact hwork (hc₂.orderly henv₁) (.cons (ht.continue henv₁ hc₂) (.cons hu .nil))

theorem exact_sub (hf : Operand d env f a) (hg : Operand d env g b) :
    env.Yields (fun env f => ExactFormula d.type env f (.number (a - b))) (sub d f g) :=
  exact_pair henv hnumerals hf hg fun henv h =>
    exact_arith henv (.sub _ _) rfl h (by simp) rfl

theorem exact_mul (hf : Operand d env f a) (hg : Operand d env g b) :
    env.Yields (fun env f => ExactFormula d.type env f (.number (a * b))) (mul d f g) :=
  exact_pair henv hnumerals hf hg fun henv h =>
    exact_arith henv (.mul _ _) rfl h (by simp) rfl

theorem exact_div (hf : Operand .rationals env f a) (hg : Operand .rationals env g b)
    (hb : b ≠ 0) :
    env.Yields (fun env f => ExactFormula .rational env f (.number (a / b)))
      (div .rationals f g) := by
  refine exact_pair henv hnumerals hf hg fun {t u env} henv h => ?_
  have hbuild := Build.divide_of_sorts (.inr rfl) (h.sorts henv)
  refine yields_construct_wrap henv (.divide t u) hbuild h.values ?_ nofun rfl
  rw [Operator.known?, Value.numbers?_eq_some.2 rfl]
  exact if_neg hb

/-- A relation between numbers of one domain. -/
theorem exact_compare {op : ArithOp} {holds : Bool} (hop : op ∈ [.lt, .le, .gt, .ge])
    (hv : Value.arith op [a, b] = some (.truth holds)) (hf : Operand d env f a)
    (hg : Operand d env g b) :
    env.Yields (fun env p => ExactClaim env p holds) (relation d (Build.compare op) f g) := by
  refine exact_pair henv hnumerals hf hg fun {t u env} henv h => ?_
  have hb := Build.compare_of_sorts op d.numeric (h.sorts henv)
  refine yields_construct_wrapBool henv (.compare op hop t u) hb h.values ?_ nofun
  rw [Operator.known?, Value.numbers?_eq_some.2 rfl]
  exact hv

theorem exact_eq (hf : Operand d env f a) (hg : Operand d env g b) :
    env.Yields (fun env p => ExactClaim env p (decide (a = b))) (eq d f g) := by
  refine exact_pair henv hnumerals hf hg fun {t u env} henv h => ?_
  have hb := Build.eq_of_sorts (h.sorts henv)
  refine yields_construct_wrapBool henv (.eq t u) hb h.values ?_ nofun
  simp [Operator.known?]

theorem exact_distinct {fs : List Formula} {qs : List Rat}
    (h : List.Forall₂ (Operand d env) fs qs) :
    env.Yields (fun env p => ExactClaim env p (decide qs.Nodup)) (distinct d fs) := by
  have hlen : fs.length = qs.length := h.length_eq
  unfold distinct
  split
  · next hfew =>
    have hnodup : decide qs.Nodup = true := by
      match qs, hlen with
      | [], _ => rfl
      | [q], _ => simp
      | _ :: _ :: _, hlen =>
        rw [hlen, List.length_cons, List.length_cons] at hfew
        omega
    rw [hnodup]
    exact Boolean.exact_constant henv true
  · next hmany =>
    refine (exact_operands henv hnumerals h).bind fun ts env₁ hc hts => ?_
    have henv₁ := hc.orderly henv
    have htwo : 2 ≤ ts.length := by rwa [List.Forall₂.length_eq hts, ← hlen, ← Nat.not_lt]
    have hb := Build.distinct_of_sorts htwo (hts.sorts henv₁)
    refine yields_construct_wrapBool henv₁ (.distinct ts) hb hts.values ?_ nofun
    have hinjective : Function.Injective Value.number := fun _ _ h => Value.number.inj h
    simp only [Operator.known?, List.nodup_map_iff hinjective]

end Numeral
end FormulaStack
