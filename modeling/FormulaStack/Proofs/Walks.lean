import FormulaStack.Proofs.Catalogues
import FormulaStack.Proofs.Connectives
import FormulaStack.Proofs.Descents
import FormulaStack.Proofs.Viewing

/-!
The walks over the boolean sub-formulas and over all sub-terms of a formula are recursive
depth-first walks, whatever the visitor does.
-/
namespace FormulaStack

open Effect Environment

namespace Environment

variable {α β τ : Type} {env env₁ start : Environment} {t u : Term} {n : Node}

theorem Works.advances (h : env.Works env₁) : env.Advances env₁ := by
  rw [h.rest]
  exact ⟨rfl, rfl, h.terms⟩

/-! What a term is does not change -/

theorem Advances.kind (h : env.Advances env₁) (hn : env.terms.node? t = some n) :
    env₁.kind t = env.kind t := by
  unfold Environment.kind Store.node
  rw [h.reported, h.terms.extension.node? t n hn, hn]

theorem Advances.children (h : env.Advances env₁) (hn : env.terms.node? t = some n) :
    env₁.children t = .ok n.args := by
  unfold Environment.children Store.node
  rw [h.terms.extension.node? t n hn]
  rfl

/-- A formula over a term that was there before. -/
theorem Types.of_advances {f : Formula} (h : env₁.Types f) (ha : env.Advances env₁)
    (hn : env.terms.node? f.term = some n) : env.Types f := by
  obtain ⟨k, hk, haccepts⟩ := h.sort
  have hsort : env.terms.sort? f.term = some n.sort := by rw [Store.sort?, hn]; rfl
  rw [ha.terms.extension.sort? hsort] at hk
  exact ⟨h.owner.trans ha.id, k, hsort.trans hk, haccepts⟩

/-! Wrapping the operands of a term -/

/-- Wrapping terms does what wrapping and discarding one does. -/
theorem wrapAll_within {R : Environment → Environment → Prop} [Std.Refl R] [IsTrans _ R]
    {wrapOne : Term → Effect Environment α} {formula : α → Formula}
    (hone : ∀ t, Effect.Within R (wrapOne t)) (hdiscard : ∀ f env, R env (discard f env))
    (ts : List Term) : Effect.Within R (wrapAll wrapOne formula ts) := by
  induction ts with
  | nil => exact .pure []
  | cons t ts ih =>
    exact (hone t).bind fun f => (ih.undoing fun env => hdiscard (formula f) env).bind fun _ =>
      .pure _

theorem wrapAll_works {wrapOne : Term → Effect Environment α} {formula : α → Formula}
    (hone : ∀ t, Effect.Within Works (wrapOne t)) (ts : List Term) :
    Effect.Within Works (wrapAll wrapOne formula ts) :=
  wrapAll_within hone works_discard ts

/-- The wrappers of some terms. -/
structure Wraps (formula : α → Formula) (ts : List Term) (fs : List α) (env : Environment) :
    Prop where
  terms : fs.map (fun f => (formula f).term) = ts
  types : ∀ f ∈ fs, env.Types (formula f)

theorem ensures_wrapAll {wrapOne : Term → Effect Environment α} {formula : α → Formula}
    (hworks : ∀ t, Effect.Within Works (wrapOne t))
    (hone : ∀ t env, (wrapOne t).Ensures env fun f env₁ =>
      (formula f).term = t ∧ env₁.Types (formula f)) (ts : List Term) (env : Environment) :
    (wrapAll wrapOne formula ts).Ensures env (Wraps formula ts) := by
  induction ts generalizing env with
  | nil => exact .pure ⟨rfl, by simp⟩
  | cons t ts ih =>
    refine .bind (hone t env) fun f u hf => .bind (.undoing ((ih u).and
      ((wrapAll_works hworks ts).ensures u))) fun fs v hfs => .pure ⟨?_, ?_⟩
    · rw [List.map_cons, hf.1, hfs.1.terms]
    · exact List.forall_mem_cons.2 ⟨hf.2.evolve hfs.2.evolves, hfs.1.types⟩

theorem ensures_wrapBool (t : Term) (env : Environment) : (wrapBool t).Ensures env fun f env₁ =>
    f.formula.term = t ∧ env₁.Types f.formula := by
  refine .and (.ask_bind fun actual _ => ?_) (wrapBool_types t env)
  split
  · rintro _ _ ⟨⟩
    rfl
  · exact .throw_bind _

theorem ensures_wrapped (t : Term) (env : Environment) : (wrapAsIs t).Ensures env fun g env₁ =>
    g.term = t ∧ env₁.Types g :=
  ((ensures_wrapAsIs t env).and (wrapAsIs_types t env)).mono fun _ _ h => ⟨h.1.2, h.2⟩

end Environment

namespace BoolFormula

open Environment

variable {τ : Type} {env start : Environment} {t : Term} {n : Node} {f : BoolFormula}

theorem operandsOf_works (t : Term) : Effect.Within Works (operandsOf t) :=
  .bind (.ask _) fun ts => wrapAll_works wrapBool_works ts

section

variable {R : Environment → Environment → Prop} [Std.Refl R] [IsTrans _ R]

theorem malformed_within {α : Type} (hdiscard : ∀ f env, R env (discard f env)) (k : TermKind)
    (t : Term) (fs : List BoolFormula) :
    Effect.Within R (malformed k t fs : Effect Environment α) := by
  have hall : ∀ (fs : List Formula) env, R env (discardAll fs env) := by
    intro fs
    induction fs with
    | nil => exact fun env => Std.Refl.refl env
    | cons f fs ih => exact fun env => Trans.trans (hdiscard f env) (ih _)
  exact .bind (.update fun env => hall _ env) fun _ => .bind (.look _) fun _ => .throw _

theorem unsupported_within {α : Type} (k : TermKind) (t : Term) :
    Effect.Within R (unsupported k t : Effect Environment α) := by
  refine .bind (.look _) fun name => ?_
  cases name <;> exact .throw _

/-- A look at a formula does what wrapping and discarding formulas does. -/
theorem view_within (hwrap : ∀ t, Effect.Within R (wrapBool t))
    (hdiscard : ∀ f env, R env (discard f env)) (f : BoolFormula) : Effect.Within R f.view := by
  have hmalformed : ∀ (k : TermKind) (t : Term) (fs : List BoolFormula),
      Effect.Within R (malformed k t fs : Effect Environment BoolView) :=
    malformed_within hdiscard
  have hall : ∀ {t : Term} {k : List BoolFormula → Effect Environment BoolView},
      (∀ fs, Effect.Within R (k fs)) → Effect.Within R (operandsOf t >>= k) := by
    intro t k h
    have hoperands : Effect.Within R (operandsOf t) :=
      .bind (.ask _) fun ts => wrapAll_within hwrap hdiscard ts
    exact hoperands.bind h
  refine .bind (.ask _) fun t => .bind (.ask _) fun k => ?_
  cases k
  case xor | unknown => exact unsupported_within _ t
  case and | or => exact hall fun fs => .pure _
  case not | iff | implies | ite | quantifier =>
    refine hall fun fs => ?_
    split
    · exact .pure _
    · exact hmalformed _ t fs
  -- These two look at the type of their first operand before they decide.
  case eq =>
    refine .bind (.ask _) fun ts => ?_
    cases ts with
    | nil => exact hmalformed _ t []
    | cons first rest =>
      refine .bind (.ask _) fun type => ?_
      split
      · exact .pure _
      · split
        · refine hall fun fs => ?_
          split
          · exact .pure _
          · exact hmalformed _ t fs
        · exact unsupported_within _ t
  case distinct =>
    refine .bind (.ask _) fun ts => ?_
    cases ts with
    | nil => exact hmalformed _ t []
    | cons first rest =>
      refine .bind (.ask _) fun type => ?_
      split
      · exact .pure _
      · exact unsupported_within _ t
  all_goals exact .pure _

end

theorem view_works (f : BoolFormula) : Effect.Within Works f.view :=
  view_within wrapBool_works works_discard f

end BoolFormula

namespace Formula

variable {env : Environment}

theorem view_works (f : Formula) : Effect.Within Works f.view := by
  refine .bind (.ask _) fun t => .bind (.ask _) fun k => ?_
  cases k
  case «variable» => exact .bind (.ask _) fun name => .pure _
  case boundVariable => exact .pure _
  case true | false | value =>
    refine .bind (.ask _) fun value => ?_
    cases value with
    | some value => exact .pure _
    | none => exact .bind (.look _) fun _ => .throw _
  case quantifier =>
    cases f.toBool with
    | error e => exact .throw e
    | ok whole =>
      refine .bind (.ask _) fun ts => ?_
      cases ts with
      | nil => exact .throw _
      | cons body rest => exact (wrapBool_works body).bind fun b => .pure _
  all_goals
    exact .bind (.ask _) fun ts => (wrapAll_works wrapAsIs_works ts).bind fun args =>
      .bind (.ask _) fun name => .pure _

theorem wrapAll_succeeds {ts : List Term} (h : ∀ t ∈ ts, ∃ k, env.terms.sort? t = some k) :
    (wrapAll wrapAsIs id ts).Succeeds env fun _ env₁ => env₁.terms = env.terms := by
  induction ts generalizing env with
  | nil => exact .pure rfl
  | cons t ts ih =>
    obtain ⟨⟨k, hk⟩, hts⟩ := List.forall_mem_cons.1 h
    refine .bind (wrapAsIs_succeeds hk) fun f u hu => .bind (.undoing (ih ?_)) fun _ _ hv =>
      .pure (hv.trans hu)
    rwa [hu]

end Formula

/-! Where the walks lead -/

namespace Environment

variable {α β τ : Type} {env env₁ start : Environment} {t u : Term} {n : Node}
  {Below : Term → Term → Prop}

/-- The terms whose operands a boolean walk goes on to: connectives, choices, quantifiers, and
equations of propositions. -/
def Joins (env : Environment) (t : Term) : Prop :=
  (∃ k ∈ [TermKind.not, .and, .or, .iff, .implies, .ite], env.kind t = .ok k) ∨
  (∃ q, env.kind t = .ok (.quantifier q)) ∨
  env.kind t = .ok .eq ∧ ∃ u ∈ (env.childrenOf t).head?, env.typeOf u = .ok .boolean

/-- A term whose operands a boolean walk goes on to, and one of them. -/
def Operand (env : Environment) (t u : Term) : Prop := env.Joins t ∧ u ∈ env.childrenOf t

/-- A term and one of its arguments. -/
def Argument (env : Environment) (t u : Term) : Prop := u ∈ env.childrenOf t

theorem exists_sort_child (hs : env.terms.WellFormed) (h : u ∈ env.childrenOf t) :
    ∃ k, env.terms.sort? u = some k := by
  obtain ⟨n, hn⟩ := exists_node_childrenOf hs h
  exact ⟨n.sort, by rw [Store.sort?, hn]; rfl⟩

theorem Advances.joins_iff (ha : env.Advances env₁) (hs : env.terms.WellFormed)
    (hn : env.terms.node? t = some n) : env₁.Joins t ↔ env.Joins t := by
  have hchildren : env₁.childrenOf t = env.childrenOf t := by
    rw [childrenOf_eq hn, childrenOf_eq (ha.terms.extension.node? t n hn)]
  have htype : ∀ u ∈ (env.childrenOf t).head?, env₁.typeOf u = env.typeOf u := by
    intro u hu
    obtain ⟨k, hk⟩ := exists_sort_child hs (List.mem_of_mem_head? hu)
    rw [typeOf_eq_ok.2 ⟨k, hk, rfl⟩, typeOf_eq_ok.2 ⟨k, ha.terms.extension.sort? hk, rfl⟩]
  unfold Joins
  rw [ha.kind hn, hchildren]
  exact or_congr_right (or_congr_right (and_congr_right fun _ =>
    exists_congr fun u => and_congr_right fun hu => by rw [htype u hu]))

theorem exists_kind (hn : env.terms.node? t = some n) : ∃ k, env.kind t = .ok k := by
  unfold Environment.kind Store.node
  rw [hn]
  split
  · exact ⟨_, rfl⟩
  · exact ⟨n.kind, rfl⟩

theorem exec_hasOperands (hs : env.terms.WellFormed) (hn : env.terms.node? t = some n) :
    ∃ b, (BoolFormula.hasOperands t).exec env = (.ok b, env) ∧ (b = true ↔ env.Joins t) := by
  obtain ⟨k, hk⟩ := exists_kind hn
  have hchildren : env.children t = .ok (env.childrenOf t) := by
    rw [(Advances.refl env).children hn, childrenOf_eq hn]
  have hask : (Effect.ask (·.kind t) : Effect Environment TermKind).exec env = (.ok k, env) := by
    rw [exec_ask, hk]
  unfold BoolFormula.hasOperands Joins
  rw [exec_bind_ok hask, hk]
  cases k
  case eq =>
    have hargs : (Effect.ask (·.children t) : Effect Environment (List Term)).exec env =
        (.ok (env.childrenOf t), env) := by
      rw [exec_ask, hchildren]
    dsimp only
    rw [exec_bind_ok hargs]
    cases hc : env.childrenOf t with
    | nil => exact ⟨false, rfl, by simp⟩
    | cons first rest =>
      obtain ⟨k, hsort⟩ := exists_sort_child hs (u := first) (t := t) (by simp [hc])
      have htype : env.typeOf first = .ok k.type := typeOf_eq_ok.2 ⟨k, hsort, rfl⟩
      have hfirst : (Effect.ask (·.typeOf first) : Effect Environment FormulaType).exec env =
          (.ok k.type, env) := by
        rw [exec_ask, htype]
      refine ⟨decide (k.type = .boolean), exec_bind_ok hfirst _, ?_⟩
      simp [htype]
  case not | and | or | iff | implies | ite | quantifier => exact ⟨true, rfl, by simp⟩
  all_goals exact ⟨false, rfl, by simp⟩

/-- Wrappers of all arguments of a term are what a walk may go on to. -/
theorem Wraps.leadsTo {route : Walk.Route α} {f : α} {gs : List α} (hs : start.terms.WellFormed)
    (ha : start.Advances env) (h : Wraps route.formula (start.childrenOf (route.term f)) gs env)
    (hbelow : ∀ t ∈ start.childrenOf (route.term f), Below (route.term f) t) :
    Walk.LeadsTo start Below route f gs ∧
      ∀ t ∈ start.childrenOf (route.term f), t ∈ gs.map route.term := by
  have hterms : gs.map route.term = start.childrenOf (route.term f) := h.terms
  refine ⟨⟨fun g hg => ?_, by rw [hterms], by rwa [hterms]⟩, by simp [hterms]⟩
  have hmem : route.term g ∈ start.childrenOf (route.term f) :=
    hterms ▸ List.mem_map_of_mem hg
  obtain ⟨k, hk⟩ := exists_sort_child hs hmem
  obtain ⟨n, hn, -⟩ := Option.map_eq_some_iff.1 hk
  exact (h.types g hg).of_advances ha hn

theorem Types.unwrap {f : Formula} (h : start.Types f) (ha : start.Advances env) :
    env.unwrap f = .ok f.term :=
  if_pos (h.owner.trans ha.id.symm)

theorem Types.children {f : Formula} (h : start.Types f) (ha : start.Advances env) :
    env.children f.term = .ok (start.childrenOf f.term) := by
  obtain ⟨n, hn⟩ := h.exists_node
  rw [ha.children hn, childrenOf_eq hn]

end Environment

namespace BoolFormula

variable {env start : Environment} {f : BoolFormula}

theorem hasOperands_works (t : Term) : Effect.Within Works (hasOperands t) := by
  refine .bind (.ask _) fun k => ?_
  cases k
  case eq =>
    refine .bind (.ask _) fun ts => ?_
    cases ts with
    | nil => exact .pure _
    | cons first rest => exact .bind (.ask _) fun type => .pure _
  all_goals exact .pure _

theorem children_works (f : BoolFormula) : Effect.Within Works (route.children f) := by
  refine .bind (.ask _) fun t => .bind (hasOperands_works t) fun b => ?_
  cases b
  · exact .pure _
  · exact operandsOf_works t

theorem ensures_children (hs : start.terms.WellFormed) (hf : start.Types f.formula)
    (ha : start.Advances env) : (route.children f).Ensures env fun gs _ =>
      Walk.LeadsTo start start.Operand route f gs ∧
        ∀ t, start.Operand f.term t → t ∈ gs.map route.term := by
  obtain ⟨n, hn⟩ := hf.exists_node
  obtain ⟨b, hb, hjoins⟩ := exec_hasOperands (ha.terms.wellFormed hs)
    (ha.terms.extension.node? _ n hn)
  refine .ask_bind fun t ht => ?_
  obtain rfl : f.term = t := Except.ok.inj ((hf.unwrap ha).symm.trans ht)
  refine .bind (P := fun b' u => b = b' ∧ env = u) ?_ ?_
  · intro b' u hx
    rw [show (hasOperands f.term).exec env = _ from hb] at hx
    cases hx
    exact ⟨rfl, rfl⟩
  · rintro _ _ ⟨rfl, rfl⟩
    rw [ha.joins_iff hs hn] at hjoins
    cases b with
    | false => exact .pure ⟨Walk.leadsTo_nil, fun t ht => by simpa using hjoins.2 ht.1⟩
    | true =>
      refine .ask_bind fun ts hts => ?_
      obtain rfl : start.childrenOf f.term = ts :=
        Except.ok.inj ((hf.children ha).symm.trans hts)
      have hbelow : ∀ t ∈ start.childrenOf f.term, start.Operand f.term t :=
        fun t ht => ⟨hjoins.1 rfl, ht⟩
      refine ((ensures_wrapAll wrapBool_works ensures_wrapBool _ env).and
        ((wrapAll_works wrapBool_works _).ensures env)).mono fun gs u hgs => ?_
      have hwraps : Wraps route.formula (start.childrenOf (route.term f)) gs u := hgs.1
      obtain ⟨hlead, hall⟩ := hwraps.leadsTo hs (ha.trans hgs.2.advances) hbelow
      exact ⟨hlead, fun t ht => hall t ht.2⟩

end BoolFormula

namespace Formula

variable {env start : Environment} {f : Formula}

theorem children_works (f : Formula) : Effect.Within Works (route.children f) :=
  .bind (.ask _) fun _ => .bind (.ask _) fun _ => (wrapAll_works wrapAsIs_works _).bind fun _ =>
    .pure _

theorem ensures_children (hs : start.terms.WellFormed) (hf : start.Types f)
    (ha : start.Advances env) : (route.children f).Ensures env fun gs _ =>
      Walk.LeadsTo start start.Argument route f gs ∧
        ∀ t, start.Argument f.term t → t ∈ gs.map route.term := by
  refine .ask_bind fun t ht => ?_
  obtain rfl : f.term = t := Except.ok.inj ((hf.unwrap ha).symm.trans ht)
  refine .ask_bind fun ts hts => ?_
  obtain rfl : start.childrenOf f.term = ts := Except.ok.inj ((hf.children ha).symm.trans hts)
  refine .bind ((ensures_wrapAll wrapAsIs_works ensures_wrapped _ env).and
    ((wrapAll_works wrapAsIs_works _).ensures env)) fun gs u hgs => .pure ?_
  have hterms : gs.map (·.term) = (start.childrenOf f.term).reverse := hgs.1.terms
  have hreverse : gs.reverse.map (·.term) = start.childrenOf f.term := by
    rw [List.map_reverse, hterms, List.reverse_reverse]
  have hwraps : Wraps route.formula (start.childrenOf f.term) gs.reverse u :=
    ⟨hreverse, fun g hg => hgs.1.types g (List.mem_reverse.1 hg)⟩
  exact hwraps.leadsTo hs (ha.trans hgs.2.advances) fun _ ht => ht

end Formula

/-! Visitors -/

namespace Environment

variable {β τ : Type} {start : Environment} {visitor : β → Visit τ Step} {s : Environment × τ}

/-- A visitor only adds to the environments that follow another one. -/
def Admits (start : Environment) (visitor : β → Visit τ Step) : Prop :=
  ∀ v (s : Environment × τ), start.Advances s.1 → s.1.Advances ((visitor v).exec s).2.1

/-- A visitor makes the walk go on, in the environments that follow another one. -/
def Urges (start : Environment) (visitor : β → Visit τ Step) : Prop :=
  ∀ v (s : Environment × τ), start.Advances s.1 → ((visitor v).exec s).1 = .ok .proceed

/-- A visit shows a view, whose operands are given back after it. -/
def shown (view : Effect Environment β) (operands : β → List Formula) (visitor : β → Visit τ Step) :
    Visit τ Step := do
  let v ← Visit.inEnvironment view
  (visitor v).andThen fun (env, s) => (discardAll (operands v) env, s)

variable {view : Effect Environment β} {operands : β → List Formula}

theorem exec_shown (s : Environment × τ) : (shown view operands visitor).exec s =
    match view.exec s.1 with
    | (.error e, env) => (.error e, (env, s.2))
    | (.ok v, env) => (((visitor v).exec (env, s.2)).1,
        (discardAll (operands v) ((visitor v).exec (env, s.2)).2.1,
          ((visitor v).exec (env, s.2)).2.2)) := by
  rw [shown, exec_bind, Visit.inEnvironment, exec_on]
  rcases view.exec s.1 with ⟨x | v, env⟩ <;> rfl

theorem advances_shown (hview : Effect.Within Works view) (hv : start.Admits visitor)
    (hs : start.Advances s.1) :
    start.Advances ((shown view operands visitor).exec s).2.1 := by
  have hadvances := hs.trans (hview s.1).advances
  rw [exec_shown]
  rcases hx : view.exec s.1 with ⟨x | v, env⟩ <;> rw [hx] at hadvances
  · exact hadvances
  · exact (hadvances.trans (hv v (env, s.2) hadvances)).trans (advances_discardAll _ _)

theorem proceeds_shown (hview : Effect.Within Works view) (hv : start.Urges visitor)
    (hs : start.Advances s.1) :
    (shown view operands visitor).Ensures s fun step _ => step = .proceed := by
  have hadvances := hs.trans (hview s.1).advances
  intro step t hx
  rw [exec_shown] at hx
  rcases hy : view.exec s.1 with ⟨x | v, env⟩ <;> rw [hy] at hx hadvances
  · cases hx
  · exact Except.ok.inj ((congrArg Prod.fst hx).symm.trans (hv v (env, s.2) hadvances))

/-- A visit that urges on fails only where there is nothing to show. -/
theorem error_of_shown {e : Fault} (hview : Effect.Within Works view) (hv : start.Urges visitor)
    (hs : start.Advances s.1) (hx : ((shown view operands visitor).exec s).1 = .error e) :
    (view.exec s.1).1 = .error e := by
  have hadvances := hs.trans (hview s.1).advances
  rw [exec_shown] at hx
  rcases hy : view.exec s.1 with ⟨x | v, env⟩ <;> rw [hy] at hx hadvances
  · exact congrArg _ (Except.error.inj hx)
  · cases hx.symm.trans (hv v (env, s.2) hadvances)

end Environment

/-! What can be shown -/

namespace Environment

variable {env start : Environment} {f : BoolFormula} {x : Tree} {t : Term} {n : Node}

theorem Types.boolean {f : Formula} (h : start.Types f)
    (hn : start.terms.node? f.term = some n) (hsort : n.sort = .bool) : f.type = .boolean := by
  obtain ⟨k, hk, haccepts⟩ := h.sort
  rw [Store.sort?, hn] at hk
  obtain rfl : n.sort = k := Option.some.inj hk
  rw [hsort] at haccepts
  obtain hsame | ⟨-, hreal⟩ := FormulaType.accepts_iff.1 haccepts
  · exact hsame
  · cases hreal

theorem Types.owned (h : start.Types f.formula) : start.Owned f := by
  obtain ⟨k, hk, haccepts⟩ := h.sort
  rw [f.isBoolean] at haccepts
  obtain hbool | ⟨hbool, -⟩ := FormulaType.accepts_iff.1 haccepts
  · exact ⟨h.owner, TermSort.type_injective (t := .bool) hbool.symm ▸ hk⟩
  · cases hbool

/-- The operands that a boolean walk goes on to are propositions. -/
theorem Shows.isAtom_of_joins (h : env.Shows t x) (henv : env.Proper) (hj : env.Joins t) :
    x.isAtom = false := by
  obtain ⟨ts, hts, hargs⟩ := h.children henv
  obtain ⟨n, hn, -⟩ := h.node henv
  have hchildren : env.childrenOf t = ts := by
    rw [childrenOf_eq hn]
    exact Except.ok.inj (((Advances.refl env).children hn).symm.trans hts)
  unfold Joins at hj
  rw [h.kind henv, hchildren] at hj
  cases hl : x.label with
  | apply d => cases he : x.args.isEmpty <;> simp [Tree.kind, hl, he] at hj
  | op o =>
    rw [Tree.kind_of_op hl] at hj
    cases o with
    | eq =>
      obtain ⟨u, hu, htype⟩ : ∃ u ∈ ts.head?, env.typeOf u = .ok .boolean := by
        simpa [Node.kind] using hj
      cases ts with
      | nil => cases hu
      | cons a as =>
        obtain rfl : a = u := Option.some.inj hu
        obtain ⟨y, ys, hy, -, hxs⟩ := List.forall₂_cons_left_iff.1 hargs
        rw [Shows.typeOf hy henv] at htype
        have hsort : y.sort = .bool := TermSort.type_injective (Except.ok.inj htype)
        simp [Tree.isAtom, hl, hxs, hsort]
    | true | false | not | and | or | iff | implies | ite | quantifier =>
      simp [Tree.isAtom, hl]
    | _ => simp [Node.kind] at hj

end Environment

namespace Formula

variable {env start : Environment} {f : Formula}

theorem children_succeeds (hs : start.terms.WellFormed) (hf : start.Types f)
    (ha : start.Advances env) : (route.children f).Succeeds env fun _ _ => True := by
  refine .ask_bind (hf.unwrap ha) (.ask_bind (hf.children ha) ?_)
  refine .bind (wrapAll_succeeds fun t ht => ?_) fun _ _ _ => .pure trivial
  obtain ⟨k, hk⟩ := exists_sort_child hs (List.mem_reverse.1 ht)
  exact ⟨k, ha.terms.extension.sort? hk⟩

/-- Every term can be shown. -/
theorem view_succeeds (henv : env.Proper) (hf : env.Types f) :
    f.view.Succeeds env fun _ _ => True := by
  obtain ⟨n, hn⟩ := hf.exists_node
  have hkind : env.kind f.term = .ok n.kind := kind_of_node? henv hn
  have hname : env.terms.symbolName f.term = .ok (env.terms.headText n) := by
    rw [Store.symbolName, Store.node, hn]
    rfl
  have hargs : (wrapAll wrapAsIs id n.args).Succeeds env fun _ env₁ => env₁.terms = env.terms :=
    wrapAll_succeeds fun t ht => exists_sort_child henv.wellFormed (childrenOf_eq hn ▸ ht)
  have hchildren := (hf.children (.refl env)).trans (congrArg Except.ok (childrenOf_eq hn))
  obtain ⟨ks, hks, hfits⟩ := henv.wellFormed.fits hn
  refine .ask_bind (hf.unwrap (.refl env)) (.ask_bind hkind ?_)
  have happly : ∀ k : TermKind, (do
      let args ← wrapAll wrapAsIs id (← .ask (·.children f.term))
      return TermView.function (← .ask (·.terms.symbolName f.term)) k args :
        Effect Environment TermView).Succeeds env fun _ _ => True := by
    refine fun k => .ask_bind hchildren (hargs.bind fun gs u hu => ?_)
    have hname' : u.terms.symbolName f.term = .ok (env.terms.headText n) := hu.symm ▸ hname
    exact .ask_bind hname' (.pure trivial)
  have hvalue : ∀ value, ConstantValue.ofNode? n = some value →
      env.terms.constantValue f.term = .ok (some value) := by
    intro value hv
    rw [Store.constantValue, Store.node, hn]
    exact congrArg Except.ok hv
  obtain ⟨op, args, sort⟩ := n
  cases op with
  | true | false | int | real | bits => exact .ask_bind (hvalue _ rfl) (.pure trivial)
  | bound index => exact .pure trivial
  | quantifier q vars =>
    obtain ⟨-, hsorts, hsort⟩ := hfits
    have htype : f.type = .boolean := hf.boolean hn hsort
    have hbool : f.toBool = .ok ⟨f, htype⟩ := dif_pos htype
    rw [show ks = [.bool] from hsorts] at hks
    obtain ⟨a, _, ha, ⟨⟩, rfl⟩ := List.forall₂_cons_right_iff.1 hks
    have hbody : (wrapBool a).Succeeds env fun _ _ => True :=
      .ask_bind (typeOf_eq_ok.2 ⟨.bool, ha, rfl⟩) ⟨_, _, rfl, trivial⟩
    simp only [hbool]
    exact .ask_bind hchildren (hbody.bind fun _ _ _ => .pure trivial)
  | apply d =>
    cases args with
    | nil => exact .ask_bind hname (.pure trivial)
    | cons => exact happly _
  | _ => exact happly _

end Formula

namespace BoolFormula

variable {env : Environment} {f : BoolFormula} {x : Tree}

theorem children_succeeds (henv : env.Proper) (hf : env.Reads f (.own x)) :
    (route.children f).Succeeds env fun _ _ => True := by
  obtain ⟨n, hn, -⟩ := Shows.node hf.2.1 henv
  obtain ⟨b, hb, hjoins⟩ := exec_hasOperands henv.wellFormed hn
  refine .ask_bind (if_pos hf.1) ?_
  refine .bind (P := fun b' u => b = b' ∧ env = u) ⟨b, env, hb, rfl, rfl⟩ ?_
  rintro _ _ ⟨rfl, rfl⟩
  cases b with
  | false => exact .pure trivial
  | true =>
    have hatom := hf.2.1.isAtom_of_joins henv (hjoins.1 rfl)
    obtain ⟨gs, u, hrun, -⟩ := (computes_operandsOf henv hf.2.1 fun y hy =>
      ((hf.proposition henv).args hatom y hy).boolean).exists_ok
    exact ⟨gs, u, hrun, trivial⟩

end BoolFormula

namespace Walk

variable {τ : Type} {start : Environment} {s : Environment × τ} {e : Fault}

theorem spans_boolean {visitor : BoolView → Visit τ Step} (hs : start.terms.WellFormed)
    (hv : start.Admits visitor) :
    Spans start start.Operand BoolFormula.route fun g => g.visit visitor where
  wellFormed := hs
  visits f _ _ _ ha := advances_shown f.view_works hv ha
  unfolds f env _ ha := ha.trans (f.children_works env).advances
  operands _ _ hf ha := BoolFormula.ensures_children hs hf ha

theorem spans_terms {visitor : Formula → TermView → Visit τ Step} (hs : start.terms.WellFormed)
    (hv : ∀ g, start.Admits (visitor g)) :
    Spans start start.Argument Formula.route fun g => g.visit (visitor g) where
  wellFormed := hs
  visits f _ _ _ ha := advances_shown f.view_works (hv f) ha
  unfolds f env _ ha := ha.trans (f.children_works env).advances
  operands _ _ hf ha := Formula.ensures_children hs hf ha

/-- Where a visitor urges on, a boolean walk fails only at what no boolean visit can enter. -/
theorem refused_of_enter {visitor : BoolView → Visit τ Step} {f : BoolFormula}
    (henv : start.Proper) (hadmits : start.Admits visitor) (hurges : start.Urges visitor)
    (hf : start.Types f.formula) (hs : start.Advances s.1)
    (hx : ((enter BoolFormula.route (fun g => g.visit visitor) f).exec s).1 = .error e) :
    e = .missingOperator (.root "distinct") ∧
      ∃ x, start.Reads f (.own x) ∧ x.isRefused = true := by
  obtain ⟨x, hread⟩ := hf.owned.exists_reads henv
  obtain hx | hx := error_of_enter hx
  · have hview := error_of_shown f.view_works hurges hs hx
    have hcomputes := computes_view (hs.proper henv) (hread.advance henv hs)
    cases hr : x.isRefused with
    | true =>
      rw [if_pos hr] at hcomputes
      obtain ⟨env₁, hrun, -⟩ := hcomputes.exists_error
      rw [hrun] at hview
      exact ⟨(Except.error.inj hview).symm, x, hread, hr⟩
    | false =>
      rw [if_neg (by simp [hr])] at hcomputes
      obtain ⟨v, env₁, hrun, -⟩ := hcomputes.exists_ok
      rw [hrun] at hview
      cases hview
  · have ha : start.Advances ((f.visit visitor).exec s).2.1 :=
      advances_shown f.view_works hadmits hs
    obtain ⟨gs, u, hrun, -⟩ :=
      BoolFormula.children_succeeds (ha.proper henv) (hread.advance henv ha)
    rw [hrun] at hx
    cases hx

/-- Where a visitor urges on, a walk over terms does not fail. -/
theorem no_error_of_enter {visitor : Formula → TermView → Visit τ Step} {f : Formula}
    (henv : start.Proper) (hadmits : start.Admits (visitor f)) (hurges : start.Urges (visitor f))
    (hf : start.Types f) (hs : start.Advances s.1) :
    ((enter Formula.route (fun g => g.visit (visitor g)) f).exec s).1 ≠ .error e := by
  intro hx
  obtain hx | hx := error_of_enter hx
  · have hview := error_of_shown f.view_works hurges hs hx
    have hf' : s.1.Types f := hf.mono hs.id hs.terms.extension
    obtain ⟨v, u, hrun, -⟩ := Formula.view_succeeds (hs.proper henv) hf'
    rw [hrun] at hview
    cases hview
  · have ha : start.Advances ((f.visit (visitor f)).exec s).2.1 :=
      advances_shown f.view_works hadmits hs
    obtain ⟨gs, u, hrun, -⟩ := Formula.children_succeeds henv.wellFormed hf ha
    rw [hrun] at hx
    cases hx

theorem enter_of_view {α β : Type} {route : Route α} {visit : α → Visit τ Step} {f : α}
    {view : Effect Environment β} {operands : β → List Formula} {visitor : β → Visit τ Step}
    (hvisit : visit f = shown view operands visitor) (hview : view.exec s.1 = (.error e, s.1)) :
    (enter route visit f).exec s = (.error e, s) := by
  refine exec_bind_error ?_ _
  rw [hvisit, exec_shown, hview]

theorem view_foreign_boolean {f : BoolFormula} {env : Environment} (hf : f.formula.owner ≠ env.id) :
    f.view.exec env = (.error .foreign, env) := by
  refine exec_ask_bind_error ?_ _
  exact unwrap_foreign hf

theorem view_foreign_term {f : Formula} {env : Environment} (hf : f.owner ≠ env.id) :
    f.view.exec env = (.error .foreign, env) := by
  refine exec_ask_bind_error ?_ _
  exact unwrap_foreign hf

/-- Both walks are recursive depth-first walks, for every formula, every visitor and every state that
the visitor starts with. One that always urges on is shown all that is reached, but for a boolean
walk that comes to a formula it cannot enter. -/
theorem visitAll_depthFirst {env : Environment} (hs : env.terms.WellFormed) (s : τ) :
    (∀ (f : BoolFormula) (visitor : BoolView → Visit τ Step),
      (f.formula.owner = env.id → env.Types f.formula) → env.Admits visitor →
      ∃ out s' visits, (f.visitAll visitor).exec (env, s) = (out, s') ∧
        DepthFirst env env.Operand BoolFormula.route (fun g => g.visit visitor) s f out s' visits ∧
        (f.formula.owner = env.id → env.Urges visitor →
          (out = .ok () → ∀ t, Reached env.Operand f.term t → t ∈ visits.map (·.term)) ∧
          (env.reported = [] → ∀ e, out = .error e → e = .missingOperator (.root "distinct") ∧
            ∃ g ∈ visits, ∃ x, env.Reads g (.own x) ∧ x.isRefused = true))) ∧
    ∀ (f : Formula) (visitor : Formula → TermView → Visit τ Step),
      (f.owner = env.id → env.Types f) → (∀ g, env.Admits (visitor g)) →
      ∃ out s' visits, (f.visitAll visitor).exec (env, s) = (out, s') ∧
        DepthFirst env env.Argument Formula.route (fun g => g.visit (visitor g)) s f out s' visits ∧
        (f.owner = env.id → (∀ g, env.Urges (visitor g)) →
          (out = .ok () → ∀ t, Reached env.Argument f.term t → t ∈ visits.map (·.term)) ∧
          (env.reported = [] → out = .ok ())) := by
  constructor
  · intro f visitor hf hadmits
    obtain ⟨out, s', visits, hrun, hwalk, hurged⟩ :=
      (spans_boolean hs hadmits).exists_depthFirst hf
        (fun _ howner => enter_of_view rfl (view_foreign_boolean howner)) s
    refine ⟨out, s', visits, hrun, hwalk, fun howner hurges => ?_⟩
    obtain ⟨hall, herror⟩ := hurged howner fun g _ _ ha => proceeds_shown g.view_works hurges ha
    refine ⟨hall, fun hcandid e he => ?_⟩
    obtain ⟨g, hg, s₁, htypes, ha, hx⟩ := herror e he
    obtain ⟨hdistinct, hrefused⟩ := refused_of_enter ⟨hs, hcandid⟩ hadmits hurges htypes ha hx
    exact ⟨hdistinct, g, hg, hrefused⟩
  · intro f visitor hf hadmits
    obtain ⟨out, s', visits, hrun, hwalk, hurged⟩ :=
      (spans_terms hs hadmits).exists_depthFirst hf
        (fun _ howner => enter_of_view rfl (view_foreign_term howner)) s
    refine ⟨out, s', visits, hrun, hwalk, fun howner hurges => ?_⟩
    obtain ⟨hall, herror⟩ := hurged howner fun g _ _ ha =>
      proceeds_shown g.view_works (hurges g) ha
    refine ⟨hall, fun hcandid => ?_⟩
    cases out with
    | ok => rfl
    | error e =>
      obtain ⟨g, -, s₁, htypes, ha, hx⟩ := herror e rfl
      exact absurd hx (no_error_of_enter ⟨hs, hcandid⟩ (hadmits g) (hurges g) htypes ha)

/-- Two constants, the negation of the first, their equivalence, and the conjunction of both. -/
def branching : Environment :=
  { Environment.new 0 .everything false false false with
    terms := Store.empty.serveAll
      [.construct (.constant "p" .bool), .construct (.constant "q" .bool), .construct (.not ⟨0⟩),
        .construct (.iff ⟨0⟩ ⟨1⟩), .construct (.and [⟨2⟩, ⟨3⟩])] }

/-- Keeps the operands of negations out of a walk. -/
def skipNegations : BoolView → Visit Unit Step
  | .not _ => return .skip
  | _ => return .proceed

/-- The outcome of a walk, and the terms that it visited. -/
def summary {α : Type} (route : Route α)
    (run : Except Fault Unit × (Environment × Unit × List α)) : Except Fault Unit × List Term :=
  (run.1, run.2.2.2.map route.term)

/-- A walk that skips the negation comes to its operand later, as one of the equivalence. One that
skips nothing comes to it there, and ignores it later. -/
theorem visitAll_depthFirst_skipped :
    let f : BoolFormula := ⟨⟨⟨4⟩, .boolean, 0, none⟩, rfl⟩
    let urge : Formula → TermView → Visit Unit Step := fun _ _ => return .proceed
    branching.terms.WellFormed ∧ branching.Types f.formula ∧ branching.Admits skipNegations ∧
    (∃ (s' : Environment × Unit) (visits : List BoolFormula),
      (f.visitAll skipNegations).exec (branching, ()) = (.ok (), s') ∧
      DepthFirst branching branching.Operand BoolFormula.route (fun g => g.visit skipNegations) () f
        (.ok ()) s' visits ∧
      visits.map (·.term) = [⟨4⟩, ⟨2⟩, ⟨3⟩, ⟨0⟩, ⟨1⟩]) ∧
    ∃ (s' : Environment × Unit) (visits : List Formula),
      (f.formula.visitAll urge).exec (branching, ()) = (.ok (), s') ∧
      (∀ t, Reached branching.Argument ⟨4⟩ t → t ∈ visits.map (·.term)) ∧
      visits.map (·.term) = [⟨4⟩, ⟨2⟩, ⟨0⟩, ⟨3⟩, ⟨1⟩] := by
  intro f urge
  have hs : branching.terms.WellFormed := Store.wellFormed_serveAll _
  have hf : branching.Types f.formula := ⟨rfl, .bool, by decide +kernel, rfl⟩
  have hadmits : branching.Admits skipNegations := fun v s _ => by cases v <;> exact .refl _
  obtain ⟨hboolean, hterms⟩ := visitAll_depthFirst hs ()
  refine ⟨hs, hf, hadmits, ?_, ?_⟩
  · obtain ⟨out, s', visits, hrun, hwalk, -⟩ := hboolean f skipNegations (fun _ => hf) hadmits
    have hcomputed : summary BoolFormula.route ((walkFrom BoolFormula.route
        (noted fun g => g.visit skipNegations) (branching.terms.edges + 2) [] [f]).exec
          (withNotes (branching.retain f.formula, ()) [])) =
        (.ok (), [⟨4⟩, ⟨2⟩, ⟨3⟩, ⟨0⟩, ⟨1⟩]) := by decide +kernel
    have hsummary : (out, visits.map (·.term)) = _ :=
      (congrArg (summary BoolFormula.route) (hwalk.notedLoop 0)).symm.trans hcomputed
    obtain ⟨rfl, hvisits⟩ := Prod.mk.inj hsummary
    exact ⟨s', visits, hrun, hwalk, hvisits⟩
  · obtain ⟨out, s', visits, hrun, hwalk, hurged⟩ := hterms f.formula urge (fun _ => hf)
      fun _ _ s _ => .refl _
    obtain ⟨hall, hok⟩ := hurged rfl fun _ _ _ _ => rfl
    obtain rfl := hok rfl
    have hcomputed : summary Formula.route ((walkFrom Formula.route
        (noted fun g => g.visit (urge g)) (branching.terms.edges + 2) [] [f.formula]).exec
          (withNotes (branching.retain f.formula, ()) [])) =
        (.ok (), [⟨4⟩, ⟨2⟩, ⟨0⟩, ⟨3⟩, ⟨1⟩]) := by decide +kernel
    have hsummary : (_, visits.map (·.term)) = _ :=
      (congrArg (summary Formula.route) (hwalk.notedLoop 0)).symm.trans hcomputed
    exact ⟨s', visits, hrun, hall rfl, (Prod.mk.inj hsummary).2⟩

end Walk
end FormulaStack
