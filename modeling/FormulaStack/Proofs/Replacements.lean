import FormulaStack.Proofs.Negations

/-!
A view of an application or a quantifier offers to rebuild the formula over other operands. That
works for formulas of the environment over terms of the sorts of the old operands, one for each, and
then gives the same node over them. Whatever else it is given is refused and leaves no trace.
-/
namespace FormulaStack

open Effect Environment

namespace Store

/-- What stands at the head of a node does not depend on its operands. -/
theorem headText_replace {s u : Store} {n : Node} {ks : List TermSort} (h : u.Extends s)
    (hop : n.op.Fits s.decl? ks n.sort) (ts : List Term) :
    u.headText { n with args := ts } = s.headText n := by
  obtain ⟨op, args, k⟩ := n
  cases op with
  | apply d =>
    obtain ⟨name, hd⟩ := hop
    simp [headText, declName, hd, h.decl? d _ hd]
  | _ => rfl

/-- A node that is there is not added. -/
theorem intern_of_node? {s : Store} {t : Term} {n : Node} (hs : s.WellFormed)
    (hn : s.node? t = some n) : s.intern n = (t, s) := by
  unfold intern
  split
  · next i h =>
    obtain ⟨hi, he, -⟩ := Array.findIdx?_eq_some_iff_getElem.1 h
    have hfound : s.node? ⟨i⟩ = some n := by simp [node?, eq_of_beq he, hi]
    rw [hs.once hfound hn]
  · next h =>
    have hmem : n ∈ s.nodes := Array.mem_of_getElem? hn
    simpa using Array.findIdx?_eq_none_iff.1 h n hmem

end Store

theorem Node.kind_replace {n : Node} {ts : List Term} (h : n.args.length = ts.length) :
    { n with args := ts }.kind = n.kind := by
  obtain ⟨op, args, k⟩ := n
  cases op with
  | apply d => cases args <;> cases ts <;> simp_all [kind]
  | _ => rfl

/-- A quantifier has one child. -/
theorem Node.exists_body {s : Store} {n : Node} {ks : List TermSort} {q : Quantifier}
    (h : n.kind = .quantifier q) (hop : n.op.Fits s.decl? ks n.sort) (hks : s.Sorts n.args ks) :
    ∃ b, n.args = [b] := by
  obtain ⟨op, args, k⟩ := n
  cases op with
  | quantifier q' vars =>
    obtain ⟨-, rfl, -⟩ := hop
    exact List.length_eq_one_iff.1 hks.length_eq
  | apply d =>
    simp only [kind] at h
    split at h <;> cases h
  | _ => cases h

theorem toBool_eq_ok {f : Formula} {whole : BoolFormula} (h : f.toBool = .ok whole) :
    f = whole.formula := by
  unfold Formula.toBool at h
  split at h <;> cases h
  rfl

namespace Environment

variable {α β : Type} {env env₁ : Environment} {f g : Formula} {gs : List Formula} {n : Node}

/-- Formulas that can take the places of the children of a term. -/
def Matches (env : Environment) (t : Term) (gs : List Formula) : Prop :=
  List.Forall₂ (fun a g => g.owner = env.id ∧
    ∃ k, env.terms.sort? a = some k ∧ env.terms.sort? g.term = some k) (env.childrenOf t) gs

/-- A formula made of `f` by putting others in the places of its operands. -/
structure Replaced (env : Environment) (f : Formula) (env₁ : Environment) (gs : List Formula)
    (g : Formula) : Prop where
  types : env₁.Types g
  type : g.type = f.type
  kind : env₁.kind g.term = env.kind f.term
  name : env₁.terms.symbolName g.term = env.terms.symbolName f.term
  children : env₁.children g.term = .ok (gs.map (·.term))

/-- A way to rebuild `f`. What it is given stands for formulas, what it makes for one; `own` is what
stands for the operands of `f`. -/
structure Rebuilds (env : Environment) (f : Formula) (given : α → List Formula) (made : β → Formula)
    (own : α) (rebuild : α → Effect Environment β) : Prop where
  own : ∃ g env₁, (rebuild own).exec env = (.ok g, env₁) ∧ (made g == f) = true ∧
    (made g).type = f.type ∧ env₁.terms = env.terms
  others : ∀ a, env.Matches f.term (given a) → ∃ g env₁, (rebuild a).exec env = (.ok g, env₁) ∧
    env.Advances env₁ ∧ env.Replaced f env₁ (given a) (made g)
  refused : ∀ a, ¬env.Matches f.term (given a) → ∃ e, (rebuild a).exec env = (.error e, env)

/-- A term keeps its name. -/
theorem Advances.symbolName {t : Term} (h : env.Advances env₁) (henv : env.Proper)
    (hn : env.terms.node? t = some n) :
    env₁.terms.symbolName t = env.terms.symbolName t := by
  obtain ⟨ks, -, hop⟩ := henv.wellFormed.fits hn
  rw [Store.symbolName, Store.symbolName, Store.node_eq_ok.2 hn,
    Store.node_eq_ok.2 (h.terms.extension.node? t n hn)]
  exact congrArg Except.ok (Store.headText_replace h.terms.extension hop n.args)

/-- What a view of a formula tells of it, with what it offers to rebuild it. -/
def Offers (env : Environment) (f : Formula) : TermView → Prop
  | .free _ => env.kind f.term = .ok .variable
  | .bound index => env.kind f.term = .ok (.boundVariable index)
  | .constant _ => ∃ k, env.kind f.term = .ok k ∧ k ∈ [.true, .false, .value]
  | .function name kind args => env.kind f.term = .ok kind ∧
      env.terms.symbolName f.term = .ok name ∧ args.map (·.term) = env.childrenOf f.term ∧
      env.Rebuilds f (fun gs : List Formula => gs) (fun g => g) args f.rebuild
  | .quantifier whole q body => env.kind f.term = .ok (.quantifier q) ∧
      whole.formula = f ∧ [body.term] = env.childrenOf f.term ∧
      env.Rebuilds f (fun g : BoolFormula => [g.formula]) (·.formula) body whole.rebuildQuantifier

theorem matches_iff (hn : env.terms.node? f.term = some n) : env.Matches f.term gs ↔
    (∀ g ∈ gs, g.owner = env.id) ∧
    List.Forall₂ (fun a b => ∃ k, env.terms.sort? a = some k ∧ env.terms.sort? b = some k) n.args
      (gs.map (·.term)) := by
  rw [Matches, childrenOf_eq hn]
  generalize n.args = ts
  induction gs generalizing ts with
  | nil => cases ts <;> simp
  | cons g gs ih =>
    cases ts with
    | nil => simp
    | cons t ts =>
      rw [List.forall₂_cons, ih ts, List.map_cons, List.forall₂_cons, List.forall_mem_cons]
      tauto

theorem exec_unwrap (hf : env.Types f) : (ask (·.unwrap f)).exec env = (.ok f.term, env) :=
  congrArg (·, env) hf.unwrap_eq

theorem exec_unwrapAll (h : ∀ g ∈ gs, g.owner = env.id) :
    (ask (·.unwrapAll gs)).exec env = (.ok (gs.map (·.term)), env) :=
  congrArg (·, env) ((unwrapAll_eq env gs).trans (if_pos h))

variable {t : Term} {ts : List Term}

/-- A node over other children, where these have the right sorts. -/
theorem exec_replace (hn : env.terms.node? t = some n)
    (hts : List.Forall₂ (fun a b => ∃ k, env.terms.sort? a = some k ∧ env.terms.sort? b = some k)
      n.args ts) :
    (build (Build.replaceChildren t ts)).exec env =
        (.ok (env.terms.intern { n with args := ts }).1,
          { env with terms := (env.terms.intern { n with args := ts }).2 }) ∧
      env.Advances { env with terms := (env.terms.intern { n with args := ts }).2 } := by
  have hb := Build.replaceChildren_eq_ok hn hts
  refine ⟨?_, rfl, rfl, Build.Grows.replaceChildren t ts _ _ _ hb⟩
  rw [exec_build, hb]

theorem exec_replace_refused (hn : env.terms.node? t = some n)
    (hts : ¬List.Forall₂ (fun a b => ∃ k, env.terms.sort? a = some k ∧ env.terms.sort? b = some k)
      n.args ts) :
    ∃ e, (build (Build.replaceChildren t ts)).exec env = (.error e, env) := by
  rw [exec_build]
  cases h : Build.replaceChildren t ts env.terms with
  | error e => exact ⟨e, rfl⟩
  | ok r =>
    obtain ⟨m, hm, hts', -⟩ := Build.replaces_of_eq_ok h
    rw [hn] at hm
    cases hm
    exact absurd hts' hts

/-- A formula of the type of `f` over the node of `f` with other children. -/
theorem replaced_of_node (henv : env.Proper) (hf : env.Types f)
    (hn : env.terms.node? f.term = some n) (ha : env.Advances env₁) (howner : g.owner = env.id)
    (htype : g.type = f.type) (hlength : n.args.length = gs.length)
    (hg : env₁.terms.node? g.term = some { n with args := gs.map (·.term) }) :
    env.Replaced f env₁ gs g := by
  have henv₁ := ha.proper henv
  obtain ⟨ks, -, hop⟩ := henv.wellFormed.fits hn
  have hsort : env.terms.sort? f.term = some n.sort := by rw [Store.sort?, hn]; rfl
  obtain ⟨k, hk, haccepts⟩ := hf.sort
  obtain rfl : n.sort = k := Option.some.inj (hsort.symm.trans hk)
  constructor
  · refine ⟨howner.trans ha.id.symm, n.sort, ?_, htype ▸ haccepts⟩
    rw [Store.sort?, hg]
    rfl
  · exact htype
  · rw [kind_of_node? henv hn, kind_of_node? henv₁ hg]
    exact congrArg Except.ok (Node.kind_replace (by simpa using hlength))
  · rw [Store.symbolName, Store.symbolName, Store.node_eq_ok.2 hg, Store.node_eq_ok.2 hn]
    exact congrArg Except.ok (Store.headText_replace ha.terms.extension hop _)
  · exact (Advances.refl env₁).children hg

end Environment

/-! The two ways to rebuild -/

namespace Formula

variable {env : Environment} {f : Formula} {gs : List Formula} {n : Node}

/-- Rebuilding is a look at the operands, a new node and its wrapper. -/
theorem exec_rebuild (hf : env.Types f) (hn : env.terms.node? f.term = some n)
    (h : env.Matches f.term gs) :
    ∃ ticket handles, (f.rebuild gs).exec env =
      (.ok ⟨(env.terms.intern { n with args := gs.map (·.term) }).1, f.type, env.id, ticket⟩,
        { env with
          terms := (env.terms.intern { n with args := gs.map (·.term) }).2
          handles }) := by
  obtain ⟨howners, hts⟩ := (matches_iff hn).1 h
  obtain ⟨hx, -⟩ := exec_replace hn hts
  obtain ⟨k, hk, haccepts⟩ := hf.sort
  have hsort : n.sort = k := by
    rw [Store.sort?, hn] at hk
    exact Option.some.inj hk
  let made := env.terms.intern { n with args := gs.map (·.term) }
  have hmade : ({ env with terms := made.2 } : Environment).terms.sort? made.1 = some n.sort :=
    Store.sort?_intern env.terms _
  obtain ⟨ticket, handles, hwrap⟩ := exec_wrap hmade (hsort ▸ haccepts)
  exact ⟨ticket, handles, (exec_bind_ok (exec_unwrap hf) _).trans <|
    (exec_bind_ok (exec_unwrapAll howners) _).trans <| (exec_bind_ok hx _).trans hwrap⟩

theorem rebuild_refused (hf : env.Types f) (hn : env.terms.node? f.term = some n)
    (h : ¬env.Matches f.term gs) : ∃ e, (f.rebuild gs).exec env = (.error e, env) := by
  by_cases howners : ∀ g ∈ gs, g.owner = env.id
  · obtain ⟨e, hx⟩ := exec_replace_refused hn fun hts => h ((matches_iff hn).2 ⟨howners, hts⟩)
    exact ⟨e, (exec_bind_ok (exec_unwrap hf) _).trans <|
      (exec_bind_ok (exec_unwrapAll howners) _).trans <| exec_bind_error hx _⟩
  · have hx : (ask (·.unwrapAll gs)).exec env = (.error .foreign, env) :=
      congrArg (·, env) ((unwrapAll_eq env gs).trans (if_neg howners))
    exact ⟨.foreign, (exec_bind_ok (exec_unwrap hf) _).trans (exec_bind_error hx _)⟩

theorem rebuilds (henv : env.Proper) (hf : env.Types f) {own : List Formula}
    (hown : env.Matches f.term own) (hterms : own.map (·.term) = env.childrenOf f.term) :
    env.Rebuilds f (fun gs : List Formula => gs) (fun g => g) own f.rebuild := by
  obtain ⟨n, hn⟩ := hf.exists_node
  constructor
  · obtain ⟨ticket, handles, hx⟩ := exec_rebuild hf hn hown
    rw [hterms, childrenOf_eq hn, Store.intern_of_node? henv.wellFormed hn] at hx
    refine ⟨_, _, hx, ?_, rfl, rfl⟩
    simp [BEq.beq, hf.owner]
  · intro gs hgs
    obtain ⟨howners, hts⟩ := (matches_iff hn).1 hgs
    obtain ⟨-, ha⟩ := exec_replace hn hts
    obtain ⟨ticket, handles, hx⟩ := exec_rebuild hf hn hgs
    refine ⟨_, _, hx, ha.handles handles, ?_⟩
    refine replaced_of_node henv hf hn (ha.handles handles) rfl rfl ?_ (Store.node?_intern _ _)
    simpa using hts.length_eq
  · exact fun gs hgs => rebuild_refused hf hn hgs

end Formula

namespace BoolFormula

variable {env : Environment} {f g : BoolFormula}

theorem exec_wrap_boolean (t : Term) (env : Environment) :
    (wrap .boolean t).exec env =
      (((wrapBool t).exec env).1.map (·.formula), ((wrapBool t).exec env).2) := by
  unfold wrap wrapBool
  rw [exec_bind, exec_bind, exec_ask]
  cases env.typeOf t with
  | error e => rfl
  | ok actual =>
    by_cases h : actual = .boolean
    · subst h
      rfl
    · have hrefused : FormulaType.boolean.accepts actual = false := by
        rw [Bool.eq_false_iff]
        intro haccepts
        obtain hsame | ⟨hwide, -⟩ := FormulaType.accepts_iff.1 haccepts
        · exact h hsame.symm
        · cases hwide
      simp [h, hrefused, Except.map]

/-- A quantifier is rebuilt as an application of one operand is. -/
theorem exec_rebuild_formula (f g : BoolFormula) (env : Environment) :
    (f.formula.rebuild [g.formula]).exec env =
      (((f.rebuildQuantifier g).exec env).1.map (·.formula),
        ((f.rebuildQuantifier g).exec env).2) := by
  unfold Formula.rebuild rebuildQuantifier BoolFormula.unwrap
  rw [f.isBoolean, exec_bind, exec_bind, exec_ask]
  cases env.unwrap f.formula with
  | error e => rfl
  | ok t =>
    dsimp only
    rw [exec_bind, exec_bind, exec_ask, exec_ask]
    have hone : env.unwrapAll [g.formula] = (env.unwrap g.formula).map fun u => [u] := by
      rw [unwrapAll, List.mapM_cons]
      cases env.unwrap g.formula <;> rfl
    rw [hone]
    cases env.unwrap g.formula with
    | error e => rfl
    | ok u =>
      simp only [Except.map]
      rw [exec_bind, exec_bind]
      rcases (build (Build.replaceChildren t [u])).exec env with ⟨e | v, env₁⟩
      · rfl
      · exact exec_wrap_boolean v env₁

theorem rebuilds {own : BoolFormula}
    (h : env.Rebuilds f.formula (fun gs : List Formula => gs) (fun g => g) [own.formula]
      f.formula.rebuild) :
    env.Rebuilds f.formula (fun g : BoolFormula => [g.formula]) (·.formula) own
      f.rebuildQuantifier := by
  have hok : ∀ {g : BoolFormula} {r : Formula} {env₁ : Environment},
      (f.formula.rebuild [g.formula]).exec env = (.ok r, env₁) →
        ∃ q, (f.rebuildQuantifier g).exec env = (.ok q, env₁) ∧ q.formula = r := by
    intro g r env₁ hx
    rw [exec_rebuild_formula] at hx
    rcases hy : (f.rebuildQuantifier g).exec env with ⟨e | q, env₂⟩ <;> rw [hy] at hx <;> cases hx
    exact ⟨q, rfl, rfl⟩
  constructor
  · obtain ⟨r, env₁, hx, hr⟩ := h.own
    obtain ⟨q, hq, rfl⟩ := hok hx
    exact ⟨q, env₁, hq, hr⟩
  · intro g hg
    obtain ⟨r, env₁, hx, hr⟩ := h.others [g.formula] hg
    obtain ⟨q, hq, rfl⟩ := hok hx
    exact ⟨q, env₁, hq, hr⟩
  · intro g hg
    obtain ⟨e, hx⟩ := h.refused [g.formula] hg
    rw [exec_rebuild_formula] at hx
    rcases hy : (f.rebuildQuantifier g).exec env with ⟨e' | q, env₂⟩ <;> rw [hy] at hx <;> cases hx
    exact ⟨_, rfl⟩

end BoolFormula

namespace Formula

variable {env : Environment} {f : Formula}

/-- The wrappers of the children of a term match it. -/
theorem matches_of_terms {gs : List Formula} (hterms : gs.map (·.term) = env.childrenOf f.term)
    (htypes : ∀ g ∈ gs, env.Types g) : env.Matches f.term gs := by
  rw [Matches, ← hterms, List.forall₂_map_left_iff, List.forall₂_same]
  intro g hg
  obtain ⟨k, hk, -⟩ := (htypes g hg).sort
  exact ⟨(htypes g hg).owner, k, hk, hk⟩

theorem offers_function (henv : env.Proper) (hf : env.Types f) {name : String} {k : TermKind}
    {args : List Formula} (hk : env.kind f.term = .ok k)
    (hname : env.terms.symbolName f.term = .ok name)
    (hterms : args.map (·.term) = env.childrenOf f.term) (hargs : ∀ g ∈ args, env.Types g) :
    env.Offers f (.function name k args) :=
  ⟨hk, hname, hterms, rebuilds henv hf (matches_of_terms hterms hargs) hterms⟩

theorem offers_quantifier (henv : env.Proper) {whole body : BoolFormula}
    (hf : env.Types whole.formula) {q : Quantifier}
    (hk : env.kind whole.formula.term = .ok (.quantifier q))
    (hterm : [body.term] = env.childrenOf whole.formula.term) (hbody : env.Types body.formula) :
    env.Offers whole.formula (.quantifier whole q body) :=
  ⟨hk, rfl, hterm, BoolFormula.rebuilds <| rebuilds henv hf
    (matches_of_terms hterm (List.forall_mem_singleton.2 hbody)) hterm⟩

/-- A view of an application. -/
theorem ensures_function (henv : env.Proper) (hf : env.Types f)
    (hn : env.terms.node? f.term = some n) : Effect.Ensures (do
      let args ← wrapAll wrapAsIs id (← .ask (·.children f.term))
      return TermView.function (← .ask (·.terms.symbolName f.term)) n.kind args) env
      fun v env₁ => ∀ env₂, env₁.Advances env₂ → env₂.Offers f v := by
  refine .ask_bind fun ts hts => ?_
  obtain rfl : n.args = ts := Except.ok.inj (((Advances.refl env).children hn).symm.trans hts)
  refine .bind ((ensures_wrapAll wrapAsIs_works ensures_wrapped n.args env).and
    ((wrapAll_works wrapAsIs_works n.args).ensures env)) fun args env₁ ⟨hargs, hworks⟩ =>
      .ask_bind fun name hname => .pure fun env₂ ha₂ => ?_
  have ha₁ := hworks.advances
  have ha := ha₁.trans ha₂
  have hn₁ := ha₁.terms.extension.node? _ _ hn
  have hn₂ := ha.terms.extension.node? _ _ hn
  refine offers_function (ha.proper henv) (hf.mono ha.id ha.terms.extension)
    (kind_of_node? (ha.proper henv) hn₂) ?_ (hargs.terms.trans (childrenOf_eq hn₂).symm)
    fun g hg => (hargs.types g hg).mono ha₂.id ha₂.terms.extension
  exact (ha₂.symbolName (ha₁.proper henv) hn₁).trans hname

/-- A view of a quantifier, which is over one term. -/
theorem ensures_quantifier (henv : env.Proper) {whole : BoolFormula}
    (hf : env.Types whole.formula) (hn : env.terms.node? whole.formula.term = some n)
    {q : Quantifier} (hk : n.kind = .quantifier q) {b : Term} (hb : n.args = [b]) :
    Effect.Ensures (do return TermView.quantifier whole q (← wrapBool b)) env
      fun v env₁ => ∀ env₂, env₁.Advances env₂ → env₂.Offers whole.formula v := by
  refine .bind ((ensures_wrapBool b env).and ((wrapBool_works b).ensures env))
    fun body env₁ ⟨hbody, hworks⟩ => .pure fun env₂ ha₂ => ?_
  have ha := hworks.advances.trans ha₂
  have hn₂ := ha.terms.extension.node? _ _ hn
  refine offers_quantifier (ha.proper henv) (hf.mono ha.id ha.terms.extension)
    (hk ▸ kind_of_node? (ha.proper henv) hn₂) ?_ (hbody.2.mono ha₂.id ha₂.terms.extension)
  rw [childrenOf_eq hn₂, hb, ← hbody.1]
  rfl

/-- What a view offers, it offers from then on. -/
theorem ensures_view_offers (henv : env.Proper) (hf : env.Types f) :
    f.view.Ensures env fun v env₁ => ∀ env₂, env₁.Advances env₂ → env₂.Offers f v := by
  obtain ⟨n, hn⟩ := hf.exists_node
  obtain ⟨ks, hks, hop⟩ := henv.wellFormed.fits hn
  refine .ask_bind fun t ht => .ask_bind fun k hk => ?_
  obtain rfl : f.term = t := Except.ok.inj ((hf.unwrap (.refl env)).symm.trans ht)
  obtain rfl : n.kind = k := Except.ok.inj ((kind_of_node? henv hn).symm.trans hk)
  have hlater : ∀ {env₂}, env.Advances env₂ → env₂.kind f.term = .ok n.kind := fun ha =>
    (ha.kind hn).trans (kind_of_node? henv hn)
  have happly := ensures_function henv hf hn
  generalize hkind : n.kind = k at *
  cases k with
  | quantifier q =>
    obtain ⟨b, hb⟩ := Node.exists_body hkind hop hks
    cases hwhole : f.toBool with
    | error e => exact .throw e
    | ok whole =>
      obtain rfl := toBool_eq_ok hwhole
      refine .ask_bind fun ts hts => ?_
      obtain rfl : n.args = ts := Except.ok.inj (((Advances.refl env).children hn).symm.trans hts)
      rw [hb]
      exact ensures_quantifier henv hf hn hkind hb
  | «variable» => exact .ask_bind fun name _ => .pure fun _ ha => hlater ha
  | boundVariable index => exact .pure fun _ ha => hlater ha
  | true | false | value =>
    refine .ask_bind fun value _ => ?_
    cases value with
    | some value => exact .pure fun _ ha => ⟨_, hlater ha, by simp⟩
    | none => exact .later fun _ _ => .throw _
  | _ => exact happly

/-- Whatever a view of a formula shows as an application or a quantifier, it can be rebuilt over
just the formulas that fit, from then on. -/
theorem rebuild_faithful (henv : env.Proper) (hf : env.Types f) :
    ∃ v env₁, f.view.exec env = (.ok v, env₁) ∧ env.Advances env₁ ∧
      ∀ env₂, env₁.Advances env₂ → env₂.Offers f v := by
  obtain ⟨v, env₁, hx, -⟩ := view_succeeds henv hf
  have hworks := view_works f env
  rw [hx] at hworks
  exact ⟨v, env₁, hx, hworks.advances, ensures_view_offers henv hf v env₁ hx⟩

/-- The comparison `x < y` is rebuilt as `y < x`. -/
theorem rebuild_faithful_swapped :
    let env := { Environment.new 0 .everything false false false with
      terms := Store.empty.serveAll [.construct (.constant "x" .int),
        .construct (.constant "y" .int), .construct (.compare .lt (by decide) ⟨0⟩ ⟨1⟩)] }
    let f : Formula := ⟨⟨2⟩, .boolean, 0, none⟩
    let x : Formula := ⟨⟨0⟩, .integer, 0, none⟩
    let y : Formula := ⟨⟨1⟩, .integer, 0, none⟩
    env.Proper ∧ env.Types f ∧ ∃ args env₁,
      f.view.exec env = (.ok (.function "<" .interpreted args), env₁) ∧
        args.map (·.term) = [x.term, y.term] ∧
        ∃ g env₂, (f.rebuild [y, x]).exec env₁ = (.ok g, env₂) ∧
          env₂.children g.term = .ok [y.term, x.term] := by
  intro env f x y
  let n : Node := ⟨.arith .lt, [x.term, y.term], .bool⟩
  have henv : env.Proper := ⟨Store.wellFormed_serveAll _, rfl⟩
  have hf : env.Types f := ⟨rfl, .bool, by decide +kernel, rfl⟩
  have hn : env.terms.node? f.term = some n := by decide +kernel
  have hsorts : env.terms.sort? x.term = some .int ∧ env.terms.sort? y.term = some .int := by
    decide +kernel
  obtain ⟨v, env₁, hview, ha, hoffers⟩ := rebuild_faithful henv hf
  have hn₁ := ha.terms.extension.node? _ _ hn
  have hkind := kind_of_node? (ha.proper henv) hn₁
  have hname : env₁.terms.symbolName f.term = .ok "<" := by
    rw [Store.symbolName, Store.node_eq_ok.2 hn₁]
    rfl
  have hmatches : env₁.Matches f.term [y, x] := by
    have hsort {g : Formula} := ha.terms.extension.sort? (t := g.term) (k := .int)
    rw [Matches, childrenOf_eq hn₁]
    exact .cons ⟨ha.id.symm, .int, hsort hsorts.1, hsort hsorts.2⟩
      (.cons ⟨ha.id.symm, .int, hsort hsorts.2, hsort hsorts.1⟩ .nil)
  have hoffer := hoffers env₁ (.refl env₁)
  refine ⟨henv, hf, ?_⟩
  cases v with
  | function name k args =>
    obtain ⟨hk, hsymbol, hterms, hrebuilds⟩ := hoffer
    cases hk.symm.trans hkind
    cases hsymbol.symm.trans hname
    obtain ⟨g, env₂, hx, -, hg⟩ := hrebuilds.others _ hmatches
    exact ⟨args, env₁, hview, hterms.trans (childrenOf_eq hn₁), g, env₂, hx, hg.children⟩
  | free name => cases hkind.symm.trans hoffer
  | bound index => cases hkind.symm.trans hoffer
  | constant value =>
    obtain ⟨k, hk, hmem⟩ := hoffer
    cases hkind.symm.trans hk
    simp [n, Node.kind] at hmem
  | quantifier whole q body => cases hkind.symm.trans hoffer.1

end Formula
end FormulaStack
