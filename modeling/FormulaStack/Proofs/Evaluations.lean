import FormulaStack.Proofs.Feasibility
import FormulaStack.Proofs.Independence
import FormulaStack.Proofs.Valuations

/-!
Evaluations. An expression that has a type and divides by no zero is built in every context with
numbers, and in every model the formula evaluates to the literal of the expression's value.
-/
namespace FormulaStack

open Environment

/-! Building with exact values -/

namespace World

variable {α β : Type} {w w₁ : World FoldingSolver} {c c₁ : Context} {i : Nat}
  {R : Environment → α → Prop} {S : Environment → β → Prop}

/-- Work in a context that succeeds, with a result that `R` holds of. -/
def Yields (i : Nat) (R : Environment → α → Prop) (e : Effect (World FoldingSolver) α)
    (w : World FoldingSolver) (c : Context) : Prop :=
  ∃ a w₁ c₁, e.exec w = (.ok a, w₁) ∧ w₁.Ready i c₁ ∧ c.env.Continues c₁.env ∧ R c₁.env a

namespace Yields

variable {e : Effect (World FoldingSolver) α} {k : α → Effect (World FoldingSolver) β}

theorem pure {a : α} (hw : w.Ready i c) (h : R c.env a) : Yields i R (Pure.pure a) w c :=
  ⟨a, w, c, rfl, hw, Std.Refl.refl c.env, h⟩

theorem bind (h : Yields i R e w c)
    (hk : ∀ a w₁ c₁, w₁.Ready i c₁ → c.env.Continues c₁.env → R c₁.env a →
      Yields i S (k a) w₁ c₁) : Yields i S (e >>= k) w c := by
  obtain ⟨a, w₁, c₁, hx, hw₁, hc₁, ha⟩ := h
  obtain ⟨b, w₂, c₂, hy, hw₂, hc₂, hb⟩ := hk a w₁ c₁ hw₁ hc₁ ha
  exact ⟨b, w₂, c₂, (Effect.exec_bind_ok hx k).trans hy, hw₂, Trans.trans hc₁ hc₂, hb⟩

theorem inEnvironment {e : Effect Environment α} (hw : w.Ready i c) (h : c.env.Yields R e) :
    Yields i R (World.inEnvironment i e) w c := by
  obtain ⟨a, env, hx, hc, ha⟩ := h
  refine ⟨a, setEnvironment i env w, { c with env }, ?_, hw.environment hc, hc, ha⟩
  rw [exec_inEnvironment hw.context, hx]

theorem constant {τ : FormulaType} {k : TermSort} {v : Value} (hw : w.Ready i c)
    (hk : c.env.sortOf τ = .ok k) (hτ : k.type = τ) (name : String)
    (hv : (Label.apply ⟨name, [], k⟩).known? k [] = some v) :
    Yields i (fun env f => ExactFormula τ env f v) (World.constant i τ name) w c := by
  have hterm : Yields i (fun env t => ExactTerm k env t v) (constantTerm i τ name) w c := by
    have hevolves := requestVariable_evolves τ name c.env
    have hrequested := requestVariable_requested τ name c.env
    obtain ⟨w₁, hx, hw₁⟩ := exec_request hw hrequested hevolves
    have hgives := requestVariable_gives hw.orderly τ name
    rw [hk] at hgives
    obtain ⟨t, new, env₁, ht, htree⟩ := hgives
    rw [ht] at hx hw₁ hrequested hevolves
    exact ⟨t, w₁, _, hx, hw₁, hrequested.continues hevolves, _, htree, rfl,
      Tree.known?_node.2 ⟨[], .nil, hv⟩⟩
  exact hterm.bind fun t w₁ c₁ hw₁ _ ht => .inEnvironment hw₁ (yields_wrap hw₁.orderly hτ ht)

end Yields
end World

namespace Expression

open World (Yields)

variable {w : World FoldingSolver} {c : Context} {i : Nat}

theorem variable_exact {σ τ : FormulaType} {name : String} (hw : w.Ready i c)
    (hnumerals : c.env.theories.numerals = true) (hτ : type? (.variable σ name) = some τ) :
    Yields i (fun env f => ExactFormula τ env f (value (.variable σ name))) (makeVariable i σ name)
      w c := by
  obtain ⟨hσ, hsame⟩ := Option.ite_none_right_eq_some.1 hτ
  cases hsame
  have hnumeric : ∀ (t : Theory) (k : TermSort), σ.theory? = some t → t.isIn c.env.theories = true →
      c.env.sortOf σ = .ok k → k.type = σ →
      (Label.apply ⟨name, [], k⟩).known? k [] = some (.number 0) →
      Yields i (fun env f => ExactFormula σ env f (.number 0)) (makeVariable i σ name) w c := by
    intro t k ht hin hk hkσ hv
    have hmake : makeVariable (σ := FoldingSolver) i σ name =
        (World.inEnvironment i (require t) >>= fun _ => World.constant i σ name) := by
      unfold makeVariable
      rw [ht]
    have hrequire : c.env.Yields (fun env _ => env = c.env) (require t) := by
      have h : c.env.Yields (fun env _ => env = c.env) (managed t (pure ())) :=
        .managed hin (.pure rfl)
      rwa [managed, bind_pure_unit] at h
    rw [hmake]
    exact (Yields.inEnvironment hw hrequire).bind fun _ w₁ c₁ hw₁ _ henv =>
      .constant hw₁ (henv ▸ hk) hkσ name hv
  cases σ with
  | boolean =>
    have hmake : makeVariable (σ := FoldingSolver) i .boolean name =
        World.constant i .boolean name := rfl
    rw [hmake]
    exact Yields.constant (k := .bool) (v := .truth false) hw rfl rfl name rfl
  | integer => exact hnumeric .integers .int rfl hnumerals (if_pos hnumerals) rfl rfl
  | rational => exact hnumeric .rationals .real rfl hnumerals (if_pos hnumerals) rfl rfl
  | bitvector | floatingPoint | array => cases hσ

theorem nary_exact (op : Nary) {fs : List Formula} {vs : List Value} {τs : List FormulaType}
    {τ : FormulaType} (hw : w.Ready i c) (hnumerals : c.env.theories.numerals = true)
    (hop : op.type? τs = some τ) (hfs : ExactOperands τs c.env fs vs) :
    Yields i (fun env f => ExactFormula τ env f (op.value vs)) (op.apply i fs) w c := by
  have henv := hw.orderly
  cases op with
  | junction j =>
    obtain ⟨hτs, hτ⟩ := Option.ite_none_right_eq_some.1 hop
    cases hτ
    exact .inEnvironment hw (.formula ((hfs.claims henv hτs).bind fun ps env₁ hc hps =>
      Boolean.exact_nary (hc.orderly henv) j hps))
  | sum d =>
    obtain ⟨hτs, hτ⟩ := Option.ite_none_right_eq_some.1 hop
    cases hτ
    exact .inEnvironment hw (.managed (theory_isIn hnumerals d)
      (Numeral.exact_sum henv hnumerals (hfs.numbers henv hτs)))
  | distinct d =>
    obtain ⟨hτs, hτ⟩ := Option.ite_none_right_eq_some.1 hop
    cases hτ
    exact .inEnvironment hw (.managed (theory_isIn hnumerals d)
      (.formula (Numeral.exact_distinct henv hnumerals (hfs.numbers henv hτs))))
  | call | declareAndCall => cases hop

mutual
/-- Operands first, an expression of a type is built, and the formula has the expression's value. -/
theorem build_exact {i : Nat} {w : World FoldingSolver} {c : Context} :
    ∀ (e : Expression) {τ : FormulaType}, e.type? = some τ → e.Regular → w.Ready i c →
      c.env.theories.numerals = true →
      Yields i (fun env f => ExactFormula τ env f e.value) (e.build i) w c
  | .literal l, _, hτ, _, hw, hnumerals =>
    .inEnvironment hw (literal_exact hw.orderly hnumerals l hτ)
  | .variable _ _, _, hτ, _, hw, hnumerals => variable_exact hw hnumerals hτ
  | .unary op e, _, hτ, hregular, hw, hnumerals => by
    obtain ⟨σ, hσ, hop⟩ := Option.bind_eq_some_iff.1 hτ
    refine (build_exact e hσ hregular hw hnumerals).bind fun f w₁ c₁ hw₁ hc₁ hf => ?_
    have hnumerals₁ := (congrArg Theories.numerals hc₁.theories).trans hnumerals
    exact .inEnvironment hw₁ (unary_exact hw₁.orderly hnumerals₁ op hop hf)
  | .binary op e₁ e₂, _, hτ, hregular, hw, hnumerals => by
    obtain ⟨σ₁, hσ₁, hτ₁⟩ := Option.bind_eq_some_iff.1 hτ
    obtain ⟨σ₂, hσ₂, hop⟩ := Option.bind_eq_some_iff.1 hτ₁
    obtain ⟨hregular₁, hregular₂, hdiv⟩ := hregular
    refine (build_exact e₁ hσ₁ hregular₁ hw hnumerals).bind fun f w₁ c₁ hw₁ hc₁ hf => ?_
    have hnumerals₁ := (congrArg Theories.numerals hc₁.theories).trans hnumerals
    refine (build_exact e₂ hσ₂ hregular₂ hw₁ hnumerals₁).bind fun g w₂ c₂ hw₂ hc₂ hg => ?_
    have hnumerals₂ := (congrArg Theories.numerals hc₂.theories).trans hnumerals₁
    exact .inEnvironment hw₂
      (binary_exact hw₂.orderly hnumerals₂ op hop hdiv (hf.continue hw₁.orderly hc₂) hg)
  | .ternary op e₁ e₂ e₃, _, hτ, hregular, hw, hnumerals => by
    obtain ⟨σ₁, hσ₁, hτ₁⟩ := Option.bind_eq_some_iff.1 hτ
    obtain ⟨σ₂, hσ₂, hτ₂⟩ := Option.bind_eq_some_iff.1 hτ₁
    obtain ⟨σ₃, hσ₃, hop⟩ := Option.bind_eq_some_iff.1 hτ₂
    obtain ⟨hregular₁, hregular₂, hregular₃⟩ := hregular
    refine (build_exact e₁ hσ₁ hregular₁ hw hnumerals).bind fun f w₁ c₁ hw₁ hc₁ hf => ?_
    have hnumerals₁ := (congrArg Theories.numerals hc₁.theories).trans hnumerals
    refine (build_exact e₂ hσ₂ hregular₂ hw₁ hnumerals₁).bind fun g w₂ c₂ hw₂ hc₂ hg => ?_
    have hnumerals₂ := (congrArg Theories.numerals hc₂.theories).trans hnumerals₁
    refine (build_exact e₃ hσ₃ hregular₃ hw₂ hnumerals₂).bind fun h w₃ c₃ hw₃ hc₃ hh => ?_
    have hf₃ := hf.continue hw₁.orderly (Trans.trans hc₂ hc₃)
    exact .inEnvironment hw₃
      (ternary_exact hw₃.orderly op hop hf₃ (hg.continue hw₂.orderly hc₃) hh)
  | .nary op es, _, hτ, hregular, hw, hnumerals => by
    obtain ⟨τs, hτs, hop⟩ := Option.bind_eq_some_iff.1 hτ
    refine (buildAll_exact es hτs hregular hw hnumerals).bind fun fs w₁ c₁ hw₁ hc₁ hfs => ?_
    have hnumerals₁ := (congrArg Theories.numerals hc₁.theories).trans hnumerals
    exact nary_exact op hw₁ hnumerals₁ hop hfs
  | .quantifier .., _, hτ, _, _, _ => by cases hτ

theorem buildAll_exact {i : Nat} {w : World FoldingSolver} {c : Context} :
    ∀ (es : List Expression) {τs : List FormulaType}, types? es = some τs → AllRegular es →
      w.Ready i c → c.env.theories.numerals = true →
      Yields i (fun env fs => ExactOperands τs env fs (values es)) (buildAll i es) w c
  | [], _, _, _, hw, _ => .pure hw .nil
  | e :: es, _, hτs, hregular, hw, hnumerals => by
    obtain ⟨τ, hτ, hrest⟩ := Option.bind_eq_some_iff.1 hτs
    obtain ⟨σs, hσs, hsame⟩ := Option.bind_eq_some_iff.1 hrest
    cases hsame
    obtain ⟨hregular₁, hregular₂⟩ := hregular
    refine (build_exact e hτ hregular₁ hw hnumerals).bind fun f w₁ c₁ hw₁ hc₁ hf => ?_
    have hnumerals₁ := (congrArg Theories.numerals hc₁.theories).trans hnumerals
    refine (buildAll_exact es hσs hregular₂ hw₁ hnumerals₁).bind fun fs w₂ c₂ hw₂ hc₂ hfs => ?_
    refine .pure hw₂ (.cons ⟨τ, List.mem_cons_self, hf.continue hw₁.orderly hc₂⟩ ?_)
    exact hfs.imp fun _ _ ⟨σ, hσ, hg⟩ => ⟨σ, List.mem_cons_of_mem _ hσ, hg⟩
end

end Expression

/-- A formula evaluates at a stack, to a literal of its type. -/
def World.Evaluates (w : World FoldingSolver) (id : Nat) (f : Formula) (k : ConstantValue) : Prop :=
  ∃ g w' y, (atStack id (Site.evaluate f)).exec w = (.ok (some g), w') ∧
    w'.contexts[f.owner]? = some y ∧ g.owner = y.env.id ∧ g.type = f.type ∧
      y.env.terms.constantValue g.term = .ok (some k)

namespace Client

variable {c d : Client} {i id : Nat} {x : Context} {f : Formula} {τ : FormulaType} {v : Value}
  {k : ConstantValue}

/-- Exact values are for good. -/
theorem exact_of_run (hc : Reachable c) (hrun : Run c d) (hx : c.world.contexts[i]? = some x)
    (hf : ExactFormula τ x.env f v) :
    ∃ y, d.world.contexts[i]? = some y ∧ ExactFormula τ y.env f v := by
  obtain ⟨hd, hextends⟩ := run_valid hrun hc.valid
  obtain ⟨y, hy, hterms⟩ := hextends.context i x hx
  have hid : y.env.id = x.env.id :=
    (hd.sound.context i y hy).place.trans (hc.valid.sound.context i x hx).place.symm
  obtain ⟨k, hk, t, ht, hsort, hv⟩ := hf.term
  have hd' : Reachable d := hc.trans hrun
  have htree := (hc.ready hx).orderly.wellFormed.tree?_extends
    (hd'.ready hy).orderly.wellFormed hterms ht
  exact ⟨y, hy, hf.owner.trans hid.symm, hf.type, k, hk, t, htree, hsort, hv⟩

/-- In a model, a formula evaluates to the literal of its exact value. -/
theorem evaluates_exact (hc : Reachable c) (hx : c.world.contexts[i]? = some x)
    (hf : ExactFormula τ x.env f v) (hk : v.constant? τ = some k)
    (hmodel : c.world.HasModel i id) : c.world.Evaluates id f k := by
  obtain ⟨s, hs, rfl, ho, hlast⟩ := hmodel
  have henv := (hc.ready hx).orderly
  obtain ⟨l, rfl, t, ht, rfl, hv⟩ := hf.term
  have howner : f.owner = s.home := hf.owner.trans (hc.valid.sound.context _ x hx).place
  unfold World.Evaluates
  rw [howner]
  exact World.exec_evaluate hs hx ho hlast hf.owner hf.type (henv.wellFormed.sort?_of_tree? ht)
    (henv.wellFormed.fold_of_known? ht hv) hk

/-- An expression that has a type and divides by no zero is built, and from then on evaluates to the
literal of its value wherever there is a model, as there is after a check that says yes. -/
theorem evaluate_built (hc : Reachable c) (hx : c.world.contexts[i]? = some x)
    (hnumerals : x.env.theories.numerals = true) {e : Expression} (hτ : e.type? = some τ)
    (hregular : e.Regular) :
    ∃ f d k, (e.build i).exec c.world = (.ok f, d.world) ∧ Run c d ∧ f ∈ d.held ∧ f.type = τ ∧
      e.value.constant? τ = some k ∧ ∀ d' id, Run d d' →
        (d'.world.HasModel i id → d'.world.Evaluates id f k) ∧
        ∀ w', d'.world.home id = i → (World.atStack id Site.check).exec d'.world = (.ok true, w') →
          w'.Evaluates id f k := by
  obtain ⟨f, w, y, hbuild, hw, -, hf⟩ :=
    Expression.build_exact e hτ hregular (hc.ready hx) hnumerals
  obtain ⟨d, hrun, hd, -, hheld⟩ := @Expression.build_feasible i [] e c hc
    fun _ hf => (List.not_mem_nil hf).elim
  rw [hbuild] at hd hheld
  obtain rfl : d.world = w := hd
  obtain ⟨k, hk⟩ := hf.exists_constant hw.orderly
  have hmodels : ∀ d' id, Run d d' → d'.world.HasModel i id → d'.world.Evaluates id f k := by
    intro d' id hrun' hmodel
    obtain ⟨y', hy', hf'⟩ := exact_of_run (hc.trans hrun) hrun' hw.context hf
    exact evaluates_exact ((hc.trans hrun).trans hrun') hy' hf' hk hmodel
  refine ⟨f, d, k, hbuild, hrun, hheld f rfl f (List.mem_singleton_self f), hf.type, hk,
    fun d' id hrun' => ⟨hmodels d' id hrun', fun w' hhome hcheck => ?_⟩⟩
  have hmodel := hasModel_of_check ((hc.trans hrun).trans hrun') hcheck
  rw [hhome] at hmodel
  -- The check itself is a step of the client.
  have hstep := Step.operation d' (.atStack id .check)
  have hworld : (d'.after (.atStack id .check)).world = w' := by
    change ((World.atStack id (StackOperation.perform .check)).exec d'.world).2 = w'
    rw [StackOperation.perform, World.exec_atStack_map, hcheck]
  have hevaluates := hmodels _ id (hrun'.tail hstep)
  rw [hworld] at hevaluates
  exact hevaluates hmodel

/-- A client whose only stack has a model, as nothing is asserted. -/
def unburdened : Client :=
  start.afterAll [.addContext .everything false false default none, .openStack 0 false,
    .atStack 0 .check]

/-- An integer is widened, and half of three is no integer. -/
theorem evaluate_built_halved :
    let e : Expression := .binary (.arithmetic .rationals .div)
      (.binary (.arithmetic .rationals .add) (.variable .integer "n")
        (.literal (.number .integers 3)))
      (.literal (.number .rationals 2))
    ∃ f d, (e.build 0).exec unburdened.world = (.ok f, Client.world d) ∧ f.type = .rational ∧
      d.world.Evaluates 0 f (.rational (3 / 2)) := by
  intro e
  have htheories : (unburdened.world.contexts[0]?).map (·.env.theories) = some .everything := by
    decide +kernel
  have hstack : ((((e.build 0).exec unburdened.world).2).stack? 0).map (fun s =>
      (s.home, s.closed, s.session.last)) = some (0, false, some .sat) := by
    decide +kernel
  have hvalue : e.value.constant? .rational = some (.rational (3 / 2)) := by decide +kernel
  have hregular : e.Regular := ⟨⟨trivial, trivial, nofun⟩, trivial, fun _ => by decide⟩
  obtain ⟨x, hx, hxt⟩ := Option.map_eq_some_iff.1 htheories
  have hnumerals : x.env.theories.numerals = true := by
    rw [hxt]
    rfl
  have hreachable : Reachable unburdened := run_afterAll start _
  obtain ⟨f, d, k, hbuild, -, -, hf, hk, hmodels⟩ :=
    evaluate_built hreachable hx hnumerals (τ := .rational) rfl hregular
  rw [hbuild] at hstack
  obtain ⟨s, hs, h⟩ := Option.map_eq_some_iff.1 hstack
  simp only [Prod.mk.injEq] at h
  obtain ⟨hhome, ho, hlast⟩ := h
  obtain rfl := Option.some.inj (hvalue.symm.trans hk)
  exact ⟨f, d, hbuild, hf, (hmodels d 0 .refl).1 ⟨s, hs, hhome, ho, hlast⟩⟩

end Client
end FormulaStack
