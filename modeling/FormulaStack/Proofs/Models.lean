import FormulaStack.Proofs.Settlements

/-!
What models say. As long as a stack has a model, what is asserted at it evaluates to true.
-/
namespace FormulaStack

/-- A model gives the literal of the value that folding finds. -/
theorem FoldingSolver.exec_eval {store terms : Store} {s : FoldingSolver} {t r : Term}
    {k : TermSort} {v : Value} (hsat : s.last = some .sat) (hk : store.sort? t = some k)
    (hv : store.fold true t = some v) (hlit : v.literal k store = .ok (r, terms)) :
    (eval true t).exec (store, s) = (.ok (some r), terms, s) := by
  have hmodel : modelAvailable.exec (store, s) = (.ok (), store, s) := by
    unfold modelAvailable SessionM.session
    rw [Effect.exec_bind_ok (Effect.exec_look _ _)]
    dsimp only
    rw [if_neg (not_not.2 hsat)]
    rfl
  have hsort : (SessionM.ofStore (σ := FoldingSolver) (·.sort t)).exec (store, s) =
      (.ok k, store, s) := by
    unfold SessionM.ofStore
    rw [Effect.exec_ask]
    dsimp only
    rw [Store.sort_eq_ok.2 hk]
  have hbuild : (SessionM.build (σ := FoldingSolver) (v.literal k)).exec (store, s) =
      (.ok r, terms, s) := by
    unfold SessionM.build
    rw [Effect.exec_of]
    dsimp only
    rw [hlit]
  unfold eval
  rw [Effect.exec_bind_ok hmodel, Effect.exec_bind_ok hsort,
    Effect.exec_bind_ok (Effect.exec_look _ _)]
  dsimp only
  rw [hv]
  exact Effect.exec_bind_ok hbuild _

/-- A term that fits a type can be wrapped. -/
theorem Environment.exec_wrap {env : Environment} {type : FormulaType} {t : Term} {k : TermSort}
    (hk : env.terms.sort? t = some k) (haccepts : type.accepts k.type = true) :
    ∃ ticket handles, (wrap type t).exec env =
      (.ok ⟨t, type, env.id, ticket⟩, { env with handles }) := by
  have htype : env.typeOf t = .ok k.type := by
    rw [typeOf, Store.sort_eq_ok.2 hk]
    rfl
  have hask : (Effect.ask (·.typeOf t) : Effect Environment _).exec env = (.ok k.type, env) := by
    rw [Effect.exec_ask, htype]
  refine ⟨(env.handles.register t).1, (env.handles.register t).2, ?_⟩
  unfold wrap
  rw [Effect.exec_bind_ok hask, if_pos haccepts]
  rfl

namespace Site

variable {s : Site FoldingSolver} {f : Formula} {k l : TermSort} {v : Value} {r : Term}
  {terms : Store}

/-- A formula whose value folding finds evaluates to the literal of this value. -/
theorem exec_evaluate (ho : s.stack.closed = false) (hsat : s.stack.session.last = some .sat)
    (howner : f.owner = s.env.id) (hk : s.env.terms.sort? f.term = some k)
    (hv : s.env.terms.fold true f.term = some v) (hlit : v.literal k s.env.terms = .ok (r, terms))
    (hl : terms.sort? r = some l) (haccepts : f.type.accepts l.type = true) :
    ∃ ticket handles, (evaluate f).exec s =
      (.ok (some ⟨r, f.type, s.env.id, ticket⟩),
        { s with env := { s.env with terms, handles } }) := by
  have hunwrap : (inEnvironment (.ask (·.unwrap f))).exec s = (.ok f.term, s) := by
    unfold inEnvironment
    rw [Effect.exec_on, Effect.exec_ask, Environment.unwrap, if_pos howner]
  have heval : (native (Session.eval true f.term)).exec s =
      (.ok (some r), { s with env := { s.env with terms } }) := by
    rw [exec_native, show (Session.eval true f.term : SessionM FoldingSolver _) =
      FoldingSolver.eval true f.term from rfl, FoldingSolver.exec_eval hsat hk hv hlit]
  obtain ⟨ticket, handles, hwrap⟩ :=
    @Environment.exec_wrap { s.env with terms } f.type r l hl haccepts
  have hin : (inEnvironment (Environment.wrap f.type r)).exec
      { s with env := { s.env with terms } } =
      (.ok ⟨r, f.type, s.env.id, ticket⟩, { s with env := { s.env with terms, handles } }) := by
    unfold inEnvironment
    rw [Effect.exec_on, hwrap]
  refine ⟨ticket, handles, ?_⟩
  unfold evaluate
  rw [Effect.exec_bind_ok (exec_ensureOpen ho), Effect.exec_bind_ok hunwrap,
    Effect.exec_bind_ok heval]
  exact Effect.exec_bind_ok hin _

/-- A check that says yes leaves a model. -/
theorem ensures_check (s : Site FoldingSolver) : check.Ensures s fun sat t =>
    sat = true → t.stack.closed = false ∧ t.stack.session.last = some .sat := by
  have hrunning : ∀ t : Site FoldingSolver, t.stack.closed = false →
      ensureRunning.Ensures t fun _ t => t.stack.closed = false := by
    intro t ht a u hu
    rw [exec_ensureRunning] at hu
    cases hr : t.notifier.reason <;> rw [hr] at hu <;> cases hu
    exact ht
  refine .bind (ensures_ensureOpen s) fun _ t ht => ?_
  obtain ⟨rfl, ho⟩ := ht
  refine .bind (hrunning t ho) fun _ t ht =>
    .bind (P := fun v t => t.stack.closed = false ∧ t.stack.session.last = some v) ?_
      fun v t ht => .bind (.update (R := fun _ t =>
        t.stack.closed = false ∧ t.stack.session.last = some v) ht) fun _ t ht => ?_
  · exact .on fun v u hu => ⟨ht, FoldingSolver.last_check hu⟩
  · cases v with
    | sat => exact .pure fun _ => ht
    | unsat => exact .pure fun h => by cases h
    | unknown =>
      refine .bind (P := fun _ _ => True) (fun _ _ _ => trivial) fun _ t _ => ?_
      exact .bind (P := fun _ _ => True) (fun _ _ _ => trivial) fun _ _ _ => .throw _

end Site

namespace Value

/-- The literal of a value in a type. -/
def constant? : Value → FormulaType → Option ConstantValue
  | truth b, .boolean => some (.bool b)
  | number q, .integer => if q.den = 1 then some (.integer q.num) else none
  | number q, .rational => some (.rational q)
  | _, _ => none

/-- A literal is made and read back. -/
theorem literal_of_constant? {v : Value} {k : TermSort} {c : ConstantValue}
    (h : v.constant? k.type = some c) (s : Store) :
    ∃ t u, v.literal k s = .ok (t, u) ∧ u.sort? t = some k ∧
      u.constantValue t = .ok (some c) := by
  have hintern : ∀ {o : Operator} {l : TermSort}, ConstantValue.ofNode? ⟨o, [], l⟩ = some c →
      (s.intern ⟨o, [], l⟩).2.constantValue (s.intern ⟨o, [], l⟩).1 = .ok (some c) := by
    intro o l hc
    rw [Store.constantValue, Store.node_eq_ok.2 (s.node?_intern _), ← hc]
    rfl
  cases v with
  | truth b =>
    cases k with
    | bool =>
      cases h
      exact ⟨_, _, rfl, s.sort?_intern _, hintern (by cases b <;> rfl)⟩
    | int | real | bitvec | array => cases h
  | number q =>
    cases k with
    | int =>
      obtain ⟨hq, hc⟩ := Option.ite_none_right_eq_some.1 h
      cases hc
      have hnumeral : (Value.number q).literal .int s = .ok (s.intern ⟨.int q.num, [], .int⟩) := by
        rw [literal, Build.numeral, if_pos hq]
        rfl
      exact ⟨_, _, hnumeral, s.sort?_intern _, hintern rfl⟩
    | real =>
      cases h
      exact ⟨_, _, rfl, s.sort?_intern _, hintern rfl⟩
    | bool | bitvec | array => cases h
  | bits => cases h

end Value

namespace World

variable {w : World FoldingSolver} {id : Nat} {s : AssertionStack FoldingSolver} {ctx : Context}

/-- A stack of a context that is open, and whose last check found a model. -/
def HasModel (w : World FoldingSolver) (i id : Nat) : Prop :=
  ∃ s, w.stack? id = some s ∧ s.home = i ∧ s.closed = false ∧ s.session.last = some .sat

/-- In a model, a formula whose value folding finds evaluates to a literal of its type. -/
theorem exec_evaluate (hs : w.stack? id = some s) (hctx : w.contexts[s.home]? = some ctx)
    (ho : s.closed = false) (hsat : s.session.last = some .sat) {f : Formula} {k : TermSort}
    {v : Value} {c : ConstantValue} (howner : f.owner = ctx.env.id) (htype : f.type = k.type)
    (hk : ctx.env.terms.sort? f.term = some k) (hv : ctx.env.terms.fold true f.term = some v)
    (hc : v.constant? k.type = some c) :
    ∃ g w' ctx', (atStack id (Site.evaluate f)).exec w = (.ok (some g), w') ∧
      w'.contexts[s.home]? = some ctx' ∧ g.owner = ctx'.env.id ∧ g.type = f.type ∧
        ctx'.env.terms.constantValue g.term = .ok (some c) := by
  obtain ⟨r, terms, hliteral, hr, hconstant⟩ := Value.literal_of_constant? hc ctx.env.terms
  have haccepts : f.type.accepts k.type = true := by
    rw [htype]
    exact FormulaType.accepts_self _
  obtain ⟨ticket, handles, hx⟩ := Site.exec_evaluate (s := w.site ctx s) (f := f)
    ho hsat howner hk hv hliteral hr haccepts
  have hw := exec_atStack hs hctx (Site.evaluate f)
  rw [hx] at hw
  exact ⟨_, _, _, hw, (context_put hctx _ _).trans (if_pos rfl), rfl, rfl, hconstant⟩

end World

namespace Client

variable {c : Client}

/-- A check that says yes leaves a model. -/
theorem hasModel_of_check (hc : Reachable c) {id : Nat} {w' : World FoldingSolver}
    (h : (World.atStack id Site.check).exec c.world = (.ok true, w')) :
    w'.HasModel (c.world.home id) id := by
  cases hs : c.world.stack? id with
  | none =>
    rw [World.exec_atStack_none hs] at h
    cases h
  | some s =>
    obtain ⟨ctx, hctx, -⟩ := hc.settled.stack id s hs
    have hhome := (Site.check_evolves (c.world.site ctx s)).home
    rw [World.exec_atStack hs hctx, Prod.mk.injEq] at h
    obtain ⟨hx, rfl⟩ := h
    rw [World.home, hs]
    exact ⟨_, (World.stack?_put hs _ _ _).trans (if_pos rfl), hhome,
      Site.ensures_check _ _ _ (Prod.ext hx rfl) rfl⟩

/-- As long as an open stack has a model, what is asserted at it evaluates to true; there is a model
after a check that says yes. Completion gives values where nothing was known, and changes none. -/
theorem evaluate_asserted (hc : Reachable c) :
    (∀ id s ctx, c.world.stack? id = some s → c.world.contexts[s.home]? = some ctx →
      s.closed = false → s.session.last = some .sat →
      ∀ f : BoolFormula, f.formula.owner = ctx.env.id → f.term ∈ s.levels.terms →
        ∃ g w' ctx',
          (World.atStack id (Site.evaluate f.formula)).exec c.world = (.ok (some g), w') ∧
          w'.contexts[s.home]? = some ctx' ∧ g.owner = ctx'.env.id ∧ g.type = .boolean ∧
          ctx'.env.terms.constantValue g.term = .ok (some (.bool true))) ∧
    (∀ id w', (World.atStack id Site.check).exec c.world = (.ok true, w') →
      ∃ s, w'.stack? id = some s ∧ s.closed = false ∧ s.session.last = some .sat) ∧
    (∀ i : Nat, ∀ ctx t v, c.world.contexts[i]? = some ctx →
      ctx.env.terms.fold false t = some v → ctx.env.terms.fold true t = some v) := by
  refine ⟨fun id s ctx hs hctx ho hsat f howner hf => ?_, fun id w' h => ?_,
    fun i ctx t v hctx => (hc.settled.context i ctx hctx).1.fold_refined t v⟩
  · obtain ⟨ctx₁, hctx₁, hconfirmed⟩ := hc.settled.stack id s hs
    obtain ⟨ctx₂, hctx₂, hstack⟩ := hc.valid.sound.stack id s hs
    rw [hctx] at hctx₁ hctx₂
    cases hctx₁
    cases hctx₂
    have hmirrors := hstack.mirrors ho
    have hmem : f.term ∈ s.session.assertions := by
      change f.term ∈ s.session.frames.toList.flatMap (·.assertions)
      rw [hmirrors.terms_eq]
      exact hf
    have hfold := (hc.settled.context _ ctx hctx).1.fold_refined _ _ (hconfirmed hsat _ hmem)
    have htype : f.formula.type = TermSort.bool.type := f.isBoolean
    obtain ⟨g, w', ctx', hx, hctx', hg, htype, hvalue⟩ := World.exec_evaluate hs hctx ho hsat
      howner htype (hmirrors.boolean_of_mem hmem) hfold rfl
    exact ⟨g, w', ctx', hx, hctx', hg, htype.trans f.isBoolean, hvalue⟩
  · obtain ⟨s, hs, -, ho, hlast⟩ := hasModel_of_check hc h
    exact ⟨s, hs, ho, hlast⟩

/-- A term of the first context as a claim that nobody counts. -/
def claimed (t : Term) : BoolFormula := ⟨⟨t, .boolean, 0, none⟩, rfl⟩

/-- A stack after a check of an assertion that folds to true. -/
def satisfied : Client :=
  start.afterAll [.addContext .everything false false default none, .constant 0 .integer "n",
    .build 0 (.eq ⟨0⟩ ⟨0⟩), .openStack 0 false,
    .atStack 0 (.assert (claimed ⟨1⟩) none), .atStack 0 .check]

theorem evaluate_asserted_reflexive :
    ∃ g w' ctx, (World.atStack 0 (Site.evaluate (claimed ⟨1⟩).formula)).exec satisfied.world =
      (.ok (some g), w') ∧ w'.contexts[0]? = some ctx ∧
        ctx.env.terms.constantValue g.term = .ok (some (.bool true)) := by
  have hstate : (satisfied.world.stack? 0).map (fun s =>
      (s.closed, s.home, s.session.last, s.levels.terms)) =
        some (false, 0, some .sat, [⟨1⟩]) := by
    decide +kernel
  have hhome : (satisfied.world.contexts[0]?).map (·.env.id) = some 0 := by decide +kernel
  obtain ⟨s, hs, h⟩ := Option.map_eq_some_iff.1 hstate
  obtain ⟨ctx, hctx, hid⟩ := Option.map_eq_some_iff.1 hhome
  simp only [Prod.mk.injEq] at h
  obtain ⟨ho, hh, hlast, hlevels⟩ := h
  rw [← hh] at hctx
  have hmem : (⟨1⟩ : Term) ∈ s.levels.terms := by
    rw [hlevels]
    exact List.mem_singleton_self _
  have hreachable : Reachable satisfied := run_afterAll start _
  obtain ⟨hevaluate, -⟩ := evaluate_asserted hreachable
  obtain ⟨g, w', ctx', hx, hctx', -, -, hvalue⟩ := hevaluate 0 s ctx hs hctx ho hlast
    (claimed ⟨1⟩) hid.symm hmem
  rw [hh] at hctx'
  exact ⟨g, w', ctx', hx, hctx', hvalue⟩

end Client
end FormulaStack
