import FormulaStack.Proofs.Answers
import FormulaStack.Proofs.Checks

/-!
Worlds in which all that was registered is there and every session is confirmed. Nothing that a
client does leads out of them.
-/
namespace FormulaStack

namespace World

variable {α : Type} {w w' : World FoldingSolver} {c : Context} {s : AssertionStack FoldingSolver}
  {ctx id : Nat}

/-- What was requested of environments is there, and sessions are confirmed. -/
structure Settled (w : World FoldingSolver) : Prop where
  context : ∀ (i : Nat) c, w.contexts[i]? = some c → c.env.terms.WellFormed ∧ c.env.Registered
  stack : ∀ id s, w.stack? id = some s →
    ∃ c, w.contexts[s.home]? = some c ∧ FoldingSolver.Confirmed c.env.terms s.session

/-- Whatever the outcome, a settled world stays so. -/
def Settles (w w' : World FoldingSolver) : Prop := w.Settled → w'.Settled

instance : Std.Refl Settles := ⟨fun _ h => h⟩

instance : IsTrans _ Settles := ⟨fun _ _ _ h g hw => g (h hw)⟩

/-- One environment has evolved, with the stacks that were opened there. -/
theorem Settled.change {env : Environment} (h : w.Settled) (hc : w.contexts[ctx]? = some c)
    (henv : c.env.Evolves env)
    (hcontexts : ∀ i, w'.contexts[i]? = if i = ctx then some { c with env } else w.contexts[i]?)
    (hstacks : ∀ j s', w'.stack? j = some s' → w.stack? j = some s' ∨
      s'.home = ctx ∧ FoldingSolver.Confirmed env.terms s'.session) : w'.Settled := by
  obtain ⟨hw, hr⟩ := h.context ctx c hc
  refine ⟨fun i c' hc' => ?_, fun j s' hs' => ?_⟩
  · rw [hcontexts] at hc'
    split at hc'
    · cases hc'
      exact ⟨henv.terms.wellFormed hw, henv.registered hr⟩
    · exact h.context i c' hc'
  · rw [hcontexts]
    obtain hold | ⟨hhome, hconfirmed⟩ := hstacks j s' hs'
    · obtain ⟨c', hc', hconfirmed⟩ := h.stack j s' hold
      split
      · next hh =>
        rw [hh, hc] at hc'
        cases hc'
        exact ⟨_, rfl, hconfirmed.mono hw henv.terms (fun h => h) rfl⟩
      · exact ⟨c', hc', hconfirmed⟩
    · rw [if_pos hhome]
      exact ⟨_, rfl, hconfirmed⟩

/-- Contexts are the same, and sessions give the same models. -/
structure Echoes (w w' : World FoldingSolver) : Prop where
  contexts : w'.contexts = w.contexts
  stack : ∀ j s', w'.stack? j = some s' → ∃ s, w.stack? j = some s ∧ s'.home = s.home ∧
    s'.session.last = s.session.last ∧ s'.session.assertions = s.session.assertions

theorem Echoes.trans {w'' : World FoldingSolver} (h : w.Echoes w') (g : w'.Echoes w'') :
    w.Echoes w'' := by
  refine ⟨g.contexts.trans h.contexts, fun j s'' hs'' => ?_⟩
  obtain ⟨s', hs', hhome', hlast', hassertions'⟩ := g.stack j s'' hs''
  obtain ⟨s, hs, hhome, hlast, hassertions⟩ := h.stack j s' hs'
  exact ⟨s, hs, hhome'.trans hhome, hlast'.trans hlast, hassertions'.trans hassertions⟩

theorem Echoes.settles (h : w.Echoes w') : w.Settles w' := by
  refine fun hw => ⟨fun i c hc => hw.context i c (h.contexts ▸ hc), fun j s' hs' => ?_⟩
  obtain ⟨s, hs, hhome, hlast, hassertions⟩ := h.stack j s' hs'
  obtain ⟨c, hc, hconfirmed⟩ := hw.stack j s hs
  rw [h.contexts, hhome]
  exact ⟨c, hc, hconfirmed.mono (hw.context _ c hc).1 (.refl _) (fun h => hlast ▸ h) hassertions⟩

theorem Echoes.of_eq (hc : w'.contexts = w.contexts) (ht : w'.stackTable = w.stackTable) :
    w.Echoes w' := by
  refine ⟨hc, fun j s' hs' => ⟨s', ?_, rfl, rfl, rfl⟩⟩
  rwa [stack?, ht] at hs'

instance : Std.Refl Echoes := ⟨fun _ => .of_eq rfl rfl⟩

instance : IsTrans (World FoldingSolver) Echoes := ⟨fun _ _ _ => Echoes.trans⟩

/-! Work in environments and at stacks -/

theorem inEnvironment_settles {e : Effect Environment α}
    (he : Effect.Within Environment.Evolves e) (ctx : Nat) :
    Effect.Within Settles (inEnvironment ctx e) := by
  refine inEnvironment_within fun w c hc h => ?_
  exact h.change hc (he c.env) (context_setEnvironment hc _) fun _ _ hs => .inl hs

theorem atStack_settles {e : Effect (Site FoldingSolver) α}
    (he : Effect.Within Site.Evolves e) (id : Nat) : Effect.Within Settles (atStack id e) := by
  refine atStack_within fun w c s hs hc h => ?_
  obtain ⟨c', hc', hconfirmed⟩ := h.stack id s hs
  obtain rfl : c = c' := Option.some.inj (hc.symm.trans hc')
  have hk := he (w.site c s)
  refine h.change hc hk.env (context_put hc _) fun j s' hs' => ?_
  rw [stack?_put hs] at hs'
  split at hs'
  · cases hs'
    exact .inr ⟨hk.home, hk.confirmed (h.context _ c hc).1 hconfirmed⟩
  · exact .inl hs'

theorem closeStack_settles (id : Nat) :
    Effect.Within Settles (closeStack id : Effect (World FoldingSolver) Unit) :=
  closeStack_within (atStack_settles Site.close_evolves id)

theorem publish_settles (ctx : Nat) (symbol : Symbol) :
    Effect.Within Settles (publish ctx symbol : Effect (World FoldingSolver) Unit) :=
  publish_within (tell_within (atStack_settles (Site.symbolRequested_evolves symbol))
    (atStack_settles Site.close_evolves) fun _ _ => Echoes.settles (.of_eq rfl rfl))

theorem constantTerm_settles (ctx : Nat) (type : FormulaType) (name : String) :
    Effect.Within Settles (constantTerm ctx type name : Effect (World FoldingSolver) Term) :=
  constantTerm_within
    (inEnvironment_settles (Environment.requestVariable_evolves type name) ctx)
    (publish_settles ctx)

theorem constant_settles (ctx : Nat) (type : FormulaType) (name : String) :
    Effect.Within Settles (constant ctx type name : Effect (World FoldingSolver) Formula) :=
  .bind (constantTerm_settles ctx type name) fun t =>
    inEnvironment_settles (Environment.wrap_evolves type t) ctx

theorem function_settles (ctx : Nat) (name : String) (result : FormulaType)
    (arguments : List FormulaType) : Effect.Within Settles
      (function ctx name result arguments : Effect (World FoldingSolver) FunctionDeclaration) :=
  function_within
    (inEnvironment_settles (Environment.requestFunction_evolves name arguments result) ctx)
    (publish_settles ctx)

/-! Contexts and stacks that come and go -/

theorem addContext_settles (theories : Theories) (counting announced : Bool) (options : Options)
    (notifierOf : Option Nat) (w : World FoldingSolver) :
    w.Settles (w.addContext theories counting announced options notifierOf) := by
  intro h
  have hpush : ∀ (w' : World FoldingSolver) options notifier,
      w'.contexts = w.contexts.push ⟨Environment.new w.contexts.size theories counting announced
        options.trackReferences, options, notifier⟩ →
      w'.stackTable = w.stackTable → w'.Settled := by
    intro w' options notifier hcontexts hstacks
    refine ⟨fun i c hc => ?_, fun j s hs => ?_⟩
    · rw [hcontexts, Array.getElem?_push] at hc
      split at hc
      · cases hc
        exact ⟨Store.wellFormed_empty, .new _ _ _ _ _⟩
      · exact h.context i c hc
    · rw [stack?, hstacks] at hs
      obtain ⟨c, hc, hconfirmed⟩ := h.stack j s hs
      refine ⟨c, ?_, hconfirmed⟩
      rw [hcontexts, Array.getElem?_push, if_neg (Array.getElem?_eq_some_iff.1 hc).1.ne, hc]
  unfold addContext
  dsimp only
  split <;> exact hpush _ options _ rfl rfl

theorem opened_settles (hc : w.contexts[ctx]? = some c) (hhome : s.home = ctx)
    (hlast : s.session.last = none) : w.Settles (w.opened ctx s) := by
  refine fun h => h.change hc (Environment.evolves_terms (.refl _) _ _) (context_opened hc s)
    fun j s' hs' => ?_
  rw [stack?_opened] at hs'
  split at hs'
  · cases hs'
    refine .inr ⟨hhome, fun hsat => ?_⟩
    rw [hlast] at hsat
    cases hsat
  · exact .inl hs'

theorem react_echoes (reason : String) (w : World FoldingSolver) (r : Reaction) :
    w.Echoes (react reason w r) := by
  cases r with
  | note name => exact .of_eq rfl rfl
  | interrupt id =>
    refine ⟨rfl, fun j s' hs' => ?_⟩
    rw [stack?_eq_some] at hs'
    change (w.stackTable.modify id _)[j]? = _ at hs'
    rw [Array.getElem?_modify] at hs'
    split at hs'
    · obtain ⟨o, ho, hs'⟩ := Option.map_eq_some_iff.1 hs'
      obtain ⟨s, rfl, rfl⟩ := Option.map_eq_some_iff.1 hs'
      exact ⟨s, stack?_eq_some.2 ho, rfl, rfl, rfl⟩
    · exact ⟨s', stack?_eq_some.2 hs', rfl, rfl, rfl⟩

theorem setNotifier_echoes (n : Notifier Reaction) (w : World FoldingSolver) :
    w.Echoes (setNotifier ctx n w) :=
  .of_eq (contexts_setNotifier n w) (stackTable_setNotifier n w)

theorem requestStop_echoes (ctx : Nat) (reason : String) (w : World FoldingSolver) :
    w.Echoes (requestStop ctx reason w) :=
  requestStop_within (setNotifier_echoes _ w) fun r w => react_echoes reason w r

theorem listen_echoes (ctx : Nat) (r : Reaction) (w : World FoldingSolver) :
    w.Echoes (listen ctx r w).2 :=
  listen_within (setNotifier_echoes _ w) fun reason w => react_echoes reason w r

theorem openStack_settles {held : Multiset Formula} {history : Nat → History}
    (hw : w.Sound held history) (ctx : Nat) (interpolating : Bool) :
    w.Settles ((openStack ctx FoldingSolver.new interpolating).exec w).2 := by
  intro h
  cases hc : w.contexts[ctx]? with
  | none =>
    rw [exec_openStack_none hc]
    exact h
  | some c =>
    obtain ⟨ds, hd⟩ := exists_forall₂ (hw.context ctx c hc).declarable
    rw [exec_openStack hc interpolating hd]
    exact (listen_echoes _ _ _).settles (opened_settles hc rfl rfl h)

theorem newStack_settles {held : Multiset Formula} {history : Nat → History}
    (hw : w.Sound held history) (ctx : Nat) (interpolating : Bool) :
    w.Settles ((newStack ctx FoldingSolver.new interpolating).exec w).2 :=
  newStack_within (openStack_settles hw ctx interpolating)

theorem dropStack_settles (id : Nat) (w : World FoldingSolver) : w.Settles (w.dropStack id) :=
  dropStack_within (closeStack_settles id w) fun _ h =>
    ⟨h.context, fun j s hs => h.stack j s (stack?_of_withStack_none hs)⟩

/-- Wrappers that come and go. -/
theorem modify_settles {f : Environment → Environment}
    (hf : ∀ env : Environment, env.Evolves (f env)) (ctx : Nat) (w : World FoldingSolver) :
    w.Settles { w with contexts := w.contexts.modify ctx fun c => { c with env := f c.env } } := by
  refine modify_within fun c hc h => ?_
  exact h.change hc (hf c.env) (context_setEnvironment hc _) fun _ _ hs => .inl hs

end World

namespace Client

variable {c d : Client}

theorem perform_settles (op : Operation) (hc : c.Valid) :
    c.world.Settles (op.perform.exec c.world).2 := by
  cases op with
  | addContext theories counting announced options notifierOf =>
    exact World.addContext_settles theories counting announced options notifierOf c.world
  | build ctx constructor =>
    exact (Effect.Within.bind (World.inEnvironment_settles
      (Environment.build_evolves constructor.grows) ctx) fun _ => .pure _) c.world
  | wrap ctx type t =>
    exact (Effect.Within.bind (World.inEnvironment_settles
      (Environment.wrap_evolves type t) ctx) fun _ => .pure _) c.world
  | wrapBool ctx t =>
    exact (Effect.Within.bind (World.inEnvironment_settles
      (Environment.wrapBool_evolves t) ctx) fun _ => .pure _) c.world
  | cleanUp ctx =>
    exact (Effect.Within.bind (World.inEnvironment_settles
      Environment.cleanUp_evolves ctx) fun _ => .pure _) c.world
  | constant ctx type name =>
    exact (Effect.Within.bind (World.constant_settles ctx type name) fun _ => .pure _) c.world
  | function ctx name result arguments =>
    exact (Effect.Within.bind (World.function_settles ctx name result arguments) fun _ =>
      .pure _) c.world
  | openStack ctx interpolating =>
    unfold Operation.perform
    rw [Effect.exec_bind_pure]
    exact World.openStack_settles hc.sound ctx interpolating
  | newStack ctx interpolating =>
    unfold Operation.perform
    rw [Effect.exec_bind_pure]
    exact World.newStack_settles hc.sound ctx interpolating
  | atStack id operation => exact World.atStack_settles (Site.perform_evolves operation) id c.world
  | dropStack id => exact World.dropStack_settles id c.world
  | requestStop ctx reason => exact (World.requestStop_echoes ctx reason c.world).settles
  | listen ctx reaction => exact (World.listen_echoes ctx reaction c.world).settles
  | unlisten ctx id => exact (World.setNotifier_echoes _ c.world).settles

theorem step_settles (h : Step c d) (hc : c.Valid) : c.world.Settles d.world := by
  cases h with
  | operation _ op => exact perform_settles op hc
  | clone _ hf => exact World.modify_settles (Environment.evolves_retain _) _ c.world
  | drop w f held history => exact World.modify_settles (Environment.evolves_discard f) _ w
  | search _ id h => exact World.atStack_settles (Site.nextModel?_evolves _) id c.world
  | block _ negations h => exact World.atStack_settles (Site.block_evolves negations) _ c.world

theorem Reachable.settled (h : Reachable c) : c.world.Settled := by
  induction h with
  | refl =>
    refine ⟨fun i c hc => ?_, fun id s hs => ?_⟩
    · simp [start, World.empty] at hc
    · rw [World.stack?_eq_some] at hs
      simp [start, World.empty] at hs
  | tail hrun hstep ih => exact step_settles hstep (run_valid hrun valid_start).1 ih

end Client
end FormulaStack
