import FormulaStack.Proofs.Runs
import FormulaStack.Proofs.Turns

/-!
What happens in worlds on any sessions: what clients do, and watches that come and go. Whatever it
is, it is some moves one after the other: an environment works or learns of a symbol, a stack takes
its turns, contexts and stacks come and go.
-/
namespace FormulaStack

/-- What can be done in a world: on which sessions stacks are opened, and at which stacks there is
work; whether symbols are requested, and whether watches come and go. -/
structure Setting (σ : Type) where
  fresh : σ → Prop
  working : Nat → Prop
  requesting : Prop
  watching : Prop

/-- Anything can be done. -/
def Setting.free {σ : Type} : Setting σ := ⟨fun _ => True, fun _ => True, True, True⟩

/-- What can happen in a world. -/
inductive Event (σ : Type) where
  | addContext (theories : Theories) (counting announced : Bool) (options : Options)
    (notifierOf : Option Nat)
  | build (ctx : Nat) (constructor : Constructor)
  | wrap (ctx : Nat) (type : FormulaType) (t : Term)
  | wrapBool (ctx : Nat) (t : Term)
  | cleanUp (ctx : Nat)
  | retain (f : Formula)
  | discard (f : Formula)
  | constant (ctx : Nat) (type : FormulaType) (name : String)
  | function (ctx : Nat) (name : String) (result : FormulaType) (arguments : List FormulaType)
  | openStack (ctx : Nat) (session : σ) (interpolating : Bool)
  | newStack (ctx : Nat) (session : σ) (interpolating : Bool)
  | atStack (id : Nat) (operation : StackOperation)
  /-- The search for the next model in an enumeration. -/
  | search (id : Nat) (important : List (BoolFormula × Term))
  /-- The assertion that blocks a model in an enumeration. -/
  | block (id : Nat) (negations : List Term)
  | dropStack (id : Nat)
  | requestStop (ctx : Nat) (reason : String)
  | listen (ctx : Nat) (reaction : Reaction)
  | unlisten (ctx id : Nat)
  | addWatch (ctx : Nat) (closes : Option Nat) (fails : Bool)
  | removeWatch (ctx id : Nat)
  | aimWatch (id stack : Nat)
  | dropWatch (id : Nat)

namespace World

variable {σ : Type}

/-- Some watch is set to close a stack. -/
def Aims (w : World σ) (id : Nat) : Prop :=
  ∃ (k : Nat) (watch : Watch), w.watches[k]?.join = some watch ∧ watch.closes = some id

theorem watches_setNotifier (ctx : Nat) (n : Notifier Reaction) (w : World σ) :
    (setNotifier ctx n w).watches = w.watches := by
  unfold setNotifier
  split <;> rfl

theorem watches_put (w : World σ) (id home : Nat) (t : Site σ) :
    (w.put id home t).watches = w.watches :=
  watches_setNotifier _ _ _

variable [Session σ]

/-- One move of a world, and what it tells of. -/
inductive Move (g : Setting σ) : World σ → List Incident → World σ → Prop
  | environment {w : World σ} {ctx : Nat} {c : Context} {env : Environment}
    (hc : w.contexts[ctx]? = some c) (h : c.env.Works env) : Move g w [] (setEnvironment ctx env w)
  | requested {w : World σ} {ctx : Nat} {c : Context} {env : Environment} {symbol : Symbol}
    {d : FuncDecl} (hg : g.requesting) (hc : w.contexts[ctx]? = some c)
    (h : c.env.Declares symbol d env) : Move g w [] (setEnvironment ctx env w)
  | site {w : World σ} {id : Nat} {s : AssertionStack σ} {c : Context} {told : List Incident}
    {t : Site σ} (hg : g.working id) (hs : w.stack? id = some s)
    (hc : w.contexts[s.home]? = some c) (h : Trail Site.Turn (w.site c s) told t) :
    Move g w told (w.put id s.home t)
  | context (w : World σ) (theories : Theories) (counting announced : Bool) (options : Options)
    (notifierOf : Option Nat) :
    Move g w [] (w.addContext theories counting announced options notifierOf)
  /-- A stack is opened, whose session has learned of all symbols. -/
  | opened {w : World σ} {ctx : Nat} {c : Context} {session session' : σ} {terms : Store}
    (hc : w.contexts[ctx]? = some c) (hg : g.fresh session)
    (h : (c.env.declared.forM Session.declare : SessionM σ Unit).exec (c.env.terms, session) =
      (.ok (), terms, session')) (interpolating : Bool) :
    Move g w [] ((setEnvironment ctx { c.env with terms } w).opened ctx
      (w.opening ctx c interpolating session'))
  /-- A stack is not opened, as its session refuses a symbol. -/
  | unopened {w : World σ} {ctx : Nat} {c : Context} {session session' : σ} {terms : Store}
    {x : Fault} (hc : w.contexts[ctx]? = some c) (hg : g.fresh session)
    (h : (c.env.declared.forM Session.declare : SessionM σ Unit).exec (c.env.terms, session) =
      (.error x, terms, session')) : Move g w [] (setEnvironment ctx { c.env with terms } w)
  | dropped {w : World σ} {id : Nat} {s : AssertionStack σ} (hg : g.working id)
    (hs : w.stack? id = some s) (hcl : s.closed = true) :
    Move g w [.dropped id s.home s.levels.terms] (w.withStack id none)
  | reacted (w : World σ) (reason : String) (r : Reaction) : Move g w [] (react reason w r)
  /-- What concerns neither contexts nor stacks. -/
  | beside {w w' : World σ} (hcontexts : w'.contexts = w.contexts)
    (hstacks : w'.stackTable = w.stackTable) (haims : ∀ id, w'.Aims id → w.Aims id) :
    Move g w [] w'
  /-- Watches come or go, or are set to close other stacks. -/
  | watched {w w' : World σ} (hg : g.watching) (hsize : w'.contexts.size = w.contexts.size)
    (hstacks : w'.stackTable = w.stackTable) (haims : ∀ id, w'.Aims id → w.Aims id ∨ g.working id)
    (hcontexts : ∀ (i : Nat) c', w'.contexts[i]? = some c' → ∃ c observers,
      w.contexts[i]? = some c ∧ c' = { c with env := { c.env with observers } } ∧
        ∀ id, observers.count (.stack id) = c.env.observers.count (.stack id)) : Move g w [] w'

/-- What moves lead to. -/
abbrev Reaches (g : Setting σ) : World σ → World σ → Prop := Trail.Leads (Move g)

/-- What moves lead to with which no stack receives a symbol. -/
abbrev Passes (g : Setting σ) : World σ → World σ → Prop := Trail.LeadsBy Incident.Silent (Move g)

variable {g : Setting σ} {α : Type} {w w' : World σ} {c : Context} {ctx id : Nat}

theorem Move.passes (h : Move g w [] w') : w.Passes g w' := .single h nofun

theorem reaches_of_passes {e : Effect (World σ) α} (he : Effect.Within (Passes g) e) :
    Effect.Within (Reaches g) e :=
  fun w => (he w).leads

/-! Work in environments and at stacks -/

theorem inEnvironment_passes {e : Effect Environment α} (he : Effect.Within Environment.Works e)
    (ctx : Nat) : Effect.Within (Passes g) (inEnvironment ctx e) :=
  inEnvironment_within fun _ c hc => (Move.environment hc (he c.env)).passes

theorem modify_passes {f : Environment → Environment} (hf : ∀ env : Environment, env.Works (f env))
    (ctx : Nat) (w : World σ) : w.Passes g
      { w with contexts := w.contexts.modify ctx fun c => { c with env := f c.env } } :=
  modify_within fun c hc => (Move.environment hc (hf c.env)).passes

/-- Work at a stack is a move, which tells of what the stack's turns tell of. -/
theorem atStack_cases {e : Effect (Site σ) α} {P : List Incident → Prop} (hg : g.working id)
    (he : ∀ c s, w.stack? id = some s →
      ∃ told, P told ∧ Trail Site.Turn (w.site c s) told (e.exec (w.site c s)).2) :
    ((atStack id e).exec w).2 = w ∨
      ∃ told, P told ∧ Move g w told ((atStack id e).exec w).2 := by
  cases hs : w.stack? id with
  | none => exact .inl (congrArg Prod.snd (exec_atStack_none hs e))
  | some s =>
    cases hc : w.contexts[s.home]? with
    | none => exact .inl (congrArg Prod.snd (exec_atStack_foreign hs hc e))
    | some c =>
      obtain ⟨told, hP, h⟩ := he c s hs
      rw [exec_atStack hs hc]
      exact .inr ⟨told, hP, .site hg hs hc h⟩

theorem atStack_passes {e : Effect (Site σ) α} (he : Effect.Within Site.Passes e)
    (hg : g.working id) : Effect.Within (Passes g) (atStack id e) := by
  intro w
  obtain hx | ⟨told, hP, h⟩ := atStack_cases (w := w) hg fun c s _ => (he (w.site c s)).imp
    fun _ h => h.symm
  · rw [hx]
    exact Std.Refl.refl w
  · exact .single h hP

/-- A stack receives the symbol that it is told of, or none. -/
theorem atStack_receives {e : Effect (Site σ) α} {symbol : Symbol}
    (he : ∀ s : Site σ, s.Receives symbol (e.exec s).2) (hg : g.working id) (w : World σ) :
    w.Passes g ((atStack id e).exec w).2 ∨ ∃ s, w.stack? id = some s ∧
      Trail (Move g) w [.received s.id symbol] ((atStack id e).exec w).2 := by
  obtain hx | ⟨told, rfl | ⟨s, hs, rfl⟩, h⟩ := atStack_cases (w := w) hg
    (P := fun told => told = [] ∨ ∃ s, w.stack? id = some s ∧ told = [.received s.id symbol])
    fun c s hs => (he (w.site c s)).elim (fun h => ⟨_, .inl rfl, h⟩)
      fun h => ⟨_, .inr ⟨s, hs, rfl⟩, h⟩
  · rw [hx]
    exact .inl (Std.Refl.refl w)
  · exact .inl h.passes
  · exact .inr ⟨s, hs, .single h⟩

theorem closeStack_passes (hg : g.working id) :
    Effect.Within (Passes g) (closeStack id : Effect (World σ) Unit) :=
  closeStack_within (atStack_passes Site.close_passes hg)

/-! Symbols -/

omit [Session σ] in
/-- A watch that was told of a symbol closes the stack that it was set to close before. -/
theorem aims_note {id stack : Nat} {watch noted : Watch} (h : w'.Aims stack)
    (hw : w'.watches = w.watches.setIfInBounds id (some noted))
    (hwatch : w.watches[id]?.join = some watch) (hnoted : noted.closes = watch.closes) :
    w.Aims stack := by
  obtain ⟨k, watch', hk, hcloses⟩ := h
  rw [hw, Array.getElem?_setIfInBounds] at hk
  split at hk
  · split at hk
    · cases hk
      exact ⟨id, watch, hwatch, hnoted ▸ hcloses⟩
    · cases hk
  · exact ⟨k, watch', hk, hcloses⟩

/-- What an observer is told is received at stacks where there may be work, or closes such ones. -/
theorem tell_receives (symbol : Symbol) {o : Observer} (ho : ∀ id, o = .stack id → g.working id)
    (hw : ∀ id, w.Aims id → g.working id) :
    w.Passes g ((tell symbol o).exec w).2 ∨ ∃ id s, o = .stack id ∧ w.stack? id = some s ∧
      Trail (Move g) w [.received s.id symbol] ((tell symbol o).exec w).2 := by
  cases o with
  | stack id =>
    unfold tell
    rw [Effect.exec_bind_ok (Effect.exec_get _)]
    split
    · exact (atStack_receives (Site.symbolRequested_receives symbol) (ho id rfl) w).imp_right
        fun ⟨s, hs, h⟩ => ⟨id, s, rfl, hs, h⟩
    · exact .inl (Std.Refl.refl w)
  | watch id =>
    refine .inl ?_
    cases hwatch : w.watches[id]?.join with
    | none =>
      rw [exec_tell_nobody hwatch]
      exact Std.Refl.refl w
    | some watch =>
      have hnoted : w.Passes g (w.receiving id watch symbol) :=
        .single (.beside rfl rfl fun _ h => aims_note h rfl hwatch rfl) nofun
      rw [exec_tell_watch hwatch]
      exact hnoted.trans (respond_within
        (fun stack hcloses => closeStack_passes (hw stack ⟨id, watch, hwatch, hcloses⟩)) _)

theorem tell_reaches (symbol : Symbol) {o : Observer} (ho : ∀ id, o = .stack id → g.working id)
    (hw : ∀ id, w.Aims id → g.working id) : w.Reaches g ((tell symbol o).exec w).2 :=
  (tell_receives symbol ho hw).elim (·.leads) fun ⟨_, _, _, _, h⟩ => ⟨_, h⟩

theorem publish_reaches (hg : ∀ id, g.working id) (ctx : Nat) (symbol : Symbol) :
    Effect.Within (Reaches g) (publish ctx symbol : Effect (World σ) Unit) :=
  publish_within fun _ _ => tell_reaches symbol (fun id _ => hg id) fun id _ => hg id

theorem request_reaches (hg : g.requesting) (hall : ∀ id, g.working id)
    {request : Effect Environment (α × Option Symbol)} {f : α × Option Symbol → Effect (World σ) α}
    (hrequest : ∀ env, Environment.Requested env (request.exec env))
    (hold : ∀ a, f (a, none) = pure a)
    (hnew : ∀ a symbol, f (a, some symbol) = publish ctx symbol >>= fun _ => pure a) :
    Effect.Within (Reaches g) (inEnvironment ctx request >>= f) := by
  intro w
  obtain hsame | ⟨c, symbol, d, env, hc, hd, hx⟩ := request_cases hrequest hold hnew w
  · rw [hsame]
    exact Std.Refl.refl w
  · rw [hx]
    exact .trans (.single (.requested hg hc hd)) (publish_reaches hall ctx symbol _)

theorem constantTerm_reaches (hg : g.requesting) (hall : ∀ id, g.working id) (ctx : Nat)
    (type : FormulaType) (name : String) :
    Effect.Within (Reaches g) (constantTerm ctx type name : Effect (World σ) Term) :=
  request_reaches hg hall (Environment.requestVariable_requested type name) (fun _ => rfl)
    fun _ _ => rfl

theorem constant_reaches (hg : g.requesting) (hall : ∀ id, g.working id) (ctx : Nat)
    (type : FormulaType) (name : String) :
    Effect.Within (Reaches g) (constant ctx type name : Effect (World σ) Formula) :=
  .bind (constantTerm_reaches hg hall ctx type name) fun t =>
    reaches_of_passes (inEnvironment_passes (Environment.wrap_works type t) ctx)

theorem function_reaches (hg : g.requesting) (hall : ∀ id, g.working id) (ctx : Nat)
    (name : String) (result : FormulaType) (arguments : List FormulaType) :
    Effect.Within (Reaches g)
      (function ctx name result arguments : Effect (World σ) FunctionDeclaration) :=
  request_reaches hg hall (Environment.requestFunction_requested name arguments result)
    (fun _ => rfl) fun _ _ => rfl

/-! Stacks that come and go -/

theorem setNotifier_passes (n : Notifier Reaction) (w : World σ) :
    w.Passes g (setNotifier ctx n w) :=
  (Move.beside (contexts_setNotifier n w) (stackTable_setNotifier n w) fun id h => by
    rwa [Aims, watches_setNotifier] at h).passes

theorem requestStop_passes (ctx : Nat) (reason : String) (w : World σ) :
    w.Passes g (requestStop ctx reason w) :=
  requestStop_within (setNotifier_passes _ w) fun r w => (Move.reacted w reason r).passes

theorem listen_passes (ctx : Nat) (r : Reaction) (w : World σ) :
    w.Passes g (listen ctx r w).2 :=
  listen_within (setNotifier_passes _ w) fun reason w => (Move.reacted w reason r).passes

theorem openStack_passes {session : σ} (hg : g.fresh session) (ctx : Nat) (interpolating : Bool) :
    Effect.Within (Passes g) (openStack ctx session interpolating) := fun _ =>
  openStack_within (fun _ _ _ _ hc hx => (Move.unopened hc hg hx).passes)
    fun _ _ _ hc hx => (Move.opened hc hg hx interpolating).passes.trans (listen_passes ctx _ _)

theorem newStack_passes {session : σ} (hg : g.fresh session) (ctx : Nat) (interpolating : Bool) :
    Effect.Within (Passes g) (newStack ctx session interpolating) := fun w =>
  newStack_within (openStack_passes hg ctx interpolating w)

/-- Every stack has the context that it was opened in. -/
def Housed (w : World σ) : Prop := ∀ id s, w.stack? id = some s → s.home < w.contexts.size

omit [Session σ] in
theorem Housed.exists_context {w : World σ} {id : Nat} {s : AssertionStack σ} (hw : w.Housed)
    (hs : w.stack? id = some s) : ∃ c, w.contexts[s.home]? = some c :=
  ⟨_, Array.getElem?_eq_getElem (hw id s hs)⟩

omit [Session σ] in
theorem housed_empty : (empty : World σ).Housed := by
  intro id s hs
  rw [stack?_eq_some] at hs
  simp [empty] at hs

/-- A stack is closed once it was told to close. -/
theorem Housed.closed_closeStack (hw : w.Housed) {t : AssertionStack σ}
    (ht : ((closeStack id).exec w).2.stack? id = some t) : t.closed = true := by
  unfold closeStack at ht
  rw [Effect.exec_bind_ok (Effect.exec_get _)] at ht
  cases hs : w.stack? id with
  | none =>
    rw [hs] at ht
    cases hs.symm.trans ht
  | some s =>
    obtain ⟨c, hc⟩ := hw.exists_context hs
    rw [hs, Option.isSome_some, if_pos rfl, exec_atStack hs hc, stack?_put hs, if_pos rfl] at ht
    exact Option.some.inj ht ▸ Site.closed_close (w.site c s)

/-- Where a stack goes that was there, it was closed before. -/
theorem Housed.dropStack_within {R : World σ → World σ → Prop} [IsTrans _ R] (hw : w.Housed)
    (hclose : R w ((closeStack id).exec w).2)
    (hgone : ∀ w : World σ, (∀ s, w.stack? id = some s → s.closed = true) →
      R w (w.withStack id none)) : R w (w.dropStack id) := by
  unfold dropStack
  cases hs : w.stack? id with
  | none => exact hgone w fun s hs' => by cases hs.symm.trans hs'
  | some s =>
    dsimp only
    split
    · next hcl =>
      refine hgone w fun s' hs' => ?_
      cases hs.symm.trans hs'
      exact hcl
    · exact trans_of R hclose (hgone _ fun _ => hw.closed_closeStack)

theorem dropStack_passes (hg : g.working id) (hw : w.Housed) :
    w.Passes g (w.dropStack id) := by
  refine hw.dropStack_within (closeStack_passes hg w) fun w hcl => ?_
  cases hs : w.stack? id with
  | none =>
    rw [withStack_none hs]
    exact Std.Refl.refl w
  | some s =>
    exact .single (.dropped hg hs (hcl s hs)) fun _ hi => List.mem_singleton.1 hi ▸ trivial

/-! What moves leave -/

theorem stack?_react {reason : String} {r : Reaction} {j : Nat} {s' : AssertionStack σ}
    (h : (react reason w r).stack? j = some s') :
    ∃ s, w.stack? j = some s ∧
      (s' = s ∨ s' = { s with session := Session.interrupt s.session }) := by
  cases r with
  | note name => exact ⟨s', h, .inl rfl⟩
  | interrupt id =>
    rw [stack?_eq_some] at h
    change (w.stackTable.modify id _)[j]? = _ at h
    rw [Array.getElem?_modify] at h
    split at h
    · obtain ⟨o, ho, h⟩ := Option.map_eq_some_iff.1 h
      obtain ⟨s, rfl, rfl⟩ := Option.map_eq_some_iff.1 h
      exact ⟨s, stack?_eq_some.2 ho, .inr rfl⟩
    · exact ⟨s', stack?_eq_some.2 h, .inl rfl⟩

theorem contexts_react (reason : String) (w : World σ) (r : Reaction) :
    (react reason w r).contexts = w.contexts := by
  cases r <;> rfl

theorem Move.housed {told : List Incident} (h : Move g w told w') (hw : w.Housed) : w'.Housed := by
  cases h with
  | environment hc h | requested hg hc h | unopened hc hg h =>
    intro id s hs
    rw [setEnvironment, Array.size_modify]
    exact hw id s hs
  | site hg hs hc h =>
    intro j s' hs'
    rw [contexts_put, Array.size_modify]
    rw [stack?_put hs] at hs'
    split at hs'
    · cases hs'
      rw [(Site.remains_of_trail h).home]
      exact hw _ _ hs
    · exact hw j s' hs'
  | context theories counting announced options notifierOf =>
    intro j s hs
    obtain ⟨notifier, hcontexts⟩ :=
      contexts_addContext w theories counting announced options notifierOf
    rw [stack?, stackTable_addContext] at hs
    rw [hcontexts, Array.size_push]
    exact Nat.lt_succ_of_lt (hw j s hs)
  | @opened ctx c _ _ _ hc hg h interpolating =>
    intro j s hs
    rw [World.opened, Array.size_modify, setEnvironment, Array.size_modify]
    rw [stack?_opened] at hs
    split at hs
    · cases hs
      exact (Array.getElem?_eq_some_iff.1 hc).1
    · exact hw j s hs
  | dropped hg hs hcl => exact fun j s hs => hw j s (stack?_of_withStack_none hs)
  | reacted reason r =>
    intro j s' hs'
    rw [contexts_react]
    obtain ⟨s, hs, rfl | rfl⟩ := stack?_react hs'
    · exact hw j _ hs
    · exact hw j s hs
  | beside hcontexts hstacks haims =>
    intro j s hs
    rw [hcontexts]
    rw [stack?, hstacks] at hs
    exact hw j s hs
  | watched hg hsize hstacks haims hcontexts =>
    intro j s hs
    rw [hsize]
    rw [stack?, hstacks] at hs
    exact hw j s hs

/-- No watch is set to close another stack than those where there may be work. -/
theorem Move.aims {told : List Incident} (h : Move g w told w') {stack : Nat}
    (hw : w'.Aims stack) : w.Aims stack ∨ g.working stack := by
  cases h with
  | site =>
    rw [Aims, watches_put] at hw
    exact .inl hw
  | context theories counting announced options notifierOf =>
    unfold addContext at hw
    dsimp only at hw
    split at hw <;> exact .inl hw
  | reacted reason r => cases r <;> exact .inl hw
  | beside hcontexts hstacks haims => exact .inl (haims _ hw)
  | watched hg hsize hstacks haims hcontexts => exact haims _ hw
  | _ => exact .inl hw

theorem Reaches.aims (h : w.Reaches g w') {stack : Nat} (hw : w'.Aims stack) :
    w.Aims stack ∨ g.working stack := by
  obtain ⟨told, h⟩ := h
  induction h with
  | refl => exact .inl hw
  | tail _ hmove ih => exact (hmove.aims hw).elim ih .inr

theorem Reaches.housed (h : w.Reaches g w') (hw : w.Housed) : w'.Housed := by
  obtain ⟨told, h⟩ := h
  induction h with
  | refl => exact hw
  | tail _ hmove ih => exact hmove.housed ih

end World

namespace Event

variable {σ : Type} [Session σ]

/-- A world after an event. -/
def after (w : World σ) : Event σ → World σ
  | addContext theories counting announced options notifierOf =>
    w.addContext theories counting announced options notifierOf
  | build ctx constructor =>
    ((World.inEnvironment ctx (Environment.build constructor.build)).exec w).2
  | wrap ctx type t => ((World.inEnvironment ctx (Environment.wrap type t)).exec w).2
  | wrapBool ctx t => ((World.inEnvironment ctx (Environment.wrapBool t)).exec w).2
  | cleanUp ctx => ((World.inEnvironment ctx Environment.cleanUp).exec w).2
  | retain f => w.retain f
  | discard f => w.discard f
  | constant ctx type name => ((World.constant ctx type name).exec w).2
  | function ctx name result arguments => ((World.function ctx name result arguments).exec w).2
  | openStack ctx session interpolating => ((World.openStack ctx session interpolating).exec w).2
  | newStack ctx session interpolating => ((World.newStack ctx session interpolating).exec w).2
  | atStack id operation => ((World.atStack id operation.act).exec w).2
  | search id important => ((World.atStack id (Site.nextModel? important)).exec w).2
  | block id negations => ((World.block id negations).exec w).2
  | dropStack id => w.dropStack id
  | requestStop ctx reason => w.requestStop ctx reason
  | listen ctx reaction => (w.listen ctx reaction).2
  | unlisten ctx id => (w.unlisten ctx id).2
  | addWatch ctx closes fails => (w.addWatch ctx closes fails).2
  | removeWatch ctx id => w.removeWatch ctx id
  | aimWatch id stack => w.aimWatch id stack
  | dropWatch id => w.dropWatch id

/-- Whether an event can happen in a setting. -/
def Allowed (g : Setting σ) : Event σ → Prop
  | constant .. | function .. => g.requesting ∧ ∀ id, g.working id
  | openStack _ session _ | newStack _ session _ => g.fresh session
  | atStack id _ | search id _ | block id _ | dropStack id => g.working id
  | addWatch _ closes _ => g.watching ∧ ∀ id, closes = some id → g.working id
  | aimWatch _ stack => g.watching ∧ g.working stack
  | removeWatch .. | dropWatch .. => g.watching
  | _ => True

omit [Session σ] in
theorem allowed_free (e : Event σ) : e.Allowed .free := by
  cases e with
  | constant | function => exact ⟨trivial, fun _ => trivial⟩
  | addWatch => exact ⟨trivial, fun _ _ => trivial⟩
  | aimWatch => exact ⟨trivial, trivial⟩
  | _ => trivial

variable {g : Setting σ} {w : World σ}

theorem count_filter_watch (observers : List Observer) (watch id : Nat) :
    (observers.filter (· ≠ .watch watch)).count (.stack id) = observers.count (.stack id) :=
  List.count_filter (decide_eq_true nofun)

/-- Watches that come or go in some contexts. -/
theorem watched_passes (hg : g.watching) {w' : World σ} {f : List Observer → List Observer}
    (hf : ∀ observers id, (f observers).count (.stack id) = observers.count (.stack id))
    (hsize : w'.contexts.size = w.contexts.size) (hstacks : w'.stackTable = w.stackTable)
    (haims : ∀ id, w'.Aims id → w.Aims id ∨ g.working id)
    (hcontexts : ∀ (i : Nat) c', w'.contexts[i]? = some c' → ∃ c, w.contexts[i]? = some c ∧
      (c' = c ∨ c' = { c with env := { c.env with observers := f c.env.observers } })) :
    w.Passes g w' := by
  refine (World.Move.watched hg hsize hstacks haims fun i c' hc' => ?_).passes
  obtain ⟨c, hc, rfl | rfl⟩ := hcontexts i c' hc'
  · exact ⟨c', c'.env.observers, hc, rfl, fun _ => rfl⟩
  · exact ⟨c, _, hc, rfl, hf _⟩

theorem getElem?_modify_cases {α : Type} {xs : Array α} {i j : Nat} {f : α → α} {b : α}
    (h : (xs.modify i f)[j]? = some b) : ∃ a, xs[j]? = some a ∧ (b = a ∨ b = f a) := by
  rw [Array.getElem?_modify] at h
  split at h
  · obtain ⟨a, ha, rfl⟩ := Option.map_eq_some_iff.1 h
    exact ⟨a, ha, .inr rfl⟩
  · exact ⟨b, h, .inl rfl⟩

/-- Stacks may receive symbols with this event. -/
def Spreads (e : Event σ) : Prop :=
  (∃ ctx type name, e = .constant ctx type name) ∨
    (∃ ctx name result arguments, e = .function ctx name result arguments) ∨
      ∃ id symbol, e = .atStack id (.addSymbol symbol)

/-- Whatever else happens is some moves with which no stack receives a symbol. -/
theorem passes (e : Event σ) (ha : e.Allowed g) (hw : w.Housed) (hs : ¬ e.Spreads) :
    w.Passes g (e.after w) := by
  cases e with
  | addContext theories counting announced options notifierOf =>
    exact (World.Move.context w theories counting announced options notifierOf).passes
  | build ctx constructor =>
    exact World.inEnvironment_passes (Environment.build_works constructor.grows) ctx w
  | wrap ctx type t => exact World.inEnvironment_passes (Environment.wrap_works type t) ctx w
  | wrapBool ctx t => exact World.inEnvironment_passes (Environment.wrapBool_works t) ctx w
  | cleanUp ctx => exact World.inEnvironment_passes Environment.cleanUp_works ctx w
  | retain f => exact World.modify_passes (Environment.works_retain f) f.owner w
  | discard f => exact World.modify_passes (Environment.works_discard f) f.owner w
  | constant ctx type name => exact absurd (.inl ⟨ctx, type, name, rfl⟩) hs
  | function ctx name result arguments =>
    exact absurd (.inr (.inl ⟨ctx, name, result, arguments, rfl⟩)) hs
  | openStack ctx session interpolating => exact World.openStack_passes ha ctx interpolating w
  | newStack ctx session interpolating => exact World.newStack_passes ha ctx interpolating w
  | atStack id operation =>
    exact World.atStack_passes (StackOperation.act_passes fun symbol hop =>
      hs (.inr (.inr ⟨id, symbol, congrArg _ hop⟩))) ha w
  | search id important =>
    exact World.atStack_passes (Site.passes_of_calm (Site.nextModel?_calm important)) ha w
  | block id negations => exact World.atStack_passes (Site.block_passes negations) ha w
  | dropStack id => exact World.dropStack_passes ha hw
  | requestStop ctx reason => exact World.requestStop_passes ctx reason w
  | listen ctx reaction => exact World.listen_passes ctx reaction w
  | unlisten ctx id => exact World.setNotifier_passes _ w
  | addWatch ctx closes fails =>
    have hcount : ∀ (observers : List Observer) id,
        (observers ++ [Observer.watch w.watches.size]).count (Observer.stack id) =
          observers.count (Observer.stack id) := by
      intro observers id
      have hnone : [Observer.watch w.watches.size].count (Observer.stack id) = 0 :=
        List.count_eq_zero_of_not_mem fun h => by cases List.mem_singleton.1 h
      rw [List.count_append, hnone, Nat.add_zero]
    refine watched_passes ha.1 hcount Array.size_modify rfl (fun stack h => ?_)
      fun i c' hc' => getElem?_modify_cases hc'
    obtain ⟨k, watch, hk, hcloses⟩ := h
    rw [after, World.addWatch, Array.getElem?_push] at hk
    split at hk
    · cases hk
      exact .inr (ha.2 stack hcloses)
    · exact .inl ⟨k, watch, hk, hcloses⟩
  | removeWatch ctx id =>
    exact watched_passes ha (fun observers => count_filter_watch observers id) Array.size_modify
      rfl (fun _ h => .inl h) fun i c' hc' => getElem?_modify_cases hc'
  | aimWatch id stack =>
    refine watched_passes (f := fun observers => observers) ha.1 (fun _ _ => rfl) rfl rfl
      (fun stack h => ?_) fun i c' hc' => ⟨c', hc', .inl rfl⟩
    obtain ⟨k, watch, hk, hcloses⟩ := h
    obtain ⟨watch?, hk', hwatch⟩ := getElem?_modify_cases (Option.join_eq_some_iff.1 hk)
    obtain hwatch | hwatch := hwatch
    · exact .inl ⟨k, watch, by rw [hk', ← hwatch]; rfl, hcloses⟩
    · obtain ⟨watch', -, rfl⟩ := Option.map_eq_some_iff.1 hwatch.symm
      cases hcloses
      exact .inr ha.2
  | dropWatch id =>
    refine watched_passes ha (fun observers => count_filter_watch observers id) Array.size_map rfl
      (fun stack h => ?_) fun i c' hc' => ?_
    · obtain ⟨k, watch, hk, hcloses⟩ := h
      rw [after, World.dropWatch, Array.getElem?_setIfInBounds] at hk
      split at hk
      · split at hk <;> cases hk
      · exact .inl ⟨k, watch, hk, hcloses⟩
    · obtain ⟨c, hc, rfl⟩ := Option.map_eq_some_iff.1 ((Array.getElem?_map ..).symm.trans hc')
      exact ⟨c, hc, .inr rfl⟩

/-- Whatever happens is some moves. -/
theorem reaches (e : Event σ) (ha : e.Allowed g) (hw : w.Housed) : w.Reaches g (e.after w) := by
  by_cases hs : e.Spreads
  · obtain ⟨ctx, type, name, rfl⟩ | ⟨ctx, name, result, arguments, rfl⟩ | ⟨id, symbol, rfl⟩ := hs
    · exact World.constant_reaches ha.1 ha.2 ctx type name w
    · exact World.function_reaches ha.1 ha.2 ctx name result arguments w
    · exact (World.atStack_receives (Site.addSymbol_receives symbol) ha w).elim (·.leads)
        fun ⟨_, _, h⟩ => ⟨_, h⟩
  · exact (e.passes ha hw hs).leads

end Event

namespace World

variable {σ τ : Type} [Session σ] {g : Setting σ} {P : Event σ → Prop} {w w' : World σ}

/-- What events that satisfy `P` lead to. -/
def Leads (P : Event σ → Prop) : World σ → World σ → Prop :=
  Relation.ReflTransGen fun w w' => ∃ e : Event σ, P e ∧ w' = e.after w

theorem Leads.single {e : Event σ} (h : P e) (w : World σ) : w.Leads P (e.after w) :=
  Relation.ReflTransGen.single ⟨e, h, rfl⟩

/-- What can be reached from nothing. -/
def Reached (g : Setting σ) (w : World σ) : Prop := empty.Leads (Event.Allowed g) w

theorem Leads.reaches (h : w.Leads (Event.Allowed g) w') (hw : w.Housed) :
    w.Reaches g w' ∧ w'.Housed := by
  induction h with
  | refl => exact ⟨Std.Refl.refl w, hw⟩
  | tail _ hstep ih =>
    obtain ⟨e, ha, rfl⟩ := hstep
    have he := e.reaches ha ih.2
    exact ⟨ih.1.trans he, he.housed ih.2⟩

/-- What is reached is reached by moves. -/
theorem Reached.exists_trail (h : Reached g w) : ∃ told, Trail (Move g) empty told w :=
  (Leads.reaches h housed_empty).1

theorem Reached.housed (h : Reached g w) : w.Housed := (Leads.reaches h housed_empty).2

/-- The world after one event after the other. -/
def afterAll (events : List (Event σ)) : World σ := events.foldl (fun w e => e.after w) empty

theorem reached_afterAll {events : List (Event σ)} (h : ∀ e ∈ events, e.Allowed g) :
    Reached g (afterAll events) := by
  have hall : ∀ {events : List (Event σ)} (w : World σ), (∀ e ∈ events, e.Allowed g) →
      w.Leads (Event.Allowed g) (events.foldl (fun w e => e.after w) w) := by
    intro events
    induction events with
    | nil => exact fun w _ => .refl
    | cons e events ih =>
      exact fun w h => (Leads.single (h e List.mem_cons_self) w).trans
        (ih (e.after w) fun e he => h e (List.mem_cons_of_mem _ he))
  exact hall empty h

theorem afterAll_concat (events : List (Event σ)) (e : Event σ) :
    afterAll (events ++ [e]) = e.after (afterAll events) :=
  List.foldl_concat ..

/-- What is reached is so by one event after the other. -/
theorem Reached.exists_events (h : Reached g w) :
    ∃ events : List (Event σ), (∀ e ∈ events, e.Allowed g) ∧ w = afterAll events := by
  induction h with
  | refl => exact ⟨[], fun _ he => (List.not_mem_nil he).elim, rfl⟩
  | tail _ hstep ih =>
    obtain ⟨e, ha, rfl⟩ := hstep
    obtain ⟨events, hall, rfl⟩ := ih
    refine ⟨events ++ [e], fun e' he' => ?_, (afterAll_concat events e).symm⟩
    obtain he' | he' := List.mem_append.1 he'
    · exact hall e' he'
    · exact List.mem_singleton.1 he' ▸ ha

theorem housed_afterAll (events : List (Event σ)) : (afterAll events).Housed :=
  (reached_afterAll fun e _ => e.allowed_free).housed

/-- One of some events, which come after those of `before`, happens as `P` says. -/
def Happens (P : Event σ → World σ → Prop) (before events : List (Event σ)) : Prop :=
  ∃ between e rest, events = between ++ e :: rest ∧ P e (afterAll (before ++ between))

theorem not_happens_nil {P : Event σ → World σ → Prop} {before : List (Event σ)} :
    ¬ Happens P before [] := by
  rintro ⟨between, e, rest, h, -⟩
  cases between <;> cases h

theorem happens_concat {P : Event σ → World σ → Prop} {before events : List (Event σ)}
    {e : Event σ} : Happens P before (events ++ [e]) ↔
      Happens P before events ∨ P e (afterAll (before ++ events)) := by
  constructor
  · rintro ⟨between, e', rest, h, hP⟩
    rcases List.eq_nil_or_concat rest with rfl | ⟨rest, last, rfl⟩
    · obtain ⟨rfl, rfl⟩ := List.append_inj' h rfl |>.imp id List.singleton_inj.1
      exact .inr hP
    · rw [List.concat_eq_append, ← List.cons_append, ← List.append_assoc] at h
      exact .inl ⟨between, e', rest, (List.append_inj' h rfl).1, hP⟩
  · rintro (⟨between, e', rest, rfl, hP⟩ | hP)
    · exact ⟨between, e', rest ++ [e], List.append_assoc .., hP⟩
    · exact ⟨events, e, [], rfl, hP⟩

/-! Enumerations of models -/

/-- Events in a world beside another state. -/
def LeadsBeside (P : Event σ → Prop) (y y' : World σ × τ) : Prop := y.1.Leads P y'.1

instance : Std.Refl (LeadsBeside (τ := τ) P) := ⟨fun _ => .refl⟩

instance : IsTrans _ (LeadsBeside (τ := τ) P) := ⟨fun _ _ _ h g => h.trans g⟩

theorem beside_leads {α : Type} {e : Effect (World σ) α} (he : Effect.Within (Leads P) e) :
    Effect.Within (LeadsBeside (τ := τ) P) (beside e) :=
  fun y => he y.1

theorem discardAll_leads (hP : ∀ f, P (.discard f)) (fs : List Formula) (w : World σ) :
    w.Leads P (w.discardAll fs) := by
  induction fs generalizing w with
  | nil => exact .refl
  | cons f fs ih => exact (Leads.single (hP f) w).trans (ih _)

/-- An enumeration of models is some events, if its callback is. -/
theorem allSat_leads {callback : Nat → List BoolFormula → Effect (World σ × τ) Unit} {id : Nat}
    (hg : g.working id)
    (hcallback : ∀ count literals,
      Effect.Within (LeadsBeside (Event.Allowed g)) (callback count literals))
    (important : List BoolFormula) :
    Effect.Within (LeadsBeside (Event.Allowed g)) (allSat id important callback) := by
  have hall : ∀ {α : Type} {e : Effect (World σ) α} (event : Event σ), event.Allowed g →
      (∀ w, (e.exec w).2 = event.after w) →
        Effect.Within (LeadsBeside (τ := τ) (Event.Allowed g)) (beside e) := by
    refine fun event ha he => beside_leads fun w => ?_
    rw [he]
    exact Leads.single ha w
  rw [allSat_eq]
  refine .bind (hall (.atStack id (.push 1)) hg fun _ => rfl) fun _ =>
    .bind (.attempt (enumerate_within hcallback
      (fun model => hall (.search id model) hg fun _ => rfl)
      (fun negations => hall (.block id negations) hg fun _ => rfl)
      (fun fs y => discardAll_leads (fun _ => trivial) fs y.1) important)) fun outcome =>
    .bind (hall (.atStack id (.pop 1)) hg fun _ => rfl) fun _ => ?_
  split
  · exact .pure _
  · exact .throw _

end World

/-! Clients of folding solvers -/

/-- All stacks are on new folding solvers. -/
def Setting.folding (watching : Prop) : Setting FoldingSolver :=
  ⟨(· = .new), fun _ => True, True, watching⟩

namespace World

theorem exec_perform (id : Nat) (op : StackOperation) (w : World FoldingSolver) :
    ((atStack id op.perform).exec w).2 = ((atStack id op.act).exec w).2 := by
  have hforget : ∀ {α β : Type} (e : Effect (Site FoldingSolver) α) (f : α → β),
      ((atStack id (e >>= fun a => pure (f a))).exec w).2 = ((atStack id e).exec w).2 :=
    fun e f => congrArg Prod.snd (exec_atStack_map e f)
  have hboth : ∀ {α β γ : Type} (e : Effect (Site FoldingSolver) α) (f : α → β) (g : α → γ),
      ((atStack id (e >>= fun a => pure (f a))).exec w).2 =
        ((atStack id (e >>= fun a => pure (g a))).exec w).2 :=
    fun e f g => (hforget e f).trans (hforget e g).symm
  cases op with
  | push n => exact hforget (Site.push n) _
  | pop n => exact hforget (Site.pop n) _
  | assert f p => exact hforget (Site.assert f p) _
  | addSymbol symbol => exact hforget (Site.addSymbol symbol) _
  | check => exact hboth Site.check _ _
  | model => exact hboth Site.model _ _
  | evaluate f => exact hboth (Site.evaluate f) _ _
  | interpolants groups => exact hboth (Site.interpolants groups) _ _
  | close => exact hforget Site.close _

end World

/-- What a client does is an event. -/
theorem Client.step_leads {c d : Client} (h : Client.Step c d) :
    c.world.Leads (Event.Allowed (.folding False)) d.world := by
  have hmap : ∀ {α β : Type} (e : Effect (World FoldingSolver) α) (f : α → β),
      ((e >>= fun a => pure (f a)).exec c.world).2 = (e.exec c.world).2 := fun e f => by
    rw [Effect.exec_bind_pure]
  cases h with
  | operation _ op =>
    change c.world.Leads _ (op.perform.exec c.world).2
    cases op with
    | addContext theories counting announced options notifierOf =>
      exact .single (e := .addContext theories counting announced options notifierOf) trivial _
    | build ctx constructor =>
      rw [Operation.perform, hmap]
      exact .single (e := .build ctx constructor) trivial _
    | wrap ctx type t =>
      rw [Operation.perform, hmap]
      exact .single (e := .wrap ctx type t) trivial _
    | wrapBool ctx t =>
      rw [Operation.perform, hmap]
      exact .single (e := .wrapBool ctx t) trivial _
    | cleanUp ctx =>
      rw [Operation.perform, hmap]
      exact .single (e := .cleanUp ctx) trivial _
    | constant ctx type name =>
      rw [Operation.perform, hmap]
      exact .single (e := .constant ctx type name) ⟨trivial, fun _ => trivial⟩ _
    | function ctx name result arguments =>
      rw [Operation.perform, hmap]
      exact .single (e := .function ctx name result arguments) ⟨trivial, fun _ => trivial⟩ _
    | openStack ctx interpolating =>
      rw [Operation.perform, hmap]
      exact .single (e := .openStack ctx FoldingSolver.new interpolating) (by exact rfl) _
    | newStack ctx interpolating =>
      rw [Operation.perform, hmap]
      exact .single (e := .newStack ctx FoldingSolver.new interpolating) (by exact rfl) _
    | atStack id operation =>
      rw [Operation.perform, World.exec_perform]
      exact .single (e := .atStack id operation) trivial _
    | dropStack id => exact .single (e := .dropStack id) trivial _
    | requestStop ctx reason => exact .single (e := .requestStop ctx reason) trivial _
    | listen ctx reaction => exact .single (e := .listen ctx reaction) trivial _
    | unlisten ctx id => exact .single (e := .unlisten ctx id) trivial _
  | clone _ hf => exact .single (e := .retain _) trivial _
  | drop w f held history => exact .single (e := .discard f) trivial _
  | search _ id h => exact .single (e := .search id _) trivial _
  | block _ negations h => exact .single (e := .block _ negations) trivial _

/-- What a client reaches is reached by events, without watches. -/
theorem Client.Reachable.reached {c : Client} (h : Reachable c) :
    World.Reached (.folding False) c.world := by
  induction h with
  | refl => exact .refl
  | tail _ hstep ih => exact ih.trans (step_leads hstep)

end FormulaStack
