import FormulaStack.Proofs.Events

/-!
What stays whatever happens. A context keeps its environment's number and its notifier, and a
notifier that was requested to stop stays so, for the first reason.
-/
namespace FormulaStack

namespace Notifier

variable {ρ : Type} {n n' : Notifier ρ}

/-- A request that was made of a notifier stands in what it became. -/
def Stands (n n' : Notifier ρ) : Prop := ∀ reason, n.reason = some reason → n'.reason = some reason

theorem stands_of_eq (h : n'.reason = n.reason) : n.Stands n' := fun _ hr => h.trans hr

theorem Stands.trans {n'' : Notifier ρ} (h : n.Stands n') (g : n'.Stands n'') : n.Stands n'' :=
  fun reason hr => g reason (h reason hr)

theorem stands_request (reason : String) (n : Notifier ρ) : n.Stands (n.request reason).2 := by
  intro first hr
  simp [request, hr]

end Notifier

namespace Site

variable {σ : Type} [Session σ] {s t : Site σ} {told : List Incident}

theorem Turn.reason (h : Turn s told t) : t.notifier.reason = s.notifier.reason := by
  cases h with
  | pause h => cases h <;> rfl
  | _ => rfl

theorem reason_of_trail (h : Trail Turn s told t) : t.notifier.reason = s.notifier.reason := by
  induction h with
  | refl => rfl
  | tail _ hturn ih => exact hturn.reason.trans ih

end Site

namespace World

variable {σ : Type} {w w' : World σ} {c : Context} {ctx i : Nat}

/-- The number of an environment and the place of its context's notifier. -/
def identity? (w : World σ) (i : Nat) : Option (Nat × Nat) :=
  (w.contexts[i]?).map fun c => (c.env.id, c.notifier)

theorem identity?_eq_some (hc : w.contexts[i]? = some c) :
    w.identity? i = some (c.env.id, c.notifier) := by
  rw [identity?, hc, Option.map_some]

/-- Every context has a notifier. -/
def Wired (w : World σ) : Prop := ∀ i p, w.identity? i = some p → p.2 < w.notifiers.size

/-- What `w'` keeps of `w`. -/
structure Stays (w w' : World σ) : Prop where
  contexts : ∀ i p, w.identity? i = some p → w'.identity? i = some p
  notifiers : ∀ (i : Nat) n, w.notifiers[i]? = some n →
    ∃ n', w'.notifiers[i]? = some n' ∧ n.Stands n'
  wired : w.Wired → w'.Wired

instance : Std.Refl (Stays (σ := σ)) :=
  ⟨fun _ => ⟨fun _ _ h => h, fun _ n h => ⟨n, h, fun _ h => h⟩, fun h => h⟩⟩

instance : IsTrans (World σ) Stays := by
  refine ⟨fun u v w h g => ⟨fun i p hp => g.contexts i p (h.contexts i p hp), fun i n hn => ?_,
    fun hw => g.wired (h.wired hw)⟩⟩
  obtain ⟨n', hn', hs⟩ := h.notifiers i n hn
  obtain ⟨n'', hn'', hs'⟩ := g.notifiers i n' hn'
  exact ⟨n'', hn'', hs.trans hs'⟩

theorem Stays.trans {w'' : World σ} (h : w.Stays w') (g : w'.Stays w'') : w.Stays w'' :=
  Trans.trans h g

theorem Stays.exists_context (h : w.Stays w') (hc : w.contexts[i]? = some c) :
    ∃ c', w'.contexts[i]? = some c' ∧ c'.env.id = c.env.id ∧ c'.notifier = c.notifier := by
  obtain ⟨c', hc', hsame⟩ := Option.map_eq_some_iff.1 (h.contexts i _ (identity?_eq_some hc))
  exact ⟨c', hc', (Prod.mk.inj hsame).1, (Prod.mk.inj hsame).2⟩

theorem reason_notifierOf {reason : String} : (w.notifierOf ctx).reason = some reason ↔
    ∃ c n, w.contexts[ctx]? = some c ∧ w.notifiers[c.notifier]? = some n ∧
      n.reason = some reason := by
  unfold notifierOf
  cases hc : w.contexts[ctx]? with
  | none => simp [Notifier.new]
  | some c =>
    cases hn : w.notifiers[c.notifier]? with
    | none => simp [hn, Notifier.new]
    | some n => simp [hn]

/-- Contexts that share a notifier are requested to stop together, and remain so. -/
theorem Stays.reason {j : Nat} {c' : Context} {reason : String} (h : w.Stays w')
    (hc : w.contexts[i]? = some c) (hc' : w'.contexts[j]? = some c')
    (hsame : c'.notifier = c.notifier) (hr : (w.notifierOf i).reason = some reason) :
    (w'.notifierOf j).reason = some reason := by
  obtain ⟨d, n, hd, hn, hr⟩ := reason_notifierOf.1 hr
  obtain rfl : c = d := Option.some.inj (hc.symm.trans hd)
  obtain ⟨n', hn', hs⟩ := h.notifiers c.notifier n hn
  exact reason_notifierOf.2 ⟨c', n', hc', hsame ▸ hn', hs reason hr⟩

theorem stays_of_identity (hcontexts : ∀ i, w'.identity? i = w.identity? i)
    (hnotifiers : w'.notifiers = w.notifiers) : w.Stays w' := by
  refine ⟨fun i p hp => (hcontexts i).trans hp, fun i n hn => ⟨n, ?_, fun _ h => h⟩, ?_⟩
  · rwa [hnotifiers]
  · intro hw i p hp
    rw [hnotifiers]
    exact hw i p ((hcontexts i).symm.trans hp)

theorem stays_modify (ctx : Nat) {f : Context → Context}
    (hf : ∀ c, w.contexts[ctx]? = some c → ((f c).env.id, (f c).notifier) = (c.env.id, c.notifier))
    (hcontexts : w'.contexts = w.contexts.modify ctx f)
    (hnotifiers : w'.notifiers = w.notifiers) : w.Stays w' := by
  refine stays_of_identity (fun i => ?_) hnotifiers
  rw [identity?, identity?, hcontexts, Array.getElem?_modify]
  split
  · next hi =>
    subst hi
    cases hc : w.contexts[ctx]? with
    | none => rfl
    | some c => exact congrArg some (hf c hc)
  · rfl

theorem stays_setNotifier {n : Notifier Reaction} (h : (w.notifierOf ctx).Stands n) :
    w.Stays (setNotifier ctx n w) := by
  unfold setNotifier
  cases hc : w.contexts[ctx]? with
  | none => exact Std.Refl.refl w
  | some c =>
    refine ⟨fun i p hp => hp, fun i m hm => ?_, fun hw i p hp => ?_⟩
    · rw [Array.getElem?_setIfInBounds]
      split
      · next hi =>
        subst hi
        have hin : c.notifier < w.notifiers.size := (Array.getElem?_eq_some_iff.1 hm).1
        have hof : w.notifierOf ctx = m := by simp [notifierOf, hc, hm]
        rw [if_pos hin]
        exact ⟨n, rfl, hof ▸ h⟩
      · exact ⟨m, hm, fun _ h => h⟩
    · rw [Array.size_setIfInBounds]
      exact hw i p hp

theorem stays_opened (ctx : Nat) (s : AssertionStack σ) (w : World σ) : w.Stays (w.opened ctx s) :=
  stays_modify ctx (f := fun c => observedBy c w.stackTable.size) (fun _ _ => rfl) rfl rfl

/-- A context more, whose notifier is there. -/
theorem stays_push (hcontexts : w'.contexts = w.contexts.push c)
    (hnotifiers : ∀ (i : Nat) n, w.notifiers[i]? = some n → w'.notifiers[i]? = some n)
    (hc : w.Wired → c.notifier < w'.notifiers.size) : w.Stays w' := by
  have hidentity : ∀ i, w'.identity? i =
      if i = w.contexts.size then some (c.env.id, c.notifier) else w.identity? i := by
    intro i
    rw [identity?, hcontexts, Array.getElem?_push]
    split <;> rfl
  refine ⟨fun i p hp => ?_, fun i n hn => ⟨n, hnotifiers i n hn, fun _ h => h⟩, fun hw i p hp => ?_⟩
  · obtain ⟨d, hd, -⟩ := Option.map_eq_some_iff.1 hp
    rw [hidentity, if_neg (Nat.ne_of_lt (Array.getElem?_eq_some_iff.1 hd).1), hp]
  · rw [hidentity] at hp
    split at hp
    · cases hp
      exact hc hw
    · have hn := hnotifiers p.2 _ (Array.getElem?_eq_getElem (hw i p hp))
      exact (Array.getElem?_eq_some_iff.1 hn).1

theorem addContext_stays (theories : Theories) (counting announced : Bool) (options : Options)
    (notifierOf : Option Nat) (w : World σ) :
    w.Stays (w.addContext theories counting announced options notifierOf) := by
  unfold addContext
  dsimp only
  split
  · next other hother =>
    obtain ⟨j, -, hj⟩ := Option.bind_eq_some_iff.1 hother
    exact stays_push rfl (fun _ _ h => h) fun hw => hw j _ (identity?_eq_some hj)
  · refine stays_push rfl (fun i n hn => ?_) fun _ => ?_
    · rw [Array.getElem?_push, if_neg (Nat.ne_of_lt (Array.getElem?_eq_some_iff.1 hn).1), hn]
    · rw [Array.size_push]
      exact Nat.lt_succ_self _

theorem stays_setEnvironment {env : Environment} (hc : w.contexts[ctx]? = some c)
    (hid : env.id = c.env.id) : w.Stays (setEnvironment ctx env w) := by
  refine stays_modify ctx (f := fun c => { c with env }) (fun c' hc' => ?_) rfl rfl
  obtain rfl : c = c' := Option.some.inj (hc.symm.trans hc')
  rw [hid]

/-! Work in environments and at stacks -/

section

variable {α : Type}

theorem inEnvironment_stays {e : Effect Environment α}
    (he : Effect.Within (fun env env' => env'.id = env.id) e) (ctx : Nat) :
    Effect.Within Stays (inEnvironment ctx e : Effect (World σ) α) :=
  inEnvironment_within fun _ c hc => stays_setEnvironment hc (he c.env)

theorem id_of_works {e : Effect Environment α} (he : Effect.Within Environment.Works e) :
    Effect.Within (fun env env' => env'.id = env.id) e := by
  intro env
  rw [(he env).rest]

theorem modify_stays {f : Environment → Environment} (hf : ∀ env : Environment, env.Works (f env))
    (ctx : Nat) (w : World σ) : w.Stays
      { w with contexts := w.contexts.modify ctx fun c => { c with env := f c.env } } := by
  refine stays_modify ctx (f := fun c => { c with env := f c.env }) (fun c _ => ?_) rfl rfl
  dsimp only
  rw [(hf c.env).rest]

variable [Session σ]

theorem atStack_stays {e : Effect (Site σ) α} (he : Effect.Within Site.Reaches e) (id : Nat) :
    Effect.Within Stays (atStack id e) := by
  intro w
  cases hs : w.stack? id with
  | none =>
    rw [exec_atStack_none hs]
    exact Std.Refl.refl w
  | some s =>
    cases hc : w.contexts[s.home]? with
    | none =>
      rw [exec_atStack_foreign hs hc]
      exact Std.Refl.refl w
    | some c =>
      obtain ⟨told, htrail⟩ := he (w.site c s)
      rw [exec_atStack hs hc]
      generalize (e.exec (w.site c s)).2 = t at htrail
      have hid : t.env.id = c.env.id := congrArg (·.id) (Site.remains_of_trail htrail).env
      have henv : w.Stays (setEnvironment s.home t.env w) := stays_setEnvironment hc hid
      have hreason : t.notifier.reason = (w.notifierOf s.home).reason :=
        Site.reason_of_trail htrail
      have hnotifier : (setEnvironment s.home t.env w).notifierOf s.home = w.notifierOf s.home := by
        unfold notifierOf
        rw [context_setEnvironment hc, if_pos rfl, hc]
        rfl
      have hset : (setEnvironment s.home t.env w).Stays
          (setNotifier s.home t.notifier (setEnvironment s.home t.env w)) :=
        stays_setNotifier (hnotifier ▸ Notifier.stands_of_eq hreason)
      exact (henv.trans hset).trans (stays_of_identity (fun _ => rfl) rfl)

theorem closeStack_stays (id : Nat) :
    Effect.Within Stays (closeStack id : Effect (World σ) Unit) :=
  closeStack_within (atStack_stays (Site.reaches_of_passes Site.close_passes) id)

theorem publish_stays (ctx : Nat) (symbol : Symbol) :
    Effect.Within Stays (publish ctx symbol : Effect (World σ) Unit) :=
  publish_within (tell_within
    (atStack_stays fun s => (Site.symbolRequested_receives symbol s).reaches)
    (atStack_stays (Site.reaches_of_passes Site.close_passes))
    fun _ _ => stays_of_identity (fun _ => rfl) rfl)

theorem request_stays {request : Effect Environment (α × Option Symbol)}
    {f : α × Option Symbol → Effect (World σ) α}
    (hrequest : ∀ env, Environment.Requested env (request.exec env))
    (hold : ∀ a, f (a, none) = pure a)
    (hnew : ∀ a symbol, f (a, some symbol) = publish ctx symbol >>= fun _ => pure a) :
    Effect.Within Stays (inEnvironment ctx request >>= f) := by
  intro w
  obtain hsame | ⟨c, symbol, d, env, hc, hd, hx⟩ := request_cases hrequest hold hnew w
  · rw [hsame]
    exact Std.Refl.refl w
  · rw [hx]
    exact (stays_setEnvironment hc hd.id).trans (publish_stays ctx symbol _)

theorem constant_stays (ctx : Nat) (type : FormulaType) (name : String) :
    Effect.Within Stays (constant ctx type name : Effect (World σ) Formula) :=
  .bind (request_stays (Environment.requestVariable_requested type name) (fun _ => rfl)
      fun _ _ => rfl) fun t =>
    inEnvironment_stays (id_of_works (Environment.wrap_works type t)) ctx

theorem function_stays (ctx : Nat) (name : String) (result : FormulaType)
    (arguments : List FormulaType) : Effect.Within Stays
      (function ctx name result arguments : Effect (World σ) FunctionDeclaration) :=
  request_stays (Environment.requestFunction_requested name arguments result) (fun _ => rfl)
    fun _ _ => rfl

/-! Stacks and listeners that come and go -/

theorem notifiers_react (reason : String) (w : World σ) (r : Reaction) :
    (react reason w r).notifiers = w.notifiers := by
  cases r <;> rfl

theorem react_stays (reason : String) (r : Reaction) (w : World σ) :
    w.Stays (react reason w r) :=
  stays_of_identity (fun i => by rw [identity?, contexts_react, identity?])
    (notifiers_react reason w r)

theorem requestStop_stays (ctx : Nat) (reason : String) (w : World σ) :
    w.Stays (requestStop ctx reason w) :=
  requestStop_within (stays_setNotifier (Notifier.stands_request reason _)) (react_stays reason)

theorem listen_stays (ctx : Nat) (r : Reaction) (w : World σ) : w.Stays (listen ctx r w).2 :=
  listen_within (stays_setNotifier (Notifier.stands_of_eq rfl))
    fun reason w => react_stays reason r w

theorem openStack_stays (ctx : Nat) (session : σ) (interpolating : Bool) :
    Effect.Within Stays (openStack ctx session interpolating) := by
  refine fun w => openStack_within (fun _ _ _ _ hc _ => stays_setEnvironment hc rfl)
    fun c terms session' hc _ => ?_
  have henv : w.Stays (setEnvironment ctx { c.env with terms } w) := stays_setEnvironment hc rfl
  exact (henv.trans (stays_opened _ _ _)).trans (listen_stays ctx _ _)

theorem newStack_stays (ctx : Nat) (session : σ) (interpolating : Bool) :
    Effect.Within Stays (newStack ctx session interpolating) := fun w =>
  newStack_within (openStack_stays ctx session interpolating w)

theorem dropStack_stays (id : Nat) (w : World σ) : w.Stays (w.dropStack id) :=
  dropStack_within (closeStack_stays id w) fun _ => stays_of_identity (fun _ => rfl) rfl

end

end World

namespace Event

variable {σ : Type} [Session σ]

theorem stays (e : Event σ) (w : World σ) : w.Stays (e.after w) := by
  have hobserved : ∀ {w' : World σ} (ctx : Nat) (f : List Observer → List Observer),
      w'.contexts = w.contexts.modify ctx
        (fun c => { c with env := { c.env with observers := f c.env.observers } }) →
      w'.notifiers = w.notifiers → w.Stays w' :=
    fun ctx f => World.stays_modify ctx
      (f := fun c => { c with env := { c.env with observers := f c.env.observers } })
      fun _ _ => rfl
  cases e with
  | addContext theories counting announced options notifierOf =>
    exact World.addContext_stays theories counting announced options notifierOf w
  | build ctx constructor =>
    exact World.inEnvironment_stays
      (World.id_of_works (Environment.build_works constructor.grows)) ctx w
  | wrap ctx type t =>
    exact World.inEnvironment_stays (World.id_of_works (Environment.wrap_works type t)) ctx w
  | wrapBool ctx t =>
    exact World.inEnvironment_stays (World.id_of_works (Environment.wrapBool_works t)) ctx w
  | cleanUp ctx =>
    exact World.inEnvironment_stays (World.id_of_works Environment.cleanUp_works) ctx w
  | retain f => exact World.modify_stays (Environment.works_retain f) f.owner w
  | discard f => exact World.modify_stays (Environment.works_discard f) f.owner w
  | constant ctx type name => exact World.constant_stays ctx type name w
  | function ctx name result arguments => exact World.function_stays ctx name result arguments w
  | openStack ctx session interpolating => exact World.openStack_stays ctx session interpolating w
  | newStack ctx session interpolating => exact World.newStack_stays ctx session interpolating w
  | atStack id operation => exact World.atStack_stays operation.act_reaches id w
  | search id important =>
    exact World.atStack_stays
      (Site.reaches_of_passes (Site.passes_of_calm (Site.nextModel?_calm important))) id w
  | block id negations =>
    exact World.atStack_stays (Site.reaches_of_passes (Site.block_passes negations)) id w
  | dropStack id => exact World.dropStack_stays id w
  | requestStop ctx reason => exact World.requestStop_stays ctx reason w
  | listen ctx reaction => exact World.listen_stays ctx reaction w
  | unlisten ctx id => exact World.stays_setNotifier (Notifier.stands_of_eq rfl)
  | addWatch ctx closes fails => exact hobserved ctx (· ++ [.watch w.watches.size]) rfl rfl
  | removeWatch ctx id => exact hobserved ctx (·.filter (· ≠ .watch id)) rfl rfl
  | aimWatch id stack => exact World.stays_of_identity (fun _ => rfl) rfl
  | dropWatch id =>
    refine World.stays_of_identity (fun i => ?_) rfl
    rw [World.identity?, after, World.dropWatch, Array.getElem?_map, Option.map_map]
    rfl

end Event

namespace World

variable {σ : Type} [Session σ]

theorem stays_afterAll (before after : List (Event σ)) :
    (afterAll before).Stays (afterAll (before ++ after)) := by
  induction after using List.reverseRecOn with
  | nil =>
    rw [List.append_nil]
    exact Std.Refl.refl _
  | append_singleton after e ih =>
    rw [← List.append_assoc, afterAll_concat]
    exact ih.trans (e.stays _)

end World
end FormulaStack
