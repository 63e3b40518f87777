import FormulaStack.Proofs.Validity

/-!
Requests for symbols. A new symbol is told to all stacks of its environment, none of which fails;
then each of them that is open knows it.
-/
namespace FormulaStack

namespace Environment

variable {env env' : Environment} {symbol : Symbol} {d : FuncDecl}

/-- An environment with a new symbol, which stands for a declaration. -/
structure Declares (env : Environment) (symbol : Symbol) (d : FuncDecl) (env' : Environment) :
    Prop where
  id : env'.id = env.id
  observers : env'.observers = env.observers
  declared : env'.declared = env.declared ++ [symbol]
  terms : env.terms.Grows env'.terms
  decl : env'.terms.declOf symbol = .ok d
  queue : env.handles.SameQueue env'.handles
  balanced : ∀ kept, env.handles.Balanced (env.constantTerms + kept) →
    env'.handles.Balanced (env'.constantTerms + kept)

theorem Declares.accounts (h : env.Declares symbol d env') {held : Multiset Formula}
    {recorded : Multiset Term} (ha : env.Accounts held recorded) : env'.Accounts held recorded := by
  refine ⟨?_, h.balanced recorded ha.balanced⟩
  rw [h.id]
  exact ha.serves.of_eq h.queue

/-- What a request leads to: a new symbol, or nothing changes. -/
def Requested {α : Type} (env : Environment)
    (outcome : Except Fault (α × Option Symbol) × Environment) : Prop :=
  (outcome.2 = env ∧ ∀ r, outcome.1 = .ok r → r.2 = none) ∨
    ∃ a symbol d, outcome.1 = .ok (a, some symbol) ∧ Declares env symbol d outcome.2

theorem requestVariable_requested (type : FormulaType) (name : String) (env : Environment) :
    Requested env ((requestVariable type name).exec env) := by
  have hsame : ∀ {outcome : Except Fault (Term × Option Symbol)},
      (∀ r, outcome = .ok r → r.2 = none) → Requested env (outcome, env) := fun h => .inl ⟨rfl, h⟩
  rw [exec_requestVariable]
  split
  · exact hsame fun r hr => by cases hr; rfl
  · split
    · exact hsame nofun
    · next sort _ =>
      split
      · exact hsame nofun
      · next t terms hb =>
        obtain ⟨d, hd⟩ := Build.constant_eq_ok hb
        obtain ⟨hbool, hnum⟩ := Store.declOf_of_node hd rfl
        refine .inr ⟨t, _, d, rfl, rfl, rfl, rfl, Build.Grows.constant name sort _ _ _ hb, ?_,
          Handles.sameQueue_hold _ t, fun kept hb => ?_⟩
        · change terms.declOf (if type.isBoolean then Symbol.boolean t else Symbol.numeric t) = _
          split
          · exact hbool
          · exact hnum
        · have hkept : (t ::ₘ (env.constantTerms : Multiset Term)) + kept =
              t ::ₘ (env.constantTerms + kept) := Multiset.cons_add _ _ _
          change Handles.Balanced _
            (((t :: env.constantTerms : List Term) : Multiset Term) + kept)
          rw [← Multiset.cons_coe, hkept]
          exact hb.hold

theorem requestFunction_requested (name : String) (arguments : List FormulaType)
    (result : FormulaType) (env : Environment) :
    Requested env ((requestFunction name arguments result).exec env) := by
  have hsame : ∀ {outcome : Except Fault (FunctionDeclaration × Option Symbol)},
      (∀ r, outcome = .ok r → r.2 = none) → Requested env (outcome, env) := fun h => .inl ⟨rfl, h⟩
  rw [exec_requestFunction]
  split
  · exact hsame nofun
  · split
    · exact hsame fun r hr => by cases hr; rfl
    · split
      · exact hsame nofun
      · next ks _ =>
        split
        · exact hsame nofun
        · next k _ =>
          have hg := Store.grows_internDecl env.terms ⟨name, ks, k⟩
          exact .inr ⟨_, _, _, rfl, rfl, rfl, rfl, hg, rfl, .refl _, fun _ hb => hb⟩

end Environment

namespace World

/-- A request makes no symbol, and nothing changes, or all are told of the symbol that it makes. -/
theorem request_cases {σ α : Type} [Session σ] {request : Effect Environment (α × Option Symbol)}
    {f : α × Option Symbol → Effect (World σ) α} {ctx : Nat}
    (hrequest : ∀ env, Environment.Requested env (request.exec env))
    (hold : ∀ a, f (a, none) = pure a)
    (hnew : ∀ a symbol, f (a, some symbol) = publish ctx symbol >>= fun _ => pure a)
    (w : World σ) : ((inEnvironment ctx request >>= f).exec w).2 = w ∨
      ∃ c symbol d env, w.contexts[ctx]? = some c ∧ c.env.Declares symbol d env ∧
        ((inEnvironment ctx request >>= f).exec w).2 =
          ((publish ctx symbol).exec (setEnvironment ctx env w)).2 := by
  rw [Effect.exec_bind]
  cases hc : w.contexts[ctx]? with
  | none =>
    rw [exec_inEnvironment_none hc]
    exact .inl rfl
  | some c =>
    rw [exec_inEnvironment hc]
    obtain ⟨henv, hnone⟩ | ⟨a, symbol, d, hok, hd⟩ := hrequest c.env
    · rw [henv, setEnvironment_self hc]
      cases hx : (request.exec c.env).1 with
      | error x => exact .inl rfl
      | ok r =>
        obtain ⟨a, new⟩ := r
        obtain rfl : new = none := hnone _ hx
        dsimp only
        rw [hold]
        exact .inl rfl
    · rw [hok]
      dsimp only
      rw [hnew, Effect.exec_bind_pure]
      exact .inr ⟨c, symbol, d, _, rfl, hd, rfl⟩

variable {w : World FoldingSolver} {c : Context} {ctx id : Nat} {held : Multiset Formula}
  {history : Nat → History} {symbol : Symbol} {d : FuncDecl}

/-- A stack of the environment that a new symbol belongs to is told of it. -/
theorem tell_sound (h : w.Sound held history) (hc : w.contexts[ctx]? = some c)
    (hd : c.env.terms.declOf symbol = .ok d) (hhome : ∀ s, w.stack? id = some s → s.home = ctx) :
    ∃ w', (tell symbol (.stack id)).exec w = (.ok (), w') ∧ w.Keeps w' ∧ w'.Sound held history ∧
      ∀ s, w'.stack? id = some s → s.closed = false → s.session.isDeclared d = true := by
  unfold tell
  rw [Effect.exec_bind_ok (Effect.exec_get _)]
  cases hs : w.stack? id with
  | none =>
    refine ⟨w, rfl, .refl w, h, fun s hs' => ?_⟩
    rw [hs] at hs'
    cases hs'
  | some s =>
    have hcs : w.contexts[s.home]? = some c := by
      rw [hhome s hs]
      exact hc
    have hsite := site_sound h hs hcs
    have hput := stack?_put hs (w.site c s) s.home
    have hx : ((atStack id (Site.symbolRequested symbol)).exec w) = (.ok (), w.put id s.home
        (if s.closed then w.site c s else (w.site c s).noted [symbol] [d])) := by
      rw [exec_atStack hs hcs, Site.exec_symbolRequested hd]
      rfl
    refine ⟨_, hx, ?_⟩
    cases ho : s.closed with
    | true =>
      refine ⟨keeps_put hs hcs (.refl _), h.put_same hs hcs (.refl _) hsite, fun s' hs' ho' => ?_⟩
      rw [if_pos rfl, stack?_put hs, if_pos rfl] at hs'
      cases hs'
      rw [show (w.site c s).stack.closed = s.closed from rfl, ho] at ho'
      cases ho'
    | false =>
      have hk := Site.keeps_noted (s := w.site c s) [symbol] [d]
      refine ⟨keeps_put hs hcs hk, h.put_same hs hcs hk (Site.sound_noted hsite ho hd),
        fun s' hs' _ => ?_⟩
      rw [if_neg Bool.false_ne_true, stack?_put hs, if_pos rfl] at hs'
      cases hs'
      exact FoldingSolver.isDeclared_note.2 (.inl List.mem_cons_self)

/-- All observers are told. -/
theorem tellAll_sound {os : List Observer} (h : w.Sound held history)
    (hc : w.contexts[ctx]? = some c) (hd : c.env.terms.declOf symbol = .ok d)
    (hos : ∀ o ∈ os, ∃ id, o = .stack id ∧ ∀ s, w.stack? id = some s → s.home = ctx) :
    ∃ w', (os.forM (tell symbol)).exec w = (.ok (), w') ∧ w.Keeps w' ∧ w'.Sound held history ∧
      ∀ id, .stack id ∈ os → ∀ s, w'.stack? id = some s → s.closed = false → s.replaying = true →
        s.session.isDeclared d = true := by
  rw [List.forM_eq_forM]
  induction os generalizing w c with
  | nil => exact ⟨w, rfl, .refl w, h, fun _ hid => (List.not_mem_nil hid).elim⟩
  | cons o os ih =>
    obtain ⟨id, rfl, hhome⟩ := hos _ List.mem_cons_self
    obtain ⟨u, hu, hk, hsound, hknows⟩ := tell_sound h hc hd hhome
    obtain ⟨c', hc', hkc⟩ := hk.exists_context hc
    have hos' : ∀ o ∈ os, ∃ id, o = .stack id ∧ ∀ s, u.stack? id = some s → s.home = ctx := by
      intro o ho
      obtain ⟨j, hj, hall⟩ := hos o (List.mem_cons_of_mem _ ho)
      refine ⟨j, hj, fun s hs => ?_⟩
      obtain ⟨s₀, hs₀, hks⟩ := hk.stack j s hs
      exact hks.home.trans (hall s₀ hs₀)
    obtain ⟨v, hv, hk', hsound', hknows'⟩ := ih hsound hc' (hkc.terms.declOf hd) hos'
    refine ⟨v, ?_, hk.trans hk', hsound', fun j hj s hs ho hr => ?_⟩
    · rw [List.forM_cons, Effect.exec_bind_ok hu]
      exact hv
    · obtain hj | hj := List.mem_cons.1 hj
      · cases hj
        obtain ⟨s₀, hs₀, hks⟩ := hk'.stack id s hs
        exact hks.knows (hks.replaying.symm.trans hr) ho d (hknows s₀ hs₀ (hks.opened ho))
      · exact hknows' j hj s hs ho hr

/-- A new symbol makes its environment know it. -/
theorem sound_declares {env : Environment} (h : w.Sound held history)
    (hc : w.contexts[ctx]? = some c) (hd : Environment.Declares c.env symbol d env) :
    (setEnvironment ctx env w).Sound held history := by
  have hcontext := h.context ctx c hc
  refine h.environment hc hd.id hd.observers hd.terms (fun symbol' hm => ?_)
    (hd.accounts hcontext.accounts) h.owners fun _ _ => rfl
  rw [hd.declared] at hm
  obtain hm | hm := List.mem_append.1 hm
  · obtain ⟨e, he⟩ := hcontext.declarable symbol' hm
    exact ⟨e, hd.terms.extension.declOf he⟩
  · rw [List.mem_singleton.1 hm]
    exact ⟨d, hd.decl⟩

/-- After all observers were told of a new symbol, open stacks know that one too. -/
theorem publish_knows {env : Environment} {w' : World FoldingSolver} (h : w.Valid held history)
    (hc : w.contexts[ctx]? = some c) (hd : Environment.Declares c.env symbol d env)
    (hk : (setEnvironment ctx env w).Keeps w')
    (htold : ∀ id, .stack id ∈ env.observers → ∀ s, w'.stack? id = some s → s.closed = false →
      s.replaying = true → s.session.isDeclared d = true) : w'.Knows := by
  intro id s' hs' ho hr c' hc' symbol' hm d' hd'
  obtain ⟨s, hs, hks⟩ := hk.stack id s' hs'
  obtain ⟨c₀, hc₀, hstack⟩ := h.sound.stack id s hs
  have hr₀ := hks.replaying.symm.trans hr
  have hold : symbol' ∈ c₀.env.declared → c'.env.terms.Extends c₀.env.terms →
      s'.session.isDeclared d' = true := by
    intro hm hterms
    obtain ⟨e, he⟩ := (h.sound.context _ c₀ hc₀).declarable symbol' hm
    have hde := hterms.declOf he
    rw [hd'] at hde
    cases hde
    exact hks.knows hr₀ ho d' (h.knows id s hs (hks.opened ho) hr₀ c₀ hc₀ symbol' hm d' he)
  rw [hks.home] at hc'
  have hset := context_setEnvironment hc env s.home
  by_cases hh : s.home = ctx
  · rw [if_pos hh] at hset
    rw [hh, hc] at hc₀
    cases hc₀
    have hkc := hk.context _ _ _ hset hc'
    rw [hkc.declared, hd.declared] at hm
    obtain hm | hm := List.mem_append.1 hm
    · exact hold hm (hkc.terms.trans hd.terms.extension)
    · rw [List.mem_singleton.1 hm, hkc.terms.declOf hd.decl] at hd'
      cases hd'
      refine htold id ?_ s' hs' ho hr
      rw [hd.observers]
      exact hstack.observed (hks.opened ho)
  · rw [if_neg hh] at hset
    rw [hc₀] at hset
    have hkc := hk.context _ _ _ hset hc'
    rw [hkc.declared] at hm
    exact hold hm hkc.terms

/-- A request, and what follows it where it makes a new symbol. -/
theorem request_valid {α : Type} {request : Effect Environment (α × Option Symbol)}
    {f : α × Option Symbol → Effect (World FoldingSolver) α}
    (hrequest : ∀ env, Environment.Requested env (request.exec env))
    (hold : ∀ a, f (a, none) = pure a)
    (hnew : ∀ a symbol, f (a, some symbol) = publish ctx symbol >>= fun _ => pure a)
    (h : w.Valid held history) :
    ((inEnvironment ctx request >>= f).exec w).2.Valid held history ∧
      ((inEnvironment ctx request >>= f).exec w).2.Extends w := by
  obtain hsame | ⟨c, symbol, d, env, hc, hd, hx⟩ := request_cases hrequest hold hnew w
  · rw [hsame]
    exact ⟨h, .refl w⟩
  · have hsound := sound_declares h.sound hc hd
    have hcs : (setEnvironment ctx env w).contexts[ctx]? = some { c with env } := by
      rw [context_setEnvironment hc, if_pos rfl]
    have hos : ∀ o ∈ env.observers, ∃ id, o = .stack id ∧
        ∀ s, (setEnvironment ctx env w).stack? id = some s → s.home = ctx := by
      intro o ho
      obtain ⟨id, -, rfl, hall⟩ := (hsound.context ctx _ hcs).observers o ho
      exact ⟨id, rfl, hall⟩
    obtain ⟨u, hu, hk, hus, htold⟩ := tellAll_sound hsound hcs hd.decl hos
    have hpublish : (publish ctx symbol).exec (setEnvironment ctx env w) = (.ok (), u) := by
      unfold publish
      rw [Effect.exec_bind_ok (exec_context hcs)]
      exact hu
    rw [hx, hpublish]
    refine ⟨⟨hus, publish_knows h hc hd hk htold⟩, hk.extends.trans
      ⟨fun i c' hc' => ?_, Nat.le_refl _, fun _ s _ hs => ⟨s, hs, rfl⟩⟩⟩
    rw [context_setEnvironment hc]
    split
    · next hi =>
      rw [hi, hc] at hc'
      cases hc'
      exact ⟨_, rfl, hd.terms.extension⟩
    · exact ⟨c', hc', .refl _⟩

theorem constantTerm_valid (h : w.Valid held history) (ctx : Nat) (type : FormulaType)
    (name : String) :
    ((constantTerm ctx type name).exec w).2.Valid held history ∧
      ((constantTerm ctx type name).exec w).2.Extends w :=
  request_valid (Environment.requestVariable_requested type name) (fun _ => rfl) (fun _ _ => rfl) h

theorem function_valid (h : w.Valid held history) (ctx : Nat) (name : String)
    (result : FormulaType) (arguments : List FormulaType) :
    ((function ctx name result arguments).exec w).2.Valid held history ∧
      ((function ctx name result arguments).exec w).2.Extends w :=
  request_valid (Environment.requestFunction_requested name arguments result) (fun _ => rfl)
    (fun _ _ => rfl) h

theorem constant_valid (h : w.Valid held history) (ctx : Nat) (type : FormulaType) (name : String) :
    ((constant ctx type name).exec w).2.Valid
        (gained (fun f => {f}) ((constant ctx type name).exec w).1 + held) history ∧
      ((constant ctx type name).exec w).2.Extends w := by
  obtain ⟨hv, hx⟩ := constantTerm_valid h ctx type name
  unfold constant
  rw [Effect.exec_bind]
  rcases hr : (constantTerm ctx type name).exec w with ⟨x | t, u⟩ <;> rw [hr] at hv hx
  · rw [gained, zero_add]
    exact ⟨hv, hx⟩
  · obtain ⟨hw, hk⟩ := inEnvironment_valid (fun _ _ => Environment.wrap_owns type t) hv ctx
    exact ⟨hw, hk.extends.trans hx⟩

end World
end FormulaStack
