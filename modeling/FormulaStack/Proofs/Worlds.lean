import FormulaStack.Proofs.Queries
import FormulaStack.World

/-!
Contexts and stacks side by side. What one stack does leaves the others alone; the terms that the
stacks of a context keep together are what its accounts know of.
-/
namespace FormulaStack

/-- The wrappers of one environment. -/
def ownedBy (ctx : Nat) (held : Multiset Formula) : Multiset Formula :=
  held.filter (·.owner = ctx)

namespace World

/-! Work at one stack -/

section Places

variable {σ : Type} {w : World σ} {c : Context} {s : AssertionStack σ} {ctx id : Nat}

theorem stack?_eq_some : w.stack? id = some s ↔ w.stackTable[id]? = some (some s) := by
  unfold stack?
  cases w.stackTable[id]? <;> simp

theorem lt_of_stack? (hs : w.stack? id = some s) : id < w.stackTable.size :=
  (Array.getElem?_eq_some_iff.1 (stack?_eq_some.1 hs)).1

/-- A world in which one place of the stacks holds something else. -/
def withStack (w : World σ) (id : Nat) (s : Option (AssertionStack σ)) : World σ :=
  { w with stackTable := w.stackTable.setIfInBounds id s }

theorem stack?_withStack (hid : id < w.stackTable.size) (s : Option (AssertionStack σ)) (j : Nat) :
    (w.withStack id s).stack? j = if j = id then s else w.stack? j := by
  unfold stack? withStack
  rw [Array.getElem?_setIfInBounds]
  by_cases hj : j = id
  · rw [if_pos hj.symm, if_pos hj, if_pos (hj ▸ hid)]
    rfl
  · rw [if_neg (Ne.symm hj), if_neg hj]

/-- A stack of a world with its surroundings. -/
def site (w : World σ) (c : Context) (s : AssertionStack σ) : Site σ :=
  ⟨c.env, w.notifierOf s.home, w.queries, s⟩

/-- The world after work at a stack. -/
def put (w : World σ) (id home : Nat) (t : Site σ) : World σ :=
  let w := setNotifier home t.notifier (setEnvironment home t.env w)
  { w with
    queries := t.queries
    stackTable := w.stackTable.setIfInBounds id (some t.stack) }

theorem exec_context (hc : w.contexts[ctx]? = some c) : (context ctx).exec w = (.ok c, w) := by
  unfold context
  rw [Effect.exec_bind_ok (Effect.exec_look _ _), hc]
  rfl

theorem exec_context_none (hc : w.contexts[ctx]? = none) :
    (context ctx).exec w = (.error .foreign, w) := by
  unfold context
  rw [Effect.exec_bind_ok (Effect.exec_look _ _), hc]
  rfl

theorem exec_atStack {α : Type} (hs : w.stack? id = some s) (hc : w.contexts[s.home]? = some c)
    (e : Effect (Site σ) α) :
    (atStack id e).exec w =
      ((e.exec (w.site c s)).1, w.put id s.home (e.exec (w.site c s)).2) := by
  unfold atStack
  rw [Effect.exec_bind_ok (Effect.exec_get _), hs]
  dsimp only
  rw [Effect.exec_bind_ok (exec_context hc)]
  rfl

theorem exec_atStack_none {α : Type} (hs : w.stack? id = none) (e : Effect (Site σ) α) :
    (atStack id e).exec w = (.error (.badState .stackClosed), w) := by
  unfold atStack
  rw [Effect.exec_bind_ok (Effect.exec_get _), hs]
  rfl

theorem exec_atStack_foreign {α : Type} (hs : w.stack? id = some s)
    (hc : w.contexts[s.home]? = none) (e : Effect (Site σ) α) :
    (atStack id e).exec w = (.error .foreign, w) := by
  unfold atStack
  rw [Effect.exec_bind_ok (Effect.exec_get _), hs]
  exact Effect.exec_bind_error (exec_context_none hc) _

@[simp] theorem contexts_setNotifier (n : Notifier Reaction) (w : World σ) :
    (setNotifier ctx n w).contexts = w.contexts := by
  unfold setNotifier
  split <;> rfl

@[simp] theorem stackTable_setNotifier (n : Notifier Reaction) (w : World σ) :
    (setNotifier ctx n w).stackTable = w.stackTable := by
  unfold setNotifier
  split <;> rfl

theorem contexts_put (t : Site σ) (home : Nat) :
    (w.put id home t).contexts = w.contexts.modify home fun c => { c with env := t.env } :=
  contexts_setNotifier _ _

theorem stackTable_put (t : Site σ) (home : Nat) :
    (w.put id home t).stackTable = (w.withStack id (some t.stack)).stackTable := by
  unfold put withStack
  simp [setEnvironment]

theorem stack?_put (hs : w.stack? id = some s) (t : Site σ) (home j : Nat) :
    (w.put id home t).stack? j = if j = id then some t.stack else w.stack? j := by
  rw [← stack?_withStack (lt_of_stack? hs), stack?, stackTable_put]
  rfl

theorem context_put (hc : w.contexts[s.home]? = some c) (t : Site σ) (i : Nat) :
    (w.put id s.home t).contexts[i]? =
      if i = s.home then some { c with env := t.env } else w.contexts[i]? := by
  rw [contexts_put, Array.getElem?_modify]
  by_cases hi : i = s.home
  · rw [if_pos hi.symm, if_pos hi, hi, hc]
    rfl
  · rw [if_neg (Ne.symm hi), if_neg hi]

theorem context_setEnvironment (hc : w.contexts[ctx]? = some c) (env : Environment) (i : Nat) :
    (setEnvironment ctx env w).contexts[i]? =
      if i = ctx then some { c with env } else w.contexts[i]? := by
  rw [setEnvironment, Array.getElem?_modify]
  by_cases hi : i = ctx
  · rw [if_pos hi.symm, if_pos hi, hi, hc]
    rfl
  · rw [if_neg (Ne.symm hi), if_neg hi]

theorem exec_inEnvironment {α : Type} (hc : w.contexts[ctx]? = some c) (e : Effect Environment α) :
    (inEnvironment ctx e).exec w = ((e.exec c.env).1, setEnvironment ctx (e.exec c.env).2 w) := by
  unfold inEnvironment
  rw [Effect.exec_bind_ok (exec_context hc), Effect.exec_on, hc]
  rfl

theorem exec_inEnvironment_none {α : Type} (hc : w.contexts[ctx]? = none)
    (e : Effect Environment α) : (inEnvironment ctx e).exec w = (.error .foreign, w) := by
  unfold inEnvironment
  rw [Effect.exec_bind_error (exec_context_none hc)]

theorem setEnvironment_self (hc : w.contexts[ctx]? = some c) : setEnvironment ctx c.env w = w := by
  have hcontexts : (setEnvironment ctx c.env w).contexts = w.contexts := by
    refine Array.ext_getElem? fun i => ?_
    rw [context_setEnvironment hc]
    split
    · next hi => rw [hi, hc]
    · rfl
  exact congrArg (fun contexts => { w with contexts }) hcontexts

theorem setNotifier_self (w : World σ) (ctx : Nat) :
    setNotifier ctx (w.notifierOf ctx) w = w := by
  unfold setNotifier notifierOf
  cases hc : w.contexts[ctx]? with
  | none => rfl
  | some c =>
    have hn : w.notifiers.setIfInBounds c.notifier ((w.notifiers[c.notifier]?).getD .new) =
        w.notifiers := by
      refine Array.ext_getElem? fun i => ?_
      rw [Array.getElem?_setIfInBounds]
      split
      · next hi =>
        subst hi
        split
        · next hlt => rw [Array.getElem?_eq_getElem hlt, Option.getD_some]
        · next hlt => exact (Array.getElem?_eq_none (Nat.le_of_not_lt hlt)).symm
      · rfl
    exact congrArg (fun notifiers => { w with notifiers }) hn

theorem withStack_self (hs : w.stack? id = some s) : w.withStack id (some s) = w := by
  have htable : w.stackTable.setIfInBounds id (some s) = w.stackTable := by
    refine Array.ext_getElem? fun j => ?_
    rw [Array.getElem?_setIfInBounds]
    split
    · next hj => rw [← hj, if_pos (lt_of_stack? hs), stack?_eq_some.1 hs]
    · rfl
  exact congrArg (fun stackTable => { w with stackTable }) htable

theorem withStack_none (hs : w.stack? id = none) : w.withStack id none = w := by
  have htable : w.stackTable.setIfInBounds id none = w.stackTable := by
    refine Array.ext_getElem? fun j => ?_
    rw [Array.getElem?_setIfInBounds]
    split
    · next hj =>
      subst hj
      unfold stack? at hs
      split
      · next hlt =>
        rw [Array.getElem?_eq_getElem hlt] at hs ⊢
        exact congrArg some hs.symm
      · next hlt => exact (Array.getElem?_eq_none (Nat.le_of_not_lt hlt)).symm
    · rfl
  exact congrArg (fun stackTable => { w with stackTable }) htable

theorem modify_environment {f : Environment → Environment} (hc : w.contexts[ctx]? = some c) :
    w.contexts.modify ctx (fun c => { c with env := f c.env }) =
      (setEnvironment ctx (f c.env) w).contexts := by
  refine Array.ext_getElem? fun i => ?_
  rw [context_setEnvironment hc, Array.getElem?_modify]
  by_cases hi : i = ctx
  · rw [if_pos hi.symm, if_pos hi, hi, hc]
    rfl
  · rw [if_neg (Ne.symm hi), if_neg hi]

theorem modify_environment_none (hc : w.contexts[ctx]? = none) (f : Context → Context) :
    w.contexts.modify ctx f = w.contexts := by
  refine Array.ext_getElem? fun i => ?_
  rw [Array.getElem?_modify]
  split
  · next hi =>
    rw [← hi, hc]
    rfl
  · rfl

theorem put_self (hs : w.stack? id = some s) (hc : w.contexts[s.home]? = some c) :
    w.put id s.home (w.site c s) = w := by
  have hw : setNotifier s.home (w.notifierOf s.home) (setEnvironment s.home c.env w) = w := by
    rw [setEnvironment_self hc, setNotifier_self]
  unfold put site
  dsimp only
  rw [hw]
  exact withStack_self hs

/-! What the stacks of a world have together -/

/-- What all places for stacks have together, as `f` says of each. -/
def total (f : Option (AssertionStack σ) → Multiset Term) (w : World σ) : Multiset Term :=
  (w.stackTable.toList.map f).sum

/-- What all places but one have together. -/
def totalBut (f : Option (AssertionStack σ) → Multiset Term) (w : World σ) (id : Nat) :
    Multiset Term :=
  ((w.stackTable.toList.eraseIdx id).map f).sum

theorem total_eq (hs : w.stack? id = some s) (f : Option (AssertionStack σ) → Multiset Term) :
    w.total f = f (some s) + w.totalBut f id := by
  have hid : id < w.stackTable.toList.length := lt_of_stack? hs
  have hget : w.stackTable.toList[id] = some s := by
    rw [Array.getElem_toList]
    exact (Array.getElem?_eq_some_iff.1 (stack?_eq_some.1 hs)).2
  have hp := ((List.getElem_cons_eraseIdx_perm hid).map f).sum_eq
  rw [hget, List.map_cons, List.sum_cons] at hp
  exact hp.symm

theorem total_withStack (hid : id < w.stackTable.size) (s : Option (AssertionStack σ))
    (f : Option (AssertionStack σ) → Multiset Term) :
    (w.withStack id s).total f = f s + w.totalBut f id := by
  have hlen : id < (w.stackTable.toList.set id s).length := by
    rw [List.length_set]
    exact hid
  have hp := ((List.getElem_cons_eraseIdx_perm hlen).map f).sum_eq
  rw [List.getElem_set_self, List.eraseIdx_set_eq, List.map_cons, List.sum_cons] at hp
  rw [total, withStack, Array.toList_setIfInBounds]
  exact hp.symm

theorem total_put (hs : w.stack? id = some s) (t : Site σ) (home : Nat)
    (f : Option (AssertionStack σ) → Multiset Term) :
    (w.put id home t).total f = f (some t.stack) + w.totalBut f id := by
  rw [← total_withStack (lt_of_stack? hs), total, stackTable_put]
  rfl

/-- Reading something at a stack leaves the world as it is. -/
theorem atStack_readOnly {α : Type} {e : Effect Environment α} (he : Effect.Within Eq e) (id : Nat)
    (w : World σ) : ((atStack id (Site.inEnvironment e)).exec w).2 = w := by
  cases hs : w.stack? id with
  | none => rw [exec_atStack_none hs]
  | some s =>
    cases hc : w.contexts[s.home]? with
    | none => rw [exec_atStack_foreign hs hc]
    | some c =>
      have hx : ((Site.inEnvironment e).exec (w.site c s)).2 = w.site c s := by
        unfold Site.inEnvironment
        rw [Effect.exec_on, ← he]
      rw [exec_atStack hs hc, hx]
      exact put_self hs hc

theorem stack?_of_withStack_none {j : Nat} (h : (w.withStack id none).stack? j = some s) :
    w.stack? j = some s := by
  unfold stack? withStack at h
  rw [Array.getElem?_setIfInBounds] at h
  split at h
  · split at h <;> cases h
  · exact h

theorem stackTable_addContext (w : World σ) (theories : Theories) (counting announced : Bool)
    (options : Options) (notifierOf : Option Nat) :
    (w.addContext theories counting announced options notifierOf).stackTable = w.stackTable := by
  unfold addContext
  dsimp only
  split <;> rfl

/-- A new context comes after all others, and its environment is new. -/
theorem contexts_addContext (w : World σ) (theories : Theories) (counting announced : Bool)
    (options : Options) (notifierOf : Option Nat) : ∃ notifier,
      (w.addContext theories counting announced options notifierOf).contexts =
        w.contexts.push ⟨Environment.new w.contexts.size theories counting announced
          options.trackReferences, options, notifier⟩ := by
  unfold addContext
  dsimp only
  split
  · exact ⟨_, rfl⟩
  · exact ⟨_, rfl⟩

end Places

/-! Relations of worlds, along work in one place -/

section Within

variable {σ α : Type} {R : World σ → World σ → Prop} [Std.Refl R] {w : World σ} {ctx id : Nat}

theorem context_within : Effect.Within R (context ctx) := by
  intro w
  have hx : ((context ctx).exec w).2 = w := by
    cases hc : w.contexts[ctx]? with
    | none => rw [exec_context_none hc]
    | some c => rw [exec_context hc]
  rw [hx]
  exact Std.Refl.refl w

theorem inEnvironment_within {e : Effect Environment α} (he : ∀ (w : World σ) c,
      w.contexts[ctx]? = some c → R w (setEnvironment ctx (e.exec c.env).2 w)) :
    Effect.Within R (inEnvironment ctx e) := by
  intro w
  cases hc : w.contexts[ctx]? with
  | none =>
    rw [exec_inEnvironment_none hc]
    exact Std.Refl.refl w
  | some c =>
    rw [exec_inEnvironment hc]
    exact he w c hc

theorem atStack_within {e : Effect (Site σ) α} (he : ∀ (w : World σ) c s, w.stack? id = some s →
      w.contexts[s.home]? = some c → R w (w.put id s.home (e.exec (w.site c s)).2)) :
    Effect.Within R (atStack id e) := by
  intro w
  cases hs : w.stack? id with
  | none =>
    rw [exec_atStack_none hs]
    exact Std.Refl.refl w
  | some s =>
    cases hc : w.contexts[s.home]? with
    | none =>
      rw [exec_atStack_foreign hs hc]
      exact Std.Refl.refl w
    | some c =>
      rw [exec_atStack hs hc]
      exact he w c s hs hc

theorem modify_within {f : Environment → Environment}
    (hf : ∀ c, w.contexts[ctx]? = some c → R w (setEnvironment ctx (f c.env) w)) :
    R w { w with contexts := w.contexts.modify ctx fun c => { c with env := f c.env } } := by
  cases hc : w.contexts[ctx]? with
  | none =>
    rw [modify_environment_none hc]
    exact Std.Refl.refl w
  | some c =>
    rw [modify_environment hc]
    exact hf c hc

end Within

/-! Announcements, by what their parts do -/

section Announcing

variable {σ : Type} {w : World σ} {watch : Watch} {ctx id : Nat}

/-- A watch that was told of a symbol. -/
def receiving (w : World σ) (id : Nat) (watch : Watch) (symbol : Symbol) : World σ :=
  { w with
    watches := w.watches.setIfInBounds id
      (some { watch with received := watch.received ++ [symbol] }) }

variable [Session σ]

/-- What a watch does when it is told of a symbol, once it has noted that. -/
def respond (watch : Watch) : Effect (World σ) Unit := do
  if let some stack := watch.closes then closeStack stack
  if watch.fails then throw (.solver (.reported "watch failed"))

theorem exec_tell_watch (hwatch : w.watches[id]?.join = some watch) (symbol : Symbol) :
    (tell symbol (.watch id)).exec w = (respond watch).exec (w.receiving id watch symbol) := by
  unfold tell
  rw [Effect.exec_bind_ok (Effect.exec_get _), hwatch]
  rfl

theorem exec_tell_nobody (hwatch : w.watches[id]?.join = none) (symbol : Symbol) :
    (tell symbol (.watch id)).exec w = (.ok (), w) := by
  unfold tell
  rw [Effect.exec_bind_ok (Effect.exec_get _), hwatch]
  rfl

variable {R : World σ → World σ → Prop} [Std.Refl R] [IsTrans _ R]

theorem closeStack_within
    (hclose : Effect.Within R (atStack id Site.close : Effect (World σ) Unit)) :
    Effect.Within R (closeStack id : Effect (World σ) Unit) := by
  refine .bind (.look _) fun w => ?_
  split
  · exact hclose
  · exact .pure _

theorem respond_within
    (hclose : ∀ stack, watch.closes = some stack → Effect.Within R (closeStack stack)) :
    Effect.Within R (respond watch) := by
  have hfails : Effect.Within R (do
      if watch.fails then throw (.solver (.reported "watch failed")) : Effect (World σ) Unit) := by
    split
    · exact .throw _
    · exact .pure _
  unfold respond
  cases hcloses : watch.closes with
  | none => exact hfails
  | some stack => exact .bind (hclose stack hcloses) fun _ => hfails

/-- What a stack does that is told of a symbol or closed, and what a watch notes, is all that
telling an observer does. -/
theorem tell_within {symbol : Symbol}
    (htold : ∀ id, Effect.Within R (atStack id (Site.symbolRequested symbol)))
    (hclose : ∀ id, Effect.Within R (atStack id Site.close))
    (hnoted : ∀ (w : World σ) watches, R w { w with watches }) (o : Observer) :
    Effect.Within R (tell symbol o) := by
  cases o with
  | stack id =>
    refine .bind (.look _) fun w => ?_
    split
    · exact htold id
    · exact .pure _
  | watch id =>
    intro w
    cases hwatch : w.watches[id]?.join with
    | none =>
      rw [exec_tell_nobody hwatch]
      exact Std.Refl.refl w
    | some watch =>
      rw [exec_tell_watch hwatch]
      exact trans_of R (hnoted w _)
        (respond_within (fun stack _ => closeStack_within (hclose stack)) _)

theorem publish_within {symbol : Symbol} (htell : ∀ o, Effect.Within R (tell symbol o)) :
    Effect.Within R (publish ctx symbol) :=
  .bind context_within fun _ => .forM htell _

theorem constantTerm_within {type : FormulaType} {name : String}
    (hrequest : Effect.Within R (inEnvironment ctx (Environment.requestVariable type name)))
    (hpublish : ∀ symbol, Effect.Within R (publish ctx symbol)) :
    Effect.Within R (constantTerm ctx type name) := by
  refine .bind hrequest fun ⟨t, new⟩ => ?_
  cases new with
  | none => exact .pure _
  | some symbol => exact .bind (hpublish symbol) fun _ => .pure _

theorem function_within {name : String} {result : FormulaType} {arguments : List FormulaType}
    (hrequest : Effect.Within R
      (inEnvironment ctx (Environment.requestFunction name arguments result)))
    (hpublish : ∀ symbol, Effect.Within R (publish ctx symbol)) :
    Effect.Within R (function ctx name result arguments) := by
  refine .bind hrequest fun ⟨d, new⟩ => ?_
  cases new with
  | none => exact .pure _
  | some symbol => exact .bind (hpublish symbol) fun _ => .pure _

/-! Requests to stop, and stacks that go -/

theorem reactions_within {reason : String} (hreact : ∀ r (w : World σ), R w (react reason w r))
    (reactions : List Reaction) (w : World σ) : R w (reactions.foldl (react reason) w) := by
  induction reactions generalizing w with
  | nil => exact Std.Refl.refl w
  | cons r reactions ih => exact trans_of R (hreact r w) (ih _)

theorem requestStop_within {reason : String}
    (hset : R w (setNotifier ctx ((w.notifierOf ctx).request reason).2 w))
    (hreact : ∀ r (w : World σ), R w (react reason w r)) : R w (requestStop ctx reason w) :=
  trans_of R hset (reactions_within hreact _ _)

omit [Std.Refl R] in
theorem listen_within {r : Reaction}
    (hset : R w (setNotifier ctx ((w.notifierOf ctx).register r).2.2 w))
    (hreact : ∀ reason (w : World σ), R w (react reason w r)) : R w (listen ctx r w).2 := by
  unfold listen
  dsimp only
  split
  · exact trans_of R hset (hreact _ _)
  · exact hset

omit [Std.Refl R] in
theorem dropStack_within (hclose : R w ((closeStack id).exec w).2)
    (hgone : ∀ w : World σ, R w (w.withStack id none)) : R w (w.dropStack id) := by
  unfold dropStack
  cases w.stack? id with
  | none => exact hgone w
  | some s =>
    dsimp only
    split
    · exact hgone w
    · exact trans_of R hclose (hgone _)

end Announcing

/-! Rounds of an enumeration -/

section Rounds

variable {σ τ : Type}

theorem exec_beside {α : Type} (e : Effect (World σ) α) (y : World σ × τ) :
    (beside e).exec y = ((e.exec y.1).1, (e.exec y.1).2, y.2) := rfl

variable [Session σ]

/-- A round of an enumeration after its search. -/
def round (id count : Nat) (model : List (BoolFormula × Term))
    (callback : Nat → List BoolFormula → Effect (World σ × τ) Unit) : Effect (World σ × τ) Bool :=
  Effect.andThen
    (do
      callback count (model.map (·.1))
      if model.isEmpty then return false
      beside (block id (model.map (·.2)))
      return true)
    fun (w, x) => (w.discardAll ((model.map (·.1)).map (·.formula)), x)

theorem modelsFrom_succ (id fuel count : Nat) (important : List (BoolFormula × Term))
    (callback : Nat → List BoolFormula → Effect (World σ × τ) Unit) :
    modelsFrom id important callback (fuel + 1) count = (do
      match ← beside (atStack id (Site.nextModel? important)) with
      | none => return count
      | some model =>
        if ← round id count model callback then modelsFrom id important callback fuel (count + 1)
        else return count + 1) := rfl

/-- An enumeration inside of its own level. -/
def enumerate (id : Nat) (important : List BoolFormula)
    (callback : Nat → List BoolFormula → Effect (World σ × τ) Unit) : Effect (World σ × τ) Nat := do
  let terms ← beside (atStack id (Site.inEnvironment (important.mapM (·.unwrap))))
  modelsFrom id (important.zip terms) callback maxModels 0

/-- What follows an enumeration: its level is popped, and its outcome is given. -/
def conclude (id : Nat) (outcome : Except Fault Nat) : Effect (World σ × τ) Nat := do
  beside (atStack id (Site.pop 1))
  match outcome with
  | .ok count => return count
  | .error e => throw e

theorem allSat_eq (id : Nat) (important : List BoolFormula)
    (callback : Nat → List BoolFormula → Effect (World σ × τ) Unit) :
    allSat id important callback = (do
      beside (atStack id (Site.push 1))
      conclude id (← Effect.attempt (enumerate id important callback))) := rfl

/-- What holds along callbacks, searches, blocking assertions and discards holds along an
enumeration. -/
theorem enumerate_within {R : World σ × τ → World σ × τ → Prop} [Std.Refl R] [IsTrans _ R]
    {id : Nat} {callback : Nat → List BoolFormula → Effect (World σ × τ) Unit}
    (hcallback : ∀ count literals, Effect.Within R (callback count literals))
    (hsearch : ∀ important, Effect.Within R (beside (atStack id (Site.nextModel? important))))
    (hblock : ∀ negations, Effect.Within R (beside (block id negations)))
    (hdiscard : ∀ fs y, R y (y.1.discardAll fs, y.2)) (important : List BoolFormula) :
    Effect.Within R (enumerate id important callback) := by
  have hround : ∀ count model, Effect.Within R (round id count model callback) := by
    intro count model
    refine .andThen (.bind (hcallback count _) fun _ => ?_) (hdiscard _)
    split
    · exact .pure _
    · exact .bind (hblock _) fun _ => .pure _
  have hmodels : ∀ terms fuel count,
      Effect.Within R (modelsFrom id (important.zip terms) callback fuel count) := by
    intro terms fuel
    induction fuel with
    | zero => exact fun _ => .throw _
    | succ fuel ih =>
      intro count
      rw [modelsFrom_succ]
      refine .bind (hsearch _) fun model => ?_
      split
      · exact .pure _
      · refine .bind (hround count _) fun more => ?_
        split
        · exact ih _
        · exact .pure _
  have hread : Effect.Within Eq (important.mapM (·.unwrap) : Effect Environment (List Term)) :=
    .mapM (fun f => .ask _) important
  refine .bind (fun y => ?_) fun terms => hmodels terms _ _
  have hy : ((beside (atStack id (Site.inEnvironment (important.mapM (·.unwrap))))).exec y).2 = y :=
    congrArg (·, y.2) (atStack_readOnly hread id y.1)
  rw [hy]
  exact Std.Refl.refl y

end Rounds

variable {w : World FoldingSolver} {c : Context} {s : AssertionStack FoldingSolver} {ctx id : Nat}
  {held : Multiset Formula} {history : Nat → History}

/-- The terms that a stack keeps in a context. -/
def kept (ctx : Nat) : Option (AssertionStack FoldingSolver) → Multiset Term
  | some s => if s.home = ctx ∧ s.closed = false then (s.levels.terms : Multiset Term) else 0
  | none => 0

/-- The terms that the open stacks of a context keep. -/
def recorded (w : World FoldingSolver) (ctx : Nat) : Multiset Term :=
  (w.stackTable.toList.map (kept ctx)).sum

/-- The terms that the stacks of a context but one keep. -/
def others (w : World FoldingSolver) (ctx id : Nat) : Multiset Term :=
  ((w.stackTable.toList.eraseIdx id).map (kept ctx)).sum

theorem recorded_eq (hs : w.stack? id = some s) (ctx : Nat) :
    w.recorded ctx = kept ctx (some s) + w.others ctx id :=
  total_eq hs (kept ctx)

/-- A stack that is there and open. -/
def IsOpen (w : World FoldingSolver) (id : Nat) : Prop :=
  ∃ s, w.stack? id = some s ∧ s.closed = false

theorem recorded_withStack (hid : id < w.stackTable.size)
    (s : Option (AssertionStack FoldingSolver)) (ctx : Nat) :
    (w.withStack id s).recorded ctx = kept ctx s + w.others ctx id :=
  total_withStack hid s (kept ctx)

/-- What holds of a context. -/
structure ContextSound (w : World FoldingSolver) (held : Multiset Formula) (i : Nat) (c : Context) :
    Prop where
  place : c.env.id = i
  wellFormed : c.env.terms.WellFormed
  declarable : ∀ symbol ∈ c.env.declared, ∃ d, c.env.terms.declOf symbol = .ok d
  accounts : c.env.Accounts (ownedBy i held) (w.recorded i)
  /-- Those that observe an environment are stacks of it. -/
  observers : ∀ o ∈ c.env.observers, ∃ id < w.stackTable.size, o = .stack id ∧
    ∀ s, w.stack? id = some s → s.home = i

/-- What holds of a stack that was opened in a context. -/
structure StackSound (h : History) (id : Nat) (s : AssertionStack FoldingSolver) (c : Context) :
    Prop where
  place : s.id = id
  replaying : s.replaying = c.options.globalDeclarations
  mirrors : s.closed = false → Mirrors c.env.terms s.levels s.session.frames
  leads : s.closed = false → h.Leads s.levels
  observed : s.closed = false → .stack id ∈ c.env.observers

/-- The invariant of a world in which `held` are the wrappers in use, and `history` is what happened
at each stack. -/
structure Sound (w : World FoldingSolver) (held : Multiset Formula) (history : Nat → History) :
    Prop where
  owners : ∀ f ∈ held, f.owner < w.contexts.size
  context : ∀ i c, w.contexts[i]? = some c → w.ContextSound held i c
  stack : ∀ id s, w.stack? id = some s →
    ∃ c, w.contexts[s.home]? = some c ∧ StackSound (history id) id s c

/-- A stack at its site. -/
theorem site_sound (h : w.Sound held history) (hs : w.stack? id = some s)
    (hc : w.contexts[s.home]? = some c) :
    (w.site c s).Sound (ownedBy s.home held) (w.others s.home id) (history id) := by
  obtain ⟨c', hc', hstack⟩ := h.stack id s hs
  rw [hc] at hc'
  cases hc'
  have hcontext := h.context _ c hc
  have ha := hcontext.accounts
  rw [recorded_eq hs, kept] at ha
  refine ⟨hcontext.wellFormed, fun ho => ⟨⟨hcontext.wellFormed, hstack.mirrors ho, ?_⟩,
    hstack.leads ho⟩, fun hcl => ?_⟩
  · rw [if_pos ⟨rfl, ho⟩] at ha
    exact ha
  · rw [if_neg (by simp [show s.closed = true from hcl]), zero_add] at ha
    exact ha

/-- What stays of a stack when its surroundings change. -/
theorem StackSound.mono {h : History} {c' : Context} (hstack : StackSound h id s c)
    (hoptions : c'.options = c.options) (hterms : c'.env.terms.Extends c.env.terms)
    (hobservers : s.closed = false → .stack id ∈ c.env.observers → .stack id ∈ c'.env.observers) :
    StackSound h id s c' :=
  ⟨hstack.place, hoptions ▸ hstack.replaying, fun ho => (hstack.mirrors ho).mono hterms,
    hstack.leads, fun ho => hobservers ho (hstack.observed ho)⟩

/-- A stack after one context has changed. -/
theorem StackSound.exists_of_change {h : History} {c' d : Context} {w' : World FoldingSolver}
    (hstack : StackSound h id s c') (hc' : w.contexts[s.home]? = some c')
    (hc : w.contexts[ctx]? = some c)
    (hcontexts : ∀ i, w'.contexts[i]? = if i = ctx then some d else w.contexts[i]?)
    (hoptions : d.options = c.options) (hterms : d.env.terms.Extends c.env.terms)
    (hobservers : s.closed = false → .stack id ∈ c.env.observers → .stack id ∈ d.env.observers) :
    ∃ c', w'.contexts[s.home]? = some c' ∧ StackSound h id s c' := by
  rw [hcontexts]
  split
  · next hh =>
    rw [hh, hc] at hc'
    cases hc'
    exact ⟨d, rfl, hstack.mono hoptions hterms hobservers⟩
  · exact ⟨c', hc', hstack⟩

theorem recorded_put (hs : w.stack? id = some s) (t : Site FoldingSolver) (home ctx : Nat) :
    (w.put id home t).recorded ctx = kept ctx (some t.stack) + w.others ctx id :=
  total_put hs t home (kept ctx)

theorem ownedBy_add (held : Multiset Formula) {new : Multiset Formula}
    (hnew : ∀ f ∈ new, f.owner = ctx) (i : Nat) :
    ownedBy i (new + held) = if i = ctx then new + ownedBy i held else ownedBy i held := by
  rw [ownedBy, Multiset.filter_add]
  split
  · next hi => rw [Multiset.filter_eq_self.2 fun f hf => (hnew f hf).trans hi.symm, ownedBy]
  · next hi =>
    rw [Multiset.filter_eq_nil.2 fun f hf hfi => hi (hfi.symm.trans (hnew f hf)), zero_add, ownedBy]

theorem home_put {t : Site FoldingSolver} (hs : w.stack? id = some s)
    (hk : (w.site c s).Keeps t) {i j : Nat} (hj : ∀ s, w.stack? j = some s → s.home = i) :
    ∀ s', (w.put id s.home t).stack? j = some s' → s'.home = i := by
  intro s' hs'
  rw [stack?_put hs] at hs'
  split at hs'
  · next hji =>
    cases hs'
    rw [hk.home]
    exact hj s (hji ▸ hs)
  · exact hj s' hs'

theorem size_stackTable_put (t : Site FoldingSolver) (home : Nat) :
    (w.put id home t).stackTable.size = w.stackTable.size := by
  rw [stackTable_put]
  exact Array.size_setIfInBounds

theorem observers_put {t : Site FoldingSolver} (hs : w.stack? id = some s)
    (hk : (w.site c s).Keeps t) {i : Nat} {o : Observer}
    (h : ∃ j < w.stackTable.size, o = .stack j ∧ ∀ s, w.stack? j = some s → s.home = i) :
    ∃ j < (w.put id s.home t).stackTable.size, o = .stack j ∧
      ∀ s', (w.put id s.home t).stack? j = some s' → s'.home = i := by
  obtain ⟨j, hj, rfl, hall⟩ := h
  rw [size_stackTable_put]
  exact ⟨j, hj, rfl, home_put hs hk hall⟩

section Put

variable {new : Multiset Formula} {t : Site FoldingSolver} {h' : History}

/-- The context of a stack after work there. -/
theorem ContextSound.put (hcontext : w.ContextSound held s.home c) (hs : w.stack? id = some s)
    (hk : (w.site c s).Keeps t) (hnew : ∀ f ∈ new, f.owner = s.home)
    (ht : t.Sound (new + ownedBy s.home held) (w.others s.home id) h') :
    (w.put id s.home t).ContextSound (new + held) s.home { c with env := t.env } := by
  refine ⟨(congrArg (·.id) hk.env).trans hcontext.place, ht.wellFormed, fun symbol hm => ?_, ?_,
    fun o ho => observers_put hs hk (hcontext.observers o (hk.fewer o ho))⟩
  · rw [show t.env.declared = c.env.declared from congrArg (·.declared) hk.env] at hm
    obtain ⟨d, hd⟩ := hcontext.declarable symbol hm
    exact ⟨d, hk.terms.declOf hd⟩
  · rw [ownedBy_add held hnew, if_pos rfl, recorded_put hs, kept]
    cases hcl : t.stack.closed with
    | false =>
      rw [if_pos ⟨hk.home, rfl⟩]
      exact (ht.opened hcl).1.accounts
    | true =>
      rw [if_neg (by simp), zero_add]
      exact ht.closed hcl

/-- Another context after work at a stack. -/
theorem ContextSound.put_of_ne {i : Nat} {c' : Context} (hcontext : w.ContextSound held i c')
    (hi : i ≠ s.home) (hs : w.stack? id = some s) (hk : (w.site c s).Keeps t)
    (hnew : ∀ f ∈ new, f.owner = s.home) :
    (w.put id s.home t).ContextSound (new + held) i c' := by
  refine ⟨hcontext.place, hcontext.wellFormed, hcontext.declarable, ?_,
    fun o ho => observers_put hs hk (hcontext.observers o ho)⟩
  have ha := hcontext.accounts
  rw [recorded_eq hs, kept, if_neg fun hn => hi hn.1.symm] at ha
  rw [ownedBy_add held hnew, if_neg hi, recorded_put hs, kept,
    if_neg fun hn => hi (hn.1.symm.trans hk.home)]
  exact ha

/-- A stack after work there. -/
theorem StackSound.put {h : History} (hstack : StackSound h id s c) (hk : (w.site c s).Keeps t)
    (ht : t.Sound (new + ownedBy s.home held) (w.others s.home id) h') :
    StackSound h' id t.stack { c with env := t.env } := by
  refine ⟨hk.id.trans hstack.place, hk.replaying.trans hstack.replaying,
    fun ho => (ht.opened ho).1.mirrors, fun ho => (ht.opened ho).2, fun ho => ?_⟩
  obtain ⟨ho', hobservers⟩ := hk.opened ho
  rw [show t.env.observers = c.env.observers from hobservers]
  exact hstack.observed ho'

/-- What work at one stack means for the world. -/
theorem Sound.put (h : w.Sound held history) (hs : w.stack? id = some s)
    (hc : w.contexts[s.home]? = some c) (hk : (w.site c s).Keeps t)
    (hnew : ∀ f ∈ new, f.owner = s.home)
    (ht : t.Sound (new + ownedBy s.home held) (w.others s.home id) h') :
    (w.put id s.home t).Sound (new + held) (Function.update history id h') := by
  refine ⟨fun f hf => ?_, fun i c' hc' => ?_, fun j s' hs' => ?_⟩
  · rw [contexts_put, Array.size_modify]
    obtain hf | hf := Multiset.mem_add.1 hf
    · rw [hnew f hf]
      exact (Array.getElem?_eq_some_iff.1 hc).1
    · exact h.owners f hf
  · rw [context_put hc] at hc'
    split at hc'
    · next hi =>
      subst hi
      cases hc'
      exact (h.context _ c hc).put hs hk hnew ht
    · next hi => exact (h.context i c' hc').put_of_ne hi hs hk hnew
  · obtain ⟨c₀, hc₀, hstack⟩ := h.stack id s hs
    rw [hc] at hc₀
    cases hc₀
    rw [stack?_put hs] at hs'
    split at hs'
    · next hj =>
      subst hj
      cases hs'
      refine ⟨{ c with env := t.env }, ?_, ?_⟩
      · rw [context_put hc, hk.home]
        exact if_pos rfl
      · rw [Function.update_self]
        exact hstack.put hk ht
    · next hj =>
      obtain ⟨c', hc', hstack'⟩ := h.stack j s' hs'
      rw [Function.update_of_ne hj]
      refine hstack'.exists_of_change hc' hc (context_put hc t) rfl hk.terms fun _ ho => ?_
      exact hk.observers _ ho fun he => hj (Observer.stack.inj he |>.trans hstack.place)

end Put

theorem Sound.put_same {t : Site FoldingSolver} (h : w.Sound held history)
    (hs : w.stack? id = some s) (hc : w.contexts[s.home]? = some c) (hk : (w.site c s).Keeps t)
    (ht : t.Sound (ownedBy s.home held) (w.others s.home id) (history id)) :
    (w.put id s.home t).Sound held history := by
  have hnone : ∀ f ∈ (0 : Multiset Formula), f.owner = s.home := fun f hf =>
    absurd hf (Multiset.notMem_zero f)
  have hp := h.put hs hc hk hnone (by rwa [zero_add])
  rwa [zero_add, Function.update_eq_self] at hp

end World
end FormulaStack
