import FormulaStack.Proofs.Losses
import FormulaStack.Proofs.Persistence

/-!
Listeners that interrupt sessions. Each is that of an open stack, under the number that the stack
knows, in the notifier of the stack's context; so a stack that is closed takes it away.
-/
namespace FormulaStack

namespace Site

variable {σ : Type} [Session σ] {s t u : Site σ} {told : List Incident}

/-- A stack keeps its listener, or takes it away and is closed. -/
structure Hears (s t : Site σ) : Prop where
  home : t.stack.home = s.stack.home
  listener : t.stack.listener = s.stack.listener
  heard : t.notifier.listeners = s.notifier.listeners ∧ t.stack.closed = s.stack.closed ∨
    t.notifier.listeners = s.notifier.listeners.filter (·.1 != s.stack.listener) ∧
      t.stack.closed = true

omit [Session σ] in
theorem Hears.refl (s : Site σ) : s.Hears s := ⟨rfl, rfl, .inl ⟨rfl, rfl⟩⟩

omit [Session σ] in
theorem Hears.trans (h : s.Hears t) (g : t.Hears u) : s.Hears u := by
  refine ⟨g.home.trans h.home, g.listener.trans h.listener, ?_⟩
  obtain ⟨hl, hc⟩ | ⟨hl, hc⟩ := h.heard <;> obtain ⟨hl', hc'⟩ | ⟨hl', hc'⟩ := g.heard
  · exact .inl ⟨hl'.trans hl, hc'.trans hc⟩
  · exact .inr ⟨by rw [hl', hl, h.listener], hc'⟩
  · exact .inr ⟨hl'.trans hl, hc'.trans hc⟩
  · refine .inr ⟨?_, hc'⟩
    rw [hl', hl, h.listener, List.filter_filter]
    simp only [Bool.and_self]

theorem Turn.hears (h : Turn s told t) : s.Hears t := by
  cases h with
  | pause h => cases h <;> exact ⟨rfl, rfl, .inl ⟨rfl, rfl⟩⟩
  | detached ho => exact ⟨rfl, rfl, .inr ⟨rfl, rfl⟩⟩
  | _ => exact ⟨rfl, rfl, .inl ⟨rfl, rfl⟩⟩

theorem hears_of_trail (h : Trail Turn s told t) : s.Hears t := by
  induction h with
  | refl => exact .refl s
  | tail _ hturn ih => exact ih.trans hturn.hears

omit [Session σ] in
theorem Hears.mem (h : s.Hears t) {p : Nat × Reaction} (hp : p ∈ t.notifier.listeners) :
    p ∈ s.notifier.listeners := by
  obtain ⟨hl, -⟩ | ⟨hl, -⟩ := h.heard
  · exact hl ▸ hp
  · exact (List.mem_filter.1 (hl ▸ hp)).1

end Site

namespace World

variable {σ : Type} {w w' : World σ} {c : Context} {s : AssertionStack σ} {ctx id : Nat}

/-- A notifier listens under a number for the stack of a place, which is open. -/
def Listens (w : World σ) (k number id : Nat) : Prop :=
  ∃ s c, w.stack? id = some s ∧ s.closed = false ∧ s.listener = number ∧
    w.contexts[s.home]? = some c ∧ c.notifier = k

/-- Whoever interrupts a session listens for its stack. -/
def Tethered (w : World σ) : Prop :=
  ∀ (k : Nat) n, w.notifiers[k]? = some n → ∀ number id,
    (number, Reaction.interrupt id) ∈ n.listeners → w.Listens k number id

theorem Listens.mono {k number : Nat} (h : w.Listens k number id)
    (hstacks : ∀ s, w.stack? id = some s → s.closed = false → ∃ s', w'.stack? id = some s' ∧
      s'.closed = false ∧ s'.listener = s.listener ∧ s'.home = s.home)
    (hcontexts : ∀ (i : Nat) c, w.contexts[i]? = some c →
      ∃ c', w'.contexts[i]? = some c' ∧ c'.notifier = c.notifier) : w'.Listens k number id := by
  obtain ⟨s, c, hs, ho, hnumber, hc, hk⟩ := h
  obtain ⟨s', hs', ho', hlistener, hhome⟩ := hstacks s hs ho
  obtain ⟨c', hc', hnotifier⟩ := hcontexts s.home c hc
  exact ⟨s', c', hs', ho', hlistener.trans hnumber, hhome ▸ hc', hnotifier.trans hk⟩

/-- A tethered world stays so. -/
def Tethers (w w' : World σ) : Prop := w.Tethered → w'.Tethered

instance : Std.Refl (Tethers (σ := σ)) := ⟨fun _ h => h⟩

instance : IsTrans (World σ) Tethers := ⟨fun _ _ _ h g hw => g (h hw)⟩

theorem Tethers.trans {w'' : World σ} (h : w.Tethers w') (g : w'.Tethers w'') : w.Tethers w'' :=
  fun hw => g (h hw)

/-- Notifiers have no more listeners than before, and the stacks that were open still are. -/
theorem tethers_of
    (hnotifiers : ∀ (k : Nat) n', w'.notifiers[k]? = some n' → ∀ p ∈ n'.listeners,
      ∃ n, w.notifiers[k]? = some n ∧ p ∈ n.listeners)
    (hstacks : ∀ id s, w.stack? id = some s → s.closed = false → ∃ s', w'.stack? id = some s' ∧
      s'.closed = false ∧ s'.listener = s.listener ∧ s'.home = s.home)
    (hcontexts : ∀ (i : Nat) c, w.contexts[i]? = some c →
      ∃ c', w'.contexts[i]? = some c' ∧ c'.notifier = c.notifier) : w.Tethers w' := by
  intro h k n' hn' number id hp
  obtain ⟨n, hn, hp⟩ := hnotifiers k n' hn' _ hp
  exact (h k n hn number id hp).mono (hstacks id) hcontexts

/-- Neither notifiers nor stacks are concerned. -/
theorem tethers_of_contexts (hnotifiers : w'.notifiers = w.notifiers)
    (hstacks : w'.stackTable = w.stackTable)
    (hcontexts : ∀ (i : Nat) c, w.contexts[i]? = some c →
      ∃ c', w'.contexts[i]? = some c' ∧ c'.notifier = c.notifier) : w.Tethers w' :=
  tethers_of (fun k n' hn' p hp => ⟨n', hnotifiers ▸ hn', hp⟩)
    (fun id s hs ho => ⟨s, by rwa [stack?, hstacks], ho, rfl, rfl⟩) hcontexts

theorem tethers_modify {f : Context → Context} (hf : ∀ c, (f c).notifier = c.notifier)
    (hnotifiers : w'.notifiers = w.notifiers) (hstacks : w'.stackTable = w.stackTable)
    (hcontexts : w'.contexts = w.contexts.modify ctx f) : w.Tethers w' := by
  refine tethers_of_contexts hnotifiers hstacks fun i c hc => ?_
  rw [hcontexts, Array.getElem?_modify, hc]
  split
  · exact ⟨f c, rfl, hf c⟩
  · exact ⟨c, rfl, rfl⟩

theorem tethers_setEnvironment (env : Environment) (w : World σ) (ctx : Nat) :
    w.Tethers (setEnvironment ctx env w) :=
  tethers_modify (f := fun c => { c with env }) (fun _ => rfl) rfl rfl rfl

theorem getElem?_notifiers_setNotifier {n : Notifier Reaction} (hc : w.contexts[ctx]? = some c)
    {k : Nat} {n' : Notifier Reaction} (hn' : (setNotifier ctx n w).notifiers[k]? = some n') :
    k ≠ c.notifier ∧ w.notifiers[k]? = some n' ∨
      k = c.notifier ∧ n' = n ∧ w.notifiers[k]? = some (w.notifierOf ctx) := by
  unfold setNotifier at hn'
  rw [hc] at hn'
  dsimp only at hn'
  rw [Array.getElem?_setIfInBounds] at hn'
  split at hn'
  · next hk =>
    split at hn'
    · next hlt =>
      cases hn'
      refine .inr ⟨hk.symm, rfl, ?_⟩
      rw [notifierOf, hc, Option.bind_some, ← hk, Array.getElem?_eq_getElem hlt, Option.getD_some]
    · cases hn'
  · next hk => exact .inl ⟨Ne.symm hk, hn'⟩

theorem notifierOf_modify {f : Context → Context} (hf : ∀ c, (f c).notifier = c.notifier)
    (w : World σ) (ctx i : Nat) :
    { w with contexts := w.contexts.modify ctx f }.notifierOf i = w.notifierOf i := by
  unfold notifierOf
  rw [Array.getElem?_modify]
  split
  · rw [Option.bind_map]
    exact congrArg (fun k => ((w.contexts[i]?).bind fun c => w.notifiers[k c]?).getD .new)
      (funext hf)
  · rfl

theorem notifierOf_setEnvironment (env : Environment) (w : World σ) (ctx i : Nat) :
    (setEnvironment ctx env w).notifierOf i = w.notifierOf i :=
  notifierOf_modify (f := fun c => { c with env }) (fun _ => rfl) w ctx i

theorem notifierOf_opened (s : AssertionStack σ) (w : World σ) (ctx i : Nat) :
    (w.opened ctx s).notifierOf i = w.notifierOf i :=
  notifierOf_modify (f := fun c => observedBy c w.stackTable.size) (fun _ => rfl) w ctx i

/-- A notifier may listen for more stacks. -/
theorem tethers_setNotifier {n : Notifier Reaction}
    (hn : ∀ number id, (number, Reaction.interrupt id) ∈ n.listeners →
      (number, Reaction.interrupt id) ∈ (w.notifierOf ctx).listeners ∨
        ∀ c, w.contexts[ctx]? = some c → w.Listens c.notifier number id) :
    w.Tethers (setNotifier ctx n w) := by
  intro h k n' hn' number id hp
  have hkeep : ∀ {k}, w.Listens k number id → (setNotifier ctx n w).Listens k number id :=
    fun hl => hl.mono (fun s hs ho => ⟨s, by rwa [stack?, stackTable_setNotifier], ho, rfl, rfl⟩)
      fun i c hc => ⟨c, by rwa [contexts_setNotifier], rfl⟩
  cases hc : w.contexts[ctx]? with
  | none =>
    rw [setNotifier, hc] at hn'
    exact hkeep (h k n' hn' number id hp)
  | some c =>
    obtain ⟨-, hold⟩ | ⟨rfl, rfl, hof⟩ := getElem?_notifiers_setNotifier hc hn'
    · exact hkeep (h k n' hold number id hp)
    · obtain hp | hnew := hn number id hp
      · exact hkeep (h _ _ hof number id hp)
      · exact hkeep (hnew c hc)

/-- What work at a stack leaves of its listener. -/
theorem tethers_put {t : Site σ} (hs : w.stack? id = some s) (hc : w.contexts[s.home]? = some c)
    (ht : (w.site c s).Hears t) : w.Tethers (w.put id s.home t) := by
  intro h k n' hn' number j hp
  have hc' : (setEnvironment s.home t.env w).contexts[s.home]? = some { c with env := t.env } := by
    rw [context_setEnvironment hc, if_pos rfl]
  have hcontexts : ∀ (i : Nat) c', w.contexts[i]? = some c' →
      ∃ c'', (w.put id s.home t).contexts[i]? = some c'' ∧ c''.notifier = c'.notifier := by
    intro i c' hi
    rw [context_put hc]
    split
    · next hh =>
      rw [hh, hc] at hi
      cases hi
      exact ⟨_, rfl, rfl⟩
    · exact ⟨c', hi, rfl⟩
  -- Whoever still listens did before, and if it is for this stack, the stack is not closed.
  have hheld : ∀ {n}, w.notifiers[k]? = some n → (number, Reaction.interrupt j) ∈ n.listeners →
      (j = id → t.stack.closed = false) → (w.put id s.home t).Listens k number j := by
    intro n hn hp hopen
    refine (h k n hn number j hp).mono (fun s' hs' ho => ?_) hcontexts
    rw [stack?_put hs]
    split
    · next hj =>
      rw [hj, hs] at hs'
      cases hs'
      exact ⟨_, rfl, hopen hj, ht.listener, ht.home⟩
    · exact ⟨s', hs', ho, rfl, rfl⟩
  have hown : ∀ {k}, w.Listens k number id → s.closed = false ∧ s.listener = number ∧
      c.notifier = k := by
    rintro k ⟨s', c', hs', ho, hnumber, hc', hk⟩
    rw [hs] at hs'
    cases hs'
    rw [hc] at hc'
    cases hc'
    exact ⟨ho, hnumber, hk⟩
  obtain ⟨hk, hold⟩ | ⟨rfl, rfl, hof⟩ := getElem?_notifiers_setNotifier hc' hn'
  · refine hheld hold hp fun hj => ?_
    subst hj
    exact absurd (hown (h k n' hold number _ hp)).2.2.symm hk
  · have hof' : w.notifiers[c.notifier]? = some (w.notifierOf s.home) := by
      rwa [notifierOf_setEnvironment] at hof
    have hp' := ht.mem hp
    refine hheld hof' hp' fun hj => ?_
    subst hj
    obtain ⟨ho, hnumber, -⟩ := hown (h _ _ hof' number _ hp')
    obtain ⟨-, hclosed⟩ | ⟨hl, -⟩ := ht.heard
    · exact hclosed.trans ho
    · rw [hl] at hp
      have hother : (number != s.listener) = true := (List.mem_filter.1 hp).2
      exact absurd hnumber.symm (by simpa using hother)

section

variable {α : Type}

theorem inEnvironment_tethers (e : Effect Environment α) (ctx : Nat) :
    Effect.Within Tethers (inEnvironment ctx e : Effect (World σ) α) :=
  inEnvironment_within fun w _ _ => tethers_setEnvironment _ w ctx

variable [Session σ]

theorem atStack_tethers {e : Effect (Site σ) α} (he : Effect.Within Site.Reaches e) (id : Nat) :
    Effect.Within Tethers (atStack id e) := by
  refine atStack_within fun w c s hs hc => ?_
  obtain ⟨told, htrail⟩ := he (w.site c s)
  exact tethers_put hs hc (Site.hears_of_trail htrail)

theorem closeStack_tethers (id : Nat) :
    Effect.Within Tethers (closeStack id : Effect (World σ) Unit) :=
  closeStack_within (atStack_tethers (Site.reaches_of_passes Site.close_passes) id)

theorem tell_tethers (symbol : Symbol) (o : Observer) :
    Effect.Within Tethers (tell symbol o : Effect (World σ) Unit) :=
  tell_within (atStack_tethers fun s => (Site.symbolRequested_receives symbol s).reaches)
    (atStack_tethers (Site.reaches_of_passes Site.close_passes))
    (fun _ _ => tethers_of_contexts rfl rfl fun _ c hc => ⟨c, hc, rfl⟩) o

theorem publish_tethers (ctx : Nat) (symbol : Symbol) :
    Effect.Within Tethers (publish ctx symbol : Effect (World σ) Unit) :=
  publish_within (tell_tethers symbol)

theorem constant_tethers (ctx : Nat) (type : FormulaType) (name : String) :
    Effect.Within Tethers (constant ctx type name : Effect (World σ) Formula) :=
  .bind (constantTerm_within (inEnvironment_tethers _ ctx) (publish_tethers ctx)) fun _ =>
    inEnvironment_tethers _ ctx

theorem function_tethers (ctx : Nat) (name : String) (result : FormulaType)
    (arguments : List FormulaType) : Effect.Within Tethers
      (function ctx name result arguments : Effect (World σ) FunctionDeclaration) :=
  function_within (inEnvironment_tethers _ ctx) (publish_tethers ctx)

/-! Stacks and listeners that come and go -/

theorem react_tethers (reason : String) (r : Reaction) (w : World σ) :
    w.Tethers (react reason w r) := by
  refine tethers_of (fun k n' hn' p hp => ⟨n', notifiers_react reason w r ▸ hn', hp⟩)
    (fun id s hs ho => ?_) fun i c hc => ⟨c, (contexts_react reason w r).symm ▸ hc, rfl⟩
  cases r with
  | note name => exact ⟨s, hs, ho, rfl, rfl⟩
  | interrupt j =>
    have hplace : (react reason w (.interrupt j)).stackTable[id]? = if j = id then some (some
        { s with session := Session.interrupt s.session }) else some (some s) := by
      change (w.stackTable.modify j _)[id]? = _
      rw [Array.getElem?_modify, stack?_eq_some.1 hs]
      rfl
    split at hplace
    · exact ⟨_, stack?_eq_some.2 hplace, ho, rfl, rfl⟩
    · exact ⟨s, stack?_eq_some.2 hplace, ho, rfl, rfl⟩

theorem requestStop_tethers (ctx : Nat) (reason : String) (w : World σ) :
    w.Tethers (requestStop ctx reason w) := by
  have hlisteners : ((w.notifierOf ctx).request reason).2.listeners =
      (w.notifierOf ctx).listeners := by
    unfold Notifier.request
    split <;> rfl
  exact requestStop_within (tethers_setNotifier fun number id hp => .inl (hlisteners ▸ hp))
    (react_tethers reason)

/-- A listener may be added that listens for its stack under the next number, if for any. -/
theorem listen_tethers {r : Reaction} (hr : ∀ id, r = .interrupt id → ∀ c,
      w.contexts[ctx]? = some c → w.Listens c.notifier (w.notifierOf ctx).nextListener id) :
    w.Tethers (listen ctx r w).2 := by
  have hn : w.Tethers (setNotifier ctx ((w.notifierOf ctx).register r).2.2 w) := by
    refine tethers_setNotifier fun number id hp => ?_
    unfold Notifier.register at hp
    dsimp only at hp
    split at hp
    · exact .inl hp
    · obtain hp | hp := List.mem_append.1 hp
      · exact .inl hp
      · cases List.mem_singleton.1 hp
        exact .inr (hr id rfl)
  exact listen_within hn fun reason w => react_tethers reason r w

/-- A stack more, whose listener has the next number. -/
theorem opened_tethers {w₀ : World σ} (hw : w.notifierOf ctx = w₀.notifierOf ctx)
    (session : σ) (interpolating : Bool) (c : Context) :
    w.Tethers ((w.opened ctx (w₀.opening ctx c interpolating session)).listen ctx
      (.interrupt w.stackTable.size)).2 := by
  have hopened : w.Tethers (w.opened ctx (w₀.opening ctx c interpolating session)) := by
    refine tethers_of (fun k n' hn' p hp => ⟨n', hn', hp⟩)
      (fun id s hs ho => ⟨s, ?_, ho, rfl, rfl⟩) fun i c' hc' => ?_
    · rw [stack?_opened, if_neg (lt_of_stack? hs).ne, hs]
    · rw [World.opened, Array.getElem?_modify, hc']
      split
      · exact ⟨_, rfl, rfl⟩
      · exact ⟨c', rfl, rfl⟩
  refine hopened.trans (listen_tethers fun id hid c' hc' => ?_)
  cases hid
  refine ⟨w₀.opening ctx c interpolating session, c', ?_, rfl, ?_, hc', rfl⟩
  · rw [stack?_opened]
    exact if_pos rfl
  · rw [notifierOf_opened, hw]
    rfl

theorem openStack_tethers (ctx : Nat) (session : σ) (interpolating : Bool) :
    Effect.Within Tethers (openStack ctx session interpolating) := fun w =>
  openStack_within (fun _ _ _ _ _ _ => tethers_setEnvironment _ w ctx) fun c _ session' _ _ =>
    (tethers_setEnvironment _ w ctx).trans
      (opened_tethers (notifierOf_setEnvironment _ w ctx ctx) session' interpolating c)

theorem newStack_tethers (ctx : Nat) (session : σ) (interpolating : Bool) :
    Effect.Within Tethers (newStack ctx session interpolating) := fun w =>
  newStack_within (openStack_tethers ctx session interpolating w)

omit [Session σ] in
/-- A stack that was closed is gone without a trace. -/
theorem tethers_dropped (hcl : ∀ s, w.stack? id = some s → s.closed = true) :
    w.Tethers (w.withStack id none) := by
  cases hs : w.stack? id with
  | none =>
    rw [withStack_none hs]
    exact Std.Refl.refl w
  | some s =>
    refine tethers_of (fun k n' hn' p hp => ⟨n', hn', hp⟩)
      (fun j s' hs' ho => ⟨s', ?_, ho, rfl, rfl⟩) fun i c hc => ⟨c, hc, rfl⟩
    rw [stack?_withStack (lt_of_stack? hs)]
    split
    · next hj =>
      rw [hcl s' (hj ▸ hs')] at ho
      cases ho
    · exact hs'

theorem dropStack_tethers (hw : w.Housed) (id : Nat) : w.Tethers (w.dropStack id) :=
  hw.dropStack_within (closeStack_tethers id w) fun _ => tethers_dropped

end

end World

namespace Event

variable {σ : Type} [Session σ]

/-- Clients listen for themselves: they do not interrupt sessions. -/
def Discreet (e : Event σ) : Prop := ∀ ctx id, e ≠ .listen ctx (.interrupt id)

theorem tethers (e : Event σ) (he : e.Discreet) {w : World σ} (hw : w.Housed) :
    w.Tethers (e.after w) := by
  have hobserved : ∀ {w' : World σ} (ctx : Nat) (f : List Observer → List Observer),
      w'.contexts = w.contexts.modify ctx
        (fun c => { c with env := { c.env with observers := f c.env.observers } }) →
      w'.notifiers = w.notifiers → w'.stackTable = w.stackTable → w.Tethers w' :=
    fun ctx f hcontexts hnotifiers hstacks => World.tethers_modify
      (f := fun c => { c with env := { c.env with observers := f c.env.observers } })
      (fun _ => rfl) hnotifiers hstacks hcontexts
  have hmodified : ∀ {w' : World σ} (ctx : Nat) (f : Environment → Environment),
      w'.contexts = w.contexts.modify ctx (fun c => { c with env := f c.env }) →
      w'.notifiers = w.notifiers → w'.stackTable = w.stackTable → w.Tethers w' :=
    fun ctx f hcontexts hnotifiers hstacks => World.tethers_modify
      (f := fun c => { c with env := f c.env }) (fun _ => rfl) hnotifiers hstacks hcontexts
  cases e with
  | addContext theories counting announced options notifierOf =>
    refine World.tethers_of (fun k n' hn' p hp => ?_) (fun id s hs ho => ⟨s, ?_, ho, rfl, rfl⟩)
      fun i c hc => ⟨c, ?_, rfl⟩
    · unfold after World.addContext at hn'
      dsimp only at hn'
      split at hn'
      · exact ⟨n', hn', hp⟩
      · rw [Array.getElem?_push] at hn'
        split at hn'
        · cases hn'
          cases hp
        · exact ⟨n', hn', hp⟩
    · rwa [World.stack?, after, World.stackTable_addContext]
    · obtain ⟨notifier, hcontexts⟩ :=
        World.contexts_addContext w theories counting announced options notifierOf
      rw [after, hcontexts, Array.getElem?_push, if_neg (Array.getElem?_eq_some_iff.1 hc).1.ne, hc]
  | build ctx _ | wrap ctx _ _ | wrapBool ctx _ | cleanUp ctx =>
    exact World.inEnvironment_tethers _ ctx w
  | retain f => exact hmodified f.owner (·.retain f) rfl rfl rfl
  | discard f => exact hmodified f.owner (·.discard f) rfl rfl rfl
  | constant ctx type name => exact World.constant_tethers ctx type name w
  | function ctx name result arguments => exact World.function_tethers ctx name result arguments w
  | openStack ctx session interpolating => exact World.openStack_tethers ctx session interpolating w
  | newStack ctx session interpolating => exact World.newStack_tethers ctx session interpolating w
  | atStack id operation => exact World.atStack_tethers operation.act_reaches id w
  | search id important =>
    exact World.atStack_tethers
      (Site.reaches_of_passes (Site.passes_of_calm (Site.nextModel?_calm important))) id w
  | block id negations =>
    exact World.atStack_tethers (Site.reaches_of_passes (Site.block_passes negations)) id w
  | dropStack id => exact World.dropStack_tethers hw id
  | requestStop ctx reason => exact World.requestStop_tethers ctx reason w
  | listen ctx reaction =>
    exact World.listen_tethers fun id hid => absurd (hid ▸ rfl) (he ctx id)
  | unlisten ctx id =>
    exact World.tethers_setNotifier fun _ _ hp => .inl (List.mem_filter.1 hp).1
  | addWatch ctx closes fails => exact hobserved ctx (· ++ [.watch w.watches.size]) rfl rfl rfl
  | removeWatch ctx id => exact hobserved ctx (·.filter (· ≠ .watch id)) rfl rfl rfl
  | aimWatch id stack => exact World.tethers_of_contexts rfl rfl fun _ c hc => ⟨c, hc, rfl⟩
  | dropWatch id =>
    refine World.tethers_of_contexts rfl rfl fun i c hc => ?_
    rw [after, World.dropWatch, Array.getElem?_map, hc]
    exact ⟨_, rfl, rfl⟩

end Event

/-- Where clients listen for themselves only, whoever interrupts a session listens for its stack. -/
theorem World.tethered_afterAll {σ : Type} [Session σ] {events : List (Event σ)}
    (h : ∀ e ∈ events, e.Discreet) : (afterAll events).Tethered := by
  induction events using List.reverseRecOn with
  | nil => exact fun k n hn => by simp [afterAll, empty] at hn
  | append_singleton events e ih =>
    rw [afterAll_concat]
    exact e.tethers (h e (by simp)) (housed_afterAll events)
      (ih fun e' he' => h e' (List.mem_append_left _ he'))

end FormulaStack
