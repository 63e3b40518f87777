import FormulaStack.Proofs.Publications

/-!
How contexts and stacks come and go. A new stack learns of all symbols; a stack that goes gives back
what it kept. Requests to stop reach sessions, but neither their frames nor their levels.
-/
namespace FormulaStack

namespace World

variable {w w' w'' : World FoldingSolver} {c : Context} {s : AssertionStack FoldingSolver}
  {ctx id : Nat} {held : Multiset Formula} {history : Nat → History}

/-! Requests to stop -/

/-- Two worlds that differ at most outside of contexts, levels and frames. -/
structure Alike (w w' : World FoldingSolver) : Prop where
  contexts : w'.contexts = w.contexts
  places : w'.stackTable.size = w.stackTable.size
  recorded : ∀ ctx, w'.recorded ctx = w.recorded ctx
  stack : ∀ id s', w'.stack? id = some s' → ∃ s session, w.stack? id = some s ∧
    s' = { s with session } ∧ session.frames = s.session.frames

theorem Alike.of_eq (hc : w'.contexts = w.contexts) (ht : w'.stackTable = w.stackTable) :
    w.Alike w' := by
  refine ⟨hc, by rw [ht], fun ctx => ?_, fun id s' hs' => ⟨s', s'.session, ?_, rfl, rfl⟩⟩
  · unfold World.recorded
    rw [ht]
  · rw [stack?, ht] at hs'
    exact hs'

theorem Alike.trans (h : w.Alike w') (g : w'.Alike w'') : w.Alike w'' := by
  refine ⟨g.contexts.trans h.contexts, g.places.trans h.places,
    fun ctx => (g.recorded ctx).trans (h.recorded ctx), fun id s'' hs'' => ?_⟩
  obtain ⟨s', session', hs', rfl, hf'⟩ := g.stack id s'' hs''
  obtain ⟨s, session, hs, rfl, hf⟩ := h.stack id s' hs'
  exact ⟨s, session', hs, rfl, hf'.trans hf⟩

instance : Std.Refl Alike := ⟨fun _ => .of_eq rfl rfl⟩

instance : IsTrans (World FoldingSolver) Alike := ⟨fun _ _ _ => Alike.trans⟩

theorem Alike.keeps (h : w.Alike w') : w.Keeps w' := by
  refine ⟨by rw [h.contexts], h.places, fun i c c' hc hc' => ?_, fun id s' hs' => ?_⟩
  · rw [h.contexts, hc] at hc'
    cases hc'
    exact .refl c
  · obtain ⟨s, session, hs, rfl, hf⟩ := h.stack id s' hs'
    refine ⟨s, hs, rfl, rfl, fun ho => ho, fun _ _ d hd => ?_⟩
    rw [FoldingSolver.isDeclared, hf]
    exact hd

theorem Valid.alike (h : w.Valid held history) (ha : w.Alike w') : w'.Valid held history := by
  refine ⟨⟨?_, fun i c hc => ?_, fun id s' hs' => ?_⟩, h.knows.mono h.sound ha.keeps⟩
  · rw [ha.contexts]
    exact h.sound.owners
  · rw [ha.contexts] at hc
    have hcontext := h.sound.context i c hc
    refine ⟨hcontext.place, hcontext.wellFormed, hcontext.declarable, ?_, fun o ho => ?_⟩
    · rw [ha.recorded]
      exact hcontext.accounts
    · obtain ⟨id, hid, rfl, hall⟩ := hcontext.observers o ho
      refine ⟨id, ha.places.symm ▸ hid, rfl, fun s' hs' => ?_⟩
      obtain ⟨s, session, hs, rfl, -⟩ := ha.stack id s' hs'
      exact hall s hs
  · obtain ⟨s, session, hs, rfl, hf⟩ := ha.stack id s' hs'
    obtain ⟨c, hc, hstack⟩ := h.sound.stack id s hs
    refine ⟨c, ?_, hstack.place, hstack.replaying, fun ho => ?_, hstack.leads, hstack.observed⟩
    · rw [ha.contexts]
      exact hc
    · change Mirrors _ _ session.frames
      rw [hf]
      exact hstack.mirrors ho

theorem map_modify {α β : Type} (xs : Array α) (i : Nat) {f : α → α} {g : α → β}
    (hg : ∀ a, g (f a) = g a) : (xs.modify i f).toList.map g = xs.toList.map g := by
  refine List.ext_getElem? fun j => ?_
  rw [List.getElem?_map, List.getElem?_map, Array.getElem?_toList, Array.getElem?_toList,
    Array.getElem?_modify]
  split
  · cases xs[j]? with
    | none => rfl
    | some a => exact congrArg some (hg a)
  · rfl

theorem react_alike (reason : String) (w : World FoldingSolver) (r : Reaction) :
    w.Alike (react reason w r) := by
  cases r with
  | note name => exact .of_eq rfl rfl
  | interrupt id =>
    refine ⟨rfl, Array.size_modify, fun ctx => ?_, fun j s' hs' => ?_⟩
    · refine congrArg List.sum (map_modify _ _ fun s => ?_)
      cases s <;> rfl
    · rw [stack?_eq_some] at hs'
      change (w.stackTable.modify id _)[j]? = _ at hs'
      rw [Array.getElem?_modify] at hs'
      split at hs'
      · cases hx : w.stackTable[j]? with
        | none =>
          rw [hx] at hs'
          cases hs'
        | some o =>
          rw [hx] at hs'
          cases o with
          | none => cases hs'
          | some s =>
            cases hs'
            exact ⟨s, _, stack?_eq_some.2 hx, rfl, rfl⟩
      · exact ⟨s', s'.session, stack?_eq_some.2 hs', rfl, rfl⟩

theorem setNotifier_alike (n : Notifier Reaction) : w.Alike (setNotifier ctx n w) :=
  .of_eq (contexts_setNotifier n w) (stackTable_setNotifier n w)

theorem requestStop_alike (ctx : Nat) (reason : String) (w : World FoldingSolver) :
    w.Alike (requestStop ctx reason w) :=
  requestStop_within (setNotifier_alike _) fun r w => react_alike reason w r

theorem listen_alike (ctx : Nat) (r : Reaction) (w : World FoldingSolver) :
    w.Alike (listen ctx r w).2 :=
  listen_within (setNotifier_alike _) fun reason w => react_alike reason w r

theorem unlisten_alike (ctx id : Nat) (w : World FoldingSolver) : w.Alike (unlisten ctx id w).2 :=
  setNotifier_alike _

/-! Stacks that come -/

/-- A context that one more stack observes. -/
def observedBy (c : Context) (id : Nat) : Context :=
  { c with env := { c.env with observers := c.env.observers ++ [Observer.stack id] } }

/-- A world with one more stack, which observes its environment. -/
def opened {σ : Type} (w : World σ) (ctx : Nat) (s : AssertionStack σ) : World σ :=
  { w with
    stackTable := w.stackTable.push (some s)
    contexts := w.contexts.modify ctx fun c => observedBy c w.stackTable.size }

theorem stack?_opened {σ : Type} {w : World σ} (s : AssertionStack σ) (j : Nat) :
    (w.opened ctx s).stack? j = if j = w.stackTable.size then some s else w.stack? j := by
  unfold stack? opened
  dsimp only
  rw [Array.getElem?_push]
  split <;> rfl

theorem context_opened {σ : Type} {w : World σ} (hc : w.contexts[ctx]? = some c)
    (s : AssertionStack σ) (i : Nat) :
    (w.opened ctx s).contexts[i]? =
      if i = ctx then some (observedBy c w.stackTable.size) else w.contexts[i]? := by
  unfold opened
  dsimp only
  rw [Array.getElem?_modify]
  by_cases hi : i = ctx
  · rw [if_pos hi.symm, if_pos hi, hi, hc]
    rfl
  · rw [if_neg (Ne.symm hi), if_neg hi]

theorem recorded_opened (hlevels : s.levels = default) (i : Nat) :
    (w.opened ctx s).recorded i = w.recorded i := by
  have hkept : kept i (some s) = 0 := by
    unfold kept
    dsimp only
    rw [hlevels]
    split <;> rfl
  unfold recorded opened
  simp [hkept]

/-- A stack without assertions. -/
theorem sound_opened (h : w.Sound held history) (hc : w.contexts[ctx]? = some c)
    (hstack : StackSound [] w.stackTable.size s (observedBy c w.stackTable.size))
    (hhome : s.home = ctx) (hlevels : s.levels = default) :
    (w.opened ctx s).Sound held (Function.update history w.stackTable.size []) := by
  have hlt : ∀ {j s'}, w.stack? j = some s' → j ≠ w.stackTable.size := fun hs' =>
    (lt_of_stack? hs').ne
  have hsize : (w.opened ctx s).stackTable.size = w.stackTable.size + 1 := Array.size_push _
  have hobservers : ∀ {i : Nat} {c' : Context}, w.contexts[i]? = some c' →
      ∀ o ∈ c'.env.observers, ∃ id < (w.opened ctx s).stackTable.size, o = .stack id ∧
        ∀ s', (w.opened ctx s).stack? id = some s' → s'.home = i := by
    intro i c' hc' o ho
    obtain ⟨id, hid, rfl, hall⟩ := (h.context i c' hc').observers o ho
    refine ⟨id, hsize ▸ Nat.lt_succ_of_lt hid, rfl, fun s' hs' => hall s' ?_⟩
    rwa [stack?_opened, if_neg hid.ne] at hs'
  refine ⟨?_, fun i c' hc' => ?_, fun j s' hs' => ?_⟩
  · rw [show (w.opened ctx s).contexts.size = w.contexts.size from Array.size_modify]
    exact h.owners
  · rw [context_opened hc] at hc'
    split at hc'
    · next hi =>
      subst hi
      cases hc'
      have hcontext := h.context i c hc
      refine ⟨hcontext.place, hcontext.wellFormed, hcontext.declarable, ?_, fun o ho => ?_⟩
      · rw [recorded_opened hlevels]
        exact ⟨hcontext.accounts.serves, hcontext.accounts.balanced⟩
      · obtain ho | ho := List.mem_append.1 ho
        · exact hobservers hc o ho
        · refine ⟨w.stackTable.size, hsize ▸ Nat.lt_succ_self _, List.mem_singleton.1 ho,
            fun s' hs' => ?_⟩
          rw [stack?_opened, if_pos rfl] at hs'
          cases hs'
          exact hhome
    · have hcontext := h.context i c' hc'
      refine ⟨hcontext.place, hcontext.wellFormed, hcontext.declarable, ?_, hobservers hc'⟩
      rw [recorded_opened hlevels]
      exact hcontext.accounts
  · rw [stack?_opened] at hs'
    split at hs'
    · next hj =>
      subst hj
      cases hs'
      refine ⟨observedBy c w.stackTable.size, ?_, ?_⟩
      · rw [context_opened hc, hhome, if_pos rfl]
      · rw [Function.update_self]
        exact hstack
    · next hj =>
      obtain ⟨c', hc', hstack'⟩ := h.stack j s' hs'
      rw [Function.update_of_ne hj]
      exact hstack'.exists_of_change hc' hc (context_opened hc s) rfl (.refl _)
        fun _ ho => List.mem_append_left _ ho

theorem knows_opened (h : w.Valid held history) (hc : w.contexts[ctx]? = some c)
    (hhome : s.home = ctx)
    (hknows : ∀ symbol ∈ c.env.declared, ∀ d, c.env.terms.declOf symbol = .ok d →
      s.session.isDeclared d = true) : (w.opened ctx s).Knows := by
  intro j s' hs' ho hr c' hc' symbol hm d hd
  rw [context_opened hc] at hc'
  rw [stack?_opened] at hs'
  split at hs'
  · cases hs'
    rw [if_pos hhome] at hc'
    cases hc'
    exact hknows symbol hm d hd
  · split at hc'
    · next hh =>
      cases hc'
      exact h.knows j s' hs' ho hr c (hh ▸ hc) symbol hm d hd
    · exact h.knows j s' hs' ho hr c' hc' symbol hm d hd

theorem extends_opened (hc : w.contexts[ctx]? = some c) (s : AssertionStack FoldingSolver) :
    (w.opened ctx s).Extends w := by
  refine ⟨fun i c' hc' => ?_, ?_, fun id s' hid hs' => ⟨s', ?_, rfl⟩⟩
  · rw [context_opened hc]
    split
    · next hi =>
      rw [hi, hc] at hc'
      cases hc'
      exact ⟨_, rfl, .refl _⟩
    · exact ⟨c', hc', .refl _⟩
  · rw [show (w.opened ctx s).stackTable.size = w.stackTable.size + 1 from Array.size_push _]
    exact Nat.le_succ _
  · rwa [stack?_opened, if_neg hid.ne] at hs'

/-- A stack as it is opened on a session. -/
def opening {σ : Type} (w : World σ) (ctx : Nat) (c : Context) (interpolating : Bool)
    (session : σ) : AssertionStack σ :=
  { id := w.stackTable.size
    home := ctx
    session
    levels := default
    closed := false
    replaying := c.options.globalDeclarations
    interpolating
    logging := c.options.logQueries
    abbreviationAtoms := c.options.abbreviationAtoms
    listener := (w.notifierOf ctx).nextListener
    last := none }

section Opening

variable {σ : Type} [Session σ] {w : World σ} {session : σ} {interpolating : Bool}

theorem exec_openStack_none (hc : w.contexts[ctx]? = none) (session : σ) (interpolating : Bool) :
    (openStack ctx session interpolating).exec w = (.error .foreign, w) :=
  Effect.exec_bind_error (exec_context_none hc) _

/-- A session first learns of the symbols of the environment; where it does, its stack is there, and
listens. -/
theorem exec_openStack_eq (hc : w.contexts[ctx]? = some c) (session : σ) (interpolating : Bool) :
    (openStack ctx session interpolating).exec w =
      match (c.env.declared.forM Session.declare : SessionM σ Unit).exec
        (c.env.terms, session) with
      | (.error x, terms, _) => (.error x, setEnvironment ctx { c.env with terms } w)
      | (.ok (), terms, session) => (.ok w.stackTable.size,
        (((setEnvironment ctx { c.env with terms } w).opened ctx
          (w.opening ctx c interpolating session)).listen ctx
            (.interrupt w.stackTable.size)).2) := by
  unfold openStack
  rw [Effect.exec_bind_ok (exec_context hc), Effect.exec_bind_ok (Effect.exec_look _ _),
    Effect.exec_bind_ok (Effect.exec_get _), Effect.exec_bind, Effect.exec_of]
  dsimp only
  rcases (c.env.declared.forM Session.declare : SessionM σ Unit).exec
    (c.env.terms, session) with ⟨x | _, terms, session'⟩ <;> rfl

variable {R : World σ → World σ → Prop} [Std.Refl R]

theorem openStack_within
    (hunopened : ∀ c x terms session', w.contexts[ctx]? = some c →
      (c.env.declared.forM Session.declare : SessionM σ Unit).exec (c.env.terms, session) =
        (.error x, terms, session') → R w (setEnvironment ctx { c.env with terms } w))
    (hopened : ∀ c terms session', w.contexts[ctx]? = some c →
      (c.env.declared.forM Session.declare : SessionM σ Unit).exec (c.env.terms, session) =
        (.ok (), terms, session') →
      R w (((setEnvironment ctx { c.env with terms } w).opened ctx
        (w.opening ctx c interpolating session')).listen ctx (.interrupt w.stackTable.size)).2) :
    R w ((openStack ctx session interpolating).exec w).2 := by
  cases hc : w.contexts[ctx]? with
  | none =>
    rw [exec_openStack_none hc]
    exact Std.Refl.refl w
  | some c =>
    rw [exec_openStack_eq hc]
    rcases hx : (c.env.declared.forM Session.declare : SessionM σ Unit).exec
      (c.env.terms, session) with ⟨x | _, terms, session'⟩
    · exact hunopened c x terms session' hc hx
    · exact hopened c terms session' hc hx

theorem newStack_within (hopen : R w ((openStack ctx session interpolating).exec w).2) :
    R w ((newStack ctx session interpolating).exec w).2 := by
  unfold newStack ensureRunning
  rw [Effect.exec_bind, Effect.exec_bind_ok (Effect.exec_look _ _)]
  cases (w.notifierOf ctx).reason with
  | some reason => exact Std.Refl.refl w
  | none => exact hopen

end Opening

theorem exec_openStack {ds : List FuncDecl} (hc : w.contexts[ctx]? = some c) (interpolating : Bool)
    (hd : List.Forall₂ (fun symbol d => c.env.terms.declOf symbol = .ok d) c.env.declared ds) :
    (openStack ctx FoldingSolver.new interpolating).exec w = (.ok w.stackTable.size,
      ((w.opened ctx (w.opening ctx c interpolating (FoldingSolver.new.note ds))).listen ctx
        (.interrupt w.stackTable.size)).2) := by
  have hx : (c.env.declared.forM Session.declare : SessionM FoldingSolver Unit).exec
      (c.env.terms, FoldingSolver.new) = (.ok (), c.env.terms, FoldingSolver.new.note ds) :=
    FoldingSolver.exec_declareAll hd
  have hset : setEnvironment ctx { c.env with terms := c.env.terms } w = w := setEnvironment_self hc
  rw [exec_openStack_eq hc, hx]
  dsimp only
  rw [hset]

/-- A new stack knows all symbols so far. -/
theorem opening_valid (h : w.Valid held history) (hc : w.contexts[ctx]? = some c)
    (interpolating : Bool) :
    ∃ w', (openStack ctx FoldingSolver.new interpolating).exec w = (.ok w.stackTable.size, w') ∧
      w'.Valid held (Function.update history w.stackTable.size []) ∧ w'.Extends w := by
  have hcontext := h.sound.context ctx c hc
  obtain ⟨ds, hd⟩ := exists_forall₂ hcontext.declarable
  have hknows : ∀ symbol ∈ c.env.declared, ∀ d, c.env.terms.declOf symbol = .ok d →
      (FoldingSolver.new.note ds).isDeclared d = true := by
    intro symbol hm d hsd
    obtain ⟨e, he, hse⟩ := exists_related hd.flip symbol hm
    rw [hsd] at hse
    cases hse
    exact FoldingSolver.isDeclared_note.2 (.inl he)
  have hstack : StackSound [] w.stackTable.size
      (w.opening ctx c interpolating (FoldingSolver.new.note ds))
      (observedBy c w.stackTable.size) :=
    ⟨rfl, rfl, fun _ => Mirrors.new.note hd, fun _ => .new,
      fun _ => List.mem_append_right _ (List.mem_singleton_self _)⟩
  have hvalid : (w.opened ctx
      (w.opening ctx c interpolating (FoldingSolver.new.note ds))).Valid held
      (Function.update history w.stackTable.size []) :=
    ⟨sound_opened h.sound hc hstack rfl rfl, knows_opened h hc rfl hknows⟩
  have halike := listen_alike ctx (.interrupt w.stackTable.size)
    (w.opened ctx (w.opening ctx c interpolating (FoldingSolver.new.note ds)))
  exact ⟨_, exec_openStack hc interpolating hd, hvalid.alike halike,
    halike.keeps.extends.trans (extends_opened hc _)⟩

/-- A stack is opened, or nothing changes. -/
def Opens (w : World FoldingSolver) (held : Multiset Formula) (history : Nat → History)
    (outcome : Except Fault Nat × World FoldingSolver) : Prop :=
  (∃ x, outcome = (.error x, w)) ∨
    ∃ w', outcome = (.ok w.stackTable.size, w') ∧
      w'.Valid held (Function.update history w.stackTable.size []) ∧ w'.Extends w

theorem openStack_opens (h : w.Valid held history) (ctx : Nat) (interpolating : Bool) :
    w.Opens held history ((openStack ctx FoldingSolver.new interpolating).exec w) := by
  cases hc : w.contexts[ctx]? with
  | none => exact .inl ⟨.foreign, exec_openStack_none hc _ _⟩
  | some c => exact .inr (opening_valid h hc interpolating)

theorem newStack_opens (h : w.Valid held history) (ctx : Nat) (interpolating : Bool) :
    w.Opens held history ((newStack ctx FoldingSolver.new interpolating).exec w) := by
  unfold newStack ensureRunning
  rw [Effect.exec_bind, Effect.exec_bind_ok (Effect.exec_look _ _)]
  cases (w.notifierOf ctx).reason with
  | some reason => exact .inl ⟨.interrupted reason, rfl⟩
  | none => exact openStack_opens h ctx interpolating

/-! Stacks that go -/

theorem kept_closed (hcl : s.closed = true) (ctx : Nat) : kept ctx (some s) = 0 :=
  if_neg (by simp [hcl])

/-- A closed stack can be removed. -/
theorem remove_valid (h : w.Valid held history) (hs : w.stack? id = some s)
    (hcl : s.closed = true) :
    (w.withStack id none).Valid held history ∧ (w.withStack id none).Extends w := by
  have hback : ∀ j s', (w.withStack id none).stack? j = some s' → w.stack? j = some s' :=
    fun _ _ => stack?_of_withStack_none
  have hsize : (w.withStack id none).stackTable.size = w.stackTable.size :=
    Array.size_setIfInBounds
  have hkeeps : w.Keeps (w.withStack id none) := by
    refine ⟨rfl, hsize, fun i c c' hc hc' => ?_, fun j s hs => ⟨s, hback j s hs, .refl s⟩⟩
    rw [show (w.withStack id none).contexts = w.contexts from rfl, hc] at hc'
    cases hc'
    exact .refl c
  refine ⟨⟨⟨h.sound.owners, fun i c hc => ?_, fun j s hs => h.sound.stack j s (hback j s hs)⟩,
    h.knows.mono h.sound hkeeps⟩, hkeeps.extends⟩
  have hcontext := h.sound.context i c hc
  refine ⟨hcontext.place, hcontext.wellFormed, hcontext.declarable, ?_, fun o ho => ?_⟩
  · have ha := hcontext.accounts
    rw [recorded_eq hs, kept_closed hcl] at ha
    rw [recorded_withStack (lt_of_stack? hs)]
    exact ha
  · obtain ⟨j, hj, rfl, hall⟩ := hcontext.observers o ho
    exact ⟨j, hsize.symm ▸ hj, rfl, fun s hs => hall s (hback j s hs)⟩

/-- Closing a stack gives back all that it kept. -/
theorem close_valid (h : w.Valid held history) (hs : w.stack? id = some s)
    (ho : s.closed = false) :
    ∃ w' s', (atStack id Site.close).exec w = (.ok (), w') ∧ w'.stack? id = some s' ∧
      s'.closed = true ∧ w'.Valid held history ∧ w.Keeps w' := by
  obtain ⟨c, hc, -⟩ := h.sound.stack id s hs
  obtain ⟨t, ht, hk, hclosed, hsound⟩ := Site.close_sound (site_sound h.sound hs hc) ho (history id)
  have hkeeps := keeps_put hs hc hk
  refine ⟨w.put id s.home t, t.stack, ?_, ?_, hclosed,
    ⟨h.sound.put_same hs hc hk hsound, h.knows.mono h.sound hkeeps⟩, hkeeps⟩
  · rw [exec_atStack hs hc, ht]
  · rw [stack?_put hs, if_pos rfl]

theorem dropStack_valid (h : w.Valid held history) (id : Nat) :
    (w.dropStack id).Valid held history ∧ (w.dropStack id).Extends w := by
  unfold dropStack
  cases hs : w.stack? id with
  | none =>
    have hw := withStack_none hs
    unfold withStack at hw
    dsimp only
    rw [hw]
    exact ⟨h, .refl w⟩
  | some s =>
    dsimp only
    split
    · next hcl => exact remove_valid h hs hcl
    · next ho =>
      obtain ⟨u, s', hx, hs', hcl, hu, hk⟩ := close_valid h hs (by simpa using ho)
      have hclose : ((closeStack id).exec w).2 = u := by
        unfold closeStack
        rw [Effect.exec_bind_ok (Effect.exec_get _), hs]
        exact congrArg Prod.snd hx
      rw [hclose]
      obtain ⟨hv, he⟩ := remove_valid hu hs' hcl
      exact ⟨hv, he.trans hk.extends⟩

/-! Wrappers -/

theorem exists_owner {f : Formula} (h : w.Sound held history) (hf : f ∈ held) :
    ∃ c, w.contexts[f.owner]? = some c :=
  ⟨_, Array.getElem?_eq_getElem (h.owners f hf)⟩

/-- A change of handles that only concerns wrappers of one environment. -/
theorem handles_valid {held' : Multiset Formula} {handles : Handles} (h : w.Valid held history)
    (hc : w.contexts[ctx]? = some c)
    (ha : ({ c.env with handles } : Environment).Accounts (ownedBy ctx held') (w.recorded ctx))
    (howners : ∀ f ∈ held', f.owner < w.contexts.size)
    (hothers : ∀ i ≠ ctx, ownedBy i held' = ownedBy i held) :
    (setEnvironment ctx { c.env with handles } w).Valid held' history ∧
      (setEnvironment ctx { c.env with handles } w).Extends w := by
  have hcontext := h.sound.context ctx c hc
  have hk : w.Keeps (setEnvironment ctx { c.env with handles } w) :=
    keeps_setEnvironment hc rfl rfl (.refl _)
  exact ⟨⟨h.sound.environment hc rfl rfl (.refl _) hcontext.declarable ha howners hothers,
    h.knows.mono h.sound hk⟩, hk.extends⟩

theorem ownedBy_cons_self {f : Formula} (held : Multiset Formula) :
    ownedBy f.owner (f ::ₘ held) = f ::ₘ ownedBy f.owner held :=
  Multiset.filter_cons_of_pos _ rfl

theorem ownedBy_cons_of_ne {f : Formula} {i : Nat} (hi : i ≠ f.owner) (held : Multiset Formula) :
    ownedBy i (f ::ₘ held) = ownedBy i held :=
  Multiset.filter_cons_of_neg _ fun h => hi h.symm

theorem discard_valid {f : Formula} (h : w.Valid (f ::ₘ held) history) :
    (w.discard f).Valid held history ∧ (w.discard f).Extends w := by
  obtain ⟨c, hc⟩ := exists_owner h.sound (Multiset.mem_cons_self f held)
  have hcontext := h.sound.context _ c hc
  have hw : w.discard f =
      setEnvironment f.owner { c.env with handles := c.env.handles.discard f.ticket } w := by
    have hd : c.env.discard f = { c.env with handles := c.env.handles.discard f.ticket } :=
      if_pos hcontext.place.symm
    rw [← hd]
    exact congrArg (fun contexts => { w with contexts }) (modify_environment hc)
  have ha := hcontext.accounts
  rw [ownedBy_cons_self] at ha
  have hd := ha.discard
  rw [Environment.discard, if_pos hcontext.place.symm] at hd
  rw [hw]
  refine handles_valid h hc hd (fun g hg => h.sound.owners g (Multiset.mem_cons_of_mem hg)) ?_
  exact fun i hi => (ownedBy_cons_of_ne hi held).symm

theorem retain_valid {f : Formula} (h : w.Valid held history) (hf : f ∈ held) :
    (w.retain f).Valid (f ::ₘ held) history ∧ (w.retain f).Extends w := by
  obtain ⟨c, hc⟩ := exists_owner h.sound hf
  have hcontext := h.sound.context _ c hc
  have hw : w.retain f =
      setEnvironment f.owner { c.env with handles := c.env.handles.retain f.ticket } w := by
    have hr : c.env.retain f = { c.env with handles := c.env.handles.retain f.ticket } :=
      if_pos hcontext.place.symm
    rw [← hr]
    exact congrArg (fun contexts => { w with contexts }) (modify_environment hc)
  have hr := hcontext.accounts.retain (Multiset.mem_filter.2 ⟨hf, rfl⟩)
  rw [Environment.retain, if_pos hcontext.place.symm, ← ownedBy_cons_self] at hr
  rw [hw]
  refine handles_valid h hc hr (fun g hg => ?_) fun i hi => ownedBy_cons_of_ne hi held
  obtain rfl | hg := Multiset.mem_cons.1 hg
  · exact h.sound.owners g hf
  · exact h.sound.owners g hg

/-! Contexts that come -/

/-- An environment without terms has nothing to account for. -/
theorem accounts_new (id : Nat) (theories : Theories) (counting announced track : Bool) :
    (Environment.new id theories counting announced track).Accounts 0 0 := by
  refine ⟨⟨List.nodup_nil, nofun, nofun, fun _ f hf => ?_⟩, fun _ => ⟨fun _ t => rfl, rfl⟩⟩
  exact absurd hf (Multiset.notMem_zero f)

theorem recorded_size (h : w.Sound held history) : w.recorded w.contexts.size = 0 := by
  refine List.sum_eq_zero fun m hm => ?_
  obtain ⟨o, ho, rfl⟩ := List.mem_map.1 hm
  cases o with
  | none => rfl
  | some s =>
    obtain ⟨id, hid⟩ := List.mem_iff_getElem?.1 ho
    rw [Array.getElem?_toList] at hid
    obtain ⟨c, hc, -⟩ := h.stack id s (stack?_eq_some.2 hid)
    have hlt := (Array.getElem?_eq_some_iff.1 hc).1
    exact if_neg fun hn => hlt.ne hn.1

/-- A world with one more context. -/
theorem pushContext_valid (h : w.Valid held history) (theories : Theories)
    (counting announced track : Bool) (options : Options) (notifier : Nat)
    (hc : w'.contexts = w.contexts.push
      ⟨Environment.new w.contexts.size theories counting announced track, options, notifier⟩)
    (ht : w'.stackTable = w.stackTable) : w'.Valid held history ∧ w'.Extends w := by
  have hold : ∀ (i : Nat) c, w.contexts[i]? = some c → w'.contexts[i]? = some c := by
    intro i c hi
    rw [hc, Array.getElem?_push, if_neg (Array.getElem?_eq_some_iff.1 hi).1.ne, hi]
  have hstack : ∀ id, w'.stack? id = w.stack? id := fun id => by rw [stack?, ht, stack?]
  have hrecorded : ∀ ctx, w'.recorded ctx = w.recorded ctx := fun ctx => by
    rw [recorded, ht, recorded]
  refine ⟨⟨⟨fun f hf => ?_, fun i c hi => ?_, fun id s hs => ?_⟩, ?_⟩,
    fun i c hi => ⟨c, hold i c hi, .refl _⟩, by rw [ht], fun id s _ hs => ⟨s, hstack id ▸ hs, rfl⟩⟩
  · rw [hc, Array.size_push]
    exact Nat.lt_succ_of_lt (h.sound.owners f hf)
  · rw [hc, Array.getElem?_push] at hi
    split at hi
    · next his =>
      subst his
      cases hi
      refine ⟨rfl, Store.wellFormed_empty, fun _ hm => (List.not_mem_nil hm).elim, ?_,
        fun _ hm => (List.not_mem_nil hm).elim⟩
      have hnone : ownedBy w.contexts.size held = 0 :=
        Multiset.filter_eq_nil.2 fun f hf => (h.sound.owners f hf).ne
      rw [hrecorded, recorded_size h.sound, hnone]
      exact accounts_new _ _ _ _ _
    · have hcontext := h.sound.context i c hi
      refine ⟨hcontext.place, hcontext.wellFormed, hcontext.declarable, ?_, ?_⟩
      · rw [hrecorded]
        exact hcontext.accounts
      · rw [ht]
        simpa only [hstack] using hcontext.observers
  · rw [hstack] at hs
    obtain ⟨c, hcs, hst⟩ := h.sound.stack id s hs
    exact ⟨c, hold _ c hcs, hst⟩
  · intro id s hs ho hr c hcs
    rw [hstack] at hs
    obtain ⟨c', hcs', -⟩ := h.sound.stack id s hs
    rw [hold _ c' hcs'] at hcs
    cases hcs
    exact h.knows id s hs ho hr c hcs'

theorem addContext_valid (h : w.Valid held history) (theories : Theories)
    (counting announced : Bool) (options : Options) (notifierOf : Option Nat) :
    (w.addContext theories counting announced options notifierOf).Valid held history ∧
      (w.addContext theories counting announced options notifierOf).Extends w := by
  obtain ⟨notifier, hcontexts⟩ :=
    contexts_addContext w theories counting announced options notifierOf
  exact pushContext_valid h theories counting announced _ options notifier hcontexts
    (stackTable_addContext w theories counting announced options notifierOf)

end World
end FormulaStack
