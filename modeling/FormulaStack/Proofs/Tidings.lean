import FormulaStack.Proofs.Hearings

/-!
What rounds do to stacks. A stack that is still open when a round ends was told of the symbol, if
it observes the environment and nobody failed before; else it is as it was. Stacks do not fail when
they are told; and neither does a watch that closes no stack and is not set to fail.
-/
namespace FormulaStack

@[simp] theorem AssertionStack.closed_hears (s : AssertionStack FoldingSolver) (symbol : Symbol)
    (d : FuncDecl) : (s.hears symbol d).closed = s.closed := by
  unfold hears
  split <;> rfl

namespace World

section Closing

variable {σ : Type} {w w' : World σ}

/-- Stacks stay as they are, or are closed. -/
def Closes (w w' : World σ) : Prop :=
  ∀ id s', w'.stack? id = some s' →
    ∃ s, w.stack? id = some s ∧ s'.home = s.home ∧ (s'.closed = false → s' = s)

instance : Std.Refl (Closes (σ := σ)) := ⟨fun _ _ s hs => ⟨s, hs, rfl, fun _ => rfl⟩⟩

instance : IsTrans (World σ) Closes := by
  refine ⟨fun u v w h g id s'' hs'' => ?_⟩
  obtain ⟨s', hs', hhome', ho'⟩ := g id s'' hs''
  obtain ⟨s, hs, hhome, ho⟩ := h id s' hs'
  refine ⟨s, hs, hhome'.trans hhome, fun hcl => ?_⟩
  obtain rfl := ho' hcl
  exact ho hcl

variable [Session σ]

theorem closeStack_closes (id : Nat) :
    Effect.Within Closes (closeStack id : Effect (World σ) Unit) := by
  refine closeStack_within (atStack_within fun w c s hs hc j s' hs' => ?_)
  obtain ⟨told, htrail⟩ := Site.reaches_of_passes Site.close_passes (w.site c s)
  rw [stack?_put hs] at hs'
  split at hs'
  · next hj =>
    cases hs'
    refine ⟨s, hj ▸ hs, (Site.remains_of_trail htrail).home, fun ho => ?_⟩
    cases (Site.closed_close (w.site c s)).symm.trans ho
  · exact ⟨s', hs', rfl, fun _ => rfl⟩

theorem tell_watch_closes (symbol : Symbol) (k : Nat) (w : World σ) :
    w.Closes ((tell symbol (.watch k)).exec w).2 := by
  cases hwatch : w.watches[k]?.join with
  | none =>
    rw [exec_tell_nobody hwatch]
    exact Std.Refl.refl w
  | some watch =>
    rw [exec_tell_watch hwatch]
    exact respond_within (fun stack _ => closeStack_closes stack) (w.receiving k watch symbol)

end Closing

variable {w : World FoldingSolver} {ctx id : Nat} {symbol : Symbol} {d : FuncDecl} {o : Observer}
  {os : List Observer}

/-- The stacks among some observers belong to a context, in which a symbol stands for a
declaration. -/
structure Concerns (w : World FoldingSolver) (ctx : Nat) (symbol : Symbol) (d : FuncDecl)
    (os : List Observer) : Prop where
  context : ∃ c, w.contexts[ctx]? = some c ∧ c.env.terms.declOf symbol = .ok d
  homes : ∀ id, .stack id ∈ os → ∀ s, w.stack? id = some s → s.home = ctx

/-- Those who are told later are still of the context. -/
theorem Concerns.after_tell (h : w.Concerns ctx symbol d (o :: os)) :
    ((tell symbol o).exec w).2.Concerns ctx symbol d os := by
  obtain ⟨c, hc, hd⟩ := h.context
  have hlater : ∀ {id}, .stack id ∈ os → ∀ s, w.stack? id = some s → s.home = ctx :=
    fun hm => h.homes _ (List.mem_cons_of_mem _ hm)
  cases o with
  | stack id =>
    obtain ⟨u, hu, hcontexts, -, hstacks⟩ := exec_tell hc hd (h.homes id List.mem_cons_self)
    rw [hu]
    refine ⟨⟨c, hcontexts ▸ hc, hd⟩, fun j hj s hs => ?_⟩
    rw [hstacks] at hs
    split at hs
    · obtain ⟨s₀, hs₀, rfl⟩ := Option.map_eq_some_iff.1 hs
      rw [AssertionStack.home_hears]
      exact hlater hj s₀ hs₀
    · exact hlater hj s hs
  | watch k =>
    have hreaches : w.Reaches .silent ((tell symbol (.watch k)).exec w).2 :=
      tell_reaches symbol (fun _ _ => trivial) fun _ _ => trivial
    obtain ⟨c', hc', hgrows, -⟩ := hreaches.context_grows hc
    refine ⟨⟨c', hc', hgrows.terms.extension.declOf hd⟩, fun j hj s hs => ?_⟩
    obtain ⟨s₀, hs₀, hhome, -⟩ := tell_watch_closes symbol k w j s hs
    exact hhome.trans (hlater hj s₀ hs₀)

/-- A stack that is open when somebody was told was open before, and is as it was, or it is the one
that was told. -/
theorem Concerns.stack?_tell (h : w.Concerns ctx symbol d (o :: os))
    {s' : AssertionStack FoldingSolver}
    (hs' : ((tell symbol o).exec w).2.stack? id = some s') (ho : s'.closed = false) :
    ∃ s, w.stack? id = some s ∧ s.closed = false ∧
      s' = if o = .stack id then s.hears symbol d else s := by
  cases o with
  | stack j =>
    obtain ⟨c, hc, hd⟩ := h.context
    obtain ⟨u, hu, -, -, hstacks⟩ := exec_tell hc hd (h.homes j List.mem_cons_self)
    rw [hu, hstacks] at hs'
    split at hs'
    · next hj =>
      obtain ⟨s, hs, rfl⟩ := Option.map_eq_some_iff.1 hs'
      rw [AssertionStack.closed_hears] at ho
      exact ⟨s, hs, ho, (if_pos (by rw [hj])).symm⟩
    · next hj => exact ⟨s', hs', ho, (if_neg fun h => hj (Observer.stack.inj h).symm).symm⟩
  | watch k =>
    obtain ⟨s, hs, -, hsame⟩ := tell_watch_closes symbol k w id s' hs'
    obtain rfl := hsame ho
    exact ⟨s', hs, ho, (if_neg (by intro h; cases h)).symm⟩

/-- The same for a round in which the stack is told once at most. -/
theorem Concerns.stack?_round (h : w.Concerns ctx symbol d os) (honce : os.count (.stack id) ≤ 1)
    {s' : AssertionStack FoldingSolver}
    (hs' : ((os.forM (tell symbol)).exec w).2.stack? id = some s') (ho : s'.closed = false) :
    ∃ s, w.stack? id = some s ∧ s.closed = false ∧
      s' = if .stack id ∈ told symbol os w then s.hears symbol d else s := by
  rw [List.forM_eq_forM] at hs'
  induction os generalizing w with
  | nil => exact ⟨s', hs', ho, (if_neg List.not_mem_nil).symm⟩
  | cons o os ih =>
    have hlater := h.after_tell
    have hfirst : ∀ {s}, ((tell symbol o).exec w).2.stack? id = some s → s.closed = false → _ :=
      fun hs ho => h.stack?_tell hs ho
    rw [List.forM_cons, Effect.exec_bind] at hs'
    rw [List.count_cons] at honce
    simp only [told, List.mem_cons, eq_comm (b := o)]
    rcases hx : (tell symbol o).exec w with ⟨x | _, u⟩ <;> rw [hx] at hs' hlater hfirst <;>
      dsimp only at hs'
    · obtain ⟨s, hs, hopen, hsame⟩ := hfirst hs' ho
      refine ⟨s, hs, hopen, hsame.trans ?_⟩
      simp [Except.isOk, Except.toBool]
    · obtain ⟨s₁, hs₁, hopen₁, hsame₁⟩ := ih hlater (by omega) hs'
      obtain ⟨s, hs, hopen, hsame⟩ := hfirst hs₁ hopen₁
      refine ⟨s, hs, hopen, hsame₁.trans ?_⟩
      have hok : (Except.ok () : Except Fault Unit).isOk = true := rfl
      rw [if_pos hok]
      by_cases hid : o = .stack id
      · -- It has been told, and is not told again.
        have hnever : .stack id ∉ told symbol os u := fun hm =>
          absurd (List.count_pos_iff.2 ((prefix_told symbol os u).subset hm)) (by
            simp [hid] at honce
            omega)
        rw [if_neg hnever, hsame, if_pos hid, if_pos (.inl hid)]
      · rw [hsame, if_neg hid]
        simp [hid]

/-- The watches among some observers neither close stacks nor fail. -/
def Quiet {σ : Type} (w : World σ) (os : List Observer) : Prop :=
  ∀ k watch, .watch k ∈ os → w.watches[k]?.join = some watch →
    watch.closes = none ∧ watch.fails = false

theorem Concerns.exec_tell_quiet (h : w.Concerns ctx symbol d (o :: os)) (hq : w.Quiet (o :: os)) :
    ∃ u, (tell symbol o).exec w = (.ok (), u) ∧ u.Quiet os := by
  have hlater : w.Quiet os := fun k watch hm => hq k watch (List.mem_cons_of_mem _ hm)
  cases o with
  | stack id =>
    obtain ⟨c, hc, hd⟩ := h.context
    obtain ⟨u, hu, -, hwatches, -⟩ := exec_tell hc hd (h.homes id List.mem_cons_self)
    refine ⟨u, hu, fun k watch hm hk => hlater k watch hm ?_⟩
    rwa [← hwatches]
  | watch k =>
    cases hwatch : w.watches[k]?.join with
    | none => exact ⟨w, exec_tell_nobody hwatch symbol, hlater⟩
    | some watch =>
      obtain ⟨hcloses, hfails⟩ := hq k watch List.mem_cons_self hwatch
      refine ⟨w.receiving k watch symbol, ?_, fun j other hm hj => ?_⟩
      · rw [exec_tell_watch hwatch, respond, hcloses, hfails]
        rfl
      · rw [receiving, Array.getElem?_setIfInBounds] at hj
        split at hj
        · split at hj <;> cases hj
          exact ⟨hcloses, hfails⟩
        · exact hlater j other hm hj

/-- Where watches are quiet a round succeeds. -/
theorem Concerns.quiet_round (h : w.Concerns ctx symbol d os) (hq : w.Quiet os) :
    ((os.forM (tell symbol)).exec w).1 = .ok () := by
  rw [List.forM_eq_forM]
  induction os generalizing w with
  | nil => rfl
  | cons o os ih =>
    have hlater := h.after_tell
    obtain ⟨u, hu, hquiet⟩ := h.exec_tell_quiet hq
    rw [hu] at hlater
    rw [List.forM_cons, Effect.exec_bind_ok hu]
    exact ih hlater hquiet

/-! Events that introduce a symbol -/

variable {e : Event FoldingSolver} {p : Nat × SymbolRequest} {c : Context} {env : Environment}

/-- The observers of an environment are of its context. -/
theorem Introduces.concerns (h : w.Introduces e p c symbol env) (ha : w.Attended True)
    (hd : env.terms.declOf symbol = .ok d) :
    (setEnvironment p.1 env w).Concerns p.1 symbol d (w.observersOf p.1) :=
  ⟨⟨_, (context_setEnvironment h.context env p.1).trans (if_pos rfl), hd⟩,
    fun id hid s hs => (ha.places p.1 id hid).2 s hs⟩

theorem Introduces.exec_publish (h : w.Introduces e p c symbol env) :
    (publish p.1 symbol).exec (setEnvironment p.1 env w) =
      ((w.observersOf p.1).forM (tell symbol)).exec (setEnvironment p.1 env w) := by
  have hc := (context_setEnvironment h.context env p.1).trans (if_pos rfl)
  unfold publish
  rw [Effect.exec_bind_ok (exec_context hc), ← h.observersOf p.1, observersOf_eq hc]

/-- If the request succeeds all were told, and it does where watches are quiet. -/
theorem Introduces.audience_eq (h : w.Introduces e p c symbol env) {given : Symbol}
    (hx : ((p.2.make p.1).exec w).1 = .ok given) : w.audience p = w.observersOf p.1 := by
  rw [h.audience]
  refine told_eq_of_ok ?_
  rw [h.made, h.exec_publish] at hx
  cases hu : (((w.observersOf p.1).forM (tell symbol)).exec (setEnvironment p.1 env w)).1 with
  | ok _ => rfl
  | error x =>
    rw [hu] at hx
    cases hx

theorem Introduces.succeeds (h : w.Introduces e p c symbol env) (ha : w.Attended True)
    (hq : w.Quiet (w.observersOf p.1)) : ((p.2.make p.1).exec w).1 = .ok symbol := by
  obtain ⟨d, hd⟩ := h.makes.declares
  rw [h.made, h.exec_publish, (h.concerns ha hd.decl).quiet_round hq, Except.map]

/-- What follows a request in its event concerns no stack. -/
theorem stackTable_event {σ : Type} [Session σ] (r : SymbolRequest) (ctx : Nat) (w : World σ) :
    ((r.event ctx).after w).stackTable = ((r.make ctx).exec w).2.stackTable := by
  have : Std.Refl fun w w' : World σ => w'.stackTable = w.stackTable := ⟨fun _ => rfl⟩
  refine r.after_event_of (R := fun w w' => w'.stackTable = w.stackTable) (fun type t => ?_) w
  exact inEnvironment_within fun _ _ _ => rfl

/-- A stack that is still open afterwards has heard of the symbol, if it was told. -/
theorem Introduces.stack? (h : w.Introduces e p c symbol env) (ha : w.Attended True)
    (hd : env.terms.declOf symbol = .ok d) {s' : AssertionStack FoldingSolver}
    (hs' : (e.after w).stack? id = some s') (ho : s'.closed = false) :
    ∃ s, w.stack? id = some s ∧ s.closed = false ∧
      s' = if .stack id ∈ w.audience p then s.hears symbol d else s := by
  obtain rfl := Event.request?_eq_some.1 h.request
  rw [World.stack?, stackTable_event, h.made, h.exec_publish] at hs'
  rw [h.audience]
  exact (h.concerns ha hd).stack?_round (ha.once p.1 id) hs' ho

end World

end FormulaStack
