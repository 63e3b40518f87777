import FormulaStack.Proofs.Events
import FormulaStack.ScriptedSolver

/-!
What an open stack remembers of its checks. While it remembers an answer, nothing more is asserted
than was for the check. A pop that fails on its way may have taken levels off, though, and leaves
the answer as it was.
-/
namespace FormulaStack

namespace Tower

/-- All that is asserted, from the base on, with the partitions. -/
def assertions (levels : Tower Level) : List (Option Nat × Term) :=
  levels.toList.flatMap (·.assertions)

@[simp] theorem assertions_push (levels : Tower Level) :
    (levels.push default).assertions = levels.assertions := by
  rw [assertions, toList_push, List.flatMap_append]
  exact List.append_nil _

@[simp] theorem assertions_received (levels : Tower Level) (symbols : List Symbol) :
    (levels.receive symbols).assertions = levels.assertions := by
  obtain ⟨base, _ | ⟨l, rest⟩⟩ := levels
  · rfl
  · simp [assertions, receive, modifyUpper, toList]

theorem assertions_pop {levels below : Tower Level} {level : Level}
    (h : levels.pop? = some (level, below)) :
    levels.assertions = below.assertions ++ level.assertions := by
  rw [assertions, (pop?_eq_some h).1, List.flatMap_append, List.flatMap_singleton]
  rfl

end Tower

namespace AssertionStack

variable {σ : Type} {s t u : AssertionStack σ}

/-- What is asserted stays so, and so does what the stack remembers. -/
structure Recalls (s t : AssertionStack σ) : Prop where
  opened : s.closed = false
  last : t.last = s.last
  assertions : t.levels.assertions = s.levels.assertions

/-- A stack that stays open forgets, or nothing is asserted that was not, or the other way round. -/
def Minds (s t : AssertionStack σ) : Prop := t.closed = false → t.last = none ∨ s.Recalls t

/-- Nothing but levels on top goes. -/
structure Sheds (s t : AssertionStack σ) : Prop where
  closed : t.closed = s.closed
  last : t.last = s.last
  assertions : t.levels.assertions <+: s.levels.assertions

theorem Recalls.trans (h : s.Recalls t) (g : t.Recalls u) : s.Recalls u :=
  ⟨h.opened, g.last.trans h.last, g.assertions.trans h.assertions⟩

theorem Recalls.forgotten (h : s.Recalls t) (hs : s.last = none) : t.last = none :=
  h.last.trans hs

end AssertionStack

namespace Site

variable {σ α : Type} {s t u : Site σ}

/-- Turns of a stack with which it minds what it remembers. -/
def Minds (s t : Site σ) : Prop := s.stack.Minds t.stack

/-- Turns of a stack with which nothing but levels on top goes. -/
def Sheds (s t : Site σ) : Prop := s.stack.Sheds t.stack

instance : Std.Refl (Minds (σ := σ)) := ⟨fun _ ho => .inr ⟨ho, rfl, rfl⟩⟩

instance : IsTrans (Site σ) Minds := by
  refine ⟨fun s t u h g ho => (g ho).elim .inl fun hu => ?_⟩
  exact (h hu.opened).elim (fun ht => .inl (hu.forgotten ht)) fun ht => .inr (ht.trans hu)

instance : Std.Refl (Sheds (σ := σ)) := ⟨fun _ => ⟨rfl, rfl, List.prefix_rfl⟩⟩

instance : IsTrans (Site σ) Sheds :=
  ⟨fun _ _ _ h g => ⟨g.closed.trans h.closed, g.last.trans h.last,
    g.assertions.trans h.assertions⟩⟩

theorem native_minds (e : SessionM σ α) : Effect.Within Minds (native e) :=
  fun _ ho => .inr ⟨ho, rfl, rfl⟩

theorem environment_minds (e : Effect Environment α) :
    Effect.Within Minds (inEnvironment e : Effect (Site σ) α) :=
  fun _ ho => .inr ⟨ho, rfl, rfl⟩

theorem forgetting_minds {f : AssertionStack σ → AssertionStack σ} (hf : ∀ s, (f s).last = none) :
    Effect.Within Minds (updateStack f) :=
  fun s _ => .inl (hf s.stack)

theorem levels_minds {f : Tower Level → Tower Level}
    (hf : ∀ levels, (f levels).assertions = levels.assertions) :
    Effect.Within Minds
      (updateStack fun s : AssertionStack σ => { s with levels := f s.levels }) :=
  fun s ho => .inr ⟨ho, rfl, hf s.stack.levels⟩

variable [Session σ]

theorem Inquiry.stack (h : s.Inquiry t) : ∃ session, t.stack = { s.stack with session } := by
  cases h <;> exact ⟨_, rfl⟩

theorem Inquires.stack (h : s.Inquires t) : ∃ session, t.stack = { s.stack with session } := by
  induction h with
  | refl => exact ⟨_, rfl⟩
  | tail _ hask ih =>
    obtain ⟨_, hfirst⟩ := ih
    obtain ⟨session, hlast⟩ := hask.stack
    rw [hfirst] at hlast
    exact ⟨session, hlast⟩

theorem minds_of_inquires {e : Effect (Site σ) α} (he : Effect.Within Inquires e) :
    Effect.Within Minds e := by
  intro s ho
  obtain ⟨session, hx⟩ := (he s).stack
  rw [hx] at ho ⊢
  exact .inr ⟨ho, rfl, rfl⟩

/-! Operations other than checks and pops -/

theorem declare_minds (symbol : Symbol) :
    Effect.Within Minds (declare symbol : Effect (Site σ) Unit) :=
  .bind (native_minds _) fun _ => levels_minds (Tower.assertions_received · [symbol])

theorem symbolRequested_minds (symbol : Symbol) :
    Effect.Within Minds (symbolRequested symbol : Effect (Site σ) Unit) := by
  refine .bind (.look _) fun closed => ?_
  split
  · exact .pure _
  · exact declare_minds symbol

theorem pushLevels_minds : ∀ n, Effect.Within Minds (pushLevels n : Effect (Site σ) Unit)
  | 0 => .pure _
  | n + 1 => .bind (native_minds _) fun _ => .bind (levels_minds Tower.assertions_push) fun _ =>
    pushLevels_minds n

theorem assertTerm_minds (t : Term) (partition : Option Nat) :
    Effect.Within Minds (assertTerm t partition : Effect (Site σ) Unit) :=
  .bind (native_minds _) fun _ => .bind (environment_minds _) fun _ =>
    forgetting_minds fun _ => rfl

theorem assert_minds (f : BoolFormula) (partition : Option Nat) :
    Effect.Within Minds (assert f partition : Effect (Site σ) Unit) :=
  assert_within (fun _ _ ho => .inr ⟨ho, rfl, rfl⟩) (fun _ => native_minds _)
    (fun t => assertTerm_minds t partition) f

theorem close_minds : Effect.Within Minds (close : Effect (Site σ) Unit) := by
  intro s ho
  cases hs : s.stack.closed with
  | true =>
    obtain ⟨told, htrail, -⟩ := close_passes s
    rw [(remains_of_trail htrail).closed hs] at ho
    cases ho
  | false =>
    obtain ⟨u, -, hc, hx⟩ := close_eq hs
    rw [hx, show ((u.withLevels default).released _).stack.closed = true from hc] at ho
    cases ho

/-! Checks and pops -/

/-- The session of an open stack finds an answer to a check. -/
def Finds (s : Site σ) (v : Verdict) : Prop :=
  s.stack.closed = false ∧ s.notifier.reason = none ∧
    ((Session.check : SessionM σ Verdict).exec s.desk).1 = .ok v

/-- A turn of a stack which remembers what its session answers, if it is asked and answers. -/
structure Asks (s t : Site σ) : Prop where
  closed : t.stack.closed = s.stack.closed
  assertions : t.stack.levels.assertions = s.stack.levels.assertions
  answered : ∀ v, s.Finds v → t.stack.last = some v
  unanswered : (∀ v, ¬ s.Finds v) → t.stack.last = s.stack.last

theorem Asks.of_not_finds (hno : ∀ v, ¬ s.Finds v)
    (ht : ∃ session, t.stack = { s.stack with session }) : s.Asks t := by
  obtain ⟨session, ht⟩ := ht
  refine ⟨?_, ?_, fun v hv => absurd hv (hno v), fun _ => ?_⟩ <;> rw [ht]

theorem Asks.of_finds {v : Verdict} (hv : s.Finds v)
    (ht : ∃ session, t.stack = { s.stack with session, last := some v }) : s.Asks t := by
  obtain ⟨session, ht⟩ := ht
  refine ⟨?_, ?_, fun v' hv' => ?_, fun hno => absurd hv (hno v)⟩ <;> rw [ht]
  exact congrArg some (Except.ok.inj (hv.2.2.symm.trans hv'.2.2))

theorem Asks.inquires (h : s.Asks t) (g : t.Inquires u) : s.Asks u := by
  obtain ⟨session, hu⟩ := g.stack
  refine ⟨?_, ?_, fun v hv => ?_, fun hno => ?_⟩ <;> rw [hu]
  · exact h.closed
  · exact h.assertions
  · exact h.answered v hv
  · exact h.unanswered hno

theorem check_asks : Effect.Within Asks (check : Effect (Site σ) Bool) := by
  intro s
  unfold check
  cases ho : s.stack.closed with
  | true =>
    rw [Effect.exec_bind_error (exec_ensureOpen_closed ho)]
    exact .of_not_finds (fun v hv => by cases ho.symm.trans hv.1) ⟨_, rfl⟩
  | false =>
    rw [Effect.exec_bind_ok (exec_ensureOpen ho), Effect.exec_bind, exec_ensureRunning]
    cases hr : s.notifier.reason with
    | some reason => exact .of_not_finds (fun v hv => by cases hr.symm.trans hv.2.1) ⟨_, rfl⟩
    | none =>
      dsimp only
      rcases hx : (Session.check : SessionM σ Verdict).exec s.desk with ⟨x | v, p⟩
      · rw [Effect.exec_bind_error (exec_native_eq hx)]
        refine .of_not_finds (fun v hv => ?_) ⟨_, rfl⟩
        rw [Finds, hx] at hv
        cases hv.2.2
      · rw [Effect.exec_bind_ok (exec_native_eq hx), Effect.exec_bind_ok (exec_updateStack _ _)]
        have hv : s.Finds v := ⟨ho, hr, by rw [hx]⟩
        cases v with
        | sat | unsat => exact .of_finds hv ⟨_, rfl⟩
        | unknown =>
          exact .inquires (.of_finds hv ⟨p.2, rfl⟩) (Effect.Within.bind (.look _) (fun _ =>
            .bind ensureRunning_inquires fun _ => .throw _) _)

theorem nextModel?_asks (important : List (BoolFormula × Term)) :
    Effect.Within Asks (nextModel? important : Effect (Site σ) _) := by
  intro s
  unfold nextModel?
  rw [Effect.exec_bind, exec_ensureRunning]
  cases hr : s.notifier.reason with
  | some reason => exact .of_not_finds (fun v hv => by cases hr.symm.trans hv.2.1) ⟨_, rfl⟩
  | none =>
    have hcheck := check_asks s
    dsimp only
    rw [Effect.exec_bind]
    rcases hx : check.exec s with ⟨x | sat, t⟩ <;> rw [hx] at hcheck
    · exact hcheck
    · cases sat with
      | false => exact hcheck
      | true =>
        exact hcheck.inquires
          (Effect.Within.bind (literals_inquires important) (fun _ => .pure _) _)

/-- Whatever a session refuses, a pop takes levels off the top. -/
theorem popLevel_sheds :
    Effect.Within Sheds (do releaseAll (← popLevel) : Effect (Site σ) Unit) := by
  have hbelow : ∀ {s : Site σ} {level below}, s.stack.levels.pop? = some (level, below) →
      below.assertions <+: s.stack.levels.assertions := fun hl => by
    rw [Tower.assertions_pop hl]
    exact List.prefix_append _ _
  refine popLevel_within (fun _ => ⟨rfl, rfl, List.prefix_rfl⟩)
    (fun _ _ => ⟨rfl, rfl, List.prefix_rfl⟩) (fun _ hl _ => ⟨rfl, rfl, hbelow hl⟩)
    (fun _ hl _ _ => ⟨rfl, rfl, ?_⟩) (fun _ hl _ _ => ⟨rfl, rfl, hbelow hl⟩)
  exact (Tower.assertions_received _ _).symm ▸ hbelow hl

theorem popLevels_sheds : ∀ n, Effect.Within Sheds (popLevels n : Effect (Site σ) Unit)
  | 0 => .pure _
  | n + 1 => by
    have hstep := popLevel_sheds.bind fun _ : Unit => popLevels_sheds n
    rwa [bind_assoc] at hstep

/-- A stack that pops levels forgets what it remembers, or fails before. -/
theorem pop_sheds (n : Nat) (s : Site σ) : ((pop n).exec s).2.stack.last = none ∨
    s.Sheds ((pop n).exec s).2 ∧ ∃ x, ((pop n).exec s).1 = .error x := by
  unfold pop
  cases ho : s.stack.closed with
  | true =>
    rw [Effect.exec_bind_error (exec_ensureOpen_closed ho)]
    exact .inr ⟨Std.Refl.refl s, _, rfl⟩
  | false =>
    rw [Effect.exec_bind_ok (exec_ensureOpen ho), Effect.exec_bind_ok (Effect.exec_look _ _)]
    by_cases hn : s.stack.levels.depth < n
    · rw [if_pos hn]
      exact .inr ⟨Std.Refl.refl s, _, rfl⟩
    · have hlevels := popLevels_sheds n s
      rw [if_neg hn, Effect.exec_bind]
      rcases hx : (popLevels n).exec s with ⟨x | _, t⟩ <;> rw [hx] at hlevels
      · exact .inr ⟨hlevels, x, rfl⟩
      · exact .inl rfl

end Site

/-- Operations other than checks and pops mind what their stack remembers. -/
theorem StackOperation.act_minds {σ : Type} [Session σ] {op : StackOperation}
    (hcheck : op ≠ .check) (hpop : ∀ n, op ≠ .pop n) :
    Effect.Within Site.Minds (op.act : Effect (Site σ) Unit) := by
  cases op with
  | push n =>
    exact .bind (Site.minds_of_inquires Site.ensureOpen_inquires) fun _ =>
      .bind (Site.pushLevels_minds n) fun _ => Site.forgetting_minds fun _ => rfl
  | pop n => exact absurd rfl (hpop n)
  | assert f partition => exact Site.assert_minds f partition
  | addSymbol symbol =>
    exact .bind (Site.minds_of_inquires Site.ensureOpen_inquires) fun _ =>
      Site.declare_minds symbol
  | check => exact absurd rfl hcheck
  | model => exact .bind (Site.minds_of_inquires Site.model_inquires) fun _ => .pure _
  | evaluate f => exact .bind (Site.minds_of_inquires (Site.evaluate_inquires f)) fun _ => .pure _
  | interpolants groups =>
    exact .bind (Site.minds_of_inquires (Site.interpolants_inquires groups)) fun _ => .pure _
  | close => exact Site.close_minds

/-- Nothing is done at one stack; all else can be done. -/
def Setting.besides {σ : Type} (id : Nat) : Setting σ := ⟨fun _ => True, (· ≠ id), True, True⟩

namespace World

variable {σ α : Type} {w w' w'' : World σ} {id : Nat}

/-- What happens in a world while a stack minds what it remembers. A new stack remembers nothing. -/
def Minds (id : Nat) (w w' : World σ) : Prop :=
  ∀ t, w'.stack? id = some t → t.closed = false →
    t.last = none ∨ ∃ s, w.stack? id = some s ∧ s.Recalls t

instance : Std.Refl (Minds (σ := σ) id) := ⟨fun _ t ht ho => .inr ⟨t, ht, ho, rfl, rfl⟩⟩

theorem Minds.trans (h : w.Minds id w') (g : w'.Minds id w'') : w.Minds id w'' := by
  refine fun u hu ho => (g u hu ho).elim .inl fun ⟨t, ht, htu⟩ => ?_
  refine (h t ht htu.opened).elim (fun hl => .inl (htu.forgotten hl)) fun ⟨s, hs, hst⟩ => ?_
  exact .inr ⟨s, hs, hst.trans htu⟩

instance : IsTrans (World σ) (Minds id) := ⟨fun _ _ _ => Minds.trans⟩

theorem minds_of_stackTable (h : w'.stackTable = w.stackTable) : w.Minds id w' := by
  intro t ht ho
  rw [stack?, h] at ht
  exact .inr ⟨t, ht, ho, rfl, rfl⟩

theorem inEnvironment_minds (e : Effect Environment α) (ctx : Nat) :
    Effect.Within (Minds id) (inEnvironment ctx e : Effect (World σ) α) :=
  inEnvironment_within fun _ _ _ => minds_of_stackTable rfl

theorem atStack_minds {j : Nat} {e : Effect (Site σ) α} (he : j = id → Effect.Within Site.Minds e) :
    Effect.Within (Minds id) (atStack j e) := by
  refine atStack_within fun w c s hs _ t ht ho => ?_
  rw [stack?_put hs] at ht
  split at ht
  · next hj =>
    cases ht
    exact (he hj.symm (w.site c s) ho).imp_right fun hr => ⟨s, hj ▸ hs, hr⟩
  · exact .inr ⟨t, ht, ho, rfl, rfl⟩

variable [Session σ]

theorem closeStack_minds (j : Nat) :
    Effect.Within (Minds id) (closeStack j : Effect (World σ) Unit) :=
  closeStack_within (atStack_minds fun _ => Site.close_minds)

theorem publish_minds (ctx : Nat) (symbol : Symbol) :
    Effect.Within (Minds id) (publish ctx symbol : Effect (World σ) Unit) :=
  publish_within (tell_within (fun _ => atStack_minds fun _ => Site.symbolRequested_minds symbol)
    (fun _ => atStack_minds fun _ => Site.close_minds) fun _ _ => minds_of_stackTable rfl)

theorem constantTerm_minds (ctx : Nat) (type : FormulaType) (name : String) :
    Effect.Within (Minds id) (constantTerm ctx type name : Effect (World σ) Term) :=
  constantTerm_within (inEnvironment_minds _ ctx) (publish_minds ctx)

theorem function_minds (ctx : Nat) (name : String) (result : FormulaType)
    (arguments : List FormulaType) : Effect.Within (Minds id)
      (function ctx name result arguments : Effect (World σ) FunctionDeclaration) :=
  function_within (inEnvironment_minds _ ctx) (publish_minds ctx)

theorem dropStack_minds (j : Nat) (w : World σ) : w.Minds id (w.dropStack j) :=
  dropStack_within (closeStack_minds j w) fun _ t ht ho =>
    .inr ⟨t, stack?_of_withStack_none ht, ho, rfl, rfl⟩

omit [Session σ] in
/-- A stack after work there. -/
theorem exists_site_of_atStack {e : Effect (Site σ) α} {t : AssertionStack σ} (hw : w.Housed)
    (ht : ((atStack id e).exec w).2.stack? id = some t) :
    ∃ s c, w.stack? id = some s ∧ w.contexts[s.home]? = some c ∧
      ((atStack id e).exec w).1 = (e.exec (w.site c s)).1 ∧ t = (e.exec (w.site c s)).2.stack := by
  cases hs : w.stack? id with
  | none =>
    rw [exec_atStack_none hs, hs] at ht
    cases ht
  | some s =>
    obtain ⟨c, hc⟩ := hw.exists_context hs
    rw [exec_atStack hs hc] at ht ⊢
    rw [stack?_put hs, if_pos rfl] at ht
    exact ⟨s, c, rfl, hc, rfl, (Option.some.inj ht).symm⟩

/-- Where nothing is done at a stack, it minds what it remembers. -/
theorem Move.minds {told : List Incident} (h : Move (.besides id) w told w') : w.Minds id w' := by
  cases h with
  | site hg hs hc h =>
    intro t ht ho
    rw [stack?_put hs, if_neg (Ne.symm hg)] at ht
    exact .inr ⟨t, ht, ho, rfl, rfl⟩
  | context theories counting announced options notifierOf =>
    exact minds_of_stackTable
      (stackTable_addContext w theories counting announced options notifierOf)
  | opened hc hg h interpolating =>
    intro t ht ho
    rw [stack?_opened] at ht
    split at ht
    · cases ht
      exact .inl rfl
    · exact .inr ⟨t, ht, ho, rfl, rfl⟩
  | dropped hg hs hcl =>
    exact fun t ht ho => .inr ⟨t, stack?_of_withStack_none ht, ho, rfl, rfl⟩
  | reacted reason r =>
    intro t ht ho
    obtain ⟨s, hs, rfl | rfl⟩ := stack?_react ht
    · exact .inr ⟨_, hs, ho, rfl, rfl⟩
    · exact .inr ⟨s, hs, ho, rfl, rfl⟩
  | beside hcontexts hstacks | watched hg hsize hstacks => exact minds_of_stackTable hstacks
  | _ => exact minds_of_stackTable rfl

theorem Reaches.minds (h : w.Reaches (.besides id) w') : w.Minds id w' := by
  obtain ⟨told, h⟩ := h
  induction h with
  | refl => exact Std.Refl.refl w
  | tail _ hmove ih => exact ih.trans hmove.minds

end World

namespace Event

variable {σ : Type} [Session σ] {w : World σ} {id : Nat}

/-- A stack asks its session whether what is asserted can be true. -/
def Asks (e : Event σ) (id : Nat) : Prop :=
  e = .atStack id .check ∨ ∃ important, e = .search id important

/-- The session of a stack, which asserts `assertions`, is asked and answers. -/
def Answers (e : Event σ) (w : World σ) (id : Nat) (v : Verdict)
    (assertions : List (Option Nat × Term)) : Prop :=
  e.Asks id ∧ ∃ s c, w.stack? id = some s ∧ w.contexts[s.home]? = some c ∧
    (w.site c s).Finds v ∧ s.levels.assertions = assertions

/-- A pop fails at a stack, and yet what is asserted is not what it was. -/
def Tears (e : Event σ) (w : World σ) (id : Nat) : Prop :=
  ∃ n x w' s t, e = .atStack id (.pop n) ∧
    (World.atStack id (Site.pop n)).exec w = (.error x, w') ∧ w.stack? id = some s ∧
      w'.stack? id = some t ∧ t.levels.assertions ≠ s.levels.assertions

/-- Whatever else happens, a stack minds what it remembers. -/
theorem after_minds (e : Event σ) (hw : w.Housed) (hasks : ¬ e.Asks id)
    (hpop : ∀ n, e ≠ .atStack id (.pop n)) : w.Minds id (e.after w) := by
  have hbesides : e.Allowed (.besides id) → w.Minds id (e.after w) := fun ha =>
    (e.reaches ha hw).minds
  cases e with
  | constant ctx type name =>
    exact Effect.Within.bind (World.constantTerm_minds ctx type name)
      (fun t => World.inEnvironment_minds _ ctx) w
  | function ctx name result arguments => exact World.function_minds ctx name result arguments w
  | atStack j op =>
    refine World.atStack_minds (fun hj => ?_) w
    subst hj
    exact StackOperation.act_minds (fun hop => hasks (.inl (congrArg _ hop)))
      fun n hop => hpop n (congrArg _ hop)
  | search j important =>
    exact World.atStack_minds (fun hj => absurd (.inr ⟨important, congrArg (search · important) hj⟩)
      hasks) w
  | block j negations =>
    exact World.atStack_minds (fun _ => .bind (Site.environment_minds _) fun t =>
      Site.assertTerm_minds t none) w
  | dropStack j => exact World.dropStack_minds j w
  | addWatch | aimWatch => exact World.minds_of_stackTable rfl
  | _ => exact hbesides trivial

theorem exists_asks {e : Event σ} {t : AssertionStack σ} (hw : w.Housed) (he : e.Asks id)
    (ht : (e.after w).stack? id = some t) :
    ∃ s c u, w.stack? id = some s ∧ w.contexts[s.home]? = some c ∧ (w.site c s).Asks u ∧
      u.stack = t := by
  obtain rfl | ⟨important, rfl⟩ := he
  · obtain ⟨s, c, hs, hc, -, rfl⟩ := World.exists_site_of_atStack hw ht
    refine ⟨s, c, (Site.check.exec (w.site c s)).2, hs, hc, Site.check_asks _, ?_⟩
    exact congrArg (fun r => r.2.stack)
      (Effect.exec_bind_pure (Site.check : Effect (Site σ) Bool) (fun _ => ()) _).symm
  · obtain ⟨s, c, hs, hc, -, rfl⟩ := World.exists_site_of_atStack hw ht
    exact ⟨s, c, _, hs, hc, Site.nextModel?_asks important _, rfl⟩

/-- What an open stack remembers after an event: nothing, what it was answered, or what it
remembered before. Then nothing is asserted that was not, and less only after a pop that failed. -/
theorem after_cases (e : Event σ) (hw : w.Housed) {t : AssertionStack σ}
    (ht : (e.after w).stack? id = some t) (ho : t.closed = false) :
    t.last = none ∨ (∃ v, t.last = some v ∧ e.Answers w id v t.levels.assertions) ∨
      ∃ s, w.stack? id = some s ∧ s.closed = false ∧ t.last = s.last ∧
        (∀ v assertions, ¬ e.Answers w id v assertions) ∧
          t.levels.assertions <+: s.levels.assertions ∧
            (t.levels.assertions = s.levels.assertions ∨ e.Tears w id) := by
  by_cases hasks : e.Asks id
  · obtain ⟨s, c, u, hs, hc, hsu, rfl⟩ := exists_asks hw hasks ht
    by_cases hv : ∃ v, (w.site c s).Finds v
    · obtain ⟨v, hv⟩ := hv
      exact .inr (.inl ⟨v, hsu.answered v hv, hasks, s, c, hs, hc, hv, hsu.assertions.symm⟩)
    · refine .inr (.inr ⟨s, hs, hsu.closed.symm.trans ho, hsu.unanswered (not_exists.1 hv),
        fun v assertions hans => ?_, hsu.assertions ▸ List.prefix_rfl, .inl hsu.assertions⟩)
      obtain ⟨-, s', c', hs', hc', hv', -⟩ := hans
      rw [hs] at hs'
      cases hs'
      rw [hc] at hc'
      cases hc'
      exact hv ⟨v, hv'⟩
  by_cases hpop : ∃ n, e = .atStack id (.pop n)
  · obtain ⟨n, rfl⟩ := hpop
    obtain ⟨s, c, hs, hc, hr, rfl⟩ := World.exists_site_of_atStack hw ht
    refine (Site.pop_sheds n (w.site c s)).imp_right fun ⟨hsheds, x, hx⟩ => .inr ?_
    refine ⟨s, hs, hsheds.closed.symm.trans ho, hsheds.last, fun v _ hv => hasks hv.1,
      hsheds.assertions, or_iff_not_imp_left.2 fun hne => ?_⟩
    exact ⟨n, x, _, s, _, rfl, Prod.ext (hr.trans hx) rfl, hs, ht, hne⟩
  · refine (e.after_minds hw hasks (not_exists.1 hpop) t ht ho).imp_right
      fun ⟨s, hs, hst⟩ => .inr ?_
    exact ⟨s, hs, hst.opened, hst.last, fun v _ hv => hasks hv.1,
      hst.assertions ▸ List.prefix_rfl, .inl hst.assertions⟩

end Event

namespace Site

variable {σ : Type} [Session σ]

/-- Interpolants are refused, or asked of the session for what is asserted, as long as the stack
remembers that it cannot be true. -/
theorem interpolants_cases (groups : List (List Nat)) (s : Site σ) :
    (∃ x, (interpolants groups).exec s = (.error x, s)) ∨
      s.stack.last = some .unsat ∧ (interpolants groups).exec s =
        (interpolantsFrom s.stack.levels.assertions (groups.take 1) (groups.drop 1)).exec s := by
  unfold interpolants
  cases ho : s.stack.closed with
  | true => exact .inl ⟨_, Effect.exec_bind_error (exec_ensureOpen_closed ho) _⟩
  | false =>
    rw [Effect.exec_bind_ok (exec_ensureOpen ho), Effect.exec_bind_ok (Effect.exec_look _ _)]
    by_cases hi : s.stack.interpolating = true
    swap
    · rw [if_neg hi]
      exact .inl ⟨_, rfl⟩
    by_cases hl : s.stack.last = some .unsat
    swap
    · rw [if_pos hi, if_pos hl]
      exact .inl ⟨_, rfl⟩
    rw [if_pos hi, if_neg (not_not_intro hl)]
    split
    · exact .inl ⟨_, rfl⟩
    · exact .inr ⟨hl, rfl⟩

end Site

namespace World

variable {σ : Type} [Session σ] {id : Nat} {s : AssertionStack σ}

/-- The last event of a run is one at which the session of a stack answers, and it does not answer
again in what comes `after` it. -/
def LastAnswer (run after : List (Event σ)) (id : Nat) (v : Verdict)
    (assertions : List (Option Nat × Term)) : Prop :=
  (∃ before e, run = before ++ [e] ∧ e.Answers (afterAll before) id v assertions) ∧
    ¬ Happens (fun e w => ∃ v assertions, e.Answers w id v assertions) run after

theorem exists_lastAnswer {events : List (Event σ)} {v : Verdict}
    (hs : (afterAll events).stack? id = some s) (ho : s.closed = false) (hl : s.last = some v) :
    ∃ run after assertions, events = run ++ after ∧ LastAnswer run after id v assertions ∧
      s.levels.assertions <+: assertions ∧
        (s.levels.assertions = assertions ∨ Happens (·.Tears · id) run after) := by
  -- the event that comes last either answers, or leaves the answer that the induction gives
  induction events using List.reverseRecOn generalizing s with
  | nil =>
    rw [stack?_eq_some] at hs
    cases hs
  | append_singleton events last ih =>
    rw [afterAll_concat] at hs
    obtain hnone | ⟨v', hv', hans⟩ | ⟨r, hr, hor, hlast, hno, hprefix, htorn⟩ :=
      last.after_cases (housed_afterAll events) hs ho
    · cases hl.symm.trans hnone
    · cases hl.symm.trans hv'
      exact ⟨events ++ [last], [], _, (List.append_nil _).symm,
        ⟨⟨events, last, rfl, hans⟩, not_happens_nil⟩, List.prefix_rfl, .inl rfl⟩
    · obtain ⟨run, after, assertions, rfl, ⟨hans, hnone⟩, hbefore, hkept⟩ :=
        ih hr hor (hlast.symm.trans hl)
      refine ⟨run, after ++ [last], assertions, List.append_assoc .., ⟨hans, fun h => ?_⟩,
        hprefix.trans hbefore, ?_⟩
      · exact (happens_concat.1 h).elim hnone fun ⟨v', as', h⟩ => hno v' as' h
      · obtain htorn | htorn := htorn
        · rw [htorn]
          exact hkept.imp_right fun h => happens_concat.2 (.inl h)
        · exact .inr (happens_concat.2 (.inr htorn))

/-- What an open stack remembers is the last answer of its session, for which as much or more was
asserted; less is asserted now only where a pop failed since. Interpolants are refused, and nothing
is done, unless the stack remembers that what is asserted cannot be true. -/
theorem answers_remembered {events : List (Event σ)}
    (hs : (afterAll events).stack? id = some s) (ho : s.closed = false) :
    (∀ v, s.last = some v → ∃ run after assertions, events = run ++ after ∧
      LastAnswer run after id v assertions ∧ s.levels.assertions <+: assertions ∧
        (s.levels.assertions = assertions ∨ Happens (·.Tears · id) run after)) ∧
    ∀ groups,
      (∃ x, (atStack id (Site.interpolants groups)).exec (afterAll events) =
        (.error x, afterAll events)) ∨
      s.last = some .unsat ∧
        (atStack id (Site.interpolants groups)).exec (afterAll events) =
          (atStack id (Site.interpolantsFrom s.levels.assertions (groups.take 1)
            (groups.drop 1))).exec (afterAll events) := by
  refine ⟨fun v hl => exists_lastAnswer hs ho hl, fun groups => ?_⟩
  obtain ⟨c, hc⟩ := (housed_afterAll events).exists_context hs
  rw [exec_atStack hs hc, exec_atStack hs hc]
  obtain ⟨x, hx⟩ | ⟨hl, hx⟩ := Site.interpolants_cases groups ((afterAll events).site c s)
  · refine .inl ⟨x, ?_⟩
    rw [hx, put_self hs hc]
  · exact .inr ⟨hl, by rw [hx]; rfl⟩

/-- A constant, asserted in two partitions, which a session says cannot be true; the session then
refuses the second of two pops. -/
def tearing : List (Event ScriptedSolver) :=
  let x : BoolFormula := ⟨⟨⟨0⟩, .boolean, 0, none⟩, rfl⟩
  let script := { (default : Script) with checks := [.unsat], failPop := some 1 }
  [.addContext .everything false false default none, .constant 0 .boolean "x",
    .openStack 0 (.new script) true, .atStack 0 (.assert x (some 1)), .atStack 0 (.push 2),
    .atStack 0 (.assert x (some 0)), .atStack 0 .check, .atStack 0 (.pop 2)]

/-- One of the assertions is gone, and the answer for both is still remembered. -/
theorem answers_remembered_tearing :
    ∃ s, (afterAll tearing).stack? 0 = some s ∧ s.last = some .unsat ∧
      s.levels.assertions = [(some 1, ⟨0⟩)] ∧ ∃ run after assertions, tearing = run ++ after ∧
        LastAnswer run after 0 .unsat assertions ∧ s.levels.assertions <+: assertions ∧
          (s.levels.assertions = assertions ∨ Happens (·.Tears · 0) run after) := by
  have hshape : ((afterAll tearing).stack? 0).map (fun s =>
      (s.closed, s.last, s.levels.assertions)) = some (false, some .unsat, [(some 1, ⟨0⟩)]) := by
    decide +kernel
  obtain ⟨s, hs, h⟩ := Option.map_eq_some_iff.1 hshape
  simp only [Prod.mk.injEq] at h
  obtain ⟨ho, hl, ha⟩ := h
  exact ⟨s, hs, hl, ha, (answers_remembered hs ho).1 .unsat hl⟩

end World

end FormulaStack
