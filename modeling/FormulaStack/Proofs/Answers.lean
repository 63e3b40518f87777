import FormulaStack.Proofs.Operations
import FormulaStack.Proofs.Refinement
import FormulaStack.Proofs.Registers

/-!
Satisfiable answers. As long as a session gives models, all that it asserts is known to be true: a
check says so only then, and whatever changes the assertions ends the model.
-/
namespace FormulaStack

namespace FoldingSolver

/-- If there is a model, all assertions are known to be true. -/
def Confirmed (store : Store) (s : FoldingSolver) : Prop :=
  s.last = some .sat → ∀ t ∈ s.assertions, store.fold false t = some (.truth true)

/-- Work of a session that leaves it confirmed. -/
structure Answers (a b : Store × FoldingSolver) : Prop where
  terms : a.1.Grows b.1
  confirmed : a.1.WellFormed → Confirmed a.1 a.2 → Confirmed b.1 b.2

instance : Std.Refl Answers := ⟨fun _ => ⟨.refl _, fun _ h => h⟩⟩

instance : IsTrans _ Answers := ⟨fun _ _ _ h g =>
  ⟨h.terms.trans g.terms, fun hw hc =>
    g.confirmed (h.terms.wellFormed hw) (h.confirmed hw hc)⟩⟩

theorem Confirmed.mono {store store' : Store} {s s' : FoldingSolver} (h : Confirmed store s)
    (hw : store.WellFormed) (hterms : store.Grows store')
    (hlast : s'.last = some .sat → s.last = some .sat)
    (hassertions : s'.assertions = s.assertions) : Confirmed store' s' := by
  intro hsat t ht
  rw [hassertions] at ht
  exact hterms.fold_eq_some hw (h (hlast hsat) t ht)

theorem answers_of_last {a b : Store × FoldingSolver} (hterms : a.1.Grows b.1)
    (hlast : b.2.last = some .sat → a.2.last = some .sat)
    (hassertions : b.2.assertions = a.2.assertions) : Answers a b :=
  ⟨hterms, fun hw h => h.mono hw hterms hlast hassertions⟩

/-- Without a model there is nothing to confirm. -/
theorem answers_of_none {a b : Store × FoldingSolver} (hterms : a.1.Grows b.1)
    (hlast : b.2.last = none) : Answers a b :=
  ⟨hterms, fun _ _ hsat => by rw [hlast] at hsat; cases hsat⟩

variable {α : Type}

theorem assertions_note (s : FoldingSolver) (ds : List FuncDecl) :
    (s.note ds).assertions = s.assertions := by
  unfold assertions note
  rw [Tower.toList_modifyTop]
  conv_rhs => rw [s.frames.toList_eq]
  simp

theorem build_answers {b : Build α} (hb : b.Grows) :
    Effect.Within Answers (SessionM.build b : SessionM FoldingSolver α) := by
  rintro ⟨store, s⟩
  unfold SessionM.build
  rw [Effect.exec_of]
  dsimp only
  cases h : b store with
  | error f => exact Std.Refl.refl _
  | ok r => exact answers_of_last (hb store r.1 r.2 h) (fun h => h) rfl

theorem declare_answers (symbol : Symbol) : Effect.Within Answers (declare symbol) := by
  rintro ⟨store, s⟩
  rw [exec_declare]
  cases store.declOf symbol with
  | error f => exact Std.Refl.refl _
  | ok d => exact answers_of_last (.refl store) (fun h => h) (assertions_note s [d])

theorem assert_answers (t : Term) : Effect.Within Answers (assert t) := by
  rintro ⟨store, s⟩
  rw [exec_assert]
  cases Build.expect .bool t store with
  | error f => exact Std.Refl.refl _
  | ok r =>
    dsimp only
    cases s.undeclared? (store.symbols t) with
    | some d => exact Std.Refl.refl _
    | none => exact answers_of_none (.refl store) rfl

theorem push_answers : Effect.Within Answers push := fun a => answers_of_none (.refl a.1) rfl

theorem pop_answers : Effect.Within Answers pop := by
  rintro ⟨store, s⟩
  rw [exec_pop]
  cases s.frames.pop? with
  | none => exact Std.Refl.refl _
  | some r => exact answers_of_none (.refl store) rfl

/-- All that is asserted is true if that is the verdict. -/
theorem eq_true_of_verdict {values : List (Option Value)} (h : verdict values = .sat) :
    ∀ v ∈ values, v = some (.truth true) := by
  unfold verdict at h
  split at h
  · cases h
  · split at h
    · next hall => exact fun v hv => eq_of_beq (List.all_eq_true.1 hall v hv)
    · cases h

theorem check_answers : Effect.Within Answers check := by
  rintro ⟨store, s⟩
  rw [exec_check]
  split
  · exact answers_of_last (.refl store) (fun h => by cases h) rfl
  · refine ⟨.refl store, fun _ _ hsat t ht => ?_⟩
    exact eq_true_of_verdict (Option.some.inj hsat) _ (List.mem_map_of_mem ht)

/-- What a check answers is what the session remembers of it. -/
theorem last_check {a b : Store × FoldingSolver} {v : Verdict}
    (h : check.exec a = (.ok v, b)) : b.2.last = some v := by
  obtain ⟨store, s⟩ := a
  rw [exec_check] at h
  split at h <;> cases h <;> rfl

theorem modelAvailable_answers : Effect.Within Answers modelAvailable := by
  refine .bind (.look _) fun s => ?_
  split
  · exact .throw _
  · exact .pure _

theorem eval_answers (complete : Bool) (t : Term) :
    Effect.Within Answers (eval complete t) := by
  refine .bind modelAvailable_answers fun _ => .bind (.ask _) fun sort => ?_
  refine .bind (.look _) fun v => ?_
  split
  · exact .bind (build_answers (literal_grows _ _)) fun _ => .pure _
  · exact .pure _

theorem assignment?_answers (d : FuncDecl) : Effect.Within Answers (assignment? d) := by
  refine .bind (.ask _) fun f => ?_
  split
  · exact .pure _
  · refine .bind (build_answers (.apply d [])) fun t => ?_
    split
    · exact .bind (build_answers (literal_grows _ _)) fun _ => .pure _
    · exact .pure _

theorem assignments_answers : Effect.Within Answers assignments :=
  .bind modelAvailable_answers fun _ => .bind (.look _) fun _ =>
    .bind (.mapM assignment?_answers _) fun _ => .pure _

theorem abbreviate_answers (ts : List Term) :
    Effect.Within Answers (Session.abbreviate ts : SessionM FoldingSolver Unit) :=
  fun a => answers_of_last (.refl a.1) (fun h => h) rfl

theorem shutdown_answers : Effect.Within Answers (Session.shutdown : SessionM FoldingSolver Unit) :=
  fun a => answers_of_none (.refl a.1) rfl

end FoldingSolver

namespace Site

variable {α : Type}

/-- Work at a stack that leaves its environment in order and its session confirmed. -/
structure Evolves (s t : Site FoldingSolver) : Prop where
  env : s.env.Evolves t.env
  home : t.stack.home = s.stack.home
  confirmed : s.env.terms.WellFormed →
    FoldingSolver.Confirmed s.env.terms s.stack.session →
    FoldingSolver.Confirmed t.env.terms t.stack.session

instance : Std.Refl Evolves := ⟨fun s => ⟨Std.Refl.refl s.env, rfl, fun _ h => h⟩⟩

instance : IsTrans _ Evolves := ⟨fun _ _ _ h g =>
  ⟨Trans.trans h.env g.env, g.home.trans h.home, fun hw hc =>
    g.confirmed (h.env.terms.wellFormed hw) (h.confirmed hw hc)⟩⟩

theorem native_evolves {e : SessionM FoldingSolver α}
    (he : Effect.Within FoldingSolver.Answers e) : Effect.Within Evolves (native e) :=
  .on he fun s _ h => ⟨Environment.evolves_terms h.terms s.env.handles s.env.observers, rfl,
    h.confirmed⟩

theorem inEnvironment_evolves {e : Effect Environment α}
    (he : Effect.Within Environment.Evolves e) : Effect.Within Evolves (inEnvironment e) :=
  .on he fun _ _ h => ⟨h, rfl, fun hw hc => hc.mono hw h.terms (fun h => h) rfl⟩

/-- What a stack notes for itself. -/
theorem updateStack_evolves {f : AssertionStack FoldingSolver → AssertionStack FoldingSolver}
    (hhome : ∀ s, (f s).home = s.home) (hsession : ∀ s, (f s).session = s.session) :
    Effect.Within Evolves (updateStack f) := by
  intro s
  refine ⟨Std.Refl.refl s.env, hhome s.stack, fun _ hc => ?_⟩
  change FoldingSolver.Confirmed s.env.terms (f s.stack).session
  rwa [hsession]

theorem ensureOpen_evolves : Effect.Within Evolves ensureOpen := by
  refine .bind (.look _) fun closed => ?_
  split
  · exact .throw _
  · exact .pure _

theorem ensureRunning_evolves : Effect.Within Evolves ensureRunning := by
  refine .bind (.look _) fun reason => ?_
  split
  · exact .throw _
  · exact .pure _

theorem releaseAll_evolves (as : List (Option Nat × Term)) :
    Effect.Within Evolves (releaseAll as) :=
  .forM (fun _ => inEnvironment_evolves fun _ => Environment.evolves_handles _) as

theorem declare_evolves (symbol : Symbol) : Effect.Within Evolves (declare symbol) :=
  .bind (native_evolves (FoldingSolver.declare_answers symbol)) fun _ =>
    updateStack_evolves (fun _ => rfl) fun _ => rfl

theorem symbolRequested_evolves (symbol : Symbol) :
    Effect.Within Evolves (symbolRequested symbol) := by
  refine .bind (.look _) fun closed => ?_
  split
  · exact .pure _
  · exact declare_evolves symbol

theorem pushLevels_evolves : ∀ n, Effect.Within Evolves (pushLevels n)
  | 0 => .pure _
  | n + 1 => .bind (native_evolves FoldingSolver.push_answers) fun _ =>
    .bind (updateStack_evolves (fun _ => rfl) fun _ => rfl) fun _ => pushLevels_evolves n

theorem popLevel_evolves : Effect.Within Evolves popLevel := by
  refine .bind (native_evolves FoldingSolver.pop_answers) fun _ => .bind (.look _) fun levels => ?_
  split
  · exact .throw _
  · refine .bind (updateStack_evolves (fun _ => rfl) fun _ => rfl) fun _ => .bind (.look _)
      fun stack => ?_
    split
    · exact .bind (.forM (fun symbol => native_evolves (FoldingSolver.declare_answers symbol)) _)
        fun _ => .bind (updateStack_evolves (fun _ => rfl) fun _ => rfl) fun _ => .pure _
    · exact .pure _

theorem popLevels_evolves : ∀ n, Effect.Within Evolves (popLevels n)
  | 0 => .pure _
  | n + 1 => .bind popLevel_evolves fun as => .bind (releaseAll_evolves as) fun _ =>
    popLevels_evolves n

theorem pop_evolves (n : Nat) : Effect.Within Evolves (pop n) := by
  have hpop : Effect.Within Evolves (do
      popLevels n
      updateStack fun s : AssertionStack FoldingSolver => { s with last := none }) :=
    .bind (popLevels_evolves n) fun _ => updateStack_evolves (fun _ => rfl) fun _ => rfl
  refine .bind ensureOpen_evolves fun _ => .bind (.look _) fun depth => ?_
  split
  · exact .bind (.throw _) fun _ => hpop
  · exact hpop

theorem assertTerm_evolves (t : Term) (p : Option Nat) :
    Effect.Within Evolves (assertTerm t p) :=
  .bind (native_evolves (FoldingSolver.assert_answers t)) fun _ =>
    .bind (inEnvironment_evolves fun _ => Environment.evolves_handles _) fun _ =>
      updateStack_evolves (fun _ => rfl) fun _ => rfl

theorem check_evolves : Effect.Within Evolves check := by
  refine .bind ensureOpen_evolves fun _ => .bind ensureRunning_evolves fun _ =>
    .bind (native_evolves FoldingSolver.check_answers) fun v =>
      .bind (updateStack_evolves (fun _ => rfl) fun _ => rfl) fun _ => ?_
  cases v with
  | sat | unsat => exact .pure _
  | unknown => exact .bind (.look _) fun _ => .bind ensureRunning_evolves fun _ => .throw _

theorem push_evolves (n : Nat) : Effect.Within Evolves (push n) :=
  .bind ensureOpen_evolves fun _ => .bind (pushLevels_evolves n) fun _ =>
    updateStack_evolves (fun _ => rfl) fun _ => rfl

theorem addSymbol_evolves (symbol : Symbol) : Effect.Within Evolves (addSymbol symbol) :=
  .bind ensureOpen_evolves fun _ => declare_evolves symbol

theorem assert_evolves (f : BoolFormula) (p : Option Nat) :
    Effect.Within Evolves (assert f p) :=
  assert_within (fun s _ => ⟨Std.Refl.refl s.env, rfl, fun _ h => h⟩)
    (fun ts => native_evolves (FoldingSolver.abbreviate_answers ts))
    (fun t => assertTerm_evolves t p) f

theorem interpolantsFrom_evolves (as : List (Option Nat × Term)) (before groups : List (List Nat)) :
    Effect.Within Evolves (interpolantsFrom as before groups) := by
  induction groups generalizing before with
  | nil => exact .pure _
  | cons group groups ih =>
    refine .bind ensureRunning_evolves fun _ =>
      .bind (native_evolves (.throw _)) fun t =>
        .bind (inEnvironment_evolves (Environment.wrapBool_evolves t)) fun f =>
          .bind (.undoing (ih _) fun s => ?_) fun _ => .pure _
    exact inEnvironment_evolves (e := .update (Environment.discard f.formula))
      (.update (Environment.evolves_discard f.formula)) s

theorem interpolants_evolves (groups : List (List Nat)) :
    Effect.Within Evolves (interpolants groups) := by
  refine .bind ensureOpen_evolves fun _ => .bind (.look _) fun stack => ?_
  dsimp only
  split
  · split
    · exact fun s => Std.Refl.refl s
    · split
      · exact fun s => Std.Refl.refl s
      · exact interpolantsFrom_evolves _ _ _
  · exact fun s => Std.Refl.refl s

theorem model_evolves : Effect.Within Evolves model :=
  .bind ensureOpen_evolves fun _ => .bind (native_evolves FoldingSolver.assignments_answers)
    fun pairs => inEnvironment_evolves (Model.ofPairs_evolves pairs)

theorem evaluate_evolves (f : Formula) : Effect.Within Evolves (evaluate f) := by
  refine .bind ensureOpen_evolves fun _ => .bind (inEnvironment_evolves (.ask _)) fun t =>
    .bind (native_evolves (FoldingSolver.eval_answers true t)) fun value => ?_
  split
  · exact .bind (inEnvironment_evolves (Environment.wrap_evolves _ _)) fun _ => .pure _
  · exact .pure _

theorem literal_evolves (f : BoolFormula) (t : Term) : Effect.Within Evolves (literal f t) := by
  have hnegated : Effect.Within Evolves
      (inEnvironment (Environment.build (Build.not t)) : Effect (Site FoldingSolver) Term) :=
    inEnvironment_evolves (Environment.build_evolves (.not t))
  refine .bind (native_evolves (FoldingSolver.eval_answers true t)) fun value => ?_
  split
  case' h_1 => refine .bind (.ask _) fun constant => .bind hnegated fun negated => ?_
  case' h_2 => refine .bind (.pure none) fun constant => .bind hnegated fun negated => ?_
  all_goals
    split
    · exact .bind (inEnvironment_evolves (.bind (.update (Environment.evolves_retain f.formula))
        fun _ => .pure _)) fun _ => .pure _
    · exact .bind (inEnvironment_evolves (Environment.wrapBool_evolves negated)) fun _ => .pure _
    · exact .bind (.ask _) fun _ => .throw _

theorem literals_evolves : ∀ important, Effect.Within Evolves (literals important)
  | [] => .pure _
  | (f, t) :: rest => by
    refine .bind (literal_evolves f t) fun l =>
      .bind (.undoing (literals_evolves rest) fun s => ?_) fun _ => .pure _
    exact inEnvironment_evolves (e := .update (Environment.discard l.1.formula))
      (.update (Environment.evolves_discard l.1.formula)) s

theorem nextModel?_evolves (important : List (BoolFormula × Term)) :
    Effect.Within Evolves (nextModel? important) := by
  refine .bind ensureRunning_evolves fun _ => .bind check_evolves fun sat => ?_
  split
  · exact .bind (literals_evolves important) fun _ => .pure _
  · exact .pure _

theorem close_evolves : Effect.Within Evolves close := by
  have hdetach : ∀ s : Site FoldingSolver, s.Evolves
      { s with
        env := { s.env with observers := s.env.observers.filter (· ≠ .stack s.stack.id) }
        notifier := (s.notifier.unregister s.stack.listener).2
        stack := { s.stack with closed := true, last := none } } :=
    fun s => ⟨Environment.evolves_terms (.refl _) _ _, rfl, fun _ h => h⟩
  refine .bind ensureOpen_evolves fun _ => .bind (.update hdetach) fun _ =>
    .bind (.look _) fun s => .bind (.attempt ?_) fun outcome => .bind (.look _) fun t =>
      .bind (updateStack_evolves (fun _ => rfl) fun _ => rfl) fun _ =>
        .bind (releaseAll_evolves _) fun _ => ?_
  · split
    · exact native_evolves FoldingSolver.shutdown_answers
    · exact popLevels_evolves _
  · cases outcome with
    | ok => exact .pure _
    | error x => exact .throw x

theorem block_evolves (negations : List Term) : Effect.Within Evolves (block negations) :=
  .bind (inEnvironment_evolves (Environment.build_evolves (.or negations))) fun t =>
    assertTerm_evolves t none

/-- Whatever a client does at a stack. -/
theorem perform_evolves (op : StackOperation) : Effect.Within Evolves op.perform := by
  cases op with
  | push n => exact .bind (push_evolves n) fun _ => .pure _
  | pop n => exact .bind (pop_evolves n) fun _ => .pure _
  | assert f p => exact .bind (assert_evolves f p) fun _ => .pure _
  | addSymbol symbol => exact .bind (addSymbol_evolves symbol) fun _ => .pure _
  | check => exact .bind check_evolves fun _ => .pure _
  | model => exact .bind model_evolves fun _ => .pure _
  | evaluate f => exact .bind (evaluate_evolves f) fun _ => .pure _
  | interpolants groups => exact .bind (interpolants_evolves groups) fun _ => .pure _
  | close => exact .bind close_evolves fun _ => .pure _

end Site
end FormulaStack
