import FormulaStack.Proofs.Folding
import FormulaStack.Proofs.Sites

/-!
What is asked of a stack. Questions leave levels and frames alone; wrappers that they return are
new. An answer to a check is what the folded assertions say together.
-/
namespace FormulaStack

namespace Effect

variable {S ρ α : Type}

/-- What is at hand beside resources that are lent. -/
def Lent (At : S → Multiset ρ → Prop) (lent : Multiset ρ) (s : S) (held : Multiset ρ) : Prop :=
  At s (lent + held)

theorem Owns.lend {At : S → Multiset ρ → Prop} {pre : Multiset ρ} {post : α → Multiset ρ}
    {e : Effect S α} (he : Owns At pre e post) (lent : Multiset ρ) :
    Owns (Lent At lent) pre e post := by
  intro s held h
  have hs := he s (lent + held) (by rwa [Lent, add_left_comm] at h)
  rcases hx : e.exec s with ⟨x | a, t⟩ <;> rw [hx] at hs
  · exact hs
  · change At t (lent + (post a + held))
    rw [add_left_comm]
    exact hs

end Effect

namespace Environment

variable {env₀ : Environment} {recorded : Multiset Term}

/-- A copy of a formula that is at hand. -/
theorem copy_owns {f : BoolFormula} {lent : Multiset Formula} (hf : f.formula ∈ lent) :
    Effect.Owns (Effect.Lent (At env₀ recorded) lent) 0 f.copy fun g => {g.formula} := by
  intro env held h
  rw [zero_add] at h
  have hmem : f.formula ∈ lent + held := Multiset.mem_add.2 (.inl hf)
  have ho : f.formula.owner = env.id := by
    rw [h.id]
    exact h.owned _ hmem
  have ha := h.accounts.retain hmem
  change At env₀ recorded (env.retain f.formula) (lent + ({f.formula} + held))
  rw [Multiset.singleton_add, Multiset.add_cons]
  rw [retain, if_pos ho] at ha ⊢
  refine h.of_accounts (fun g hg => ?_) ha
  obtain rfl | hg := Multiset.mem_cons.1 hg
  · exact h.owned _ hmem
  · exact h.owned g hg

end Environment

namespace Site

variable {α : Type} {s t u s₀ : Site FoldingSolver} {held lent : Multiset Formula}
  {others : Multiset Term} {history : History}

/-- Work that leaves levels, frames and wrappers alone. -/
structure Quiet (s t : Site FoldingSolver) : Prop where
  env : t.env = { s.env with terms := t.env.terms }
  stack : t.stack = { s.stack with session := t.stack.session, last := t.stack.last }
  terms : s.env.terms.Grows t.env.terms
  frames : t.stack.session.frames = s.stack.session.frames

instance : Std.Refl Quiet := ⟨fun _ => ⟨rfl, rfl, .refl _, rfl⟩⟩

instance : IsTrans _ Quiet := ⟨fun s t u h g => by
  refine ⟨?_, ?_, h.terms.trans g.terms, g.frames.trans h.frames⟩
  · rw [g.env, h.env]
  · rw [g.stack, h.stack]⟩

namespace Quiet

theorem keeps (h : s.Quiet t) : s.Keeps t := by
  have hclosed : t.stack.closed = s.stack.closed := by rw [h.stack]
  have hobservers : t.env.observers = s.env.observers := by rw [h.env]
  refine ⟨?_, h.terms.extension, fun o ho => hobservers ▸ ho, fun o ho _ => hobservers ▸ ho,
    fun ho => ⟨hclosed ▸ ho, hobservers⟩, ?_, ?_, ?_, fun _ _ d hd => ?_⟩
  · rw [h.env]
  · rw [h.stack]
  · rw [h.stack]
  · rw [h.stack]
  · rw [FoldingSolver.isDeclared, h.frames]
    exact hd

theorem sound (h : s.Quiet t) (hs : s.Sound held others history) :
    t.Sound held others history := by
  have hclosed : t.stack.closed = s.stack.closed := by rw [h.stack]
  have hlevels : t.stack.levels = s.stack.levels := by rw [h.stack]
  have haccounts : ∀ recorded, s.env.Accounts held recorded → t.env.Accounts held recorded := by
    intro recorded ha
    rw [h.env]
    exact ⟨ha.serves, ha.balanced⟩
  refine ⟨h.terms.wellFormed hs.wellFormed, fun ho => ?_,
    fun hc => haccounts _ (hs.closed (hclosed ▸ hc))⟩
  obtain ⟨hcore, hleads⟩ := hs.opened (hclosed ▸ ho)
  rw [hlevels]
  refine ⟨⟨h.terms.wellFormed hs.wellFormed, ?_, ?_⟩, hleads⟩
  · rw [hlevels, h.frames]
    exact hcore.mirrors.mono h.terms.extension
  · rw [hlevels]
    exact haccounts _ hcore.accounts

end Quiet

theorem quiet_native {e : SessionM FoldingSolver α} (he : Effect.Within FoldingSolver.Quiet e) :
    Effect.Within Quiet (native e) := by
  intro s
  obtain ⟨hterms, hframes⟩ := he (s.env.terms, s.stack.session)
  exact ⟨rfl, rfl, hterms, hframes⟩

theorem quiet_last (last : Option Verdict) :
    Effect.Within Quiet (updateStack fun s : AssertionStack FoldingSolver => { s with last }) :=
  fun _ => ⟨rfl, rfl, .refl _, rfl⟩

theorem quiet_ensureOpen : Effect.Within Quiet ensureOpen := by
  refine .bind (.look _) fun closed => ?_
  split
  · exact .throw _
  · exact .pure _

theorem quiet_ensureRunning : Effect.Within Quiet ensureRunning := by
  refine .bind (.look _) fun reason => ?_
  split
  · exact .throw _
  · exact .pure _

theorem quiet_check : Effect.Within Quiet check := by
  refine .bind quiet_ensureOpen fun _ => .bind quiet_ensureRunning fun _ =>
    .bind (quiet_native FoldingSolver.quiet_check) fun v => .bind (quiet_last _) fun _ => ?_
  cases v with
  | sat | unsat => exact .pure _
  | unknown => exact .bind (.look _) fun _ => .bind quiet_ensureRunning fun _ => .throw _

/-! Assertions -/

/-- A site after its session and its stack recorded an assertion. -/
def asserted (s : Site FoldingSolver) (t : Term) (p : Option Nat) : Site FoldingSolver :=
  { s with
    env := { s.env with handles := s.env.handles.hold t }
    stack := { s.stack with
      session := s.stack.session.record t
      levels := s.stack.levels.modifyTop fun l => { l with assertions := l.assertions ++ [(p, t)] }
      last := none } }

theorem exec_assertTerm (x : Term) (p : Option Nat) :
    (assertTerm x p).exec s =
      match Build.expect .bool x s.env.terms with
      | .error f => (.error f, s)
      | .ok _ =>
        match s.stack.session.undeclared? (s.env.terms.symbols x) with
        | some d => (.error (.solver (.undeclared (s.env.terms.declName d))), s)
        | none => (.ok (), s.asserted x p) := by
  have ha : (Session.assert x : SessionM FoldingSolver Unit).exec
      (s.env.terms, s.stack.session) = _ := FoldingSolver.exec_assert x
  unfold assertTerm
  rw [Effect.exec_bind, exec_native, ha]
  cases Build.expect .bool x s.env.terms with
  | error f => rfl
  | ok r =>
    dsimp only
    cases s.stack.session.undeclared? (s.env.terms.symbols x) <;> rfl

theorem keeps_asserted (x : Term) (p : Option Nat) : s.Keeps (s.asserted x p) :=
  .of_session (.refl _) fun _ _ hd => FoldingSolver.isDeclared_record.2 hd

theorem sound_asserted {x : Term} (p : Option Nat) (h : s.Sound held others history)
    (ho : s.stack.closed = false) (hx : s.env.terms.sort? x = some .bool) :
    (s.asserted x p).Sound held others (history ++ [⟨history.depth, some x⟩]) := by
  obtain ⟨hc, hl⟩ := h.opened ho
  refine ⟨h.wellFormed, fun _ => ⟨⟨h.wellFormed, hc.mirrors.record hx p, ?_⟩, ?_⟩, fun hcl => ?_⟩
  · have hterms : ((s.asserted x p).stack.levels.terms : Multiset Term) + others =
        x ::ₘ ((s.stack.levels.terms : Multiset Term) + others) := by
      rw [asserted, Tower.terms_assert, ← Multiset.coe_add, add_right_comm, Multiset.coe_singleton,
        add_comm, Multiset.singleton_add]
    rw [hterms]
    exact hc.accounts.hold
  · rw [hl.depth]
    exact hl.assert p x
  · rw [show (s.asserted x p).stack.closed = s.stack.closed from rfl, ho] at hcl
    cases hcl

/-- What an attempt to assert a term leads to. -/
structure Asserts (s : Site FoldingSolver) (held : Multiset Formula) (others : Multiset Term)
    (history : History) (x : Term) (outcome : Except Fault Unit × Site FoldingSolver) : Prop where
  keeps : s.Keeps outcome.2
  ok : outcome.1 = .ok () →
    outcome.2.Sound held others (history ++ [⟨history.depth, some x⟩])
  error : outcome.1 ≠ .ok () → outcome.2.Sound held others history
  /-- Only a symbol that is not declared is unknown. -/
  undeclared : ∀ name, outcome.1 = .error (.solver (.undeclared name)) →
    ∃ d ∈ s.env.terms.symbols x, s.stack.session.isDeclared d = false

theorem undeclared?_eq_some {session : FoldingSolver} {ds : List FuncDecl} {d : FuncDecl}
    (h : session.undeclared? ds = some d) : d ∈ ds ∧ session.isDeclared d = false := by
  have hm := (List.mergeSort_perm _ _).mem_iff.1 (List.mem_of_mem_head? h)
  simpa using List.mem_filter.1 hm

theorem expect_ne_solver {k : TermSort} {x : Term} {store : Store} {which : SolverFault} :
    Build.expect k x store ≠ .error (.solver which) := by
  intro h
  simp only [Build.expect, Build.sort, Build.ofExcept, Store.sort, Store.node, bind, StateT.bind,
    Except.bind] at h
  cases hn : store.node? x with
  | none => simp [hn, Except.map] at h
  | some n =>
    simp only [hn, Except.map] at h
    split at h <;> cases h

theorem assertTerm_asserts (x : Term) (p : Option Nat) (h : s.Sound held others history)
    (ho : s.stack.closed = false) : s.Asserts held others history x ((assertTerm x p).exec s) := by
  rw [exec_assertTerm]
  cases he : Build.expect .bool x s.env.terms with
  | error f =>
    refine ⟨.refl s, fun hok => ?_, fun _ => h, fun name hname => ?_⟩
    · cases hok
    · cases hname
      exact absurd he expect_ne_solver
  | ok r =>
    obtain ⟨hx, -⟩ := Build.expect_eq_ok.1 he
    dsimp only
    cases hu : s.stack.session.undeclared? (s.env.terms.symbols x) with
    | some d =>
      refine ⟨.refl s, fun hok => ?_, fun _ => h, fun _ _ => ⟨d, undeclared?_eq_some hu⟩⟩
      cases hok
    | none =>
      refine ⟨keeps_asserted x p, fun _ => sound_asserted p h ho hx, fun hne => absurd rfl hne,
        fun _ hname => ?_⟩
      cases hname

/-- A site after what precedes an assertion. -/
def logged (s : Site FoldingSolver) (queries : List String) (abbreviations : List Term) :
    Site FoldingSolver :=
  { s with
    queries
    stack := { s.stack with session := { s.stack.session with abbreviations } } }

theorem quiet_logged (queries : List String) (abbreviations : List Term) :
    s.Quiet (s.logged queries abbreviations) := ⟨rfl, rfl, .refl _, rfl⟩

theorem exec_unwrap (f : BoolFormula) :
    (inEnvironment f.unwrap).exec s =
      if f.formula.owner = s.env.id then (.ok f.term, s) else (.error .foreign, s) := by
  change ((s.env.unwrap f.formula : Except Fault Term), s) = _
  unfold Environment.unwrap
  split <;> rfl

/-- Taking note of shared subterms, and then asserting. -/
theorem exec_abbreviate (x : Term) (p : Option Nat) (queries : List String) :
    (do
      let shared ← Effect.look (·.env.sharedSubterms s.stack.abbreviationAtoms x)
      unless shared.isEmpty do native (Session.abbreviate shared)
      assertTerm x p : Effect (Site FoldingSolver) Unit).exec { s with queries } =
    (assertTerm x p).exec (s.logged queries
      (s.stack.session.abbreviations ++ s.env.sharedSubterms s.stack.abbreviationAtoms x)) := by
  rw [Effect.exec_bind_ok (Effect.exec_look _ _)]
  dsimp only
  split
  · next hnone =>
    rw [List.isEmpty_iff.1 hnone, List.append_nil]
    rfl
  · exact Effect.exec_bind_ok rfl _

theorem exec_assert (f : BoolFormula) (p : Option Nat) (ho : s.stack.closed = false) :
    ∃ queries abbreviations,
      (assert f p).exec s = (assertTerm f.term p).exec (s.logged queries abbreviations) ∨
      ∃ x : Fault, (∀ which, x ≠ .solver which) ∧
        (assert f p).exec s = (.error x, s.logged queries abbreviations) := by
  unfold assert
  rw [Effect.exec_bind_ok (exec_ensureOpen ho), Effect.exec_bind, exec_unwrap]
  by_cases hf : f.formula.owner = s.env.id
  · rw [if_pos hf]
    dsimp only
    rw [Effect.exec_bind_ok (Effect.exec_look _ _)]
    by_cases hl : s.stack.logging = true
    · rw [if_pos hl, Effect.exec_bind, Effect.exec_ask]
      cases hd : s.env.terms.dump f.term with
      | error x =>
        refine ⟨s.queries, s.stack.session.abbreviations, .inr ⟨x, fun which hx => ?_, rfl⟩⟩
        unfold Store.dump at hd
        split at hd <;> cases hd
        cases hx
      | ok text =>
        exact ⟨_, _, .inl (exec_abbreviate f.term p (s.queries ++ [s!"(assert {text})"]))⟩
    · rw [if_neg hl]
      exact ⟨_, _, .inl (exec_abbreviate f.term p s.queries)⟩
  · refine ⟨s.queries, s.stack.session.abbreviations, .inr ⟨.foreign, nofun, ?_⟩⟩
    rw [if_neg hf]
    rfl

theorem assert_asserts (f : BoolFormula) (p : Option Nat) (h : s.Sound held others history)
    (ho : s.stack.closed = false) :
    s.Asserts held others history f.term ((assert f p).exec s) := by
  obtain ⟨queries, abbreviations, hx | ⟨x, hne, hx⟩⟩ := exec_assert f p ho
  · rw [hx]
    have hq := s.quiet_logged queries abbreviations
    have ha := assertTerm_asserts f.term p (hq.sound h) ho
    exact ⟨hq.keeps.trans ha.keeps, ha.ok, ha.error, ha.undeclared⟩
  · rw [hx]
    have hq := s.quiet_logged queries abbreviations
    refine ⟨hq.keeps, fun hok => ?_, fun _ => hq.sound h, fun name hname => ?_⟩
    · cases hok
    · exact absurd (Except.error.inj hname) (hne _)

/-! Checks -/

/-- How a stack reports what its session found. -/
def answer : Verdict → Except Fault Bool
  | .sat => .ok true
  | .unsat => .ok false
  | .unknown => .error (.solver (.inconclusive "incomplete"))

theorem exec_ensureRunning {σ : Type} (s : Site σ) :
    ensureRunning.exec s =
      match s.notifier.reason with
      | some reason => (.error (.interrupted reason), s)
      | none => (.ok (), s) := by
  unfold ensureRunning
  rw [Effect.exec_bind_ok (Effect.exec_look _ _)]
  cases s.notifier.reason <;> rfl

theorem exec_check (ho : s.stack.closed = false) (hr : s.notifier.reason = none) :
    (check.exec s).1 =
      if s.stack.session.interrupted then .error (.solver (.inconclusive "canceled"))
      else answer (FoldingSolver.verdict
        (s.stack.session.assertions.map (s.env.terms.fold false))) := by
  have hc : (Session.check : SessionM FoldingSolver Verdict).exec (s.env.terms, s.stack.session) =
      _ := FoldingSolver.exec_check
  unfold check
  rw [Effect.exec_bind_ok (exec_ensureOpen ho), Effect.exec_bind, exec_ensureRunning, hr]
  dsimp only
  rw [Effect.exec_bind, exec_native, hc]
  by_cases hi : s.stack.session.interrupted = true
  · rw [if_pos hi, if_pos hi]
    dsimp only
    rw [Effect.exec_bind_ok (exec_updateStack _ _)]
    dsimp only
    rw [Effect.exec_bind_ok (Effect.exec_look _ _), Effect.exec_bind, exec_ensureRunning]
    dsimp only
    rw [hr]
    rfl
  · rw [if_neg hi, if_neg hi]
    dsimp only
    rw [Effect.exec_bind_ok (exec_updateStack _ _)]
    cases FoldingSolver.verdict (s.stack.session.assertions.map (s.env.terms.fold false)) with
    | sat | unsat => rfl
    | unknown =>
      dsimp only
      rw [Effect.exec_bind_ok (Effect.exec_look _ _), Effect.exec_bind, exec_ensureRunning]
      dsimp only
      rw [hr]
      rfl

/-- A conclusive check is one of an open stack that was not interrupted. -/
theorem check_eq_ok {b : Bool} (h : (check.exec s).1 = .ok b) :
    s.stack.closed = false ∧
      FoldingSolver.verdict (s.stack.session.assertions.map (s.env.terms.fold false)) =
        if b then .sat else .unsat := by
  have ho : s.stack.closed = false := by
    by_contra hc
    unfold check at h
    rw [Effect.exec_bind_error (exec_ensureOpen_closed (by simpa using hc))] at h
    cases h
  have hr : s.notifier.reason = none := by
    cases hr : s.notifier.reason with
    | none => rfl
    | some reason =>
      unfold check at h
      rw [Effect.exec_bind_ok (exec_ensureOpen ho), Effect.exec_bind, exec_ensureRunning, hr] at h
      cases h
  rw [exec_check ho hr] at h
  split at h
  · cases h
  · refine ⟨ho, ?_⟩
    cases hv : FoldingSolver.verdict (s.stack.session.assertions.map (s.env.terms.fold false)) <;>
      rw [hv] at h <;> cases h <;> rfl

/-! Questions -/

/-- A site that came from `s₀`, at which `held` are the wrappers in use. -/
structure At (s₀ : Site FoldingSolver) (others : Multiset Term) (history : History)
    (s : Site FoldingSolver) (held : Multiset Formula) : Prop where
  keeps : s₀.Keeps s
  closed : s.stack.closed = s₀.stack.closed
  owned : ∀ f ∈ held, f.owner = s.env.id
  sound : s.Sound held others history

theorem At.quiet (h : At s₀ others history s held) (hq : s.Quiet t) :
    At s₀ others history t held := by
  refine ⟨h.keeps.trans hq.keeps, ?_, fun f hf => ?_, hq.sound h.sound⟩
  · rw [hq.stack]
    exact h.closed
  · rw [hq.env]
    exact h.owned f hf

theorem quiet_owns {e : Effect (Site FoldingSolver) α} (he : Effect.Within Quiet e) :
    Effect.Owns (Effect.Lent (At s₀ others history) lent) 0 e fun _ => 0 := by
  intro s held h
  have hq := he s
  rcases hx : e.exec s with ⟨x | a, t⟩ <;> rw [hx] at hq
  · rw [zero_add] at h
    exact At.quiet h hq
  · exact At.quiet h hq

/-- What a stack and the others keep. -/
def recorded (s : Site FoldingSolver) (others : Multiset Term) : Multiset Term :=
  if s.stack.closed then others else (s.stack.levels.terms : Multiset Term) + others

theorem Sound.accounts (h : s.Sound held others history) :
    s.env.Accounts held (s.recorded others) := by
  unfold recorded
  cases ho : s.stack.closed with
  | false => exact (h.opened ho).1.accounts
  | true => exact h.closed ho

/-- A change of the environment alone. -/
theorem At.environment {env : Environment} (h : At s₀ others history s lent)
    (he : Environment.At s.env (s.recorded others) env held) :
    At s₀ others history { s with env } held := by
  have hrest := he.follows.rest
  have hobservers : env.observers = s.env.observers := by rw [hrest]
  constructor
  · refine h.keeps.trans ⟨?_, he.follows.terms, fun o ho => hobservers ▸ ho,
      fun o ho _ => hobservers ▸ ho, fun ho => ⟨ho, hobservers⟩, rfl, rfl, rfl,
      fun _ _ _ hd => hd⟩
    rw [hrest]
  · exact h.closed
  · intro f hf
    rw [hrest]
    exact he.owned f hf
  · have ha := he.accounts
    unfold recorded at ha
    refine ⟨he.wellFormed, fun ho => ?_, fun hc => ?_⟩
    · obtain ⟨hcore, hleads⟩ := h.sound.opened ho
      have ho' : s.stack.closed = false := ho
      rw [ho'] at ha
      exact ⟨⟨he.wellFormed, hcore.mirrors.mono he.follows.terms, ha⟩, hleads⟩
    · have hc' : s.stack.closed = true := hc
      rw [hc'] at ha
      exact ha

theorem inEnvironment_owns {pre : Multiset Formula} {post : α → Multiset Formula}
    {e : Effect Environment α}
    (he : ∀ env₀ recorded,
      Effect.Owns (Effect.Lent (Environment.At env₀ recorded) lent) pre e post) :
    Effect.Owns (Effect.Lent (At s₀ others history) lent) pre (inEnvironment e) post := by
  refine .on fun s held h => ⟨_, ?_, he s.env (s.recorded others), fun env held' he' => ?_⟩
  · exact ⟨.refl _, h.sound.wellFormed, h.owned, h.sound.accounts⟩
  · exact At.environment h he'

theorem At.discard {f : Formula}
    (h : Effect.Lent (At s₀ others history) lent s ({f} + held)) :
    Effect.Lent (At s₀ others history) lent { s with env := s.env.discard f } held := by
  have hat := h
  rw [Effect.Lent, add_left_comm] at hat
  exact At.environment h
    (Environment.At.discard ⟨.refl _, h.sound.wellFormed, hat.owned, hat.sound.accounts⟩)

theorem ensureOpen_owns : Effect.Owns (Effect.Lent (At s₀ others history) lent) 0 ensureOpen
    fun _ => 0 := quiet_owns quiet_ensureOpen

theorem ensureRunning_owns : Effect.Owns (Effect.Lent (At s₀ others history) lent) 0 ensureRunning
    fun _ => 0 := quiet_owns quiet_ensureRunning

theorem model_owns : Effect.Owns (Effect.Lent (At s₀ others history) lent) 0 model
    fun m => (m.formulas : List Formula) :=
  .bind ensureOpen_owns fun _ =>
    .bind (quiet_owns (quiet_native FoldingSolver.quiet_assignments)) fun pairs =>
      inEnvironment_owns fun _ _ => (Model.ofPairs_owns pairs).lend lent

theorem evaluate_owns (f : Formula) :
    Effect.Owns (Effect.Lent (At s₀ others history) lent) 0 (evaluate f)
      fun g => (g.toList : List Formula) := by
  refine .bind ensureOpen_owns fun _ =>
    .bind (inEnvironment_owns fun _ _ => .ask _) fun t =>
      .bind (quiet_owns (quiet_native (FoldingSolver.quiet_eval true t))) fun value => ?_
  cases value with
  | none => exact .pure _
  | some value =>
    exact .bind (inEnvironment_owns fun _ _ => (Environment.wrap_owns f.type value).lend lent)
      fun g => .pure_of rfl

theorem interpolantsFrom_owns (assertions : List (Option Nat × Term)) :
    ∀ before groups, Effect.Owns (Effect.Lent (At s₀ others history) lent) 0
      (interpolantsFrom assertions before groups)
      fun fs => (fs.map (·.formula) : List Formula)
  | _, [] => .pure _
  | before, group :: groups => by
    refine .bind ensureRunning_owns fun _ =>
      .bind (quiet_owns (quiet_native (FoldingSolver.quiet_interpolate _ _))) fun t =>
        .bind (inEnvironment_owns fun _ _ => (Environment.wrapBool_owns t).lend lent) fun f =>
          .bind (.undoing (interpolantsFrom_owns assertions _ groups) fun _ _ => At.discard)
            fun fs => .pure_of ?_
    rw [add_comm, Multiset.singleton_add, Multiset.cons_coe]
    rfl

theorem interpolants_owns (groups : List (List Nat)) :
    Effect.Owns (Effect.Lent (At s₀ others history) lent) 0 (interpolants groups)
      fun fs => (fs.map (·.formula) : List Formula) := by
  refine .bind ensureOpen_owns fun _ => .bind (.look _) fun stack => ?_
  dsimp only
  split
  · split
    · exact .throw_bind _ _
    · split
      · exact .throw_bind _ _
      · exact interpolantsFrom_owns _ _ _
  · exact .throw_bind _ _

theorem literal_owns {f : BoolFormula} {x : Term} (hf : f.formula ∈ lent) :
    Effect.Owns (Effect.Lent (At s₀ others history) lent) 0 (literal f x)
      fun l => {l.1.formula} := by
  refine .bind (quiet_owns (quiet_native (FoldingSolver.quiet_eval true x))) fun value => ?_
  have hnone : Effect.Owns (Effect.Lent (At s₀ others history) lent) 0
      (pure none : Effect (Site FoldingSolver) (Option ConstantValue)) fun _ => 0 := .pure _
  cases value
  case' none => refine .bind hnone fun value => ?_
  case' some => refine .bind (.ask _) fun value => ?_
  all_goals
    refine .bind (inEnvironment_owns fun _ _ => (Environment.build_owns (.not x)).lend lent)
      fun negated => ?_
    split
    · exact .bind (inEnvironment_owns fun _ _ => Environment.copy_owns hf) fun g => .pure_of rfl
    · exact .bind (inEnvironment_owns fun _ _ => (Environment.wrapBool_owns negated).lend lent)
        fun g => .pure_of rfl
    · exact .bind (.ask _) fun _ => .throw _

/-- The formulas of literals. -/
def formulasOf (ls : List (BoolFormula × Term)) : Multiset Formula :=
  (ls.map (·.1.formula) : List Formula)

theorem literals_owns : ∀ {important : List (BoolFormula × Term)},
    (∀ l ∈ important, l.1.formula ∈ lent) →
    Effect.Owns (Effect.Lent (At s₀ others history) lent) 0 (literals important) formulasOf
  | [], _ => .pure _
  | (f, x) :: rest, h => by
    refine .bind (literal_owns (h _ List.mem_cons_self)) fun l =>
      .bind (.undoing (literals_owns fun l hl => h l (List.mem_cons_of_mem _ hl))
        fun _ _ => At.discard) fun ls => .pure_of ?_
    rw [add_comm, Multiset.singleton_add]
    exact Multiset.cons_coe _ _

theorem nextModel?_owns {important : List (BoolFormula × Term)}
    (h : ∀ l ∈ important, l.1.formula ∈ lent) :
    Effect.Owns (Effect.Lent (At s₀ others history) lent) 0 (nextModel? important)
      fun model => formulasOf (model.getD []) := by
  refine .bind ensureRunning_owns fun _ => .bind (quiet_owns quiet_check) fun sat => ?_
  split
  · exact .bind (literals_owns h) fun ls => .pure_of rfl
  · exact .pure _

end Site
end FormulaStack
