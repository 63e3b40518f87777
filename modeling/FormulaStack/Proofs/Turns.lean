import FormulaStack.Proofs.Operations
import Mathlib.Logic.Relation

/-!
What a stack does on any session, turn by turn. A turn that pops a level gives back the references
of its assertions; where a declaration cannot be made again, the level is gone and its references
stay. Whatever an operation is, and however it ends, it is some turns one after the other.
-/
namespace FormulaStack

/-- Steps one after the other, with all that they tell of. -/
inductive Trail {S ι : Type} (step : S → List ι → S → Prop) : S → List ι → S → Prop
  | refl (s : S) : Trail step s [] s
  | tail {s t u : S} {told more : List ι} (h : Trail step s told t) (hstep : step t more u) :
    Trail step s (told ++ more) u

namespace Trail

variable {S ι : Type} {step : S → List ι → S → Prop} {s t u : S} {told more : List ι}

theorem single (h : step s told t) : Trail step s told t := .tail (.refl s) h

theorem trans (h : Trail step s told t) (g : Trail step t more u) :
    Trail step s (told ++ more) u := by
  induction g with
  | refl => rwa [List.append_nil]
  | tail _ hstep ih =>
    rw [← List.append_assoc]
    exact .tail ih hstep

/-- What steps lead to, whatever they tell of. -/
def Leads (step : S → List ι → S → Prop) (s t : S) : Prop := ∃ told, Trail step s told t

instance : Std.Refl (Leads step) := ⟨fun s => ⟨[], .refl s⟩⟩

instance : IsTrans S (Leads step) := ⟨fun _ _ _ ⟨_, h⟩ ⟨_, g⟩ => ⟨_, h.trans g⟩⟩

theorem Leads.single (h : step s told t) : Leads step s t := ⟨told, .single h⟩

theorem Leads.trans (h : Leads step s t) (g : Leads step t u) : Leads step s u := Trans.trans h g

/-- What steps lead to that tell of nothing but such. -/
def LeadsBy (P : ι → Prop) (step : S → List ι → S → Prop) (s t : S) : Prop :=
  ∃ told, Trail step s told t ∧ ∀ i ∈ told, P i

variable {P : ι → Prop}

instance : Std.Refl (LeadsBy P step) := ⟨fun s => ⟨[], .refl s, nofun⟩⟩

instance : IsTrans S (LeadsBy P step) := ⟨fun _ _ _ ⟨told, h, hP⟩ ⟨more, g, hP'⟩ =>
  ⟨told ++ more, h.trans g, fun i hi => (List.mem_append.1 hi).elim (hP i) (hP' i)⟩⟩

theorem LeadsBy.single (h : step s told t) (hP : ∀ i ∈ told, P i) : LeadsBy P step s t :=
  ⟨told, .single h, hP⟩

theorem LeadsBy.trans (h : LeadsBy P step s t) (g : LeadsBy P step t u) : LeadsBy P step s u :=
  Trans.trans h g

theorem LeadsBy.leads (h : LeadsBy P step s t) : Leads step s t := ⟨_, h.choose_spec.1⟩

end Trail

/-- What turns tell of. -/
inductive Incident where
  /-- A stack received a symbol. -/
  | received (stack : Nat) (symbol : Symbol)
  /-- A level of a stack of some context is gone, but the references of its assertions are not
  given back: a declaration could not be made again. -/
  | abandoned (stack ctx : Nat) (terms : List Term)
  /-- A closed stack of some context is gone, with what was asserted after it was closed. -/
  | dropped (stack ctx : Nat) (terms : List Term)

/-- No stack receives a symbol. -/
def Incident.Silent : Incident → Prop
  | received .. => False
  | _ => True

namespace Session

variable {σ : Type} [Session σ]

/-- What is asked of a session, or told it, beside its frames. -/
inductive Question : {α : Type} → SessionM σ α → Prop
  | check : Question Session.check
  | eval (complete : Bool) (t : Term) : Question (Session.eval complete t)
  | assignments : Question Session.assignments
  | interpolate (ts us : List Term) : Question (Session.interpolate ts us)
  | abbreviate (ts : List Term) : Question (Session.abbreviate ts)

/-- What changes the frames of a session. -/
inductive Command : SessionM σ Unit → Prop
  | declare (symbol : Symbol) : Command (Session.declare symbol)
  | assert (t : Term) : Command (Session.assert t)
  | push : Command Session.push
  | pop : Command Session.pop

end Session

/-- Levels after their top, unless that is the base, recorded some more symbols. -/
def Tower.receive (levels : Tower Level) (symbols : List Symbol) : Tower Level :=
  levels.modifyUpper fun l => { l with symbols := l.symbols ++ symbols }

namespace Site

variable {σ α : Type} {s t : Site σ}

/-- What a session works on. -/
def desk (s : Site σ) : Store × σ := (s.env.terms, s.stack.session)

/-- A site after work of its session. -/
def answered (s : Site σ) (p : Store × σ) : Site σ :=
  { s with env := { s.env with terms := p.1 }, stack := { s.stack with session := p.2 } }

def withLevels (s : Site σ) (levels : Tower Level) : Site σ :=
  { s with stack := { s.stack with levels } }

/-- Work of a session at its site. -/
theorem exec_native_eq {e : SessionM σ α} {r : Except Fault α} {p : Store × σ}
    (h : e.exec s.desk = (r, p)) : (native e).exec s = (r, s.answered p) := by
  have hx : (native e).exec s = ((e.exec s.desk).1, s.answered (e.exec s.desk).2) := rfl
  rw [hx, h]

/-- A site after the references of assertions were given back. -/
def released (s : Site σ) (assertions : List (Option Nat × Term)) : Site σ :=
  { s with
    env := { s.env with
      handles := assertions.foldl (fun handles a => handles.release a.2) s.env.handles } }

/-- A site after its stack recorded what its session asserted. -/
def entered (s : Site σ) (t : Term) (p : Option Nat) : Site σ :=
  { s with
    env := { s.env with handles := s.env.handles.hold t }
    stack := { s.stack with
      levels := s.stack.levels.modifyTop fun l => { l with assertions := l.assertions ++ [(p, t)] }
      last := none } }

theorem exec_releaseAll (assertions : List (Option Nat × Term)) (s : Site σ) :
    (releaseAll assertions).exec s = (.ok (), s.released assertions) := by
  unfold releaseAll
  rw [List.forM_eq_forM]
  induction assertions generalizing s with
  | nil => rfl
  | cons a assertions ih =>
    rw [List.forM_cons]
    exact ih _

variable [Session σ]

/-- A turn that leaves the levels alone, and the session but for questions. -/
inductive Pause : Site σ → Site σ → Prop
  | question {α : Type} (s : Site σ) {e : SessionM σ α} (he : Session.Question e) :
    Pause s (s.answered (e.exec s.desk).2)
  | environment (s : Site σ) {env : Environment} (h : s.env.Works env) : Pause s { s with env }
  | noted (s : Site σ) (queries : List String) (last : Option Verdict) :
    Pause s { s with queries, stack := { s.stack with last } }

/-- Such turns one after the other. -/
abbrev Calm : Site σ → Site σ → Prop := Relation.ReflTransGen Pause

/-- A turn that changes nothing of a stack but its session, which is only asked. -/
inductive Inquiry : Site σ → Site σ → Prop
  | question {α : Type} (s : Site σ) {e : SessionM σ α} (he : Session.Question e) :
    Inquiry s (s.answered (e.exec s.desk).2)
  | environment (s : Site σ) {env : Environment} (h : s.env.Works env) : Inquiry s { s with env }
  | logged (s : Site σ) (queries : List String) : Inquiry s { s with queries }

/-- Such turns one after the other. -/
abbrev Inquires : Site σ → Site σ → Prop := Relation.ReflTransGen Inquiry

/-- One turn of a stack, and what it tells of. -/
inductive Turn : Site σ → List Incident → Site σ → Prop
  | pause {s t : Site σ} (h : Pause s t) : Turn s [] t
  /-- The session refuses a command. -/
  | refused {s : Site σ} {e : SessionM σ Unit} {x : Fault} {p : Store × σ}
    (he : Session.Command e) (h : e.exec s.desk = (.error x, p)) : Turn s [] (s.answered p)
  | declared {s : Site σ} {symbol : Symbol} {p : Store × σ} (ho : s.stack.closed = false)
    (h : (Session.declare symbol : SessionM σ Unit).exec s.desk = (.ok (), p)) :
    Turn s [.received s.stack.id symbol]
      ((s.answered p).withLevels (s.stack.levels.receive [symbol]))
  | pushed {s : Site σ} {p : Store × σ}
    (h : (Session.push : SessionM σ Unit).exec s.desk = (.ok (), p)) :
    Turn s [] ((s.answered p).withLevels (s.stack.levels.push default))
  | asserted {s : Site σ} {t : Term} {p : Store × σ} (partition : Option Nat)
    (h : (Session.assert t : SessionM σ Unit).exec s.desk = (.ok (), p)) :
    Turn s [] ((s.answered p).entered t partition)
  /-- The top level goes, with its symbols. -/
  | popped {s : Site σ} {p : Store × σ} {level : Level} {below : Tower Level}
    (h : (Session.pop : SessionM σ Unit).exec s.desk = (.ok (), p))
    (hl : s.stack.levels.pop? = some (level, below))
    (hr : (s.stack.replaying && Session.forgetsDeclarations p.2) = false) :
    Turn s [] (((s.answered p).withLevels below).released level.assertions)
  /-- The top level goes, and its symbols are declared again. -/
  | replayed {s : Site σ} {p q : Store × σ} {level : Level} {below : Tower Level}
    (h : (Session.pop : SessionM σ Unit).exec s.desk = (.ok (), p))
    (hl : s.stack.levels.pop? = some (level, below))
    (hr : (s.stack.replaying && Session.forgetsDeclarations p.2) = true)
    (hd : (level.symbols.forM Session.declare : SessionM σ Unit).exec p = (.ok (), q)) :
    Turn s [] (((s.answered q).withLevels (below.receive level.symbols)).released level.assertions)
  /-- The top level goes, but one of its symbols cannot be declared again. -/
  | abandoned {s : Site σ} {p q : Store × σ} {x : Fault} {level : Level} {below : Tower Level}
    (h : (Session.pop : SessionM σ Unit).exec s.desk = (.ok (), p))
    (hl : s.stack.levels.pop? = some (level, below))
    (hr : (s.stack.replaying && Session.forgetsDeclarations p.2) = true)
    (hd : (level.symbols.forM Session.declare : SessionM σ Unit).exec p = (.error x, q)) :
    Turn s [.abandoned s.stack.id s.stack.home (level.assertions.map (·.2))]
      ((s.answered q).withLevels below)
  /-- The session pops a frame for which there is no level. -/
  | bottomed {s : Site σ} {p : Store × σ}
    (h : (Session.pop : SessionM σ Unit).exec s.desk = (.ok (), p))
    (hl : s.stack.levels.pop? = none) : Turn s [] (s.answered p)
  | detached {s : Site σ} (ho : s.stack.closed = false) : Turn s [] s.detached
  | shutdown {s : Site σ} (hc : s.stack.closed = true) :
    Turn s [] (s.answered ((Session.shutdown : SessionM σ Unit).exec s.desk).2)
  /-- A closed stack gives up all levels that it still has. -/
  | emptied {s : Site σ} (hc : s.stack.closed = true) :
    Turn s [] ((s.withLevels default).released (s.stack.levels.toList.flatMap (·.assertions)))

/-- What turns lead to. -/
abbrev Reaches : Site σ → Site σ → Prop := Trail.Leads Turn

/-- What turns lead to with which no symbol is received. -/
abbrev Passes : Site σ → Site σ → Prop := Trail.LeadsBy Incident.Silent Turn

/-- What turns lead to with which at most one symbol is received, and this one once. -/
def Receives (symbol : Symbol) (s t : Site σ) : Prop :=
  Trail Turn s [] t ∨ Trail Turn s [.received s.stack.id symbol] t

/-- What every turn leaves as it is. -/
structure Remains (s t : Site σ) : Prop where
  id : t.stack.id = s.stack.id
  home : t.stack.home = s.stack.home
  replaying : t.stack.replaying = s.stack.replaying
  closed : s.stack.closed = true → t.stack.closed = true
  env : t.env =
    { s.env with terms := t.env.terms, handles := t.env.handles, observers := t.env.observers }
  fewer : t.env.observers.Sublist s.env.observers
  observers : ∀ o, o ≠ .stack s.stack.id → t.env.observers.count o = s.env.observers.count o
  opened : t.stack.closed = false → t.env.observers = s.env.observers

instance : Std.Refl (Remains (σ := σ)) :=
  ⟨fun _ => ⟨rfl, rfl, rfl, fun h => h, rfl, .refl _, fun _ _ => rfl, fun _ => rfl⟩⟩

theorem not_closed {b c : Bool} (h : b = true → c = true) (hc : c = false) : b = false := by
  cases b
  · rfl
  · rw [h rfl] at hc
    cases hc

instance : IsTrans (Site σ) Remains := by
  refine ⟨fun s t u h g => ⟨g.id.trans h.id, g.home.trans h.home, g.replaying.trans h.replaying,
    fun hc => g.closed (h.closed hc), ?_, g.fewer.trans h.fewer, fun o ho => ?_, fun ho => ?_⟩⟩
  · rw [g.env, h.env]
  · rw [g.observers o (by rwa [h.id]), h.observers o ho]
  · rw [g.opened ho, h.opened (not_closed g.closed ho)]

theorem Pause.remains (h : Pause s t) : s.Remains t := by
  cases h with
  | environment _ h =>
    have hobservers : ∀ {env : Environment}, s.env.Works env →
        env.observers = s.env.observers := fun h => by rw [h.rest]
    refine ⟨rfl, rfl, rfl, fun h => h, ?_, ?_, fun o _ => ?_, fun _ => hobservers h⟩
    · dsimp only
      rw [h.rest]
    · dsimp only
      rw [hobservers h]
    · dsimp only
      rw [hobservers h]
  | _ => exact ⟨rfl, rfl, rfl, fun h => h, rfl, .refl _, fun _ _ => rfl, fun _ => rfl⟩

theorem Turn.remains {told : List Incident} (h : Turn s told t) : s.Remains t := by
  cases h with
  | pause h => exact h.remains
  | detached _ =>
    refine ⟨rfl, rfl, rfl, fun _ => rfl, rfl, List.filter_sublist, fun o ho => ?_, nofun⟩
    exact List.count_filter (decide_eq_true ho)
  | _ => exact ⟨rfl, rfl, rfl, fun h => h, rfl, .refl _, fun _ _ => rfl, fun _ => rfl⟩

theorem remains_of_trail {told : List Incident} (h : Trail Turn s told t) : s.Remains t := by
  induction h with
  | refl => exact Std.Refl.refl s
  | tail _ hturn ih => exact Trans.trans ih hturn.remains

/-! Questions -/

theorem Inquires.calm (h : s.Inquires t) : s.Calm t := by
  refine Relation.ReflTransGen.mono (fun s t h => ?_) _ _ h
  cases h with
  | question _ he => exact .question s he
  | environment _ h => exact .environment s h
  | logged _ queries => exact .noted s queries s.stack.last

theorem calm_of_inquires {e : Effect (Site σ) α} (he : Effect.Within Inquires e) :
    Effect.Within Calm e :=
  fun s => (he s).calm

theorem native_inquires {e : SessionM σ α} (he : Session.Question e) :
    Effect.Within Inquires (native e) :=
  fun s => .single (.question s he)

theorem environment_inquires {e : Effect Environment α}
    (he : Effect.Within Environment.Works e) :
    Effect.Within Inquires (inEnvironment e : Effect (Site σ) α) :=
  fun s => .single (.environment s (he s.env))

theorem ensureOpen_inquires : Effect.Within Inquires (ensureOpen : Effect (Site σ) Unit) := by
  refine .bind (.look _) fun closed => ?_
  split
  · exact .throw _
  · exact .pure _

theorem ensureRunning_inquires :
    Effect.Within Inquires (ensureRunning : Effect (Site σ) Unit) := by
  refine .bind (.look _) fun reason => ?_
  split
  · exact .throw _
  · exact .pure _

theorem discard_inquires (f : Formula) (s : Site σ) :
    s.Inquires { s with env := s.env.discard f } :=
  .single (.environment s (Environment.works_discard f s.env))

theorem interpolantsFrom_inquires (as : List (Option Nat × Term))
    (before groups : List (List Nat)) :
    Effect.Within Inquires (interpolantsFrom as before groups : Effect (Site σ) _) := by
  induction groups generalizing before with
  | nil => exact .pure _
  | cons group groups ih =>
    exact .bind ensureRunning_inquires fun _ => .bind (native_inquires (.interpolate _ _)) fun t =>
      .bind (environment_inquires (Environment.wrapBool_works t)) fun f =>
        .bind (.undoing (ih _) (discard_inquires f.formula)) fun _ => .pure _

theorem interpolants_inquires (groups : List (List Nat)) :
    Effect.Within Inquires (interpolants groups : Effect (Site σ) _) := by
  refine .bind ensureOpen_inquires fun _ => .bind (.look _) fun stack => ?_
  dsimp only
  split
  · split
    · exact fun s => Std.Refl.refl s
    · split
      · exact fun s => Std.Refl.refl s
      · exact interpolantsFrom_inquires _ _ _
  · exact fun s => Std.Refl.refl s

theorem model_inquires : Effect.Within Inquires (model : Effect (Site σ) Model) :=
  .bind ensureOpen_inquires fun _ => .bind (native_inquires .assignments) fun pairs =>
    environment_inquires (Model.ofPairs_works pairs)

theorem evaluate_inquires (f : Formula) :
    Effect.Within Inquires (evaluate f : Effect (Site σ) _) := by
  refine .bind ensureOpen_inquires fun _ => .bind (environment_inquires (.ask _)) fun t =>
    .bind (native_inquires (.eval true t)) fun value => ?_
  split
  · exact .bind (environment_inquires (Environment.wrap_works _ _)) fun _ => .pure _
  · exact .pure _

theorem literal_inquires (f : BoolFormula) (t : Term) :
    Effect.Within Inquires (literal f t : Effect (Site σ) _) := by
  have hnegated : Effect.Within Inquires
      (inEnvironment (Environment.build (Build.not t)) : Effect (Site σ) Term) :=
    environment_inquires (Environment.build_works (.not t))
  refine .bind (native_inquires (.eval true t)) fun value => ?_
  split
  case' h_1 => refine .bind (.ask _) fun constant => .bind hnegated fun negated => ?_
  case' h_2 => refine .bind (.pure none) fun constant => .bind hnegated fun negated => ?_
  all_goals
    split
    · exact .bind (environment_inquires (.bind (.update (Environment.works_retain f.formula))
        fun _ => .pure _)) fun _ => .pure _
    · exact .bind (environment_inquires (Environment.wrapBool_works negated)) fun _ => .pure _
    · exact .bind (.ask _) fun _ => .throw _

theorem literals_inquires :
    ∀ important, Effect.Within Inquires (literals important : Effect (Site σ) _)
  | [] => .pure _
  | (f, t) :: rest =>
    .bind (literal_inquires f t) fun l =>
      .bind (.undoing (literals_inquires rest) (discard_inquires l.1.formula)) fun _ => .pure _

theorem last_calm (last : Option Verdict) :
    Effect.Within Calm (updateStack fun s : AssertionStack σ => { s with last }) :=
  fun s => .single (.noted s s.queries last)

theorem check_calm : Effect.Within Calm (check : Effect (Site σ) Bool) := by
  refine .bind (calm_of_inquires ensureOpen_inquires) fun _ =>
    .bind (calm_of_inquires ensureRunning_inquires) fun _ =>
      .bind (calm_of_inquires (native_inquires .check)) fun v => .bind (last_calm _) fun _ => ?_
  cases v with
  | sat | unsat => exact .pure _
  | unknown =>
    exact .bind (.look _) fun _ => .bind (calm_of_inquires ensureRunning_inquires) fun _ =>
      .throw _

theorem nextModel?_calm (important : List (BoolFormula × Term)) :
    Effect.Within Calm (nextModel? important : Effect (Site σ) _) := by
  refine .bind (calm_of_inquires ensureRunning_inquires) fun _ => .bind check_calm fun sat => ?_
  split
  · exact .bind (calm_of_inquires (literals_inquires important)) fun _ => .pure _
  · exact .pure _

/-! Commands -/

theorem Turn.passes (h : Turn s [] t) : s.Passes t := .single h nofun

theorem reaches_of_passes {e : Effect (Site σ) α} (he : Effect.Within Passes e) :
    Effect.Within Reaches e :=
  fun s => (he s).leads

theorem Calm.passes (h : s.Calm t) : s.Passes t := by
  induction h with
  | refl => exact Std.Refl.refl s
  | tail _ hpause ih => exact ih.trans (Turn.pause hpause).passes

theorem passes_of_calm {e : Effect (Site σ) α} (he : Effect.Within Calm e) :
    Effect.Within Passes e :=
  fun s => (he s).passes

theorem passes_of_inquires {e : Effect (Site σ) α} (he : Effect.Within Inquires e) :
    Effect.Within Passes e :=
  passes_of_calm (calm_of_inquires he)

theorem Receives.reaches {symbol : Symbol} (h : s.Receives symbol t) : s.Reaches t :=
  h.elim (fun h => ⟨_, h⟩) fun h => ⟨_, h⟩

theorem declare_receives (symbol : Symbol) (ho : s.stack.closed = false) :
    s.Receives symbol ((declare symbol).exec s).2 := by
  unfold declare
  rcases hx : (Session.declare symbol : SessionM σ Unit).exec s.desk with ⟨x | _, p⟩
  · rw [Effect.exec_bind_error (exec_native_eq hx)]
    exact .inl (.single (.refused (.declare symbol) hx))
  · rw [Effect.exec_bind_ok (exec_native_eq hx)]
    exact .inr (.single (.declared ho hx))

theorem addSymbol_receives (symbol : Symbol) (s : Site σ) :
    s.Receives symbol ((addSymbol symbol).exec s).2 := by
  unfold addSymbol
  cases ho : s.stack.closed with
  | true =>
    rw [Effect.exec_bind_error (exec_ensureOpen_closed ho)]
    exact .inl (.refl s)
  | false =>
    rw [Effect.exec_bind_ok (exec_ensureOpen ho)]
    exact declare_receives symbol ho

theorem symbolRequested_receives (symbol : Symbol) (s : Site σ) :
    s.Receives symbol ((symbolRequested symbol).exec s).2 := by
  unfold symbolRequested
  rw [Effect.exec_bind_ok (Effect.exec_look _ _)]
  cases ho : s.stack.closed with
  | true => exact .inl (.refl s)
  | false => exact declare_receives symbol ho

theorem pushLevels_passes : ∀ n, Effect.Within Passes (pushLevels n : Effect (Site σ) Unit)
  | 0 => .pure _
  | n + 1 => by
    intro s
    unfold pushLevels
    rcases hx : (Session.push : SessionM σ Unit).exec s.desk with ⟨x | _, p⟩
    · rw [Effect.exec_bind_error (exec_native_eq hx)]
      exact (Turn.refused .push hx).passes
    · rw [Effect.exec_bind_ok (exec_native_eq hx)]
      exact (Turn.pushed hx).passes.trans (pushLevels_passes n _)

theorem push_passes (n : Nat) : Effect.Within Passes (push n : Effect (Site σ) Unit) :=
  .bind (passes_of_inquires ensureOpen_inquires) fun _ => .bind (pushLevels_passes n) fun _ =>
    passes_of_calm (last_calm none)

/-- The session pops, and the top level goes; its symbols are declared again where the session has
forgotten them. -/
theorem exec_popLevel_eq {p : Store × σ} {level : Level} {below : Tower Level}
    (h : (Session.pop : SessionM σ Unit).exec s.desk = (.ok (), p))
    (hl : s.stack.levels.pop? = some (level, below)) :
    popLevel.exec s =
      if s.stack.replaying && Session.forgetsDeclarations p.2 then
        match (level.symbols.forM Session.declare : SessionM σ Unit).exec p with
        | (.ok _, q) =>
          (.ok level.assertions, (s.answered q).withLevels (below.receive level.symbols))
        | (.error x, q) => (.error x, (s.answered q).withLevels below)
      else (.ok level.assertions, (s.answered p).withLevels below) := by
  unfold popLevel
  rw [Effect.exec_bind_ok (exec_native_eq h), Effect.exec_bind_ok (Effect.exec_look _ _),
    show (s.answered p).stack.levels.pop? = some (level, below) from hl]
  dsimp only
  rw [Effect.exec_bind_ok (exec_updateStack _ _), Effect.exec_bind_ok (Effect.exec_look _ _)]
  have hreplay : ∀ {r q}, (level.symbols.forM Session.declare : SessionM σ Unit).exec p = (r, q) →
      (level.symbols.forM fun symbol => native (Session.declare symbol)).exec
        ((s.answered p).withLevels below) = (r, (s.answered q).withLevels below) := by
    intro r q hd
    rw [exec_forM_native]
    exact exec_native_eq hd
  by_cases hr : (s.stack.replaying && Session.forgetsDeclarations p.2) = true
  swap
  · rw [if_neg hr, if_neg (by exact hr)]
    rfl
  rw [if_pos hr, if_pos (by exact hr)]
  rcases hd : (level.symbols.forM Session.declare : SessionM σ Unit).exec p with ⟨x | _, q⟩
  · exact Effect.exec_bind_error (hreplay hd) _
  · exact Effect.exec_bind_ok (hreplay hd) _

/-- What a pop of a level can come to, before and after the references of its assertions are given
back. -/
theorem popLevel_within {R : Site σ → Site σ → Prop}
    (refused : ∀ {s : Site σ} {x p},
      (Session.pop : SessionM σ Unit).exec s.desk = (.error x, p) → R s (s.answered p))
    (bottomed : ∀ {s : Site σ} {p}, (Session.pop : SessionM σ Unit).exec s.desk = (.ok (), p) →
      s.stack.levels.pop? = none → R s (s.answered p))
    (popped : ∀ {s : Site σ} {p level below},
      (Session.pop : SessionM σ Unit).exec s.desk = (.ok (), p) →
      s.stack.levels.pop? = some (level, below) →
      (s.stack.replaying && Session.forgetsDeclarations p.2) = false →
        R s (((s.answered p).withLevels below).released level.assertions))
    (replayed : ∀ {s : Site σ} {p q level below},
      (Session.pop : SessionM σ Unit).exec s.desk = (.ok (), p) →
      s.stack.levels.pop? = some (level, below) →
      (s.stack.replaying && Session.forgetsDeclarations p.2) = true →
      (level.symbols.forM Session.declare : SessionM σ Unit).exec p = (.ok (), q) →
        R s (((s.answered q).withLevels (below.receive level.symbols)).released level.assertions))
    (abandoned : ∀ {s : Site σ} {p q x level below},
      (Session.pop : SessionM σ Unit).exec s.desk = (.ok (), p) →
      s.stack.levels.pop? = some (level, below) →
      (s.stack.replaying && Session.forgetsDeclarations p.2) = true →
      (level.symbols.forM Session.declare : SessionM σ Unit).exec p = (.error x, q) →
        R s ((s.answered q).withLevels below)) :
    Effect.Within R (do releaseAll (← popLevel) : Effect (Site σ) Unit) := by
  intro s
  rcases hx : (Session.pop : SessionM σ Unit).exec s.desk with ⟨x | _, p⟩
  · have hp : popLevel.exec s = (.error x, s.answered p) :=
      Effect.exec_bind_error (exec_native_eq hx) _
    rw [Effect.exec_bind_error hp]
    exact refused hx
  · cases hl : s.stack.levels.pop? with
    | none =>
      have hp : popLevel.exec s = (.error (.badState .noFrame), s.answered p) := by
        unfold popLevel
        rw [Effect.exec_bind_ok (exec_native_eq hx), Effect.exec_bind_ok (Effect.exec_look _ _),
          show (s.answered p).stack.levels.pop? = none from hl]
        rfl
      rw [Effect.exec_bind_error hp]
      exact bottomed hx hl
    | some top =>
      obtain ⟨level, below⟩ := top
      rw [Effect.exec_bind, exec_popLevel_eq hx hl]
      cases hr : s.stack.replaying && Session.forgetsDeclarations p.2 with
      | false =>
        rw [if_neg Bool.false_ne_true]
        dsimp only
        rw [exec_releaseAll]
        exact popped hx hl hr
      | true =>
        rw [if_pos rfl]
        rcases hd : (level.symbols.forM Session.declare : SessionM σ Unit).exec p with ⟨x | _, q⟩
        · exact abandoned hx hl hr hd
        · dsimp only
          rw [exec_releaseAll]
          exact replayed hx hl hr hd

theorem popLevel_passes :
    Effect.Within Passes (do releaseAll (← popLevel) : Effect (Site σ) Unit) :=
  popLevel_within (fun hx => (Turn.refused .pop hx).passes)
    (fun hx hl => (Turn.bottomed hx hl).passes) (fun hx hl hr => (Turn.popped hx hl hr).passes)
    (fun hx hl hr hd => (Turn.replayed hx hl hr hd).passes)
    (fun hx hl hr hd => .single (.abandoned hx hl hr hd) fun _ hi =>
      List.mem_singleton.1 hi ▸ trivial)

theorem popLevels_passes : ∀ n, Effect.Within Passes (popLevels n : Effect (Site σ) Unit)
  | 0 => .pure _
  | n + 1 => by
    have hstep := popLevel_passes.bind fun _ : Unit => popLevels_passes n
    rwa [bind_assoc] at hstep

theorem pop_passes (n : Nat) : Effect.Within Passes (pop n : Effect (Site σ) Unit) := by
  have hpop : Effect.Within Passes (do
      popLevels n
      updateStack fun s : AssertionStack σ => { s with last := none }) :=
    .bind (popLevels_passes n) fun _ => passes_of_calm (last_calm none)
  refine .bind (passes_of_inquires ensureOpen_inquires) fun _ => .bind (.look _) fun depth => ?_
  split
  · exact .bind (.throw _) fun _ => hpop
  · exact hpop

theorem assertTerm_passes (t : Term) (partition : Option Nat) :
    Effect.Within Passes (assertTerm t partition : Effect (Site σ) Unit) := by
  intro s
  unfold assertTerm
  rcases hx : (Session.assert t : SessionM σ Unit).exec s.desk with ⟨x | _, p⟩
  · rw [Effect.exec_bind_error (exec_native_eq hx)]
    exact (Turn.refused (.assert t) hx).passes
  · rw [Effect.exec_bind_ok (exec_native_eq hx)]
    exact (Turn.asserted partition hx).passes

theorem assert_passes (f : BoolFormula) (partition : Option Nat) :
    Effect.Within Passes (assert f partition : Effect (Site σ) Unit) :=
  assert_within (fun s _ => (Turn.pause (.noted s _ s.stack.last)).passes)
    (fun ts => passes_of_inquires (native_inquires (.abbreviate ts)))
    (fun t => assertTerm_passes t partition) f

theorem block_passes (negations : List Term) : Effect.Within Passes (do
    let t ← inEnvironment (Environment.build (Build.or negations))
    assertTerm t none : Effect (Site σ) Unit) :=
  .bind (passes_of_inquires (environment_inquires (Environment.build_works (.or negations))))
    fun t => assertTerm_passes t none

/-! The end of a stack -/

theorem giveUp_passes (requested : Bool) (hc : s.stack.closed = true) :
    s.Passes ((if requested then native Session.shutdown
      else popLevels s.stack.levels.depth : Effect (Site σ) Unit).exec s).2 := by
  cases requested with
  | true => exact (Turn.shutdown hc).passes
  | false => exact popLevels_passes _ s

/-- A stack that is closed is detached, and in the end it has no level. -/
theorem close_eq (ho : s.stack.closed = false) :
    ∃ u : Site σ, s.detached.Passes u ∧ u.stack.closed = true ∧ (close.exec s).2 =
      (u.withLevels default).released (u.stack.levels.toList.flatMap (·.assertions)) := by
  obtain ⟨told, htrail, hP⟩ := giveUp_passes (s := s.detached) s.detached.notifier.requested rfl
  refine ⟨_, ⟨told, htrail, hP⟩, (remains_of_trail htrail).closed rfl, ?_⟩
  unfold close
  rw [Effect.exec_bind_ok (exec_ensureOpen ho), Effect.exec_bind_ok (Effect.exec_update _ _),
    Effect.exec_bind_ok (Effect.exec_get _), Effect.exec_bind_ok (Effect.exec_attempt _ _),
    Effect.exec_bind_ok (Effect.exec_get _), Effect.exec_bind_ok (exec_updateStack _ _),
    Effect.exec_bind_ok (exec_releaseAll _ _)]
  split <;> rfl

theorem close_passes : Effect.Within Passes (close : Effect (Site σ) Unit) := by
  intro s
  cases ho : s.stack.closed with
  | true =>
    unfold close
    rw [Effect.exec_bind_error (exec_ensureOpen_closed ho)]
    exact Std.Refl.refl s
  | false =>
    obtain ⟨u, hu, hc, hx⟩ := close_eq ho
    rw [hx]
    exact (Turn.detached ho).passes.trans (hu.trans (Turn.emptied hc).passes)

theorem closed_close (s : Site σ) : (close.exec s).2.stack.closed = true := by
  cases ho : s.stack.closed with
  | true =>
    unfold close
    rw [Effect.exec_bind_error (exec_ensureOpen_closed ho), ho]
  | false =>
    obtain ⟨u, -, hu, hx⟩ := close_eq ho
    rw [hx]
    exact hu

end Site

/-- What an operation does at a stack of any session. -/
def StackOperation.act {σ : Type} [Session σ] : StackOperation → Effect (Site σ) Unit
  | push n => Site.push n
  | pop n => Site.pop n
  | assert f partition => Site.assert f partition
  | addSymbol symbol => Site.addSymbol symbol
  | check => do let _ ← Site.check
  | model => do let _ ← Site.model
  | evaluate f => do let _ ← Site.evaluate f
  | interpolants groups => do let _ ← Site.interpolants groups
  | close => Site.close

/-- Operations are some turns, whatever their outcome; only one makes its stack receive symbols. -/
theorem StackOperation.act_passes {σ : Type} [Session σ] {op : StackOperation}
    (hop : ∀ symbol, op ≠ .addSymbol symbol) :
    Effect.Within Site.Passes (op.act : Effect (Site σ) Unit) := by
  cases op with
  | push n => exact Site.push_passes n
  | pop n => exact Site.pop_passes n
  | assert f partition => exact Site.assert_passes f partition
  | addSymbol symbol => exact absurd rfl (hop symbol)
  | check => exact .bind (Site.passes_of_calm Site.check_calm) fun _ => .pure _
  | model => exact .bind (Site.passes_of_inquires Site.model_inquires) fun _ => .pure _
  | evaluate f => exact .bind (Site.passes_of_inquires (Site.evaluate_inquires f)) fun _ => .pure _
  | interpolants groups =>
    exact .bind (Site.passes_of_inquires (Site.interpolants_inquires groups)) fun _ => .pure _
  | close => exact Site.close_passes

theorem StackOperation.act_reaches {σ : Type} [Session σ] (op : StackOperation) :
    Effect.Within Site.Reaches (op.act : Effect (Site σ) Unit) := by
  by_cases hop : ∃ symbol, op = .addSymbol symbol
  · obtain ⟨symbol, rfl⟩ := hop
    exact fun s => (Site.addSymbol_receives symbol s).reaches
  · exact Site.reaches_of_passes (act_passes fun symbol h => hop ⟨symbol, h⟩)

end FormulaStack
