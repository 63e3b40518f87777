import FormulaStack.Proofs.Attendance

/-!
Enumerations of models restore their stack, however they end. Inside of an enumeration the stack has
one more level, which has recorded the symbols that were declared meanwhile; when that level goes,
they are recorded one level below, as they would have been without the enumeration.
-/
namespace FormulaStack

/-- A stack inside of an enumeration: what it was before has one more level, which has recorded the
symbols that it heard of since. -/
structure AssertionStack.Inside (s₀ : AssertionStack FoldingSolver) (heard : List Symbol)
    (s : AssertionStack FoldingSolver) : Prop where
  opened : s.closed = false
  home : s.home = s₀.home
  replaying : s.replaying = s₀.replaying
  top : ∃ level frame, s.levels = s₀.levels.push level ∧
    s.session.frames = s₀.session.frames.push frame ∧ level.symbols = heard

/-- A stack after an enumeration. Where its session is told of symbols again, these are recorded one
level below. -/
structure AssertionStack.Restored (s₀ : AssertionStack FoldingSolver) (store : Store)
    (new : List Symbol) (s : AssertionStack FoldingSolver) : Prop where
  opened : s.closed = false
  home : s.home = s₀.home
  forgotten : s₀.replaying = false → s.levels = s₀.levels ∧ s.session.frames = s₀.session.frames
  replayed : s₀.replaying = true → ∃ ds,
    List.Forall₂ (fun symbol d => store.declOf symbol = .ok d) new ds ∧
      s.levels = s₀.levels.receive new ∧ s.session.frames = (s₀.session.note ds).frames

namespace AssertionStack.Inside

variable {s₀ s s' : AssertionStack FoldingSolver} {heard : List Symbol}

theorem alike (h : s₀.Inside heard s) (ha : s.Alike s') : s₀.Inside heard s' := by
  obtain ⟨hopened, hhome, hreplaying, level, frame, hlevels, hframes, hheard⟩ := h
  rw [ha.rest]
  exact ⟨hopened, hhome, hreplaying, level, frame, hlevels, ha.frames.trans hframes, hheard⟩

theorem record (h : s₀.Inside heard s) (t : Term) (partition : Option Nat)
    (last : Option Verdict) : s₀.Inside heard
      { s with
        session := s.session.record t
        levels :=
          s.levels.modifyTop fun l => { l with assertions := l.assertions ++ [(partition, t)] }
        last } := by
  obtain ⟨hopened, hhome, hreplaying, level, frame, hlevels, hframes, hheard⟩ := h
  refine ⟨hopened, hhome, hreplaying,
    { level with assertions := level.assertions ++ [(partition, t)] },
    { frame with assertions := frame.assertions ++ [t] }, ?_, ?_, hheard⟩
  · rw [hlevels]
    rfl
  · rw [FoldingSolver.record, hframes]
    rfl

theorem hears (h : s₀.Inside heard s) (symbol : Symbol) (d : FuncDecl) :
    s₀.Inside (heard ++ [symbol]) (s.hears symbol d) := by
  obtain ⟨hopened, hhome, hreplaying, level, frame, hlevels, hframes, hheard⟩ := h
  rw [AssertionStack.hears, if_neg (by rw [hopened]; exact Bool.false_ne_true)]
  refine ⟨hopened, hhome, hreplaying, { level with symbols := level.symbols ++ [symbol] },
    { frame with declared := frame.declared.insert d }, ?_, ?_, ?_⟩
  · rw [hlevels]
    rfl
  · rw [FoldingSolver.note, hframes]
    rfl
  · rw [hheard]

end AssertionStack.Inside

theorem Tower.assertions_receive (levels : Tower Level) (new : List Symbol) :
    (levels.receive new).toList.map (·.assertions) = levels.toList.map (·.assertions) := by
  obtain ⟨base, _ | ⟨l, rest⟩⟩ := levels
  · rfl
  · simp [receive, modifyUpper, toList]

theorem FoldingSolver.assertions_of_note (s : FoldingSolver) (ds : List FuncDecl) :
    (s.note ds).frames.toList.map (·.assertions) = s.frames.toList.map (·.assertions) := by
  rw [note, Tower.toList_modifyTop, s.frames.toList_eq, List.map_append, List.map_append,
    List.dropLast_concat]
  rfl

/-- All assertions are those of before. -/
theorem AssertionStack.Restored.assertions {s₀ s : AssertionStack FoldingSolver} {store : Store}
    {new : List Symbol} (h : s₀.Restored store new s) :
    s.levels.toList.map (·.assertions) = s₀.levels.toList.map (·.assertions) ∧
      s.session.frames.toList.map (·.assertions) =
        s₀.session.frames.toList.map (·.assertions) := by
  cases hr : s₀.replaying with
  | false =>
    obtain ⟨hlevels, hframes⟩ := h.forgotten hr
    exact ⟨by rw [hlevels], by rw [hframes]⟩
  | true =>
    obtain ⟨ds, -, hlevels, hframes⟩ := h.replayed hr
    rw [hlevels, hframes]
    exact ⟨Tower.assertions_receive _ _, FoldingSolver.assertions_of_note _ _⟩

/-! Work at the stack -/

namespace Site

variable {s₀ : AssertionStack FoldingSolver} {known heard : List Symbol} {s t : Site FoldingSolver}

/-- A stack inside of an enumeration, in an environment that knows some symbols. -/
def Inside (s₀ : AssertionStack FoldingSolver) (known heard : List Symbol)
    (s : Site FoldingSolver) : Prop :=
  s.env.declared = known ∧ s₀.Inside heard s.stack

/-- Work that leaves the levels below the top alone, and all symbols. -/
def StaysInside (s₀ : AssertionStack FoldingSolver) (known heard : List Symbol)
    (s t : Site FoldingSolver) : Prop :=
  s.Inside s₀ known heard → t.Inside s₀ known heard

instance : Std.Refl (StaysInside s₀ known heard) := ⟨fun _ h => h⟩

instance : IsTrans _ (StaysInside s₀ known heard) := ⟨fun _ _ _ h g hs => g (h hs)⟩

theorem Pause.staysInside (h : Pause s t) : StaysInside s₀ known heard s t := by
  rintro ⟨hknown, hs⟩
  cases h with
  | question _ he =>
    exact ⟨hknown, hs.alike ⟨rfl, (FoldingSolver.quiet_question he s.desk).2⟩⟩
  | environment _ h => exact ⟨by rw [h.rest]; exact hknown, hs⟩
  | noted => exact ⟨hknown, hs.opened, hs.home, hs.replaying, hs.top⟩

theorem Calm.staysInside (h : s.Calm t) : StaysInside s₀ known heard s t := by
  induction h with
  | refl => exact Std.Refl.refl s
  | tail _ hpause ih => exact fun hs => hpause.staysInside (ih hs)

theorem assertTerm_staysInside (t : Term) (partition : Option Nat) :
    Effect.Within (StaysInside s₀ known heard) (assertTerm t partition) := by
  rintro s ⟨hknown, hs⟩
  unfold assertTerm
  rcases hx : (Session.assert t : SessionM FoldingSolver Unit).exec s.desk with ⟨x | _, p⟩
  · rw [Effect.exec_bind_error (exec_native_eq hx), FoldingSolver.eq_of_refused (.assert t) hx]
    exact ⟨hknown, hs⟩
  · obtain ⟨-, rfl⟩ := FoldingSolver.assert_eq_ok hx
    rw [Effect.exec_bind_ok (exec_native_eq hx)]
    exact ⟨hknown, hs.record t partition none⟩

theorem block_staysInside (negations : List Term) :
    Effect.Within (StaysInside s₀ known heard) (do
      let t ← inEnvironment (Environment.build (Build.or negations))
      assertTerm t none) :=
  .bind (fun s =>
      (environment_inquires (Environment.build_works (.or negations)) s).calm.staysInside)
    fun t => assertTerm_staysInside t none

/-- The level of an enumeration. -/
theorem exec_push_inside (ho : s.stack.closed = false) :
    ∃ t, (push 1).exec s = (.ok (), t) ∧ t.Inside s.stack s.env.declared [] :=
  ⟨_, Effect.exec_bind_ok (exec_ensureOpen ho) _, rfl, ho, rfl, rfl, default, default, rfl, rfl,
    rfl⟩

/-- When the level goes, the stack is as before, but for symbols. -/
theorem exec_pop_inside {told : List Incident} (h : s₀.Inside heard s.stack)
    (hr : s.stack.Reflects s.env.terms told) :
    ∃ t, (pop 1).exec s = (.ok (), t) ∧ t.env.declared = s.env.declared ∧
      s₀.Restored t.env.terms heard t.stack := by
  obtain ⟨hopened, hhome, hreplaying, level, frame, hlevels, hframes, rfl⟩ := h
  have hpop : (Session.pop : SessionM FoldingSolver Unit).exec s.desk =
      (.ok (), s.env.terms,
        { s.stack.session with frames := s₀.session.frames, last := none }) := by
    refine FoldingSolver.exec_pop.trans ?_
    rw [hframes, Tower.pop?_push]
  have hl : s.stack.levels.pop? = some (level, s₀.levels) := by rw [hlevels, Tower.pop?_push]
  -- What the level recorded was declared before, so that no declaration is refused now.
  obtain ⟨_, _, _, hmirrors, -⟩ := hr.pop hl
  obtain ⟨ds, hds⟩ := exists_forall₂ hmirrors.declarable
  have hlevel := exec_popLevel_eq hpop hl
  have hdepth : ¬ s.stack.levels.depth < 1 := by
    rw [hlevels, Tower.depth_push]
    exact Nat.not_lt.2 (Nat.le_add_left _ _)
  have hx : ∀ {as : List (Option Nat × Term)} {u : Site FoldingSolver},
      popLevel.exec s = (.ok as, u) → (pop 1).exec s =
        (.ok (), { u.released as with stack := { u.stack with last := none } }) := by
    intro as u hu
    unfold pop
    rw [Effect.exec_bind_ok (exec_ensureOpen hopened), Effect.exec_bind_ok (Effect.exec_look _ _)]
    dsimp only
    rw [if_neg hdepth]
    have hlevels : (popLevels 1 : Effect (Site FoldingSolver) Unit).exec s =
        (.ok (), u.released as) := by
      unfold popLevels
      rw [Effect.exec_bind_ok hu, Effect.exec_bind_ok (exec_releaseAll as u)]
      rfl
    exact Effect.exec_bind_ok hlevels _
  cases hrep : s₀.replaying with
  | false =>
    rw [hreplaying, hrep, Bool.false_and, if_neg Bool.false_ne_true] at hlevel
    refine ⟨_, hx hlevel, rfl, hopened, hhome, fun _ => ⟨rfl, rfl⟩, fun h => ?_⟩
    rw [hrep] at h
    cases h
  | true =>
    have hdeclared := FoldingSolver.exec_declareAll
      (s := { s.stack.session with frames := s₀.session.frames, last := none }) hds
    have hforgets : (s.stack.replaying && Session.forgetsDeclarations
        ({ s.stack.session with frames := s₀.session.frames, last := none } : FoldingSolver)) =
        true := by
      rw [hreplaying, hrep]
      rfl
    rw [if_pos hforgets, show
      (level.symbols.forM Session.declare : SessionM FoldingSolver Unit).exec _ = _ from
        hdeclared] at hlevel
    refine ⟨_, hx hlevel, rfl, hopened, hhome, fun h => ?_, fun _ => ?_⟩
    · rw [hrep] at h
      cases h
    · exact ⟨ds, hds, rfl, rfl⟩

end Site

/-! What happens meanwhile -/

/-- All stacks are on new folding solvers, and nothing is done at one of them. -/
def Setting.apart (watching : Prop) (id : Nat) : Setting FoldingSolver :=
  ⟨(· = .new), (· ≠ id), False, watching⟩

/-- Events at other places than one stack. -/
def Event.Spares {σ : Type} (id : Nat) : Event σ → Prop
  | .atStack j _ | .search j _ | .block j _ | .dropStack j | .aimWatch _ j => j ≠ id
  | .addWatch _ closes _ => closes ≠ some id
  | _ => True

/-- Of the symbols that are published a stack hears, unless a watch fails before it is told. -/
inductive Heard (watching : Prop) : List Symbol → List Symbol → Prop
  | nothing : Heard watching [] []
  | told {published heard : List Symbol} (h : Heard watching published heard) (symbol : Symbol) :
    Heard watching (published ++ [symbol]) (heard ++ [symbol])
  | missed {published heard : List Symbol} (hw : watching) (h : Heard watching published heard)
    (symbol : Symbol) : Heard watching (published ++ [symbol]) heard

namespace Heard

variable {watching : Prop} {published heard : List Symbol}

theorem sublist (h : Heard watching published heard) : heard.Sublist published := by
  induction h with
  | nothing => exact .refl _
  | told _ symbol ih => exact ih.append_right _
  | missed _ _ symbol ih => exact ih.trans (List.sublist_append_left _ _)

theorem eq (h : Heard watching published heard) (hw : ¬ watching) : heard = published := by
  induction h with
  | nothing => rfl
  | told _ symbol ih => rw [ih]
  | missed hwatching => exact absurd hwatching hw

end Heard

namespace World

variable {watching : Prop} {w w' : World FoldingSolver} {id : Nat}
  {s₀ s : AssertionStack FoldingSolver} {known heard : List Symbol} {told : List Incident}

/-- A world in which there is an enumeration at a stack, which no watch is set to close. -/
structure Inside (w : World FoldingSolver) (id : Nat) (s₀ : AssertionStack FoldingSolver)
    (known heard : List Symbol) : Prop where
  spared : ¬ w.Aims id
  site : ∃ s c, w.stack? id = some s ∧ w.contexts[s₀.home]? = some c ∧
    (w.site c s).Inside s₀ known heard

theorem atStack_inside {α : Type} {e : Effect (Site FoldingSolver) α}
    (he : Effect.Within (Site.StaysInside s₀ known heard) e) (h : w.Inside id s₀ known heard) :
    ((atStack id e).exec w).2.Inside id s₀ known heard := by
  obtain ⟨hspared, s, c, hs, hc, hi⟩ := h
  have hhome : s.home = s₀.home := hi.2.home
  have ht : (e.exec (w.site c s)).2.Inside s₀ known heard := he (w.site c s) hi
  rw [exec_atStack hs (hhome ▸ hc)]
  refine ⟨?_, (e.exec (w.site c s)).2.stack, { c with env := (e.exec (w.site c s)).2.env }, ?_, ?_,
    ht⟩
  · rwa [Aims, watches_put]
  · rw [stack?_put hs, if_pos rfl]
  · exact (context_put (hhome ▸ hc) _ _).trans (if_pos hhome.symm)

theorem exists_react (reason : String) (r : Reaction) (hs : w.stack? id = some s) :
    ∃ s', (react reason w r).stack? id = some s' ∧ s.Alike s' := by
  cases r with
  | note name => exact ⟨s, hs, rfl, rfl⟩
  | interrupt j =>
    have htable : (react reason w (.interrupt j)).stackTable[id]? = _ := Array.getElem?_modify ..
    rw [stack?_eq_some.1 hs] at htable
    split at htable
    · exact ⟨_, stack?_eq_some.2 htable, rfl, rfl⟩
    · exact ⟨s, stack?_eq_some.2 htable, rfl, rfl⟩

/-- A stack at which nothing is done. -/
theorem Move.exists_alike (h : Move (.apart watching id) w told w') (hs : w.stack? id = some s) :
    ∃ s', w'.stack? id = some s' ∧ s.Alike s' := by
  cases h with
  | environment | unopened => exact ⟨s, hs, rfl, rfl⟩
  | requested hg => exact hg.elim
  | site hg hs' hc h =>
    refine ⟨s, ?_, rfl, rfl⟩
    rwa [stack?_put hs', if_neg (Ne.symm hg)]
  | context theories counting announced options notifierOf =>
    refine ⟨s, ?_, rfl, rfl⟩
    rwa [stack?, stackTable_addContext]
  | opened =>
    exact ⟨s, (stack?_opened _ id).trans ((if_neg (lt_of_stack? hs).ne).trans hs), rfl, rfl⟩
  | dropped hg hs' hcl =>
    refine ⟨s, ?_, rfl, rfl⟩
    rwa [stack?_withStack (lt_of_stack? hs'), if_neg (Ne.symm hg)]
  | reacted reason r => exact exists_react reason r hs
  | beside _ hstacks | watched _ _ hstacks =>
    refine ⟨s, ?_, rfl, rfl⟩
    rwa [stack?, hstacks]

theorem Move.inside (h : Move (.apart watching id) w told w') (hi : w.Inside id s₀ known heard) :
    w'.Inside id s₀ known heard := by
  obtain ⟨hspared, s, c, hs, hc, hknown, hin⟩ := hi
  obtain ⟨s', hs', halike⟩ := h.exists_alike hs
  obtain ⟨c', hc', -, hdeclared⟩ := h.context_grows hc
  exact ⟨fun ha => (h.aims ha).elim hspared fun hne => hne rfl, s', c', hs', hc',
    (hdeclared fun h => h).trans hknown, hin.alike halike⟩

theorem Reaches.inside (h : w.Reaches (.apart watching id) w')
    (hi : w.Inside id s₀ known heard) : w'.Inside id s₀ known heard := by
  obtain ⟨told, h⟩ := h
  induction h with
  | refl => exact hi
  | tail _ hmove ih => exact hmove.inside ih

/-! New symbols -/

variable {ctx : Nat} {c : Context} {symbol : Symbol} {d : FuncDecl}

/-- Others are told of symbols apart from a stack that no watch is set to close. -/
theorem tellOthers_reaches {os : List Observer} (hos : .stack id ∉ os) (hw : ¬ w.Aims id) :
    w.Reaches (.apart watching id) ((os.forM (tell symbol)).exec w).2 := by
  rw [List.forM_eq_forM]
  induction os generalizing w with
  | nil => exact Std.Refl.refl w
  | cons o os ih =>
    obtain ⟨ho, hos⟩ := not_or.1 (mt List.mem_cons.2 hos)
    have htold : w.Reaches (.apart watching id) ((tell symbol o).exec w).2 := by
      refine tell_reaches symbol (fun j hj => ?_) fun j hj => ?_
      · rintro rfl
        exact ho hj.symm
      · rintro rfl
        exact hw hj
    rw [List.forM_cons, Effect.exec_bind]
    rcases hx : (tell symbol o).exec w with ⟨x | _, u⟩ <;> rw [hx] at htold
    · exact htold
    · exact htold.trans (ih hos fun ha => (htold.aims ha).elim hw fun hne => hne rfl)

/-- Of a symbol of its environment the stack hears, unless a watch fails before. -/
theorem publish_inside (ha : w.Attended watching) (hi : w.Inside id s₀ known heard)
    (hc : w.contexts[s₀.home]? = some c) (hd : c.env.terms.declOf symbol = .ok d) :
    ((publish s₀.home symbol).exec w).2.Inside id s₀ known (heard ++ [symbol]) ∨
      watching ∧ ((publish s₀.home symbol).exec w).2.Inside id s₀ known heard := by
  obtain ⟨s, _, hs, -, -, hin⟩ := hi.site
  have hobservers : w.observersOf s₀.home = c.env.observers := observersOf_eq hc
  have hmem : .stack id ∈ c.env.observers := by
    rw [← hobservers, ← hin.home]
    exact ha.opened id s hs hin.opened
  -- Who is told before the stack may fail, who is told after it no longer matters to it.
  obtain ⟨pre, post, hsplit⟩ := List.append_of_mem hmem
  have honce := ha.once s₀.home id
  rw [hobservers, hsplit, List.count_append, List.count_cons_self] at honce
  have hpre : .stack id ∉ pre := List.count_eq_zero.1 (by omega)
  have hpost : .stack id ∉ post := List.count_eq_zero.1 (by omega)
  unfold publish
  rw [Effect.exec_bind_ok (exec_context hc), hsplit, List.forM_eq_forM, List.forM_append,
    Effect.exec_bind]
  have hbefore : w.Reaches (.apart watching id) ((forM pre (tell symbol)).exec w).2 :=
    tellOthers_reaches hpre hi.spared
  rcases hx : (forM pre (tell symbol)).exec w with ⟨x | _, u⟩ <;> rw [hx] at hbefore
  · refine .inr ⟨?_, hbefore.inside hi⟩
    by_contra hwatching
    have hstacks : ∀ o ∈ pre, ∃ j, o = .stack j ∧ ∀ s, w.stack? j = some s → s.home = s₀.home := by
      intro o ho
      have ho' : o ∈ w.observersOf s₀.home := by
        rw [hobservers, hsplit]
        exact List.mem_append_left _ ho
      obtain ⟨j, rfl⟩ := ha.unwatched hwatching _ o ho'
      exact ⟨j, rfl, (ha.places _ j ho').2⟩
    obtain ⟨_, hok⟩ := exec_tellAll hc hd hstacks
    cases hx.symm.trans hok
  · obtain ⟨hspared, s', c', hs', hc', hknown, hin'⟩ := hbefore.inside hi
    obtain ⟨c'', hc'', hgrows, -⟩ := hbefore.context_grows hc
    cases hc'.symm.trans hc''
    have hhome : ∀ s, u.stack? id = some s → s.home = s₀.home := by
      intro s hs
      cases hs'.symm.trans hs
      exact hin'.home
    obtain ⟨v, hv, hcontexts, hwatches, hstacks⟩ :=
      exec_tell hc' (hgrows.terms.extension.declOf hd) hhome
    have hi' : v.Inside id s₀ known (heard ++ [symbol]) := by
      refine ⟨by rwa [Aims, hwatches], s'.hears symbol d, c', ?_, hcontexts ▸ hc', hknown,
        hin'.hears symbol d⟩
      rw [hstacks, if_pos rfl, hs', Option.map_some]
    have hafter : v.Reaches (.apart watching id) ((forM post (tell symbol)).exec v).2 :=
      tellOthers_reaches hpost hi'.spared
    dsimp only
    rw [List.forM_cons, Effect.exec_bind_ok hv]
    exact .inl (hafter.inside hi')

/-- Of a symbol of another environment it does not hear. -/
theorem publish_elsewhere (ha : w.Attended watching) (hi : w.Inside id s₀ known heard)
    (hctx : s₀.home ≠ ctx) : ((publish ctx symbol).exec w).2.Inside id s₀ known heard := by
  unfold publish
  cases hc : w.contexts[ctx]? with
  | none =>
    rw [Effect.exec_bind_error (exec_context_none hc)]
    exact hi
  | some c =>
    rw [Effect.exec_bind_ok (exec_context hc)]
    obtain ⟨s, _, hs, -, -, hin⟩ := hi.site
    have hothers : .stack id ∉ c.env.observers := by
      intro hm
      rw [← observersOf_eq hc] at hm
      exact hctx (hin.home ▸ (ha.places ctx id hm).2 s hs)
    have htold : w.Reaches (.apart watching id) ((c.env.observers.forM (tell symbol)).exec w).2 :=
      tellOthers_reaches hothers hi.spared
    exact htold.inside hi

/-- The worlds during an enumeration. -/
def During (watching : Prop) (id : Nat) (s₀ : AssertionStack FoldingSolver) (old : List Symbol)
    (w : World FoldingSolver) : Prop :=
  ∃ published heard, Heard watching published heard ∧ w.Inside id s₀ (old ++ published) heard

variable {old : List Symbol}

theorem Reaches.during (h : w.Reaches (.apart watching id) w') (hw : w.During watching id s₀ old) :
    w'.During watching id s₀ old := by
  obtain ⟨published, heard, hheard, hi⟩ := hw
  exact ⟨published, heard, hheard, h.inside hi⟩

/-- A request, and what follows it where it makes a new symbol. -/
theorem request_during {α : Type} {request : Effect Environment (α × Option Symbol)}
    {f : α × Option Symbol → Effect (World FoldingSolver) α}
    (hrequest : ∀ env, Environment.Requested env (request.exec env))
    (hold : ∀ a, f (a, none) = pure a)
    (hnew : ∀ a symbol, f (a, some symbol) = publish ctx symbol >>= fun _ => pure a)
    (ha : w.Attended watching) (hw : w.During watching id s₀ old) :
    ((inEnvironment ctx request >>= f).exec w).2.During watching id s₀ old := by
  obtain hsame | ⟨c, symbol, d, env, hc, hd, hx⟩ := request_cases hrequest hold hnew w
  · rwa [hsame]
  · have hset := context_setEnvironment hc env
    have hattended := ha.setEnvironment hc hd.observers
    obtain ⟨published, heard, hheard, hspared, s, c', hs, hc', hknown, hin⟩ := hw
    rw [hx]
    by_cases hctx : s₀.home = ctx
    · subst hctx
      cases hc'.symm.trans hc
      have hcs := (hset s₀.home).trans (if_pos rfl)
      have hi : (setEnvironment s₀.home env w).Inside id s₀ (old ++ (published ++ [symbol]))
          heard := by
        refine ⟨hspared, s, _, hs, hcs, ?_, hin⟩
        rw [← List.append_assoc, ← hknown]
        exact hd.declared
      obtain hi | ⟨hwatching, hi⟩ := publish_inside hattended hi hcs hd.decl
      · exact ⟨_, _, hheard.told symbol, hi⟩
      · exact ⟨_, _, hheard.missed hwatching symbol, hi⟩
    · refine ⟨published, heard, hheard, publish_elsewhere hattended ?_ hctx⟩
      exact ⟨hspared, s, c', hs, (hset _).trans ((if_neg hctx).trans hc'), hknown, hin⟩

theorem constant_during (type : FormulaType) (name : String) (ha : w.Attended watching)
    (hw : w.During watching id s₀ old) :
    ((constant ctx type name).exec w).2.During watching id s₀ old := by
  have hterm : ((constantTerm ctx type name).exec w).2.During watching id s₀ old :=
    request_during (Environment.requestVariable_requested type name) (fun _ => rfl)
      (fun _ _ => rfl) ha hw
  unfold constant
  rw [Effect.exec_bind]
  rcases hx : (constantTerm ctx type name).exec w with ⟨x | t, u⟩ <;> rw [hx] at hterm
  · exact hterm
  · exact Reaches.during (inEnvironment_passes (Environment.wrap_works type t) ctx u).leads hterm

theorem function_during (name : String) (result : FormulaType) (arguments : List FormulaType)
    (ha : w.Attended watching) (hw : w.During watching id s₀ old) :
    ((function ctx name result arguments).exec w).2.During watching id s₀ old :=
  request_during (Environment.requestFunction_requested name arguments result) (fun _ => rfl)
    (fun _ _ => rfl) ha hw

end World

/-- Whatever happens elsewhere, the enumeration goes on. -/
theorem Event.after_during {watching : Prop} {id : Nat} {s₀ : AssertionStack FoldingSolver}
    {old : List Symbol} {w : World FoldingSolver} (e : Event FoldingSolver)
    (ha : e.Allowed (.folding watching)) (he : e.Spares id) (hhoused : w.Housed)
    (hattended : w.Attended watching) (hw : w.During watching id s₀ old) :
    (e.after w).During watching id s₀ old := by
  have happart : e.Allowed (.apart watching id) → (e.after w).During watching id s₀ old :=
    fun ha => (e.reaches ha hhoused).during hw
  cases e with
  | constant ctx type name => exact World.constant_during type name hattended hw
  | function ctx name result arguments =>
    exact World.function_during name result arguments hattended hw
  | openStack | newStack | removeWatch | dropWatch => exact happart ha
  | atStack | search | block | dropStack => exact happart he
  | addWatch ctx closes fails =>
    refine happart ⟨ha.1, ?_⟩
    rintro _ hcloses rfl
    exact he hcloses
  | aimWatch => exact happart ⟨ha.1, he⟩
  | _ => exact happart trivial

namespace World

variable {τ : Type} {watching : Prop} {w w' : World FoldingSolver} {id : Nat}
  {s₀ s : AssertionStack FoldingSolver} {c : Context} {old : List Symbol}

theorem Reached.mirrored (h : Reached (.folding watching) w) : ∃ told, w.Mirrored told := by
  obtain ⟨told, h⟩ := h.exists_trail
  exact ⟨told, mirrored_of_trail (fun _ h => h) h⟩

/-- What clients may do during the enumeration at a stack. -/
def Apart (watching : Prop) (id : Nat) (e : Event FoldingSolver) : Prop :=
  e.Allowed (.folding watching) ∧ e.Spares id

/-- Steps that the enumeration survives, in a world beside another state. -/
def GoesOn (watching : Prop) (id : Nat) (s₀ : AssertionStack FoldingSolver) (old : List Symbol)
    (y y' : World FoldingSolver × τ) : Prop :=
  Reached (.folding watching) y.1 ∧ y.1.During watching id s₀ old →
    Reached (.folding watching) y'.1 ∧ y'.1.During watching id s₀ old

instance : Std.Refl (GoesOn (τ := τ) watching id s₀ old) := ⟨fun _ h => h⟩

instance : IsTrans _ (GoesOn (τ := τ) watching id s₀ old) := ⟨fun _ _ _ h g hy => g (h hy)⟩

theorem Leads.goesOn (h : w.Leads (Apart watching id) w') (x x' : τ) :
    GoesOn watching id s₀ old (w, x) (w', x') := by
  -- Who observes the environments is known of reachable worlds only, so they go along.
  intro hy
  induction h with
  | refl => exact hy
  | tail _ hstep ih =>
    obtain ⟨e, ⟨ha, he⟩, rfl⟩ := hstep
    obtain ⟨hreached, hduring⟩ := ih
    exact ⟨hreached.tail ⟨e, ha, rfl⟩,
      e.after_during ha he hreached.housed hreached.attended hduring⟩

/-- Work at the stack itself that its enumeration does. -/
theorem atStack_goesOn {α : Type} {e : Effect (Site FoldingSolver) α} (event : Event FoldingSolver)
    (ha : event.Allowed (.folding watching))
    (hafter : ∀ w, ((atStack id e).exec w).2 = event.after w)
    (he : ∀ known heard, Effect.Within (Site.StaysInside s₀ known heard) e) :
    Effect.Within (GoesOn (τ := τ) watching id s₀ old) (beside (atStack id e)) := by
  rintro ⟨w, x⟩ ⟨hreached, published, heard, hheard, hinside⟩
  refine ⟨?_, published, heard, hheard, atStack_inside (he _ heard) hinside⟩
  rw [exec_beside, hafter]
  exact hreached.tail ⟨event, ha, rfl⟩

theorem enumerate_goesOn {callback : Nat → List BoolFormula → Effect (World FoldingSolver × τ) Unit}
    (hcallback : ∀ count literals,
      Effect.Within (LeadsBeside (Apart watching id)) (callback count literals))
    (important : List BoolFormula) :
    Effect.Within (GoesOn watching id s₀ old) (enumerate id important callback) := by
  refine enumerate_within (fun count literals y => ?_) (fun model => ?_) (fun negations => ?_)
    (fun fs y => ?_) important
  · exact Leads.goesOn (hcallback count literals y) _ _
  · exact atStack_goesOn (.search id model) trivial (fun _ => rfl)
      fun _ _ s => (Site.nextModel?_calm model s).staysInside
  · exact atStack_goesOn (.block id negations) trivial (fun _ => rfl)
      fun _ _ => Site.block_staysInside negations
  · exact Leads.goesOn (discardAll_leads (fun _ => ⟨trivial, trivial⟩) fs y.1) _ _

/-- The level of an enumeration can be popped as long as it is there. -/
theorem exec_pop_inside {heard : List Symbol} (hw : Reached (.folding watching) w)
    (hs : w.stack? id = some s) (hc : w.contexts[s.home]? = some c) (hi : s₀.Inside heard s) :
    ∃ u, (atStack id (Site.pop 1)).exec w = (.ok (), w.put id s.home u) ∧
      u.env.declared = c.env.declared ∧ s₀.Restored u.env.terms heard u.stack := by
  obtain ⟨told, hmirrored⟩ := hw.mirrored
  obtain ⟨d, hd, -, hreflects⟩ := (hmirrored id s hs).context
  rw [hc] at hd
  cases hd
  obtain ⟨u, hu, hdeclared, hrestored⟩ :=
    Site.exec_pop_inside (s := w.site c s) hi (hreflects hi.opened)
  refine ⟨u, ?_, hdeclared, hrestored⟩
  rw [exec_atStack hs hc, hu]

/-- An enumeration comes to what it comes to inside of its level. -/
theorem exec_allSat {u v : World FoldingSolver} {important : List BoolFormula}
    {callback : Nat → List BoolFormula → Effect (World FoldingSolver × τ) Unit} {x y : τ}
    {outcome : Except Fault Nat} (hpush : (atStack id (Site.push 1)).exec w = (.ok (), u))
    (hrun : (enumerate id important callback).exec (u, x) = (outcome, v, y))
    (hpop : (atStack id (Site.pop 1)).exec v = (.ok (), w')) :
    (allSat id important callback).exec (w, x) = (outcome, w', y) := by
  have hattempt : (Effect.attempt (enumerate id important callback)).exec (u, x) =
      (.ok outcome, v, y) := by
    rw [Effect.exec_attempt, hrun]
  rw [allSat_eq, Effect.exec_bind_ok (by rw [exec_beside, hpush]), Effect.exec_bind_ok hattempt]
  unfold conclude
  rw [Effect.exec_bind_ok (by rw [exec_beside, hpop])]
  cases outcome <;> rfl

/-- The stack of an enumeration is as before, but for symbols, which are recorded where they would
have been without it. Its outcome does not matter. -/
theorem exec_allSat_restored (hw : Reached (.folding watching) w) (hs : w.stack? id = some s)
    (ho : s.closed = false) (haims : ¬ w.Aims id) (hc : w.contexts[s.home]? = some c)
    {callback : Nat → List BoolFormula → Effect (World FoldingSolver × τ) Unit}
    (hcallback : ∀ count literals,
      Effect.Within (LeadsBeside (Apart watching id)) (callback count literals))
    (important : List BoolFormula) (x : τ) :
    ∃ s' c' published heard,
      ((allSat id important callback).exec (w, x)).2.1.stack? id = some s' ∧
      ((allSat id important callback).exec (w, x)).2.1.contexts[s.home]? = some c' ∧
      c'.env.declared = c.env.declared ++ published ∧ Heard watching published heard ∧
      s.Restored c'.env.terms heard s' := by
  obtain ⟨t, ht, hinside⟩ := Site.exec_push_inside (s := w.site c s) ho
  have hpush : (atStack id (Site.push 1)).exec w = (.ok (), w.put id s.home t) := by
    rw [exec_atStack hs hc, ht]
  have hpushed : Reached (.folding watching) (w.put id s.home t) ∧
      (w.put id s.home t).During watching id s c.env.declared := by
    refine ⟨hw.tail ⟨.atStack id (.push 1), trivial, (congrArg Prod.snd hpush).symm⟩,
      [], [], .nothing, by rwa [Aims, watches_put], t.stack, { c with env := t.env }, ?_, ?_, ?_⟩
    · rw [stack?_put hs, if_pos rfl]
    · exact (context_put hc t _).trans (if_pos rfl)
    · rw [List.append_nil]
      exact hinside
  rcases hrun : (enumerate id important callback).exec (w.put id s.home t, x) with ⟨outcome, w', x'⟩
  have hgoes : Reached (.folding watching) w' ∧ w'.During watching id s c.env.declared := by
    have h := enumerate_goesOn hcallback important (w.put id s.home t, x) hpushed
    rwa [hrun] at h
  obtain ⟨hreached, published, heard, hheard, -, s', c', hs', hc', hknown, hinside'⟩ := hgoes
  have hhome : s'.home = s.home := hinside'.home
  obtain ⟨u, hpop, hdeclared, hrestored⟩ := exec_pop_inside hreached hs' (hhome ▸ hc') hinside'
  have hx : ((allSat id important callback).exec (w, x)).2 = (w'.put id s'.home u, x') :=
    congrArg Prod.snd (exec_allSat hpush hrun hpop)
  rw [hx]
  refine ⟨u.stack, { c' with env := u.env }, published, heard, ?_, ?_, hdeclared.trans hknown,
    hheard, hrestored⟩
  · rw [stack?_put hs', if_pos rfl]
  · exact (context_put (hhome ▸ hc') u _).trans (if_pos hhome.symm)

/-- However an enumeration ends, its stack is open, and all its levels and frames have the
assertions of before. Where declarations are global, the symbols that were declared meanwhile are
known to the session, and recorded where they would have been recorded without the enumeration;
but for those that the stack did not hear of, as a watch failed before. -/
theorem allSat_restores (hw : Reached (.folding watching) w) (hs : w.stack? id = some s)
    (ho : s.closed = false) (haims : ¬ w.Aims id)
    {callback : Nat → List BoolFormula → Effect (World FoldingSolver × τ) Unit}
    (hcallback : ∀ count literals,
      Effect.Within (LeadsBeside (Apart watching id)) (callback count literals))
    (important : List BoolFormula) (x : τ) {outcome : Except Fault Nat}
    {w' : World FoldingSolver} {x' : τ}
    (hx : (allSat id important callback).exec (w, x) = (outcome, w', x')) :
    ∃ s' c c', w'.stack? id = some s' ∧ s'.closed = false ∧
      w.contexts[s.home]? = some c ∧ w'.contexts[s.home]? = some c' ∧
      s'.levels.depth = s.levels.depth ∧
      s'.levels.toList.map (·.assertions) = s.levels.toList.map (·.assertions) ∧
      s'.session.frames.toList.map (·.assertions) = s.session.frames.toList.map (·.assertions) ∧
      (c.options.globalDeclarations = true → ∃ published heard,
        c'.env.declared = c.env.declared ++ published ∧
        heard.Sublist published ∧ (¬ watching → heard = published) ∧
        s'.levels = s.levels.receive heard ∧ ∀ symbol ∈ heard, ∃ d,
          c'.env.terms.declOf symbol = .ok d ∧ s'.session.isDeclared d = true) := by
  obtain ⟨told, hmirrored⟩ := hw.mirrored
  obtain ⟨c, hc, hreplaying, -⟩ := (hmirrored id s hs).context
  obtain ⟨s', c', published, heard, hs', hc', hdeclared, hheard, hrestored⟩ :=
    exec_allSat_restored hw hs ho haims hc hcallback important x
  rw [hx] at hs' hc'
  obtain ⟨hlevels, hframes⟩ := hrestored.assertions
  refine ⟨s', c, c', hs', hrestored.opened, hc, hc', ?_, hlevels, hframes, fun hglobal => ?_⟩
  · have hlength := congrArg List.length hlevels
    rw [List.length_map, List.length_map, Tower.length_toList, Tower.length_toList] at hlength
    exact Nat.succ.inj hlength
  · obtain ⟨ds, hds, hreceived, hnoted⟩ := hrestored.replayed (hreplaying.trans hglobal)
    refine ⟨published, heard, hdeclared, hheard.sublist, hheard.eq, hreceived, fun symbol hm => ?_⟩
    obtain ⟨d, hd, hsd⟩ := exists_related hds.flip symbol hm
    refine ⟨d, hsd, ?_⟩
    rw [FoldingSolver.isDeclared, hnoted]
    exact FoldingSolver.isDeclared_note.2 (.inl hd)

/-- A constant that is equivalent to itself. -/
def agreement : BoolFormula := ⟨⟨⟨3⟩, .boolean, 0, none⟩, rfl⟩

/-- A stack that has asserted it above the base. -/
def agreeing : World FoldingSolver :=
  afterAll [
    .addContext .everything false false default none, .constant 0 .boolean "x",
    .constant 0 .boolean "y", .build 0 (.not ⟨0⟩), .build 0 (.iff ⟨1⟩ ⟨1⟩), .openStack 0 .new false,
    .atStack 0 (.push 1), .atStack 0 (.assert agreement none)]

/-- A callback that declares a symbol, and fails. -/
def declaring : Nat → List BoolFormula → Effect (World FoldingSolver × Unit) Unit := fun _ _ => do
  let _ ← beside (World.constant 0 .boolean "z")
  throw .foreign

theorem declaring_leads (count : Nat) (literals : List BoolFormula) :
    Effect.Within (LeadsBeside (Apart False 0)) (declaring count literals) :=
  .bind (beside_leads fun w => Leads.single (e := .constant 0 .boolean "z")
    ⟨⟨trivial, fun _ => trivial⟩, trivial⟩ w) fun _ => .throw _

/-- The enumeration fails, and the symbol is recorded in the level that was on top before. -/
theorem allSat_restores_declaring :
    ∃ e w' s', (allSat 0 [agreement] declaring).exec (agreeing, ()) = (.error e, w', ()) ∧
      w'.stack? 0 = some s' ∧ s'.levels.toList.map (·.assertions) = [[], [(none, ⟨3⟩)]] ∧
      s'.levels.symbols = [.boolean ⟨6⟩] := by
  have hplace : (agreeing.stack? 0).map (fun s => (s.closed, s.home)) = some (false, 0) := by
    decide +kernel
  have hlevels : (agreeing.stack? 0).map (fun s => s.levels.toList.map (·.assertions)) =
      some [[], [(none, ⟨3⟩)]] := by
    decide +kernel
  have hsymbols : (agreeing.stack? 0).map (fun s =>
      (s.levels.receive [.boolean ⟨6⟩]).symbols) = some [.boolean ⟨6⟩] := by decide +kernel
  have hcontext : (agreeing.contexts[0]?).map (fun c => (c.options.globalDeclarations,
      c.env.declared)) = some (true, [.boolean ⟨0⟩, .boolean ⟨1⟩]) := by decide +kernel
  have hrun : ((allSat 0 [agreement] declaring).exec (agreeing, ())).1.toOption = none ∧
      (((allSat 0 [agreement] declaring).exec (agreeing, ())).2.1.contexts[0]?).map
        (·.env.declared) = some [.boolean ⟨0⟩, .boolean ⟨1⟩, .boolean ⟨6⟩] := by
    decide +kernel
  have hreached : Reached (.folding False) agreeing :=
    reached_afterAll (by simp [Event.Allowed, Setting.folding])
  have haims : ¬ agreeing.Aims 0 := by
    rintro ⟨k, watch, hwatch, -⟩
    have hsize : agreeing.watches.size = 0 := by decide +kernel
    rw [Array.getElem?_eq_none (hsize ▸ Nat.zero_le k)] at hwatch
    cases hwatch
  obtain ⟨s, hs, h⟩ := Option.map_eq_some_iff.1 hplace
  simp only [Prod.mk.injEq] at h
  obtain ⟨hopen, hhome⟩ := h
  rw [hs] at hlevels hsymbols
  rcases hx : (allSat 0 [agreement] declaring).exec (agreeing, ()) with ⟨e | n, w', u⟩ <;>
    rw [hx] at hrun <;> obtain ⟨hfailed, hdeclared⟩ := hrun
  swap
  · cases hfailed
  obtain ⟨s', c, c', hs', -, hc, hc', -, hassertions, -, hglobal⟩ :=
    allSat_restores hreached hs hopen haims declaring_leads [agreement] () hx
  rw [hhome] at hc hc'
  rw [hc] at hcontext
  rw [hc'] at hdeclared
  simp only [Option.map_some, Option.some.injEq, Prod.mk.injEq]
    at hcontext hdeclared hlevels hsymbols
  obtain ⟨hoptions, hold⟩ := hcontext
  obtain ⟨published, heard, hpublished, -, hheard, hreceived, -⟩ := hglobal hoptions
  rw [hdeclared, hold] at hpublished
  obtain rfl : [.boolean ⟨6⟩] = published := by simpa using hpublished
  rw [hheard fun h => h] at hreceived
  exact ⟨e, w', s', rfl, hs', hassertions.trans hlevels, hreceived ▸ hsymbols⟩

end World
end FormulaStack
