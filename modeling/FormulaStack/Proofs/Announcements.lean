import FormulaStack.Proofs.Attendance
import FormulaStack.Proofs.Requests
import FormulaStack.ScriptedSolver

/-!
Which symbols the sessions of open stacks have been told of. A request that makes a symbol and
succeeds has told all; one that fails on its way has made the symbol all the same, and later
requests find it and tell nobody.
-/
namespace FormulaStack

/-- A session with a log of the symbols that it has declared. -/
structure Logged (σ : Type) where
  session : σ
  log : List Symbol

namespace Logged

variable {σ α : Type}

/-- Work of the session itself. -/
def work (e : SessionM σ α) : SessionM (Logged σ) α :=
  .on (fun (terms, l) => (terms, l.session))
    (fun (terms, session) (_, l) => (terms, { l with session })) e

instance [Session σ] : Session (Logged σ) where
  declare symbol := do
    work (Session.declare symbol)
    SessionM.update fun l => { l with log := l.log ++ [symbol] }
  assert t := work (Session.assert t)
  push := work Session.push
  pop := work Session.pop
  check := work Session.check
  reasonUnknown l := Session.reasonUnknown l.session
  eval complete t := work (Session.eval complete t)
  assignments := work Session.assignments
  forgetsDeclarations l := Session.forgetsDeclarations l.session
  interpolate ts us := work (Session.interpolate ts us)
  abbreviate ts := work (Session.abbreviate ts)
  shutdown := work Session.shutdown
  interrupt l := { l with session := Session.interrupt l.session }

/-- Nothing is taken out of the log. -/
def Appends (p q : Store × Logged σ) : Prop := p.2.log <+: q.2.log

instance : Std.Refl (Appends (σ := σ)) := ⟨fun _ => List.prefix_rfl⟩

instance : IsTrans _ (Appends (σ := σ)) := ⟨fun _ _ _ h g => h.trans g⟩

theorem work_appends (e : SessionM σ α) : Effect.Within Appends (work e) :=
  fun _ => List.prefix_rfl

variable [Session σ]

theorem declare_appends (symbol : Symbol) :
    Effect.Within Appends (Session.declare symbol : SessionM (Logged σ) Unit) :=
  .bind (work_appends _) fun _ => .update fun _ => List.prefix_append _ _

theorem question_appends {e : SessionM (Logged σ) α} (he : Session.Question e) :
    Effect.Within Appends e := by
  cases he <;> exact work_appends _

theorem command_appends {e : SessionM (Logged σ) Unit} (he : Session.Command e) :
    Effect.Within Appends e := by
  cases he with
  | declare symbol => exact declare_appends symbol
  | _ => exact work_appends _

/-- What was declared with success is in the log. -/
theorem mem_of_declare {symbol : Symbol} {p q : Store × Logged σ}
    (h : (Session.declare symbol : SessionM (Logged σ) Unit).exec p = (.ok (), q)) :
    symbol ∈ q.2.log := by
  change (work (Session.declare symbol) >>= fun _ =>
    SessionM.update fun l : Logged σ => { l with log := l.log ++ [symbol] }).exec p = _ at h
  rw [Effect.exec_bind] at h
  rcases hx : (work (Session.declare symbol)).exec p with ⟨x | _, u⟩ <;> rw [hx] at h <;> cases h
  exact List.mem_append_right _ (List.mem_singleton_self symbol)

theorem mem_of_declareAll {symbols : List Symbol} {p q : Store × Logged σ}
    (h : (symbols.forM Session.declare : SessionM (Logged σ) Unit).exec p = (.ok (), q)) :
    ∀ symbol ∈ symbols, symbol ∈ q.2.log := by
  rw [List.forM_eq_forM] at h
  induction symbols generalizing p with
  | nil => exact fun _ hm => (List.not_mem_nil hm).elim
  | cons first rest ih =>
    rw [List.forM_cons, Effect.exec_bind] at h
    rcases hx : (Session.declare first : SessionM (Logged σ) Unit).exec p with ⟨x | _, u⟩ <;>
      rw [hx] at h <;> dsimp only at h
    · cases h
    · have hrest := Effect.Within.forM (declare_appends (σ := σ)) rest u
      intro symbol hm
      obtain rfl | hm := List.mem_cons.1 hm
      · rw [List.forM_eq_forM, h] at hrest
        exact hrest.subset (mem_of_declare hx)
      · exact ih h symbol hm

end Logged

namespace Site

variable {σ : Type} [Session σ] {s t : Site (Logged σ)}

theorem Turn.appends {told : List Incident} (h : Turn s told t) :
    s.stack.session.log <+: t.stack.session.log := by
  have hdone : ∀ {α : Type} {e : SessionM (Logged σ) α} {r : Except Fault α}
      {p q : Store × Logged σ}, Effect.Within Logged.Appends e → e.exec p = (r, q) →
        p.2.log <+: q.2.log := by
    intro α e r p q he hx
    have h := he p
    rwa [hx] at h
  have hpop : ∀ {q : Store × Logged σ},
      (Session.pop : SessionM (Logged σ) Unit).exec s.desk = (.ok (), q) →
        s.stack.session.log <+: q.2.log := fun hx => hdone (Logged.command_appends .pop) hx
  have hdeclare : ∀ {symbols : List Symbol} {r : Except Fault PUnit} {p q : Store × Logged σ},
      (symbols.forM Session.declare : SessionM (Logged σ) Unit).exec p = (r, q) →
        p.2.log <+: q.2.log := fun hx => hdone (.forM Logged.declare_appends _) hx
  cases h with
  | pause h =>
    cases h with
    | question _ he => exact Logged.question_appends he s.desk
    | environment | noted => exact List.prefix_rfl
  | refused he hx => exact hdone (Logged.command_appends he) hx
  | declared _ hx => exact hdone (Logged.declare_appends _) hx
  | pushed hx => exact hdone (Logged.command_appends .push) hx
  | asserted _ hx => exact hdone (Logged.command_appends (.assert _)) hx
  | popped hx | bottomed hx => exact hpop hx
  | replayed hx _ _ hd | abandoned hx _ _ hd => exact (hpop hx).trans (hdeclare hd)
  | shutdown => exact Logged.work_appends _ s.desk
  | detached | emptied => exact List.prefix_rfl

theorem appends_of_trail {told : List Incident} (h : Trail Turn s told t) :
    s.stack.session.log <+: t.stack.session.log := by
  induction h with
  | refl => exact List.prefix_rfl
  | tail _ hturn ih => exact ih.trans hturn.appends

/-- A stack that was told of a symbol with success is closed, or its session has declared it. -/
theorem mem_of_symbolRequested {symbol : Symbol}
    (hx : (symbolRequested symbol).exec s = (.ok (), t)) (ho : t.stack.closed = false) :
    symbol ∈ t.stack.session.log := by
  unfold symbolRequested at hx
  rw [Effect.exec_bind_ok (Effect.exec_look _ _)] at hx
  cases hc : s.stack.closed with
  | true =>
    rw [hc] at hx
    cases hx
    cases hc.symm.trans ho
  | false =>
    rw [hc] at hx
    change (declare symbol).exec s = _ at hx
    unfold declare at hx
    rcases hd : (Session.declare symbol : SessionM (Logged σ) Unit).exec s.desk with ⟨x | _, p⟩
    · rw [Effect.exec_bind_error (exec_native_eq hd)] at hx
      cases hx
    · rw [Effect.exec_bind_ok (exec_native_eq hd), exec_updateStack] at hx
      cases hx
      exact Logged.mem_of_declare hd

end Site

namespace World

variable {σ : Type} [Session σ] {g : Setting (Logged σ)} {w w' : World (Logged σ)}
  {P : Nat → Nat → Symbol → Prop} {c : Context} {ctx : Nat} {symbol : Symbol}

/-- The sessions of open stacks have been told of the symbols of their environments, but for those
that `P` says of a stack, a context and a symbol. -/
def Informed (P : Nat → Nat → Symbol → Prop) (w : World (Logged σ)) : Prop :=
  ∀ id s, w.stack? id = some s → s.closed = false →
    ∀ symbol ∈ (w.environmentOf s.home).declared, symbol ∈ s.session.log ∨ P id s.home symbol

theorem Move.informed {told : List Incident} (h : Move g w told w') (hg : ¬ g.requesting)
    (hi : w.Informed P) : w'.Informed P := by
  intro j s' hs' ho symbol hm
  rw [(h.unasked hg _).declared] at hm
  cases h with
  | @site id s c _ t _ hs hc h =>
    rw [stack?_put hs] at hs'
    split at hs'
    · next hj =>
      cases hs'
      have hr := Site.remains_of_trail h
      have hhome : t.stack.home = s.home := hr.home
      rw [hhome] at hm ⊢
      rw [hj]
      exact (hi id s hs (Site.not_closed hr.closed ho) symbol hm).imp_left
        fun hlog => (Site.appends_of_trail h).subset hlog
    · exact hi j s' hs' ho symbol hm
  | context theories counting announced options notifierOf =>
    rw [stack?, stackTable_addContext] at hs'
    exact hi j s' hs' ho symbol hm
  | @opened ctx c _ _ _ hc _ h interpolating =>
    rw [stack?_opened] at hs'
    split at hs'
    · cases hs'
      have hdeclared : symbol ∈ (w.environmentOf ctx).declared := hm
      rw [environmentOf_eq hc] at hdeclared
      exact .inl (Logged.mem_of_declareAll h symbol hdeclared)
    · exact hi j s' hs' ho symbol hm
  | dropped _ hs hcl => exact hi j s' (stack?_of_withStack_none hs') ho symbol hm
  | reacted reason r =>
    obtain ⟨s, hs, rfl | rfl⟩ := stack?_react hs'
    · exact hi j _ hs ho symbol hm
    · exact hi j s hs ho symbol hm
  | beside hcontexts hstacks | watched _ hsize hstacks =>
    rw [stack?, hstacks] at hs'
    exact hi j s' hs' ho symbol hm
  | _ => exact hi j s' hs' ho symbol hm

theorem Reaches.informed (h : w.Reaches g w') (hg : ¬ g.requesting) (hi : w.Informed P) :
    w'.Informed P := by
  obtain ⟨told, h⟩ := h
  induction h with
  | refl => exact hi
  | tail _ hmove ih => exact hmove.informed hg ih

theorem mem_of_tell {id : Nat} {s : AssertionStack (Logged σ)}
    (hx : (tell symbol (.stack id)).exec w = (.ok (), w')) (hs : w'.stack? id = some s)
    (ho : s.closed = false) : symbol ∈ s.session.log := by
  unfold tell at hx
  rw [Effect.exec_bind_ok (Effect.exec_get _)] at hx
  cases hs₀ : w.stack? id with
  | none =>
    rw [hs₀] at hx
    cases hx
    cases hs₀.symm.trans hs
  | some s₀ =>
    rw [hs₀, Option.isSome_some, if_pos rfl] at hx
    cases hc : w.contexts[s₀.home]? with
    | none =>
      rw [exec_atStack_foreign hs₀ hc] at hx
      cases hx
    | some c =>
      rw [exec_atStack hs₀ hc, Prod.mk.injEq] at hx
      obtain ⟨hr, rfl⟩ := hx
      rw [stack?_put hs₀, if_pos rfl] at hs
      cases hs
      exact Site.mem_of_symbolRequested (Prod.ext hr rfl) ho

/-- A publication that succeeds has told the sessions of all open stacks that observe the
environment. -/
theorem publish_informs {id : Nat} (hc : w.contexts[ctx]? = some c)
    (hx : (publish ctx symbol).exec w = (.ok (), w')) (hid : .stack id ∈ c.env.observers) :
    w'.Informed fun j _ symbol' => j = id → symbol' ≠ symbol := by
  obtain ⟨before, after, hobservers⟩ := List.append_of_mem hid
  have hafter : Effect.Within (Reaches .silent)
      (after.forM (tell symbol) : Effect (World (Logged σ)) Unit) :=
    .forM (fun o w => tell_reaches symbol (fun _ _ => trivial) fun _ _ => trivial) after
  unfold publish at hx
  rw [Effect.exec_bind_ok (exec_context hc), hobservers, List.forM_eq_forM, List.forM_append,
    List.forM_cons] at hx
  -- The stack itself is told between those before it and those after it.
  rw [Effect.exec_bind] at hx
  rcases hu : (forM before (tell symbol)).exec w with ⟨x | _, u⟩ <;> rw [hu] at hx <;>
    dsimp only at hx
  · cases hx
  rw [Effect.exec_bind] at hx
  rcases hv : (tell symbol (.stack id)).exec u with ⟨x | _, v⟩ <;> rw [hv] at hx <;>
    dsimp only at hx
  · cases hx
  have hinformed : v.Informed fun j _ symbol' => j = id → symbol' ≠ symbol := by
    intro j s hs ho symbol' _
    by_cases h : j = id ∧ symbol' = symbol
    · obtain ⟨rfl, rfl⟩ := h
      exact .inl (mem_of_tell hv hs ho)
    · exact .inr fun hj hsymbol => h ⟨hj, hsymbol⟩
  have hrest := hafter v
  rw [List.forM_eq_forM, hx] at hrest
  exact Reaches.informed hrest not_false hinformed

omit [Session σ] in
theorem Informed.mono {Q : Nat → Nat → Symbol → Prop} (hi : w.Informed P)
    (h : ∀ id home symbol, P id home symbol → Q id home symbol) : w.Informed Q :=
  fun id s hs ho symbol hm => (hi id s hs ho symbol hm).imp_right (h id s.home symbol)

/-- A stack is open that was opened in a context. -/
def OpenIn (w : World σ) (ctx id : Nat) : Prop :=
  ∃ s, w.stack? id = some s ∧ s.closed = false ∧ s.home = ctx

section Requests

variable {env : Environment} {r : SymbolRequest}

omit [Session σ] in
/-- A new symbol is unknown to the stacks that were opened in its context, and to no other. -/
theorem informed_makes (hi : w.Informed P) (hc : w.contexts[ctx]? = some c)
    (hmakes : c.env.Makes r symbol env) : (setEnvironment ctx env w).Informed fun id home symbol' =>
      P id home symbol' ∨ (home = ctx ∧ symbol' = symbol ∧ w.OpenIn ctx id) := by
  intro id s hs ho symbol' hm
  obtain ⟨d, hd⟩ := hmakes.declares
  rw [environmentOf_setEnvironment hc] at hm
  have hold : symbol' ∈ (w.environmentOf s.home).declared →
      symbol' ∈ s.session.log ∨ P id s.home symbol' ∨
        (s.home = ctx ∧ symbol' = symbol ∧ w.OpenIn ctx id) :=
    fun hm => (hi id s hs ho symbol' hm).imp_right .inl
  split at hm
  · next hhome =>
    rw [hd.declared] at hm
    obtain hm | hm := List.mem_append.1 hm
    · exact hold (by rwa [hhome, environmentOf_eq hc])
    · exact .inr (.inr ⟨hhome, List.mem_singleton.1 hm, s, hs, ho, hhome⟩)
  · exact hold hm

theorem publish_silent (ctx : Nat) (symbol : Symbol) :
    Effect.Within (Reaches .silent) (publish ctx symbol : Effect (World (Logged σ)) Unit) :=
  publish_reaches (fun _ => trivial) ctx symbol

/-- Once a request has made a symbol and all were told of it, the sessions of open stacks have
it. -/
theorem informed_made (hi : w.Informed P) (ha : w.Attended True)
    (hc : w.contexts[ctx]? = some c) (hmakes : c.env.Makes r symbol env)
    (hx : (publish ctx symbol).exec (setEnvironment ctx env w) = (.ok (), w')) :
    w'.Informed fun id home symbol' => P id home symbol' ∧ ¬ (home = ctx ∧ symbol' = symbol) := by
  obtain ⟨d, hd⟩ := hmakes.declares
  have hpublish := publish_silent ctx symbol (setEnvironment ctx env w)
  rw [hx] at hpublish
  intro id s hs ho symbol' hm
  by_cases hnew : s.home = ctx ∧ symbol' = symbol
  · obtain ⟨hhome, rfl⟩ := hnew
    -- A stack that is open after all was open before, and so it observed the environment.
    have hopen : (setEnvironment ctx env w).Informed fun id home _ =>
        home = ctx → w.OpenIn ctx id := fun id s hs ho _ _ => .inr fun hh => ⟨s, hs, ho, hh⟩
    obtain hlog | hopen := hpublish.informed not_false hopen id s hs ho _ hm
    · exact .inl hlog
    · obtain ⟨s₀, hs₀, ho₀, hhome₀⟩ := hopen hhome
      have hobserves := ha.opened id s₀ hs₀ ho₀
      rw [hhome₀, observersOf_eq hc, ← hd.observers] at hobserves
      have hc' := (context_setEnvironment hc env ctx).trans (if_pos rfl)
      exact (publish_informs hc' hx hobserves id s hs ho _ hm).imp_right fun h => absurd rfl (h rfl)
  · obtain hlog | hp | ⟨hhome, hsymbol, -⟩ :=
      hpublish.informed not_false (informed_makes hi hc hmakes) id s hs ho symbol' hm
    · exact .inl hlog
    · exact .inr ⟨hp, hnew⟩
    · exact absurd ⟨hhome, hsymbol⟩ hnew

end Requests

end World

/-- A request makes a symbol and fails all the same, while a stack is open in the context. -/
def Event.Misses {σ : Type} [Session σ] (e : Event σ) (w : World σ) (id ctx : Nat)
    (symbol : Symbol) : Prop :=
  ∃ (r : SymbolRequest) (x : Fault), e = r.event ctx ∧ ((r.make ctx).exec w).1 = .error x ∧
    ((e.after w).environmentOf ctx).declared = (w.environmentOf ctx).declared ++ [symbol] ∧
      w.OpenIn ctx id

namespace World

variable {σ : Type} [Session σ]

/-- Whatever happens, the sessions of open stacks have been told of all symbols of their
environments, but for those that a request made and failed. -/
theorem informed_afterAll (events : List (Event (Logged σ))) :
    (afterAll events).Informed fun id ctx symbol =>
      Happens (·.Misses · id ctx symbol) [] events := by
  induction events using List.reverseRecOn with
  | nil =>
    intro id s hs
    rw [stack?_eq_some] at hs
    cases hs
  | append_singleton events e ih =>
    rw [afterAll_concat]
    have hbefore : ∀ (id home : Nat) (symbol : Symbol),
        Happens (·.Misses · id home symbol) [] events →
          Happens (·.Misses · id home symbol) [] (events ++ [e]) :=
      fun _ _ _ h => happens_concat.2 (.inl h)
    obtain ⟨r, ctx, rfl⟩ | he := SymbolRequest.event_or_allowed e
    · have hafter : Reaches .silent _ _ := (r.after_event ctx (afterAll events)).leads
      obtain ⟨hsame, -⟩ | ⟨c, symbol, env, hc, hmakes, hx⟩ := r.make_cases ctx (afterAll events)
      · rw [hsame] at hafter
        exact (hafter.informed not_false ih).mono hbefore
      · rcases hp : (publish ctx symbol).exec (setEnvironment ctx env (afterAll events)) with
          ⟨x | _, w'⟩ <;> rw [hp] at hx <;> rw [hx] at hafter
        · have hpublish := publish_silent ctx symbol (setEnvironment ctx env (afterAll events))
          rw [hp] at hpublish
          have hinformed := hafter.informed not_false
            (hpublish.informed not_false (informed_makes ih hc hmakes))
          refine hinformed.mono fun id home symbol' h => ?_
          obtain h | ⟨rfl, rfl, hopen⟩ := h
          · exact hbefore id home symbol' h
          · obtain ⟨d, hd⟩ := hmakes.declares
            have hmisses : (r.event home).Misses (afterAll events) id home symbol' := by
              refine ⟨r, x, rfl, by rw [hx]; rfl, ?_, hopen⟩
              rw [(hafter.unasked not_false home).declared,
                (hpublish.unasked not_false home).declared, environmentOf_setEnvironment hc,
                if_pos rfl, hd.declared, environmentOf_eq hc]
            exact happens_concat.2 (.inr hmisses)
        · have hinformed := hafter.informed not_false
            (informed_made ih (attended_afterAll events) hc hmakes hp)
          exact hinformed.mono fun id home symbol' h => hbefore id home symbol' h.1
    · exact ((e.reaches he (housed_afterAll events)).informed not_false ih).mono hbefore

/-- When a request succeeds, the session of each stack that is then open in the context has declared
the symbol; or the symbol is not new, and the request that made it failed while the stack was
open. -/
theorem symbols_announced {events : List (Event (Logged σ))} {r : SymbolRequest} {ctx id : Nat}
    {symbol : Symbol} {w' : World (Logged σ)} {s : AssertionStack (Logged σ)}
    (hx : (r.make ctx).exec (afterAll events) = (.ok symbol, w')) (hs : w'.stack? id = some s)
    (hhome : s.home = ctx) (ho : s.closed = false) :
    symbol ∈ s.session.log ∨ symbol ∈ ((afterAll events).environmentOf ctx).declared ∧
      Happens (·.Misses · id ctx symbol) [] events := by
  have hinformed := informed_afterAll events
  obtain ⟨hsame, hfound⟩ | ⟨c, made, env, hc, hmakes, hmake⟩ := r.make_cases ctx (afterAll events)
  · rw [hx] at hsame hfound
    have hdeclared := (enrolled_afterAll events ctx symbol).2 ⟨r, hfound symbol rfl⟩
    have hs' : (afterAll events).stack? id = some s := hsame ▸ hs
    refine (hinformed id s hs' ho symbol (hhome ▸ hdeclared)).imp_right fun h => ⟨hdeclared, ?_⟩
    exact hhome ▸ h
  · rw [hx] at hmake
    rcases hp : (publish ctx made).exec (setEnvironment ctx env (afterAll events)) with
      ⟨x | _, u⟩ <;> rw [hp] at hmake <;> cases hmake
    obtain ⟨d, hd⟩ := hmakes.declares
    have hpublish := publish_silent ctx made (setEnvironment ctx env (afterAll events))
    rw [hp] at hpublish
    have hdeclared : made ∈ (u.environmentOf s.home).declared := by
      rw [hhome, (hpublish.unasked not_false ctx).declared, environmentOf_setEnvironment hc,
        if_pos rfl, hd.declared]
      exact List.mem_append_right _ (List.mem_singleton_self made)
    obtain hlog | ⟨-, hnew⟩ := informed_made hinformed (attended_afterAll events) hc hmakes hp
      id s hs ho made hdeclared
    · exact .inl hlog
    · exact absurd ⟨hhome, rfl⟩ hnew

/-- A session that refuses the first symbol that it is told of, which is a constant. -/
def missing : List (Event (Logged ScriptedSolver)) :=
  let script := { (default : Script) with failDeclare := some 0 }
  [.addContext .everything false false default none, .openStack 0 ⟨.new script, []⟩ false,
    .constant 0 .boolean "p"]

/-- The next request for the constant succeeds, and the session still does not know it. -/
theorem symbols_announced_missing :
    ∃ w' s, ((SymbolRequest.constant .boolean "p").make 0).exec (afterAll missing) =
        (.ok (.boolean ⟨0⟩), w') ∧ w'.stack? 0 = some s ∧ s.session.log = [] ∧
      Happens (·.Misses · 0 0 (.boolean ⟨0⟩)) [] missing := by
  have hmade : (((SymbolRequest.constant .boolean "p").make 0).exec
      (afterAll missing)).1.toOption = some (.boolean ⟨0⟩) := by decide +kernel
  have hstack : ((((SymbolRequest.constant .boolean "p").make 0).exec
      (afterAll missing)).2.stack? 0).map (fun s => (s.closed, s.home, s.session.log)) =
        some (false, 0, []) := by
    decide +kernel
  rcases hx : ((SymbolRequest.constant .boolean "p").make 0).exec (afterAll missing) with
    ⟨x | symbol, w'⟩ <;> rw [hx] at hmade hstack
  · cases hmade
  · cases hmade
    obtain ⟨s, hs, h⟩ := Option.map_eq_some_iff.1 hstack
    simp only [Prod.mk.injEq] at h
    obtain ⟨ho, hhome, hlog⟩ := h
    refine ⟨w', s, rfl, hs, hlog, ?_⟩
    obtain hm | ⟨-, hmissed⟩ := symbols_announced hx hs hhome ho
    · rw [hlog] at hm
      cases hm
    · exact hmissed

end World

end FormulaStack
