import FormulaStack.Proofs.Tidings

/-!
The registry of symbols after any events. What was requested of an environment is found later by
the same request and by no other one; it is declared once, in the order of the first requests; and
those who observed the environment when it was requested first were told of it, in the order in
which they came, up to the first one that failed.
-/
namespace FormulaStack

namespace World

variable {before events : List (Event FoldingSolver)} {p q : Nat × SymbolRequest} {ctx : Nat}
  {symbol : Symbol} {name : String} {type result : FormulaType} {arguments : List FormulaType}

/-! What requests of a run gave -/

/-- What is found is found from then on. -/
theorem symbolOf?_afterAll (hrun : before <+: events)
    (hs : (afterAll before).symbolOf? p = some symbol) :
    (afterAll events).symbolOf? p = some symbol := by
  obtain ⟨later, rfl⟩ := hrun
  induction later using List.reverseRecOn with
  | nil => rwa [List.append_nil]
  | append_singleton later e ih =>
    rw [← List.append_assoc, afterAll_concat]
    have hchronicled := chronicled_afterAll (before ++ later)
    obtain ⟨-, hunasked, -⟩ | ⟨q, c, made, env, -, hfresh, hnew⟩ :=
      hchronicled.cases (housed_afterAll _) (registered_afterAll _) e
    · rwa [symbolOf?_unasked hunasked]
    · rw [hnew.symbolOf?, if_neg, ih]
      rintro rfl
      exact hfresh ((hchronicled.found p).2 ⟨symbol, ih⟩)

/-- What a request gave is found from then on. -/
theorem symbolOf?_of_make {r : SymbolRequest} (hrun : before ++ [r.event ctx] <+: events)
    (hx : ((r.make ctx).exec (afterAll before)).1 = .ok symbol) :
    (afterAll events).symbolOf? (ctx, r) = some symbol := by
  refine symbolOf?_afterAll hrun ?_
  have hrequest : (r.event ctx : Event FoldingSolver).request? = some (ctx, r) :=
    Event.request?_eq_some.2 rfl
  rw [afterAll_concat]
  obtain ⟨hunasked, hfinds⟩ | ⟨p, c, made, env, hnew⟩ :=
    after_cases (r.event ctx) (housed_afterAll before) (registered_afterAll before)
  · rw [symbolOf?_unasked hunasked]
    exact (hfinds _ hrequest).given symbol hx
  · cases hrequest.symm.trans hnew.request
    rw [hnew.symbolOf?, if_pos rfl]
    rw [hnew.made] at hx
    cases hp : ((publish ctx made).exec (setEnvironment ctx env (afterAll before))).1 <;>
      rw [hp] at hx <;> cases hx
    rfl

/-- The constant that a request gave is the one of its name and type. -/
theorem lookup_of_constantTerm {t : Term}
    (hrun : before ++ [.constant ctx type name] <+: events)
    (hx : ((constantTerm ctx type name).exec (afterAll before)).1 = .ok t) :
    ((afterAll events).environmentOf ctx).constants.lookup (name, type) = some t := by
  have hmake : (((SymbolRequest.constant type name).make ctx).exec (afterAll before)).1 =
      .ok (.ofConstant type t) := by
    rw [SymbolRequest.make, Effect.exec_bind_pure, hx]
    rfl
  obtain ⟨t', ht', hsame⟩ := Option.map_eq_some_iff.1
    (symbolOf?_of_make (r := .constant type name) hrun hmake)
  rw [ht']
  unfold Symbol.ofConstant at hsame
  split at hsame <;> cases hsame <;> rfl

/-- A declaration says for which request it was given. -/
theorem requestFunction_eq_ok {env : Environment} {found : FunctionDeclaration × Option Symbol}
    (hx : ((Environment.requestFunction name arguments result).exec env).1 = .ok found) :
    found.1 = ⟨name, arguments, result, found.1.decl, env.id⟩ := by
  rw [Environment.exec_requestFunction] at hx
  split at hx
  · cases hx
  · split at hx
    · cases hx
      rfl
    · split at hx
      · cases hx
      · split at hx <;> cases hx
        rfl

theorem function_eq_ok {w : World FoldingSolver} {d : FunctionDeclaration}
    (hx : ((function ctx name result arguments).exec w).1 = .ok d) :
    ∃ c, w.contexts[ctx]? = some c ∧ d = ⟨name, arguments, result, d.decl, c.env.id⟩ := by
  unfold function at hx
  rw [Effect.exec_bind] at hx
  cases hc : w.contexts[ctx]? with
  | none =>
    rw [exec_inEnvironment_none hc] at hx
    cases hx
  | some c =>
    rw [exec_inEnvironment hc] at hx
    cases hfound : ((Environment.requestFunction name arguments result).exec c.env).1 with
    | error x =>
      rw [hfound] at hx
      cases hx
    | ok found =>
      have hd := requestFunction_eq_ok hfound
      obtain ⟨made, new⟩ := found
      rw [hfound] at hx
      cases new with
      | none =>
        cases hx
        exact ⟨c, rfl, hd⟩
      | some new =>
        dsimp only at hx
        rw [Effect.exec_bind_pure] at hx
        generalize ((publish ctx new : Effect (World FoldingSolver) Unit).exec _).1 = outcome at hx
        cases outcome <;> cases hx
        exact ⟨c, rfl, hd⟩

/-- The declaration that a request gave is the one of its name and types. -/
theorem lookup_of_function {d : FunctionDeclaration}
    (hrun : before ++ [.function ctx name result arguments] <+: events)
    (hx : ((function ctx name result arguments).exec (afterAll before)).1 = .ok d) :
    ((afterAll events).environmentOf ctx).functions.lookup (name, arguments, result) =
        some d.decl ∧
      d = ⟨name, arguments, result, d.decl, ((afterAll events).environmentOf ctx).id⟩ := by
  have hmake : (((SymbolRequest.function name result arguments).make ctx).exec
      (afterAll before)).1 = .ok (.function d.decl) := by
    rw [SymbolRequest.make, Effect.exec_bind_pure, hx]
    rfl
  refine ⟨?_, ?_⟩
  · obtain ⟨decl, hdecl, hsame⟩ := Option.map_eq_some_iff.1
      (symbolOf?_of_make (r := .function name result arguments) hrun hmake)
    cases hsame
    exact hdecl
  · obtain ⟨c, hc, hd⟩ := function_eq_ok hx
    obtain ⟨later, rfl⟩ := (List.prefix_append before [_]).trans hrun
    obtain ⟨c', hc', hid, -⟩ := (stays_afterAll before later).exists_context hc
    rw [environmentOf_eq hc', hid]
    exact hd

/-! What a registry promises -/

/-- The registry of symbols is faithful to the requests of a run. -/
structure Faithful (events : List (Event FoldingSolver)) : Prop where
  /-- Requests for constants gave the same handle just if they were for the same type and name. -/
  constants : ∀ {before before' ctx type type' name name'} {t t' : Term},
    before ++ [.constant ctx type name] <+: events →
    before' ++ [.constant ctx type' name'] <+: events →
    ((constantTerm ctx type name).exec (afterAll before)).1 = .ok t →
    ((constantTerm ctx type' name').exec (afterAll before')).1 = .ok t' →
      (t = t' ↔ type = type' ∧ name = name')
  /-- A handle has the type that was requested. -/
  typed : ∀ {before ctx type name} {t : Term}, before ++ [.constant ctx type name] <+: events →
    ((constantTerm ctx type name).exec (afterAll before)).1 = .ok t →
      ((afterAll events).environmentOf ctx).typeOf t = .ok type
  /-- Requests for functions gave the same declaration just if they were for the same name and
  types, and only then the same native one. -/
  functions : ∀ {before before' ctx name name' result result' arguments arguments' d d'},
    before ++ [.function ctx name result arguments] <+: events →
    before' ++ [.function ctx name' result' arguments'] <+: events →
    ((function ctx name result arguments).exec (afterAll before)).1 = .ok d →
    ((function ctx name' result' arguments').exec (afterAll before')).1 = .ok d' →
      (d = d' ↔ name = name' ∧ result = result' ∧ arguments = arguments') ∧
        (d.decl = d'.decl → d = d')
  /-- The symbols of an environment are those of its first requests, in their order. -/
  declared : ∀ ctx, ((afterAll events).environmentOf ctx).declared.map some =
    ((firstRequests events).filter (·.1 = ctx)).map (afterAll events).symbolOf?
  once : (firstRequests events).Nodup
  /-- They stand for declarations, each for another one. -/
  distinct : ∀ ctx, (((afterAll events).environmentOf ctx).declared.map
    ((afterAll events).environmentOf ctx).terms.declOf).Nodup
  /-- A watch has received the symbols of the first requests that it was told of, in their order. -/
  received : ∀ k received, (afterAll events).received? k = some received →
    received.map some = (heard (.watch k) events).map (afterAll events).symbolOf?
  heard : ∀ o, (heard o events).Sublist (firstRequests events)

theorem nodup_declOf (ctx : Nat) :
    (((afterAll events).environmentOf ctx).declared.map
      ((afterAll events).environmentOf ctx).terms.declOf).Nodup := by
  have h := chronicled_afterAll events
  have hregistered := registered_afterAll events ctx
  have hmap : (((afterAll events).environmentOf ctx).declared.map
      ((afterAll events).environmentOf ctx).terms.declOf).map some =
      ((firstRequests events).filter (·.1 = ctx)).map fun p =>
        ((afterAll events).symbolOf? p).map ((afterAll events).environmentOf ctx).terms.declOf := by
    have hdeclared := congrArg (List.map (Option.map
      ((afterAll events).environmentOf ctx).terms.declOf)) (h.declared ctx)
    rw [List.map_map, List.map_map] at hdeclared
    rw [List.map_map]
    exact hdeclared
  refine List.Nodup.of_map some ?_
  rw [hmap]
  refine (h.once.filter _).map_on fun p hp q hq hsame => ?_
  obtain ⟨i, r⟩ := p
  obtain ⟨j, r'⟩ := q
  obtain ⟨hfirst, hctx⟩ := List.mem_filter.1 hp
  obtain ⟨hfirst', hctx'⟩ := List.mem_filter.1 hq
  obtain rfl : i = ctx := of_decide_eq_true hctx
  obtain rfl : j = i := of_decide_eq_true hctx'
  obtain ⟨symbol, hsymbol⟩ := (h.found _).1 hfirst
  obtain ⟨symbol', hsymbol'⟩ := (h.found _).1 hfirst'
  obtain ⟨d, hd⟩ := hregistered.exists_declOf hsymbol
  rw [hsymbol, hsymbol', Option.map_some, Option.map_some, Option.some.injEq, hd] at hsame
  have hr :=
    hregistered.request_unique (symbolFor?_improper events j) hsymbol hsymbol' hd hsame.symm
  exact congrArg (j, ·) hr

theorem faithful_afterAll (events : List (Event FoldingSolver)) : Faithful events where
  constants {before before' ctx type type' name name' t t'} hrun hrun' hx hx' := by
    have hregistered := registered_afterAll events ctx
    have ht := lookup_of_constantTerm hrun hx
    have ht' := lookup_of_constantTerm hrun' hx'
    constructor
    · rintro rfl
      obtain ⟨d, k, hk, hn, hd⟩ := hregistered.constant _ _ _ (Environment.mem_of_lookup ht)
      obtain ⟨d', k', hk', hn', hd'⟩ := hregistered.constant _ _ _ (Environment.mem_of_lookup ht')
      cases hn.symm.trans hn'
      cases hd.symm.trans hd'
      exact ⟨(Environment.type_of_sortOf hk).symm.trans (Environment.type_of_sortOf hk'), rfl⟩
    · rintro ⟨rfl, rfl⟩
      exact Option.some.inj (ht.symm.trans ht')
  typed {before ctx type name t} hrun hx := by
    obtain ⟨d, k, hk, hn, -⟩ := (registered_afterAll events ctx).constant _ _ _
      (Environment.mem_of_lookup (lookup_of_constantTerm hrun hx))
    have hsort : ((afterAll events).environmentOf ctx).terms.sort? t = some k := by
      rw [Store.sort?, hn]
      rfl
    rw [Environment.typeOf, Store.sort_eq_ok.2 hsort, ← Environment.type_of_sortOf hk]
    rfl
  functions {before before' ctx name name' result result' arguments arguments' d d'}
      hrun hrun' hx hx' := by
    have hregistered := registered_afterAll events ctx
    obtain ⟨hd, hgiven⟩ := lookup_of_function hrun hx
    obtain ⟨hd', hgiven'⟩ := lookup_of_function hrun' hx'
    have hfound : ((afterAll events).environmentOf ctx).symbolFor?
        (.function name result arguments) = some (.function d.decl) := by
      rw [Environment.symbolFor?, hd, Option.map_some]
    have hfound' : ((afterAll events).environmentOf ctx).symbolFor?
        (.function name' result' arguments') = some (.function d'.decl) := by
      rw [Environment.symbolFor?, hd', Option.map_some]
    have hsame : d.decl = d'.decl →
        name = name' ∧ result = result' ∧ arguments = arguments' := fun hdecl => by
      have hr := hregistered.request_unique (symbolFor?_improper events ctx) hfound hfound' rfl
        (congrArg Except.ok hdecl.symm)
      cases hr
      exact ⟨rfl, rfl, rfl⟩
    have hequal : name = name' ∧ result = result' ∧ arguments = arguments' → d = d' := by
      rintro ⟨rfl, rfl, rfl⟩
      rw [hgiven, hgiven', Option.some.inj (hd.symm.trans hd')]
    exact ⟨⟨fun h => hsame (congrArg (·.decl) h), hequal⟩, fun hdecl => hequal (hsame hdecl)⟩
  declared := (chronicled_afterAll events).declared
  once := (chronicled_afterAll events).once
  distinct := nodup_declOf
  received k := (received_afterAll events k).2
  heard o := heard_sublist o events

/-! Requests after a run, and who is told -/

/-- How requests are answered after a run, and who is told of new symbols. -/
structure Announces (events : List (Event FoldingSolver)) : Prop where
  /-- A request that cannot be met fails, and changes nothing. -/
  unmet : ∀ p, (afterAll events).meets p = false →
    ∃ x, (p.2.make p.1).exec (afterAll events) = (.error x, afterAll events)
  /-- One with floating point in a type is such a request, and misses a theory. -/
  floating : ∀ p : Nat × SymbolRequest, p.1 < (afterAll events).contexts.size →
    p.2.proper = true → p.2.types.any (·.floats) = true →
      ∃ theory, (p.2.make p.1).exec (afterAll events) =
        (.error (.missingTheory theory), afterAll events)
  /-- What was requested before is found, and changes nothing. -/
  found : ∀ p ∈ firstRequests events, ∃ symbol, (afterAll events).symbolOf? p = some symbol ∧
    (p.2.make p.1).exec (afterAll events) = (.ok symbol, afterAll events)
  /-- Of what was not, some observers are told, up to the first that fails: all of them if the
  request succeeds, as it does where the watches among them are quiet. -/
  new : ∀ p, (afterAll events).meets p = true → p ∉ firstRequests events →
    (afterAll events).audience p <+: (afterAll events).observersOf p.1 ∧
    (∀ symbol, ((p.2.make p.1).exec (afterAll events)).1 = .ok symbol →
      (afterAll events).audience p = (afterAll events).observersOf p.1) ∧
    ((afterAll events).Quiet ((afterAll events).observersOf p.1) →
      ∃ symbol, ((p.2.make p.1).exec (afterAll events)).1 = .ok symbol)
  /-- Open stacks observe their environment. -/
  attended : ∀ id s, (afterAll events).stack? id = some s → s.closed = false →
    .stack id ∈ (afterAll events).observersOf s.home
  /-- A stack that a request leaves open has heard of its symbol if it was told, else it is as it
  was. -/
  hears : ∀ (r : SymbolRequest) (ctx id : Nat) (s' : AssertionStack FoldingSolver),
    ((r.event ctx).after (afterAll events)).stack? id = some s' → s'.closed = false →
      ∃ s, (afterAll events).stack? id = some s ∧ s.closed = false ∧
        ((afterAll events).heard? (firstRequests events) (r.event ctx) (.stack id) = none ∧
          s' = s ∨
        ∃ symbol d,
          (afterAll events).heard? (firstRequests events) (r.event ctx) (.stack id) =
            some (ctx, r) ∧
          ((r.event ctx).after (afterAll events)).symbolOf? (ctx, r) = some symbol ∧
          (((r.event ctx).after (afterAll events)).environmentOf ctx).terms.declOf symbol =
            .ok d ∧ s' = s.hears symbol d)

theorem meets_of_found (hs : (afterAll events).symbolOf? p = some symbol) :
    (afterAll events).meets p = true := by
  obtain ⟨ctx, r⟩ := p
  have hproper : r.proper = true := by
    cases r with
    | constant => rfl
    | function name result arguments =>
      cases arguments with
      | nil => cases (symbolFor?_improper events ctx name result).symm.trans hs
      | cons => rfl
  have hregistered := registered_afterAll events ctx
  cases hc : (afterAll events).contexts[ctx]? with
  | none =>
    rw [symbolOf?, environmentOf, hc] at hs
    cases r <;> cases hs
  | some c =>
    rw [symbolOf?, environmentOf_eq hc] at hs
    rw [environmentOf_eq hc] at hregistered
    rw [meets_eq hc]
    exact hregistered.isMet hproper hs

/-- What can be met and was not requested before is introduced. -/
theorem exists_introduces (hmet : (afterAll events).meets p = true)
    (hfresh : p ∉ firstRequests events) :
    ∃ c symbol env, (afterAll events).Introduces (p.2.event p.1) p c symbol env := by
  have hrequest : (p.2.event p.1 : Event FoldingSolver).request? = some p :=
    Event.request?_eq_some.2 rfl
  obtain ⟨hnone, -, -⟩ | ⟨q, c, symbol, env, -, -, hnew⟩ := (chronicled_afterAll events).cases
    (housed_afterAll events) (registered_afterAll events) (p.2.event p.1)
  · rw [Event.news?, hrequest, Option.filter_some, hmet, decide_eq_true hfresh] at hnone
    cases hnone
  · cases hrequest.symm.trans hnew.request
    exact ⟨c, symbol, env, hnew⟩

/-- A request makes a symbol that stands for the same afterwards. -/
theorem Introduces.exists_declOf {w : World FoldingSolver} {e : Event FoldingSolver} {c : Context}
    {env : Environment} (h : w.Introduces e p c symbol env) :
    ∃ d, env.terms.declOf symbol = .ok d ∧
      ((e.after w).environmentOf p.1).terms.declOf symbol = .ok d := by
  obtain ⟨d, hd⟩ := h.makes.declares
  obtain ⟨c', hc', hgrows, -⟩ :=
    h.later.context_grows ((context_setEnvironment h.context env p.1).trans (if_pos rfl))
  rw [environmentOf_eq hc']
  exact ⟨d, hd.decl, hgrows.terms.extension.declOf hd.decl⟩

theorem announces_afterAll (events : List (Event FoldingSolver)) : Announces events where
  unmet p hunmet := by
    obtain ⟨-, x, hx, -⟩ | ⟨hmet, -⟩ := p.2.make_exact (registered_afterAll events) p.1
    · exact ⟨x, hx⟩
    · cases hunmet.symm.trans hmet
  floating p hctx hproper hfloats := by
    have hunmet : (afterAll events).meets p = false := by
      obtain ⟨type, htype, hfloating⟩ := List.any_eq_true.1 hfloats
      rw [meets_eq (Array.getElem?_eq_getElem hctx), SymbolRequest.isMet, hproper, Bool.true_and,
        List.all_eq_false]
      exact ⟨type, htype, by rw [Theories.cover_of_floats hfloating]; exact Bool.false_ne_true⟩
    obtain ⟨-, x, hx, htheory⟩ | ⟨hmet, -⟩ := p.2.make_exact (registered_afterAll events) p.1
    · obtain ⟨theory, rfl⟩ := htheory hctx hproper
      exact ⟨theory, hx⟩
    · cases hunmet.symm.trans hmet
  found p hp := by
    obtain ⟨symbol, hsymbol⟩ := ((chronicled_afterAll events).found p).1 hp
    refine ⟨symbol, hsymbol, ?_⟩
    obtain ⟨hunmet, -⟩ | ⟨-, ⟨symbol', hsymbol', hx⟩ | ⟨c, made, env, hc, hmakes, -⟩⟩ :=
      p.2.make_exact (registered_afterAll events) p.1
    · cases hunmet.symm.trans (meets_of_found hsymbol)
    · cases hsymbol.symm.trans hsymbol'
      exact hx
    · rw [symbolOf?, environmentOf_eq hc, hmakes.unknown] at hsymbol
      cases hsymbol
  new p hmet hfresh := by
    obtain ⟨c, symbol, env, hnew⟩ := exists_introduces hmet hfresh
    exact ⟨prefix_audience _ p, fun _ hx => hnew.audience_eq hx, fun hq =>
      ⟨symbol, hnew.succeeds (attended_afterAll events) hq⟩⟩
  attended := (attended_afterAll events).opened
  hears r ctx id s' hs' ho := by
    have hrequest : (r.event ctx : Event FoldingSolver).request? = some (ctx, r) :=
      Event.request?_eq_some.2 rfl
    obtain ⟨hnone, -, hfinds⟩ | ⟨p, c, symbol, env, hnews, -, hnew⟩ :=
      (chronicled_afterAll events).cases (housed_afterAll events) (registered_afterAll events)
        (r.event ctx)
    · rw [stack?, stackTable_event, (hfinds _ hrequest).same] at hs'
      refine ⟨s', hs', ho, .inl ⟨?_, rfl⟩⟩
      rw [heard?, hnone, Option.filter_none]
    · cases hrequest.symm.trans hnew.request
      obtain ⟨d, hd, hlater⟩ := hnew.exists_declOf
      obtain ⟨s, hs, hopen, hsame⟩ := hnew.stack? (attended_afterAll events) hd hs' ho
      refine ⟨s, hs, hopen, ?_⟩
      rw [heard?, hnews, Option.filter_some]
      split at hsame
      · next hm =>
        refine .inr ⟨symbol, d, if_pos (decide_eq_true hm), ?_, hlater, hsame⟩
        rw [hnew.symbolOf?, if_pos rfl]
      · next hm => exact .inl ⟨if_neg fun h => hm (of_decide_eq_true h), hsame⟩

/-- Whatever happens, handles and declarations are the same just if requests are, the symbols of an
environment are those of its first requests in their order, and a watch has received those that it
was told of. It is told of all that are requested first while it observes, once each and in that
order, but for requests that failed since somebody failed who was told before it. Requests for
floating point miss a theory, and change nothing. -/
theorem registry_faithful (events : List (Event FoldingSolver)) :
    Faithful events ∧ Announces events :=
  ⟨faithful_afterAll events, announces_afterAll events⟩

/-- Two watches of which the first fails. -/
def unheard : List (Event FoldingSolver) :=
  [.addContext .everything false false default none, .addWatch 0 none true, .addWatch 0 none false,
    .constant 0 .boolean "p"]

/-- The second has observed all the time, and was not told of the constant, which is there. -/
theorem registry_faithful_unheard :
    .watch 1 ∈ (afterAll (unheard.take 3)).observersOf 0 ∧
      .watch 1 ∈ (afterAll unheard).observersOf 0 ∧
      ((afterAll unheard).environmentOf 0).declared = [.boolean ⟨0⟩] ∧
      firstRequests unheard = [(0, .constant .boolean "p")] ∧
      (afterAll unheard).received? 0 = some [.boolean ⟨0⟩] ∧
      (afterAll unheard).received? 1 = some [] ∧ heard (.watch 1) unheard = [] := by
  have hreceived : (afterAll unheard).received? 1 = some [] := by decide +kernel
  refine ⟨by decide +kernel, by decide +kernel, by decide +kernel, by decide +kernel,
    by decide +kernel, hreceived, ?_⟩
  exact List.map_eq_nil_iff.1 ((registry_faithful unheard).1.received 1 [] hreceived).symm

end World

end FormulaStack
