import FormulaStack.Proofs.Events
import FormulaStack.Proofs.Registers

/-!
Requests for symbols, be they constants or functions. A request finds its symbol, or makes it, or
fails and changes nothing. What an environment has declared is what requests find.
-/
namespace FormulaStack

/-- A request for a constant or a function. -/
inductive SymbolRequest where
  | constant (type : FormulaType) (name : String)
  | function (name : String) (result : FormulaType) (arguments : List FormulaType)
  deriving DecidableEq

namespace Environment

variable {env env' : Environment} {r : SymbolRequest} {symbol : Symbol}

/-- The symbol of a request, and once more if the request makes it. -/
def request : SymbolRequest → Effect Environment (Symbol × Option Symbol)
  | .constant type name => do
    let found ← requestVariable type name
    return (.ofConstant type found.1, found.2)
  | .function name result arguments => do
    let found ← requestFunction name arguments result
    return (.function found.1.decl, found.2)

/-- The symbol that a request finds. -/
def symbolFor? (env : Environment) : SymbolRequest → Option Symbol
  | .constant type name => (env.constants.lookup (name, type)).map (.ofConstant type)
  | .function name result arguments =>
    (env.functions.lookup (name, arguments, result)).map .function

/-- A request makes a symbol, which it finds from then on. -/
structure Makes (env : Environment) (r : SymbolRequest) (symbol : Symbol) (env' : Environment) :
    Prop where
  declares : ∃ d, env.Declares symbol d env'
  unknown : env.symbolFor? r = none
  found : ∀ r', env'.symbolFor? r' = if r' = r then some symbol else env.symbolFor? r'
  registered : env.Registered → env'.Registered
  proper : ∀ name result, r ≠ .function name result []

theorem lookup_cons_eq {α β : Type} [BEq α] [LawfulBEq α] [DecidableEq α] (k a : α) (b : β)
    (l : List (α × β)) : ((a, b) :: l).lookup k = if k = a then some b else l.lookup k := by
  rw [List.lookup_cons]
  split
  · next h => rw [if_pos (eq_of_beq h)]
  · next h => rw [if_neg (ne_of_beq_false h)]

theorem found_constant {type : FormulaType} {name : String} {t : Term}
    (hconstants : env'.constants = ((name, type), t) :: env.constants)
    (hfunctions : env'.functions = env.functions) (r' : SymbolRequest) :
    env'.symbolFor? r' =
      if r' = .constant type name then some (.ofConstant type t) else env.symbolFor? r' := by
  cases r' with
  | constant type' name' =>
    rw [symbolFor?, symbolFor?, hconstants, lookup_cons_eq]
    by_cases h : (name', type') = (name, type)
    · cases h
      rw [if_pos rfl, if_pos rfl, Option.map_some]
    · rw [if_neg h, if_neg fun hr => h (by cases hr; rfl)]
  | function => rw [symbolFor?, symbolFor?, hfunctions, if_neg nofun]

theorem found_function {name : String} {result : FormulaType} {arguments : List FormulaType}
    {d : FuncDecl} (hconstants : env'.constants = env.constants)
    (hfunctions : env'.functions = ((name, arguments, result), d) :: env.functions)
    (r' : SymbolRequest) :
    env'.symbolFor? r' =
      if r' = .function name result arguments then some (.function d) else env.symbolFor? r' := by
  cases r' with
  | constant => rw [symbolFor?, symbolFor?, hconstants, if_neg nofun]
  | function name' result' arguments' =>
    rw [symbolFor?, symbolFor?, hfunctions, lookup_cons_eq]
    by_cases h : (name', arguments', result') = (name, arguments, result)
    · cases h
      rw [if_pos rfl, if_pos rfl, Option.map_some]
    · rw [if_neg h, if_neg fun hr => h (by cases hr; rfl)]

theorem Requested.declares {α : Type} {a : α} (h : env.Requested (.ok (a, some symbol), env')) :
    ∃ d, env.Declares symbol d env' := by
  obtain ⟨-, hnone⟩ | ⟨a, symbol, d, hok, hd⟩ := h
  · cases hnone _ rfl
  · cases hok
    exact ⟨d, hd⟩

/-- A request fails, or finds its symbol, or makes it. -/
theorem request_cases (r : SymbolRequest) (env : Environment) :
    (∃ x, (request r).exec env = (.error x, env)) ∨
      (∃ symbol, env.symbolFor? r = some symbol ∧
        (request r).exec env = (.ok (symbol, none), env)) ∨
      ∃ symbol env', (request r).exec env = (.ok (symbol, some symbol), env') ∧
        env.Makes r symbol env' := by
  cases r with
  | constant type name =>
    have hrequested := requestVariable_requested type name env
    have hevolves := requestVariable_evolves type name env
    rw [request, Effect.exec_bind_pure, symbolFor?]
    rw [exec_requestVariable] at hrequested hevolves ⊢
    cases hl : env.constants.lookup (name, type) with
    | some t => exact .inr (.inl ⟨_, rfl, rfl⟩)
    | none =>
      cases hk : env.sortOf type with
      | error f => exact .inl ⟨f, rfl⟩
      | ok k =>
        rw [hl, hk] at hrequested hevolves
        dsimp only at hrequested hevolves ⊢
        cases hb : Build.constant name k env.terms with
        | error f => exact .inl ⟨f, rfl⟩
        | ok made =>
          rw [hb] at hrequested hevolves
          refine .inr (.inr ⟨_, _, rfl, hrequested.declares, ?_, found_constant rfl rfl,
            hevolves.registered, nofun⟩)
          rw [symbolFor?, hl, Option.map_none]
  | function name result arguments =>
    have hrequested := requestFunction_requested name arguments result env
    have hevolves := requestFunction_evolves name arguments result env
    rw [request, Effect.exec_bind_pure, symbolFor?]
    rw [exec_requestFunction] at hrequested hevolves ⊢
    by_cases hempty : arguments = []
    · rw [if_pos hempty]
      exact .inl ⟨_, rfl⟩
    rw [if_neg hempty] at hrequested hevolves ⊢
    cases hl : env.functions.lookup (name, arguments, result) with
    | some d => exact .inr (.inl ⟨_, rfl, rfl⟩)
    | none =>
      cases hks : arguments.mapM env.sortOf with
      | error f => exact .inl ⟨f, rfl⟩
      | ok ks =>
        cases hk : env.sortOf result with
        | error f => exact .inl ⟨f, rfl⟩
        | ok k =>
          rw [hl, hks, hk] at hrequested hevolves
          refine .inr (.inr ⟨_, _, rfl, hrequested.declares, ?_, found_function rfl rfl,
            hevolves.registered, fun name' result' hr => hempty (by cases hr; rfl)⟩)
          rw [symbolFor?, hl, Option.map_none]

/-- No symbol was requested from the one to the other. -/
structure Unasked (env env' : Environment) : Prop where
  constants : env'.constants = env.constants
  functions : env'.functions = env.functions
  declared : env'.declared = env.declared

instance : Std.Refl Unasked := ⟨fun _ => ⟨rfl, rfl, rfl⟩⟩

theorem Unasked.trans {env'' : Environment} (h : env.Unasked env') (g : env'.Unasked env'') :
    env.Unasked env'' :=
  ⟨g.constants.trans h.constants, g.functions.trans h.functions, g.declared.trans h.declared⟩

theorem Unasked.symbolFor? (h : env.Unasked env') : env'.symbolFor? = env.symbolFor? := by
  funext r
  cases r with
  | constant => rw [Environment.symbolFor?, Environment.symbolFor?, h.constants]
  | function => rw [Environment.symbolFor?, Environment.symbolFor?, h.functions]

/-- What is declared is what requests find. -/
def Enrolled (env : Environment) : Prop :=
  ∀ symbol, symbol ∈ env.declared ↔ ∃ r, env.symbolFor? r = some symbol

theorem Unasked.enrolled (h : env.Unasked env') (henv : env.Enrolled) : env'.Enrolled := by
  intro symbol
  rw [h.declared, h.symbolFor?]
  exact henv symbol

theorem Makes.enrolled (h : env.Makes r symbol env') (henv : env.Enrolled) : env'.Enrolled := by
  intro symbol'
  obtain ⟨d, hd⟩ := h.declares
  rw [hd.declared, List.mem_append, List.mem_singleton, henv]
  constructor
  · rintro (⟨r', hr'⟩ | rfl)
    · refine ⟨r', ?_⟩
      rw [h.found, if_neg fun hr => ?_, hr']
      rw [hr, h.unknown] at hr'
      cases hr'
    · exact ⟨r, by rw [h.found, if_pos rfl]⟩
  · rintro ⟨r', hr'⟩
    rw [h.found] at hr'
    split at hr'
    · exact .inr (Option.some.inj hr').symm
    · exact .inl ⟨r', hr'⟩

/-- What stands for a constant that was requested has its name and sort. -/
theorem Registered.constant_signature (h : env.Registered) {type : FormulaType} {name : String}
    {d : FuncDecl} (hs : env.symbolFor? (.constant type name) = some symbol)
    (hd : env.terms.declOf symbol = .ok d) :
    ∃ k : TermSort, k.type = type ∧ env.terms.decl? d = some ⟨name, [], k⟩ := by
  obtain ⟨t, ht, rfl⟩ := Option.map_eq_some_iff.1 hs
  obtain ⟨e, k, hk, hn, he⟩ := h.constant name type t (mem_of_lookup ht)
  have hdecl := Store.declOf_of_node hn rfl
  have heq : env.terms.declOf (.ofConstant type t) = .ok e := by
    unfold Symbol.ofConstant
    split
    · exact hdecl.1
    · exact hdecl.2
  cases hd.symm.trans heq
  exact ⟨k, type_of_sortOf hk, he⟩

/-- What stands for a function that was requested has its name and sorts. -/
theorem Registered.function_signature (h : env.Registered) {result : FormulaType} {name : String}
    {arguments : List FormulaType} {d : FuncDecl}
    (hs : env.symbolFor? (.function name result arguments) = some symbol)
    (hd : env.terms.declOf symbol = .ok d) : ∃ (ks : List TermSort) (k : TermSort),
      ks.map (·.type) = arguments ∧ k.type = result ∧ env.terms.decl? d = some ⟨name, ks, k⟩ := by
  obtain ⟨e, he, rfl⟩ := Option.map_eq_some_iff.1 hs
  cases hd
  obtain ⟨ks, k, hks, hk, hf⟩ := h.function name arguments result d (mem_of_lookup he)
  refine ⟨ks, k, ?_, type_of_sortOf hk, hf⟩
  exact List.forall₂_eq_eq_eq ▸ List.forall₂_map_left_iff.2 (hks.flip.imp fun _ _ => type_of_sortOf)

theorem Registered.exists_signature (h : env.Registered) {d : FuncDecl}
    (hr : env.symbolFor? r = some symbol) (hd : env.terms.declOf symbol = .ok d) :
    ∃ f, env.terms.decl? d = some f := by
  cases r with
  | constant type name =>
    obtain ⟨k, -, hf⟩ := h.constant_signature hr hd
    exact ⟨_, hf⟩
  | function name result arguments =>
    obtain ⟨ks, k, -, -, hf⟩ := h.function_signature hr hd
    exact ⟨_, hf⟩

/-- A declaration is made for one request only. -/
theorem Registered.request_unique (h : env.Registered)
    (hproper : ∀ name result, env.symbolFor? (.function name result []) = none)
    {r' : SymbolRequest} {symbol' : Symbol} {d : FuncDecl} (hr : env.symbolFor? r = some symbol)
    (hr' : env.symbolFor? r' = some symbol') (hd : env.terms.declOf symbol = .ok d)
    (hd' : env.terms.declOf symbol' = .ok d) : r = r' := by
  have hparameters : ∀ {name result arguments symbol},
      env.symbolFor? (.function name result arguments) = some symbol → arguments ≠ [] := by
    rintro name result _ symbol hs rfl
    cases (hproper name result).symm.trans hs
  cases r with
  | constant type name =>
    obtain ⟨k, rfl, hf⟩ := h.constant_signature hr hd
    cases r' with
    | constant type' name' =>
      obtain ⟨k', rfl, hf'⟩ := h.constant_signature hr' hd'
      cases hf.symm.trans hf'
      rfl
    | function name' result' arguments' =>
      have hne := hparameters hr'
      obtain ⟨ks, k', rfl, -, hf'⟩ := h.function_signature hr' hd'
      cases hf.symm.trans hf'
      exact absurd rfl hne
  | function name result arguments =>
    have hne := hparameters hr
    obtain ⟨ks, k, rfl, rfl, hf⟩ := h.function_signature hr hd
    cases r' with
    | constant type' name' =>
      obtain ⟨k', -, hf'⟩ := h.constant_signature hr' hd'
      cases hf.symm.trans hf'
      exact absurd rfl hne
    | function name' result' arguments' =>
      obtain ⟨ks', k', rfl, rfl, hf'⟩ := h.function_signature hr' hd'
      cases hf.symm.trans hf'
      rfl

/-- What a request makes has not been declared before. -/
theorem Makes.unknown_decl (h : env.Makes r symbol env') (henrolled : env.Enrolled)
    (hregistered : env.Registered)
    (hproper : ∀ name result, env.symbolFor? (.function name result []) = none) {symbol' : Symbol}
    (hm : symbol' ∈ env.declared) {d : FuncDecl} (hd : env.terms.declOf symbol' = .ok d) :
    env'.terms.declOf symbol ≠ .ok d := by
  intro hnew
  obtain ⟨e, hdeclares⟩ := h.declares
  obtain ⟨r', hr'⟩ := (henrolled symbol').1 hm
  have hother : r' ≠ r := by
    rintro rfl
    cases h.unknown.symm.trans hr'
  refine hother ((h.registered hregistered).request_unique (fun name result => ?_) ?_ ?_
    (hdeclares.terms.extension.declOf hd) hnew)
  · rw [h.found, if_neg (Ne.symm (h.proper name result))]
    exact hproper name result
  · rw [h.found, if_neg hother]
    exact hr'
  · rw [h.found, if_pos rfl]

end Environment

/-- Anything is done but requests for symbols. -/
def Setting.silent {σ : Type} : Setting σ := ⟨fun _ => True, fun _ => True, False, True⟩

namespace World

variable {σ α β : Type} {w w' : World σ} {i ctx : Nat}

/-- The environment of a context; of none, one in which nothing was done. -/
def environmentOf (w : World σ) (i : Nat) : Environment :=
  ((w.contexts[i]?).map (·.env)).getD default

theorem environmentOf_eq {c : Context} (hc : w.contexts[i]? = some c) :
    w.environmentOf i = c.env := by
  rw [environmentOf, hc]
  rfl

theorem environmentOf_setEnvironment {c : Context} (hc : w.contexts[ctx]? = some c)
    (env : Environment) (i : Nat) :
    (setEnvironment ctx env w).environmentOf i = if i = ctx then env else w.environmentOf i := by
  rw [environmentOf, context_setEnvironment hc]
  split <;> rfl

theorem exec_inEnvironment_map (e : Effect Environment α) (f : α → β) (ctx : Nat) (w : World σ) :
    (inEnvironment ctx (e >>= fun a => pure (f a))).exec w =
      (((inEnvironment ctx e).exec w).1.map f, ((inEnvironment ctx e).exec w).2) := by
  cases hc : w.contexts[ctx]? with
  | none =>
    rw [exec_inEnvironment_none hc, exec_inEnvironment_none hc]
    rfl
  | some c => rw [exec_inEnvironment hc, exec_inEnvironment hc, Effect.exec_bind_pure]

end World

namespace SymbolRequest

variable {σ : Type} [Session σ] {w w' : World σ} {r : SymbolRequest} {ctx : Nat} {symbol : Symbol}

/-- The symbol that a request to a context gives. -/
def make (ctx : Nat) : SymbolRequest → Effect (World σ) Symbol
  | constant type name => do return .ofConstant type (← World.constantTerm ctx type name)
  | function name result arguments => do
    return .function (← World.function ctx name result arguments).decl

/-- A request as an event; what constants are wrapped in is part of it. -/
def event (ctx : Nat) : SymbolRequest → Event σ
  | constant type name => .constant ctx type name
  | function name result arguments => .function ctx name result arguments

/-- A request is one to the environment of the context; new symbols are published. -/
theorem exec_make (r : SymbolRequest) (ctx : Nat) (w : World σ) :
    (r.make ctx).exec w =
      match (World.inEnvironment ctx (Environment.request r)).exec w with
      | (.error x, w') => (.error x, w')
      | (.ok (symbol, none), w') => (.ok symbol, w')
      | (.ok (symbol, some new), w') =>
        (((World.publish ctx new).exec w').1.map fun _ => symbol,
          ((World.publish ctx new).exec w').2) := by
  have hpublish : ∀ {α : Type} (a : α) (f : α → Symbol) (new : Symbol) (w : World σ),
      (((World.publish ctx new >>= fun _ => pure a).exec w).1.map f,
        ((World.publish ctx new >>= fun _ => pure a).exec w).2) =
        (((World.publish ctx new).exec w).1.map fun _ => f a,
          ((World.publish ctx new).exec w).2) := by
    intro α a f new w
    rw [Effect.exec_bind_pure]
    rcases (World.publish ctx new).exec w with ⟨_ | _, _⟩ <;> rfl
  cases r with
  | constant type name =>
    rw [make, Effect.exec_bind_pure, World.constantTerm, Effect.exec_bind, Environment.request,
      World.exec_inEnvironment_map _ fun found : Term × Option Symbol =>
        (Symbol.ofConstant type found.1, found.2)]
    rcases (World.inEnvironment ctx (Environment.requestVariable type name)).exec w with
      ⟨x | ⟨t, _ | new⟩, w'⟩
    · rfl
    · rfl
    · exact hpublish t _ new w'
  | function name result arguments =>
    rw [make, Effect.exec_bind_pure, World.function, Effect.exec_bind, Environment.request,
      World.exec_inEnvironment_map _ fun found : FunctionDeclaration × Option Symbol =>
        (Symbol.function found.1.decl, found.2)]
    rcases (World.inEnvironment ctx (Environment.requestFunction name arguments result)).exec w with
      ⟨x | ⟨d, _ | new⟩, w'⟩
    · rfl
    · rfl
    · exact hpublish d _ new w'

/-- A request to a context changes nothing, and gives what it finds, if anything; or it makes a
symbol, which is published. -/
theorem make_cases (r : SymbolRequest) (ctx : Nat) (w : World σ) :
    (((r.make ctx).exec w).2 = w ∧ ∀ symbol, ((r.make ctx).exec w).1 = .ok symbol →
      (w.environmentOf ctx).symbolFor? r = some symbol) ∨
    ∃ c symbol env, w.contexts[ctx]? = some c ∧ c.env.Makes r symbol env ∧
      (r.make ctx).exec w =
        (((World.publish ctx symbol).exec (World.setEnvironment ctx env w)).1.map fun _ => symbol,
          ((World.publish ctx symbol).exec (World.setEnvironment ctx env w)).2) := by
  rw [exec_make]
  cases hc : w.contexts[ctx]? with
  | none =>
    rw [World.exec_inEnvironment_none hc]
    exact .inl ⟨rfl, nofun⟩
  | some c =>
    rw [World.exec_inEnvironment hc, World.environmentOf_eq hc]
    obtain ⟨x, hx⟩ | ⟨symbol, hfound, hx⟩ | ⟨symbol, env, hx, hmakes⟩ :=
      Environment.request_cases r c.env
    · rw [hx, World.setEnvironment_self hc]
      exact .inl ⟨rfl, nofun⟩
    · rw [hx, World.setEnvironment_self hc]
      refine .inl ⟨rfl, fun symbol' h => ?_⟩
      cases h
      exact hfound
    · rw [hx]
      exact .inr ⟨c, symbol, env, rfl, hmakes, rfl⟩

/-- What follows a request in its event is work in the environment of the context. -/
theorem after_event_of {R : World σ → World σ → Prop} [Std.Refl R]
    (hwrap : ∀ type t, Effect.Within R (World.inEnvironment ctx (Environment.wrap type t)))
    (r : SymbolRequest) (w : World σ) : R ((r.make ctx).exec w).2 ((r.event ctx).after w) := by
  cases r with
  | constant type name =>
    rw [make, Effect.exec_bind_pure]
    change R _ ((World.constantTerm ctx type name >>= fun t =>
      World.inEnvironment ctx (Environment.wrap type t)).exec w).2
    rw [Effect.exec_bind]
    rcases (World.constantTerm ctx type name).exec w with ⟨x | t, w'⟩
    · exact Std.Refl.refl w'
    · exact hwrap type t w'
  | function name result arguments =>
    rw [make, Effect.exec_bind_pure]
    exact Std.Refl.refl _

/-- What follows a request in its event is no further request. -/
theorem after_event {g : Setting σ} (r : SymbolRequest) (ctx : Nat) (w : World σ) :
    ((r.make ctx).exec w).2.Passes g ((r.event ctx).after w) :=
  r.after_event_of (fun type t =>
    World.inEnvironment_passes (Environment.wrap_works type t) ctx) w

omit [Session σ] in
/-- An event is a request, or can happen where there are none. -/
theorem event_or_allowed (e : Event σ) :
    (∃ (r : SymbolRequest) (ctx : Nat), e = r.event ctx) ∨ e.Allowed .silent := by
  cases e with
  | constant ctx type name => exact .inl ⟨.constant type name, ctx, rfl⟩
  | function ctx name result arguments => exact .inl ⟨.function name result arguments, ctx, rfl⟩
  | addWatch => exact .inr ⟨trivial, fun _ _ => trivial⟩
  | aimWatch => exact .inr ⟨trivial, trivial⟩
  | _ => exact .inr trivial

end SymbolRequest

namespace World

variable {σ : Type} [Session σ] {g : Setting σ} {w w' : World σ}

/-- Moves without requests change of an environment its terms, its handles and who watches it. New
environments come with new contexts. -/
theorem Move.environmentOf_cases {told : List Incident} (h : Move g w told w')
    (hg : ¬ g.requesting) (i : Nat) :
    (∃ terms handles observers,
      w'.environmentOf i = { w.environmentOf i with terms, handles, observers }) ∨
    w.contexts[i]? = none ∧ ∃ id theories counting announced track,
      w'.environmentOf i = .new id theories counting announced track := by
  have hstays : ∀ {w'' : World σ}, w''.contexts[i]? = w.contexts[i]? →
      ∃ terms handles observers,
        w''.environmentOf i = { w.environmentOf i with terms, handles, observers } := by
    intro w'' hcontext
    rw [environmentOf, environmentOf, hcontext]
    exact ⟨_, _, _, rfl⟩
  have hset : ∀ {ctx c terms handles observers}, w.contexts[ctx]? = some c →
      ∃ terms' handles' observers',
        (setEnvironment ctx { c.env with terms, handles, observers } w).environmentOf i =
          { w.environmentOf i with
            terms := terms', handles := handles', observers := observers' } := by
    intro ctx c terms handles observers hc
    rw [environmentOf_setEnvironment hc]
    split
    · next hi =>
      rw [hi, environmentOf_eq hc]
      exact ⟨_, _, _, rfl⟩
    · exact ⟨_, _, _, rfl⟩
  cases h with
  | environment hc h =>
    rw [h.rest]
    exact .inl (hset hc)
  | requested hr => exact absurd hr hg
  | @site id s c _ t _ hs hc h =>
    refine .inl ?_
    rw [environmentOf, environmentOf, context_put hc]
    split
    · next hi =>
      rw [hi, hc, (Site.remains_of_trail h).env]
      exact ⟨_, _, _, rfl⟩
    · exact ⟨_, _, _, rfl⟩
  | context theories counting announced options notifierOf =>
    obtain ⟨notifier, hcontexts⟩ :=
      contexts_addContext w theories counting announced options notifierOf
    by_cases hi : i = w.contexts.size
    · refine .inr ⟨by rw [hi, Array.getElem?_eq_none (le_refl _)], ?_⟩
      rw [environmentOf, hcontexts, Array.getElem?_push, if_pos hi]
      exact ⟨_, _, _, _, _, rfl⟩
    · exact .inl (hstays (by rw [hcontexts, Array.getElem?_push, if_neg hi]))
  | @opened ctx c session session' terms hc _ h interpolating =>
    have hc' := (context_setEnvironment hc { c.env with terms } ctx).trans (if_pos rfl)
    refine .inl ?_
    rw [environmentOf, environmentOf, context_opened hc', context_setEnvironment hc]
    split
    · next hi =>
      rw [hi, hc]
      exact ⟨_, _, _, rfl⟩
    · exact ⟨_, _, _, rfl⟩
  | unopened hc _ h => exact .inl (hset hc)
  | dropped => exact .inl (hstays rfl)
  | reacted reason r => exact .inl (hstays (congrArg (·[i]?) (contexts_react reason w r)))
  | beside hcontexts => exact .inl (hstays (congrArg (·[i]?) hcontexts))
  | watched _ hsize _ _ hcontexts =>
    cases hc' : w'.contexts[i]? with
    | none =>
      refine .inl (hstays (hc'.trans (Eq.symm ?_)))
      rw [Array.getElem?_eq_none_iff] at hc' ⊢
      rwa [← hsize]
    | some c' =>
      obtain ⟨c, observers, hc, rfl, -⟩ := hcontexts i c' hc'
      rw [environmentOf_eq hc, environmentOf_eq hc']
      exact .inl ⟨_, _, _, rfl⟩

theorem Move.unasked {told : List Incident} (h : Move g w told w') (hg : ¬ g.requesting) (i : Nat) :
    (w.environmentOf i).Unasked (w'.environmentOf i) := by
  obtain ⟨terms, handles, observers, henv⟩ | ⟨hnone, _, _, _, _, _, henv⟩ :=
    h.environmentOf_cases hg i <;> rw [henv]
  · exact ⟨rfl, rfl, rfl⟩
  · rw [environmentOf, hnone]
    exact ⟨rfl, rfl, rfl⟩

theorem Reaches.unasked (h : w.Reaches g w') (hg : ¬ g.requesting) (i : Nat) :
    (w.environmentOf i).Unasked (w'.environmentOf i) := by
  obtain ⟨told, h⟩ := h
  induction h with
  | refl => exact Std.Refl.refl _
  | tail _ hmove ih => exact ih.trans (hmove.unasked hg i)

/-- What is so of a world in which nothing has happened, and stays so with every move and whenever a
request makes a symbol, is so whatever happens. -/
theorem induction_afterAll {Q : World σ → Prop} (hempty : Q empty)
    (hmove : ∀ {w told w'}, Move .silent w told w' → Q w → Q w')
    (hmade : ∀ {w ctx c r symbol env}, w.contexts[ctx]? = some c → c.env.Makes r symbol env → Q w →
      Q (setEnvironment ctx env w)) (events : List (Event σ)) : Q (afterAll events) := by
  have hreaches : ∀ {w w'}, w.Reaches .silent w' → Q w → Q w' := by
    rintro w w' ⟨told, h⟩ hw
    induction h with
    | refl => exact hw
    | tail _ hstep ih => exact hmove hstep ih
  induction events using List.reverseRecOn with
  | nil => exact hempty
  | append_singleton events e ih =>
    rw [afterAll_concat]
    obtain ⟨r, ctx, rfl⟩ | he := SymbolRequest.event_or_allowed e
    · refine hreaches (SymbolRequest.after_event r ctx _).leads ?_
      obtain ⟨hsame, -⟩ | ⟨c, symbol, env, hc, hmakes, hx⟩ := r.make_cases ctx (afterAll events)
      · rw [hsame]
        exact ih
      · rw [hx]
        exact hreaches (publish_reaches (fun _ => trivial) ctx symbol _) (hmade hc hmakes ih)
    · exact hreaches (e.reaches he (housed_afterAll events)) ih

/-- Whatever happens, what an environment has declared is what requests find. -/
theorem enrolled_afterAll (events : List (Event σ)) (i : Nat) :
    ((afterAll events).environmentOf i).Enrolled := by
  refine induction_afterAll (Q := fun w => ∀ i, (w.environmentOf i).Enrolled) (fun i symbol => ?_)
    (fun h hw i => (h.unasked id i).enrolled (hw i))
    (fun {w ctx c r symbol env} hc hmakes hw i => ?_) events i
  · refine ⟨fun h => (List.not_mem_nil h).elim, ?_⟩
    rintro ⟨_ | _, h⟩ <;> cases h
  · rw [environmentOf_setEnvironment hc]
    split
    · exact hmakes.enrolled (environmentOf_eq hc ▸ hw ctx)
    · exact hw i

/-- Functions without arguments are not found, as they cannot be requested. -/
theorem symbolFor?_improper (events : List (Event σ)) (i : Nat) (name : String)
    (result : FormulaType) :
    ((afterAll events).environmentOf i).symbolFor? (.function name result []) = none := by
  refine induction_afterAll
    (Q := fun w => ∀ i, (w.environmentOf i).symbolFor? (.function name result []) = none)
    (fun _ => rfl) (fun h hw i => ?_) (fun {w ctx c r symbol env} hc hmakes hw i => ?_) events i
  · rw [(h.unasked id i).symbolFor?]
    exact hw i
  · rw [environmentOf_setEnvironment hc]
    split
    · rw [hmakes.found, if_neg (Ne.symm (hmakes.proper name result)), ← environmentOf_eq hc]
      exact hw ctx
    · exact hw i

end World

end FormulaStack
