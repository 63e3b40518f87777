import FormulaStack.Proofs.Persistence
import FormulaStack.Proofs.Repetitions

/-!
Which requests come first. A request can be met if its context has the theories of its types. The
first one that can makes the symbol, and all later ones find it. So an environment has declared one
symbol for each request that was made of it and could be met, in the order of the first ones.
-/
namespace FormulaStack

/-- Floating point is somewhere in a type. -/
def FormulaType.floats : FormulaType → Bool
  | .floatingPoint .. => true
  | .array index element => index.floats || element.floats
  | _ => false

/-- The theories that a type needs are there; there is none of floating point. -/
def Theories.cover (theories : Theories) : FormulaType → Bool
  | .integer | .rational => theories.numerals
  | type => !type.floats

theorem Theories.cover_of_floats {theories : Theories} {type : FormulaType}
    (h : type.floats = true) : theories.cover type = false := by
  cases type with
  | array index element =>
    change (!FormulaType.floats (.array index element)) = false
    rw [h]
    rfl
  | floatingPoint => rfl
  | _ => cases h

theorem TermSort.ofType?_eq_none {type : FormulaType} :
    TermSort.ofType? type = none ↔ type.floats = true := by
  induction type with
  | array index element hindex helement =>
    rw [ofType?, FormulaType.floats, Bool.or_eq_true, ← hindex, ← helement]
    cases ofType? index <;> cases ofType? element <;> simp
  | _ => simp [ofType?, FormulaType.floats]

namespace SymbolRequest

/-- The types of what is requested. -/
def types : SymbolRequest → List FormulaType
  | .constant type _ => [type]
  | .function _ result arguments => result :: arguments

/-- Functions have arguments. -/
def proper : SymbolRequest → Bool
  | .constant .. => true
  | .function _ _ arguments => !arguments.isEmpty

/-- What is requested can be had with some theories. -/
def isMet (r : SymbolRequest) (theories : Theories) : Bool := r.proper && r.types.all theories.cover

end SymbolRequest

namespace Environment

variable {env env' : Environment} {r : SymbolRequest} {symbol : Symbol} {type : FormulaType}

theorem exists_sortOf : (∃ k, env.sortOf type = .ok k) ↔ env.theories.cover type = true := by
  cases type with
  | integer | rational =>
    unfold sortOf Theories.cover
    cases env.theories.numerals <;> simp
  | boolean | bitvector width => exact ⟨fun _ => rfl, fun _ => ⟨_, rfl⟩⟩
  | floatingPoint exponent mantissa =>
    refine ⟨fun h => ?_, fun h => ?_⟩
    · obtain ⟨k, hk⟩ := h
      cases hk
    · cases h
  | array index element =>
    unfold sortOf Theories.cover
    dsimp only
    rw [Bool.not_eq_true', Bool.eq_false_iff, Ne, ← TermSort.ofType?_eq_none]
    cases TermSort.ofType? (.array index element) <;> simp

/-- A type that has no sort misses a theory. -/
theorem missing_of_sortOf {x : Fault} (h : env.sortOf type = .error x) :
    ∃ theory, x = .missingTheory theory := by
  unfold sortOf at h
  split at h
  · split at h <;> cases h
    exact ⟨_, rfl⟩
  · split at h <;> cases h
    exact ⟨_, rfl⟩
  · split at h <;> cases h
    exact ⟨_, rfl⟩

theorem missing_of_sorts {types : List FormulaType} {x : Fault}
    (h : types.mapM env.sortOf = .error x) : ∃ theory, x = .missingTheory theory := by
  induction types with
  | nil => cases h
  | cons type types ih =>
    rw [List.mapM_cons] at h
    cases hk : env.sortOf type with
    | error f =>
      rw [hk] at h
      cases h
      exact missing_of_sortOf hk
    | ok k =>
      rw [hk] at h
      cases hks : types.mapM env.sortOf with
      | error f =>
        rw [hks] at h
        cases h
        exact ih hks
      | ok ks =>
        rw [hks] at h
        cases h

theorem exists_sorts {types : List FormulaType} :
    (∃ ks, types.mapM env.sortOf = .ok ks) ↔ types.all env.theories.cover = true := by
  rw [List.all_eq_true]
  constructor
  · rintro ⟨ks, hks⟩ type hm
    have hsorts := mapM_eq_ok.1 hks
    obtain ⟨n, hn, rfl⟩ := List.getElem_of_mem hm
    exact exists_sortOf.1 ⟨_, hsorts.get hn (hsorts.length_eq ▸ hn)⟩
  · intro h
    induction types with
    | nil => exact ⟨[], rfl⟩
    | cons type types ih =>
      obtain ⟨k, hk⟩ := exists_sortOf.2 (h type List.mem_cons_self)
      obtain ⟨ks, hks⟩ := ih fun type hm => h type (List.mem_cons_of_mem _ hm)
      exact ⟨k :: ks, mapM_eq_ok.2 (.cons hk (mapM_eq_ok.1 hks))⟩

theorem exists_constant (name : String) (k : TermSort) (s : Store) :
    ∃ made, Build.constant name k s = .ok made :=
  ⟨_, Build.bind_eq_ok.2 ⟨_, _, Build.internDecl_eq_ok.2 rfl,
    Build.apply_of_sorts (Store.decl?_internDecl s ⟨name, [], k⟩) .nil⟩⟩

/-- What is found could be met. -/
theorem Registered.isMet (h : env.Registered) (hproper : r.proper = true)
    (hr : env.symbolFor? r = some symbol) : r.isMet env.theories = true := by
  unfold SymbolRequest.isMet
  rw [hproper, Bool.true_and]
  cases r with
  | constant type name =>
    obtain ⟨t, ht, -⟩ := Option.map_eq_some_iff.1 hr
    obtain ⟨d, k, hk, -⟩ := h.constant name type t (mem_of_lookup ht)
    simp [SymbolRequest.types, exists_sortOf.1 ⟨k, hk⟩]
  | function name result arguments =>
    obtain ⟨d, hd, -⟩ := Option.map_eq_some_iff.1 hr
    obtain ⟨ks, k, hks, hk, -⟩ := h.function name arguments result d (mem_of_lookup hd)
    simp [SymbolRequest.types, exists_sortOf.1 ⟨k, hk⟩, exists_sorts.1 ⟨ks, mapM_eq_ok.2 hks⟩]

/-- What is found stands for a declaration. -/
theorem Registered.exists_declOf (h : env.Registered) (hr : env.symbolFor? r = some symbol) :
    ∃ d, env.terms.declOf symbol = .ok d := by
  cases r with
  | constant type name =>
    obtain ⟨t, ht, rfl⟩ := Option.map_eq_some_iff.1 hr
    obtain ⟨d, k, -, hn, -⟩ := h.constant name type t (mem_of_lookup ht)
    obtain ⟨hboolean, hnumeric⟩ := Store.declOf_of_node hn rfl
    refine ⟨d, ?_⟩
    unfold Symbol.ofConstant
    split
    · exact hboolean
    · exact hnumeric
  | function name result arguments =>
    obtain ⟨d, -, rfl⟩ := Option.map_eq_some_iff.1 hr
    exact ⟨d, rfl⟩

/-- A request succeeds where it can be met. -/
theorem exists_request (h : r.isMet env.theories = true) :
    ∃ found env', (request r).exec env = (.ok found, env') := by
  obtain ⟨hproper, htypes⟩ := Bool.and_eq_true_iff.1 h
  cases r with
  | constant type name =>
    rw [request, Effect.exec_bind_pure, exec_requestVariable]
    cases env.constants.lookup (name, type) with
    | some t => exact ⟨_, _, rfl⟩
    | none =>
      obtain ⟨k, hk⟩ := exists_sortOf.2 (List.all_eq_true.1 htypes type List.mem_cons_self)
      obtain ⟨made, hmade⟩ := exists_constant name k env.terms
      rw [hk]
      dsimp only
      rw [hmade]
      exact ⟨_, _, rfl⟩
  | function name result arguments =>
    have hne : arguments ≠ [] := by
      rintro rfl
      cases hproper
    obtain ⟨hresult, harguments⟩ := Bool.and_eq_true_iff.1 htypes
    obtain ⟨k, hk⟩ := exists_sortOf.2 hresult
    obtain ⟨ks, hks⟩ := exists_sorts.2 harguments
    rw [request, Effect.exec_bind_pure, exec_requestFunction, if_neg hne]
    cases env.functions.lookup (name, arguments, result) with
    | some d => exact ⟨_, _, rfl⟩
    | none =>
      rw [hk, hks]
      exact ⟨_, _, rfl⟩

/-- A request that cannot be met fails, and changes nothing. -/
theorem request_refused (hr : env.Registered) (h : r.isMet env.theories = false) :
    ∃ x, (request r).exec env = (.error x, env) ∧
      (r.proper = true → ∃ theory, x = .missingTheory theory) := by
  have hnot : ∀ {type}, env.theories.cover type = false → ∃ x, env.sortOf type = .error x ∧
      ∃ theory, x = .missingTheory theory := by
    intro type hfalse
    cases hk : env.sortOf type with
    | error x => exact ⟨x, rfl, missing_of_sortOf hk⟩
    | ok k =>
      rw [exists_sortOf.1 ⟨k, hk⟩] at hfalse
      cases hfalse
  cases hproper : r.proper with
  | false =>
    cases r with
    | constant => cases hproper
    | function name result arguments =>
      have hempty : arguments = [] := by simpa [SymbolRequest.proper] using hproper
      rw [request, Effect.exec_bind_pure, exec_requestFunction, if_pos hempty]
      refine ⟨_, rfl, fun h => ?_⟩
      cases h
  | true =>
    have hunknown : env.symbolFor? r = none := by
      by_contra hsome
      obtain ⟨symbol, hsymbol⟩ := Option.ne_none_iff_exists'.1 hsome
      rw [hr.isMet hproper hsymbol] at h
      cases h
    rw [SymbolRequest.isMet, hproper, Bool.true_and] at h
    cases r with
    | constant type name =>
      have hmissing : env.theories.cover type = false := by
        simpa [SymbolRequest.types] using h
      obtain ⟨x, hx, htheory⟩ := hnot hmissing
      rw [request, Effect.exec_bind_pure, exec_requestVariable,
        Option.map_eq_none_iff.1 hunknown, hx]
      exact ⟨x, rfl, fun _ => htheory⟩
    | function name result arguments =>
      have hne : arguments ≠ [] := by
        rintro rfl
        cases hproper
      rw [request, Effect.exec_bind_pure, exec_requestFunction, if_neg hne,
        Option.map_eq_none_iff.1 hunknown]
      cases hks : arguments.mapM env.sortOf with
      | error x => exact ⟨x, rfl, fun _ => missing_of_sorts hks⟩
      | ok ks =>
        have hmissing : env.theories.cover result = false := by
          rw [SymbolRequest.types, List.all_cons, exists_sorts.1 ⟨ks, hks⟩, Bool.and_true] at h
          exact h
        obtain ⟨x, hx, htheory⟩ := hnot hmissing
        rw [hx]
        exact ⟨x, rfl, fun _ => htheory⟩

end Environment

namespace World

variable {σ : Type} {w w' : World σ}

/-- A request can be met: its context is there, and has the theories for it. -/
def meets (w : World σ) (p : Nat × SymbolRequest) : Bool :=
  (w.contexts[p.1]?).any fun c => p.2.isMet c.env.theories

theorem meets_eq {ctx : Nat} {c : Context} (hc : w.contexts[ctx]? = some c) (r : SymbolRequest) :
    w.meets (ctx, r) = r.isMet c.env.theories := by
  rw [meets, hc, Option.any_some]

/-- The symbol that a request of a context finds. -/
def symbolOf? (w : World σ) (p : Nat × SymbolRequest) : Option Symbol :=
  (w.environmentOf p.1).symbolFor? p.2

theorem symbolOf?_unasked (h : ∀ i, (w.environmentOf i).Unasked (w'.environmentOf i)) :
    w'.symbolOf? = w.symbolOf? := by
  funext p
  rw [symbolOf?, symbolOf?, (h p.1).symbolFor?]

/-- What is found after a request made its symbol. -/
theorem symbolOf?_made {ctx : Nat} {c : Context} {r : SymbolRequest} {symbol : Symbol}
    {env : Environment} (hc : w.contexts[ctx]? = some c) (hmakes : c.env.Makes r symbol env)
    (p : Nat × SymbolRequest) : (setEnvironment ctx env w).symbolOf? p =
      if p = (ctx, r) then some symbol else w.symbolOf? p := by
  obtain ⟨i, r'⟩ := p
  rw [symbolOf?, symbolOf?, environmentOf_setEnvironment hc]
  by_cases hi : i = ctx
  · subst hi
    rw [if_pos rfl, hmakes.found, ← environmentOf_eq hc]
    by_cases hr : r' = r
    · rw [if_pos hr, if_pos (by rw [hr])]
    · rw [if_neg hr, if_neg fun h => hr (congrArg Prod.snd h)]
  · rw [if_neg hi, if_neg fun h => hi (congrArg Prod.fst h)]

end World

namespace Event

variable {σ : Type} {e : Event σ} {ctx : Nat} {r : SymbolRequest}

/-- The request that an event makes, and of which context. -/
def request? : Event σ → Option (Nat × SymbolRequest)
  | constant ctx type name => some (ctx, .constant type name)
  | function ctx name result arguments => some (ctx, .function name result arguments)
  | _ => none

theorem request?_eq_some : e.request? = some (ctx, r) ↔ e = r.event ctx := by
  constructor
  · intro h
    cases e with
    | constant | function =>
      cases h
      rfl
    | _ => cases h
  · rintro rfl
    cases r <;> rfl

/-- The request of an event, if it can be met and has not been made before. -/
def news? (e : Event σ) (w : World σ) (asked : List (Nat × SymbolRequest)) :
    Option (Nat × SymbolRequest) :=
  e.request?.filter fun p => w.meets p && decide (p ∉ asked)

end Event

namespace SymbolRequest

variable {σ : Type} [Session σ] {w : World σ}

/-- A request that cannot be met fails; one that can finds its symbol, or makes it. -/
theorem make_exact (hw : ∀ i, (w.environmentOf i).Registered) (r : SymbolRequest) (ctx : Nat) :
    (w.meets (ctx, r) = false ∧ ∃ x, (r.make ctx).exec w = (.error x, w) ∧
      (ctx < w.contexts.size → r.proper = true → ∃ theory, x = .missingTheory theory)) ∨
    w.meets (ctx, r) = true ∧
      ((∃ symbol, w.symbolOf? (ctx, r) = some symbol ∧ (r.make ctx).exec w = (.ok symbol, w)) ∨
        ∃ c symbol env, w.contexts[ctx]? = some c ∧ c.env.Makes r symbol env ∧
          (World.inEnvironment ctx (Environment.request r)).exec w =
            (.ok (symbol, some symbol), World.setEnvironment ctx env w) ∧
          (r.make ctx).exec w =
            (((World.publish ctx symbol).exec (World.setEnvironment ctx env w)).1.map
              fun _ => symbol,
              ((World.publish ctx symbol).exec (World.setEnvironment ctx env w)).2)) := by
  rw [exec_make]
  cases hc : w.contexts[ctx]? with
  | none =>
    have hsize : ¬ ctx < w.contexts.size := fun h => by
      rw [Array.getElem?_eq_getElem h] at hc
      cases hc
    rw [World.exec_inEnvironment_none hc, World.meets, hc]
    exact .inl ⟨rfl, .foreign, rfl, fun h => absurd h hsize⟩
  | some c =>
    have hregistered : c.env.Registered := World.environmentOf_eq hc ▸ hw ctx
    rw [World.exec_inEnvironment hc, World.meets_eq hc, World.symbolOf?, World.environmentOf_eq hc]
    cases hmet : r.isMet c.env.theories with
    | false =>
      obtain ⟨x, hx, htheory⟩ := Environment.request_refused hregistered hmet
      rw [hx, World.setEnvironment_self hc]
      exact .inl ⟨rfl, x, rfl, fun _ => htheory⟩
    | true =>
      obtain ⟨found, env', hok⟩ := Environment.exists_request hmet
      obtain ⟨x, hx⟩ | ⟨symbol, hfound, hx⟩ | ⟨symbol, env, hx, hmakes⟩ :=
        Environment.request_cases r c.env
      · cases hx.symm.trans hok
      · rw [hx, World.setEnvironment_self hc]
        exact .inr ⟨rfl, .inl ⟨symbol, hfound, rfl⟩⟩
      · rw [hx]
        exact .inr ⟨rfl, .inr ⟨c, symbol, env, rfl, hmakes, rfl, rfl⟩⟩

end SymbolRequest

namespace World

section Asked

variable {σ : Type} [Session σ]

/-- The requests that could be met, each where it was made first. The latest event comes first. -/
def askedIn : List (Event σ) → List (Nat × SymbolRequest)
  | [] => []
  | e :: earlier => askedIn earlier ++ (e.news? (afterAll earlier.reverse) (askedIn earlier)).toList

/-- The requests that could be met, in the order in which they were made first. -/
def firstRequests (events : List (Event σ)) : List (Nat × SymbolRequest) := askedIn events.reverse

theorem firstRequests_concat (events : List (Event σ)) (e : Event σ) :
    firstRequests (events ++ [e]) =
      firstRequests events ++ (e.news? (afterAll events) (firstRequests events)).toList := by
  rw [firstRequests, List.reverse_append, List.reverse_singleton, List.singleton_append, askedIn,
    List.reverse_reverse]
  rfl

end Asked

variable {w : World FoldingSolver} {events : List (Event FoldingSolver)}

/-- A request changes nothing: it gives the symbol that it finds, and finds one if it can be met. -/
structure Finds (w : World FoldingSolver) (p : Nat × SymbolRequest) : Prop where
  same : ((p.2.make p.1).exec w).2 = w
  given : ∀ symbol, ((p.2.make p.1).exec w).1 = .ok symbol → w.symbolOf? p = some symbol
  known : w.meets p = true → w.symbolOf? p ≠ none

/-- An event makes a symbol, by a request that could be met and finds nothing, and tells those who
observe the environment. -/
structure Introduces (w : World FoldingSolver) (e : Event FoldingSolver) (p : Nat × SymbolRequest)
    (c : Context) (symbol : Symbol) (env : Environment) : Prop where
  request : e.request? = some p
  meets : w.meets p = true
  context : w.contexts[p.1]? = some c
  makes : c.env.Makes p.2 symbol env
  found : (inEnvironment p.1 (Environment.request p.2)).exec w =
    (.ok (symbol, some symbol), setEnvironment p.1 env w)
  made : (p.2.make p.1).exec w =
    (((publish p.1 symbol).exec (setEnvironment p.1 env w)).1.map fun _ => symbol,
      ((publish p.1 symbol).exec (setEnvironment p.1 env w)).2)
  later : (setEnvironment p.1 env w).Reaches .silent (e.after w)

/-- With an event no symbol is made, and what it requests is found if it can be met; or it makes the
symbol of its request. -/
theorem after_cases (e : Event FoldingSolver) (hhoused : w.Housed)
    (hw : ∀ i, (w.environmentOf i).Registered) :
    ((∀ i, (w.environmentOf i).Unasked ((e.after w).environmentOf i)) ∧
      ∀ p, e.request? = some p → w.Finds p) ∨
    ∃ p c symbol env, w.Introduces e p c symbol env := by
  obtain ⟨r, ctx, rfl⟩ | he := SymbolRequest.event_or_allowed e
  · have hrequest : (r.event ctx : Event FoldingSolver).request? = some (ctx, r) :=
      Event.request?_eq_some.2 rfl
    have hafter : Reaches .silent _ _ := (SymbolRequest.after_event r ctx w).leads
    obtain ⟨hunmet, x, hx, -⟩ | ⟨hmet, ⟨symbol, hfound, hx⟩ |
      ⟨c, symbol, env, hc, hmakes, hfound, hx⟩⟩ := SymbolRequest.make_exact hw r ctx
    · rw [hx] at hafter
      refine .inl ⟨hafter.unasked id, fun p hp => ?_⟩
      cases hrequest.symm.trans hp
      refine ⟨congrArg Prod.snd hx, fun symbol hok => ?_, fun hmet => ?_⟩
      · cases (congrArg Prod.fst hx).symm.trans hok
      · rw [hunmet] at hmet
        cases hmet
    · rw [hx] at hafter
      refine .inl ⟨hafter.unasked id, fun p hp => ?_⟩
      cases hrequest.symm.trans hp
      refine ⟨congrArg Prod.snd hx, fun symbol' hok => ?_,
        fun _ => hfound ▸ Option.some_ne_none symbol⟩
      cases (congrArg Prod.fst hx).symm.trans hok
      exact hfound
    · refine .inr ⟨(ctx, r), c, symbol, env, hrequest, hmet, hc, hmakes, hfound, hx, ?_⟩
      have hpublished : (setEnvironment ctx env w).Reaches .silent _ :=
        publish_reaches (fun _ => trivial) ctx symbol _
      rw [hx] at hafter
      exact hpublished.trans hafter
  · refine .inl ⟨fun i => (e.reaches he hhoused).unasked id i, fun p hp => ?_⟩
    obtain ⟨ctx, r⟩ := p
    rw [Event.request?_eq_some.1 hp] at he
    cases r with
    | constant => exact he.1.elim
    | function => exact he.1.elim

section Introductions

variable {e : Event FoldingSolver} {p : Nat × SymbolRequest} {c : Context} {symbol : Symbol}
  {env : Environment}

theorem Introduces.unasked (h : w.Introduces e p c symbol env) (i : Nat) :
    ((setEnvironment p.1 env w).environmentOf i).Unasked ((e.after w).environmentOf i) :=
  h.later.unasked id i

/-- From then on the request finds the symbol. -/
theorem Introduces.symbolOf? (h : w.Introduces e p c symbol env) (q : Nat × SymbolRequest) :
    (e.after w).symbolOf? q = if q = p then some symbol else w.symbolOf? q := by
  rw [symbolOf?_unasked h.unasked, symbolOf?_made h.context h.makes]

/-- What others find stays. -/
theorem Introduces.map_symbolOf? (h : w.Introduces e p c symbol env)
    {qs : List (Nat × SymbolRequest)} (hqs : p ∉ qs) :
    qs.map (e.after w).symbolOf? = qs.map w.symbolOf? := by
  refine List.map_congr_left fun q hq => ?_
  rw [h.symbolOf?, if_neg]
  rintro rfl
  exact hqs hq

end Introductions

/-- An environment has declared what was requested of it first, in that order. -/
structure Chronicled (w : World FoldingSolver) (asked : List (Nat × SymbolRequest)) : Prop where
  found : ∀ p, p ∈ asked ↔ ∃ symbol, w.symbolOf? p = some symbol
  declared : ∀ i, (w.environmentOf i).declared.map some =
    (asked.filter (·.1 = i)).map w.symbolOf?
  once : asked.Nodup

/-- An event requests what was requested before, or what cannot be met, and nothing is found that
was not found before; or it introduces what nobody requested before. -/
theorem Chronicled.cases {asked : List (Nat × SymbolRequest)} (h : w.Chronicled asked)
    (hhoused : w.Housed) (hw : ∀ i, (w.environmentOf i).Registered) (e : Event FoldingSolver) :
    (e.news? w asked = none ∧
      (∀ i, (w.environmentOf i).Unasked ((e.after w).environmentOf i)) ∧
      ∀ p, e.request? = some p → w.Finds p) ∨
    ∃ p c symbol env, e.news? w asked = some p ∧ p ∉ asked ∧ w.Introduces e p c symbol env := by
  obtain ⟨hunasked, hold⟩ | ⟨p, c, symbol, env, hnew⟩ := after_cases e hhoused hw
  · refine .inl ⟨Option.filter_eq_none_iff.2 fun p hp hnews => ?_, hunasked, hold⟩
    obtain ⟨hmet, hnot⟩ := Bool.and_eq_true_iff.1 hnews
    exact of_decide_eq_true hnot
      ((h.found p).2 (Option.ne_none_iff_exists'.1 ((hold p hp).known hmet)))
  · have hfresh : p ∉ asked := fun hm => by
      obtain ⟨symbol', hsymbol⟩ := (h.found p).1 hm
      rw [symbolOf?, environmentOf_eq hnew.context, hnew.makes.unknown] at hsymbol
      cases hsymbol
    refine .inr ⟨p, c, symbol, env, ?_, hfresh, hnew⟩
    rw [Event.news?, hnew.request, Option.filter_some, hnew.meets, decide_eq_true hfresh]
    rfl

theorem chronicled_afterAll (events : List (Event FoldingSolver)) :
    (afterAll events).Chronicled (firstRequests events) := by
  induction events using List.reverseRecOn with
  | nil =>
    refine ⟨fun p => ⟨fun h => (List.not_mem_nil h).elim, ?_⟩, fun i => rfl, List.nodup_nil⟩
    obtain ⟨i, _ | _⟩ := p <;> rintro ⟨symbol, h⟩ <;> cases h
  | append_singleton events e ih =>
    rw [firstRequests_concat, afterAll_concat]
    obtain ⟨hnone, hunasked, -⟩ | ⟨p, c, symbol, env, hnews, hfresh, hnew⟩ :=
      ih.cases (housed_afterAll events) (registered_afterAll events) e
    · rw [hnone, Option.toList_none, List.append_nil]
      refine ⟨fun p => ?_, fun i => ?_, ih.once⟩
      · rw [symbolOf?_unasked hunasked, ih.found]
      · rw [symbolOf?_unasked hunasked, (hunasked i).declared, ih.declared]
    · obtain ⟨d, hdeclares⟩ := hnew.makes.declares
      rw [hnews, Option.toList_some]
      refine ⟨fun q => ?_, fun i => ?_, ?_⟩
      · rw [List.mem_append, List.mem_singleton, hnew.symbolOf?, ih.found]
        by_cases hq : q = p
        · rw [if_pos hq]
          exact ⟨fun _ => ⟨symbol, rfl⟩, fun _ => .inr hq⟩
        · rw [if_neg hq]
          exact ⟨fun h => h.resolve_right hq, .inl⟩
      · have hdeclared := (hnew.unasked i).declared
        rw [environmentOf_setEnvironment hnew.context] at hdeclared
        rw [List.filter_append, List.map_append,
          hnew.map_symbolOf? fun h => hfresh (List.mem_filter.1 h).1, ← ih.declared, hdeclared]
        by_cases hi : i = p.1
        · rw [if_pos hi, hdeclares.declared, hi, ← environmentOf_eq hnew.context, List.map_append]
          simp [hnew.symbolOf?]
        · rw [if_neg hi]
          simp [Ne.symm hi]
      · refine List.nodup_append.2 ⟨ih.once, List.nodup_singleton p, fun q hq q' hq' => ?_⟩
        rw [List.mem_singleton.1 hq']
        rintro rfl
        exact hfresh hq

end World

end FormulaStack
