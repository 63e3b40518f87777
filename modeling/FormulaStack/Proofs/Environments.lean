import FormulaStack.Boolean
import FormulaStack.Model
import FormulaStack.Proofs.Accounts
import FormulaStack.Proofs.Constructors
import FormulaStack.Symbols

/-!
What effects do to an environment: its store grows, the accounts stay right, and the wrappers that
an effect returns are those that it made. All else about the environment stays.
-/
namespace FormulaStack

/-- The symbol for a constant of a type. -/
def Symbol.ofConstant (type : FormulaType) (t : Term) : Symbol :=
  if type.isBoolean then .boolean t else .numeric t

namespace Environment

variable {α : Type} {env₀ env : Environment} {held : Multiset Formula} {recorded : Multiset Term}

theorem unwrap_eq_ok {f : Formula} {t : Term} :
    env.unwrap f = .ok t ↔ f.owner = env.id ∧ f.term = t := by
  unfold unwrap
  split <;> simp [*]

/-- Formulas are unwrapped together if all are the environment's own. -/
theorem unwrapAll_eq (env : Environment) (fs : List Formula) :
    env.unwrapAll fs =
      if ∀ f ∈ fs, f.owner = env.id then .ok (fs.map (·.term)) else .error .foreign := by
  split
  · next h =>
    refine mapM_eq_ok.2 (List.forall₂_map_right_iff.2 (List.forall₂_same.2 fun f hf => ?_))
    exact unwrap_eq_ok.2 ⟨h f hf, rfl⟩
  · next h =>
    induction fs with
    | nil => simp at h
    | cons f fs ih =>
      rw [unwrapAll, List.mapM_cons]
      by_cases hf : f.owner = env.id
      · have hrest : fs.mapM env.unwrap = .error .foreign :=
          ih fun hfs => h (List.forall_mem_cons.2 ⟨hf, hfs⟩)
        rw [hrest, unwrap_eq_ok.2 ⟨hf, rfl⟩]
        rfl
      · rw [unwrap, if_neg hf]
        rfl

theorem exec_unwraps (env : Environment) (fs : List BoolFormula) :
    (fs.mapM (·.unwrap) : Effect Environment (List Term)).exec env =
      (if ∀ f ∈ fs, f.formula.owner = env.id then .ok (fs.map (·.term)) else .error .foreign,
        env) := by
  have hall := unwrapAll_eq env (fs.map (·.formula))
  rw [unwrapAll, List.mapM_map, List.map_map] at hall
  simp only [List.forall_mem_map] at hall
  exact (Effect.exec_mapM_ask (fun f env => env.unwrap f.formula) fs env).trans
    (congrArg (·, env) hall)

theorem owner_of_unwraps {fs : List BoolFormula} {ts : List Term}
    (h : ((fs.mapM (·.unwrap) : Effect Environment (List Term)).exec env).1 = .ok ts) :
    ∀ f ∈ fs, f.formula.owner = env.id := by
  rw [exec_unwraps] at h
  by_contra hforeign
  rw [if_neg hforeign] at h
  cases h

/-- An environment that came from another one by work on terms and wrappers. -/
structure Follows (env₀ env : Environment) : Prop where
  rest : env = { env₀ with terms := env.terms, handles := env.handles }
  terms : env.terms.Extends env₀.terms

theorem Follows.refl (env : Environment) : env.Follows env := ⟨rfl, .refl _⟩

theorem Follows.handles (h : env₀.Follows env) (handles : Handles) :
    env₀.Follows { env with handles } := by
  refine ⟨?_, h.terms⟩
  rw [h.rest]

/-- An environment that follows `env₀`, in which `held` are the wrappers in use. -/
structure At (env₀ : Environment) (recorded : Multiset Term) (env : Environment)
    (held : Multiset Formula) : Prop where
  follows : env₀.Follows env
  wellFormed : env.terms.WellFormed
  owned : ∀ f ∈ held, f.owner = env₀.id
  accounts : env.Accounts held recorded

theorem At.id (h : At env₀ recorded env held) : env.id = env₀.id := by
  rw [h.follows.rest]

theorem At.of_accounts {handles : Handles} {held' : Multiset Formula}
    (h : At env₀ recorded env held)
    (howned : ∀ f ∈ held', f.owner = env₀.id)
    (ha : ({ env with handles } : Environment).Accounts held' recorded) :
    At env₀ recorded { env with handles } held' :=
  ⟨h.follows.handles handles, h.wellFormed, howned, ha⟩

theorem At.discard {f : Formula} (h : At env₀ recorded env ({f} + held)) :
    At env₀ recorded (env.discard f) held := by
  have ho : f.owner = env.id := by
    rw [h.id]
    exact h.owned f (Multiset.mem_add.2 (.inl (Multiset.mem_singleton_self f)))
  have ha := h.accounts
  rw [Multiset.singleton_add] at ha
  have hd := ha.discard
  rw [Environment.discard, if_pos ho] at hd ⊢
  exact h.of_accounts (fun g hg => h.owned g (Multiset.mem_add.2 (.inr hg))) hd

theorem At.discardAll {fs : List Formula}
    (h : At env₀ recorded env ((fs : Multiset Formula) + held)) :
    At env₀ recorded (discardAll fs env) held := by
  induction fs generalizing env with
  | nil => simpa [Environment.discardAll] using h
  | cons f fs ih =>
    refine ih (At.discard (f := f) ?_)
    rwa [← add_assoc, Multiset.singleton_add, Multiset.cons_coe]

/-- Work on the term store. -/
theorem build_owns {b : Build α} (hb : b.Grows) :
    Effect.Owns (At env₀ recorded) 0 (build b) fun _ => 0 := by
  intro env held h
  rw [zero_add] at h
  unfold build
  rw [Effect.exec_of]
  cases hx : b env.terms with
  | error f => exact h
  | ok r =>
    have hg := hb env.terms r.1 r.2 hx
    dsimp only
    rw [zero_add]
    refine ⟨⟨?_, hg.extension.trans h.follows.terms⟩, hg.wellFormed h.wellFormed, h.owned, ?_⟩
    · rw [h.follows.rest]
    · exact ⟨h.accounts.serves, h.accounts.balanced⟩

/-- A new wrapper of a term. -/
theorem register_owns (t : Term) (type : FormulaType) (formula : α → Formula)
    (make : Environment → Option Nat → α)
    (hmake : ∀ env ticket, formula (make env ticket) = ⟨t, type, env.id, ticket⟩) :
    Effect.Owns (At env₀ recorded) 0 (.of fun env =>
      let (ticket, handles) := env.handles.register t
      (.ok (make env ticket), { env with handles })) fun a => {formula a} := by
  intro env held h
  rw [zero_add] at h
  rw [Effect.exec_of]
  dsimp only
  rw [hmake, Multiset.singleton_add]
  refine h.of_accounts (fun f hf => ?_) (h.accounts.register t type)
  obtain rfl | hf := Multiset.mem_cons.1 hf
  · exact h.id
  · exact h.owned f hf

theorem wrap_owns (type : FormulaType) (t : Term) :
    Effect.Owns (At env₀ recorded) 0 (wrap type t) fun f => {f} := by
  have hreg : Effect.Owns (At env₀ recorded) 0 _ _ := register_owns t type (fun f : Formula => f)
    (fun env ticket => (⟨t, type, env.id, ticket⟩ : Formula)) fun _ _ => rfl
  refine .bind (.ask _) fun actual => ?_
  split
  · exact hreg
  · exact .bind (.throw _) fun _ => hreg

theorem wrapBool_owns (t : Term) :
    Effect.Owns (At env₀ recorded) 0 (wrapBool t) fun f => {f.formula} := by
  have hreg : Effect.Owns (At env₀ recorded) 0 _ _ := register_owns t .boolean BoolFormula.formula
    (fun env ticket => ⟨⟨t, .boolean, env.id, ticket⟩, rfl⟩) fun _ _ => rfl
  refine .bind (.ask _) fun actual => ?_
  split
  · exact hreg
  · exact .bind (.throw _) fun _ => hreg

theorem wrapAsIs_owns (t : Term) :
    Effect.Owns (At env₀ recorded) 0 (wrapAsIs t) fun f => {f} :=
  .bind (.ask _) fun actual => wrap_owns actual t

theorem cleanUp_owns : Effect.Owns (At env₀ recorded) 0 cleanUp fun _ => 0 := by
  intro env held h
  unfold cleanUp
  rw [Effect.exec_of]
  exact h.of_accounts h.owned h.accounts.drain

/-! Work on terms and wrappers, whoever holds them -/

/-- What work on terms and wrappers does to an environment. -/
structure Works (env env' : Environment) : Prop where
  rest : env' = { env with terms := env'.terms, handles := env'.handles }
  terms : env.terms.Grows env'.terms
  balanced : ∀ kept, env.handles.Balanced kept → env'.handles.Balanced kept

instance : Std.Refl Works := ⟨fun _ => ⟨rfl, .refl _, fun _ h => h⟩⟩

instance : IsTrans _ Works := ⟨fun _ _ _ h g =>
  ⟨by rw [g.rest, h.rest], h.terms.trans g.terms, fun kept hb =>
    g.balanced kept (h.balanced kept hb)⟩⟩

theorem works_handles {handles : Handles}
    (h : ∀ kept, env.handles.Balanced kept → handles.Balanced kept) :
    env.Works { env with handles } :=
  ⟨rfl, .refl _, h⟩

theorem works_retain (f : Formula) (env : Environment) : env.Works (env.retain f) := by
  unfold retain
  split
  · exact works_handles fun _ hb => hb.adjust _ _
  · exact Std.Refl.refl env

theorem works_discard (f : Formula) (env : Environment) : env.Works (env.discard f) := by
  unfold discard
  split
  · exact works_handles fun _ hb => hb.adjust _ _
  · exact Std.Refl.refl env

theorem works_discardAll (fs : List Formula) (env : Environment) :
    env.Works (discardAll fs env) := by
  induction fs generalizing env with
  | nil => exact Std.Refl.refl env
  | cons f fs ih => exact Trans.trans (works_discard f env) (ih _)

theorem build_works {b : Build α} (hb : b.Grows) : Effect.Within Works (build b) := by
  intro env
  unfold build
  rw [Effect.exec_of]
  cases h : b env.terms with
  | error f => exact Std.Refl.refl env
  | ok r => exact ⟨rfl, hb env.terms r.1 r.2 h, fun _ hb => hb⟩

theorem register_works (t : Term) (make : Environment → Option Nat → α) :
    Effect.Within Works (.of fun env : Environment =>
      (.ok (make env (env.handles.register t).1),
        { env with handles := (env.handles.register t).2 })) :=
  fun _ => works_handles fun _ hb => hb.register

theorem wrap_works (type : FormulaType) (t : Term) : Effect.Within Works (wrap type t) := by
  have hregister := register_works t fun env ticket => (⟨t, type, env.id, ticket⟩ : Formula)
  refine .bind (.ask _) fun actual => ?_
  split
  · exact hregister
  · exact .bind (.throw _) fun _ => hregister

theorem wrapBool_works (t : Term) : Effect.Within Works (wrapBool t) := by
  have hregister := register_works t fun env ticket =>
    (⟨⟨t, .boolean, env.id, ticket⟩, rfl⟩ : BoolFormula)
  refine .bind (.ask _) fun actual => ?_
  split
  · exact hregister
  · exact .bind (.throw _) fun _ => hregister

theorem wrapAsIs_works (t : Term) : Effect.Within Works (wrapAsIs t) :=
  .bind (.ask _) fun type => wrap_works type t

theorem cleanUp_works : Effect.Within Works cleanUp :=
  fun _ => works_handles fun _ hb => hb.drain

/-! Requests -/

theorem exec_build (b : Build α) (env : Environment) :
    (build b).exec env =
      match b env.terms with
      | .ok (a, terms) => (.ok a, { env with terms })
      | .error f => (.error f, env) := rfl

theorem exec_requestVariable (type : FormulaType) (name : String) (env : Environment) :
    (requestVariable type name).exec env =
      match env.constants.lookup (name, type) with
      | some t => (.ok (t, none), env)
      | none =>
        match env.sortOf type with
        | .error f => (.error f, env)
        | .ok k =>
          match Build.constant name k env.terms with
          | .error f => (.error f, env)
          | .ok (t, terms) => (.ok (t, some (.ofConstant type t)),
            { env with
              terms
              handles := env.handles.hold t
              constants := ((name, type), t) :: env.constants
              declared := env.declared ++ [.ofConstant type t] }) := by
  unfold requestVariable
  rw [Effect.exec_bind_ok (Effect.exec_look _ _)]
  dsimp only
  cases env.constants.lookup (name, type) with
  | some t => rfl
  | none =>
    rw [Effect.exec_bind, Effect.exec_ask]
    cases env.sortOf type with
    | error f => rfl
    | ok k =>
      dsimp only
      rw [Effect.exec_bind, exec_build]
      cases Build.constant name k env.terms <;> rfl

theorem exec_requestFunction (name : String) (arguments : List FormulaType) (result : FormulaType)
    (env : Environment) : (requestFunction name arguments result).exec env =
      if arguments = [] then (.error (.badArgument (.noParameters name)), env)
      else
        match env.functions.lookup (name, arguments, result) with
        | some d => (.ok (⟨name, arguments, result, d, env.id⟩, none), env)
        | none =>
          match arguments.mapM env.sortOf with
          | .error f => (.error f, env)
          | .ok ks =>
            match env.sortOf result with
            | .error f => (.error f, env)
            | .ok k =>
              let d := (env.terms.internDecl ⟨name, ks, k⟩).1
              (.ok (⟨name, arguments, result, d, env.id⟩, some (.function d)),
                { env with
                  terms := (env.terms.internDecl ⟨name, ks, k⟩).2
                  functions := ((name, arguments, result), d) :: env.functions
                  declared := env.declared ++ [.function d] }) := by
  unfold requestFunction
  dsimp only
  cases arguments with
  | nil => rfl
  | cons argument arguments =>
    rw [if_neg (by simp), if_neg (by simp), Effect.exec_bind_ok (Effect.exec_look _ _),
      Effect.exec_bind_ok (Effect.exec_look _ _)]
    cases env.functions.lookup (name, argument :: arguments, result) with
    | some d => rfl
    | none =>
      dsimp only
      rw [Effect.exec_bind, Effect.exec_mapM_ask]
      cases (argument :: arguments).mapM env.sortOf with
      | error f => rfl
      | ok ks =>
        dsimp only
        rw [Effect.exec_bind, Effect.exec_ask]
        cases env.sortOf result <;> rfl

end Environment

namespace Model

open Environment

variable {env₀ : Environment} {recorded : Multiset Term}

theorem ofPair_owns (pair : Term × Term) :
    Effect.Owns (At env₀ recorded) 0 (Assignment.ofPair pair)
      fun a => (a.formulas : List Formula) := by
  refine .bind (.ask _) fun name => .bind (.ask _) fun constant =>
    .bind (wrapAsIs_owns _) fun key => .bind (.undoing (wrapAsIs_owns _) fun _ _ => At.discard)
      fun value => .pure_of ?_
  exact add_comm _ _

theorem assignments_owns : ∀ pairs : List (Term × Term),
    Effect.Owns (At env₀ recorded) 0 (assignments pairs) fun m => (Model.formulas m : List Formula)
  | [] => .pure _
  | pair :: pairs => by
    refine .bind (ofPair_owns pair) fun a =>
      .bind (.undoing (assignments_owns pairs) fun _ _ => At.discardAll) fun m => .pure_of ?_
    rw [add_comm, Multiset.coe_add]
    rfl

theorem ofPairs_owns (pairs : List (Term × Term)) :
    Effect.Owns (At env₀ recorded) 0 (ofPairs pairs)
      fun m => (Model.formulas m : List Formula) := by
  refine .bind (assignments_owns pairs) fun m => .pure_of ?_
  exact Multiset.coe_eq_coe.2 ((List.mergeSort_perm m _).symm.flatMap_right _)

theorem ofPair_works (pair : Term × Term) : Effect.Within Works (Assignment.ofPair pair) :=
  .bind (.ask _) fun _ => .bind (.ask _) fun _ => .bind (wrapAsIs_works _) fun key =>
    .bind (.undoing (wrapAsIs_works _) (works_discard key)) fun _ => .pure _

theorem assignments_works : ∀ pairs, Effect.Within Works (assignments pairs)
  | [] => .pure _
  | pair :: pairs =>
    .bind (ofPair_works pair) fun a =>
      .bind (.undoing (assignments_works pairs) (works_discardAll a.formulas)) fun _ => .pure _

theorem ofPairs_works (pairs : List (Term × Term)) : Effect.Within Works (ofPairs pairs) :=
  .bind (assignments_works pairs) fun _ => .pure _

end Model
end FormulaStack
