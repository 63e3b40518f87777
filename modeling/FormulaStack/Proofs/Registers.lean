import FormulaStack.Proofs.Environments
import FormulaStack.Proofs.Traversals

/-!
What an environment has registered: the constants and functions that were requested of it, each with
a declaration of the name and the sorts that the request gave.
-/
namespace FormulaStack

/-- A new constant has the name and the sort that it was made for. -/
theorem Build.decl_of_constant {name : String} {k : TermSort} {s u : Store} {t : Term}
    (h : Build.constant name k s = .ok (t, u)) :
    ∃ d, u.node? t = some ⟨.apply d, [], k⟩ ∧ u.decl? d = some ⟨name, [], k⟩ := by
  obtain ⟨d, v, hd, hv⟩ := bind_eq_ok.1 h
  obtain ⟨f, hf, -, hu⟩ := apply_eq_ok hv
  obtain ⟨rfl, rfl⟩ := Prod.ext_iff.1 (internDecl_eq_ok.1 hd)
  obtain ⟨rfl, rfl⟩ := Prod.ext_iff.1 hu
  rw [Store.decl?_internDecl] at hf
  cases hf
  exact ⟨_, Store.node?_intern _ _,
    (Store.intern_extends _ _).decl? _ _ (Store.decl?_internDecl _ _)⟩

namespace Environment

variable {env env' env'' : Environment}

theorem mem_of_lookup {α β : Type} [BEq α] [LawfulBEq α] {l : List (α × β)} {a : α} {b : β}
    (h : l.lookup a = some b) : (a, b) ∈ l := by
  obtain ⟨before, after, rfl, -⟩ := List.lookup_eq_some_iff.1 h
  simp

/-- All requests so far were met, and the backend reports what its terms are. -/
structure Registered (env : Environment) : Prop where
  candid : env.reported = []
  constant : ∀ name type t, ((name, type), t) ∈ env.constants → ∃ d k, env.sortOf type = .ok k ∧
    env.terms.node? t = some ⟨.apply d, [], k⟩ ∧ env.terms.decl? d = some ⟨name, [], k⟩
  function : ∀ name arguments result d, ((name, arguments, result), d) ∈ env.functions →
    ∃ ks k, List.Forall₂ (fun type k => env.sortOf type = .ok k) arguments ks ∧
      env.sortOf result = .ok k ∧ env.terms.decl? d = some ⟨name, ks, k⟩

theorem sortOf_congr (h : env'.theories = env.theories) : env'.sortOf = env.sortOf := by
  funext type
  cases type <;> simp only [sortOf, h]

/-- Different types have different sorts. -/
theorem type_of_sortOf {type : FormulaType} {k : TermSort} (h : env.sortOf type = .ok k) :
    k.type = type := by
  unfold sortOf at h
  split at h
  · split at h <;> cases h
    rfl
  · split at h <;> cases h
    rfl
  · split at h
    · next hk =>
      cases h
      exact (TermSort.ofType?_eq_some.1 hk).symm
    · cases h

/-- An environment with more terms, under which everything is that was requested. -/
structure Evolves (env env' : Environment) : Prop where
  id : env'.id = env.id
  theories : env'.theories = env.theories
  terms : env.terms.Grows env'.terms
  registered : env.Registered → env'.Registered

instance : Std.Refl Evolves := ⟨fun _ => ⟨rfl, rfl, .refl _, fun h => h⟩⟩

instance : IsTrans _ Evolves := ⟨fun _ _ _ h g =>
  ⟨g.id.trans h.id, g.theories.trans h.theories, h.terms.trans g.terms,
    fun hr => g.registered (h.registered hr)⟩⟩

theorem Registered.new (id : Nat) (theories : Theories) (counting announced track : Bool) :
    (new id theories counting announced track).Registered :=
  ⟨rfl, fun _ _ _ h => (List.not_mem_nil h).elim, fun _ _ _ _ h => (List.not_mem_nil h).elim⟩

/-- Nothing that was requested is lost when terms are added. -/
theorem Registered.mono (h : env.Registered) (hreported : env'.reported = env.reported)
    (hconstants : env'.constants = env.constants) (hfunctions : env'.functions = env.functions)
    (htheories : env'.theories = env.theories) (hterms : env'.terms.Extends env.terms) :
    env'.Registered := by
  refine ⟨hreported.trans h.candid, fun name type t ht => ?_, fun name arguments result d hd => ?_⟩
  · rw [hconstants] at ht
    obtain ⟨d, k, hk, hn, hf⟩ := h.constant name type t ht
    rw [sortOf_congr htheories]
    exact ⟨d, k, hk, hterms.node? t _ hn, hterms.decl? d _ hf⟩
  · rw [hfunctions] at hd
    obtain ⟨ks, k, hks, hk, hf⟩ := h.function name arguments result d hd
    rw [sortOf_congr htheories]
    exact ⟨ks, k, hks, hk, hterms.decl? d _ hf⟩

theorem evolves_terms {terms : Store} (h : env.terms.Grows terms) (handles : Handles)
    (observers : List Observer) : env.Evolves { env with terms, handles, observers } :=
  ⟨rfl, rfl, h, fun hr => hr.mono rfl rfl rfl rfl h.extension⟩

theorem Works.evolves (h : env.Works env') : env.Evolves env' := by
  rw [h.rest]
  exact evolves_terms h.terms env'.handles env.observers

theorem evolves_handles (handles : Handles) : env.Evolves { env with handles } :=
  evolves_terms (.refl _) handles env.observers

theorem evolves_retain (f : Formula) (env : Environment) : env.Evolves (env.retain f) :=
  (works_retain f env).evolves

theorem evolves_discard (f : Formula) (env : Environment) : env.Evolves (env.discard f) :=
  (works_discard f env).evolves

variable {α : Type}

theorem build_evolves {b : Build α} (hb : b.Grows) : Effect.Within Evolves (build b) :=
  fun env => (build_works hb env).evolves

theorem wrap_evolves (type : FormulaType) (t : Term) : Effect.Within Evolves (wrap type t) :=
  fun env => (wrap_works type t env).evolves

theorem wrapBool_evolves (t : Term) : Effect.Within Evolves (wrapBool t) :=
  fun env => (wrapBool_works t env).evolves

theorem cleanUp_evolves : Effect.Within Evolves cleanUp := fun env => (cleanUp_works env).evolves

theorem requestVariable_evolves (type : FormulaType) (name : String) :
    Effect.Within Evolves (requestVariable type name) := by
  intro env
  rw [exec_requestVariable]
  split
  · exact Std.Refl.refl env
  · split
    · exact Std.Refl.refl env
    · next k hk =>
      split
      · exact Std.Refl.refl env
      · next t terms hb =>
        obtain ⟨d, hn, hd⟩ := Build.decl_of_constant hb
        have hterms := Build.Grows.constant name k _ _ _ hb
        refine ⟨rfl, rfl, hterms, fun hr => ?_⟩
        -- All that was requested before is still there.
        have hold : Registered { env with terms } := hr.mono rfl rfl rfl rfl hterms.extension
        refine ⟨hold.candid, fun name' type' t' ht => ?_, hold.function⟩
        obtain ht | ht := List.mem_cons.1 ht
        · cases ht
          exact ⟨d, k, hk, hn, hd⟩
        · exact hold.constant name' type' t' ht

theorem requestFunction_evolves (name : String) (arguments : List FormulaType)
    (result : FormulaType) : Effect.Within Evolves (requestFunction name arguments result) := by
  intro env
  rw [exec_requestFunction]
  split
  · exact Std.Refl.refl env
  · split
    · exact Std.Refl.refl env
    · split
      · exact Std.Refl.refl env
      · next ks hks =>
        split
        · exact Std.Refl.refl env
        · next k hk =>
          have hterms := Store.grows_internDecl env.terms ⟨name, ks, k⟩
          refine ⟨rfl, rfl, hterms, fun hr => ?_⟩
          have hold : Registered { env with terms := (env.terms.internDecl ⟨name, ks, k⟩).2 } :=
            hr.mono rfl rfl rfl rfl hterms.extension
          refine ⟨hold.candid, hold.constant, fun name' arguments' result' d hd => ?_⟩
          obtain hd | hd := List.mem_cons.1 hd
          · cases hd
            exact ⟨ks, k, mapM_eq_ok.1 hks, hk, Store.decl?_internDecl _ _⟩
          · exact hold.function name' arguments' result' d hd

end Environment

namespace Model

open Environment

theorem ofPairs_evolves (pairs : List (Term × Term)) : Effect.Within Evolves (ofPairs pairs) :=
  fun env => (ofPairs_works pairs env).evolves

end Model
end FormulaStack
