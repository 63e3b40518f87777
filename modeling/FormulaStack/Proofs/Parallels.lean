import FormulaStack.Proofs.Expressions
import FormulaStack.Proofs.Likeness

/-!
Work in two environments side by side. It runs alike if it fails for one reason or gives results
that are alike, and what was alike before stays so.
-/
namespace FormulaStack

namespace Environment

variable {α β γ δ : Type} {env env' env₁ env₁' : Environment} {t t' : Term}

/-- An environment whose terms fit, and that has met all requests so far. -/
structure Orderly (env : Environment) : Prop where
  wellFormed : env.terms.WellFormed
  registered : env.Registered

theorem Orderly.proper (h : env.Orderly) : env.Proper := ⟨h.wellFormed, h.registered.candid⟩

/-- An environment that has evolved under the same observers. -/
structure Continues (env env' : Environment) : Prop extends env.Evolves env' where
  observers : env'.observers = env.observers

instance : Std.Refl Continues := ⟨fun env => ⟨Std.Refl.refl env, rfl⟩⟩

instance : IsTrans _ Continues := ⟨fun _ _ _ h g =>
  ⟨Trans.trans h.toEvolves g.toEvolves, g.observers.trans h.observers⟩⟩

theorem continues_handles (handles : Handles) : env.Continues { env with handles } :=
  ⟨evolves_handles handles, rfl⟩

theorem build_continues {b : Build α} (hb : b.Grows) : Effect.Within Continues (build b) := by
  refine fun env => ⟨build_evolves hb env, ?_⟩
  unfold build
  rw [Effect.exec_of]
  cases b env.terms <;> rfl

theorem retain_continues (f : Formula) (env : Environment) : env.Continues (env.retain f) := by
  refine ⟨evolves_retain f env, ?_⟩
  unfold retain
  split <;> rfl

theorem wrapBool_continues (t : Term) : Effect.Within Continues (wrapBool t) := by
  have hregister : Effect.Within Continues (.of fun env : Environment =>
      (.ok (⟨⟨t, .boolean, env.id, (env.handles.register t).1⟩, rfl⟩ : BoolFormula),
        { env with handles := (env.handles.register t).2 })) :=
    fun env => continues_handles _
  refine .bind (.ask _) fun actual => ?_
  split
  · exact hregister
  · exact .bind (.throw _) fun _ => hregister

theorem Continues.orderly (h : env.Continues env₁) (henv : env.Orderly) : env₁.Orderly :=
  ⟨h.terms.wellFormed henv.wellFormed, h.registered henv.registered⟩

theorem Continues.tree? {x : Tree} (h : env.Continues env₁) (henv : env.Orderly)
    (hx : env.terms.tree? t = some x) : env₁.terms.tree? t = some x :=
  henv.wellFormed.tree?_extends (h.orderly henv).wellFormed h.terms.extension hx

/-- Two environments of one backend. -/
structure Beside (env env' : Environment) : Prop where
  left : env.Orderly
  right : env'.Orderly
  theories : env'.theories = env.theories

theorem Beside.evolve (h : env.Beside env') (hl : env.Continues env₁) (hr : env'.Continues env₁') :
    env₁.Beside env₁' :=
  ⟨hl.orderly h.left, hr.orderly h.right, hr.theories.trans (h.theories.trans hl.theories.symm)⟩

theorem Beside.sortOf (h : env.Beside env') : env'.sortOf = env.sortOf := sortOf_congr h.theories

def TermsAlike (env env' : Environment) (t t' : Term) : Prop := env.terms.Alike env'.terms t t'

def AllAlike (env env' : Environment) (ts ts' : List Term) : Prop :=
  env.terms.AllAlike env'.terms ts ts'

/-- Formulas of one declared type over terms that are alike. -/
structure FormulasAlike (env env' : Environment) (f f' : Formula) : Prop where
  owner : f.owner = env.id
  owner' : f'.owner = env'.id
  type : f'.type = f.type
  term : ∃ x, env.terms.tree? f.term = some x ∧ env'.terms.tree? f'.term = some x ∧
    f.type.accepts x.sort.type = true

def BoolsAlike (env env' : Environment) (f f' : BoolFormula) : Prop :=
  FormulasAlike env env' f.formula f'.formula

theorem FormulasAlike.terms {f f' : Formula} (h : FormulasAlike env env' f f') :
    TermsAlike env env' f.term f'.term := by
  obtain ⟨x, hx, hx', -⟩ := h.term
  exact ⟨x, hx, hx'⟩

section Evolution

variable (h : env.Beside env') (hl : env.Continues env₁) (hr : env'.Continues env₁')
include h hl hr

theorem TermsAlike.evolve (ht : TermsAlike env env' t t') : TermsAlike env₁ env₁' t t' :=
  Store.Alike.mono h.left.wellFormed h.right.wellFormed ht hl.terms hr.terms

theorem FormulasAlike.evolve {f f' : Formula} (hf : FormulasAlike env env' f f') :
    FormulasAlike env₁ env₁' f f' := by
  obtain ⟨x, hx, hx', haccepts⟩ := hf.term
  exact ⟨hf.owner.trans hl.id.symm, hf.owner'.trans hr.id.symm, hf.type, x, hl.tree? h.left hx,
    hr.tree? h.right hx', haccepts⟩

theorem allFormulasAlike_evolve {fs fs' : List Formula}
    (hfs : List.Forall₂ (FormulasAlike env env') fs fs') :
    List.Forall₂ (FormulasAlike env₁ env₁') fs fs' :=
  hfs.imp fun _ _ hf => hf.evolve h hl hr

end Evolution

/-- Two effects that fail alike or succeed with results that `R` relates. -/
structure RunsAlike (R : Environment → Environment → α → β → Prop) (e : Effect Environment α)
    (e' : Effect Environment β) (env env' : Environment) : Prop where
  left : env.Continues (e.exec env).2
  right : env'.Continues (e'.exec env').2
  agrees : Agree (R (e.exec env).2 (e'.exec env').2) (e.exec env).1 (e'.exec env').1

namespace RunsAlike

variable {R : Environment → Environment → α → β → Prop}
  {S : Environment → Environment → γ → δ → Prop} {e : Effect Environment α}
  {e' : Effect Environment β} {k : α → Effect Environment γ}
  {k' : β → Effect Environment δ}

theorem of_exec {a : α} {b : β} (hx : e.exec env = (.ok a, env₁))
    (hx' : e'.exec env' = (.ok b, env₁')) (hl : env.Continues env₁) (hr : env'.Continues env₁')
    (h : R env₁ env₁' a b) :
    RunsAlike R e e' env env' := by
  refine ⟨by rwa [hx], by rwa [hx'], ?_⟩
  rw [hx, hx']
  exact .ok h

theorem pure {a : α} {b : β} (h : R env env' a b) :
    RunsAlike R (Pure.pure a) (Pure.pure b) env env' :=
  of_exec rfl rfl (Std.Refl.refl env) (Std.Refl.refl env') h

theorem throw (x : Fault) : RunsAlike R (MonadExcept.throw x : Effect Environment α)
    (MonadExcept.throw x : Effect Environment β) env env' :=
  ⟨Std.Refl.refl env, Std.Refl.refl env', .error x⟩

theorem throw_bind (x : Fault) :
    RunsAlike S (MonadExcept.throw x >>= k) (MonadExcept.throw x >>= k') env env' :=
  ⟨Std.Refl.refl env, Std.Refl.refl env', .error x⟩

theorem bind (hbeside : env.Beside env') (h : RunsAlike R e e' env env')
    (hk : ∀ a b env₁ env₁', env.Continues env₁ → env'.Continues env₁' → env₁.Beside env₁' →
      R env₁ env₁' a b → RunsAlike S (k a) (k' b) env₁ env₁') :
    RunsAlike S (e >>= k) (e' >>= k') env env' := by
  obtain ⟨hl, hr, hagrees⟩ := h
  rcases hx : e.exec env with ⟨out, env₁⟩
  rcases hx' : e'.exec env' with ⟨out', env₁'⟩
  rw [hx] at hl hagrees
  rw [hx'] at hr hagrees
  cases hagrees with
  | error f =>
    refine ⟨?_, ?_, ?_⟩
    · rwa [Effect.exec_bind_error hx]
    · rwa [Effect.exec_bind_error hx']
    · rw [Effect.exec_bind_error hx, Effect.exec_bind_error hx']
      exact .error f
  | @ok a b hab =>
    have hnext := hk a b env₁ env₁' hl hr (hbeside.evolve hl hr) hab
    refine ⟨?_, ?_, ?_⟩
    · rw [Effect.exec_bind_ok hx]
      exact Trans.trans hl hnext.left
    · rw [Effect.exec_bind_ok hx']
      exact Trans.trans hr hnext.right
    · rw [Effect.exec_bind_ok hx, Effect.exec_bind_ok hx']
      exact hnext.agrees

/-- What is asked has related answers. -/
theorem ask_bind {g : Environment → Except Fault α} {g' : Environment → Except Fault β}
    {P : α → β → Prop} (h : Agree P (g env) (g' env'))
    (hk : ∀ a b, P a b → RunsAlike S (k a) (k' b) env env') :
    RunsAlike S (.ask g >>= k) (.ask g' >>= k') env env' := by
  have hx : (Effect.ask g).exec env = (g env, env) := Effect.exec_ask g env
  have hx' : (Effect.ask g').exec env' = (g' env', env') := Effect.exec_ask g' env'
  generalize g env = out at h hx
  generalize g' env' = out' at h hx'
  cases h with
  | error f =>
    refine ⟨?_, ?_, ?_⟩
    · rw [Effect.exec_bind_error hx]
      exact Std.Refl.refl env
    · rw [Effect.exec_bind_error hx']
      exact Std.Refl.refl env'
    · rw [Effect.exec_bind_error hx, Effect.exec_bind_error hx']
      exact .error f
  | @ok a b hab =>
    have hnext := hk a b hab
    refine ⟨?_, ?_, ?_⟩
    · rw [Effect.exec_bind_ok hx]
      exact hnext.left
    · rw [Effect.exec_bind_ok hx']
      exact hnext.right
    · rw [Effect.exec_bind_ok hx, Effect.exec_bind_ok hx']
      exact hnext.agrees

/-- What is asked has one answer. -/
theorem ask_same_bind {g g' : Environment → Except Fault α} {k' : α → Effect Environment δ}
    (h : g' env' = g env) (hk : ∀ a, RunsAlike S (k a) (k' a) env env') :
    RunsAlike S (.ask g >>= k) (.ask g' >>= k') env env' := by
  refine ask_bind (P := Eq) ?_ fun a b hab => hab ▸ hk a
  rw [h]
  cases g env with
  | error f => exact .error f
  | ok a => exact .ok rfl

theorem look_bind {g : Environment → α} {g' : Environment → β}
    (h : RunsAlike S (k (g env)) (k' (g' env')) env env') :
    RunsAlike S (.look g >>= k) (.look g' >>= k') env env' :=
  ask_bind (P := fun a b => a = g env ∧ b = g' env') (.ok ⟨rfl, rfl⟩) fun _ _ hab => by
    rw [hab.1, hab.2]
    exact h

/-- One piece of work after the other, for each element of two lists. -/
theorem mapM {f : γ → Effect Environment α} {f' : δ → Effect Environment β}
    {P : Environment → Environment → γ → δ → Prop}
    (hR : ∀ {env env' env₁ env₁' a b}, env.Beside env' → env.Continues env₁ → env'.Continues env₁' →
      R env env' a b → R env₁ env₁' a b)
    (hP : ∀ {env env' env₁ env₁' a b}, env.Beside env' → env.Continues env₁ → env'.Continues env₁' →
      P env env' a b → P env₁ env₁' a b)
    (hf : ∀ {env env' a b}, env.Beside env' → P env env' a b → RunsAlike R (f a) (f' b) env env')
    {as : List γ} {bs : List δ} (hbeside : env.Beside env') (h : List.Forall₂ (P env env') as bs) :
    RunsAlike (fun env env' => List.Forall₂ (R env env')) (as.mapM f) (bs.mapM f') env env' := by
  induction as generalizing bs env env' with
  | nil =>
    cases h
    exact pure .nil
  | cons a as ih =>
    cases h with
    | cons ha has =>
      rw [List.mapM_cons, List.mapM_cons]
      refine bind hbeside (hf hbeside ha) fun x y env₁ env₁' hl hr hbeside₁ hxy => ?_
      have has₁ := has.imp fun _ _ h => hP hbeside hl hr h
      refine bind hbeside₁ (ih hbeside₁ has₁) fun xs ys env₂ env₂' hl₂ hr₂ _ hxys => ?_
      exact pure (.cons (hR hbeside₁ hl₂ hr₂ hxy) hxys)

end RunsAlike

/-! Questions about terms and formulas -/

section Questions

variable {f f' : Formula} {S : Environment → Environment → γ → δ → Prop}

theorem TermsAlike.kind_eq (h : env.Beside env') (ht : TermsAlike env env' t t') :
    env'.kind t' = env.kind t := by
  obtain ⟨x, hx, hx'⟩ := ht
  rw [Shows.kind hx h.left.proper, Shows.kind hx' h.right.proper]

theorem TermsAlike.typeOf_eq (h : env.Beside env') (ht : TermsAlike env env' t t') :
    env'.typeOf t' = env.typeOf t := by
  obtain ⟨x, hx, hx'⟩ := ht
  rw [Shows.typeOf hx h.left.proper, Shows.typeOf hx' h.right.proper]

theorem TermsAlike.children (h : env.Beside env') (ht : TermsAlike env env' t t') :
    Agree (AllAlike env env') (env.children t) (env'.children t') := by
  obtain ⟨x, hx, hx'⟩ := ht
  obtain ⟨ts, hts, hxs⟩ := Shows.children hx h.left.proper
  obtain ⟨ts', hts', hxs'⟩ := Shows.children hx' h.right.proper
  rw [hts, hts']
  exact .ok (Store.Unfolds.allAlike hxs hxs')

theorem TermsAlike.eq_iff (h : env.Beside env') {u u' : Term} (ht : TermsAlike env env' t t')
    (hu : TermsAlike env env' u u') : t = u ↔ t' = u' := by
  obtain ⟨x, hx, hx'⟩ := ht
  obtain ⟨y, hy, hy'⟩ := hu
  constructor
  · rintro rfl
    obtain rfl : x = y := Option.some.inj (hx.symm.trans hy)
    exact h.right.wellFormed.tree?_injective hx' hy'
  · rintro rfl
    obtain rfl : x = y := Option.some.inj (hx'.symm.trans hy')
    exact h.left.wellFormed.tree?_injective hx hy

theorem TermsAlike.dump_eq (h : env.Beside env') (ht : TermsAlike env env' t t') :
    env'.terms.dump t' = env.terms.dump t := by
  obtain ⟨text, hd, hd'⟩ := Store.Alike.dump_eq h.left.wellFormed h.right.wellFormed ht
  rw [hd, hd']

/-- Formulas that are alike belong to the environments that they are alike in. -/
theorem RunsAlike.unwrap_bind {k : Term → Effect Environment γ} {k' : Term → Effect Environment δ}
    (hf : FormulasAlike env env' f f')
    (hk : RunsAlike S (k f.term) (k' f'.term) env env') :
    RunsAlike S (.ask (·.unwrap f) >>= k) (.ask (·.unwrap f') >>= k') env env' := by
  refine .ask_bind (P := fun t t' => t = f.term ∧ t' = f'.term) ?_ fun t t' ht => ?_
  · rw [unwrap, unwrap, if_pos hf.owner, if_pos hf.owner']
    exact .ok ⟨rfl, rfl⟩
  · rw [ht.1, ht.2]
    exact hk

theorem RunsAlike.claim_bind {k : BoolFormula → Effect Environment γ}
    {k' : BoolFormula → Effect Environment δ} (hf : FormulasAlike env env' f f')
    (hk : ∀ g g', BoolsAlike env env' g g' → RunsAlike S (k g) (k' g') env env') :
    RunsAlike S (Expression.claim f >>= k) (Expression.claim f' >>= k') env env' := by
  refine .ask_bind (P := BoolsAlike env env') ?_ hk
  unfold Formula.toBool
  by_cases hbool : f.type = .boolean
  · rw [dif_pos hbool, dif_pos (hf.type.trans hbool)]
    exact .ok hf
  · rw [dif_neg hbool, dif_neg (hf.type ▸ hbool), hf.type]
    exact .error _

theorem RunsAlike.require_bind {k : Unit → Effect Environment γ} {k' : Unit → Effect Environment δ}
    (h : env.Beside env') (t : Theory) (hk : RunsAlike S (k ()) (k' ()) env env') :
    RunsAlike S (require t >>= k) (require t >>= k') env env' := by
  have hrequire : RunsAlike (fun e e' _ _ => e = env ∧ e' = env') (require t) (require t)
      env env' := by
    refine .look_bind ?_
    rw [h.theories]
    split
    · exact .pure ⟨rfl, rfl⟩
    · exact .throw _
  refine .bind h hrequire fun _ _ env₁ env₁' _ _ _ he => ?_
  rw [he.1, he.2]
  exact hk

theorem RunsAlike.managed {e : Effect Environment γ} {e' : Effect Environment δ} (t : Theory)
    (h : env.Beside env') (he : RunsAlike S e e' env env') :
    RunsAlike S (Expression.managed t e) (Expression.managed t e') env env' :=
  .require_bind h t he

theorem RunsAlike.formula {e e' : Effect Environment BoolFormula} (h : env.Beside env')
    (he : RunsAlike BoolsAlike e e' env env') :
    RunsAlike FormulasAlike (Expression.formula e) (Expression.formula e') env env' :=
  .bind h he fun _ _ _ _ _ _ _ hf => .pure hf

end Questions

/-! New terms and formulas -/

theorem RunsAlike.build {b b' : Build Term} (h : env.Beside env') (hb : b.Grows) (hb' : b'.Grows)
    (hmakes : Build.MakesAlike b b' env.terms env'.terms) :
    RunsAlike TermsAlike (Environment.build b) (Environment.build b') env env' := by
  refine ⟨build_continues hb env, build_continues hb' env', ?_⟩
  unfold Environment.build
  unfold Build.MakesAlike at hmakes
  rw [Effect.exec_of, Effect.exec_of]
  have hgrows := hb env.terms
  have hgrows' := hb' env'.terms
  generalize b env.terms = out at hmakes hgrows
  generalize b' env'.terms = out' at hmakes hgrows'
  cases hmakes with
  | error f => exact .error f
  | @ok r r' hr =>
    exact .ok (hr ((hgrows _ _ rfl).wellFormed h.left.wellFormed)
      ((hgrows' _ _ rfl).wellFormed h.right.wellFormed))

/-- A term of one of the constructors. -/
theorem RunsAlike.construct (c c' : Constructor) (h : env.Beside env')
    (hmakes : Build.MakesAlike c.build c'.build env.terms env'.terms) :
    RunsAlike TermsAlike (Environment.build c.build) (Environment.build c'.build) env env' :=
  .build h c.grows c'.grows hmakes

/-- Terms that are alike have the type of their tree. -/
theorem RunsAlike.typeOf_bind {k : FormulaType → Effect Environment γ}
    {k' : FormulaType → Effect Environment δ} (h : env.Beside env') (ht : TermsAlike env env' t t')
    (hk : ∀ x, env.terms.tree? t = some x → env'.terms.tree? t' = some x →
      RunsAlike S (k x.sort.type) (k' x.sort.type) env env') :
    RunsAlike S (.ask (·.typeOf t) >>= k) (.ask (·.typeOf t') >>= k') env env' := by
  have htype := ht.typeOf_eq h
  obtain ⟨x, hx, hx'⟩ := ht
  rw [Shows.typeOf hx h.left.proper] at htype
  refine .ask_bind (P := fun k k' => k = x.sort.type ∧ k' = x.sort.type) ?_ ?_
  · rw [Shows.typeOf hx h.left.proper, htype]
    exact .ok ⟨rfl, rfl⟩
  · rintro _ _ ⟨rfl, rfl⟩
    exact hk x hx hx'

theorem RunsAlike.wrap (type : FormulaType) (h : env.Beside env') (ht : TermsAlike env env' t t') :
    RunsAlike FormulasAlike (Environment.wrap type t) (Environment.wrap type t') env env' := by
  refine .typeOf_bind h ht fun x hx hx' => ?_
  split
  · next haccepts =>
    exact .of_exec rfl rfl (continues_handles _) (continues_handles _)
      ⟨rfl, rfl, rfl, x, hx, hx', haccepts⟩
  · exact .throw_bind _

theorem RunsAlike.wrapBool (h : env.Beside env') (ht : TermsAlike env env' t t') :
    RunsAlike BoolsAlike (Environment.wrapBool t) (Environment.wrapBool t') env env' := by
  refine .typeOf_bind h ht fun x hx hx' => ?_
  split
  · next hbool =>
    refine .of_exec rfl rfl (continues_handles _) (continues_handles _)
      ⟨rfl, rfl, rfl, x, hx, hx', ?_⟩
    rw [hbool]
    rfl
  · exact .throw_bind _

/-- A new term, as a formula. -/
theorem RunsAlike.construct_wrap (c c' : Constructor) (type : FormulaType) (h : env.Beside env')
    (hmakes : Build.MakesAlike c.build c'.build env.terms env'.terms) :
    RunsAlike FormulasAlike (do Environment.wrap type (← Environment.build c.build))
      (do Environment.wrap type (← Environment.build c'.build)) env env' :=
  .bind h (.construct c c' h hmakes) fun _ _ _ _ _ _ h₁ ht => .wrap type h₁ ht

theorem RunsAlike.construct_wrapBool (c c' : Constructor) (h : env.Beside env')
    (hmakes : Build.MakesAlike c.build c'.build env.terms env'.terms) :
    RunsAlike BoolsAlike (do Environment.wrapBool (← Environment.build c.build))
      (do Environment.wrapBool (← Environment.build c'.build)) env env' :=
  .bind h (.construct c c' h hmakes) fun _ _ _ _ _ _ h₁ ht => .wrapBool h₁ ht

end Environment
end FormulaStack
