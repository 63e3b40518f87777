import FormulaStack.Proofs.Walks

/-!
Negations of negations. The constructors of boolean formulas and the maps that put formulas for
atoms add none: only two of them add a negation at all, and never over another one. Where there is
none, to negate twice is to do nothing.
-/
namespace FormulaStack

namespace Store

variable {s u v : Store} {t : Term} {n : Node}

/-- No negation is directly over a negation. -/
def Reduced (s : Store) : Prop :=
  ∀ t n, s.node? t = some n → n.op = .not →
    ∀ a ∈ n.args, ∀ m, s.node? a = some m → m.op ≠ .not

/-- Negations that are there were there before. -/
def Affirms (s u : Store) : Prop :=
  ∀ t n, u.node? t = some n → n.op = .not → s.node? t = some n

theorem Affirms.trans (h : s.Affirms u) (g : u.Affirms v) : s.Affirms v :=
  fun t n hn hop => h t n (g t n hn hop) hop

theorem affirms_intern (s : Store) {n : Node} (hop : n.op ≠ .not) : s.Affirms (s.intern n).2 := by
  intro t m hm hnot
  obtain hold | ⟨-, rfl, -⟩ := node?_of_intern hm
  · exact hold
  · exact absurd hnot hop

/-- The arguments of a node are there. -/
theorem WellFormed.exists_arg (hs : s.WellFormed) (hn : s.node? t = some n) {a : Term}
    (ha : a ∈ n.args) : ∃ m, s.node? a = some m := by
  obtain ⟨ks, hks, -⟩ := hs.fits hn
  exact hks.node? a ha

theorem Reduced.affirm (h : s.Reduced) (hs : s.WellFormed) (hg : s.Grows u) (ha : s.Affirms u) :
    u.Reduced := by
  intro t n hn hop a harg m hm
  have hold := ha t n hn hop
  obtain ⟨m', hm'⟩ := hs.exists_arg hold harg
  rw [hg.extension.node? a m' hm'] at hm
  cases hm
  exact h t n hold hop a harg _ hm'

/-- A negation may be added over what is none. -/
theorem Reduced.intern_not (h : s.Reduced) (hs : s.WellFormed) (ht : s.node? t = some n)
    (hop : n.op ≠ .not) : (s.intern ⟨.not, [t], .bool⟩).2.Reduced := by
  have hext := s.intern_extends ⟨.not, [t], .bool⟩
  intro u m hm hnot a harg l hl
  obtain hold | ⟨-, rfl, -⟩ := node?_of_intern hm
  · obtain ⟨l', hl'⟩ := hs.exists_arg hold harg
    rw [hext.node? a l' hl'] at hl
    cases hl
    exact h u m hold hnot a harg _ hl'
  · rw [List.mem_singleton.1 harg, hext.node? t n ht] at hl
    cases hl
    exact hop

end Store

namespace Build

variable {α β : Type} {b : Build α}

/-- Where it succeeds, no negation is added. -/
def Affirms (b : Build α) : Prop := ∀ s a u, b s = .ok (a, u) → s.Affirms u

theorem ReadOnly.affirms (h : ReadOnly b) : Affirms b := by
  intro s a u hx
  rw [show u = s from h s _ hx]
  exact fun _ _ hn _ => hn

namespace Affirms

theorem bind {f : α → Build β} (hb : Affirms b) (hf : ∀ a, Affirms (f a)) : Affirms (b >>= f) := by
  intro s c v h
  obtain ⟨a, u, ha, hc⟩ := bind_eq_ok.1 h
  exact (hb s a u ha).trans (hf a u c v hc)

theorem intern {n : Node} (hop : n.op ≠ .not) : Affirms (intern n) := by
  intro s t u h
  rw [show u = _ from congrArg Prod.snd (intern_eq_ok.1 h)]
  exact s.affirms_intern hop

theorem truth (value : Bool) : Affirms (truth value) := by
  cases value <;> exact intern nofun

theorem connective {op : Operator} (hop : op ≠ .not) (ts : List Term) :
    Affirms (connective op ts) :=
  bind (ReadOnly.affirms fun _ _ h => (forM_expect_eq_ok.1 h).2) fun _ => intern hop

theorem junction (j : Junction) (ts : List Term) : Affirms (j.build ts) := by
  match j, ts with
  | .and, [] => exact truth true
  | .or, [] => exact truth false
  | .and, [t] | .or, [t] => exact (ReadOnly.pure t).affirms
  | .and, _ :: _ :: _ => exact connective (show Operator.and ≠ .not from nofun) _
  | .or, _ :: _ :: _ => exact connective (show Operator.or ≠ .not from nofun) _

theorem iff (a b : Term) : Affirms (iff a b) :=
  connective (show Operator.iff ≠ .not from nofun) [a, b]

theorem implies (a b : Term) : Affirms (implies a b) :=
  connective (show Operator.implies ≠ .not from nofun) [a, b]

theorem ite (c a b : Term) : Affirms (ite c a b) :=
  bind (ReadOnly.affirms fun _ _ h => (expect_eq_ok.1 h).2) fun _ =>
    bind (ReadOnly.affirms fun _ _ h => (commonSort_eq_ok.1 h).2.2) fun _ => intern nofun

theorem constant (name : String) (sort : TermSort) : Affirms (constant name sort) := by
  refine bind (fun s d u h => ?_) fun d s t u h => ?_
  · rw [show u = _ from congrArg Prod.snd (internDecl_eq_ok.1 h)]
    intro t n hn _
    rw [← hn]
    unfold Store.node? Store.internDecl
    split <;> rfl
  · obtain ⟨f, -, -, hu⟩ := apply_eq_ok h
    rw [show u = _ from congrArg Prod.snd hu]
    exact s.affirms_intern nofun

end Affirms

/-- A node that is no negation is none over other children. -/
theorem affirms_replaceChildren {s u : Store} {t r : Term} {n : Node} {ts : List Term}
    (hn : s.node? t = some n) (hop : n.op ≠ .not)
    (h : replaceChildren t ts s = .ok (r, u)) : s.Affirms u := by
  obtain ⟨m, hm, -, hu⟩ := replaces_of_eq_ok h
  rw [hn] at hm
  cases hm
  rw [show u = _ from congrArg Prod.snd hu]
  exact Store.affirms_intern _ hop

end Build

namespace Effect

variable {S T α β : Type} {R : S → S → Prop} {s : S}

/-- Work from one state on, part by part. -/
theorem exec_bind_within [IsTrans S R] {e : Effect S α} {f : α → Effect S β}
    (he : R s (e.exec s).2) (hf : ∀ a t, e.exec s = (.ok a, t) → R t ((f a).exec t).2) :
    R s ((e >>= f).exec s).2 := by
  rw [exec_bind]
  rcases h : e.exec s with ⟨x | a, t⟩ <;> rw [h] at he
  · exact he
  · exact Trans.trans he (hf a t h)

theorem exec_ask_bind_within [Std.Refl R] {g : S → Except Fault α} {f : α → Effect S β}
    (hf : ∀ a, g s = .ok a → R s ((f a).exec s).2) : R s ((Effect.ask g >>= f).exec s).2 := by
  cases h : g s with
  | error x =>
    rw [exec_ask_bind_error h]
    exact Std.Refl.refl s
  | ok a =>
    rw [exec_ask_bind_ok h]
    exact hf a h

end Effect

namespace Environment

variable {α τ : Type} {env env' : Environment} {t : Term} {n : Node}

/-- An environment in which no negation is directly over a negation. -/
structure Reduced (env : Environment) : Prop where
  proper : env.Proper
  terms : env.terms.Reduced

/-- An environment that was reduced still is, and has all that it had. -/
def StaysReduced (env env' : Environment) : Prop :=
  env.Reduced → env.Advances env' ∧ env'.Reduced

instance : Std.Refl StaysReduced := ⟨fun env h => ⟨.refl env, h⟩⟩

instance : IsTrans _ StaysReduced := ⟨fun _ _ _ h g henv =>
  have ⟨ha, hreduced⟩ := h henv
  have ⟨ha', hreduced'⟩ := g hreduced
  ⟨ha.trans ha', hreduced'⟩⟩

theorem staysReduced_handles (env : Environment) (handles : Handles) :
    env.StaysReduced { env with handles } :=
  fun h => ⟨(Advances.refl env).handles handles, ⟨h.proper.wellFormed, h.proper.candid⟩, h.terms⟩

theorem staysReduced_retain (f : Formula) (env : Environment) :
    env.StaysReduced (env.retain f) := by
  unfold retain
  split
  · exact staysReduced_handles env _
  · exact Std.Refl.refl env

theorem staysReduced_discard (f : Formula) (env : Environment) :
    env.StaysReduced (env.discard f) := by
  unfold discard
  split
  · exact staysReduced_handles env _
  · exact Std.Refl.refl env

theorem staysReduced_discardAll (fs : List Formula) (env : Environment) :
    env.StaysReduced (discardAll fs env) := by
  induction fs generalizing env with
  | nil => exact Std.Refl.refl env
  | cons f fs ih => exact Trans.trans (staysReduced_discard f env) (ih _)

theorem wrapBool_staysReduced (t : Term) : Effect.Within StaysReduced (wrapBool t) := by
  have hregister : Effect.Within StaysReduced (.of fun env : Environment =>
      ((.ok ⟨⟨t, .boolean, env.id, (env.handles.register t).1⟩, rfl⟩ : Except Fault BoolFormula),
        { env with handles := (env.handles.register t).2 })) :=
    fun env => staysReduced_handles env _
  refine .bind (.ask _) fun actual => ?_
  split
  · exact hregister
  · exact .bind (.throw _) fun _ => hregister

theorem wrap_staysReduced (type : FormulaType) (t : Term) :
    Effect.Within StaysReduced (wrap type t) := by
  have hregister : Effect.Within StaysReduced (.of fun env : Environment =>
      ((.ok ⟨t, type, env.id, (env.handles.register t).1⟩ : Except Fault Formula),
        { env with handles := (env.handles.register t).2 })) :=
    fun env => staysReduced_handles env _
  refine .bind (.ask _) fun actual => ?_
  split
  · exact hregister
  · exact .bind (.throw _) fun _ => hregister

theorem staysReduced_terms {terms : Store} (hg : env.terms.Grows terms)
    (h : env.terms.WellFormed → env.terms.Reduced → terms.Reduced) :
    env.StaysReduced { env with terms } :=
  fun henv => ⟨⟨rfl, rfl, hg⟩, ⟨hg.wellFormed henv.proper.wellFormed, henv.proper.candid⟩,
    h henv.proper.wellFormed henv.terms⟩

/-- Work on terms that adds no negation. -/
theorem build_staysReduced {b : Build α} (hg : b.Grows) (ha : b.Affirms) :
    Effect.Within StaysReduced (build b) := by
  intro env
  rw [exec_build]
  cases h : b env.terms with
  | error x => exact Std.Refl.refl env
  | ok r =>
    have hgrows := hg _ r.1 r.2 h
    exact staysReduced_terms hgrows fun hs hr => hr.affirm hs hgrows (ha _ r.1 r.2 h)

/-- The negation of what is none. -/
theorem negation_staysReduced (h : ∀ n, env.terms.node? t = some n → n.op ≠ .not) :
    env.StaysReduced ((build (Build.not t)).exec env).2 := by
  rw [exec_build]
  cases hx : Build.not t env.terms with
  | error x => exact Std.Refl.refl env
  | ok r =>
    obtain ⟨_, u, hts, hr⟩ := Build.bind_eq_ok.1 hx
    obtain ⟨hsort, rfl⟩ := Build.forM_expect_eq_ok.1 hts
    obtain ⟨n, hn, -⟩ := Option.map_eq_some_iff.1 (hsort t (List.mem_singleton_self t))
    refine staysReduced_terms (Build.Grows.not t _ r.1 r.2 hx) fun hs hreduced => ?_
    rw [show r.2 = _ from congrArg Prod.snd (Build.intern_eq_ok.1 hr)]
    exact hreduced.intern_not hs hn (h n hn)

theorem kind_of_not (henv : env.Proper) (hn : env.terms.node? t = some n) (hop : n.op = .not) :
    env.kind t = .ok .not := by
  simp [Environment.kind, henv.candid, Store.node, hn, Except.map, Node.kind, hop]

theorem node_of_kind {k : TermKind} (henv : env.Proper) (h : env.kind t = .ok k) :
    ∃ n, env.terms.node? t = some n ∧ n.kind = k := by
  unfold Environment.kind Store.node at h
  rw [henv.candid] at h
  cases hn : env.terms.node? t with
  | none =>
    rw [hn] at h
    cases h
  | some n =>
    rw [hn] at h
    exact ⟨n, rfl, Except.ok.inj h⟩

end Environment

open Environment

namespace Boolean

variable {env : Environment}

theorem not_staysReduced (f : BoolFormula) : Effect.Within StaysReduced (Boolean.not f) := by
  intro env
  refine Effect.exec_ask_bind_within fun t _ => Effect.exec_ask_bind_within fun k hk =>
    Effect.exec_ask_bind_within fun ts hts => ?_
  split
  · exact wrapBool_staysReduced _ env
  · next hno =>
    intro henv
    -- The kind and the children say what the node is, as nothing else is reported.
    have hplain : ∀ n, env.terms.node? t = some n → n.op ≠ .not := by
      intro n hn hop
      rw [kind_of_not henv.proper hn hop] at hk
      obtain ⟨ks, hks, hfit⟩ := henv.proper.wellFormed.fits hn
      rw [hop] at hfit
      obtain ⟨rfl, -⟩ := hfit
      obtain ⟨a, as, -, -, hargs⟩ := List.forall₂_cons_right_iff.1 hks
      have hchildren : env.children t = .ok n.args := by
        simp [Environment.children, Store.node, hn, Except.map]
      rw [hchildren, hargs] at hts
      exact hno a as (Except.ok.inj hk).symm (Except.ok.inj hts).symm
    exact Effect.exec_bind_within (negation_staysReduced hplain)
      (fun a u _ => wrapBool_staysReduced a u) henv

theorem constant_staysReduced (value : Bool) : Effect.Within StaysReduced (constant value) :=
  (build_staysReduced (.truth value) (.truth value)).bind fun t => wrapBool_staysReduced t

theorem copy_staysReduced (f : BoolFormula) : Effect.Within StaysReduced f.copy :=
  .bind (.update fun env => staysReduced_retain f.formula env) fun _ => .pure f

theorem buildJunction_staysReduced (j : Junction) (ts : List Term) :
    Effect.Within StaysReduced (build (j.build ts)) := by
  refine build_staysReduced ?_ (.junction j ts)
  cases j
  · exact .and ts
  · exact .or ts

theorem factored?_staysReduced (j : Junction) (t u : Term) :
    Effect.Within StaysReduced (factored? j t u) := by
  refine .bind (.ask _) fun left => .bind (.ask _) fun right => ?_
  split
  · next inner inner' _ _ =>
    split
    · exact .pure none
    · refine .bind (.ask _) fun ts => .bind (.ask _) fun us => ?_
      split
      · split
        · exact .bind (buildJunction_staysReduced j _) fun rest =>
            .bind (buildJunction_staysReduced inner _) fun v => .pure (some v)
        · exact .pure none
      · exact .pure none
  · exact .pure none

theorem binary_staysReduced (j : Junction) (t u : Term) :
    Effect.Within StaysReduced (binary j t u) := by
  refine .bind (factored?_staysReduced j t u) fun v => ?_
  split
  · exact wrapBool_staysReduced _
  · exact (buildJunction_staysReduced j [t, u]).bind fun v => wrapBool_staysReduced v

theorem junction_staysReduced (j : Junction) (f g : BoolFormula) :
    Effect.Within StaysReduced (junction j f g) := by
  refine .bind (.ask _) fun t => .bind (.ask _) fun u => ?_
  split
  · exact copy_staysReduced f
  · refine .bind (.ask _) fun k => ?_
    split
    · exact copy_staysReduced f
    · refine .bind (.ask _) fun k => ?_
      split
      · exact copy_staysReduced g
      · exact binary_staysReduced j t u

theorem gather_staysReduced (j : Junction) (seen : List Term) (fs : List BoolFormula) :
    Effect.Within StaysReduced (gather j seen fs) := by
  induction fs generalizing seen with
  | nil => exact .pure _
  | cons f fs ih =>
    refine .bind (.ask _) fun t => .bind (.ask _) fun k => ?_
    split
    · exact .pure _
    · split
      · exact ih seen
      · exact ih (t :: seen)

theorem nary_staysReduced (j : Junction) (fs : List BoolFormula) :
    Effect.Within StaysReduced (nary j fs) := by
  refine .bind (gather_staysReduced j [] fs) fun gathered => ?_
  split
  · exact copy_staysReduced _
  · exact constant_staysReduced _
  · exact wrapBool_staysReduced _
  · exact binary_staysReduced j _ _
  · exact (buildJunction_staysReduced j _).bind fun t => wrapBool_staysReduced t

theorem iff_staysReduced (f g : BoolFormula) : Effect.Within StaysReduced (iff f g) :=
  .bind (.ask _) fun t => .bind (.ask _) fun u =>
    .bind (build_staysReduced (.iff t u) (.iff t u)) fun v =>
      wrapBool_staysReduced v

theorem implies_staysReduced (f g : BoolFormula) : Effect.Within StaysReduced (implies f g) :=
  .bind (.ask _) fun t => .bind (.ask _) fun u =>
    .bind (build_staysReduced (.implies t u) (.implies t u)) fun v =>
      wrapBool_staysReduced v

/-- What is negated here is an equivalence. -/
theorem xor_staysReduced (f g : BoolFormula) : Effect.Within StaysReduced (xor f g) := by
  intro env
  refine Effect.exec_ask_bind_within fun t _ => Effect.exec_ask_bind_within fun u _ =>
    Effect.exec_bind_within
      (build_staysReduced (.iff t u) (.iff t u) env) fun same env' hsame =>
      Effect.exec_bind_within (negation_staysReduced fun n hn => ?_) fun v env'' _ =>
        wrapBool_staysReduced v env''
  rw [exec_build] at hsame
  cases h : Build.iff t u env.terms with
  | error x =>
    rw [h] at hsame
    cases hsame
  | ok r =>
    rw [h] at hsame
    cases hsame
    obtain ⟨_, s, -, hr⟩ := Build.bind_eq_ok.1 h
    rw [Build.intern_eq_ok.1 hr, Store.node?_intern] at hn
    cases hn
    exact nofun

theorem choice_staysReduced (c : BoolFormula) (f g : Formula) :
    Effect.Within StaysReduced (choice c f g) := by
  have hrest : Effect.Within StaysReduced (do
      let t ← c.unwrap
      let u ← .ask (·.unwrap f)
      let v ← .ask (·.unwrap g)
      build (Build.ite t u v) : Effect Environment Term) :=
    .bind (.ask _) fun t => .bind (.ask _) fun u => .bind (.ask _) fun v =>
      build_staysReduced (.ite t u v) (.ite t u v)
  unfold choice
  split
  · exact .bind (.throw _) fun _ => hrest
  · exact hrest

theorem ite_staysReduced (c : BoolFormula) (f g : Formula) :
    Effect.Within StaysReduced (ite c f g) :=
  (choice_staysReduced c f g).bind fun t => wrap_staysReduced f.type t

theorem iteBool_staysReduced (c f g : BoolFormula) :
    Effect.Within StaysReduced (iteBool c f g) :=
  (choice_staysReduced c f.formula g.formula).bind fun t => wrapBool_staysReduced t

end Boolean

theorem Combination.make_staysReduced (c : Combination BoolFormula) :
    Effect.Within StaysReduced c.make := by
  cases c with
  | not f => exact Boolean.not_staysReduced f
  | junction j f g => exact Boolean.junction_staysReduced j f g
  | nary j fs => exact Boolean.nary_staysReduced j fs
  | xor f g => exact Boolean.xor_staysReduced f g
  | iff f g => exact Boolean.iff_staysReduced f g
  | implies f g => exact Boolean.implies_staysReduced f g
  | ite c f g => exact Boolean.iteBool_staysReduced c f g

/-- A quantifier over a new body. -/
theorem BoolFormula.rebuildQuantifier_staysReduced {env : Environment} {f : BoolFormula} {n : Node}
    (hn : env.terms.node? f.term = some n) (hop : n.op ≠ .not) (body : BoolFormula) :
    env.StaysReduced ((f.rebuildQuantifier body).exec env).2 := by
  refine Effect.exec_ask_bind_within fun t ht => Effect.exec_ask_bind_within fun b _ =>
    Effect.exec_bind_within ?_ fun v env' _ => wrapBool_staysReduced v env'
  rw [exec_build, ← (unwrap_eq_ok.1 ht).2]
  cases h : Build.replaceChildren f.formula.term [b] env.terms with
  | error x => exact Std.Refl.refl env
  | ok r =>
    have hgrows := Build.Grows.replaceChildren _ [b] _ r.1 r.2 h
    exact staysReduced_terms hgrows fun hs hr =>
      hr.affirm hs hgrows (Build.affirms_replaceChildren hn hop h)

namespace BoolView

/-- What a view shows as a quantifier is no negation. -/
def Rebuildable (env : Environment) : BoolView → Prop
  | .quantifier whole _ _ => ∃ n, env.terms.node? whole.term = some n ∧ n.op ≠ .not
  | _ => True

theorem Rebuildable.advance {env env' : Environment} {v : BoolView} (h : v.Rebuildable env)
    (ha : env.Advances env') : v.Rebuildable env' := by
  cases v with
  | quantifier whole q body =>
    obtain ⟨n, hn, hop⟩ := h
    exact ⟨n, ha.terms.extension.node? _ n hn, hop⟩
  | _ => trivial

end BoolView

theorem BoolFormula.view_staysReduced (f : BoolFormula) : Effect.Within StaysReduced f.view :=
  view_within wrapBool_staysReduced staysReduced_discard f

/-- A view shows a quantifier only of a term that is one. -/
theorem BoolFormula.ensures_view_rebuildable {env : Environment} (henv : env.Proper)
    (f : BoolFormula) : f.view.Ensures env fun v env' => v.Rebuildable env' := by
  refine .ask_bind fun t ht => .ask_bind fun k hk => ?_
  have hfails : ∀ (k : TermKind) (t : Term) (fs : List BoolFormula) (env : Environment),
      (malformed k t fs : Effect Environment BoolView).Ensures env fun v env' =>
        v.Rebuildable env' :=
    fun _ _ _ _ => .later fun _ _ => .later fun _ _ => .throw _
  have hunsupported : ∀ (k : TermKind) (env : Environment),
      (unsupported k t : Effect Environment BoolView).Ensures env fun v env' =>
        v.Rebuildable env' := by
    intro k env
    refine .later fun name env' => ?_
    cases name <;> exact .throw _
  cases k
  case quantifier q =>
    rw [← (unwrap_eq_ok.1 ht).2] at hk
    obtain ⟨n, hn, hkind⟩ := node_of_kind henv hk
    have hop : n.op ≠ .not := fun hop => by simp [Node.kind, hop] at hkind
    have hoperands := operandsOf_works t
    refine .bind (hoperands.ensures env) fun fs env' hworks => ?_
    split
    · exact .pure ⟨n, hworks.terms.extension.node? _ n hn, hop⟩
    · exact hfails _ t fs env'
  case xor | unknown => exact hunsupported _ env
  case and | or => exact .later fun fs env' => .pure trivial
  case not | iff | implies | ite =>
    refine .later fun fs env' => ?_
    split
    · exact .pure trivial
    · exact hfails _ t fs env'
  case eq =>
    refine .later fun ts env' => ?_
    cases ts with
    | nil => exact hfails _ t [] env'
    | cons first rest =>
      refine .later fun type env' => ?_
      split
      · exact .pure trivial
      · split
        · refine .later fun fs env' => ?_
          split
          · exact .pure trivial
          · exact hfails _ t fs env'
        · exact hunsupported _ env'
  case distinct =>
    refine .later fun ts env' => ?_
    cases ts with
    | nil => exact hfails _ t [] env'
    | cons first rest =>
      refine .later fun type env' => ?_
      split
      · exact .pure trivial
      · exact hunsupported _ env'
  all_goals exact .pure trivial

namespace FormulaMap

variable {τ : Type} {hook : BoolFormula → Visit τ BoolFormula}

/-- Of the environment, handles at most have changed. -/
def Undisturbed (p q : Environment × τ) : Prop := q.1 = { p.1 with handles := q.1.handles }

instance : Std.Refl (Undisturbed (τ := τ)) := ⟨fun _ => rfl⟩

instance : IsTrans _ (Undisturbed (τ := τ)) :=
  ⟨fun p q r h g => by rw [Undisturbed, g, h]⟩

/-- A hook that makes no terms: what it returns was there before, or it refuses. -/
def Leaves (hook : BoolFormula → Visit τ BoolFormula) : Prop :=
  ∀ f, Effect.Within Undisturbed (hook f)

/-- The environment of a map at work stays reduced. -/
def StaysReduced (st st' : (Environment × τ) × Images) : Prop := st.1.1.StaysReduced st'.1.1

instance : Std.Refl (StaysReduced (τ := τ)) := ⟨fun st => Std.Refl.refl st.1.1⟩

instance : IsTrans _ (StaysReduced (τ := τ)) :=
  ⟨fun st st' st'' h g => IsTrans.trans st.1.1 st'.1.1 st''.1.1 h g⟩

theorem inEnvironment_staysReduced {α : Type} {e : Effect Environment α}
    (he : Effect.Within Environment.StaysReduced e) :
    Effect.Within (StaysReduced (τ := τ)) (Imaging.inVisit (Visit.inEnvironment e)) :=
  fun st => he st.1.1

/-- What is made of a view, from images of its operands. -/
theorem answer_staysReduced (hhook : Leaves hook) {v : BoolView} {st : (Environment × τ) × Images}
    (hv : v.Rebuildable st.1.1) (gs : List BoolFormula) :
    StaysReduced st ((Imaging.inVisit ((onAtoms hook).answer v gs)).exec st).2 := by
  have hdo : ∀ e : Effect Environment BoolFormula, Effect.Within Environment.StaysReduced e →
      StaysReduced st ((Imaging.inVisit (Visit.inEnvironment e : Visit τ BoolFormula)).exec st).2 :=
    fun _ he => inEnvironment_staysReduced he st
  unfold answer
  split
  · exact hdo (Boolean.constant true) (Boolean.constant_staysReduced true)
  · exact hdo (Boolean.constant false) (Boolean.constant_staysReduced false)
  · next f =>
    have hleft := hhook f st.1
    change Environment.StaysReduced st.1.1 ((hook f).exec st.1).2.1
    rw [hleft]
    exact staysReduced_handles _ _
  · next g => exact hdo (Boolean.not g) (Boolean.not_staysReduced g)
  · exact hdo (Boolean.andAll gs) (Boolean.nary_staysReduced .and gs)
  · exact hdo (Boolean.orAll gs) (Boolean.nary_staysReduced .or gs)
  · next g h => exact hdo (Boolean.iff g h) (Boolean.iff_staysReduced g h)
  · next g h => exact hdo (Boolean.implies g h) (Boolean.implies_staysReduced g h)
  · next c g h => exact hdo (Boolean.iteBool c g h) (Boolean.iteBool_staysReduced c g h)
  · next whole _ _ body =>
    obtain ⟨n, hn, hop⟩ := hv
    exact BoolFormula.rebuildQuantifier_staysReduced hn hop body
  · exact Std.Refl.refl st

theorem discarding_staysReduced {α : Type} {body : Imaging τ α} {st : (Environment × τ) × Images}
    (h : StaysReduced st (body.exec st).2) (fs : List BoolFormula) :
    StaysReduced st ((Imaging.discarding fs body).exec st).2 := by
  have hdiscard := staysReduced_discardAll (fs.map (·.formula)) (body.exec st).2.1.1
  exact fun hst => IsTrans.trans _ _ _ h hdiscard hst

/-- The images of operands are made first; what held of the environment by its terms still holds
when the rest is done. -/
theorem withImages_staysReduced {α : Type} {image : BoolFormula → Imaging τ BoolFormula}
    (himage : ∀ f, Effect.Within StaysReduced (image f)) {P : Environment → Prop}
    (hP : ∀ env env', P env → env.Advances env' → P env') (fs : List BoolFormula)
    {body : List BoolFormula → Imaging τ α}
    (hbody : ∀ gs st, P st.1.1 → StaysReduced st ((body gs).exec st).2)
    {st : (Environment × τ) × Images} (hst : P st.1.1) :
    StaysReduced st ((withImages image fs body).exec st).2 := by
  induction fs generalizing body st with
  | nil => exact hbody [] st hst
  | cons f fs ih =>
    intro hreduced
    have hf := himage f st
    refine Effect.exec_bind_within (R := StaysReduced) hf (fun g st' hx => ?_) hreduced
    have hst' : P st'.1.1 := by
      rw [hx] at hf
      exact hP _ _ hst (hf hreduced).1
    exact discarding_staysReduced (ih (fun gs => hbody (g :: gs)) hst') [g]

/-- However deep a formula is, its image adds no negation of a negation. -/
theorem imageWith_staysReduced (hhook : Leaves hook) (fuel : Nat) (f : BoolFormula) :
    Effect.Within StaysReduced ((onAtoms hook).imageWith fuel f) := by
  induction fuel generalizing f with
  | zero => exact inEnvironment_staysReduced (Boolean.copy_staysReduced f)
  | succ fuel ih =>
    refine .bind (.look _) fun images => ?_
    cases images.of? f with
    | some g => exact inEnvironment_staysReduced (Boolean.copy_staysReduced g)
    | none =>
      intro st hst
      refine Effect.exec_bind_within (R := StaysReduced)
        (inEnvironment_staysReduced f.view_staysReduced st) (fun v st' hv => ?_) hst
      have hvalid : v.Rebuildable st'.1.1 := by
        rw [Imaging.inVisit, Visit.inEnvironment, Effect.exec_on, Effect.exec_on,
          Prod.mk.injEq] at hv
        rw [← hv.2]
        exact f.ensures_view_rebuildable hst.proper v _ (Prod.ext hv.1 rfl)
      refine Effect.exec_bind_within (R := StaysReduced) (discarding_staysReduced ?_ v.operands)
        fun out st'' _ => ?_
      · rw [imageOfView_eq]
        exact withImages_staysReduced ih (P := fun env => v.Rebuildable env)
          (fun _ _ hv ha => BoolView.Rebuildable.advance hv ha) v.operands
          (fun gs st hv => answer_staysReduced hhook hv gs) hvalid
      · have hretain := staysReduced_retain f.formula st''.1.1
        exact fun h => IsTrans.trans _ _ _ hretain (staysReduced_retain out.formula _) h

theorem apply_staysReduced (hhook : Leaves hook) (s : τ) (f : BoolFormula) :
    Effect.Within Environment.StaysReduced ((onAtoms hook).apply s f) := by
  intro env henv
  obtain ⟨ha, hreduced⟩ := imageWith_staysReduced hhook (f.term.index + 1) f ((env, s), []) henv
  obtain ⟨ha', hreduced'⟩ := staysReduced_discardAll _ _ hreduced
  exact ⟨ha.trans ha', hreduced'⟩

end FormulaMap
end FormulaStack
