import FormulaStack.Proofs.Managers
import FormulaStack.Proofs.Settlements

/-!
Independence of the past. Whatever was done before in two environments of one backend, an expression
is refused in both for one reason, or built in both with one declared type and one tree.
-/
namespace FormulaStack

namespace Environment

variable {env env' : Environment}

/-- A request for a constant gives the constant of the name and the sort, new or old. -/
theorem requestVariable_gives (h : env.Orderly) (type : FormulaType) (name : String) :
    match env.sortOf type with
    | .error f => (requestVariable type name).exec env = (.error f, env)
    | .ok k => ∃ t new env₁, (requestVariable type name).exec env = (.ok (t, new), env₁) ∧
      env₁.terms.tree? t = some (Signature.constant ⟨name, [], k⟩) := by
  rw [exec_requestVariable]
  cases hl : env.constants.lookup (name, type) with
  | some t =>
    obtain ⟨d, k, hk, hn, hd⟩ := h.registered.constant name type t (mem_of_lookup hl)
    rw [hk]
    exact ⟨t, none, env, rfl, h.wellFormed.tree?_constant hn hd⟩
  | none =>
    cases env.sortOf type with
    | error f => rfl
    | ok k =>
      obtain ⟨t, terms, ht, htree⟩ := Build.constant_makes name k env.terms
      have hwell := (Build.Grows.constant name k _ _ _ ht).wellFormed h.wellFormed
      dsimp only
      rw [ht]
      exact ⟨t, _, _, rfl, htree hwell⟩

/-- The signature that a request for a function asks for. -/
def signatureOf (env : Environment) (name : String) (arguments : List FormulaType)
    (result : FormulaType) : Except Fault Signature := do
  if arguments.isEmpty then throw (.badArgument (.noParameters name))
  let domain ← arguments.mapM env.sortOf
  let range ← env.sortOf result
  return ⟨name, domain, range⟩

theorem requestFunction_gives (h : env.Orderly) (name : String) (arguments : List FormulaType)
    (result : FormulaType) :
    match env.signatureOf name arguments result with
    | .error f => (requestFunction name arguments result).exec env = (.error f, env)
    | .ok signature => ∃ d new env₁, (requestFunction name arguments result).exec env =
        (.ok (⟨name, arguments, result, d, env.id⟩, new), env₁) ∧
          env₁.terms.decl? d = some signature := by
  rw [exec_requestFunction]
  unfold signatureOf
  cases arguments with
  | nil => rfl
  | cons argument arguments =>
    rw [if_neg (List.cons_ne_nil _ _), if_neg (by simp)]
    cases hl : env.functions.lookup (name, argument :: arguments, result) with
    | some d =>
      obtain ⟨ks, k, hks, hk, hd⟩ :=
        h.registered.function name _ result d (mem_of_lookup hl)
      rw [mapM_eq_ok.2 hks, hk]
      exact ⟨d, none, env, rfl, hd⟩
    | none =>
      cases (argument :: arguments).mapM env.sortOf with
      | error f => rfl
      | ok ks =>
        cases env.sortOf result with
        | error f => rfl
        | ok k => exact ⟨_, _, _, rfl, Store.decl?_internDecl _ _⟩

/-- A request changes nothing, or makes a symbol that stands for a declaration. -/
theorem Requested.continues {α : Type} {outcome : Except Fault (α × Option Symbol) × Environment}
    (h : env.Requested outcome) (he : env.Evolves outcome.2) : env.Continues outcome.2 := by
  refine ⟨he, ?_⟩
  obtain ⟨henv, -⟩ | ⟨_, _, _, -, hd⟩ := h
  · rw [henv]
  · exact hd.observers

end Environment

namespace World

open Environment

variable {w w' : World FoldingSolver} {i j id : Nat} {c c' : Context} {symbol : Symbol}
  {d : FuncDecl}

/-- A world in which a context is orderly and observed by stacks of its own only. -/
structure Ready (w : World FoldingSolver) (i : Nat) (c : Context) : Prop where
  context : w.contexts[i]? = some c
  orderly : c.env.Orderly
  observers : ∀ o ∈ c.env.observers, ∃ id, o = .stack id ∧ ∀ s, w.stack? id = some s → s.home = i

/-- Stacks have learnt, and nothing else has happened. -/
structure Learns (w w' : World FoldingSolver) : Prop where
  contexts : ∀ i : Nat, w'.contexts[i]? = w.contexts[i]?
  stack : ∀ id s', w'.stack? id = some s' → ∃ s, w.stack? id = some s ∧ s'.home = s.home

theorem Learns.ready (h : w.Learns w') (hw : w.Ready i c) : w'.Ready i c := by
  refine ⟨(h.contexts i).trans hw.context, hw.orderly, fun o ho => ?_⟩
  obtain ⟨id, rfl, hall⟩ := hw.observers o ho
  refine ⟨id, rfl, fun s' hs' => ?_⟩
  obtain ⟨s, hs, hhome⟩ := h.stack id s' hs'
  exact hhome.trans (hall s hs)

/-- A stack of the context of a new symbol learns it. -/
theorem tell_learns (hw : w.contexts[i]? = some c) (hd : c.env.terms.declOf symbol = .ok d)
    (hhome : ∀ s, w.stack? id = some s → s.home = i) :
    ∃ w', (tell symbol (.stack id)).exec w = (.ok (), w') ∧ w.Learns w' := by
  unfold tell
  rw [Effect.exec_bind_ok (Effect.exec_get _)]
  cases hs : w.stack? id with
  | none => exact ⟨w, rfl, fun _ => rfl, fun _ s' hs' => ⟨s', hs', rfl⟩⟩
  | some s =>
    have hc : w.contexts[s.home]? = some c := by rw [hhome s hs, hw]
    have hx : (atStack id (Site.symbolRequested symbol)).exec w = (.ok (), w.put id s.home
        (if s.closed then w.site c s else (w.site c s).noted [symbol] [d])) := by
      rw [exec_atStack hs hc, Site.exec_symbolRequested hd]
      rfl
    refine ⟨_, hx, fun j => ?_, fun j s' hs' => ?_⟩
    · rw [context_put hc]
      split
      · next hj =>
        rw [hj, hc]
        split <;> rfl
      · rfl
    · rw [stack?_put hs] at hs'
      split at hs'
      · next hj =>
        cases hs'
        refine ⟨s, hj ▸ hs, ?_⟩
        split <;> rfl
      · exact ⟨s', hs', rfl⟩

/-- All observers of a context learn of its new symbol. -/
theorem publish_learns (hw : w.Ready i c) (hd : c.env.terms.declOf symbol = .ok d) :
    ∃ w', (publish i symbol).exec w = (.ok (), w') ∧ w'.Ready i c := by
  have htell : ∀ (os : List Observer) (w : World FoldingSolver), w.Ready i c →
      (∀ o ∈ os, o ∈ c.env.observers) →
      ∃ w', (os.forM (tell symbol)).exec w = (.ok (), w') ∧ w'.Ready i c := by
    intro os
    induction os with
    | nil => exact fun w hw _ => ⟨w, rfl, hw⟩
    | cons o os ih =>
      intro w hw hos
      obtain ⟨id, rfl, hhome⟩ := hw.observers o (hos o List.mem_cons_self)
      obtain ⟨u, hu, hlearns⟩ := tell_learns hw.context hd hhome
      obtain ⟨v, hv, hready⟩ :=
        ih u (hlearns.ready hw) fun o ho => hos o (List.mem_cons_of_mem _ ho)
      exact ⟨v, (Effect.exec_bind_ok hu _).trans hv, hready⟩
  unfold publish
  rw [Effect.exec_bind_ok (exec_context hw.context)]
  exact htell _ w hw fun _ ho => ho

theorem Ready.environment {env : Environment} (hw : w.Ready i c) (h : c.env.Continues env) :
    (setEnvironment i env w).Ready i { c with env } := by
  refine ⟨?_, h.orderly hw.orderly, fun o ho => ?_⟩
  · rw [context_setEnvironment hw.context, if_pos rfl]
  · rw [h.observers] at ho
    exact hw.observers o ho

/-- What follows a request: a new symbol is told. -/
def announce {α : Type} (i : Nat) (r : α × Option Symbol) : Effect (World FoldingSolver) α := do
  if let some symbol := r.2 then publish i symbol
  return r.1

theorem exec_request {α : Type} {request : Effect Environment (α × Option Symbol)}
    (hw : w.Ready i c) (hrequest : c.env.Requested (request.exec c.env))
    (hevolves : c.env.Evolves (request.exec c.env).2) :
    ∃ w', (inEnvironment i request >>= announce i).exec w =
      ((request.exec c.env).1.map (·.1), w') ∧
        w'.Ready i { c with env := (request.exec c.env).2 } := by
  have hset := hw.environment (hrequest.continues hevolves)
  rw [Effect.exec_bind, exec_inEnvironment hw.context]
  generalize request.exec c.env = outcome at hrequest hset
  obtain ⟨out, env⟩ := outcome
  cases out with
  | error x => exact ⟨_, rfl, hset⟩
  | ok r =>
    obtain ⟨a, new⟩ := r
    cases new with
    | none => exact ⟨_, rfl, hset⟩
    | some symbol =>
      obtain ⟨-, hnone⟩ | ⟨_, _, d, hout, hd⟩ := hrequest
      · cases hnone _ rfl
      · cases hout
        obtain ⟨u, hu, hready⟩ := publish_learns hset hd.decl
        exact ⟨u, Effect.exec_bind_ok hu _, hready⟩

/-- Work in contexts of two worlds that fails alike, or succeeds with results that `R` relates. -/
def RunsAlike {α β : Type} (i j : Nat) (R : Environment → Environment → α → β → Prop)
    (e : Effect (World FoldingSolver) α) (e' : Effect (World FoldingSolver) β)
    (w w' : World FoldingSolver) (c c' : Context) : Prop :=
  ∃ c₁ c₁', (e.exec w).2.Ready i c₁ ∧ (e'.exec w').2.Ready j c₁' ∧
    c.env.Continues c₁.env ∧ c'.env.Continues c₁'.env ∧
      Agree (R c₁.env c₁'.env) (e.exec w).1 (e'.exec w').1

namespace RunsAlike

variable {α β γ δ : Type} {R : Environment → Environment → α → β → Prop}
  {S : Environment → Environment → γ → δ → Prop} {e : Effect (World FoldingSolver) α}
  {e' : Effect (World FoldingSolver) β} {k : α → Effect (World FoldingSolver) γ}
  {k' : β → Effect (World FoldingSolver) δ}

theorem pure {a : α} {b : β} (hw : w.Ready i c) (hw' : w'.Ready j c') (h : R c.env c'.env a b) :
    RunsAlike i j R (Pure.pure a) (Pure.pure b) w w' c c' :=
  ⟨c, c', hw, hw', Std.Refl.refl c.env, Std.Refl.refl c'.env, .ok h⟩

theorem bind (hb : c.env.Beside c'.env) (h : RunsAlike i j R e e' w w' c c')
    (hk : ∀ a b w₁ w₁' c₁ c₁', w₁.Ready i c₁ → w₁'.Ready j c₁' → c.env.Continues c₁.env →
      c'.env.Continues c₁'.env → c₁.env.Beside c₁'.env → R c₁.env c₁'.env a b →
        RunsAlike i j S (k a) (k' b) w₁ w₁' c₁ c₁') :
    RunsAlike i j S (e >>= k) (e' >>= k') w w' c c' := by
  obtain ⟨c₁, c₁', hw₁, hw₁', hl, hr, hagrees⟩ := h
  rcases hx : e.exec w with ⟨out, w₁⟩
  rcases hx' : e'.exec w' with ⟨out', w₁'⟩
  rw [hx] at hw₁ hagrees
  rw [hx'] at hw₁' hagrees
  cases hagrees with
  | error f =>
    refine ⟨c₁, c₁', ?_, ?_, hl, hr, ?_⟩
    · rwa [Effect.exec_bind_error hx]
    · rwa [Effect.exec_bind_error hx']
    · rw [Effect.exec_bind_error hx, Effect.exec_bind_error hx']
      exact .error f
  | @ok a b hab =>
    obtain ⟨c₂, c₂', hw₂, hw₂', hl₂, hr₂, hagrees₂⟩ :=
      hk a b w₁ w₁' c₁ c₁' hw₁ hw₁' hl hr (hb.evolve hl hr) hab
    refine ⟨c₂, c₂', ?_, ?_, Trans.trans hl hl₂, Trans.trans hr hr₂, ?_⟩
    · rwa [Effect.exec_bind_ok hx]
    · rwa [Effect.exec_bind_ok hx']
    · rw [Effect.exec_bind_ok hx, Effect.exec_bind_ok hx']
      exact hagrees₂

theorem inEnvironment {e : Effect Environment α} {e' : Effect Environment β} (hw : w.Ready i c)
    (hw' : w'.Ready j c') (h : Environment.RunsAlike R e e' c.env c'.env) :
    RunsAlike i j R (World.inEnvironment i e) (World.inEnvironment j e') w w' c c' := by
  refine ⟨{ c with env := _ }, { c' with env := _ }, ?_, ?_, h.left, h.right, ?_⟩
  · rw [exec_inEnvironment hw.context]
    exact hw.environment h.left
  · rw [exec_inEnvironment hw'.context]
    exact hw'.environment h.right
  · rw [exec_inEnvironment hw.context, exec_inEnvironment hw'.context]
    exact h.agrees

theorem request {request : Effect Environment (α × Option Symbol)}
    {request' : Effect Environment (β × Option Symbol)} (hw : w.Ready i c) (hw' : w'.Ready j c')
    (hrequested : c.env.Requested (request.exec c.env))
    (hrequested' : c'.env.Requested (request'.exec c'.env))
    (hevolves : Effect.Within Environment.Evolves request)
    (hevolves' : Effect.Within Environment.Evolves request')
    (h : Agree (fun r r' => R (request.exec c.env).2 (request'.exec c'.env).2 r.1 r'.1)
      (request.exec c.env).1 (request'.exec c'.env).1) :
    RunsAlike i j R (World.inEnvironment i request >>= announce i)
      (World.inEnvironment j request' >>= announce j) w w' c c' := by
  obtain ⟨w₁, hx, hw₁⟩ := exec_request hw hrequested (hevolves _)
  obtain ⟨w₁', hx', hw₁'⟩ := exec_request hw' hrequested' (hevolves' _)
  refine ⟨{ c with env := _ }, { c' with env := _ }, ?_, ?_, hrequested.continues (hevolves _),
    hrequested'.continues (hevolves' _), ?_⟩
  · rw [hx]
    exact hw₁
  · rw [hx']
    exact hw₁'
  · rw [hx, hx']
    generalize (request.exec c.env).1 = out at h
    generalize (request'.exec c'.env).1 = out' at h
    cases h with
    | error x => exact .error x
    | ok hab => exact .ok hab

variable (hw : w.Ready i c) (hw' : w'.Ready j c') (hb : c.env.Beside c'.env)
include hw hw' hb

theorem constant (type : FormulaType) (name : String) :
    RunsAlike i j FormulasAlike (World.constant i type name) (World.constant j type name)
      w w' c c' := by
  have hterm : RunsAlike i j TermsAlike (constantTerm i type name) (constantTerm j type name)
      w w' c c' := by
    refine request hw hw' (requestVariable_requested type name _)
      (requestVariable_requested type name _) (requestVariable_evolves type name)
      (requestVariable_evolves type name) ?_
    have hgives := requestVariable_gives hb.left type name
    have hgives' := requestVariable_gives hb.right type name
    rw [congrFun hb.sortOf type] at hgives'
    cases hk : c.env.sortOf type with
    | error x =>
      rw [hk] at hgives hgives'
      rw [hgives, hgives']
      exact .error x
    | ok k =>
      rw [hk] at hgives hgives'
      obtain ⟨t, new, env₁, hx, ht⟩ := hgives
      obtain ⟨t', new', env₁', hx', ht'⟩ := hgives'
      rw [hx, hx']
      exact .ok ⟨_, ht, ht'⟩
  exact bind hb hterm fun t t' w₁ w₁' c₁ c₁' hw₁ hw₁' _ _ hb₁ ht =>
    inEnvironment hw₁ hw₁' (.wrap type hb₁ ht)

theorem function (name : String) (result : FormulaType) (arguments : List FormulaType) :
    RunsAlike i j FunctionsAlike (World.function i name result arguments)
      (World.function j name result arguments) w w' c c' := by
  refine request hw hw' (requestFunction_requested name arguments result _)
    (requestFunction_requested name arguments result _)
    (requestFunction_evolves name arguments result)
    (requestFunction_evolves name arguments result) ?_
  have hgives := requestFunction_gives hb.left name arguments result
  have hgives' := requestFunction_gives hb.right name arguments result
  have hid := requestFunction_evolves name arguments result c.env |>.id
  have hid' := requestFunction_evolves name arguments result c'.env |>.id
  have hsame : c'.env.signatureOf name arguments result =
      c.env.signatureOf name arguments result := by
    unfold signatureOf
    rw [hb.sortOf]
  rw [hsame] at hgives'
  cases hsignature : c.env.signatureOf name arguments result with
  | error x =>
    rw [hsignature] at hgives hgives'
    rw [hgives, hgives']
    exact .error x
  | ok signature =>
    rw [hsignature] at hgives hgives'
    obtain ⟨d, new, env₁, hx, hd⟩ := hgives
    obtain ⟨d', new', env₁', hx', hd'⟩ := hgives'
    rw [hx] at hid ⊢
    rw [hx'] at hid' ⊢
    exact .ok ⟨rfl, rfl, rfl, hid.symm, hid'.symm, signature, hd, hd'⟩

end RunsAlike

end World

namespace Expression

open Environment World

variable {env env' : Environment} {f f' g g' h h' : Formula}

section

variable (hb : env.Beside env')
include hb

theorem literal_alike (l : Literal) : RunsAlike FormulasAlike l.make l.make env env' := by
  cases l with
  | truth value => exact .formula hb (Boolean.constant_alike hb value)
  | number d value => exact .managed _ hb (Numeral.constant_alike hb d value)
  | numeral d text => exact .managed _ hb (Numeral.read_alike hb d text)
  | bits width value => exact .managed _ hb (Bitvector.constant_alike hb width value)

theorem unary_alike (op : Unary) (hf : FormulasAlike env env' f f') :
    RunsAlike FormulasAlike (op.apply f) (op.apply f') env env' := by
  cases op with
  | not => exact .formula hb (.claim_bind hf fun _ _ hp => Boolean.not_alike hb hp)
  | neg d => exact .managed _ hb (Numeral.neg_alike hb d hf)
  | constantArray index => exact .managed _ hb (Arrays.constant_alike hb index hf)
  | bitNot => exact .managed _ hb (Bitvector.unary_alike hb .not (by simp) hf)
  | bitNeg => exact .managed _ hb (Bitvector.unary_alike hb .neg (by simp) hf)
  | extract high low => exact .managed _ hb (Bitvector.extract_alike hb high low hf)
  | body =>
    exact .managed _ hb (.formula hb (.claim_bind hf fun _ _ hp => Quantified.body_alike hb hp))
  | eliminate =>
    exact .managed _ hb (.formula hb (.claim_bind hf fun _ _ hp => Quantified.eliminate_alike hp))

theorem connective_alike (op : Connective) {p p' q q' : BoolFormula}
    (hp : BoolsAlike env env' p p') (hq : BoolsAlike env env' q q') :
    RunsAlike BoolsAlike (op.apply p q) (op.apply p' q') env env' := by
  cases op with
  | and => exact Boolean.junction_alike hb .and hp hq
  | or => exact Boolean.junction_alike hb .or hp hq
  | xor => exact Boolean.xor_alike hb hp hq
  | iff => exact Boolean.iff_alike hb hp hq
  | implies => exact Boolean.implies_alike hb hp hq

theorem arithmetic_alike (d : NumberDomain) (op : Arithmetic) (hf : FormulasAlike env env' f f')
    (hg : FormulasAlike env env' g g') :
    RunsAlike FormulasAlike (op.apply d f g) (op.apply d f' g') env env' := by
  cases op with
  | add => exact Numeral.sum_alike hb d (.cons hf (.cons hg .nil))
  | sub => exact Numeral.sub_alike hb d hf hg
  | mul => exact Numeral.mul_alike hb d hf hg
  | div => exact Numeral.div_alike hb d hf hg
  | mod => exact Numeral.mod_alike hb d hf hg

theorem comparison_alike (d : NumberDomain) (op : Comparison) (hf : FormulasAlike env env' f f')
    (hg : FormulasAlike env env' g g') :
    RunsAlike BoolsAlike (op.apply d f g) (op.apply d f' g') env env' := by
  cases op with
  | eq => exact Numeral.eq_alike hb d hf hg
  | gt => exact Numeral.compare_alike hb d .gt (by simp) hf hg
  | ge => exact Numeral.compare_alike hb d .ge (by simp) hf hg
  | lt => exact Numeral.compare_alike hb d .lt (by simp) hf hg
  | le => exact Numeral.compare_alike hb d .le (by simp) hf hg

theorem bitComparison_alike (op : BitComparison) (hf : FormulasAlike env env' f f')
    (hg : FormulasAlike env env' g g') :
    RunsAlike BoolsAlike (op.apply f g) (op.apply f' g') env env' := by
  cases op with
  | eq => exact Bitvector.eq_alike hb hf hg
  | lt signed => exact Bitvector.less_alike hb signed hf hg
  | le signed => exact Bitvector.lessOrEqual_alike hb signed hf hg
  | gt signed => exact Bitvector.less_alike hb signed hg hf
  | ge signed => exact Bitvector.lessOrEqual_alike hb signed hg hf

theorem binary_alike (op : Binary) (hf : FormulasAlike env env' f f')
    (hg : FormulasAlike env env' g g') :
    RunsAlike FormulasAlike (op.apply f g) (op.apply f' g') env env' := by
  cases op with
  | connective op =>
    exact .formula hb (.claim_bind hf fun _ _ hp => .claim_bind hg fun _ _ hq =>
      connective_alike hb op hp hq)
  | arithmetic d op => exact .managed _ hb (arithmetic_alike hb d op hf hg)
  | comparison d op => exact .managed _ hb (.formula hb (comparison_alike hb d op hf hg))
  | select => exact .managed _ hb (Arrays.select_alike hb hf hg)
  | arrayEq => exact .managed _ hb (.formula hb (Arrays.eq_alike hb hf hg))
  | bits op =>
    exact .managed _ hb (Bitvector.binary_alike hb op.op (by cases op <;> simp [BitArithmetic.op])
      hf hg)
  | bitComparison op => exact .managed _ hb (.formula hb (bitComparison_alike hb op hf hg))
  | concat => exact .managed _ hb (Bitvector.concat_alike hb hf hg)

theorem ternary_alike (op : Ternary) (hf : FormulasAlike env env' f f')
    (hg : FormulasAlike env env' g g') (hh : FormulasAlike env env' h h') :
    RunsAlike FormulasAlike (op.apply f g h) (op.apply f' g' h') env env' := by
  cases op with
  | ite => exact .claim_bind hf fun _ _ hp => Boolean.ite_alike hb hp hg hh
  | iteBool =>
    exact .formula hb (.claim_bind hf fun _ _ hp => .claim_bind hg fun _ _ hq =>
      .claim_bind hh fun _ _ hr => Boolean.iteBool_alike hb hp hq hr)
  | store => exact .managed _ hb (Arrays.store_alike hb hf hg hh)

theorem quantified_alike (q : Quantifier) {vars vars' : List Formula}
    (hvars : List.Forall₂ (FormulasAlike env env') vars vars') (hf : FormulasAlike env env' f f') :
    RunsAlike FormulasAlike (quantified q vars f) (quantified q vars' f') env env' :=
  .managed _ hb (.formula hb (.claim_bind hf fun _ _ hp => Quantified.quantify_alike hb q hvars hp))

omit hb in
theorem claim_alike (hf : FormulasAlike env env' f f') :
    RunsAlike BoolsAlike (claim f) (claim f') env env' := by
  have h : RunsAlike BoolsAlike (claim f >>= pure) (claim f' >>= pure) env env' :=
    .claim_bind hf fun _ _ hp => .pure hp
  rwa [bind_pure, bind_pure] at h

theorem claims_alike {fs fs' : List Formula} (h : List.Forall₂ (FormulasAlike env env') fs fs') :
    RunsAlike (fun env env' => List.Forall₂ (BoolsAlike env env')) (fs.mapM claim) (fs'.mapM claim)
      env env' :=
  .mapM (R := BoolsAlike) (P := FormulasAlike) (fun hb hl hr hp => FormulasAlike.evolve hb hl hr hp)
    (fun hb hl hr hf => hf.evolve hb hl hr)
    (fun _ hf => claim_alike hf) hb h

end

section

variable {i j : Nat} {w w' : World FoldingSolver} {c c' : Context}

theorem variable_alike (type : FormulaType) (name : String) (hw : w.Ready i c) (hw' : w'.Ready j c')
    (hb : c.env.Beside c'.env) :
    World.RunsAlike i j FormulasAlike (makeVariable i type name) (makeVariable j type name)
      w w' c c' := by
  unfold makeVariable
  cases type.theory? with
  | none => exact .constant hw hw' hb type name
  | some t =>
    have hrequire : Environment.RunsAlike (fun _ _ _ _ => True) (require t >>= pure)
        (require t >>= pure) c.env c'.env := .require_bind hb t (.pure trivial)
    rw [bind_pure] at hrequire
    exact .bind hb (.inEnvironment hw hw' hrequire) fun _ _ _ _ _ _ hw₁ hw₁' _ _ hb₁ _ =>
      .constant hw₁ hw₁' hb₁ type name

theorem types_alike {fs fs' : List Formula} (h : List.Forall₂ (FormulasAlike env env') fs fs') :
    fs'.map (·.type) = fs.map (·.type) := by
  induction h with
  | nil => rfl
  | cons hf _ ih => rw [List.map_cons, List.map_cons, hf.type, ih]

theorem nary_alike (op : Nary) {fs fs' : List Formula} (hw : w.Ready i c) (hw' : w'.Ready j c')
    (hb : c.env.Beside c'.env) (h : List.Forall₂ (FormulasAlike c.env c'.env) fs fs') :
    World.RunsAlike i j FormulasAlike (op.apply i fs) (op.apply j fs') w w' c c' := by
  have hcall : ∀ name result arguments, World.RunsAlike i j FormulasAlike
      (do let d ← World.function i name result arguments; inEnvironment i (Functions.apply d fs))
      (do let d ← World.function j name result arguments; inEnvironment j (Functions.apply d fs'))
      w w' c c' := fun name result arguments =>
    .bind hb (.function hw hw' hb name result arguments) fun _ _ _ _ _ _ hw₁ hw₁' hl hr hb₁ hd =>
      .inEnvironment hw₁ hw₁' (Functions.apply_alike hb₁ hd (allFormulasAlike_evolve hb hl hr h))
  cases op with
  | junction k =>
    exact .inEnvironment hw hw' (.formula hb (.bind hb (claims_alike hb h)
      fun _ _ _ _ _ _ hb₁ hps => Boolean.nary_alike hb₁ k hps))
  | sum d => exact .inEnvironment hw hw' (.managed _ hb (Numeral.sum_alike hb d h))
  | distinct d =>
    exact .inEnvironment hw hw' (.managed _ hb (.formula hb (Numeral.distinct_alike hb d h)))
  | call name result arguments => exact hcall name result arguments
  | declareAndCall name result =>
    have hrun := hcall name result (fs.map (·.type))
    unfold Nary.apply declareAndApply
    rw [types_alike h]
    exact hrun

end

mutual
/-- Step for step, an expression is built alike. -/
theorem build_alike {i j : Nat} {w w' : World FoldingSolver} {c c' : Context} :
    ∀ e : Expression, w.Ready i c → w'.Ready j c' → c.env.Beside c'.env →
      World.RunsAlike i j FormulasAlike (e.build i) (e.build j) w w' c c'
  | .literal l, hw, hw', hb => .inEnvironment hw hw' (literal_alike hb l)
  | .variable type name, hw, hw', hb => variable_alike type name hw hw' hb
  | .unary op e, hw, hw', hb =>
    .bind hb (build_alike e hw hw' hb) fun _ _ _ _ _ _ hw₁ hw₁' _ _ hb₁ hf =>
      .inEnvironment hw₁ hw₁' (unary_alike hb₁ op hf)
  | .binary op e₁ e₂, hw, hw', hb =>
    .bind hb (build_alike e₁ hw hw' hb) fun _ _ _ _ _ _ hw₁ hw₁' _ _ hb₁ hf =>
      .bind hb₁ (build_alike e₂ hw₁ hw₁' hb₁) fun _ _ _ _ _ _ hw₂ hw₂' hl hr hb₂ hg =>
        .inEnvironment hw₂ hw₂' (binary_alike hb₂ op (hf.evolve hb₁ hl hr) hg)
  | .ternary op e₁ e₂ e₃, hw, hw', hb =>
    .bind hb (build_alike e₁ hw hw' hb) fun _ _ _ _ _ _ hw₁ hw₁' _ _ hb₁ hf =>
      .bind hb₁ (build_alike e₂ hw₁ hw₁' hb₁) fun _ _ _ _ _ _ hw₂ hw₂' hl hr hb₂ hg =>
        .bind hb₂ (build_alike e₃ hw₂ hw₂' hb₂) fun _ _ _ _ _ _ hw₃ hw₃' hl₂ hr₂ hb₃ hh =>
          .inEnvironment hw₃ hw₃' (ternary_alike hb₃ op
            ((hf.evolve hb₁ hl hr).evolve hb₂ hl₂ hr₂) (hg.evolve hb₂ hl₂ hr₂) hh)
  | .nary op es, hw, hw', hb =>
    .bind hb (buildAll_alike es hw hw' hb) fun _ _ _ _ _ _ hw₁ hw₁' _ _ hb₁ hfs =>
      nary_alike op hw₁ hw₁' hb₁ hfs
  | .quantifier q vars body, hw, hw', hb =>
    .bind hb (buildAll_alike vars hw hw' hb) fun _ _ _ _ _ _ hw₁ hw₁' _ _ hb₁ hfs =>
      .bind hb₁ (build_alike body hw₁ hw₁' hb₁) fun _ _ _ _ _ _ hw₂ hw₂' hl hr hb₂ hf =>
        .inEnvironment hw₂ hw₂' (quantified_alike hb₂ q (allFormulasAlike_evolve hb₁ hl hr hfs) hf)

theorem buildAll_alike {i j : Nat} {w w' : World FoldingSolver} {c c' : Context} :
    ∀ es : List Expression, w.Ready i c → w'.Ready j c' → c.env.Beside c'.env →
      World.RunsAlike i j (fun env env' => List.Forall₂ (FormulasAlike env env')) (buildAll i es)
        (buildAll j es) w w' c c'
  | [], hw, hw', _ => .pure hw hw' .nil
  | e :: es, hw, hw', hb =>
    .bind hb (build_alike e hw hw' hb) fun _ _ _ _ _ _ hw₁ hw₁' _ _ hb₁ hf =>
      .bind hb₁ (buildAll_alike es hw₁ hw₁' hb₁) fun _ _ _ _ _ _ hw₂ hw₂' hl hr _ hfs =>
        .pure hw₂ hw₂' (.cons (hf.evolve hb₁ hl hr) hfs)
end

end Expression

namespace Client

open Environment

variable {c d : Client} {i j : Nat} {x y : Context}

theorem Reachable.ready (hc : Reachable c) (hx : c.world.contexts[i]? = some x) :
    c.world.Ready i x := by
  obtain ⟨hw, hr⟩ := hc.settled.context i x hx
  refine ⟨hx, ⟨hw, hr⟩, fun o ho => ?_⟩
  obtain ⟨id, -, rfl, hall⟩ := (hc.valid.sound.context i x hx).observers o ho
  exact ⟨id, rfl, hall⟩

/-- Whatever two clients have done before, an expression fails for one reason in contexts with the
same theories, or gives formulas of one declared type, one tree and one text. -/
theorem build_independent (hc : Reachable c) (hd : Reachable d)
    (hx : c.world.contexts[i]? = some x) (hy : d.world.contexts[j]? = some y)
    (htheories : y.env.theories = x.env.theories) (e : Expression) :
    (∃ fault w w', (e.build i).exec c.world = (.error fault, w) ∧
      (e.build j).exec d.world = (.error fault, w')) ∨
    ∃ f g w w' x' y', (e.build i).exec c.world = (.ok f, w) ∧
      (e.build j).exec d.world = (.ok g, w') ∧ w.contexts[i]? = some x' ∧
      w'.contexts[j]? = some y' ∧ g.type = f.type ∧
      (∃ tree, x'.env.terms.tree? f.term = some tree ∧ y'.env.terms.tree? g.term = some tree) ∧
      ∃ text, x'.env.dump f = .ok text ∧ y'.env.dump g = .ok text := by
  have hw := hc.ready hx
  have hw' := hd.ready hy
  obtain ⟨x', y', hx', hy', -, -, hagrees⟩ :=
    Expression.build_alike e hw hw' ⟨hw.orderly, hw'.orderly, htheories⟩
  rcases hl : (e.build i).exec c.world with ⟨out, w⟩
  rcases hr : (e.build j).exec d.world with ⟨out', w'⟩
  rw [hl] at hagrees hx'
  rw [hr] at hagrees hy'
  cases hagrees with
  | error fault => exact .inl ⟨fault, w, w', rfl, rfl⟩
  | @ok f g hfg =>
    obtain ⟨text, ht, ht'⟩ :=
      Store.Alike.dump_eq hx'.orderly.wellFormed hy'.orderly.wellFormed hfg.terms
    refine .inr ⟨f, g, w, w', x', y', rfl, rfl, hx'.context, hy'.context, hfg.type, hfg.terms, text,
      ?_, ?_⟩
    · rw [dump, unwrap, if_pos hfg.owner]
      exact ht
    · rw [dump, unwrap, if_pos hfg.owner']
      exact ht'

/-- A client with one context, and no past. -/
def newborn : Client := start.afterAll [.addContext .everything false false default none]

/-- A client that has made a number and opened a stack. -/
def busy : Client :=
  start.afterAll [.addContext .everything false false default none, .constant 0 .integer "n",
    .openStack 0 false]

/-- One expression under two handles. -/
theorem build_independent_shifted :
    let e : Expression := .binary (.connective .and) (.variable .boolean "p")
      (.unary .not (.variable .boolean "p"))
    ∃ f g w w' x' y', (e.build 0).exec newborn.world = (.ok f, w) ∧
      (e.build 0).exec busy.world = (.ok g, w') ∧ w.contexts[0]? = some x' ∧
      w'.contexts[0]? = some y' ∧ f.term ≠ g.term ∧
      ∃ text, x'.env.dump f = .ok text ∧ y'.env.dump g = .ok text := by
  intro e
  have hterm : ((e.build 0).exec newborn.world).1.toOption.map (·.term) = some ⟨2⟩ := by
    decide +kernel
  have hterm' : ((e.build 0).exec busy.world).1.toOption.map (·.term) = some ⟨3⟩ := by
    decide +kernel
  have htheories : (newborn.world.contexts[0]?).map (·.env.theories) = some .everything := by
    decide +kernel
  have htheories' : (busy.world.contexts[0]?).map (·.env.theories) = some .everything := by
    decide +kernel
  obtain ⟨x, hx, hxt⟩ := Option.map_eq_some_iff.1 htheories
  obtain ⟨y, hy, hyt⟩ := Option.map_eq_some_iff.1 htheories'
  have hc : Reachable newborn := run_afterAll start _
  have hd : Reachable busy := run_afterAll start _
  obtain ⟨fault, w, w', hl, -⟩ | ⟨f, g, w, w', x', y', hl, hr, hx', hy', -, -, htext⟩ :=
    build_independent hc hd hx hy (hyt.trans hxt.symm) e
  · rw [hl] at hterm
    cases hterm
  · rw [hl] at hterm
    rw [hr] at hterm'
    refine ⟨f, g, w, w', x', y', hl, hr, hx', hy', fun h => ?_, htext⟩
    have hf : f.term = ⟨2⟩ := Option.some.inj hterm
    have hg : g.term = ⟨3⟩ := Option.some.inj hterm'
    rw [hf, hg] at h
    cases h

end Client

end FormulaStack
