import FormulaStack.Proofs.Mirroring
import FormulaStack.Proofs.Negations

/-!
To negate twice is to do nothing, in every environment that was made from one without a negation of
a negation. Requests for constants are announced to the stacks of the environment, which make no
terms.
-/
namespace FormulaStack

/-! What a negation of a negation comes to -/

theorem Node.op_of_kind {n : Node} (h : n.kind = .not) : n.op = .not := by
  unfold kind at h
  split at h
  case h_3 hop => exact hop
  case h_11 => split at h <;> cases h
  all_goals cases h

theorem Tree.negation_negation {x : Tree} (hx : x.Proposition)
    (h : ∀ y, x = .connective .not [y] → y.kind ≠ .not) : x.negation.negation = x := by
  by_cases hk : x.kind = .not
  · obtain ⟨y, rfl, -⟩ := hx.not_arg (label_of_kind (by rw [hk]; rfl))
    exact negation_of_ne fun _ _ hy _ => h y rfl hy
  · rw [negation_of_ne fun _ _ hx _ => hk hx]
    rfl

namespace Environment

variable {env env' : Environment} {f : BoolFormula} {x y : Tree} {t : Term}

theorem Shows.op_of_kind (h : env.Shows t x) (henv : env.Proper) (hk : x.kind = .not) {n : Node}
    (hn : env.terms.node? t = some n) : n.op = .not := by
  obtain ⟨m, hm, hkind⟩ := node_of_kind henv (h.kind henv)
  rw [hn] at hm
  cases hm
  exact Node.op_of_kind (hkind.trans hk)

theorem Reduced.kind_ne (henv : env.Reduced) (ht : env.Shows t (.connective .not [y])) :
    y.kind ≠ .not := by
  intro hk
  obtain ⟨n, hn, -, -, hargs⟩ := ht.node henv.proper
  obtain ⟨a, _, ha, -, hn'⟩ := List.forall₂_cons_right_iff.1 hargs
  have hin : a ∈ n.args := hn' ▸ List.mem_cons_self
  obtain ⟨m, hm⟩ := henv.proper.wellFormed.exists_arg hn hin
  exact henv.terms t n hn (ht.op_of_kind henv.proper rfl hn) a hin m hm
    (Shows.op_of_kind ha henv.proper hk hm)

/-- The negation of the negation of a formula is the formula. -/
theorem Reduced.not_not (henv : env.Reduced) (hf : env.Owned f) :
    ∃ g env₁ h env₂, (Boolean.not f).exec env = (.ok g, env₁) ∧
      (Boolean.not g).exec env₁ = (.ok h, env₂) ∧
      h.term = f.term ∧ h.formula.owner = f.formula.owner := by
  obtain ⟨x, hx⟩ := hf.exists_reads henv.proper
  have hnot : Computes env Reads (Boolean.not f) (.ok (.own x.negation)) :=
    computes_not henv.proper hx
  obtain ⟨g, env₁, hg, ha₁, hgx⟩ := hnot.exists_ok
  have henv₁ := ha₁.proper henv.proper
  have hnotnot : Computes env₁ Reads (Boolean.not g) (.ok (.own x.negation.negation)) :=
    computes_not henv₁ hgx
  rw [Tree.negation_negation (hx.proposition henv.proper)
    fun y hy => henv.kind_ne (hy ▸ hx.2.1)] at hnotnot
  obtain ⟨h, env₂, hh, ha₂, hhx⟩ := hnotnot.exists_ok
  have henv₂ := ha₂.proper henv₁
  have hfx := (hx.advance henv.proper ha₁).advance henv₁ ha₂
  exact ⟨g, env₁, h, env₂, hg, hh, henv₂.wellFormed.tree?_injective hhx.2.1 hfx.2.1,
    hhx.1.trans hfx.1.symm⟩

/-- Only terms count. -/
theorem staysReduced_of_eq (hid : env'.id = env.id) (hreported : env'.reported = env.reported)
    (hterms : env'.terms = env.terms) : env.StaysReduced env' := by
  refine fun h => ⟨⟨hid, hreported, hterms ▸ .refl _⟩, ⟨?_, hreported.trans h.proper.candid⟩, ?_⟩
  · exact hterms ▸ h.proper.wellFormed
  · exact hterms ▸ h.terms

theorem requestVariable_staysReduced (type : FormulaType) (name : String) :
    Effect.Within StaysReduced (requestVariable type name) := by
  intro env
  rw [exec_requestVariable]
  cases env.constants.lookup (name, type) with
  | some t => exact Std.Refl.refl env
  | none =>
    cases env.sortOf type with
    | error x => exact Std.Refl.refl env
    | ok k =>
      have hbuild := build_staysReduced (.constant name k) (.constant name k) env
      rw [exec_build] at hbuild
      dsimp only
      split
      · exact Std.Refl.refl env
      · next t terms hx =>
        rw [hx] at hbuild
        exact Trans.trans hbuild (staysReduced_of_eq rfl rfl rfl)

end Environment

open Environment

/-! Stacks that are told of constants -/

namespace Site

variable {α : Type}

/-- The environment of a site stays reduced. -/
def StaysReduced (s t : Site FoldingSolver) : Prop := s.env.StaysReduced t.env

instance : Std.Refl StaysReduced := ⟨fun s => Std.Refl.refl s.env⟩

instance : IsTrans _ StaysReduced :=
  ⟨fun s t u h g => IsTrans.trans s.env t.env u.env h g⟩

theorem native_staysReduced {e : SessionM FoldingSolver α}
    (he : Effect.Within FoldingSolver.SameTerms e) : Effect.Within StaysReduced (native e) :=
  fun s => staysReduced_of_eq rfl rfl (he s.desk)

theorem updateStack_staysReduced (f : AssertionStack FoldingSolver → AssertionStack FoldingSolver) :
    Effect.Within StaysReduced (updateStack f) :=
  .update fun s => Std.Refl.refl s.env

theorem symbolRequested_staysReduced (symbol : Symbol) :
    Effect.Within StaysReduced (symbolRequested symbol) := by
  refine .bind (.look _) fun closed => ?_
  split
  · exact .pure _
  · exact .bind (native_staysReduced (FoldingSolver.declare_sameTerms symbol)) fun _ =>
      updateStack_staysReduced _

theorem popLevel_staysReduced :
    Effect.Within StaysReduced (do releaseAll (← popLevel) : Effect (Site FoldingSolver) Unit) := by
  have hpop : ∀ {s : Site FoldingSolver} {r p},
      (Session.pop : SessionM FoldingSolver Unit).exec s.desk = (r, p) → p.1 = s.env.terms := by
    intro s r p hx
    have hsame := FoldingSolver.pop_sameTerms s.desk
    rwa [hx] at hsame
  have hreplayed : ∀ {s : Site FoldingSolver} {p q : Store × FoldingSolver} {r r'}
      {symbols : List Symbol},
      (Session.pop : SessionM FoldingSolver Unit).exec s.desk = (r, p) →
      (symbols.forM Session.declare : SessionM FoldingSolver Unit).exec p = (r', q) →
      q.1 = s.env.terms := by
    intro s p q r r' symbols hx hd
    have hsame := FoldingSolver.declareAll_sameTerms symbols p
    rw [hd] at hsame
    exact Eq.trans hsame (hpop hx)
  exact popLevel_within (fun hx => staysReduced_of_eq rfl rfl (hpop hx))
    (fun hx _ => staysReduced_of_eq rfl rfl (hpop hx))
    (fun hx _ _ => staysReduced_of_eq rfl rfl (hpop hx))
    (fun hx _ _ hd => staysReduced_of_eq rfl rfl (hreplayed hx hd))
    (fun hx _ _ hd => staysReduced_of_eq rfl rfl (hreplayed hx hd))

theorem popLevels_staysReduced :
    ∀ n, Effect.Within StaysReduced (popLevels n : Effect (Site FoldingSolver) Unit)
  | 0 => .pure _
  | n + 1 => by
    have hstep := popLevel_staysReduced.bind fun _ : Unit => popLevels_staysReduced n
    rwa [bind_assoc] at hstep

theorem close_staysReduced : Effect.Within StaysReduced close := by
  have hopen : Effect.Within StaysReduced (ensureOpen : Effect (Site FoldingSolver) Unit) := by
    refine .bind (.look _) fun closed => ?_
    split
    · exact .throw _
    · exact .pure _
  have hrelease : ∀ assertions,
      Effect.Within StaysReduced (releaseAll assertions : Effect (Site FoldingSolver) Unit) := by
    intro assertions s
    rw [exec_releaseAll]
    exact staysReduced_of_eq rfl rfl rfl
  refine .bind hopen fun _ => .bind (.update fun s => staysReduced_of_eq rfl rfl rfl) fun _ =>
    .bind (.look _) fun s => .bind (.attempt ?_) fun outcome => .bind (.look _) fun t =>
      .bind (updateStack_staysReduced _) fun _ => .bind (hrelease _) fun _ => ?_
  · split
    · exact native_staysReduced fun _ => rfl
    · exact popLevels_staysReduced _
  · cases outcome with
    | ok => exact .pure _
    | error x => exact .throw x

end Site

namespace World

variable {α : Type} {w w' : World FoldingSolver} {c : Context} {ctx : Nat}

/-- Every context is still there, and its environment stays reduced. -/
def StaysReduced (w w' : World FoldingSolver) : Prop :=
  ∀ (i : Nat) c, w.contexts[i]? = some c →
    ∃ c', w'.contexts[i]? = some c' ∧ c.env.StaysReduced c'.env

instance : Std.Refl StaysReduced := ⟨fun _ _ c hc => ⟨c, hc, Std.Refl.refl c.env⟩⟩

instance : IsTrans _ StaysReduced := ⟨fun _ _ _ h g i c hc => by
  obtain ⟨c', hc', hstays⟩ := h i c hc
  obtain ⟨c'', hc'', hstays'⟩ := g i c' hc'
  exact ⟨c'', hc'', Trans.trans hstays hstays'⟩⟩

theorem staysReduced_of_contexts (h : w'.contexts = w.contexts) : w.StaysReduced w' :=
  fun _ c hc => ⟨c, h ▸ hc, Std.Refl.refl c.env⟩

/-- One environment is another. -/
theorem staysReduced_change {env : Environment} (hc : w.contexts[ctx]? = some c)
    (henv : c.env.StaysReduced env)
    (h : ∀ i, w'.contexts[i]? = if i = ctx then some { c with env } else w.contexts[i]?) :
    w.StaysReduced w' := by
  intro i c' hc'
  rw [h]
  split
  · next hi =>
    rw [hi, hc] at hc'
    cases hc'
    exact ⟨_, rfl, henv⟩
  · exact ⟨c', hc', Std.Refl.refl c'.env⟩

theorem inEnvironment_staysReduced {e : Effect Environment α}
    (he : Effect.Within Environment.StaysReduced e) :
    Effect.Within StaysReduced (inEnvironment ctx e) :=
  inEnvironment_within fun _ c hc =>
    staysReduced_change hc (he c.env) (context_setEnvironment hc _)

theorem atStack_staysReduced {e : Effect (Site FoldingSolver) α}
    (he : Effect.Within Site.StaysReduced e) (id : Nat) :
    Effect.Within StaysReduced (atStack id e) :=
  atStack_within fun w c s _ hc => staysReduced_change hc (he (w.site c s)) (context_put hc _)

theorem staysReduced_modify {f : Environment → Environment}
    (hf : ∀ env, Environment.StaysReduced env (f env)) (w : World FoldingSolver) (ctx : Nat) :
    w.StaysReduced
      { w with contexts := w.contexts.modify ctx fun c => { c with env := f c.env } } :=
  modify_within fun c hc => staysReduced_change hc (hf c.env) (context_setEnvironment hc _)

theorem constant_staysReduced (type : FormulaType) (name : String) : Effect.Within StaysReduced
    (constant ctx type name : Effect (World FoldingSolver) Formula) :=
  .bind (constantTerm_within (inEnvironment_staysReduced (requestVariable_staysReduced type name))
      fun symbol => publish_within (tell_within
        (atStack_staysReduced (Site.symbolRequested_staysReduced symbol))
        (atStack_staysReduced Site.close_staysReduced) fun _ _ => staysReduced_of_contexts rfl))
    fun t => inEnvironment_staysReduced (wrap_staysReduced type t)

theorem image_staysReduced {τ : Type} {hook : BoolFormula → Visit τ BoolFormula}
    (hhook : FormulaMap.Leaves hook) (s : τ) (f : BoolFormula) : Effect.Within StaysReduced
      (image ctx (FormulaMap.onAtoms hook) s f : Effect (World FoldingSolver) _) := by
  refine .bind (inEnvironment_staysReduced (FormulaMap.apply_staysReduced hhook s f))
    fun ⟨out, s', made⟩ => ?_
  have hretain : ∀ g,
      Effect.Within StaysReduced (.update (retain g) : Effect (World FoldingSolver) _) :=
    fun g => .update fun w => staysReduced_modify (staysReduced_retain g) w g.owner
  cases out with
  | error x => exact .pure _
  | ok g =>
    refine .bind context_within fun c => ?_
    split
    · exact .bind (hretain _) fun _ => .pure _
    · exact .pure _

end World

/-! Runs of the manager of boolean formulas -/

theorem FormulaMap.leaves_substitution (pairs : List (BoolFormula × BoolFormula))
    (refused : Option BoolFormula) : Leaves (substitution pairs refused).onAtom := by
  have hcopy : ∀ f : BoolFormula,
      Effect.Within Undisturbed (Visit.inEnvironment f.copy : Visit Nat BoolFormula) := by
    intro f p
    change p.1.retain f.formula = { p.1 with handles := (p.1.retain f.formula).handles }
    unfold retain
    split <;> rfl
  intro f
  refine .bind (.update fun _ => rfl) fun _ => ?_
  dsimp only
  by_cases hr : refused.any (· == f) = true
  · rw [if_pos hr]
    refine .bind (.throw _) fun _ => ?_
    split
    · exact hcopy _
    · exact hcopy f
  · rw [if_neg hr]
    split
    · exact hcopy _
    · exact hcopy f

/-- What a client asks of the manager of boolean formulas. Maps put formulas that are there for
atoms. -/
inductive BooleanRequest : Type 1 where
  | truth (value : Bool)
  | constant (name : String)
  | combine (c : Combination BoolFormula)
  | choose (condition : BoolFormula) (f g : Formula)
  | transform {τ : Type} (hook : BoolFormula → Visit τ BoolFormula)
    (leaves : FormulaMap.Leaves hook) (s : τ) (f : BoolFormula)
  | copy (f : Formula)
  | drop (f : Formula)

def BooleanRequest.perform (ctx : Nat) : BooleanRequest → Effect (World FoldingSolver) Unit
  | truth value => do let _ ← World.inEnvironment ctx (Boolean.constant value)
  | constant name => do let _ ← World.constant ctx .boolean name
  | combine c => do let _ ← World.inEnvironment ctx c.make
  | choose condition f g => do let _ ← World.inEnvironment ctx (Boolean.ite condition f g)
  | transform hook _ s f => do let _ ← World.image ctx (FormulaMap.onAtoms hook) s f
  | copy f => .update (World.retain f)
  | drop f => .update (World.discard f)

theorem BooleanRequest.perform_staysReduced (ctx : Nat) (r : BooleanRequest) :
    Effect.Within World.StaysReduced (r.perform ctx) := by
  have hdo : ∀ {α : Type} {e : Effect Environment α},
      Effect.Within Environment.StaysReduced e → Effect.Within World.StaysReduced
        (do let _ ← World.inEnvironment ctx e : Effect (World FoldingSolver) Unit) :=
    fun he => .bind (World.inEnvironment_staysReduced he) fun _ => .pure _
  cases r with
  | truth value => exact hdo (Boolean.constant_staysReduced value)
  | constant name => exact .bind (World.constant_staysReduced .boolean name) fun _ => .pure _
  | combine c => exact hdo c.make_staysReduced
  | choose condition f g => exact hdo (Boolean.ite_staysReduced condition f g)
  | transform hook hhook s f => exact .bind (World.image_staysReduced hhook s f) fun _ => .pure _
  | copy f => exact .update fun w => World.staysReduced_modify (staysReduced_retain f) w f.owner
  | drop f => exact .update fun w => World.staysReduced_modify (staysReduced_discard f) w f.owner

namespace World

variable {w : World FoldingSolver} {c : Context} {ctx : Nat}

/-- A world after requests, whether they were met or not. -/
def afterRequests (w : World FoldingSolver) (ctx : Nat) (requests : List BooleanRequest) :
    World FoldingSolver :=
  requests.foldl (fun w r => ((r.perform ctx).exec w).2) w

theorem staysReduced_afterRequests (w : World FoldingSolver) (ctx : Nat)
    (requests : List BooleanRequest) : w.StaysReduced (w.afterRequests ctx requests) := by
  induction requests generalizing w with
  | nil => exact Std.Refl.refl w
  | cons r requests ih => exact Trans.trans (r.perform_staysReduced ctx w) (ih _)

/-- Where no negation is over a negation, none ever comes to be, and the negation of the negation of
a formula is that formula. -/
theorem negation_involutive (hc : w.contexts[ctx]? = some c) (henv : c.env.Proper)
    (hterms : c.env.terms.Reduced) (requests : List BooleanRequest) :
    ∃ c', (w.afterRequests ctx requests).contexts[ctx]? = some c' ∧ c'.env.terms.Reduced ∧
      ∀ f, c'.env.Owned f → ∃ g w₁ h w₂,
        (inEnvironment ctx (Boolean.not f)).exec (w.afterRequests ctx requests) = (.ok g, w₁) ∧
        (inEnvironment ctx (Boolean.not g)).exec w₁ = (.ok h, w₂) ∧ (h == f) = true := by
  obtain ⟨c', hc', hstays⟩ := staysReduced_afterRequests w ctx requests ctx c hc
  obtain ⟨-, hreduced⟩ := hstays ⟨henv, hterms⟩
  refine ⟨c', hc', hreduced.terms, fun f hf => ?_⟩
  obtain ⟨g, env₁, h, env₂, hg, hh, hterm, howner⟩ := hreduced.not_not hf
  have hc₁ : (setEnvironment ctx env₁ (w.afterRequests ctx requests)).contexts[ctx]? =
      some { c' with env := env₁ } := by
    rw [context_setEnvironment hc', if_pos rfl]
  refine ⟨g, setEnvironment ctx env₁ (w.afterRequests ctx requests), h, _, ?_,
    (exec_inEnvironment hc₁ _).trans (by rw [hh]), ?_⟩
  · rw [exec_inEnvironment hc', hg]
  · change (h.formula.owner == f.formula.owner && h.term == f.term) = true
    rw [hterm, howner, beq_self_eq_true, beq_self_eq_true, Bool.and_self]

/-- The first two formulas that are made in a new environment. -/
def formulaAt (index : Nat) : BoolFormula := ⟨⟨⟨index⟩, .boolean, 0, none⟩, rfl⟩

/-- A constant is negated, and its negation is put for it in that negation. -/
def inverting : List BooleanRequest :=
  [.constant "p", .combine (.not (formulaAt 0)),
    .transform _ (FormulaMap.leaves_substitution [(formulaAt 0, formulaAt 1)] none) 0 (formulaAt 1)]

theorem negation_involutive_inverting :
    let w : World FoldingSolver := empty.addContext .everything false false default none
    ∃ c', (w.afterRequests 0 inverting).contexts[0]? = some c' ∧ c'.env.terms.Reduced ∧
      ∃ g w₁ h w₂,
        (inEnvironment 0 (Boolean.not (formulaAt 1))).exec (w.afterRequests 0 inverting) =
          (.ok g, w₁) ∧
        (inEnvironment 0 (Boolean.not g)).exec w₁ = (.ok h, w₂) ∧ (h == formulaAt 1) = true := by
  intro w
  have hc : w.contexts[0]? = some ⟨.new 0 .everything false false false, default, 0⟩ := rfl
  have hterms : Store.empty.Reduced := fun t n hn => by cases hn
  obtain ⟨c', hc', hreduced, hinvolutive⟩ :=
    negation_involutive hc ⟨Store.wellFormed_empty, rfl⟩ hterms inverting
  have howned : ((w.afterRequests 0 inverting).contexts[0]?).map
      (fun c => (c.env.id, c.env.terms.sort? (formulaAt 1).term)) = some (0, some .bool) := by
    decide +kernel
  rw [hc', Option.map_some, Option.some.injEq, Prod.mk.injEq] at howned
  exact ⟨c', hc', hreduced, hinvolutive _ ⟨howned.1.symm, howned.2⟩⟩

end World
end FormulaStack
