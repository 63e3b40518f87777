import FormulaStack.Proofs.Settlements

/-!
Types of wrappers. The formulas that a client holds are of the contexts that they belong to: their
terms are there, and have sorts that the types of the formulas accept.
-/
namespace FormulaStack

namespace Environment

variable {env env' : Environment} {f : Formula} {t : Term}

/-- A formula of an environment over a term of a sort that its type accepts. -/
structure Types (env : Environment) (f : Formula) : Prop where
  owner : f.owner = env.id
  sort : ∃ k, env.terms.sort? f.term = some k ∧ f.type.accepts k.type = true

theorem Types.mono (h : env.Types f) (hid : env'.id = env.id)
    (hterms : env'.terms.Extends env.terms) : env'.Types f := by
  obtain ⟨k, hk, haccepts⟩ := h.sort
  exact ⟨h.owner.trans hid.symm, k, hterms.sort? hk, haccepts⟩

theorem Types.unwrap_eq (h : env.Types f) : env.unwrap f = .ok f.term := if_pos h.owner

theorem Types.evolve (h : env.Types f) (he : env.Evolves env') : env'.Types f :=
  h.mono he.id he.terms.extension

theorem typeOf_eq_ok {type : FormulaType} :
    env.typeOf t = .ok type ↔ ∃ k, env.terms.sort? t = some k ∧ k.type = type := by
  unfold typeOf
  cases hk : env.terms.sort t with
  | error x =>
    refine ⟨nofun, fun ⟨k, hsort, _⟩ => ?_⟩
    cases hk.symm.trans (Store.sort_eq_ok.2 hsort)
  | ok k =>
    rw [Store.sort_eq_ok] at hk
    rw [hk]
    exact ⟨fun h => ⟨k, rfl, Except.ok.inj h⟩, fun ⟨_, hl, h⟩ => by cases hl; exact congrArg _ h⟩

theorem wrap_types (type : FormulaType) (t : Term) (env : Environment) :
    (wrap type t).Ensures env fun f env' => env'.Types f := by
  refine .ask_bind fun actual hactual => ?_
  obtain ⟨k, hk, rfl⟩ := typeOf_eq_ok.1 hactual
  split
  · next haccepts =>
    rintro _ _ ⟨⟩
    exact ⟨rfl, k, hk, haccepts⟩
  · exact .throw_bind _

theorem wrapBool_types (t : Term) (env : Environment) :
    (wrapBool t).Ensures env fun p env' => env'.Types p.formula := by
  refine .ask_bind fun actual hactual => ?_
  obtain ⟨k, hk, htype⟩ := typeOf_eq_ok.1 hactual
  split
  · next h =>
    rintro _ _ ⟨⟩
    exact ⟨rfl, k, hk, by rw [htype, h]; rfl⟩
  · exact .throw_bind _

theorem wrapAsIs_types (t : Term) (env : Environment) :
    (wrapAsIs t).Ensures env fun f env' => env'.Types f :=
  .ask_bind fun actual _ => wrap_types actual t env

end Environment

namespace Model

open Environment

theorem ofPair_types (pair : Term × Term) (env : Environment) :
    (Assignment.ofPair pair).Ensures env fun a env' => ∀ f ∈ a.formulas, env'.Types f := by
  refine .later fun name _ => .later fun constant v => .bind (wrapAsIs_types pair.1 v)
    fun key x hkey =>
      .bind (.undoing ((wrapAsIs_types pair.2 x).and ((wrapAsIs_works pair.2).ensures x)))
        fun value y hvalue => .pure fun f hf => ?_
  obtain rfl | hf := List.mem_cons.1 hf
  · exact hkey.evolve hvalue.2.evolves
  · rw [List.mem_singleton.1 hf]
    exact hvalue.1

theorem assignments_types (pairs : List (Term × Term)) (env : Environment) :
    (assignments pairs).Ensures env fun m env' => ∀ f ∈ Model.formulas m, env'.Types f := by
  induction pairs generalizing env with
  | nil => exact .pure fun f hf => (List.not_mem_nil hf).elim
  | cons pair pairs ih =>
    refine .bind (ofPair_types pair env) fun a u ha =>
      .bind (.undoing ((ih u).and ((assignments_works pairs).ensures u))) fun m v hm =>
        .pure fun f hf => ?_
    obtain hf | hf := List.mem_append.1 hf
    · exact (ha f hf).evolve hm.2.evolves
    · exact hm.1 f hf

theorem ofPairs_types (pairs : List (Term × Term)) (env : Environment) :
    (ofPairs pairs).Ensures env fun m env' => ∀ f ∈ Model.formulas m, env'.Types f :=
  .bind (assignments_types pairs env) fun m _ hm => .pure fun f hf =>
    hm f (((List.mergeSort_perm m _).flatMap_right _).mem_iff.1 hf)

end Model

namespace Site

variable {α : Type} {s : Site FoldingSolver}

theorem ensures_inEnvironment {e : Effect Environment α} {Q : α → Environment → Prop}
    (h : e.Ensures s.env Q) : (inEnvironment e).Ensures s fun a t => Q a t.env :=
  .on fun a env hx => h a env hx

theorem evaluate_types (f : Formula) (s : Site FoldingSolver) :
    (evaluate f).Ensures s fun r t => ∀ g ∈ r, t.env.Types g := by
  refine .later fun _ _ => .later fun u _ => .later fun value t => ?_
  split
  · refine .bind (ensures_inEnvironment (Environment.wrap_types _ _ t.env)) fun g t hg => .pure ?_
    rintro _ ⟨⟩
    exact hg
  · exact .pure nofun

theorem model_types (s : Site FoldingSolver) :
    model.Ensures s fun m t => ∀ f ∈ m.formulas, t.env.Types f :=
  .later fun _ _ => .later fun pairs t => ensures_inEnvironment (Model.ofPairs_types pairs t.env)

theorem interpolantsFrom_types (as : List (Option Nat × Term)) (before groups : List (List Nat))
    (s : Site FoldingSolver) :
    (interpolantsFrom as before groups).Ensures s fun fs t =>
      ∀ f ∈ fs.map (·.formula), t.env.Types f := by
  induction groups generalizing before s with
  | nil => exact .pure fun f hf => (List.not_mem_nil hf).elim
  | cons group groups ih =>
    refine .later fun _ _ => .later fun u t =>
      .bind (ensures_inEnvironment (Environment.wrapBool_types u t.env)) fun f t hf =>
        .bind (.undoing ((ih _ t).and ((interpolantsFrom_evolves as _ groups).ensures t)))
          fun fs t hfs => .pure fun g hg => ?_
    obtain rfl | hg := List.mem_cons.1 hg
    · exact hf.evolve hfs.2.env
    · exact hfs.1 g hg

theorem interpolants_types (groups : List (List Nat)) (s : Site FoldingSolver) :
    (interpolants groups).Ensures s fun fs t => ∀ f ∈ fs.map (·.formula), t.env.Types f := by
  refine .later fun _ _ => .later fun stack _ => ?_
  dsimp only
  split
  · split
    · exact .throw_bind _
    · split
      · exact .throw_bind _
      · exact interpolantsFrom_types _ _ _ _
  · exact .throw_bind _

/-- The literal of a formula is a copy of it, or new. -/
theorem literal_types {f : BoolFormula} (t : Term) (hf : s.env.Types f.formula) :
    (literal f t).Ensures s fun l u => u.env.Types l.1.formula := by
  have hliteral : (literal f t).Ensures s fun l u => l.1 = f ∨ u.env.Types l.1.formula := by
    refine .later fun value _ => ?_
    split
    case' h_1 => refine .later fun constant _ => .later fun negated v => ?_
    case' h_2 => refine .later fun constant _ => .later fun negated v => ?_
    all_goals
      split
      · refine .bind (P := fun p _ => p = f) ?_ fun p _ hp => .pure (.inl hp)
        rintro _ _ ⟨⟩
        rfl
      · exact .bind (ensures_inEnvironment (Environment.wrapBool_types negated v.env))
          fun p _ hp => .pure (.inr hp)
      · exact .later fun _ _ => .throw _
  refine (hliteral.and ((literal_evolves f t).ensures s)).mono fun l u hl => ?_
  obtain ⟨rfl | hl, hevolves⟩ := hl
  · exact hf.evolve hevolves.env
  · exact hl

theorem literals_types {important : List (BoolFormula × Term)}
    (himportant : ∀ l ∈ important, s.env.Types l.1.formula) :
    (literals important).Ensures s fun ls u => ∀ l ∈ ls, u.env.Types l.1.formula := by
  induction important generalizing s with
  | nil => exact .pure fun l hl => (List.not_mem_nil hl).elim
  | cons l rest ih =>
    obtain ⟨hl, hrest⟩ := List.forall_mem_cons.1 himportant
    refine .bind ((literal_types l.2 hl).and ((literal_evolves l.1 l.2).ensures s))
      fun m u hm => .bind (.undoing ((ih fun k hk => (hrest k hk).evolve hm.2.env).and
        ((literals_evolves rest).ensures u))) fun ls v hls => .pure ?_
    exact List.forall_mem_cons.2 ⟨hm.1.evolve hls.2.env, hls.1⟩

theorem nextModel?_types {important : List (BoolFormula × Term)}
    (himportant : ∀ l ∈ important, s.env.Types l.1.formula) :
    (nextModel? important).Ensures s fun model u => ∀ f ∈ literalsOf model, u.env.Types f := by
  refine .bind (ensureRunning_evolves.ensures s) fun _ t ht =>
    .bind (check_evolves.ensures t) fun sat u hu => ?_
  split
  · refine .bind (literals_types fun l hl => ((himportant l hl).evolve ht.env).evolve hu.env)
      fun ls v hls => .pure fun f hf => ?_
    obtain ⟨l, hl, rfl⟩ := List.mem_map.1 hf
    exact hls l hl
  · exact .pure fun f hf => (List.not_mem_nil hf).elim

/-- Whatever wrappers a client obtains at a stack. -/
theorem perform_types (op : StackOperation) (s : Site FoldingSolver) :
    op.perform.Ensures s fun fs t => ∀ f ∈ fs, t.env.Types f := by
  have hnone : ∀ t : Site FoldingSolver, (pure [] : Effect _ (List Formula)).Ensures t
      fun fs t => ∀ f ∈ fs, t.env.Types f :=
    fun t => .pure fun f hf => (List.not_mem_nil hf).elim
  cases op with
  | model => exact .bind (model_types s) fun m t hm => .pure hm
  | evaluate f =>
    exact .bind (evaluate_types f s) fun r t hr => .pure fun g hg => hr g (Option.mem_toList.1 hg)
  | interpolants groups => exact .bind (interpolants_types groups s) fun fs t hfs => .pure hfs
  | push | pop | assert | addSymbol | check | close => exact .later fun _ t => hnone t

end Site

namespace World

variable {w w' : World FoldingSolver} {f : Formula} {held held' : Multiset Formula}
  {history history' : Nat → History} {α : Type}

/-- A formula of one of the contexts. -/
def Types (w : World FoldingSolver) (f : Formula) : Prop :=
  ∃ (i : Nat) (c : Context), w.contexts[i]? = some c ∧ c.env.Types f

theorem Types.mono (h : w.Types f) (hw : w.Sound held history) (hw' : w'.Sound held' history')
    (he : w'.Extends w) : w'.Types f := by
  obtain ⟨i, c, hc, hf⟩ := h
  obtain ⟨c', hc', hterms⟩ := he.context i c hc
  refine ⟨i, c', hc', hf.mono ?_ hterms⟩
  exact (hw'.context i c' hc').place.trans (hw.context i c hc).place.symm

/-- A formula is of the context that it belongs to. -/
theorem Types.at_owner {c : Context} (h : w.Types f) (hw : w.Sound held history)
    (hc : w.contexts[f.owner]? = some c) : c.env.Types f := by
  obtain ⟨i, c', hc', hf⟩ := h
  obtain rfl : f.owner = i := hf.owner.trans (hw.context i c' hc').place
  cases hc.symm.trans hc'
  exact hf

theorem inEnvironment_types {e : Effect Environment α}
    (made : α → List Formula) (he : ∀ env, e.Ensures env fun a env' => ∀ f ∈ made a, env'.Types f)
    (ctx : Nat) (w : World FoldingSolver) :
    (inEnvironment ctx e).Ensures w fun a w' => ∀ f ∈ made a, w'.Types f := by
  intro a w' hx f hf
  cases hc : w.contexts[ctx]? with
  | none =>
    rw [exec_inEnvironment_none hc] at hx
    cases hx
  | some c =>
    rw [exec_inEnvironment hc, Prod.mk.injEq] at hx
    obtain ⟨ha, rfl⟩ := hx
    refine ⟨ctx, _, (context_setEnvironment hc _ ctx).trans (if_pos rfl), ?_⟩
    exact he c.env a _ (Prod.ext ha rfl) f hf

theorem atStack_types {e : Effect (Site FoldingSolver) α} {id : Nat} {made : α → List Formula}
    (he : ∀ s c, w.stack? id = some s → w.contexts[s.home]? = some c →
      e.Ensures (w.site c s) fun a t => ∀ f ∈ made a, t.env.Types f) :
    (atStack id e).Ensures w fun a w' => ∀ f ∈ made a, w'.Types f := by
  intro a w' hx f hf
  cases hs : w.stack? id with
  | none =>
    rw [exec_atStack_none hs] at hx
    cases hx
  | some s =>
    cases hc : w.contexts[s.home]? with
    | none =>
      rw [exec_atStack_foreign hs hc] at hx
      cases hx
    | some c =>
      rw [exec_atStack hs hc, Prod.mk.injEq] at hx
      obtain ⟨ha, rfl⟩ := hx
      refine ⟨s.home, _, (context_put hc _ s.home).trans (if_pos rfl), ?_⟩
      exact he s c hs hc a _ (Prod.ext ha rfl) f hf

end World

namespace Client

open World

variable {c d : Client}

/-- Whatever wrappers a client obtains. -/
theorem perform_types (op : Operation) (w : World FoldingSolver) :
    op.perform.Ensures w fun fs w' => ∀ f ∈ fs, w'.Types f := by
  have hnone : ∀ w : World FoldingSolver, (pure [] : Effect _ (List Formula)).Ensures w
      fun fs w' => ∀ f ∈ fs, w'.Types f :=
    fun w => .pure fun f hf => (List.not_mem_nil hf).elim
  have hone : ∀ type t (env : Environment),
      (Environment.wrap type t).Ensures env fun f env' => ∀ g ∈ [f], env'.Types g :=
    fun type t env => (Environment.wrap_types type t env).mono fun f _ hf g hg =>
      List.mem_singleton.1 hg ▸ hf
  cases op with
  | wrap ctx type t =>
    exact .bind (inEnvironment_types (fun f => [f]) (hone type t) ctx w) fun f w' hf => .pure hf
  | wrapBool ctx t =>
    refine .bind (inEnvironment_types (fun p => [p.formula]) (fun env => ?_) ctx w)
      fun f w' hf => .pure hf
    exact (Environment.wrapBool_types t env).mono fun f _ hf g hg => List.mem_singleton.1 hg ▸ hf
  | constant ctx type name =>
    exact .bind (.later fun t u => inEnvironment_types (fun f => [f]) (hone type t) ctx u)
      fun f w' hf => .pure hf
  | atStack id operation => exact atStack_types fun _ _ _ _ => Site.perform_types operation _
  | _ => exact .later fun _ w => hnone w

theorem step_types (h : Step c d) (hc : c.Valid) (hheld : ∀ f ∈ c.held, c.world.Types f) :
    ∀ f ∈ d.held, d.world.Types f := by
  obtain ⟨hd, hextends⟩ := step_valid h hc
  have hold : ∀ f ∈ c.held, d.world.Types f :=
    fun f hf => (hheld f hf).mono hc.sound hd.sound hextends
  intro f hf
  cases h with
  | operation _ op =>
    obtain hf | hf := Multiset.mem_add.1 hf
    · rcases hx : op.perform.exec c.world with ⟨x | fs, w'⟩ <;> rw [hx] at hf
      · exact absurd hf (Multiset.notMem_zero f)
      · have htypes := perform_types op c.world fs w' hx f hf
        rwa [after, hx]
    · exact hold f hf
  | clone _ hmem =>
    obtain rfl | hf := Multiset.mem_cons.1 hf
    · exact hold f hmem
    · exact hold f hf
  | drop w g held history => exact hold f (Multiset.mem_cons_of_mem hf)
  | search _ id himportant =>
    obtain hf | hf := Multiset.mem_add.1 hf
    · have htypes : (atStack id (Site.nextModel? _)).Ensures c.world
          fun model w' => ∀ f ∈ Site.literalsOf model, w'.Types f :=
        atStack_types fun s x hs hx => Site.nextModel?_types fun l hl => by
          obtain ⟨hmem, howner⟩ := himportant l hl
          exact (hheld _ hmem).at_owner hc.sound (howner s hs ▸ hx)
      rcases hx : (atStack id (Site.nextModel? _)).exec c.world with ⟨x | model, w'⟩ <;>
        rw [hx] at hf
      · exact absurd hf (Multiset.notMem_zero f)
      · have hmodel := htypes model w' hx f hf
        rwa [search, hx]
    · exact hold f hf
  | block _ negations _ => exact hold f hf

/-- What a client holds is of its contexts. -/
theorem Reachable.types (hc : Reachable c) : ∀ f ∈ c.held, c.world.Types f := by
  induction hc with
  | refl => exact fun f hf => absurd hf (Multiset.notMem_zero f)
  | tail hrun hstep ih => exact step_types hstep (run_valid hrun valid_start).1 ih

end Client
end FormulaStack
