import FormulaStack.Proofs.Parallels

/-!
The managers of two environments of one backend. From formulas that are alike they make formulas
that are alike, or refuse them for one reason.
-/
namespace FormulaStack

open Environment

variable {env env' : Environment} {f f' g g' h h' : Formula} {t t' u u' : Term}

/-! Truth values -/

theorem Junction.grows_build (j : Junction) (ts : List Term) : (j.build ts).Grows := by
  cases j with
  | and => exact .and ts
  | or => exact .or ts

namespace Boolean

variable {p p' q q' r r' : BoolFormula}

theorem factored?_continues (j : Junction) (t u : Term) :
    Effect.Within Continues (factored? j t u) := by
  refine .bind (.ask _) fun left => .bind (.ask _) fun right => ?_
  split
  · split
    · exact .pure _
    · refine .bind (.ask _) fun ts => .bind (.ask _) fun us => ?_
      split
      · split
        · exact .bind (build_continues (j.grows_build _)) fun _ =>
            .bind (build_continues (Junction.grows_build _ _)) fun _ => .pure _
        · exact .pure _
      · exact .pure _
  · exact .pure _

theorem binary_continues (j : Junction) (t u : Term) : Effect.Within Continues (binary j t u) := by
  refine .bind (factored?_continues j t u) fun v => ?_
  cases v with
  | some v => exact wrapBool_continues v
  | none => exact .bind (build_continues (j.grows_build _)) fun v => wrapBool_continues v

theorem copy_continues (p : BoolFormula) : Effect.Within Continues p.copy :=
  .bind (.update fun _ => retain_continues _ _) fun _ => .pure _

theorem junction_continues (j : Junction) (p q : BoolFormula) :
    Effect.Within Continues (junction j p q) := by
  refine .bind (.ask _) fun t => .bind (.ask _) fun u => ?_
  split
  · exact copy_continues p
  · refine .bind (.ask _) fun k => ?_
    split
    · exact copy_continues p
    · refine .bind (.ask _) fun l => ?_
      split
      · exact copy_continues q
      · exact binary_continues j t u

theorem constant_continues (b : Bool) : Effect.Within Continues (constant b) :=
  .bind (build_continues (.truth b)) fun t => wrapBool_continues t

theorem gather_continues (j : Junction) (seen : List Term) (ps : List BoolFormula) :
    Effect.Within Continues (gather j seen ps) := by
  induction ps generalizing seen with
  | nil => exact .pure _
  | cons p ps ih =>
    refine .bind (.ask _) fun t => .bind (.ask _) fun k => ?_
    split
    · exact .pure _
    · split <;> exact ih _

theorem nary_continues (j : Junction) (ps : List BoolFormula) :
    Effect.Within Continues (nary j ps) := by
  refine .bind (gather_continues j [] ps) fun gathered => ?_
  split
  · exact copy_continues _
  · exact constant_continues _
  · exact wrapBool_continues _
  · exact binary_continues j _ _
  · exact .bind (build_continues (j.grows_build _)) fun t => wrapBool_continues t

/-- Work that computes one tree in both environments. -/
theorem alike_of_computes {e e' : Effect Environment BoolFormula} {r : Except Fault Tree}
    (he : Effect.Within Continues e) (he' : Effect.Within Continues e')
    (h : Computes env Reads e (do return .own (← r)))
    (h' : Computes env' Reads e' (do return .own (← r))) : RunsAlike BoolsAlike e e' env env' := by
  refine ⟨he env, he' env', ?_⟩
  cases r with
  | error x =>
    obtain ⟨env₁, hx, -⟩ := h.exists_error
    obtain ⟨env₁', hx', -⟩ := h'.exists_error
    rw [hx, hx']
    exact .error x
  | ok x =>
    obtain ⟨p, env₁, hx, -, howner, hp, hbool⟩ := h.exists_ok
    obtain ⟨p', env₁', hx', -, howner', hp', -⟩ := h'.exists_ok
    rw [hx, hx']
    refine .ok ⟨howner, howner', p'.isBoolean.trans p.isBoolean.symm, x, hp, hp', ?_⟩
    rw [p.isBoolean, hbool]
    rfl

theorem exists_reads (hp : BoolsAlike env env' p p') :
    ∃ x, env.Reads p (.own x) ∧ env'.Reads p' (.own x) := by
  obtain ⟨x, hx, hx', haccepts⟩ := hp.term
  rw [p.isBoolean] at haccepts
  have hbool : x.sort = .bool := by
    obtain hsort | ⟨hrational, -⟩ := FormulaType.accepts_iff.1 haccepts
    · exact TermSort.type_injective hsort.symm
    · cases hrational
  exact ⟨x, ⟨hp.owner, hx, hbool⟩, hp.owner', hx', hbool⟩

section

variable (hb : env.Beside env')
include hb

theorem constant_alike (b : Bool) : RunsAlike BoolsAlike (constant b) (constant b) env env' :=
  .construct_wrapBool (.truth b) (.truth b) hb (.truth hb.left.wellFormed hb.right.wellFormed b)

theorem not_alike (hp : BoolsAlike env env' p p') :
    RunsAlike BoolsAlike (Boolean.not p) (Boolean.not p') env env' := by
  have ht := hp.terms
  have hnegation : RunsAlike BoolsAlike (do wrapBool (← build (Build.not p.term)))
      (do wrapBool (← build (Build.not p'.term))) env env' :=
    .construct_wrapBool (.not p.term) (.not p'.term) hb
      (.connective hb.left.wellFormed hb.right.wellFormed .not nofun (.cons ht .nil))
  refine .unwrap_bind hp (.ask_same_bind (ht.kind_eq hb) fun k =>
    .ask_bind (ht.children hb) fun ts ts' hts => ?_)
  cases k with
  | not =>
    cases hts with
    | nil => exact hnegation
    | cons hoperand _ => exact .wrapBool hb hoperand
  | _ => exact hnegation

theorem junction_alike (j : Junction) (hp : BoolsAlike env env' p p')
    (hq : BoolsAlike env env' q q') :
    RunsAlike BoolsAlike (junction j p q) (junction j p' q') env env' := by
  obtain ⟨x, hx, hx'⟩ := exists_reads hp
  obtain ⟨y, hy, hy'⟩ := exists_reads hq
  exact alike_of_computes (r := .ok (Tree.junction j x y)) (junction_continues j p q)
    (junction_continues j p' q') (computes_joined j hb.left.proper hx hy)
    (computes_joined j hb.right.proper hx' hy')

theorem nary_alike (j : Junction) {ps ps' : List BoolFormula}
    (hps : List.Forall₂ (BoolsAlike env env') ps ps') :
    RunsAlike BoolsAlike (nary j ps) (nary j ps') env env' := by
  obtain ⟨rs, hrs, hrs'⟩ : ∃ rs, env.ReadsAll ps rs ∧ env'.ReadsAll ps' rs := by
    induction hps with
    | nil => exact ⟨[], .nil, .nil⟩
    | cons hp _ ih =>
      obtain ⟨x, hx, hx'⟩ := exists_reads hp
      obtain ⟨rs, hrs, hrs'⟩ := ih
      exact ⟨.own x :: rs, .cons hx hrs, .cons hx' hrs'⟩
  exact alike_of_computes (nary_continues j ps) (nary_continues j ps')
    (computes_nary j hb.left.proper hrs) (computes_nary j hb.right.proper hrs')

theorem iff_alike (hp : BoolsAlike env env' p p') (hq : BoolsAlike env env' q q') :
    RunsAlike BoolsAlike (iff p q) (iff p' q') env env' :=
  .unwrap_bind hp (.unwrap_bind hq (.construct_wrapBool (.iff _ _) (.iff _ _) hb
    (.connective hb.left.wellFormed hb.right.wellFormed .iff nofun
      (.cons hp.terms (.cons hq.terms .nil)))))

theorem implies_alike (hp : BoolsAlike env env' p p') (hq : BoolsAlike env env' q q') :
    RunsAlike BoolsAlike (implies p q) (implies p' q') env env' :=
  .unwrap_bind hp (.unwrap_bind hq (.construct_wrapBool (.implies _ _) (.implies _ _) hb
    (.connective hb.left.wellFormed hb.right.wellFormed .implies nofun
      (.cons hp.terms (.cons hq.terms .nil)))))

theorem xor_alike (hp : BoolsAlike env env' p p') (hq : BoolsAlike env env' q q') :
    RunsAlike BoolsAlike (xor p q) (xor p' q') env env' := by
  refine .unwrap_bind hp (.unwrap_bind hq ?_)
  refine .bind hb (.construct (.iff _ _) (.iff _ _) hb
    (.connective hb.left.wellFormed hb.right.wellFormed .iff nofun
      (.cons hp.terms (.cons hq.terms .nil)))) fun _ _ _ _ _ _ hb₁ ht => ?_
  exact .construct_wrapBool (.not _) (.not _) hb₁
    (.connective hb₁.left.wellFormed hb₁.right.wellFormed .not nofun (.cons ht .nil))

theorem choice_alike (hp : BoolsAlike env env' p p') (hf : FormulasAlike env env' f f')
    (hg : FormulasAlike env env' g g') :
    RunsAlike TermsAlike (choice p f g) (choice p' f' g') env env' := by
  unfold choice
  rw [hf.type, hg.type]
  dsimp only
  split
  · exact .throw_bind _
  · exact .unwrap_bind hp (.unwrap_bind hf (.unwrap_bind hg (.construct (.ite _ _ _) (.ite _ _ _) hb
      (.ite hb.left.wellFormed hb.right.wellFormed hp.terms hf.terms hg.terms))))

theorem ite_alike (hp : BoolsAlike env env' p p') (hf : FormulasAlike env env' f f')
    (hg : FormulasAlike env env' g g') :
    RunsAlike FormulasAlike (ite p f g) (ite p' f' g') env env' := by
  unfold ite
  rw [hf.type]
  exact .bind hb (choice_alike hb hp hf hg) fun _ _ _ _ _ _ hb₁ ht => .wrap _ hb₁ ht

theorem iteBool_alike (hp : BoolsAlike env env' p p') (hq : BoolsAlike env env' q q')
    (hr : BoolsAlike env env' r r') :
    RunsAlike BoolsAlike (iteBool p q r) (iteBool p' q' r') env env' :=
  .bind hb (choice_alike hb hp hq hr) fun _ _ _ _ _ _ hb₁ ht => .wrapBool hb₁ ht

end

end Boolean

/-! Integers and rationals -/

namespace Numeral

variable (hb : env.Beside env') (d : NumberDomain)
include hb

theorem widened_alike (type : FormulaType) (ht : TermsAlike env env' t t') :
    RunsAlike TermsAlike (widened type t) (widened type t') env env' := by
  refine .ask_same_bind (ht.typeOf_eq hb) fun actual => ?_
  split
  · refine .look_bind ?_
    rw [hb.theories]
    split
    · exact .construct (.toReal t) (.toReal t') hb
        (.toReal hb.left.wellFormed hb.right.wellFormed ht)
    · exact .throw_bind _
  · exact .pure ht

theorem operand_alike (hf : FormulasAlike env env' f f') :
    RunsAlike TermsAlike (operand d f) (operand d f') env env' := by
  unfold operand
  rw [hf.type]
  dsimp only
  split
  · exact .unwrap_bind hf (widened_alike hb d.type hf.terms)
  · exact .throw_bind _

theorem operands_alike {fs fs' : List Formula} (h : List.Forall₂ (FormulasAlike env env') fs fs') :
    RunsAlike AllAlike (fs.mapM (operand d)) (fs'.mapM (operand d)) env env' :=
  .mapM (R := TermsAlike) (P := FormulasAlike) (fun hb hl hr ht => ht.evolve hb hl hr)
    (fun hb hl hr hf => hf.evolve hb hl hr) (fun hb hf => operand_alike hb d hf) hb h

theorem constant_alike (value : Rat) :
    RunsAlike FormulasAlike (constant d value) (constant d value) env env' := by
  unfold constant
  dsimp only
  split
  · exact .throw_bind _
  · exact .ask_same_bind (congrFun hb.sortOf _) fun k => .construct_wrap (.numeral value k)
      (.numeral value k) _ hb (.numeral hb.left.wellFormed hb.right.wellFormed value k)

theorem read_alike (text : String) :
    RunsAlike FormulasAlike (read d text) (read d text) env env' := by
  unfold read
  cases Text.number? text with
  | some value => exact constant_alike hb d value
  | none => exact .throw _

theorem neg_alike (hf : FormulasAlike env env' f f') :
    RunsAlike FormulasAlike (neg d f) (neg d f') env env' :=
  .bind hb (operand_alike hb d hf) fun _ _ _ _ _ _ hb₁ ht => .construct_wrap (.neg _) (.neg _) _ hb₁
    (.arith hb₁.left.wellFormed hb₁.right.wellFormed .neg (.cons ht .nil))

theorem sum_alike {fs fs' : List Formula} (h : List.Forall₂ (FormulasAlike env env') fs fs') :
    RunsAlike FormulasAlike (sum d fs) (sum d fs') env env' := by
  cases h with
  | nil => exact constant_alike hb d 0
  | cons hf hfs =>
    cases hfs with
    | nil => exact .bind hb (operand_alike hb d hf) fun _ _ _ _ _ _ hb₁ ht => .wrap _ hb₁ ht
    | cons hg hfs =>
      exact .bind hb (operands_alike hb d (.cons hf (.cons hg hfs))) fun _ _ _ _ _ _ hb₁ hts =>
        .construct_wrap (.add _) (.add _) _ hb₁
          (.arith hb₁.left.wellFormed hb₁.right.wellFormed .add hts)

omit hb in
/-- The operands of an operator over two. -/
theorem pair_alike {α β : Type} {S : Environment → Environment → α → β → Prop}
    {k : Term → Term → Effect Environment α} {k' : Term → Term → Effect Environment β}
    (hb : env.Beside env') (hf : FormulasAlike env env' f f') (hg : FormulasAlike env env' g g')
    (hk : ∀ {env env' t t' u u'}, env.Beside env' → TermsAlike env env' t t' →
      TermsAlike env env' u u' → RunsAlike S (k t u) (k' t' u') env env') :
    RunsAlike S (do k (← operand d f) (← operand d g)) (do k' (← operand d f') (← operand d g'))
      env env' :=
  .bind hb (operand_alike hb d hf) fun _ _ _ _ hl hr hb₁ ht =>
    .bind hb₁ (operand_alike hb₁ d (hg.evolve hb hl hr)) fun _ _ _ _ hl₁ hr₁ hb₂ hu =>
      hk hb₂ (ht.evolve hb₁ hl₁ hr₁) hu

theorem sub_alike (hf : FormulasAlike env env' f f') (hg : FormulasAlike env env' g g') :
    RunsAlike FormulasAlike (sub d f g) (sub d f' g') env env' :=
  pair_alike d hb hf hg fun hb ht hu => .construct_wrap (.sub _ _) (.sub _ _) _ hb
    (.arith hb.left.wellFormed hb.right.wellFormed .sub (.cons ht (.cons hu .nil)))

theorem mul_alike (hf : FormulasAlike env env' f f') (hg : FormulasAlike env env' g g') :
    RunsAlike FormulasAlike (mul d f g) (mul d f' g') env env' :=
  pair_alike d hb hf hg fun hb ht hu => .construct_wrap (.mul _ _) (.mul _ _) _ hb
    (.arith hb.left.wellFormed hb.right.wellFormed .mul (.cons ht (.cons hu .nil)))

theorem div_alike (hf : FormulasAlike env env' f f') (hg : FormulasAlike env env' g g') :
    RunsAlike FormulasAlike (div d f g) (div d f' g') env env' :=
  pair_alike d hb hf hg fun hb ht hu => .construct_wrap (.divide _ _) (.divide _ _) _ hb
    (.divide hb.left.wellFormed hb.right.wellFormed ht hu)

theorem mod_alike (hf : FormulasAlike env env' f f') (hg : FormulasAlike env env' g g') :
    RunsAlike FormulasAlike (mod d f g) (mod d f' g') env env' := by
  unfold mod
  dsimp only
  split
  · exact .throw_bind _
  · exact pair_alike d hb hf hg fun hb ht hu => .construct_wrap (.modulo _ _) (.modulo _ _) _ hb
      (.modulo hb.left.wellFormed hb.right.wellFormed ht hu)

theorem eq_alike (hf : FormulasAlike env env' f f') (hg : FormulasAlike env env' g g') :
    RunsAlike BoolsAlike (eq d f g) (eq d f' g') env env' :=
  pair_alike d hb hf hg fun hb ht hu => .construct_wrapBool (.eq _ _) (.eq _ _) hb
    (.eq hb.left.wellFormed hb.right.wellFormed ht hu)

theorem compare_alike (op : ArithOp) (hop : op ∈ [.lt, .le, .gt, .ge])
    (hf : FormulasAlike env env' f f') (hg : FormulasAlike env env' g g') :
    RunsAlike BoolsAlike (relation d (Build.compare op) f g) (relation d (Build.compare op) f' g')
      env env' :=
  pair_alike d hb hf hg fun hb ht hu => .construct_wrapBool (.compare op hop _ _)
    (.compare op hop _ _) hb (.compare hb.left.wellFormed hb.right.wellFormed op ht hu)

theorem distinct_alike {fs fs' : List Formula} (h : List.Forall₂ (FormulasAlike env env') fs fs') :
    RunsAlike BoolsAlike (distinct d fs) (distinct d fs') env env' := by
  unfold distinct
  rw [show fs'.length = fs.length from h.length_eq.symm]
  split
  · exact Boolean.constant_alike hb true
  · exact .bind hb (operands_alike hb d h) fun _ _ _ _ _ _ hb₁ hts =>
      .construct_wrapBool (.distinct _) (.distinct _) hb₁
        (.distinct hb₁.left.wellFormed hb₁.right.wellFormed hts)

end Numeral

/-! Functions -/

/-- Functions of one name and types, over declarations of one signature. -/
structure Environment.FunctionsAlike (env env' : Environment) (d d' : FunctionDeclaration) :
    Prop where
  name : d'.name = d.name
  arguments : d'.arguments = d.arguments
  result : d'.result = d.result
  owner : d.owner = env.id
  owner' : d'.owner = env'.id
  decl : ∃ signature, env.terms.decl? d.decl = some signature ∧
    env'.terms.decl? d'.decl = some signature

namespace Functions

variable (hb : env.Beside env')
include hb

theorem arguments_alike {fs fs' : List Formula} (h : List.Forall₂ (FormulasAlike env env') fs fs')
    (types : List FormulaType) :
    RunsAlike AllAlike (arguments fs types) (arguments fs' types) env env' := by
  induction fs generalizing fs' types env env' with
  | nil =>
    cases h
    exact .pure .nil
  | cons f fs ih =>
    cases h with
    | @cons _ f' _ fs' hf hfs =>
      cases types with
      | nil => exact .pure .nil
      | cons type types =>
        unfold arguments
        rw [hf.type]
        dsimp only
        split
        · refine .unwrap_bind hf (.bind hb (Numeral.widened_alike hb type hf.terms)
            fun t t' env₁ env₁' hl hr hb₁ ht => ?_)
          have hfs₁ := allFormulasAlike_evolve hb hl hr hfs
          refine .bind hb₁ (ih hb₁ hfs₁ types) fun ts ts' env₂ env₂' hl₂ hr₂ hb₂ hts => ?_
          exact .pure (.cons (ht.evolve hb₁ hl₂ hr₂) hts)
        · exact .throw_bind _

theorem apply_alike {d d' : FunctionDeclaration} (hd : FunctionsAlike env env' d d')
    {fs fs' : List Formula} (h : List.Forall₂ (FormulasAlike env env') fs fs') :
    RunsAlike FormulasAlike (apply d fs) (apply d' fs') env env' := by
  refine .look_bind ?_
  rw [if_neg (not_not.2 hd.owner), if_neg (not_not.2 hd.owner'), hd.arguments, hd.name, hd.result,
    show fs'.length = fs.length from h.length_eq.symm]
  split
  · exact .throw_bind _
  · refine .bind hb (arguments_alike hb h d.arguments) fun ts ts' _ _ hl hr hb₁ hts => ?_
    obtain ⟨signature, hs, hs'⟩ := hd.decl
    exact .construct_wrap (.apply _ _) (.apply _ _) _ hb₁ (.apply hb₁.left.wellFormed
      hb₁.right.wellFormed (hl.terms.extension.decl? _ _ hs) (hr.terms.extension.decl? _ _ hs') hts)

end Functions

/-! Arrays -/

namespace Arrays

theorem types_bind {α β : Type} {S : Environment → Environment → α → β → Prop}
    {k : FormulaType × FormulaType → Effect Environment α}
    {k' : FormulaType × FormulaType → Effect Environment β} (hf : FormulasAlike env env' f f')
    (hk : ∀ types, RunsAlike S (k types) (k' types) env env') :
    RunsAlike S (types f >>= k) (types f' >>= k') env env' := by
  unfold types
  rw [hf.type]
  cases f.type.arrayTypes? with
  | some types => exact hk types
  | none => exact .throw_bind _

theorem ofType_bind {α β : Type} {S : Environment → Environment → α → β → Prop}
    {k : Term → Effect Environment α} {k' : Term → Effect Environment β} (type : FormulaType)
    (hf : FormulasAlike env env' f f') (hk : RunsAlike S (k f.term) (k' f'.term) env env') :
    RunsAlike S (ofType type f >>= k) (ofType type f' >>= k') env env' := by
  unfold ofType
  rw [hf.type]
  dsimp only
  split
  · exact .throw_bind _
  · exact .unwrap_bind hf hk

variable (hb : env.Beside env')
include hb

theorem constant_alike (index : FormulaType) (hf : FormulasAlike env env' f f') :
    RunsAlike FormulasAlike (constant index f) (constant index f') env env' := by
  refine .ask_same_bind (congrFun hb.sortOf _) fun k => .unwrap_bind hf ?_
  rw [hf.type]
  exact .construct_wrap (.constArray k _) (.constArray k _) _ hb
    (.constArray hb.left.wellFormed hb.right.wellFormed k hf.terms)

theorem select_alike (hf : FormulasAlike env env' f f') (hg : FormulasAlike env env' g g') :
    RunsAlike FormulasAlike (select f g) (select f' g') env env' :=
  types_bind hf fun types => .unwrap_bind hf (ofType_bind types.1 hg
    (.construct_wrap (.select _ _) (.select _ _) _ hb
      (.select hb.left.wellFormed hb.right.wellFormed hf.terms hg.terms)))

theorem store_alike (hf : FormulasAlike env env' f f') (hg : FormulasAlike env env' g g')
    (hh : FormulasAlike env env' h h') :
    RunsAlike FormulasAlike (store f g h) (store f' g' h') env env' := by
  refine types_bind hf fun types => .unwrap_bind hf (ofType_bind types.1 hg
    (ofType_bind types.2 hh ?_))
  rw [hf.type]
  exact .construct_wrap (.store _ _ _) (.store _ _ _) _ hb
    (.store hb.left.wellFormed hb.right.wellFormed hf.terms hg.terms hh.terms)

theorem eq_alike (hf : FormulasAlike env env' f f') (hg : FormulasAlike env env' g g') :
    RunsAlike BoolsAlike (eq f g) (eq f' g') env env' := by
  refine types_bind hf fun _ => .unwrap_bind hf ?_
  rw [hf.type]
  exact ofType_bind f.type hg (.construct_wrapBool (.eq _ _) (.eq _ _) hb
    (.eq hb.left.wellFormed hb.right.wellFormed hf.terms hg.terms))

end Arrays

/-! Bit-vectors -/

namespace Bitvector

theorem width_bind {α β : Type} {S : Environment → Environment → α → β → Prop}
    {k : Nat → Effect Environment α} {k' : Nat → Effect Environment β}
    (hf : FormulasAlike env env' f f') (hk : ∀ w, RunsAlike S (k w) (k' w) env env') :
    RunsAlike S (width f >>= k) (width f' >>= k') env env' := by
  unfold width
  rw [hf.type]
  cases f.type.bitvectorWidth? with
  | some w => exact hk w
  | none => exact .throw_bind _

variable (hb : env.Beside env')
include hb

theorem operands_bind {α β : Type} {S : Environment → Environment → α → β → Prop}
    {k : Nat × Term × Term → Effect Environment α} {k' : Nat × Term × Term → Effect Environment β}
    (hf : FormulasAlike env env' f f') (hg : FormulasAlike env env' g g')
    (hk : ∀ w, RunsAlike S (k (w, f.term, g.term)) (k' (w, f'.term, g'.term)) env env') :
    RunsAlike S (operands f g >>= k) (operands f' g' >>= k') env env' := by
  have hoperands : RunsAlike (fun e e' r r' => (e = env ∧ e' = env') ∧ r'.1 = r.1 ∧
      (r.2 = (f.term, g.term) ∧ r'.2 = (f'.term, g'.term))) (operands f g) (operands f' g')
      env env' := by
    refine width_bind hf fun w => width_bind hg fun v => ?_
    rw [hf.type, hg.type]
    split
    · exact .throw_bind _
    · exact .unwrap_bind hf (.unwrap_bind hg (.pure ⟨⟨rfl, rfl⟩, rfl, rfl, rfl⟩))
  refine .bind hb hoperands fun r r' _ _ _ _ _ hr => ?_
  obtain ⟨w, ts⟩ := r
  obtain ⟨w', ts'⟩ := r'
  obtain ⟨⟨rfl, rfl⟩, hw, hts, hts'⟩ := hr
  dsimp only at hw hts hts'
  rw [hw, hts, hts']
  exact hk w

theorem constant_alike (width : Nat) (value : Int) :
    RunsAlike FormulasAlike (constant width value) (constant width value) env env' :=
  .construct_wrap (.bits value width) (.bits value width) _ hb
    (.bits hb.left.wellFormed hb.right.wellFormed value width)

theorem unary_alike (op : BitOp) (hop : op ∈ [.not, .neg]) (hf : FormulasAlike env env' f f') :
    RunsAlike FormulasAlike (unary op f) (unary op f') env env' :=
  width_bind hf fun _ => .unwrap_bind hf (.construct_wrap (.bitUnary op hop _) (.bitUnary op hop _)
    _ hb (.bitwise hb.left.wellFormed hb.right.wellFormed op hf.terms .nil))

theorem binary_alike (op : BitOp) (hop : op ∉ [.not, .neg, .concat])
    (hf : FormulasAlike env env' f f') (hg : FormulasAlike env env' g g') :
    RunsAlike FormulasAlike (binary op f g) (binary op f' g') env env' :=
  operands_bind hb hf hg fun _ => .construct_wrap (.bitBinary op hop _ _)
    (.bitBinary op hop _ _) _ hb
    (.bitwise hb.left.wellFormed hb.right.wellFormed op hf.terms (.cons hg.terms .nil))

/-- A predicate over two operands. -/
theorem predicate_alike (op : BitOp) (hop : op ∉ [.not, .neg, .concat])
    (hf : FormulasAlike env env' f f') (hg : FormulasAlike env env' g g') :
    RunsAlike BoolsAlike
      (do let (_, t, u) ← operands f g; wrapBool (← build (Build.bitwise op t [u])))
      (do let (_, t, u) ← operands f' g'; wrapBool (← build (Build.bitwise op t [u]))) env env' :=
  operands_bind hb hf hg fun _ => .construct_wrapBool (.bitBinary op hop _ _)
    (.bitBinary op hop _ _) hb
    (.bitwise hb.left.wellFormed hb.right.wellFormed op hf.terms (.cons hg.terms .nil))

theorem less_alike (signed : Bool) (hf : FormulasAlike env env' f f')
    (hg : FormulasAlike env env' g g') :
    RunsAlike BoolsAlike (less signed f g) (less signed f' g') env env' :=
  predicate_alike hb (if signed then .slt else .ult) (by cases signed <;> simp) hf hg

theorem lessOrEqual_alike (signed : Bool) (hf : FormulasAlike env env' f f')
    (hg : FormulasAlike env env' g g') :
    RunsAlike BoolsAlike (lessOrEqual signed f g) (lessOrEqual signed f' g') env env' :=
  predicate_alike hb (if signed then .sle else .ule) (by cases signed <;> simp) hf hg

theorem eq_alike (hf : FormulasAlike env env' f f') (hg : FormulasAlike env env' g g') :
    RunsAlike BoolsAlike (eq f g) (eq f' g') env env' :=
  operands_bind hb hf hg fun _ => .construct_wrapBool (.eq _ _) (.eq _ _) hb
    (.eq hb.left.wellFormed hb.right.wellFormed hf.terms hg.terms)

theorem concat_alike (hf : FormulasAlike env env' f f') (hg : FormulasAlike env env' g g') :
    RunsAlike FormulasAlike (concat f g) (concat f' g') env env' :=
  width_bind hf fun _ => width_bind hg fun _ => .unwrap_bind hf (.unwrap_bind hg
    (.construct_wrap (.concat _ _) (.concat _ _) _ hb
      (.concat hb.left.wellFormed hb.right.wellFormed hf.terms hg.terms)))

theorem extract_alike (high low : Nat) (hf : FormulasAlike env env' f f') :
    RunsAlike FormulasAlike (extract f high low) (extract f' high low) env env' := by
  refine width_bind hf fun w => ?_
  rw [hf.type]
  split
  · exact .throw_bind _
  · exact .unwrap_bind hf (.construct_wrap (.extract high low _) (.extract high low _) _ hb
      (.extract hb.left.wellFormed hb.right.wellFormed high low hf.terms))

end Bitvector

/-! Quantifiers -/

/-- What looks like a free constant is one. -/
theorem Environment.Shows.exists_constant {x : Tree} (hx : env.Shows t x) (henv : env.Proper)
    (hk : x.kind = .variable) : ∃ signature : Signature, x = signature.constant := by
  obtain ⟨n, hn, hl, hsort, -⟩ := hx.node henv
  obtain ⟨ks, -, hfit⟩ := henv.wellFormed.fits hn
  obtain ⟨l, k, xs⟩ := x
  cases l with
  | op o =>
    have ho : o = n.op := Store.label_eq_op hfit hl
    cases o with
    | apply d =>
      rw [← ho] at hfit hl
      obtain ⟨name, hd⟩ := hfit
      simp [Store.label, hd, Tree.label] at hl
    | _ => simp [Tree.kind, Tree.label, Node.kind] at hk
  | apply f =>
    obtain ⟨d, hop, hd⟩ := Store.label_eq_apply hl
    rw [hop] at hfit
    obtain ⟨name, hd'⟩ := hfit
    rw [hd] at hd'
    have hrange : f.range = n.sort := by rw [Option.some.inj hd']
    cases xs with
    | nil => exact ⟨f, by rw [Signature.constant, hrange, hsort]; rfl⟩
    | cons _ _ => simp [Tree.kind, Tree.label, Tree.args] at hk

namespace Quantified

/-- The same constant in two environments. -/
def ConstantsAlike (env env' : Environment) (t t' : Term) : Prop :=
  ∃ signature : Signature, env.terms.tree? t = some signature.constant ∧
    env'.terms.tree? t' = some signature.constant

theorem ConstantsAlike.exists_unfolds {ts ts' : List Term}
    (hts : List.Forall₂ (ConstantsAlike env env') ts ts') :
    ∃ signatures : List Signature, env.terms.Unfolds ts (signatures.map Signature.constant) ∧
      env'.terms.Unfolds ts' (signatures.map Signature.constant) := by
  obtain ⟨signatures, hxs, hxs'⟩ := exists_of_forall₂_comp hts
  exact ⟨signatures, List.forall₂_map_right_iff.2 hxs.flip, List.forall₂_map_right_iff.2 hxs'.flip⟩

theorem ConstantsAlike.evolve {env₁ env₁' : Environment} (hb : env.Beside env')
    (hl : env.Continues env₁) (hr : env'.Continues env₁') (ht : ConstantsAlike env env' t t') :
    ConstantsAlike env₁ env₁' t t' := by
  obtain ⟨signature, hx, hx'⟩ := ht
  exact ⟨signature, hl.tree? hb.left hx, hr.tree? hb.right hx'⟩

variable (hb : env.Beside env')
include hb

theorem constants_alike {fs fs' : List Formula} (h : List.Forall₂ (FormulasAlike env env') fs fs') :
    RunsAlike (fun env env' => List.Forall₂ (ConstantsAlike env env')) (constants fs)
      (constants fs') env env' := by
  refine .mapM (R := ConstantsAlike) (P := FormulasAlike) (fun hb hl hr ht => ht.evolve hb hl hr)
    (fun hb hl hr hf => hf.evolve hb hl hr) (fun {env env' f f'} hb hf => ?_) hb h
  obtain ⟨x, hx, hx', -⟩ := hf.term
  refine .unwrap_bind hf
    (.ask_bind (P := fun k k' => k = x.kind ∧ k' = x.kind) ?_ fun k k' hk => ?_)
  · rw [Shows.kind hx hb.left.proper, Shows.kind hx' hb.right.proper]
    exact .ok ⟨rfl, rfl⟩
  · rw [hk.1, hk.2]
    split
    · next hvariable =>
      obtain ⟨signature, rfl⟩ := Shows.exists_constant hx hb.left.proper hvariable
      exact .pure ⟨signature, hx, hx'⟩
    · exact .ask_same_bind (hf.terms.dump_eq hb) fun _ => .throw_bind _

theorem quantify_alike (q : Quantifier) {fs fs' : List Formula}
    (h : List.Forall₂ (FormulasAlike env env') fs fs') {p p' : BoolFormula}
    (hp : BoolsAlike env env' p p') :
    RunsAlike BoolsAlike (quantify q fs p) (quantify q fs' p') env env' := by
  refine .bind hb (constants_alike hb h) fun ts ts' env₁ env₁' hl hr hb₁ hts => ?_
  have hp₁ : BoolsAlike env₁ env₁' p p' := FormulasAlike.evolve hb hl hr hp
  obtain ⟨signatures, hxs, hxs'⟩ := ConstantsAlike.exists_unfolds hts
  exact .unwrap_bind hp₁ (.construct_wrapBool (.quantifier q _ _) (.quantifier q _ _) hb₁
    (.quantifier hb₁.left.wellFormed hb₁.right.wellFormed q hxs hxs' hp₁.terms))

theorem body_alike {p p' : BoolFormula} (hp : BoolsAlike env env' p p') :
    RunsAlike BoolsAlike (body p) (body p') env env' := by
  have ht := hp.terms
  refine .unwrap_bind hp (.ask_same_bind (ht.kind_eq hb) fun k =>
    .ask_bind (ht.children hb) fun ts ts' hts => ?_)
  have hrefused : RunsAlike BoolsAlike
      (do throw (.badArgument (.notQuantifier (← .ask (·.terms.dump p.term)))))
      (do throw (.badArgument (.notQuantifier (← .ask (·.terms.dump p'.term))))) env env' :=
    .ask_same_bind (ht.dump_eq hb) fun _ => .throw _
  cases k with
  | quantifier q =>
    cases hts with
    | nil => exact hrefused
    | cons hbody hrest =>
      cases hrest with
      | nil => exact .wrapBool hb hbody
      | cons _ _ => exact hrefused
  | _ => exact hrefused

omit hb in
theorem eliminate_alike {p p' : BoolFormula} (hp : BoolsAlike env env' p p') :
    RunsAlike BoolsAlike (eliminate p) (eliminate p') env env' :=
  .unwrap_bind hp (.throw _)

end Quantified

end FormulaStack
