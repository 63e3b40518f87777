import FormulaStack.FormulaMap
import FormulaStack.Proofs.Readings

/-!
What a boolean view shows of a tree, and what the plain map makes of a view and the images of its
operands.
-/
namespace FormulaStack

open Environment

variable {env : Environment} {f : BoolFormula} {t : Term} {x : Tree}

namespace BoolView

def isAtom : BoolView → Bool
  | .atom _ => Bool.true
  | _ => Bool.false

/-- What a view of `f` says of the label at the root. -/
def Tells (f : BoolFormula) : BoolView → Label → Prop
  | .true, l => l = .op .true
  | .false, l => l = .op .false
  | .atom g, _ => g = f
  | .not _, l => l = .op .not
  | .and _, l => l = .op .and
  | .or _, l => l = .op .or
  | .iff _ _, l => l = .op .iff ∨ l = .op .eq
  | .implies _ _, l => l = .op .implies
  | .ite _ _ _, l => l = .op .ite
  | .quantifier g q _, l => g = f ∧ ∃ vars, l = .op (.quantifier q vars)

end BoolView

namespace Environment

theorem Computes.undoing {α β : Type} {R : Environment → α → β → Prop} {e : Effect Environment α}
    {b : β} (h : Computes env R e (.ok b)) (cleanup : Environment → Environment) :
    Computes env R (e.undoing cleanup) (.ok b) := by
  obtain ⟨a, env₁, hx, ha, hab⟩ := h.exists_ok
  refine .of_exec ?_ ha hab
  rw [Effect.exec_undoing, hx]

theorem computes_wrapAll {ts : List Term} {xs : List Tree} (henv : env.Proper)
    (hts : env.ShowsAll ts xs) (hxs : ∀ x ∈ xs, x.sort = .bool) :
    Computes env ReadsAll (wrapAll wrapBool (·.formula) ts) (.ok (xs.map .own)) := by
  induction ts generalizing xs env with
  | nil =>
    cases hts
    exact .pure .nil
  | cons t ts ih =>
    cases hts with
    | @cons _ x _ xs ht hts =>
      refine (computes_wrapBool henv ht (hxs x (by simp))).bind_ok fun f env₁ ha₁ hf => ?_
      have henv₁ := ha₁.proper henv
      have hrest := ih henv₁ (ShowsAll.advance hts henv ha₁) fun y hy => hxs y (by simp [hy])
      refine (hrest.undoing _).bind_ok fun fs env₂ ha₂ hfs => ?_
      exact .pure (.cons (hf.advance henv₁ ha₂) hfs)

/-- A view shows the operands of a tree. -/
structure Views (f : BoolFormula) (x : Tree) (env : Environment) (v : BoolView) (_ : Unit) :
    Prop where
  atom : v.isAtom = x.isAtom
  tells : v.Tells f x.label
  operands : env.ReadsAll v.operands (x.operands.map .own)

theorem computes_operandsOf (henv : env.Proper) (h : env.Shows t x)
    (hargs : ∀ y ∈ x.args, y.sort = .bool) :
    Computes env ReadsAll (BoolFormula.operandsOf t) (.ok (x.args.map .own)) := by
  obtain ⟨ts, hts, hall⟩ := h.children henv
  exact .ask_bind hts (computes_wrapAll henv hall hargs)

/-- As many formulas as readings, for a view of so many operands. -/
theorem ReadsAll.length_eq {fs : List BoolFormula} {rs : List Reading} (h : env.ReadsAll fs rs) :
    fs.length = rs.length :=
  List.Forall₂.length_eq h

/-- A view of all arguments. -/
theorem views_of_args {v : BoolView} {fs : List BoolFormula} (ha : x.isAtom = false)
    (hr : x.isRefused = false) (hv : v.isAtom = false) (ht : v.Tells f x.label)
    (hfs : env.ReadsAll fs (x.args.map .own)) (ho : v.operands = fs) : Views f x env v () :=
  ⟨hv.trans ha.symm, ht, by rwa [ho, Tree.operands, ha, hr]⟩

theorem views_atom (ha : x.isAtom = true) : Views f x env (.atom f) () := by
  have hnone : x.operands = [] := by simp [Tree.operands, ha]
  refine ⟨ha.symm, rfl, ?_⟩
  rw [hnone]
  exact .nil

theorem not_refused_of_isAtom (ha : x.isAtom = true) : ¬x.isRefused = true := by
  simp [Tree.isRefused, ha]

/-- To view all arguments it is enough to know how many there are. -/
theorem computes_operands {e : List BoolFormula → Effect Environment BoolView} (henv : env.Proper)
    (hf : env.Reads f (.own x)) (ha : x.isAtom = false) (hr : x.isRefused = false)
    (he : ∀ fs : List BoolFormula, fs.length = x.args.length → ∃ v : BoolView, e fs = pure v ∧
      v.isAtom = false ∧ v.Tells f x.label ∧ v.operands = fs) :
    Computes env (Views f x) (BoolFormula.operandsOf f.term >>= e) (.ok ()) := by
  have hboolean : ∀ y ∈ x.args, y.sort = .bool := fun y hy =>
    ((hf.proposition henv).args ha y hy).boolean
  refine (computes_operandsOf henv hf.2.1 hboolean).bind_ok fun fs env₁ _ hfs => ?_
  obtain ⟨v, hv, hva, ht, ho⟩ := he fs (hfs.length_eq.trans (List.length_map _))
  rw [hv]
  exact .pure (views_of_args ha hr hva ht hfs ho)

theorem computes_view_eq (henv : env.Proper) (hf : env.Reads f (.own x))
    (hl : x.label = .op .eq) : Computes env (Views f x) f.view (.ok ()) := by
  obtain ⟨⟨k, hk⟩, -⟩ := (hf.proposition henv).fits hl
  obtain ⟨y, z, hyz, -, -⟩ := map_eq_pair hk
  obtain ⟨ts, hts, hargs⟩ := hf.2.1.children henv
  rw [hyz] at hargs
  obtain ⟨a, b, rfl⟩ := hargs.right_pair
  have hy : env.Shows a y := (List.forall₂_cons.1 hargs).1
  refine .ask_bind (if_pos hf.1) (.ask_bind (hf.2.1.kind henv) ?_)
  rw [Tree.kind_of_op hl]
  refine .ask_bind hts (.ask_bind (hy.typeOf henv) ?_)
  by_cases hb : y.sort = .bool
  · have ha : x.isAtom = false := by simp [Tree.isAtom, hl, hyz, hb]
    have htype : ¬y.sort.type ≠ .boolean := by simp [hb, TermSort.type]
    simp only [if_neg htype]
    refine computes_operands henv hf ha (by simp [Tree.isRefused, hl]) fun fs hlen => ?_
    obtain ⟨g, h, rfl⟩ := List.length_eq_two.1 (hlen.trans (by simp [hyz]))
    exact ⟨.iff g h, rfl, rfl, .inr hl, rfl⟩
  · have ha : x.isAtom = true := by simp [Tree.isAtom, hl, hyz, hb]
    have htype : y.sort.type ≠ .boolean := fun h => hb (TermSort.type_injective h)
    simp only [if_pos htype]
    exact .pure (views_atom ha)

theorem symbolName_distinct (henv : env.Proper) (ht : env.Shows t x)
    (hl : x.label = .op .distinct) : env.terms.symbolName t = .ok "distinct" := by
  obtain ⟨n, hn, hnl, -, -⟩ := ht.node henv
  obtain ⟨_, -, hop⟩ := henv.wellFormed.fits hn
  have hnop : n.op = .distinct := (Store.label_eq_op hop (hnl.trans hl)).symm
  change (env.terms.node t).map _ = _
  simp [Store.node, hn, Except.map, Store.headText, hnop]

theorem computes_view_distinct (henv : env.Proper) (hf : env.Reads f (.own x))
    (hl : x.label = .op .distinct) : Computes env (Views f x) f.view
      (if x.isRefused then .error (.missingOperator (.root "distinct")) else .ok ()) := by
  have hfits := (hf.proposition henv).fits hl
  obtain ⟨ts, hts, hargs⟩ := hf.2.1.children henv
  refine .ask_bind (if_pos hf.1) (.ask_bind (hf.2.1.kind henv) ?_)
  rw [Tree.kind_of_op hl]
  match hxs : x.args, ts, hargs with
  | [], _, _ => exact absurd hfits.1 (by simp [hxs])
  | y :: ys, a :: as, .cons hy _ =>
    refine .ask_bind hts (.ask_bind (Shows.typeOf hy henv) ?_)
    by_cases hb : y.sort = .bool
    · have hr : x.isRefused = true := by simp [Tree.isRefused, Tree.isAtom, hl, hxs, hb]
      have htype : ¬y.sort.type ≠ .boolean := by simp [hb, TermSort.type]
      simp only [if_neg htype, if_pos hr]
      have hname : env.terms.symbolName f.formula.term = .ok "distinct" :=
        symbolName_distinct henv hf.2.1 hl
      refine .look_bind ?_
      rw [hname]
      exact .throw _
    · have ha : x.isAtom = true := by simp [Tree.isAtom, hl, hxs, hb]
      have htype : y.sort.type ≠ .boolean := fun h => hb (TermSort.type_injective h)
      simp only [if_pos htype, if_neg (not_refused_of_isAtom ha)]
      exact .pure (views_atom ha)

/-- A view is refused where no visit can enter. -/
theorem computes_view (henv : env.Proper) (hf : env.Reads f (.own x)) :
    Computes env (Views f x) f.view
      (if x.isRefused then .error (.missingOperator (.root "distinct")) else .ok ()) := by
  -- These two look at the sort of their first operand before they decide.
  by_cases hdistinct : x.label = .op .distinct
  · exact computes_view_distinct henv hf hdistinct
  have hr : x.isRefused = false := by simp [Tree.isRefused, hdistinct]
  rw [if_neg (by simp [hr])]
  by_cases heq : x.label = .op .eq
  · exact computes_view_eq henv hf heq
  refine .ask_bind (if_pos hf.1) (.ask_bind (hf.2.1.kind henv) ?_)
  cases hl : x.label with
  | apply d =>
    have ha : x.isAtom = true := by simp [Tree.isAtom, hl]
    cases hempty : x.args.isEmpty <;> simp only [Tree.kind, hl, hempty] <;>
      exact .pure (views_atom ha)
  | op o =>
    have hfits := (hf.proposition henv).fits hl
    rw [Tree.kind_of_op hl]
    cases o with
    | true | false =>
      refine .pure (views_of_args (by simp [Tree.isAtom, hl]) hr rfl hl ?_ rfl)
      rw [List.map_eq_nil_iff.1 hfits.1]
      exact .nil
    | not =>
      obtain ⟨y, hy, -⟩ := List.map_eq_singleton_iff.1 hfits.1
      refine computes_operands henv hf (by simp [Tree.isAtom, hl]) hr fun fs hlen => ?_
      obtain ⟨a, rfl⟩ := List.length_eq_one_iff.1 (hlen.trans (by simp [hy]))
      exact ⟨.not a, rfl, rfl, hl, rfl⟩
    | and =>
      exact computes_operands henv hf (by simp [Tree.isAtom, hl]) hr fun fs _ =>
        ⟨.and fs, rfl, rfl, hl, rfl⟩
    | or =>
      exact computes_operands henv hf (by simp [Tree.isAtom, hl]) hr fun fs _ =>
        ⟨.or fs, rfl, rfl, hl, rfl⟩
    | iff =>
      obtain ⟨y, z, hyz, -, -⟩ := map_eq_pair hfits.1
      refine computes_operands henv hf (by simp [Tree.isAtom, hl]) hr fun fs hlen => ?_
      obtain ⟨a, b, rfl⟩ := List.length_eq_two.1 (hlen.trans (by simp [hyz]))
      exact ⟨.iff a b, rfl, rfl, .inl hl, rfl⟩
    | implies =>
      obtain ⟨y, z, hyz, -, -⟩ := map_eq_pair hfits.1
      refine computes_operands henv hf (by simp [Tree.isAtom, hl]) hr fun fs hlen => ?_
      obtain ⟨a, b, rfl⟩ := List.length_eq_two.1 (hlen.trans (by simp [hyz]))
      exact ⟨.implies a b, rfl, rfl, hl, rfl⟩
    | ite =>
      obtain ⟨c, as, hcas, -, has⟩ := List.map_eq_cons_iff.1 hfits
      obtain ⟨y, z, hyz, -, -⟩ := map_eq_pair has
      refine computes_operands henv hf (by simp [Tree.isAtom, hl]) hr fun fs hlen => ?_
      obtain ⟨a, b, d, rfl⟩ := List.length_eq_three.1 (hlen.trans (by simp [hcas, hyz]))
      exact ⟨.ite a b d, rfl, rfl, hl, rfl⟩
    | quantifier q vars =>
      obtain ⟨y, hy, -⟩ := List.map_eq_singleton_iff.1 hfits.2.1
      refine computes_operands henv hf (by simp [Tree.isAtom, hl]) hr fun fs hlen => ?_
      obtain ⟨a, rfl⟩ := List.length_eq_one_iff.1 (hlen.trans (by simp [hy]))
      exact ⟨.quantifier f q a, rfl, rfl, ⟨rfl, vars, hl⟩, rfl⟩
    | eq => exact absurd hl heq
    | distinct => exact absurd hl hdistinct
    | apply d => exact absurd hfits (by simp [Operator.Fits])
    | _ => exact .pure (views_atom (by simp [Tree.isAtom, hl]))

end Environment

namespace FormulaMap

variable {τ : Type}

/-- What a map does with a view, once it has the images of the operands. -/
def answer (r : FormulaMap τ) (v : BoolView) (gs : List BoolFormula) : Visit τ BoolFormula :=
  match v, gs with
  | .true, _ => r.onTrue
  | .false, _ => r.onFalse
  | .atom f, _ => r.onAtom f
  | .not _, [g] => r.onNot g
  | .and _, gs => r.onAnd gs
  | .or _, gs => r.onOr gs
  | .iff _ _, [g, h] => r.onIff g h
  | .implies _ _, [g, h] => r.onImplies g h
  | .ite _ _ _, [c, g, h] => r.onIte c g h
  | .quantifier whole _ _, [body] => r.onQuantifier whole body
  | _, _ => throw (.badArgument .noOperands)

/-- The images of the operands are made from left to right, whatever the view. -/
theorem imageOfView_eq (r : FormulaMap τ) (image : BoolFormula → Imaging τ BoolFormula)
    (v : BoolView) :
    r.imageOfView image v =
      withImages image v.operands fun gs => Imaging.inVisit (r.answer v gs) := by
  cases v <;> rfl

/-- The plain map, but for the atoms. -/
def onAtoms (hook : BoolFormula → Visit τ BoolFormula) : FormulaMap τ :=
  { plain with onAtom := hook }

/-- What the plain map makes of a view that is no atom. -/
def remake : BoolView → List BoolFormula → Effect Environment BoolFormula
  | .true, _ => Boolean.constant true
  | .false, _ => Boolean.constant false
  | .not _, [g] => Boolean.not g
  | .and _, gs => Boolean.andAll gs
  | .or _, gs => Boolean.orAll gs
  | .iff _ _, [g, h] => Boolean.iff g h
  | .implies _ _, [g, h] => Boolean.implies g h
  | .ite _ _ _, [c, g, h] => Boolean.iteBool c g h
  | .quantifier whole _ _, [body] => whole.rebuildQuantifier body
  | _, _ => throw (.badArgument .noOperands)

theorem answer_onAtoms (hook : BoolFormula → Visit τ BoolFormula) {v : BoolView}
    {gs : List BoolFormula} (ha : v.isAtom = false) (hlen : v.operands.length = gs.length) :
    (onAtoms hook).answer v gs = Visit.inEnvironment (remake v gs) := by
  cases v with
  | atom g => cases ha
  | true | false | and | or => rfl
  | not | quantifier =>
    obtain ⟨a, rfl⟩ := List.length_eq_one_iff.1 hlen.symm
    rfl
  | iff | implies =>
    obtain ⟨a, b, rfl⟩ := List.length_eq_two.1 hlen.symm
    rfl
  | ite =>
    obtain ⟨a, b, c, rfl⟩ := List.length_eq_three.1 hlen.symm
    rfl

/-- What is made of a view is the connective over what was made of its operands. -/
theorem computes_remake {v : BoolView} {gs : List BoolFormula} {rs : List Reading}
    (henv : env.Proper) (hf : env.Reads f (.own x)) (ha : v.isAtom = false) (hv : v.Tells f x.label)
    (hlen : v.operands.length = gs.length) (hgs : env.ReadsAll gs rs) :
    Computes env Reads (remake v gs) (do return .own (← Tree.combine x.label rs)) := by
  cases v with
  | atom g => cases ha
  | true | false =>
    obtain rfl := List.length_eq_zero_iff.1 hlen.symm
    cases hgs
    rw [show x.label = _ from hv]
    exact computes_constant henv _
  | and | or =>
    rw [show x.label = _ from hv]
    exact computes_nary _ henv hgs
  | not =>
    match gs, rs, hlen, hgs with
    | [g], [r], _, .cons hg .nil =>
      rw [show x.label = _ from hv]
      simpa only [remake, Tree.combine, bind_assoc, pure_bind] using computes_not henv hg
  | quantifier =>
    match gs, rs, hlen, hgs with
    | [g], [r], _, .cons hg .nil =>
      obtain ⟨rfl, vars, hl⟩ := hv
      rw [hl]
      simpa only [remake, Tree.combine, bind_assoc, pure_bind] using computes_rebuild henv hf hl hg
  | iff =>
    match gs, rs, hlen, hgs with
    | [g, h], [r, s], _, .cons hg (.cons hh .nil) =>
      obtain hl | hl := hv <;> rw [hl] <;>
        simpa only [remake, Tree.combine, bind_assoc, pure_bind] using computes_iff henv hg hh
  | implies =>
    match gs, rs, hlen, hgs with
    | [g, h], [r, s], _, .cons hg (.cons hh .nil) =>
      rw [show x.label = _ from hv]
      simpa only [remake, Tree.combine, bind_assoc, pure_bind] using computes_implies henv hg hh
  | ite =>
    match gs, rs, hlen, hgs with
    | [c, g, h], [p, r, s], _, .cons hc (.cons hg (.cons hh .nil)) =>
      rw [show x.label = _ from hv]
      simpa only [remake, Tree.combine, bind_assoc, pure_bind] using computes_ite henv hc hg hh

end FormulaMap
end FormulaStack
