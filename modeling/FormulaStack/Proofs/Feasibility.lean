import FormulaStack.Proofs.Expressions
import FormulaStack.Proofs.Registers
import FormulaStack.Proofs.Runs

/-!
What managers do, clients can do. Each of their steps makes a term, wraps one, or copies a formula
that is at hand, so to build an expression is a run of the client, whatever comes of it.
-/
namespace FormulaStack

open Environment

namespace Environment

variable {α β : Type} {lent : List Formula}

/-- One step in an environment, with the wrappers that its client then holds. -/
inductive Act : Environment × Multiset Formula → Environment × Multiset Formula → Prop
  | build (env : Environment) (held : Multiset Formula) (c : Constructor) :
    Act (env, held) (((build c.build).exec env).2, held)
  | wrap (env : Environment) (held : Multiset Formula) (type : FormulaType) (t : Term) :
    Act (env, held) (((wrap type t).exec env).2,
      World.gained (fun f => {f}) ((wrap type t).exec env).1 + held)
  | wrapBool (env : Environment) (held : Multiset Formula) (t : Term) :
    Act (env, held) (((wrapBool t).exec env).2,
      World.gained (fun f => {f.formula}) ((wrapBool t).exec env).1 + held)
  | copy {env : Environment} {held : Multiset Formula} {f : Formula} (hf : f ∈ held)
    (howner : f.owner = env.id) : Act (env, held) (env.retain f, f ::ₘ held)

/-- Work that a client can do that holds `lent`; what is made it holds, too. -/
def Feasible (lent : List Formula) (e : Effect Environment α) (made : α → List Formula) : Prop :=
  ∀ env held, (∀ f ∈ lent, f ∈ held) →
    ∃ held', Relation.ReflTransGen Act (env, held) ((e.exec env).2, held') ∧ held ≤ held' ∧
      ∀ a, (e.exec env).1 = .ok a → ∀ f ∈ made a, f ∈ held'

namespace Feasible

variable {made : α → List Formula} {e : Effect Environment α}

/-- Work that changes nothing makes nothing that was not there. -/
theorem still (h : ∀ env, (e.exec env).2 = env)
    (hmade : ∀ env a, (e.exec env).1 = .ok a → ∀ f ∈ made a, f ∈ lent) : Feasible lent e made := by
  intro env held hlent
  rw [h]
  exact ⟨held, .refl, le_rfl, fun a ha f hf => hlent f (hmade env a ha f hf)⟩

theorem pure {a : α} (h : ∀ f ∈ made a, f ∈ lent) : Feasible lent (Pure.pure a) made := by
  refine still (fun _ => rfl) fun env b hb => ?_
  cases hb
  exact h

theorem throw (x : Fault) :
    Feasible lent (MonadExcept.throw x : Effect Environment α) made :=
  still (fun _ => rfl) nofun

theorem throw_bind (x : Fault) (k : β → Effect Environment α) :
    Feasible lent ((MonadExcept.throw x : Effect Environment β) >>= k) made :=
  still (fun _ => rfl) nofun

theorem ask (g : Environment → Except Fault α) : Feasible lent (.ask g) fun _ => [] :=
  still (fun _ => rfl) fun _ _ _ _ hf => (List.not_mem_nil hf).elim

theorem look (g : Environment → α) : Feasible lent (.look g) fun _ => [] :=
  still (fun _ => rfl) fun _ _ _ _ hf => (List.not_mem_nil hf).elim

theorem mono {made' : α → List Formula} (h : Feasible lent e made)
    (hmade : ∀ a, ∀ f ∈ made' a, f ∈ made a) : Feasible lent e made' := by
  intro env held hlent
  obtain ⟨held', hacts, hle, hheld⟩ := h env held hlent
  exact ⟨held', hacts, hle, fun a ha f hf => hheld a ha f (hmade a f hf)⟩

theorem bind {made' : β → List Formula} {k : α → Effect Environment β} (h : Feasible lent e made)
    (hk : ∀ a, Feasible (made a ++ lent) (k a) made') : Feasible lent (e >>= k) made' := by
  intro env held hlent
  obtain ⟨held₁, hacts, hle, hheld⟩ := h env held hlent
  rcases hx : e.exec env with ⟨x | a, env₁⟩
  · rw [hx] at hacts
    rw [Effect.exec_bind_error hx]
    exact ⟨held₁, hacts, hle, nofun⟩
  · rw [hx] at hacts hheld
    have hlent₁ : ∀ f ∈ made a ++ lent, f ∈ held₁ := fun f hf =>
      (List.mem_append.1 hf).elim (hheld a rfl f) fun hf => Multiset.mem_of_le hle (hlent f hf)
    obtain ⟨held₂, hacts₂, hle₂, hheld₂⟩ := hk a env₁ held₁ hlent₁
    rw [Effect.exec_bind_ok hx]
    exact ⟨held₂, hacts.trans hacts₂, hle.trans hle₂, hheld₂⟩

/-- One piece of work after the other. -/
theorem mapM {f : β → Effect Environment α} {bs : List β}
    (h : ∀ b ∈ bs, ∀ lent', lent ⊆ lent' → Feasible lent' (f b) made) :
    Feasible lent (bs.mapM f) fun as => as.flatMap made := by
  induction bs generalizing lent with
  | nil => exact .pure (by simp)
  | cons b bs ih =>
    rw [List.mapM_cons]
    refine .bind (h b List.mem_cons_self lent (List.Subset.refl _)) fun a => ?_
    have hrest : ∀ b ∈ bs, ∀ lent', made a ++ lent ⊆ lent' → Feasible lent' (f b) made :=
      fun b hb lent' hlent => h b (List.mem_cons_of_mem _ hb) lent' fun g hg =>
        hlent (List.mem_append_right _ hg)
    refine .bind (ih hrest) fun as => .pure fun f hf => ?_
    simp only [List.flatMap_cons, List.mem_append] at hf ⊢
    tauto

theorem build (c : Constructor) : Feasible lent (build c.build) fun _ => [] :=
  fun env held _ => ⟨held, .single (.build env held c), le_rfl, fun _ _ _ hf =>
    (List.not_mem_nil hf).elim⟩

theorem wrap (type : FormulaType) (t : Term) : Feasible lent (wrap type t) fun f => [f] := by
  refine fun env held _ => ⟨_, .single (.wrap env held type t), le_add_self, fun a ha f hf => ?_⟩
  rw [ha, List.mem_singleton.1 hf]
  exact Multiset.mem_add.2 (.inl (Multiset.mem_singleton_self a))

theorem wrapBool (t : Term) : Feasible lent (wrapBool t) fun f => [f.formula] := by
  refine fun env held _ => ⟨_, .single (.wrapBool env held t), le_add_self, fun a ha f hf => ?_⟩
  rw [ha, List.mem_singleton.1 hf]
  exact Multiset.mem_add.2 (.inl (Multiset.mem_singleton_self a.formula))

/-- A term is made and wrapped. -/
theorem construct_wrap (c : Constructor) (type : FormulaType) :
    Feasible lent (do Environment.wrap type (← Environment.build c.build)) fun f => [f] :=
  .bind (.build c) fun t => .wrap type t

theorem construct_wrapBool (c : Constructor) :
    Feasible lent (do Environment.wrapBool (← Environment.build c.build)) fun f => [f.formula] :=
  .bind (.build c) fun t => .wrapBool t

/-- A copy of a formula that is at hand. -/
theorem copy {p : BoolFormula} (hp : p.formula ∈ lent) :
    Feasible lent p.copy fun q => [q.formula] := by
  intro env held hlent
  have hheld := hlent _ hp
  have hmade : ∀ held' : Multiset Formula, p.formula ∈ held' →
      ∀ a, (p.copy.exec env).1 = .ok a → ∀ f ∈ [a.formula], f ∈ held' := by
    rintro held' hp' a ha f hf
    cases ha
    rwa [List.mem_singleton.1 hf]
  change ∃ held', Relation.ReflTransGen Act (env, held) (env.retain p.formula, held') ∧ _
  by_cases howner : p.formula.owner = env.id
  · exact ⟨_, .single (.copy hheld howner), Multiset.le_cons_self _ _,
      hmade _ (Multiset.mem_cons_self _ _)⟩
  · rw [retain, if_neg howner]
    exact ⟨held, .refl, le_rfl, hmade held hheld⟩

end Feasible
end Environment

variable {lent : List Formula} {f g h : Formula}

/-! Managers -/

namespace Boolean

variable {p q r : BoolFormula}

theorem constant_feasible (b : Bool) : Feasible lent (constant b) fun p => [p.formula] :=
  .construct_wrapBool (.truth b)

theorem not_feasible (p : BoolFormula) : Feasible lent (Boolean.not p) fun p => [p.formula] := by
  refine .bind (.ask _) fun t => .bind (.ask _) fun k => .bind (.ask _) fun ts => ?_
  split
  · exact .wrapBool _
  · exact .construct_wrapBool (.not t)

theorem build_feasible (j : Junction) (ts : List Term) :
    Feasible lent (build (j.build ts)) fun _ => [] := by
  cases j with
  | and => exact .build (.and ts)
  | or => exact .build (.or ts)

theorem factored?_feasible (j : Junction) (t u : Term) :
    Feasible lent (factored? j t u) fun _ => [] := by
  refine .bind (.ask _) fun left => .bind (.ask _) fun right => ?_
  split
  · split
    · exact .pure nofun
    · refine .bind (.ask _) fun ts => .bind (.ask _) fun us => ?_
      split
      · split
        · exact .bind (build_feasible j _) fun _ => .bind (build_feasible _ _) fun _ => .pure nofun
        · exact .pure nofun
      · exact .pure nofun
  · exact .pure nofun

theorem binary_feasible (j : Junction) (t u : Term) :
    Feasible lent (binary j t u) fun p => [p.formula] := by
  refine .bind (factored?_feasible j t u) fun v => ?_
  cases v with
  | some v => exact .wrapBool v
  | none => exact .bind (build_feasible j _) fun v => .wrapBool v

theorem junction_feasible (j : Junction) (hp : p.formula ∈ lent) (hq : q.formula ∈ lent) :
    Feasible lent (junction j p q) fun p => [p.formula] := by
  refine .bind (.ask _) fun t => .bind (.ask _) fun u => ?_
  split
  · exact .copy hp
  · refine .bind (.ask _) fun k => ?_
    split
    · exact .copy hp
    · refine .bind (.ask _) fun l => ?_
      split
      · exact .copy hq
      · exact binary_feasible j t u

/-- What was gathered of formulas, as formulas. -/
def Gathered.formulas : Gathered → List Formula
  | absorbed p => [p.formula]
  | terms _ => []

theorem gather_feasible (j : Junction) (seen : List Term) {ps : List BoolFormula}
    (hps : ∀ p ∈ ps, p.formula ∈ lent) : Feasible lent (gather j seen ps) Gathered.formulas := by
  induction ps generalizing seen with
  | nil => exact .pure nofun
  | cons p ps ih =>
    have ih := fun seen => ih seen fun q hq => hps q (List.mem_cons_of_mem p hq)
    refine .bind (.ask _) fun t => .bind (.ask _) fun k => ?_
    split
    · exact .pure fun f hf => List.mem_singleton.1 hf ▸ hps p List.mem_cons_self
    · split <;> exact ih _

theorem nary_feasible (j : Junction) {ps : List BoolFormula} (hps : ∀ p ∈ ps, p.formula ∈ lent) :
    Feasible lent (nary j ps) fun p => [p.formula] := by
  refine .bind (gather_feasible j [] hps) fun gathered => ?_
  split
  · exact .copy (List.mem_append_left _ (List.mem_singleton_self _))
  · exact constant_feasible _
  · exact .wrapBool _
  · exact binary_feasible j _ _
  · exact .bind (build_feasible j _) fun t => .wrapBool t

theorem iff_feasible (p q : BoolFormula) : Feasible lent (iff p q) fun p => [p.formula] :=
  .bind (.ask _) fun t => .bind (.ask _) fun u => .construct_wrapBool (.iff t u)

theorem implies_feasible (p q : BoolFormula) : Feasible lent (implies p q) fun p => [p.formula] :=
  .bind (.ask _) fun t => .bind (.ask _) fun u => .construct_wrapBool (.implies t u)

theorem xor_feasible (p q : BoolFormula) : Feasible lent (xor p q) fun p => [p.formula] :=
  .bind (.ask _) fun t => .bind (.ask _) fun u => .bind (.build (.iff t u)) fun v =>
    .construct_wrapBool (.not v)

theorem choice_feasible (p : BoolFormula) (f g : Formula) :
    Feasible lent (choice p f g) fun _ => [] := by
  unfold choice
  dsimp only
  split
  · exact .throw_bind _ _
  · exact .bind (.ask _) fun t => .bind (.ask _) fun u => .bind (.ask _) fun v =>
      .build (.ite t u v)

theorem ite_feasible (p : BoolFormula) (f g : Formula) :
    Feasible lent (ite p f g) fun f => [f] :=
  .bind (choice_feasible p f g) fun t => .wrap _ t

theorem iteBool_feasible (p q r : BoolFormula) :
    Feasible lent (iteBool p q r) fun p => [p.formula] :=
  .bind (choice_feasible p q.formula r.formula) fun t => .wrapBool t

end Boolean

namespace Numeral

variable (d : NumberDomain)

theorem widened_feasible (type : FormulaType) (t : Term) :
    Feasible lent (widened type t) fun _ => [] := by
  refine .bind (.ask _) fun actual => ?_
  split
  · refine .bind (.look _) fun available => ?_
    split
    · exact .build (.toReal t)
    · exact .throw_bind _ _
  · exact .pure nofun

theorem operand_feasible (f : Formula) : Feasible lent (operand d f) fun _ => [] := by
  unfold operand
  dsimp only
  split
  · exact .bind (.ask _) fun t => widened_feasible _ t
  · exact .throw_bind _ _

theorem operands_feasible (fs : List Formula) :
    Feasible lent (fs.mapM (operand d)) fun _ => [] :=
  (Feasible.mapM fun f _ _ _ => operand_feasible d f).mono nofun

theorem constant_feasible (value : Rat) : Feasible lent (constant d value) fun f => [f] := by
  unfold constant
  dsimp only
  split
  · exact .throw_bind _ _
  · exact .bind (.ask _) fun k => .construct_wrap (.numeral value k) _

theorem read_feasible (text : String) : Feasible lent (read d text) fun f => [f] := by
  unfold read
  split
  · exact constant_feasible d _
  · exact .throw _

theorem neg_feasible (f : Formula) : Feasible lent (neg d f) fun f => [f] :=
  .bind (operand_feasible d f) fun t => .construct_wrap (.neg t) _

theorem sum_feasible (fs : List Formula) : Feasible lent (sum d fs) fun f => [f] := by
  unfold sum
  split
  · exact constant_feasible d 0
  · exact .bind (operand_feasible d _) fun t => .wrap _ t
  · exact .bind (operands_feasible d _) fun ts => .construct_wrap (.add ts) _

/-- The operands of an operator over two. -/
theorem pair_feasible {α : Type} {made : α → List Formula} {k : Term → Term → Effect Environment α}
    (f g : Formula) (hk : ∀ t u, Feasible lent (k t u) made) :
    Feasible lent (do k (← operand d f) (← operand d g)) made :=
  .bind (operand_feasible d f) fun t => .bind (operand_feasible d g) fun u => hk t u

theorem sub_feasible (f g : Formula) : Feasible lent (sub d f g) fun f => [f] :=
  pair_feasible d f g fun t u => .construct_wrap (.sub t u) _

theorem mul_feasible (f g : Formula) : Feasible lent (mul d f g) fun f => [f] :=
  pair_feasible d f g fun t u => .construct_wrap (.mul t u) _

theorem div_feasible (f g : Formula) : Feasible lent (div d f g) fun f => [f] :=
  pair_feasible d f g fun t u => .construct_wrap (.divide t u) _

theorem mod_feasible (f g : Formula) : Feasible lent (mod d f g) fun f => [f] := by
  unfold mod
  dsimp only
  split
  · exact .throw_bind _ _
  · exact pair_feasible d f g fun t u => .construct_wrap (.modulo t u) _

theorem eq_feasible (f g : Formula) : Feasible lent (eq d f g) fun p => [p.formula] :=
  pair_feasible d f g fun t u => .construct_wrapBool (.eq t u)

theorem compare_feasible (op : ArithOp) (hop : op ∈ [.lt, .le, .gt, .ge]) (f g : Formula) :
    Feasible lent (relation d (Build.compare op) f g) fun p => [p.formula] :=
  pair_feasible d f g fun t u => .construct_wrapBool (.compare op hop t u)

theorem distinct_feasible (fs : List Formula) :
    Feasible lent (distinct d fs) fun p => [p.formula] := by
  unfold distinct
  split
  · exact Boolean.constant_feasible true
  · exact .bind (operands_feasible d _) fun ts => .construct_wrapBool (.distinct ts)

end Numeral

namespace Functions

theorem arguments_feasible (fs : List Formula) (types : List FormulaType) :
    Feasible lent (arguments fs types) fun _ => [] := by
  induction fs generalizing types with
  | nil => exact .pure nofun
  | cons f fs ih =>
    cases types with
    | nil => exact .pure nofun
    | cons type types =>
      unfold arguments
      dsimp only
      split
      · exact .bind (.ask _) fun t => .bind (Numeral.widened_feasible type t) fun u =>
          .bind (ih types) fun ts => .pure nofun
      · exact .throw_bind _ _

theorem apply_feasible (d : FunctionDeclaration) (fs : List Formula) :
    Feasible lent (apply d fs) fun f => [f] := by
  refine .bind (.look _) fun id => ?_
  dsimp only
  split
  · exact .throw_bind _ _
  · split
    · exact .throw_bind _ _
    · exact .bind (arguments_feasible fs _) fun ts => .construct_wrap (.apply d.decl ts) _

end Functions

namespace Arrays

theorem types_feasible (f : Formula) : Feasible lent (types f) fun _ => [] := by
  unfold types
  split
  · exact .pure nofun
  · exact .throw _

theorem ofType_feasible (type : FormulaType) (f : Formula) :
    Feasible lent (ofType type f) fun _ => [] := by
  unfold ofType
  dsimp only
  split
  · exact .throw_bind _ _
  · exact .ask _

theorem constant_feasible (index : FormulaType) (f : Formula) :
    Feasible lent (constant index f) fun f => [f] :=
  .bind (.ask _) fun k => .bind (.ask _) fun t => .construct_wrap (.constArray k t) _

theorem select_feasible (f g : Formula) : Feasible lent (select f g) fun f => [f] :=
  .bind (types_feasible f) fun _ => .bind (.ask _) fun a => .bind (ofType_feasible _ g) fun i =>
    .construct_wrap (.select a i) _

theorem store_feasible (f g h : Formula) : Feasible lent (store f g h) fun f => [f] :=
  .bind (types_feasible f) fun _ => .bind (.ask _) fun a => .bind (ofType_feasible _ g) fun i =>
    .bind (ofType_feasible _ h) fun v => .construct_wrap (.store a i v) _

theorem eq_feasible (f g : Formula) : Feasible lent (eq f g) fun p => [p.formula] :=
  .bind (types_feasible f) fun _ => .bind (.ask _) fun t => .bind (ofType_feasible _ g) fun u =>
    .construct_wrapBool (.eq t u)

end Arrays

namespace Bitvector

theorem width_feasible (f : Formula) : Feasible lent (width f) fun _ => [] := by
  unfold width
  split
  · exact .pure nofun
  · exact .throw _

theorem operands_feasible (f g : Formula) : Feasible lent (operands f g) fun _ => [] := by
  refine .bind (width_feasible f) fun w => .bind (width_feasible g) fun v => ?_
  split
  · exact .throw_bind _ _
  · exact .bind (.ask _) fun t => .bind (.ask _) fun u => .pure nofun

theorem constant_feasible (width : Nat) (value : Int) :
    Feasible lent (constant width value) fun f => [f] :=
  .construct_wrap (.bits value width) _

theorem unary_feasible (op : BitOp) (hop : op ∈ [.not, .neg]) (f : Formula) :
    Feasible lent (unary op f) fun f => [f] :=
  .bind (width_feasible f) fun _ => .bind (.ask _) fun t => .construct_wrap (.bitUnary op hop t) _

theorem binary_feasible (op : BitOp) (hop : op ∉ [.not, .neg, .concat]) (f g : Formula) :
    Feasible lent (binary op f g) fun f => [f] :=
  .bind (operands_feasible f g) fun _ => .construct_wrap (.bitBinary op hop _ _) _

theorem less_feasible (signed : Bool) (f g : Formula) :
    Feasible lent (less signed f g) fun p => [p.formula] :=
  .bind (operands_feasible f g) fun _ =>
    .construct_wrapBool (.bitBinary (if signed then .slt else .ult) (by cases signed <;> simp) _ _)

theorem lessOrEqual_feasible (signed : Bool) (f g : Formula) :
    Feasible lent (lessOrEqual signed f g) fun p => [p.formula] :=
  .bind (operands_feasible f g) fun _ =>
    .construct_wrapBool (.bitBinary (if signed then .sle else .ule) (by cases signed <;> simp) _ _)

theorem eq_feasible (f g : Formula) : Feasible lent (eq f g) fun p => [p.formula] :=
  .bind (operands_feasible f g) fun _ => .construct_wrapBool (.eq _ _)

theorem concat_feasible (f g : Formula) : Feasible lent (concat f g) fun f => [f] :=
  .bind (width_feasible f) fun _ => .bind (width_feasible g) fun _ => .bind (.ask _) fun t =>
    .bind (.ask _) fun u => .construct_wrap (.concat t u) _

theorem extract_feasible (f : Formula) (high low : Nat) :
    Feasible lent (extract f high low) fun f => [f] := by
  refine .bind (width_feasible f) fun w => ?_
  split
  · exact .throw_bind _ _
  · exact .bind (.ask _) fun t => .construct_wrap (.extract high low t) _

end Bitvector

namespace Quantified

theorem constants_feasible (fs : List Formula) : Feasible lent (constants fs) fun _ => [] := by
  have hall : Feasible lent (constants fs) fun ts => ts.flatMap fun _ => [] := by
    refine .mapM fun f _ _ _ => .bind (.ask _) fun t => .bind (.ask _) fun k => ?_
    split
    · exact .pure nofun
    · exact .bind (.ask _) fun _ => .throw_bind _ _
  exact hall.mono nofun

theorem quantify_feasible (q : Quantifier) (vars : List Formula) (p : BoolFormula) :
    Feasible lent (quantify q vars p) fun p => [p.formula] :=
  .bind (constants_feasible vars) fun ts => .bind (.ask _) fun t =>
    .construct_wrapBool (.quantifier q ts t)

theorem body_feasible (p : BoolFormula) : Feasible lent (body p) fun p => [p.formula] := by
  refine .bind (.ask _) fun t => .bind (.ask _) fun k => .bind (.ask _) fun ts => ?_
  split
  · exact .wrapBool _
  · exact .bind (.ask _) fun _ => .throw _

theorem eliminate_feasible (p : BoolFormula) : Feasible lent (eliminate p) fun p => [p.formula] :=
  .bind (.ask _) fun _ => .throw _

end Quantified

/-! Operators -/

namespace Expression

open Environment (Feasible)

theorem require_feasible (t : Theory) : Feasible lent (require t) fun _ => [] := by
  refine .bind (.look _) fun theories => ?_
  split
  · exact .pure nofun
  · exact .throw _

theorem managed_feasible {α : Type} {made : α → List Formula} {e : Effect Environment α}
    (t : Theory) (h : Feasible lent e made) : Feasible lent (managed t e) made :=
  .bind (require_feasible t) fun _ => h

theorem formula_feasible {e : Effect Environment BoolFormula}
    (h : Feasible lent e fun p => [p.formula]) : Feasible lent (formula e) fun f => [f] :=
  .bind h fun _ => .pure fun _ hf => List.mem_append_left _ hf

theorem claim_feasible (hf : f ∈ lent) : Feasible lent (claim f) fun p => [p.formula] := by
  refine .still (fun _ => rfl) fun env p hp g hg => ?_
  have hp : f.toBool = .ok p := hp
  unfold Formula.toBool at hp
  split at hp
  · cases hp
    rwa [List.mem_singleton.1 hg]
  · cases hp

/-- Work on a formula as a claim. -/
theorem claim_bind {α : Type} {made : α → List Formula} {k : BoolFormula → Effect Environment α}
    (hf : f ∈ lent) (hk : ∀ p : BoolFormula, Feasible (p.formula :: lent) (k p) made) :
    Feasible lent (claim f >>= k) made :=
  .bind (claim_feasible hf) hk

theorem literal_feasible (l : Literal) : Feasible lent l.make fun f => [f] := by
  cases l with
  | truth value => exact formula_feasible (Boolean.constant_feasible value)
  | number d value => exact managed_feasible _ (Numeral.constant_feasible d value)
  | numeral d text => exact managed_feasible _ (Numeral.read_feasible d text)
  | bits width value => exact managed_feasible _ (Bitvector.constant_feasible width value)

theorem unary_feasible (op : Unary) (hf : f ∈ lent) : Feasible lent (op.apply f) fun f => [f] := by
  cases op with
  | not => exact formula_feasible (claim_bind hf fun p => Boolean.not_feasible p)
  | neg d => exact managed_feasible _ (Numeral.neg_feasible d f)
  | constantArray index => exact managed_feasible _ (Arrays.constant_feasible index f)
  | bitNot => exact managed_feasible _ (Bitvector.unary_feasible .not (by simp) f)
  | bitNeg => exact managed_feasible _ (Bitvector.unary_feasible .neg (by simp) f)
  | extract high low => exact managed_feasible _ (Bitvector.extract_feasible f high low)
  | body =>
    exact managed_feasible _ (formula_feasible (claim_bind hf fun p => Quantified.body_feasible p))
  | eliminate =>
    exact managed_feasible _
      (formula_feasible (claim_bind hf fun p => Quantified.eliminate_feasible p))

theorem connective_feasible (op : Connective) {p q : BoolFormula} (hp : p.formula ∈ lent)
    (hq : q.formula ∈ lent) : Feasible lent (op.apply p q) fun p => [p.formula] := by
  cases op with
  | and => exact Boolean.junction_feasible .and hp hq
  | or => exact Boolean.junction_feasible .or hp hq
  | xor => exact Boolean.xor_feasible p q
  | iff => exact Boolean.iff_feasible p q
  | implies => exact Boolean.implies_feasible p q

theorem arithmetic_feasible (d : NumberDomain) (op : Arithmetic) (f g : Formula) :
    Feasible lent (op.apply d f g) fun f => [f] := by
  cases op with
  | add => exact Numeral.sum_feasible d [f, g]
  | sub => exact Numeral.sub_feasible d f g
  | mul => exact Numeral.mul_feasible d f g
  | div => exact Numeral.div_feasible d f g
  | mod => exact Numeral.mod_feasible d f g

theorem comparison_feasible (d : NumberDomain) (op : Comparison) (f g : Formula) :
    Feasible lent (op.apply d f g) fun p => [p.formula] := by
  cases op with
  | eq => exact Numeral.eq_feasible d f g
  | gt => exact Numeral.compare_feasible d .gt (by simp) f g
  | ge => exact Numeral.compare_feasible d .ge (by simp) f g
  | lt => exact Numeral.compare_feasible d .lt (by simp) f g
  | le => exact Numeral.compare_feasible d .le (by simp) f g

theorem bitComparison_feasible (op : BitComparison) (f g : Formula) :
    Feasible lent (op.apply f g) fun p => [p.formula] := by
  cases op with
  | eq => exact Bitvector.eq_feasible f g
  | lt signed => exact Bitvector.less_feasible signed f g
  | le signed => exact Bitvector.lessOrEqual_feasible signed f g
  | gt signed => exact Bitvector.less_feasible signed g f
  | ge signed => exact Bitvector.lessOrEqual_feasible signed g f

theorem binary_feasible (op : Binary) (hf : f ∈ lent) (hg : g ∈ lent) :
    Feasible lent (op.apply f g) fun f => [f] := by
  cases op with
  | connective op =>
    refine formula_feasible (claim_bind hf fun p => claim_bind (.tail _ hg) fun q => ?_)
    exact connective_feasible op (by simp) (by simp)
  | arithmetic d op => exact managed_feasible _ (arithmetic_feasible d op f g)
  | comparison d op => exact managed_feasible _ (formula_feasible (comparison_feasible d op f g))
  | select => exact managed_feasible _ (Arrays.select_feasible f g)
  | arrayEq => exact managed_feasible _ (formula_feasible (Arrays.eq_feasible f g))
  | bits op =>
    exact managed_feasible _
      (Bitvector.binary_feasible op.op (by cases op <;> simp [BitArithmetic.op]) f g)
  | bitComparison op => exact managed_feasible _ (formula_feasible (bitComparison_feasible op f g))
  | concat => exact managed_feasible _ (Bitvector.concat_feasible f g)

theorem ternary_feasible (op : Ternary) (hf : f ∈ lent) (hg : g ∈ lent) (hh : h ∈ lent) :
    Feasible lent (op.apply f g h) fun f => [f] := by
  cases op with
  | ite => exact claim_bind hf fun p => Boolean.ite_feasible p g h
  | iteBool =>
    exact formula_feasible (claim_bind hf fun p => claim_bind (.tail _ hg) fun q =>
      claim_bind (.tail _ (.tail _ hh)) fun r => Boolean.iteBool_feasible p q r)
  | store => exact managed_feasible _ (Arrays.store_feasible f g h)

theorem quantified_feasible (q : Quantifier) (vars : List Formula) (hf : f ∈ lent) :
    Feasible lent (quantified q vars f) fun f => [f] :=
  managed_feasible _
    (formula_feasible (claim_bind hf fun p => Quantified.quantify_feasible q vars p))

theorem junction_feasible (j : Junction) {fs : List Formula} (hfs : ∀ f ∈ fs, f ∈ lent) :
    Feasible lent (formula do Boolean.nary j (← fs.mapM claim)) fun f => [f] := by
  have hclaims : Feasible lent (fs.mapM claim) fun ps => ps.flatMap fun p => [p.formula] :=
    .mapM fun f hf _ hlent => claim_feasible (hlent (hfs f hf))
  refine formula_feasible (.bind hclaims fun ps => Boolean.nary_feasible j fun p hp => ?_)
  exact List.mem_append_left _ (List.mem_flatMap.2 ⟨p, hp, List.mem_singleton_self _⟩)

end Expression

/-! Runs of clients -/

namespace World

variable {w : World FoldingSolver} {c : Context} {i : Nat}

theorem setEnvironment_setEnvironment (hc : w.contexts[i]? = some c) (env env' : Environment) :
    setEnvironment i env' (setEnvironment i env w) = setEnvironment i env' w := by
  have hset : (setEnvironment i env w).contexts[i]? = some { c with env } :=
    (context_setEnvironment hc env i).trans (if_pos rfl)
  have hcontexts : (setEnvironment i env' (setEnvironment i env w)).contexts =
      (setEnvironment i env' w).contexts := by
    refine Array.ext_getElem? fun j => ?_
    rw [context_setEnvironment hset, context_setEnvironment hc, context_setEnvironment hc]
    split <;> rfl
  exact congrArg (fun contexts => { w with contexts }) hcontexts

theorem retain_eq {f : Formula} (hc : w.contexts[f.owner]? = some c) :
    w.retain f = setEnvironment f.owner (c.env.retain f) w :=
  congrArg (fun contexts => { w with contexts }) (modify_environment hc)

end World

namespace Client

variable {c : Client} {i : Nat} {x : Context}

/-- A client after work in an environment. -/
theorem after_inEnvironment {α : Type} {e : Effect Environment α} {f : α → List Formula}
    {op : Operation} (hop : op.perform = do return f (← World.inEnvironment i e))
    (hrecord : op.record c.world c.history = c.history) (hx : c.world.contexts[i]? = some x) :
    c.after op = { c with
      world := World.setEnvironment i (e.exec x.env).2 c.world
      held := obtained ((e.exec x.env).1.map f) + c.held } := by
  have hexec : op.perform.exec c.world =
      ((e.exec x.env).1.map f, World.setEnvironment i (e.exec x.env).2 c.world) := by
    rw [hop, Effect.exec_bind_pure, World.exec_inEnvironment hx]
  unfold after
  rw [hexec, hrecord]
  cases (e.exec x.env).1 <;> rfl

/-- What happens step by step in an environment is a run of the client. -/
theorem run_of_acts {env : Environment} {held : Multiset Formula} (hc : c.Valid)
    (hx : c.world.contexts[i]? = some x)
    (h : Relation.ReflTransGen Act (x.env, c.held) (env, held)) :
    Run c { c with world := World.setEnvironment i env c.world, held } := by
  -- The environment keeps its number along the way, so a copy is one of the context itself.
  suffices ∀ s, Relation.ReflTransGen Act (x.env, c.held) s → s.1.id = i ∧
      Run c { c with world := World.setEnvironment i s.1 c.world, held := s.2 } from
    (this (env, held) h).2
  intro s hs
  induction hs with
  | refl =>
    refine ⟨(hc.sound.context i x hx).place, ?_⟩
    rw [World.setEnvironment_self hx]
  | @tail s t _ hact ih =>
    obtain ⟨hid, hrun⟩ := ih
    have hset : (World.setEnvironment i s.1 c.world).contexts[i]? = some { x with env := s.1 } :=
      (World.context_setEnvironment hx s.1 i).trans (if_pos rfl)
    cases hact with
    | build env held con =>
      refine ⟨(build_evolves con.grows env).id.trans hid, hrun.tail ?_⟩
      have hstep := Step.operation { c with world := World.setEnvironment i env c.world, held }
        (.build i con)
      rw [after_inEnvironment (f := fun _ => []) rfl rfl hset, obtained_forget, zero_add,
        World.setEnvironment_setEnvironment hx] at hstep
      exact hstep
    | wrap env held type t =>
      refine ⟨(wrap_evolves type t env).id.trans hid, hrun.tail ?_⟩
      have hstep := Step.operation { c with world := World.setEnvironment i env c.world, held }
        (.wrap i type t)
      rw [after_inEnvironment rfl rfl hset, obtained_single,
        World.setEnvironment_setEnvironment hx] at hstep
      exact hstep
    | wrapBool env held t =>
      refine ⟨(wrapBool_evolves t env).id.trans hid, hrun.tail ?_⟩
      have hstep := Step.operation { c with world := World.setEnvironment i env c.world, held }
        (.wrapBool i t)
      rw [after_inEnvironment rfl rfl hset, obtained_single,
        World.setEnvironment_setEnvironment hx] at hstep
      exact hstep
    | @copy env held f hf howner =>
      refine ⟨(evolves_retain f env).id.trans hid, hrun.tail ?_⟩
      have hstep := Step.clone { c with world := World.setEnvironment i env c.world, held } hf
      obtain rfl : f.owner = i := howner.trans hid
      rw [World.retain_eq hset, World.setEnvironment_setEnvironment hx] at hstep
      exact hstep

end Client

namespace World

variable {α β : Type} {lent : List Formula} {made : α → List Formula}

/-- Work that a client can do that holds `lent`; what is made it holds, too. -/
def Feasible (lent : List Formula) (e : Effect (World FoldingSolver) α) (made : α → List Formula) :
    Prop :=
  ∀ c : Client, Client.Reachable c → (∀ f ∈ lent, f ∈ c.held) →
    ∃ d, Client.Run c d ∧ d.world = (e.exec c.world).2 ∧ c.held ≤ d.held ∧
      ∀ a, (e.exec c.world).1 = .ok a → ∀ f ∈ made a, f ∈ d.held

namespace Feasible

variable {e : Effect (World FoldingSolver) α}

theorem pure {a : α} (h : ∀ f ∈ made a, f ∈ lent) : Feasible lent (Pure.pure a) made := by
  refine fun c _ hlent => ⟨c, .refl, rfl, le_rfl, fun b hb f hf => ?_⟩
  cases hb
  exact hlent f (h f hf)

theorem bind {made' : β → List Formula} {k : α → Effect (World FoldingSolver) β}
    (h : Feasible lent e made) (hk : ∀ a, Feasible (made a ++ lent) (k a) made') :
    Feasible lent (e >>= k) made' := by
  intro c hc hlent
  obtain ⟨d, hrun, hd, hle, hheld⟩ := h c hc hlent
  rcases hx : e.exec c.world with ⟨x | a, w⟩
  · rw [hx] at hd
    rw [Effect.exec_bind_error hx]
    exact ⟨d, hrun, hd, hle, nofun⟩
  · rw [hx] at hd hheld
    have hlent₁ : ∀ f ∈ made a ++ lent, f ∈ d.held := fun f hf =>
      (List.mem_append.1 hf).elim (hheld a rfl f) fun hf => Multiset.mem_of_le hle (hlent f hf)
    obtain ⟨d', hrun', hd', hle', hheld'⟩ := hk a d (hc.trans hrun) hlent₁
    rw [hd] at hd' hheld'
    rw [Effect.exec_bind_ok hx]
    exact ⟨d', hrun.trans hrun', hd', hle.trans hle', hheld'⟩

theorem inEnvironment {e : Effect Environment α} (h : Environment.Feasible lent e made) (i : Nat) :
    Feasible lent (World.inEnvironment i e) made := by
  intro c hc hlent
  cases hx : c.world.contexts[i]? with
  | none =>
    rw [exec_inEnvironment_none hx]
    exact ⟨c, .refl, rfl, le_rfl, nofun⟩
  | some x =>
    obtain ⟨held, hacts, hle, hheld⟩ := h x.env c.held hlent
    rw [exec_inEnvironment hx]
    exact ⟨_, Client.run_of_acts hc.valid hx hacts, rfl, hle, hheld⟩

/-- An operation that gives what it makes. -/
theorem operation {op : Operation} {f : α → List Formula} (hop : op.perform = do return f (← e)) :
    Feasible lent e f := by
  intro c _ _
  have hexec : op.perform.exec c.world = ((e.exec c.world).1.map f, (e.exec c.world).2) := by
    rw [hop, Effect.exec_bind_pure]
  refine ⟨c.after op, .single (.operation c op), congrArg Prod.snd hexec, le_add_self,
    fun a ha g hg => ?_⟩
  have hheld : (c.after op).held = f a + c.held := by
    change obtained (op.perform.exec c.world).1 + c.held = _
    rw [hexec, ha]
    rfl
  rw [hheld]
  exact Multiset.mem_add.2 (.inl hg)

end Feasible
end World

namespace Expression

open World (Feasible)

theorem variable_feasible (i : Nat) (type : FormulaType) (name : String) :
    Feasible lent (makeVariable i type name) fun f => [f] := by
  have hperform : (Operation.constant i type name).perform =
      do return [← World.constant i type name] := rfl
  have hconstant : ∀ lent : List Formula,
      Feasible lent (World.constant i type name) fun f => [f] := fun _ => .operation hperform
  unfold makeVariable
  cases type.theory? with
  | none => exact hconstant lent
  | some t => exact .bind (.inEnvironment (require_feasible t) i) fun _ => hconstant _

theorem nary_feasible (i : Nat) (op : Nary) {fs : List Formula} (hfs : ∀ f ∈ fs, f ∈ lent) :
    Feasible lent (op.apply i fs) fun f => [f] := by
  have hfunction : ∀ name result arguments,
      Feasible lent (World.function i name result arguments) fun _ => [] := by
    intro name result arguments
    have hperform : (Operation.function i name result arguments).perform = do
        let _ ← World.function i name result arguments
        return [] := rfl
    exact .operation hperform
  cases op with
  | junction j => exact .inEnvironment (junction_feasible j hfs) i
  | sum d => exact .inEnvironment (managed_feasible _ (Numeral.sum_feasible d fs)) i
  | distinct d =>
    exact .inEnvironment (managed_feasible _ (formula_feasible (Numeral.distinct_feasible d fs))) i
  | call name result arguments =>
    exact .bind (hfunction name result arguments) fun d =>
      .inEnvironment (Functions.apply_feasible d fs) i
  | declareAndCall name result =>
    exact .bind (hfunction name result _) fun d => .inEnvironment (Functions.apply_feasible d fs) i

mutual
/-- To build an expression is a run of the client. -/
theorem build_feasible (i : Nat) {lent : List Formula} :
    ∀ e : Expression, Feasible lent (e.build i) fun f => [f]
  | .literal l => .inEnvironment (literal_feasible l) i
  | .variable type name => variable_feasible i type name
  | .unary op e => .bind (build_feasible i e) fun f =>
      .inEnvironment (unary_feasible op (by simp)) i
  | .binary op e₁ e₂ => .bind (build_feasible i e₁) fun f => .bind (build_feasible i e₂) fun g =>
      .inEnvironment (binary_feasible op (by simp) (by simp)) i
  | .ternary op e₁ e₂ e₃ => .bind (build_feasible i e₁) fun f =>
      .bind (build_feasible i e₂) fun g => .bind (build_feasible i e₃) fun h =>
        .inEnvironment (ternary_feasible op (by simp) (by simp) (by simp)) i
  | .nary op es => .bind (buildAll_feasible i es) fun fs =>
      nary_feasible i op fun f hf => List.mem_append_left _ hf
  | .quantifier q vars body => .bind (buildAll_feasible i vars) fun fs =>
      .bind (build_feasible i body) fun f =>
        .inEnvironment (quantified_feasible q fs (by simp)) i

theorem buildAll_feasible (i : Nat) {lent : List Formula} :
    ∀ es : List Expression, Feasible lent (buildAll i es) fun fs => fs
  | [] => .pure nofun
  | e :: es => .bind (build_feasible i e) fun f => .bind (buildAll_feasible i es) fun fs =>
      .pure fun g hg => by
        simp only [List.mem_cons, List.mem_append] at hg ⊢
        tauto
end

end Expression
end FormulaStack
