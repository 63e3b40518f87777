import FormulaStack.Proofs.Enumerations
import FormulaStack.Proofs.Expressions
import FormulaStack.Proofs.Persistence

/-!
Who may use a formula. Work that looks at the owners of its operands succeeds on formulas of its own
environment only; operators look at every operand, but for the ones that an absorbing literal keeps
a junction from.
-/
namespace FormulaStack

/-- The effect ends with a fault. -/
def Effect.Fails {S α : Type} (e : Effect S α) (s : S) : Prop := ∃ x t, e.exec s = (.error x, t)

theorem Effect.Ensures.fails {S α : Type} {e : Effect S α} {s : S} {P : Prop}
    (h : e.Ensures s fun _ _ => P) (hP : ¬ P) : e.Fails s := by
  rcases hx : e.exec s with ⟨x | a, t⟩
  · exact ⟨x, t, hx⟩
  · exact absurd (h a t hx) hP

open Environment

namespace Environment

variable {α β : Type} {env : Environment} {i : Nat} {f : Formula} {fs gs : List Formula}

/-- In the environment of a number, work succeeds only if formulas are that environment's. -/
def Vouches (i : Nat) (e : Effect Environment α) (fs : List Formula) : Prop :=
  ∀ env : Environment, env.id = i → e.Ensures env fun _ _ => ∀ f ∈ fs, f.owner = i

namespace Vouches

variable {e : Effect Environment α} {k : α → Effect Environment β}

theorem nil : Vouches i e [] := fun _ _ _ _ _ _ => nofun

theorem mono (h : Vouches i e fs) (hgs : gs ⊆ fs) : Vouches i e gs :=
  fun env hid => (h env hid).mono fun _ _ hfs f hf => hfs f (hgs hf)

theorem throw_bind (x : Fault) : Vouches i (MonadExcept.throw x >>= k) fs :=
  fun _ _ => .throw_bind x

theorem unwrap (f : Formula) : Vouches i (.ask (·.unwrap f)) [f] := by
  refine fun env hid => .ask fun t ht g hg => ?_
  rw [List.mem_singleton.1 hg, ← hid]
  exact (unwrap_eq_ok.1 ht).1

/-- What the first part vouches for, the whole does. -/
theorem first (he : Vouches i e fs) : Vouches i (e >>= k) fs :=
  fun env hid => .bind (he env hid) fun _ _ h _ _ _ => h

/-- What both parts vouch for, where the first one keeps to its environment. -/
theorem both (he : Vouches i e fs) (hworks : Effect.Within Works e)
    (hk : ∀ a, Vouches i (k a) gs) : Vouches i (e >>= k) (fs ++ gs) := by
  intro env hid
  refine .bind ((he env hid).and ((World.id_of_works hworks).ensures env)) fun a env' h => ?_
  obtain ⟨hfs, hid'⟩ := h
  exact (hk a env' (hid'.trans hid)).mono fun _ _ hgs f hf =>
    (List.mem_append.1 hf).elim (hfs f) (hgs f)

theorem skip (hworks : Effect.Within Works e) (hk : ∀ a, Vouches i (k a) fs) :
    Vouches i (e >>= k) fs :=
  nil.both hworks hk

theorem unwrap_bind {k : Term → Effect Environment β} (hk : ∀ t, Vouches i (k t) fs) :
    Vouches i (.ask (·.unwrap f) >>= k) (f :: fs) :=
  (unwrap f).both (.ask _) hk

/-- One piece of work for each formula. -/
theorem mapM {g : Formula → Effect Environment α} (hg : ∀ f, Vouches i (g f) [f])
    (hworks : ∀ f, Effect.Within Works (g f)) : ∀ fs, Vouches i (fs.mapM g) fs
  | [] => nil
  | f :: fs => by
    rw [List.mapM_cons]
    exact (hg f).both (hworks f) fun _ => (mapM hg hworks fs).first

end Vouches
end Environment

/-! Connectives -/

/-- A junction takes a formula for its own absorbing literal. -/
def Junction.Absorbs (j : Junction) (env : Environment) (f : Formula) : Prop :=
  f.owner = env.id ∧ (env.kind f.term).toOption = some j.absorbing

instance (j : Junction) (env : Environment) (f : Formula) : Decidable (j.Absorbs env f) :=
  inferInstanceAs (Decidable (_ ∧ _))

/-- The operands that stand before any absorbing literal. -/
def Junction.reached (j : Junction) (env : Environment) (fs : List Formula) : List Formula :=
  fs.takeWhile fun f => ¬ j.Absorbs env f

namespace Boolean

variable {i : Nat}

theorem not_vouches (p : BoolFormula) : Vouches i (not p) [p.formula] := .first (.unwrap _)

theorem junction_vouches (j : Junction) (p q : BoolFormula) :
    Vouches i (junction j p q) [p.formula, q.formula] :=
  .unwrap_bind fun _ => .first (.unwrap _)

theorem xor_vouches (p q : BoolFormula) : Vouches i (xor p q) [p.formula, q.formula] :=
  .unwrap_bind fun _ => .first (.unwrap _)

theorem iff_vouches (p q : BoolFormula) : Vouches i (iff p q) [p.formula, q.formula] :=
  .unwrap_bind fun _ => .first (.unwrap _)

theorem implies_vouches (p q : BoolFormula) : Vouches i (implies p q) [p.formula, q.formula] :=
  .unwrap_bind fun _ => .first (.unwrap _)

theorem choice_vouches (p : BoolFormula) (f g : Formula) :
    Vouches i (choice p f g) [p.formula, f, g] := by
  unfold choice
  dsimp only
  split
  · exact .throw_bind _
  · exact .unwrap_bind fun _ => .unwrap_bind fun _ => .first (.unwrap g)

/-- Gathering looks at the owner of each operand before its kind. -/
theorem gather_ensures (j : Junction) (env : Environment) (seen : List Term)
    (ps : List BoolFormula) :
    (gather j seen ps).Ensures env fun _ _ =>
      ∀ f ∈ j.reached env (ps.map (·.formula)), f.owner = env.id := by
  induction ps generalizing seen with
  | nil => exact .pure nofun
  | cons p ps ih =>
    refine .ask_bind fun t ht => .ask_bind fun k hk => ?_
    have howner : p.formula.owner = env.id := (unwrap_eq_ok.1 ht).1
    have hrest : ∀ seen, (gather j seen ps).Ensures env fun _ _ =>
        ∀ f ∈ j.reached env ((p :: ps).map (·.formula)), f.owner = env.id := by
      refine fun seen => (ih seen).mono fun _ _ hreached f hf => ?_
      rw [Junction.reached, List.map_cons, List.takeWhile_cons] at hf
      split at hf
      · obtain rfl | hf := List.mem_cons.1 hf
        · exact howner
        · exact hreached f hf
      · cases hf
    split
    · next habsorbing =>
      have ht : t = p.formula.term := by
        unfold unwrap at ht
        rw [if_pos howner] at ht
        exact (Except.ok.inj ht).symm
      have habsorbs : j.Absorbs env p.formula := by
        refine ⟨howner, ?_⟩
        rw [← ht, hk, habsorbing]
        rfl
      refine .pure fun f hf => ?_
      rw [Junction.reached, List.map_cons,
        List.takeWhile_cons_of_neg (by simpa using habsorbs)] at hf
      cases hf
    · split <;> exact hrest _

theorem nary_ensures (j : Junction) (env : Environment) (ps : List BoolFormula) :
    (nary j ps).Ensures env fun _ _ =>
      ∀ f ∈ j.reached env (ps.map (·.formula)), f.owner = env.id :=
  .bind (gather_ensures j env [] ps) fun _ _ h _ _ _ => h

end Boolean

/-! Numbers -/

namespace Numeral

variable {i : Nat} (d : NumberDomain)

theorem widened_works (type : FormulaType) (t : Term) :
    Effect.Within Works (widened type t) := by
  have hbuild : Effect.Within Works (build (Build.toReal t)) :=
    build_works (Constructor.toReal t).grows
  refine .bind (.ask _) fun actual => ?_
  split
  · refine .bind (.look _) fun available => ?_
    split
    · exact hbuild
    · exact .bind (.throw _) fun _ => hbuild
  · exact .pure t

theorem operand_works (f : Formula) : Effect.Within Works (operand d f) := by
  have hterm : Effect.Within Works (do widened d.type (← .ask (·.unwrap f))) :=
    .bind (.ask _) fun t => widened_works d.type t
  unfold operand
  dsimp only
  split
  · exact hterm
  · exact .bind (.throw _) fun _ => hterm

theorem operand_vouches (f : Formula) : Vouches i (operand d f) [f] := by
  unfold operand
  dsimp only
  split
  · exact .first (.unwrap f)
  · exact .throw_bind _

theorem operands_vouches (fs : List Formula) : Vouches i (fs.mapM (operand d)) fs :=
  .mapM (operand_vouches d) (operand_works d) fs

/-- Both operands of an operator over two. -/
theorem pair_vouches {α : Type} {k : Term → Term → Effect Environment α} (f g : Formula) :
    Vouches i (do k (← operand d f) (← operand d g)) [f, g] :=
  .both (operand_vouches d f) (operand_works d f) fun _ => .first (operand_vouches d g)

theorem sum_vouches (fs : List Formula) : Vouches i (sum d fs) fs := by
  unfold sum
  split
  · exact .nil
  · exact .first (operand_vouches d _)
  · exact .first (operands_vouches d _)

theorem mod_vouches (f g : Formula) : Vouches i (mod d f g) [f, g] := by
  unfold mod
  dsimp only
  split
  · exact .throw_bind _
  · exact pair_vouches d f g

theorem distinct_vouches (fs : List Formula) :
    Vouches i (distinct d fs) (if fs.length < 2 then [] else fs) := by
  unfold distinct
  split
  · exact .nil
  · exact .first (operands_vouches d fs)

end Numeral

/-! Bit-vectors, arrays, quantifiers and functions -/

namespace Bitvector

variable {i : Nat}

theorem width_works (f : Formula) : Effect.Within Works (width f) := by
  unfold width
  split
  · exact .pure _
  · exact .throw _

theorem operands_vouches (f g : Formula) : Vouches i (operands f g) [f, g] := by
  refine .skip (width_works f) fun w => .skip (width_works g) fun w' => ?_
  split
  · exact .throw_bind _
  · exact .unwrap_bind fun _ => .first (.unwrap g)

theorem unary_vouches (op : BitOp) (f : Formula) : Vouches i (unary op f) [f] :=
  .skip (width_works f) fun _ => .first (.unwrap f)

theorem concat_vouches (f g : Formula) : Vouches i (concat f g) [f, g] :=
  .skip (width_works f) fun _ => .skip (width_works g) fun _ =>
    .unwrap_bind fun _ => .first (.unwrap g)

theorem extract_vouches (f : Formula) (high low : Nat) : Vouches i (extract f high low) [f] := by
  refine .skip (width_works f) fun w => ?_
  split
  · exact .throw_bind _
  · exact .first (.unwrap f)

end Bitvector

namespace Arrays

variable {i : Nat}

theorem types_works (f : Formula) : Effect.Within Works (types f) := by
  unfold types
  split
  · exact .pure _
  · exact .throw _

theorem ofType_works (type : FormulaType) (f : Formula) : Effect.Within Works (ofType type f) := by
  unfold ofType
  dsimp only
  split
  · exact .bind (.throw _) fun _ => .ask _
  · exact .ask _

theorem ofType_vouches (type : FormulaType) (f : Formula) : Vouches i (ofType type f) [f] := by
  unfold ofType
  dsimp only
  split
  · exact .throw_bind _
  · exact .unwrap f

theorem constant_vouches (index : FormulaType) (f : Formula) : Vouches i (constant index f) [f] :=
  .skip (.ask _) fun _ => .first (.unwrap f)

theorem select_vouches (f g : Formula) : Vouches i (select f g) [f, g] :=
  .skip (types_works f) fun _ => .unwrap_bind fun _ => .first (ofType_vouches _ g)

theorem store_vouches (f g h : Formula) : Vouches i (store f g h) [f, g, h] :=
  .skip (types_works f) fun _ => .unwrap_bind fun _ =>
    .both (ofType_vouches _ g) (ofType_works _ g) fun _ => .first (ofType_vouches _ h)

theorem eq_vouches (f g : Formula) : Vouches i (eq f g) [f, g] :=
  .skip (types_works f) fun _ => .unwrap_bind fun _ => .first (ofType_vouches _ g)

end Arrays

namespace Quantified

variable {i : Nat}

theorem quantify_vouches (q : Quantifier) (vars : List Formula) (p : BoolFormula) :
    Vouches i (quantify q vars p) (vars ++ [p.formula]) := by
  have hworks : ∀ f : Formula, Effect.Within Works (do
      let t ← .ask (·.unwrap f)
      unless (← .ask (·.kind t)) = .variable do
        throw (.badArgument (.notQuantifiable (← .ask (·.terms.dump t))))
      return t) := by
    refine fun f => .bind (.ask _) fun t => .bind (.ask _) fun k => ?_
    split
    · exact .pure t
    · exact .bind (.ask _) fun _ => .bind (.throw _) fun _ => .pure t
  exact .both (.mapM (fun f => .first (.unwrap f)) hworks vars) (.mapM hworks vars) fun _ =>
    .first (.unwrap _)

theorem body_vouches (p : BoolFormula) : Vouches i (body p) [p.formula] := .first (.unwrap _)

theorem eliminate_vouches (p : BoolFormula) : Vouches i (eliminate p) [p.formula] :=
  .first (.unwrap _)

end Quantified

namespace Functions

variable {i : Nat}

theorem arguments_vouches : ∀ (fs : List Formula) (types : List FormulaType),
    types.length = fs.length → Vouches i (arguments fs types) fs
  | [], _, _ => .nil
  | f :: fs, type :: types, h => by
    have hargument : Vouches i (do
        let t ← Numeral.widened type (← .ask (·.unwrap f))
        return t :: (← arguments fs types)) (f :: fs) :=
      .unwrap_bind fun t => .skip (Numeral.widened_works type t) fun _ =>
        .first (arguments_vouches fs types (Nat.succ.inj h))
    unfold arguments
    dsimp only
    split
    · exact hargument
    · exact .throw_bind _

/-- The arguments are as many as the function has, so each of them is looked at. -/
theorem apply_vouches (d : FunctionDeclaration) (fs : List Formula) :
    Vouches i (apply d fs) fs := by
  refine .skip (.look _) fun owner => ?_
  dsimp only
  split
  · exact .throw_bind _
  · split
    · exact .throw_bind _
    · next hlength => exact .first (arguments_vouches fs _ (not_not.1 hlength))

end Functions

/-! Operators -/

namespace Expression

variable {i : Nat} {f g h : Formula} {fs : List Formula}

theorem managed_vouches {α : Type} {e : Effect Environment α} (t : Theory) (he : Vouches i e fs) :
    Vouches i (managed t e) fs := by
  refine .skip (.bind (.look _) fun theories => ?_) fun _ => he
  split
  · exact .pure ()
  · exact .throw _

/-- Work on a formula as a claim. -/
theorem claim_vouches {α : Type} {k : BoolFormula → Effect Environment α}
    (hk : ∀ p : BoolFormula, p.formula = f → Vouches i (k p) fs) :
    Vouches i (claim f >>= k) fs := by
  refine fun env hid => .ask_bind fun p hp => hk p ?_ env hid
  unfold Formula.toBool at hp
  split at hp
  · cases hp
    rfl
  · cases hp

theorem unary_vouches (op : Unary) (f : Formula) : Vouches i (op.apply f) [f] := by
  cases op with
  | not => exact .first (claim_vouches fun p hp => hp ▸ Boolean.not_vouches p)
  | neg d => exact managed_vouches _ (.first (Numeral.operand_vouches d f))
  | constantArray index => exact managed_vouches _ (Arrays.constant_vouches index f)
  | bitNot => exact managed_vouches _ (Bitvector.unary_vouches .not f)
  | bitNeg => exact managed_vouches _ (Bitvector.unary_vouches .neg f)
  | extract high low => exact managed_vouches _ (Bitvector.extract_vouches f high low)
  | body =>
    exact managed_vouches _ (.first (claim_vouches fun p hp => hp ▸ Quantified.body_vouches p))
  | eliminate =>
    exact managed_vouches _ (.first (claim_vouches fun p hp => hp ▸ Quantified.eliminate_vouches p))

theorem connective_vouches (op : Connective) (p q : BoolFormula) :
    Vouches i (op.apply p q) [p.formula, q.formula] := by
  cases op with
  | and => exact Boolean.junction_vouches .and p q
  | or => exact Boolean.junction_vouches .or p q
  | xor => exact Boolean.xor_vouches p q
  | iff => exact Boolean.iff_vouches p q
  | implies => exact Boolean.implies_vouches p q

theorem arithmetic_vouches (d : NumberDomain) (op : Arithmetic) (f g : Formula) :
    Vouches i (op.apply d f g) [f, g] := by
  cases op with
  | add => exact Numeral.sum_vouches d [f, g]
  | mod => exact Numeral.mod_vouches d f g
  | _ => exact Numeral.pair_vouches d f g

theorem comparison_vouches (d : NumberDomain) (op : Comparison) (f g : Formula) :
    Vouches i (op.apply d f g) [f, g] := by
  cases op <;> exact Numeral.pair_vouches d f g

theorem bitComparison_vouches (op : BitComparison) (f g : Formula) :
    Vouches i (op.apply f g) [f, g] := by
  cases op with
  | eq | lt | le => exact .first (Bitvector.operands_vouches f g)
  | gt | ge => exact (Vouches.first (Bitvector.operands_vouches g f)).mono (by simp)

theorem binary_vouches (op : Binary) (f g : Formula) : Vouches i (op.apply f g) [f, g] := by
  cases op with
  | connective op =>
    refine .first (claim_vouches fun p hp => claim_vouches fun q hq => ?_)
    exact hp ▸ hq ▸ connective_vouches op p q
  | arithmetic d op => exact managed_vouches _ (arithmetic_vouches d op f g)
  | comparison d op => exact managed_vouches _ (.first (comparison_vouches d op f g))
  | select => exact managed_vouches _ (Arrays.select_vouches f g)
  | arrayEq => exact managed_vouches _ (.first (Arrays.eq_vouches f g))
  | bits op => exact managed_vouches _ (.first (Bitvector.operands_vouches f g))
  | bitComparison op => exact managed_vouches _ (.first (bitComparison_vouches op f g))
  | concat => exact managed_vouches _ (Bitvector.concat_vouches f g)

theorem ternary_vouches (op : Ternary) (f g h : Formula) :
    Vouches i (op.apply f g h) [f, g, h] := by
  cases op with
  | ite => exact claim_vouches fun p hp => hp ▸ .first (Boolean.choice_vouches p g h)
  | iteBool =>
    refine .first (claim_vouches fun p hp => claim_vouches fun q hq => claim_vouches fun r hr => ?_)
    exact hp ▸ hq ▸ hr ▸ .first (Boolean.choice_vouches p q.formula r.formula)
  | store => exact managed_vouches _ (Arrays.store_vouches f g h)

theorem quantified_vouches (q : Quantifier) (vars : List Formula) (body : Formula) :
    Vouches i (quantified q vars body) (vars ++ [body]) :=
  managed_vouches _ (.first (claim_vouches fun p hp => hp ▸ Quantified.quantify_vouches q vars p))

/-- Claims are formulas as they were given. -/
theorem ensures_claims (env : Environment) (fs : List Formula) :
    (fs.mapM claim).Ensures env fun ps env' => env' = env ∧ ps.map (·.formula) = fs := by
  induction fs with
  | nil => exact .pure ⟨rfl, rfl⟩
  | cons f fs ih =>
    rw [List.mapM_cons]
    refine .ask_bind fun p hp => .bind ih fun ps env' h => .pure ⟨h.1, ?_⟩
    unfold Formula.toBool at hp
    split at hp
    · cases hp
      rw [List.map_cons, h.2]
    · cases hp

theorem junction_ensures (j : Junction) (env : Environment) (fs : List Formula) :
    (formula do Boolean.nary j (← fs.mapM claim)).Ensures env fun _ _ =>
      ∀ f ∈ j.reached env fs, f.owner = env.id := by
  have hnary : (do Boolean.nary j (← fs.mapM claim)).Ensures env fun _ _ =>
      ∀ f ∈ j.reached env fs, f.owner = env.id := by
    refine .bind (ensures_claims env fs) fun ps env' h => ?_
    obtain ⟨rfl, rfl⟩ := h
    exact Boolean.nary_ensures j env' ps
  exact .bind hnary fun _ _ h _ _ _ => h

end Expression

/-! Stacks and maps -/

namespace Site

variable {σ : Type} [Session σ]

theorem ensures_assert (f : BoolFormula) (partition : Option Nat) (s : Site σ) :
    (assert f partition).Ensures s fun _ _ => f.formula.owner = s.env.id := by
  refine .bind (ensures_ensureOpen s) fun _ t h => ?_
  obtain ⟨rfl, -⟩ := h
  refine .bind (P := fun _ _ => f.formula.owner = t.env.id) ?_ fun _ _ h _ _ _ => h
  exact .on (.ask fun _ ht => (unwrap_eq_ok.1 ht).1)

theorem ensures_evaluate (f : Formula) (s : Site σ) :
    (evaluate f).Ensures s fun _ _ => f.owner = s.env.id := by
  refine .bind (ensures_ensureOpen s) fun _ t h => ?_
  obtain ⟨rfl, -⟩ := h
  refine .bind (P := fun _ _ => f.owner = t.env.id) ?_ fun _ _ h _ _ _ => h
  exact .on (.ask fun _ ht => (unwrap_eq_ok.1 ht).1)

end Site

theorem FormulaMap.ensures_image {τ : Type} (r : FormulaMap τ) (f : BoolFormula)
    (env : Environment) (s : τ) :
    (r.image f).Ensures ((env, s), []) fun _ _ => f.formula.owner = env.id := by
  unfold FormulaMap.image FormulaMap.imageWith
  refine .look_bind (.bind (P := fun _ _ => f.formula.owner = env.id) ?_ fun _ _ h _ _ _ => h)
  exact .on (.on (.ask_bind fun _ ht _ _ _ => (unwrap_eq_ok.1 ht).1))

/-- What a client asks a manager to make of formulas. -/
inductive Construction where
  | unary (op : Expression.Unary) (f : Formula)
  | binary (op : Expression.Binary) (f g : Formula)
  | ternary (op : Expression.Ternary) (f g h : Formula)
  | nary (op : Expression.Nary) (fs : List Formula)
  | quantified (q : Quantifier) (vars : List Formula) (body : Formula)
  /-- A function, applied. -/
  | apply (d : FunctionDeclaration) (fs : List Formula)

namespace Construction

def operands : Construction → List Formula
  | unary _ f => [f]
  | binary _ f g => [f, g]
  | ternary _ f g h => [f, g, h]
  | nary _ fs | apply _ fs => fs
  | quantified _ vars body => vars ++ [body]

/-- The operands that have to be of the environment: all of them, but for those of a junction behind
an absorbing literal, and for a single one that is to be distinct. -/
def examined (env : Environment) : Construction → List Formula
  | nary (.junction j) fs => j.reached env fs
  | nary (.distinct _) fs => if fs.length < 2 then [] else fs
  | c => c.operands

variable {σ : Type} [Session σ] {w : World σ} {c : Context} {ctx : Nat}

def make (ctx : Nat) : Construction → Effect (World σ) Formula
  | unary op f => World.inEnvironment ctx (op.apply f)
  | binary op f g => World.inEnvironment ctx (op.apply f g)
  | ternary op f g h => World.inEnvironment ctx (op.apply f g h)
  | nary op fs => op.apply ctx fs
  | quantified q vars body => World.inEnvironment ctx (Expression.quantified q vars body)
  | apply d fs => World.inEnvironment ctx (Functions.apply d fs)

end Construction

namespace World

variable {σ : Type} {w : World σ} {c : Context} {s : AssertionStack σ} {ctx id : Nat}
  {fs : List Formula}

theorem ensures_inEnvironment {α : Type} {e : Effect Environment α} {P : Prop}
    (hc : w.contexts[ctx]? = some c) (he : e.Ensures c.env fun _ _ => P) :
    (inEnvironment ctx e).Ensures w fun _ _ => P := by
  intro a w' hx
  rw [exec_inEnvironment hc, Prod.mk.injEq] at hx
  exact he a _ (Prod.ext hx.1 rfl)

theorem ensures_vouched {α : Type} {e : Effect Environment α} (hc : w.contexts[ctx]? = some c)
    (he : Vouches c.env.id e fs) :
    (inEnvironment ctx e).Ensures w fun _ _ => ∀ f ∈ fs, f.owner = c.env.id :=
  ensures_inEnvironment hc (he c.env rfl)

theorem ensures_of_site {α : Type} {e : Effect (Site σ) α} {P : Prop} (hs : w.stack? id = some s)
    (hc : w.contexts[s.home]? = some c) (he : e.Ensures (w.site c s) fun _ _ => P) :
    (atStack id e).Ensures w fun _ _ => P := by
  intro a w' hx
  rw [exec_atStack hs hc, Prod.mk.injEq] at hx
  exact he a _ (Prod.ext hx.1 rfl)

theorem image_of_foreign {τ : Type} {f : BoolFormula} (hc : w.contexts[ctx]? = some c)
    (hf : f.formula.owner ≠ c.env.id) (r : FormulaMap τ) (t : τ) :
    ∃ x t' made w', (image ctx r t f).exec w = (.ok (.error x, t', made), w') := by
  obtain ⟨x, ⟨⟨env, t'⟩, images⟩, hx⟩ := (r.ensures_image f c.env t).fails hf
  have happly : (r.apply t f).exec c.env =
      (.ok (.error x, t', images.length), Environment.discardAll images.formulas env) := by
    unfold FormulaMap.apply
    rw [Effect.exec_of, hx]
  refine ⟨x, t', images.length,
    setEnvironment ctx (Environment.discardAll images.formulas env) w, ?_⟩
  unfold image
  rw [Effect.exec_bind, exec_inEnvironment hc, happly]
  rfl

variable [Session σ]

/-- A function is requested and applied; the request leaves the number of the environment. -/
theorem ensures_call (hc : w.contexts[ctx]? = some c) (name : String) (result : FormulaType)
    (arguments : List FormulaType) (fs : List Formula) :
    (do
      let d ← function ctx name result arguments
      inEnvironment ctx (Functions.apply d fs)).Ensures w fun _ _ =>
        ∀ f ∈ fs, f.owner = c.env.id := by
  refine .bind ((function_stays ctx name result arguments).ensures w) fun d w' h => ?_
  obtain ⟨c', hc', hid, -⟩ := h.exists_context hc
  rw [← hid]
  exact ensures_vouched hc' (Functions.apply_vouches d fs)

theorem ensures_make (hc : w.contexts[ctx]? = some c) (m : Construction) :
    (m.make ctx).Ensures w fun _ _ => ∀ f ∈ m.examined c.env, f.owner = c.env.id := by
  cases m with
  | unary op f => exact ensures_vouched hc (Expression.unary_vouches op f)
  | binary op f g => exact ensures_vouched hc (Expression.binary_vouches op f g)
  | ternary op f g h => exact ensures_vouched hc (Expression.ternary_vouches op f g h)
  | quantified q vars body =>
    exact ensures_vouched hc (Expression.quantified_vouches q vars body)
  | apply d fs => exact ensures_vouched hc (Functions.apply_vouches d fs)
  | nary op fs =>
    cases op with
    | junction j => exact ensures_inEnvironment hc (Expression.junction_ensures j c.env fs)
    | sum d =>
      exact ensures_vouched hc (Expression.managed_vouches _ (Numeral.sum_vouches d fs))
    | distinct d =>
      exact ensures_vouched hc
        (Expression.managed_vouches _ (.first (Numeral.distinct_vouches d fs)))
    | call name result arguments => exact ensures_call hc name result arguments fs
    | declareAndCall name result => exact ensures_call hc name result _ fs

/-- After work at a stack it is still there, in the environment of the same number. -/
theorem exists_site {α : Type} {e : Effect (Site σ) α} (he : Effect.Within Site.Reaches e)
    (hs : w.stack? id = some s) (hc : w.contexts[s.home]? = some c) :
    ∃ s' c', ((atStack id e).exec w).2.stack? id = some s' ∧
      ((atStack id e).exec w).2.contexts[s'.home]? = some c' ∧ c'.env.id = c.env.id := by
  obtain ⟨c', hc', hid, -⟩ := (atStack_stays he id w).exists_context hc
  obtain ⟨told, htrail⟩ := he (w.site c s)
  have hhome := (Site.remains_of_trail htrail).home
  rw [exec_atStack hs hc] at hc' ⊢
  exact ⟨_, c', (stack?_put hs _ _ id).trans (if_pos rfl), hhome ▸ hc', hid⟩

/-- An enumeration looks at the owners once it has opened its level. -/
theorem allSat_vouches {τ : Type} (hs : w.stack? id = some s)
    (hc : w.contexts[s.home]? = some c) (important : List BoolFormula)
    (callback : Nat → List BoolFormula → Effect (World σ × τ) Unit) (x : τ) :
    (allSat id important callback).Ensures (w, x) fun _ _ =>
      ∀ f ∈ important, f.formula.owner = c.env.id := by
  have hpush : (beside (atStack id (Site.push 1))).Ensures (w, x) fun _ y =>
      ∃ s' c', y.1.stack? id = some s' ∧ y.1.contexts[s'.home]? = some c' ∧
        c'.env.id = c.env.id := by
    rintro _ y hx
    rw [exec_beside, Prod.mk.injEq] at hx
    rw [← hx.2]
    exact exists_site (Site.reaches_of_passes (Site.push_passes 1)) hs hc
  rw [allSat_eq]
  refine .bind hpush fun _ y h => ?_
  obtain ⟨s', c', hs', hc', hid⟩ := h
  have hterms : (important.mapM (·.unwrap) : Effect Environment (List Term)).Ensures c'.env
      fun _ _ => ∀ f ∈ important, f.formula.owner = c.env.id := by
    intro ts env hx f hf
    exact (owner_of_unwraps (congrArg Prod.fst hx) f hf).trans hid
  have hread : (enumerate id important callback).Ensures y fun _ _ =>
      ∀ f ∈ important, f.formula.owner = c.env.id :=
    .bind (P := fun _ _ => ∀ f ∈ important, f.formula.owner = c.env.id)
      (.on (ensures_of_site hs' hc' (.on hterms))) fun _ _ h _ _ _ => h
  refine .bind (.attempt hread) fun out y' hout => ?_
  cases out with
  | error e => exact .later fun _ _ => .throw e
  | ok count => exact fun _ _ _ => hout count rfl

/-- Formulas of other environments are refused: by managers wherever an operand is examined, by
maps, and by stacks. -/
theorem foreign_refused (hc : w.contexts[ctx]? = some c) :
    (∀ m : Construction, (∃ f ∈ m.examined c.env, f.owner ≠ c.env.id) → (m.make ctx).Fails w) ∧
    (∀ (τ : Type) (r : FormulaMap τ) (t : τ) (f : BoolFormula), f.formula.owner ≠ c.env.id →
      ∃ x t' made w', (image ctx r t f).exec w = (.ok (.error x, t', made), w')) ∧
    ∀ id s, w.stack? id = some s → s.home = ctx →
      (∀ f partition, f.formula.owner ≠ c.env.id →
        (atStack id (Site.assert f partition)).Fails w) ∧
      (∀ f, f.owner ≠ c.env.id → (atStack id (Site.evaluate f)).Fails w) ∧
      ∀ (τ : Type) (important : List BoolFormula)
        (callback : Nat → List BoolFormula → Effect (World σ × τ) Unit) (x : τ),
        (∃ f ∈ important, f.formula.owner ≠ c.env.id) →
          (allSat id important callback).Fails (w, x) := by
  refine ⟨fun m hm => (ensures_make hc m).fails (by simpa using hm),
    fun τ r t f hf => image_of_foreign hc hf r t, ?_⟩
  rintro id s hs rfl
  refine ⟨fun f partition hf => ?_, fun f hf => ?_, fun τ important callback x hf => ?_⟩
  · exact (ensures_of_site hs hc (Site.ensures_assert f partition _)).fails hf
  · exact (ensures_of_site hs hc (Site.ensures_evaluate f _)).fails hf
  · exact (allSat_vouches hs hc important callback x).fails (by simpa using hf)

/-- Two environments: a literal and a stack of the first, a constant of the second. -/
def neighbours : World FoldingSolver :=
  afterAll [
    .addContext .everything false false default none,
    .addContext .everything false false default none, .build 0 (.truth false),
    .constant 1 .boolean "p", .openStack 0 .new false]

/-- The first literal that is made in an environment. -/
def firstOf (owner : Nat) : BoolFormula := ⟨⟨⟨0⟩, .boolean, owner, none⟩, rfl⟩

theorem foreign_refused_before_literal :
    let own := firstOf 0
    let foreign := firstOf 1
    ((Construction.nary (.junction .and) [foreign.formula, own.formula]).make 0).Fails neighbours ∧
      (atStack 0 (Site.assert foreign none)).Fails neighbours := by
  intro own foreign
  have hshape : (neighbours.contexts[0]?).map (fun c => c.env.id) = some 0 := by decide +kernel
  have hstack : (neighbours.stack? 0).map (·.home) = some 0 := by decide +kernel
  obtain ⟨c, hc, hid⟩ := Option.map_eq_some_iff.1 hshape
  obtain ⟨s, hs, hhome⟩ := Option.map_eq_some_iff.1 hstack
  have hforeign : foreign.formula.owner ≠ c.env.id := by
    rw [hid]
    decide
  obtain ⟨hmake, -, hstacks⟩ := foreign_refused hc
  refine ⟨hmake _ ⟨foreign.formula, ?_, hforeign⟩, (hstacks 0 s hs hhome).1 foreign none hforeign⟩
  have hreached : ¬ Junction.and.Absorbs c.env foreign.formula := fun h => hforeign h.1
  simp [Construction.examined, Junction.reached, hreached]

/-- Behind the literal nobody looks at the owner. -/
theorem foreign_accepted_behind_literal :
    let m := Construction.nary (.junction .and) [(firstOf 0).formula, (firstOf 1).formula]
    ((constant 1 .boolean "p").exec neighbours).1.toOption.map (fun f => (f.term, f.owner)) =
        some ((firstOf 1).term, (firstOf 1).formula.owner) ∧
      ∃ c, neighbours.contexts[0]? = some c ∧ (∃ f ∈ m.operands, f.owner ≠ c.env.id) ∧
        ¬ (m.make 0).Fails neighbours := by
  intro m
  have hshape : (neighbours.contexts[0]?).map (fun c => c.env.id) = some 0 := by decide +kernel
  have hok : ((m.make 0).exec neighbours).1.isOk = true := by decide +kernel
  obtain ⟨c, hc, hid⟩ := Option.map_eq_some_iff.1 hshape
  refine ⟨by decide +kernel, c, hc, ⟨(firstOf 1).formula, ?_, ?_⟩, ?_⟩
  · simp [m, Construction.operands]
  · rw [hid]
    decide
  · rintro ⟨x, w', hx⟩
    rw [hx] at hok
    cases hok

end World
end FormulaStack
