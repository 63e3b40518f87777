import FormulaStack.Proofs.Calculations
import FormulaStack.Proofs.Expressions

/-!
Valuations. An expression over truth values and numbers has a type, and a value in which every
variable is false or zero. What is built of it has this value exactly.
-/
namespace FormulaStack

open Environment

namespace Value

def isTrue : Value → Bool
  | truth b => b
  | _ => false

def rational : Value → Rat
  | number q => q
  | _ => 0

end Value

/-- The value of the variables of a type. -/
def FormulaType.default? : FormulaType → Option Value
  | .boolean => some (.truth false)
  | .integer | .rational => some (.number 0)
  | _ => none

/-- The type of a number in a domain. -/
def NumberDomain.typeOf? (d : NumberDomain) (q : Rat) : Option FormulaType :=
  if d = .integers ∧ q.den ≠ 1 then none else some d.type

namespace Expression

def Literal.value? : Literal → Option Value
  | truth b => some (.truth b)
  | number _ q => some (.number q)
  | numeral _ text => (Text.number? text).map .number
  | bits .. => none

def Literal.type? : Literal → Option FormulaType
  | truth _ => some .boolean
  | number d q => d.typeOf? q
  | numeral d text => (Text.number? text).bind d.typeOf?
  | bits .. => none

def Unary.type? (τ : FormulaType) : Unary → Option FormulaType
  | not => if τ = .boolean then some .boolean else none
  | neg d => if d.type.accepts τ then some d.type else none
  | _ => none

def Unary.value (v : Value) : Unary → Value
  | not => .truth !v.isTrue
  | neg _ => .number (-v.rational)
  | _ => v

def Connective.value : Connective → Bool → Bool → Bool
  | and => fun a b => a && b
  | or => fun a b => a || b
  | xor => fun a b => a != b
  | iff => fun a b => a == b
  | implies => fun a b => !a || b

/-- What an operator computes; a quotient is exact among rationals only, and a remainder never. -/
def Arithmetic.function? : NumberDomain → Arithmetic → Option (Rat → Rat → Rat)
  | _, add => some (· + ·)
  | _, sub => some (· - ·)
  | _, mul => some (· * ·)
  | .rationals, div => some (· / ·)
  | _, _ => none

def Comparison.value : Comparison → Rat → Rat → Bool
  | eq => fun a b => decide (a = b)
  | gt => fun a b => decide (b < a)
  | ge => fun a b => decide (b ≤ a)
  | lt => fun a b => decide (a < b)
  | le => fun a b => decide (a ≤ b)

def Binary.type? (σ τ : FormulaType) : Binary → Option FormulaType
  | connective _ => if σ = .boolean ∧ τ = .boolean then some .boolean else none
  | arithmetic d op =>
    if (op.function? d).isSome ∧ d.type.accepts σ ∧ d.type.accepts τ then some d.type else none
  | comparison d _ => if d.type.accepts σ ∧ d.type.accepts τ then some .boolean else none
  | _ => none

def Binary.value (v w : Value) : Binary → Value
  | connective op => .truth (op.value v.isTrue w.isTrue)
  | arithmetic d op => .number (((op.function? d).map fun f => f v.rational w.rational).getD 0)
  | comparison _ op => .truth (op.value v.rational w.rational)
  | _ => v

def Binary.divides : Binary → Bool
  | arithmetic _ .div => true
  | _ => false

def Ternary.type? (ρ σ τ : FormulaType) : Ternary → Option FormulaType
  | ite => if ρ = .boolean ∧ σ = τ then some σ else none
  | iteBool => if ρ = .boolean ∧ σ = .boolean ∧ τ = .boolean then some .boolean else none
  | store => none

def Ternary.value (u v w : Value) : Ternary → Value
  | ite | iteBool => if u.isTrue then v else w
  | store => u

def Nary.type? (τs : List FormulaType) : Nary → Option FormulaType
  | junction _ => if ∀ τ ∈ τs, τ = .boolean then some .boolean else none
  | sum d => if ∀ τ ∈ τs, d.type.accepts τ then some d.type else none
  | distinct d => if ∀ τ ∈ τs, d.type.accepts τ then some .boolean else none
  | _ => none

def Nary.value (vs : List Value) : Nary → Value
  | junction j => .truth (j.combine (vs.map (·.isTrue)))
  | sum _ => .number (vs.map (·.rational)).sum
  | distinct _ => .truth (decide (vs.map (·.rational)).Nodup)
  | call .. | declareAndCall .. => .truth false

mutual
/-- The type of an expression over truth values and numbers. A rational operator takes integers. -/
def type? : Expression → Option FormulaType
  | .literal l => l.type?
  | .variable τ _ => if τ.default?.isSome then some τ else none
  | .unary op e => do op.type? (← type? e)
  | .binary op e₁ e₂ => do op.type? (← type? e₁) (← type? e₂)
  | .ternary op e₁ e₂ e₃ => do op.type? (← type? e₁) (← type? e₂) (← type? e₃)
  | .nary op es => do op.type? (← types? es)
  | .quantifier .. => none

def types? : List Expression → Option (List FormulaType)
  | [] => some []
  | e :: es => return (← type? e) :: (← types? es)
end

mutual
/-- The value of an expression that has a type, with all variables false or zero. -/
def value : Expression → Value
  | .literal l => l.value?.getD (.truth false)
  | .variable τ _ => τ.default?.getD (.truth false)
  | .unary op e => op.value (value e)
  | .binary op e₁ e₂ => op.value (value e₁) (value e₂)
  | .ternary op e₁ e₂ e₃ => op.value (value e₁) (value e₂) (value e₃)
  | .nary op es => op.value (values es)
  | .quantifier _ _ e => value e

def values : List Expression → List Value
  | [] => []
  | e :: es => value e :: values es
end

mutual
/-- No part divides by a term of value zero. -/
def Regular : Expression → Prop
  | .literal _ | .variable .. => True
  | .unary _ e => Regular e
  | .binary op e₁ e₂ => Regular e₁ ∧ Regular e₂ ∧ (op.divides = true → e₂.value ≠ .number 0)
  | .ternary _ e₁ e₂ e₃ => Regular e₁ ∧ Regular e₂ ∧ Regular e₃
  | .nary _ es => AllRegular es
  | .quantifier _ vars e => AllRegular vars ∧ Regular e

def AllRegular : List Expression → Prop
  | [] => True
  | e :: es => Regular e ∧ AllRegular es
end

end Expression

/-! What the managers make of operands with exact values -/

namespace Environment

variable {env : Environment} {f : Formula} {p : BoolFormula} {τ : FormulaType} {v : Value}
  {b : Bool} {d : NumberDomain}

/-- The value of a formula is one of its type. -/
theorem ExactFormula.of (h : ExactFormula τ env f v) (henv : env.Orderly) :
    ∃ k : TermSort, k.type = τ ∧ Value.Of k v := by
  obtain ⟨k, hk, x, hx, rfl, hv⟩ := h.term
  exact ⟨x.sort, hk, (henv.wellFormed.wellSorted_of_tree? hx).of_known? hv⟩

/-- The value of a formula has a literal of its type. -/
theorem ExactFormula.exists_constant (h : ExactFormula τ env f v) (henv : env.Orderly) :
    ∃ c, v.constant? τ = some c := by
  obtain ⟨k, rfl, hv⟩ := h.of henv
  cases hv with
  | truth b => exact ⟨_, rfl⟩
  | integer z => exact ⟨_, by rw [TermSort.type, Value.constant?, if_pos (Rat.den_intCast z)]⟩
  | rational q => exact ⟨_, rfl⟩

theorem ExactFormula.exists_truth (h : ExactFormula .boolean env f v) (henv : env.Orderly) :
    ∃ b, v = .truth b := by
  obtain ⟨k, hk, hv⟩ := h.of henv
  obtain rfl : k = .bool := TermSort.type_injective hk
  cases hv
  exact ⟨_, rfl⟩

theorem ExactFormula.exists_number (h : ExactFormula τ env f v) (henv : env.Orderly)
    (hτ : d.type.accepts τ = true) : ∃ q, v = .number q ∧ Numeral.Operand d env f q := by
  obtain ⟨k, rfl, hv⟩ := h.of henv
  cases hv with
  | integer z => exact ⟨z, rfl, _, hτ, h⟩
  | rational q => exact ⟨q, rfl, _, hτ, h⟩
  | truth => cases d <;> cases hτ

namespace Yields

variable {α β : Type} {R : Environment → α → Prop} {S : Environment → β → Prop}
  {e : Effect Environment α}

theorem managed {t : Theory} (ht : t.isIn env.theories = true) (h : env.Yields R e) :
    env.Yields R (Expression.managed t e) := by
  have hrequire : (require t).exec env = (.ok (), env) := by
    unfold require
    rw [Effect.exec_bind_ok (Effect.exec_look _ _), if_pos ht]
    rfl
  obtain ⟨a, env₁, hx, hc, ha⟩ := h
  exact ⟨a, env₁, by rw [Expression.managed, Effect.exec_bind_ok hrequire, hx], hc, ha⟩

theorem formula {e : Effect Environment BoolFormula}
    (h : env.Yields (fun env p => ExactClaim env p b) e) :
    env.Yields (fun env f => ExactFormula .boolean env f (.truth b)) (Expression.formula e) :=
  h.bind fun _ _ _ hp => .pure hp

theorem claim_bind {k : BoolFormula → Effect Environment β}
    (h : ExactFormula .boolean env f (.truth b))
    (hk : ∀ p, ExactClaim env p b → env.Yields S (k p)) :
    env.Yields S (Expression.claim f >>= k) := by
  have hask : f.toBool = .ok ⟨f, h.type⟩ := dif_pos h.type
  exact .ask_bind hask (hk ⟨f, h.type⟩ h)

end Yields
end Environment

namespace Expression

section

variable {env : Environment} {f g h : Formula} {ρ σ τ : FormulaType} {u v w : Value}
  (henv : env.Orderly) (hnumerals : env.theories.numerals = true)
include henv hnumerals

omit henv in
theorem theory_isIn (d : NumberDomain) : d.theory.isIn env.theories = true := by
  cases d <;> exact hnumerals

theorem literal_exact (l : Literal) (hl : l.type? = some τ) :
    env.Yields (fun env f => ExactFormula τ env f (l.value?.getD (.truth false))) l.make := by
  have hnumber : ∀ {d : NumberDomain} {q}, d.typeOf? q = some τ →
      env.Yields (fun env f => ExactFormula τ env f (.number q)) (Numeral.constant d q) := by
    intro d q h
    obtain ⟨hhas, hτ⟩ := Option.ite_none_left_eq_some.1 h
    cases hτ
    exact Numeral.exact_constant henv hnumerals fun hd => by simpa [hd] using hhas
  cases l with
  | truth b =>
    cases hl
    exact .formula (Boolean.exact_constant henv b)
  | number d q => exact .managed (theory_isIn hnumerals d) (hnumber hl)
  | numeral d text =>
    obtain ⟨q, hq, hd⟩ := Option.bind_eq_some_iff.1 hl
    refine .managed (theory_isIn hnumerals d) ?_
    unfold Numeral.read
    simp only [hq, Literal.value?]
    exact hnumber hd
  | bits => cases hl

theorem unary_exact (op : Unary) (hop : op.type? σ = some τ) (hf : ExactFormula σ env f v) :
    env.Yields (fun env f => ExactFormula τ env f (op.value v)) (op.apply f) := by
  cases op with
  | not =>
    obtain ⟨rfl, hτ⟩ := Option.ite_none_right_eq_some.1 hop
    cases hτ
    obtain ⟨b, rfl⟩ := hf.exists_truth henv
    exact .formula (.claim_bind hf fun p hp => Boolean.exact_not henv hp)
  | neg d =>
    obtain ⟨hσ, hτ⟩ := Option.ite_none_right_eq_some.1 hop
    cases hτ
    obtain ⟨q, rfl, hq⟩ := hf.exists_number henv hσ
    exact .managed (theory_isIn hnumerals d) (Numeral.exact_neg henv hnumerals hq)
  | constantArray | bitNot | bitNeg | extract | body | eliminate => cases hop

omit hnumerals in
theorem connective_exact (op : Connective) {p q : BoolFormula} {a b : Bool}
    (hp : ExactClaim env p a) (hq : ExactClaim env q b) :
    env.Yields (fun env p => ExactClaim env p (op.value a b)) (op.apply p q) := by
  have hjunction : ∀ (j : Junction) {c : Bool}, j.combine [a, b] = c →
      env.Yields (fun env p => ExactClaim env p c) (Boolean.junction j p q) :=
    fun j _ hc => hc ▸ Boolean.exact_junction henv j hp hq
  cases op with
  | and => exact hjunction .and (by cases a <;> cases b <;> rfl)
  | or => exact hjunction .or (by cases a <;> cases b <;> rfl)
  | xor => exact Boolean.exact_xor henv hp hq
  | iff => exact Boolean.exact_iff henv hp hq
  | implies => exact Boolean.exact_implies henv hp hq

theorem arithmetic_exact {d : NumberDomain} {op : Arithmetic} {fn : Rat → Rat → Rat} {a b : Rat}
    (hop : op.function? d = some fn) (hdiv : op = .div → b ≠ 0) (hf : Numeral.Operand d env f a)
    (hg : Numeral.Operand d env g b) :
    env.Yields (fun env f => ExactFormula d.type env f (.number (fn a b))) (op.apply d f g) := by
  cases op with
  | add =>
    cases hop
    have hsum := Numeral.exact_sum henv hnumerals (.cons hf (.cons hg .nil))
    rwa [List.foldr_cons, List.foldr_cons, List.foldr_nil, add_zero] at hsum
  | sub =>
    cases hop
    exact Numeral.exact_sub henv hnumerals hf hg
  | mul =>
    cases hop
    exact Numeral.exact_mul henv hnumerals hf hg
  | div =>
    cases d with
    | integers => cases hop
    | rationals =>
      cases hop
      exact Numeral.exact_div henv hnumerals hf hg (hdiv rfl)
  | mod => cases d <;> cases hop

theorem comparison_exact {d : NumberDomain} (op : Comparison) {a b : Rat}
    (hf : Numeral.Operand d env f a) (hg : Numeral.Operand d env g b) :
    env.Yields (fun env p => ExactClaim env p (op.value a b)) (op.apply d f g) := by
  cases op with
  | eq => exact Numeral.exact_eq henv hnumerals hf hg
  | gt => exact Numeral.exact_compare henv hnumerals (by simp) rfl hf hg
  | ge => exact Numeral.exact_compare henv hnumerals (by simp) rfl hf hg
  | lt => exact Numeral.exact_compare henv hnumerals (by simp) rfl hf hg
  | le => exact Numeral.exact_compare henv hnumerals (by simp) rfl hf hg

theorem binary_exact (op : Binary) (hop : op.type? σ τ = some ρ)
    (hdiv : op.divides = true → w ≠ .number 0) (hf : ExactFormula σ env f v)
    (hg : ExactFormula τ env g w) :
    env.Yields (fun env f => ExactFormula ρ env f (op.value v w)) (op.apply f g) := by
  cases op with
  | connective op =>
    obtain ⟨⟨rfl, rfl⟩, hρ⟩ := Option.ite_none_right_eq_some.1 hop
    cases hρ
    obtain ⟨a, rfl⟩ := hf.exists_truth henv
    obtain ⟨b, rfl⟩ := hg.exists_truth henv
    exact .formula (.claim_bind hf fun p hp => .claim_bind hg fun q hq =>
      connective_exact henv op hp hq)
  | arithmetic d op =>
    obtain ⟨⟨hfn, hσ, hτ⟩, hρ⟩ := Option.ite_none_right_eq_some.1 hop
    cases hρ
    obtain ⟨fn, hfn⟩ := Option.isSome_iff_exists.1 hfn
    obtain ⟨a, rfl, ha⟩ := hf.exists_number henv hσ
    obtain ⟨b, rfl, hb⟩ := hg.exists_number henv hτ
    have hne : op = .div → b ≠ 0 := by
      rintro rfl rfl
      exact hdiv rfl rfl
    have hvalue : (Binary.arithmetic d op).value (.number a) (.number b) = .number (fn a b) := by
      rw [Binary.value, hfn]
      rfl
    rw [hvalue]
    exact .managed (theory_isIn hnumerals d) (arithmetic_exact henv hnumerals hfn hne ha hb)
  | comparison d op =>
    obtain ⟨⟨hσ, hτ⟩, hρ⟩ := Option.ite_none_right_eq_some.1 hop
    cases hρ
    obtain ⟨a, rfl, ha⟩ := hf.exists_number henv hσ
    obtain ⟨b, rfl, hb⟩ := hg.exists_number henv hτ
    exact .managed (theory_isIn hnumerals d) (.formula (comparison_exact henv hnumerals op ha hb))
  | select | arrayEq | bits | bitComparison | concat => cases hop

omit hnumerals in
theorem ternary_exact (op : Ternary) {υ : FormulaType} (hop : op.type? ρ σ τ = some υ)
    (hf : ExactFormula ρ env f u) (hg : ExactFormula σ env g v) (hh : ExactFormula τ env h w) :
    env.Yields (fun env f => ExactFormula υ env f (op.value u v w)) (op.apply f g h) := by
  cases op with
  | ite =>
    obtain ⟨⟨rfl, rfl⟩, hυ⟩ := Option.ite_none_right_eq_some.1 hop
    cases hυ
    obtain ⟨b, rfl⟩ := hf.exists_truth henv
    exact .claim_bind hf fun p hp => Boolean.exact_ite henv hp hg hh
  | iteBool =>
    obtain ⟨⟨rfl, rfl, rfl⟩, hυ⟩ := Option.ite_none_right_eq_some.1 hop
    cases hυ
    obtain ⟨a, rfl⟩ := hf.exists_truth henv
    obtain ⟨b, rfl⟩ := hg.exists_truth henv
    obtain ⟨c, rfl⟩ := hh.exists_truth henv
    have hvalue : Ternary.iteBool.value (.truth a) (.truth b) (.truth c) =
        .truth (if a then b else c) := by
      cases a <;> rfl
    rw [hvalue]
    exact .formula (.claim_bind hf fun p hp => .claim_bind hg fun q hq => .claim_bind hh fun r hr =>
      Boolean.exact_iteBool henv hp hq hr)
  | store => cases hop

end

/-- Operands of several types with their exact values. -/
def ExactOperands (τs : List FormulaType) (env : Environment) (fs : List Formula)
    (vs : List Value) : Prop :=
  List.Forall₂ (fun f v => ∃ τ ∈ τs, ExactFormula τ env f v) fs vs

section

variable {env : Environment} {fs : List Formula} {τs : List FormulaType} {vs : List Value}
  {d : NumberDomain} (henv : env.Orderly)
include henv

theorem ExactOperands.numbers (hτs : ∀ τ ∈ τs, d.type.accepts τ = true)
    (h : ExactOperands τs env fs vs) :
    List.Forall₂ (Numeral.Operand d env) fs (vs.map (·.rational)) := by
  refine List.forall₂_map_right_iff.2 (h.imp fun f v ⟨τ, hτ, hf⟩ => ?_)
  obtain ⟨q, rfl, hq⟩ := hf.exists_number henv (hτs τ hτ)
  exact hq

/-- The claims of boolean operands. -/
theorem ExactOperands.claims (hτs : ∀ τ ∈ τs, τ = .boolean) (h : ExactOperands τs env fs vs) :
    env.Yields (fun env ps => List.Forall₂ (ExactClaim env) ps (vs.map (·.isTrue)))
      (fs.mapM claim) := by
  have htruths : List.Forall₂ (fun f b => ExactFormula .boolean env f (.truth b)) fs
      (vs.map (·.isTrue)) := by
    refine List.forall₂_map_right_iff.2 (h.imp fun f v ⟨τ, hτ, hf⟩ => ?_)
    obtain rfl := hτs τ hτ
    obtain ⟨b, rfl⟩ := hf.exists_truth henv
    exact hf
  refine .mapM (P := fun env f b => ExactFormula .boolean env f (.truth b)) (Q := ExactClaim)
    (fun henv hc hf => hf.continue henv hc) (fun henv hc hp => hp.continue henv hc)
    (fun {env f b} _ _ hf => ?_) henv htruths
  have hclaim : env.Yields (fun env p => ExactClaim env p b) (claim f >>= pure) :=
    .claim_bind hf fun _ hp => .pure hp
  rwa [bind_pure] at hclaim

end
end Expression
end FormulaStack
