import FormulaStack.Arrays
import FormulaStack.Proofs.Widening

/-!
Where declared types and sorts differ. A choice and the operations over arrays compare the types
that their operands were declared with and convert no term, but the constructors that they call
compare sorts. So an integer that was wrapped as a rational passes their own checks and is refused
below, where it meets the term of a rational.
-/
namespace FormulaStack

open Effect Environment

/-- Two types that have to be one. -/
def FormulaType.agree (expected actual : FormulaType) : Except Fault Unit :=
  if expected = actual then .ok () else .error (.typeMismatch expected actual)

@[simp] theorem FormulaType.agree_self (type : FormulaType) : type.agree type = .ok () := if_pos rfl

theorem FormulaType.agree_eq_ok {a b : FormulaType} : a.agree b = .ok () ↔ a = b := by
  simp [agree]

theorem FormulaType.agree_of_ne {a b : FormulaType} (h : a ≠ b) :
    a.agree b = .error (.typeMismatch a b) := if_neg h

section

variable {α β : Type} {x : Except Fault α} {f : α → Except Fault β} {b : β}

theorem ok_bind (a : α) (f : α → Except Fault β) : (Except.ok a >>= f) = f a := rfl

theorem bind_eq_ok : x >>= f = .ok b ↔ ∃ a, x = .ok a ∧ f a = .ok b := by
  cases x with
  | ok a => simp [ok_bind]
  | error fault => exact ⟨nofun, nofun⟩

end

namespace Build

variable {α β : Type} {s : Store} {a b c t : Term} {i e k l : TermSort}

theorem bind_ok {b : Build α} {f : α → Build β} {r : α × Store} (h : b s = .ok r) :
    (b >>= f) s = f r.1 r.2 := by
  change (b s >>= fun r => f r.1 r.2) = _
  rw [h]
  rfl

/-- What comes after work that has one result unless a check fails. -/
theorem bind_checked {b : Build α} {f : α → Build β} {x : Except Fault Unit} {r : α × Store}
    (h : b s = x.map fun _ => r) : (b >>= f) s = x >>= fun _ => f r.1 r.2 := by
  change (b s >>= fun r => f r.1 r.2) = _
  rw [h]
  cases x <;> rfl

theorem sort_of_sort (ht : s.sort? t = some k) : Build.sort t s = .ok (k, s) :=
  sort_eq_ok.2 ⟨ht, rfl⟩

theorem expect_checked (ht : s.sort? t = some l) :
    expect k t s = (k.type.agree l.type).map fun _ => ((), s) := by
  rw [expect, bind_ok (sort_of_sort ht)]
  by_cases h : l = k
  · rw [if_pos h, h, FormulaType.agree_self]
    rfl
  · rw [if_neg h, FormulaType.agree_of_ne fun htypes => h (TermSort.type_injective htypes).symm]
    rfl

theorem commonSort_checked (ha : s.sort? a = some k) (hb : s.sort? b = some l) :
    commonSort [a, b] s = (k.type.agree l.type).map fun _ => (k, s) := by
  rw [commonSort, bind_ok (sort_of_sort ha), List.forM_eq_forM, List.forM_cons, bind_assoc,
    bind_checked (expect_checked hb)]
  cases k.type.agree l.type <;> rfl

theorem ite_checked (hc : s.sort? c = some .bool) (ha : s.sort? a = some k)
    (hb : s.sort? b = some l) :
    ite c a b s = (k.type.agree l.type).map fun _ => s.intern ⟨.ite, [c, a, b], k⟩ := by
  rw [ite, bind_ok (r := ((), s)) (expect_eq_ok.2 ⟨hc, rfl⟩),
    bind_checked (commonSort_checked ha hb)]
  cases k.type.agree l.type <;> rfl

theorem select_checked (ha : s.sort? a = some (.array i e)) (hb : s.sort? b = some k) :
    select a b s = (i.type.agree k.type).map fun _ => s.intern ⟨.select, [a, b], e⟩ := by
  rw [select, bind_ok (sort_of_sort ha)]
  refine (bind_checked (expect_checked hb)).trans ?_
  cases i.type.agree k.type <;> rfl

theorem store_checked (ha : s.sort? a = some (.array i e)) (hb : s.sort? b = some k)
    (hc : s.sort? c = some l) :
    store a b c s = (do i.type.agree k.type; e.type.agree l.type : Except Fault Unit).map
      fun _ => s.intern ⟨.store, [a, b, c], .array i e⟩ := by
  rw [store, bind_ok (sort_of_sort ha)]
  refine (bind_checked (expect_checked hb)).trans ?_
  cases i.type.agree k.type with
  | error x => rfl
  | ok _ =>
    change (expect e c >>= fun _ => _) s = _
    rw [bind_checked (expect_checked hc)]
    cases e.type.agree l.type <;> rfl

theorem constArray_of_sort (ht : s.sort? t = some k) :
    constArray i t s = .ok (s.intern ⟨.constArray, [t], .array i k⟩) := by
  rw [constArray, bind_ok (sort_of_sort ht)]
  rfl

end Build

/-- An operation whose operands have to be declared with types that match. -/
inductive TypedOperation where
  | ite (c : BoolFormula) (f g : Formula)
  | constant (index : FormulaType) (value : Formula)
  | select (array index : Formula)
  | store (array index value : Formula)
  | eq (f g : Formula)

namespace TypedOperation

def operands : TypedOperation → List Formula
  | ite c f g => [c.formula, f, g]
  | constant _ value => [value]
  | select array index => [array, index]
  | store array index value => [array, index, value]
  | eq f g => [f, g]

def perform : TypedOperation → Effect Environment Formula
  | ite c f g => Boolean.ite c f g
  | constant index value => Arrays.constant index value
  | select array index => Arrays.select array index
  | store array index value => Arrays.store array index value
  | eq f g => Expression.formula (Arrays.eq f g)

/-- The types of index and element of a formula that is declared as an array. -/
def arrayTypes (f : Formula) : Except Fault (FormulaType × FormulaType) :=
  match f.type.arrayTypes? with
  | some types => .ok types
  | none => .error (.typeMismatch (.array .integer .integer) f.type)

/-- The type that the declared types of the operands give, if they match. -/
def declared (env : Environment) : TypedOperation → Except Fault FormulaType
  | ite _ f g => do
    f.type.agree g.type
    return f.type
  | constant index value => do
    let _ ← env.sortOf index
    return .array index value.type
  | select array index => do
    let (indexType, elementType) ← arrayTypes array
    indexType.agree index.type
    return elementType
  | store array index value => do
    let (indexType, elementType) ← arrayTypes array
    indexType.agree index.type
    elementType.agree value.type
    return array.type
  | eq f g => do
    let _ ← arrayTypes f
    f.type.agree g.type
    return .boolean

/-- What the sorts of the terms have to be besides. -/
def sorted (env : Environment) : TypedOperation → Except Fault Unit
  | ite _ f g => do (← env.typeOf f.term).agree (← env.typeOf g.term)
  | constant index value => do
    (FormulaType.array index value.type).agree (.array index (← env.typeOf value.term))
  | select _ index => do index.type.agree (← env.typeOf index.term)
  | store _ index value => do
    index.type.agree (← env.typeOf index.term)
    value.type.agree (← env.typeOf value.term)
  | eq .. => return ()

/-- First the declared types have to match, then the sorts. -/
def expected (env : Environment) (op : TypedOperation) : Except Fault FormulaType := do
  let type ← op.declared env
  op.sorted env
  return type

end TypedOperation

namespace Environment

variable {α : Type} {env : Environment} {t : Term} {k : TermSort} {f : Formula}

/-- Work that is to end with a formula of a type, or with a fault. -/
def Gives (env : Environment) (expected : Except Fault FormulaType)
    (e : Effect Environment Formula) : Prop :=
  match expected with
  | .ok type => env.Yields (fun env f => f.type = type ∧ env.Types f) e
  | .error x => (e.exec env).1 = .error x

namespace Gives

variable {x : Except Fault FormulaType} {a b : FormulaType} {e : Effect Environment α}
  {p : α → Effect Environment Formula}

theorem ask_bind {q : Environment → Except Fault α} {a : α} (hq : q env = .ok a)
    (hp : env.Gives x (p a)) : env.Gives x (.ask q >>= p) := by
  unfold Gives at hp ⊢
  cases x with
  | ok type => exact .ask_bind hq hp
  | error fault => rwa [exec_ask_bind_ok hq]

/-- What is asked may be refused. -/
theorem ask_bind_of {q : Environment → Except Fault α} {y : α → Except Fault FormulaType}
    (hp : ∀ a, q env = .ok a → env.Gives (y a) (p a)) :
    env.Gives (q env >>= y) (.ask q >>= p) := by
  cases hq : q env with
  | ok a => exact ask_bind hq (hp a hq)
  | error fault => exact congrArg Prod.fst (exec_ask_bind_error hq p)

theorem yields_bind {R : Environment → α → Prop} (he : env.Yields R e)
    (hp : ∀ a env₁, env.Continues env₁ → R env₁ a → env₁.Gives x (p a)) :
    env.Gives x (e >>= p) := by
  obtain ⟨a, env₁, hx, hc, ha⟩ := he
  have hrest := hp a env₁ hc ha
  unfold Gives at hrest ⊢
  cases x with
  | ok type => exact .bind ⟨a, env₁, hx, hc, ha⟩ hp
  | error fault => rwa [exec_bind_ok hx]

/-- A check of declared types ahead of some work. -/
theorem checked (h : a = b → env.Gives x (e >>= p)) :
    env.Gives (do a.agree b; x) ((do
      if a ≠ b then throw (.typeMismatch a b)
      e) >>= p) := by
  by_cases hab : a = b
  · subst hab
    rw [FormulaType.agree_self]
    change env.Gives x _
    simpa using h rfl
  · rw [FormulaType.agree_of_ne hab, if_pos hab]
    rfl

end Gives

theorem gives_wrap (type : FormulaType) (ht : HasSort k env t) (haccepts : type.accepts k.type) :
    env.Gives (.ok type) (wrap type t) := by
  obtain ⟨ticket, handles, hx⟩ := exec_wrap ht haccepts
  exact ⟨_, _, hx, env.continues_handles handles, rfl, rfl, k, ht, haccepts⟩

theorem gives_refused {type : FormulaType} (ht : HasSort k env t)
    (hrefused : type.accepts k.type = false) :
    env.Gives (.error (.typeMismatch type k.type)) (wrap type t) := by
  change ((wrap type t).exec env).1 = .error _
  rw [wrap, exec_bind, exec_ask, typeOf_eq_ok.2 ⟨k, ht, rfl⟩]
  simp [hrefused]

/-- A new node as a formula, where the constructor only fails by its checks. -/
theorem gives_made {b : Build Term} {n : Node} {type : FormulaType} {x : Except Fault Unit}
    (hb : b env.terms = x.map fun _ => env.terms.intern n) (hgrows : b.Grows)
    (haccepts : type.accepts n.sort.type) :
    env.Gives (do x; return type) (do wrap type (← build b)) := by
  cases x with
  | ok _ =>
    exact (yields_build hb hgrows).bind fun t env₁ _ ht => gives_wrap type ht haccepts
  | error fault =>
    change ((build b >>= wrap type).exec env).1 = .error fault
    rw [exec_bind, exec_build, hb]
    rfl

/-- An integer that was wrapped as a rational. -/
def Wide (env : Environment) (f : Formula) : Prop :=
  f.type = .rational ∧ env.typeOf f.term = .ok .integer

/-- Only an integer can be declared otherwise than it is sorted. -/
theorem Types.sort_cases (hf : env.Types f) : ∃ k, env.terms.sort? f.term = some k ∧
    env.typeOf f.term = .ok k.type ∧ f.type.accepts k.type = true ∧
    (k.type = f.type ∨ env.Wide f) := by
  obtain ⟨k, hk, haccepts⟩ := hf.sort
  have htype : env.typeOf f.term = .ok k.type := typeOf_eq_ok.2 ⟨k, hk, rfl⟩
  refine ⟨k, hk, htype, haccepts, ?_⟩
  obtain hsame | ⟨hrational, hinteger⟩ := FormulaType.accepts_iff.1 haccepts
  · exact .inl hsame.symm
  · exact .inr ⟨hrational, hinteger ▸ htype⟩

theorem Types.wide_iff {type : FormulaType} (hf : env.Types f)
    (htype : env.typeOf f.term = .ok type) : env.Wide f ↔ type ≠ f.type := by
  obtain ⟨k, -, hk, -, hsame | hwide⟩ := hf.sort_cases
  all_goals obtain rfl := Except.ok.inj (hk.symm.trans htype)
  · refine ⟨fun hwide => ?_, fun h => (h hsame).elim⟩
    rw [hsame, hwide.1] at hk
    cases hk.symm.trans hwide.2
  · refine ⟨fun _ => ?_, fun _ => hwide⟩
    rw [hwide.1, Except.ok.inj (hk.symm.trans hwide.2)]
    nofun

/-- A formula that is not declared as a rational has the sort of its type. -/
theorem Types.sort_of_ne (hf : env.Types f) (hne : f.type ≠ .rational) (hk : k.type = f.type) :
    env.terms.sort? f.term = some k := by
  obtain ⟨l, hl, -, -, hsame | hwide⟩ := hf.sort_cases
  · rwa [TermSort.type_injective (hk.trans hsame.symm)]
  · exact (hne hwide.1).elim

theorem Types.array_sort {index element : FormulaType} (hf : env.Types f)
    (htype : f.type = .array index element) : ∃ i e : TermSort,
      env.terms.sort? f.term = some (.array i e) ∧ i.type = index ∧ e.type = element := by
  obtain ⟨k, hk, -, -, hsame | hwide⟩ := hf.sort_cases
  · rw [htype] at hsame
    cases k with
    | array i e =>
      obtain ⟨rfl, rfl⟩ := FormulaType.array.inj hsame
      exact ⟨i, e, hk, rfl, rfl⟩
    | _ => cases hsame
  · cases htype.symm.trans hwide.1

end Environment

namespace TypedOperation

variable {env : Environment} {c : BoolFormula} {f g array index value : Formula}

theorem gives_ite (hc : env.Types c.formula) (hf : env.Types f) (hg : env.Types g) :
    env.Gives (expected env (ite c f g)) (perform (ite c f g)) := by
  have hcond : env.terms.sort? c.formula.term = some .bool := by
    refine hc.sort_of_ne ?_ c.isBoolean.symm
    rw [c.isBoolean]
    nofun
  obtain ⟨k, hk, hktype, haccepts, -⟩ := hf.sort_cases
  obtain ⟨l, hl, hltype, -⟩ := hg.sort_cases
  simp only [expected, declared, sorted, hktype, hltype, bind_assoc, ok_bind, pure_bind]
  refine .checked fun _ => ?_
  simp only [bind_assoc, BoolFormula.unwrap]
  refine .ask_bind hc.unwrap_eq (.ask_bind hf.unwrap_eq (.ask_bind hg.unwrap_eq ?_))
  exact gives_made (Build.ite_checked hcond hk hl) (Constructor.ite _ _ _).grows haccepts

theorem gives_constant (type : FormulaType) (hvalue : env.Types value) :
    env.Gives (expected env (constant type value)) (perform (constant type value)) := by
  obtain ⟨l, hl, hltype, -, -⟩ := hvalue.sort_cases
  simp only [expected, declared, sorted, hltype, bind_assoc, ok_bind, pure_bind]
  refine .ask_bind_of (q := (·.sortOf type)) fun k hk => .ask_bind hvalue.unwrap_eq ?_
  obtain rfl := type_of_sortOf hk
  have hb := Build.constArray_of_sort (i := k) hl
  -- The constructor takes any value; it is the wrapping that compares the types of the arrays.
  refine .yields_bind (yields_build hb (Constructor.constArray k _).grows) fun t env₁ _ ht => ?_
  by_cases hsame : value.type = l.type
  · rw [hsame, FormulaType.agree_self]
    exact gives_wrap _ ht (FormulaType.accepts_self _)
  · have hne : FormulaType.array k.type value.type ≠ .array k.type l.type :=
      fun h => hsame (FormulaType.array.inj h).2
    rw [FormulaType.agree_of_ne hne]
    exact gives_refused ht (by simpa [FormulaType.accepts, TermSort.type] using hsame)

/-- An operation over a formula that has to be declared as an array. -/
theorem gives_types {p : FormulaType × FormulaType → Effect Environment Formula}
    {x : FormulaType × FormulaType → Except Fault FormulaType}
    (h : ∀ i e, array.type = .array i e → env.Gives (x (i, e)) (p (i, e))) :
    env.Gives (arrayTypes array >>= x) (Arrays.types array >>= p) := by
  unfold arrayTypes Arrays.types
  generalize htype : array.type = type at h ⊢
  cases type with
  | array i e => exact h i e rfl
  | _ => rfl

/-- An operand that has to be declared with a type. -/
theorem gives_ofType {type : FormulaType} {x : Except Fault FormulaType}
    {p : Term → Effect Environment Formula} (hf : env.Types f)
    (h : type = f.type → env.Gives x (p f.term)) :
    env.Gives (do type.agree f.type; x) (Arrays.ofType type f >>= p) :=
  .checked fun htype => .ask_bind hf.unwrap_eq (h htype)

theorem gives_select (harray : env.Types array) (hindex : env.Types index) :
    env.Gives (expected env (select array index)) (perform (select array index)) := by
  obtain ⟨k, hk, hktype, -⟩ := hindex.sort_cases
  simp only [expected, declared, sorted, hktype, bind_assoc, ok_bind, pure_bind]
  refine gives_types fun indexType elementType htype => ?_
  obtain ⟨i, e, hsort, rfl, rfl⟩ := harray.array_sort htype
  refine .ask_bind harray.unwrap_eq (gives_ofType hindex fun hi => ?_)
  rw [← hi]
  exact gives_made (Build.select_checked hsort hk) (Constructor.select _ _).grows
    (FormulaType.accepts_self _)

theorem gives_store (harray : env.Types array) (hindex : env.Types index)
    (hvalue : env.Types value) :
    env.Gives (expected env (store array index value)) (perform (store array index value)) := by
  obtain ⟨k, hk, hktype, -⟩ := hindex.sort_cases
  obtain ⟨l, hl, hltype, -⟩ := hvalue.sort_cases
  simp only [expected, declared, sorted, hktype, hltype, bind_assoc, ok_bind, pure_bind]
  refine gives_types fun indexType elementType htype => ?_
  obtain ⟨i, e, hsort, rfl, rfl⟩ := harray.array_sort htype
  refine .ask_bind harray.unwrap_eq (gives_ofType hindex fun hi => gives_ofType hvalue fun he => ?_)
  rw [← hi, ← he, htype]
  have hmade := gives_made (Build.store_checked hsort hk hl) (Constructor.store _ _ _).grows
    (FormulaType.accepts_self _)
  simpa only [bind_assoc, TermSort.type] using hmade

theorem gives_eq (hf : env.Types f) (hg : env.Types g) :
    env.Gives (expected env (eq f g)) (perform (eq f g)) := by
  simp only [expected, declared, sorted, bind_assoc, pure_bind]
  unfold perform Expression.formula Arrays.eq
  simp only [bind_assoc]
  refine gives_types fun indexType elementType htype => ?_
  refine .ask_bind hf.unwrap_eq (gives_ofType hg fun hsame => ?_)
  obtain ⟨i, e, hi, rfl, rfl⟩ := hf.array_sort htype
  have hj : env.terms.sort? g.term = some (.array i e) := by
    refine hg.sort_of_ne ?_ (htype.symm.trans hsame)
    rw [← hsame, htype]
    nofun
  have hb := Build.eq_of_sorts (a := f.term) (b := g.term) (by simpa using ⟨hi, hj⟩)
  refine .yields_bind (yields_build hb (Constructor.eq _ _).grows) fun t env₁ _ ht => ?_
  refine .yields_bind (yields_proposition ht) fun p env₂ _ hp => .pure ⟨hp.type, hp.types⟩

theorem gives_expected {op : TypedOperation} (hop : ∀ f ∈ op.operands, env.Types f) :
    env.Gives (op.expected env) op.perform := by
  cases op <;> simp only [operands, List.forall_mem_cons] at hop
  case ite => exact gives_ite hop.1 hop.2.1 hop.2.2.1
  case constant => exact gives_constant _ hop.1
  case select => exact gives_select hop.1 hop.2.1
  case store => exact gives_store hop.1 hop.2.1 hop.2.2.1
  case eq => exact gives_eq hop.1 hop.2.1

/-- An integer that was wrapped as a rational stands where the term of a rational is wanted. -/
def Mixes (env : Environment) : TypedOperation → Prop
  | ite _ f g => ¬(env.Wide f ↔ env.Wide g)
  | constant _ value => env.Wide value
  | select _ index => env.Wide index
  | store _ index value => env.Wide index ∨ env.Wide value
  | eq .. => False

theorem agree_typeOf (hf : env.Types f) :
    (env.typeOf f.term >>= f.type.agree) = .ok () ↔ ¬env.Wide f := by
  obtain ⟨k, -, hk, -⟩ := hf.sort_cases
  rw [hk, ok_bind, FormulaType.agree_eq_ok, hf.wide_iff hk, not_not, eq_comm]

/-- Two formulas of one declared type have one sort if both or neither was wrapped. -/
theorem agree_typeOf_typeOf (hf : env.Types f) (hg : env.Types g) (htypes : f.type = g.type) :
    (do (← env.typeOf f.term).agree (← env.typeOf g.term)) = .ok () ↔
      (env.Wide f ↔ env.Wide g) := by
  obtain ⟨k, -, hk, -⟩ := hf.sort_cases
  obtain ⟨l, -, hl, -⟩ := hg.sort_cases
  have hinteger : env.Wide f → env.Wide g → k.type = l.type := fun hf hg =>
    Except.ok.inj (hk.symm.trans (hf.2.trans (hg.2.symm.trans hl)))
  rw [hf.wide_iff hk, hg.wide_iff hl] at hinteger ⊢
  rw [hk, hl, ok_bind, ok_bind, FormulaType.agree_eq_ok]
  grind

theorem sorted_iff {op : TypedOperation} {type : FormulaType}
    (hop : ∀ f ∈ op.operands, env.Types f) (htype : op.declared env = .ok type) :
    op.sorted env = .ok () ↔ ¬op.Mixes env := by
  cases op <;> simp only [operands, List.forall_mem_cons] at hop
  case ite c f g =>
    obtain ⟨-, hf, hg, -⟩ := hop
    obtain ⟨_, htypes, -⟩ := bind_eq_ok.1 htype
    exact (agree_typeOf_typeOf hf hg (FormulaType.agree_eq_ok.1 htypes)).trans not_not.symm
  case constant index value =>
    obtain ⟨k, -, hk, -⟩ := hop.1.sort_cases
    rw [sorted, hk, ok_bind, FormulaType.agree_eq_ok, FormulaType.array.injEq, Mixes,
      hop.1.wide_iff hk, not_not]
    simp [eq_comm]
  case select => exact agree_typeOf hop.2.1
  case store array index value =>
    rw [Mixes, not_or, ← agree_typeOf hop.2.1, ← agree_typeOf hop.2.2.1, sorted, ← bind_assoc,
      bind_eq_ok]
    exact ⟨fun ⟨_, hindex, hvalue⟩ => ⟨hindex, hvalue⟩, fun h => ⟨(), h⟩⟩
  case eq => exact ⟨fun _ => not_false, fun _ => rfl⟩

/-- The declared types of operands and the sorts of their terms say what an operation gives. It
succeeds where the declared types match, except that an integer which was wrapped as a rational is
refused in the place of a rational, and beside one. -/
theorem sorts_decide (env : Environment) (op : TypedOperation)
    (hop : ∀ f ∈ op.operands, env.Types f) :
    env.Gives (op.expected env) op.perform ∧
    ∀ type, op.expected env = .ok type ↔ op.declared env = .ok type ∧ ¬op.Mixes env := by
  refine ⟨gives_expected hop, fun type => ⟨fun h => ?_, fun ⟨htype, hmixes⟩ => ?_⟩⟩
  · obtain ⟨_, htype, h⟩ := bind_eq_ok.1 h
    obtain ⟨_, hsorted, h⟩ := bind_eq_ok.1 h
    cases h
    exact ⟨htype, (sorted_iff hop htype).1 hsorted⟩
  · rw [expected, htype, ok_bind, (sorted_iff hop htype).2 hmixes]
    rfl

end TypedOperation

/-- Constants for a claim, an integer, a rational, and an array from rationals to rationals. -/
def crossed : Environment :=
  { Environment.new 0 .everything false false false with
    terms := Store.empty.serveAll
      [.construct (.constant "c" .bool), .construct (.constant "x" .int),
        .construct (.constant "y" .real), .construct (.constant "a" (.array .real .real))] }

/-- A choice between the integer, wrapped, and the rational is refused, and one between the integer
and itself is not. The integer is no index of the array, which the rational is. -/
theorem TypedOperation.sorts_decide_wrapped :
    let c : BoolFormula := ⟨⟨⟨0⟩, .boolean, 0, none⟩, rfl⟩
    let wide : Formula := ⟨⟨1⟩, .rational, 0, none⟩
    let y : Formula := ⟨⟨2⟩, .rational, 0, none⟩
    let a : Formula := ⟨⟨3⟩, .array .rational .rational, 0, none⟩
    (∀ f ∈ [c.formula, wide, y, a], crossed.Types f) ∧
    crossed.Gives (.error (.typeMismatch .integer .rational)) (Boolean.ite c wide y) ∧
    crossed.Gives (.ok .rational) (Boolean.ite c wide wide) ∧
    crossed.Gives (.error (.typeMismatch .rational .integer)) (Arrays.select a wide) ∧
    crossed.Gives (.ok (.array .rational .rational)) (Arrays.store a y y) := by
  intro c wide y a
  have hc : crossed.Types c.formula := ⟨rfl, .bool, by decide +kernel, rfl⟩
  have hwide : crossed.Types wide := ⟨rfl, .int, by decide +kernel, rfl⟩
  have hy : crossed.Types y := ⟨rfl, .real, by decide +kernel, rfl⟩
  have ha : crossed.Types a := ⟨rfl, .array .real .real, by decide +kernel, rfl⟩
  refine ⟨by simp [hc, hwide, hy, ha], ?_, ?_, ?_, ?_⟩
  · have h := (sorts_decide crossed (.ite c wide y) (by simp [operands, hc, hwide, hy])).1
    have hexpected : (ite c wide y).expected crossed =
        .error (.typeMismatch .integer .rational) := by decide +kernel
    exact hexpected ▸ h
  · have h := (sorts_decide crossed (.ite c wide wide) (by simp [operands, hc, hwide])).1
    have hexpected : (ite c wide wide).expected crossed = .ok .rational := by decide +kernel
    exact hexpected ▸ h
  · have h := (sorts_decide crossed (.select a wide) (by simp [operands, ha, hwide])).1
    have hexpected : (select a wide).expected crossed =
        .error (.typeMismatch .rational .integer) := by decide +kernel
    exact hexpected ▸ h
  · have h := (sorts_decide crossed (.store a y y) (by simp [operands, ha, hy])).1
    have hexpected : (store a y y).expected crossed = .ok (.array .rational .rational) := by
      decide +kernel
    exact hexpected ▸ h

end FormulaStack
