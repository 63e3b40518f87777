import FormulaStack.Proofs.Calculations
import FormulaStack.Proofs.Typing

/-!
Operators over numbers and function calls convert an operand by the sort of its term, whatever its
declared type. So they fail at no operand of a type that they take, and what they make has a type
that is exactly that of its sort.
-/
namespace FormulaStack

open Effect Environment

namespace Environment

variable {α β : Type} {env env₁ : Environment} {t : Term} {k : TermSort} {f : Formula}
  {wanted more : List (FormulaType × Formula)}

/-- Work that takes formulas where types are wanted: it gives what `R` holds of, or refuses the
first formula of a type that is not accepted. -/
def Takes (env : Environment) (wanted : List (FormulaType × Formula))
    (R : Environment → α → Prop) (e : Effect Environment α) : Prop :=
  match wanted.find? fun p => !p.1.accepts p.2.type with
  | none => env.Yields R e
  | some p => (e.exec env).1 = .error (.typeMismatch p.1 p.2.type)

namespace Takes

variable {R : Environment → α → Prop} {S : Environment → β → Prop} {e : Effect Environment α}
  {k : α → Effect Environment β}

theorem nil (h : env.Yields R e) : env.Takes [] R e := h

theorem yields (h : env.Takes wanted R e)
    (haccepts : ∀ p ∈ wanted, p.1.accepts p.2.type = true) : env.Yields R e := by
  have hnone : (wanted.find? fun p => !p.1.accepts p.2.type) = none := by
    simpa using haccepts
  rwa [Takes, hnone] at h

theorem refuses {p : FormulaType × Formula} (h : env.Takes wanted R e)
    (hp : (wanted.find? fun p => !p.1.accepts p.2.type) = some p) :
    (e.exec env).1 = .error (.typeMismatch p.1 p.2.type) := by
  rwa [Takes, hp] at h

/-- The first work takes some of the formulas, and what follows takes the others. -/
theorem bind (h : env.Takes wanted R e)
    (hk : ∀ a env₁, env.Continues env₁ → R env₁ a → env₁.Takes more S (k a)) :
    env.Takes (wanted ++ more) S (e >>= k) := by
  unfold Takes at h hk ⊢
  rw [List.find?_append]
  cases hfirst : wanted.find? fun p => !p.1.accepts p.2.type with
  | some p =>
    rw [hfirst] at h
    exact congrArg Prod.fst (exec_bind_error (Prod.ext h rfl) k)
  | none =>
    rw [hfirst] at h
    rw [Option.none_or]
    cases hmore : more.find? fun p => !p.1.accepts p.2.type with
    | none => exact Yields.bind h fun a env₁ hc ha => by simpa only [hmore] using hk a env₁ hc ha
    | some p =>
      obtain ⟨a, env₁, hx, hc, ha⟩ := h
      have hrest := hk a env₁ hc ha
      rw [hmore] at hrest
      rw [exec_bind_ok hx]
      exact hrest

theorem look_bind {g : Environment → α} (h : env.Takes wanted S (k (g env))) :
    env.Takes wanted S (.look g >>= k) := by
  unfold Takes at h ⊢
  rwa [Effect.exec_bind_ok (exec_look g env)]

theorem then_yields (h : env.Takes wanted R e)
    (hk : ∀ a env₁, env.Continues env₁ → R env₁ a → env₁.Yields S (k a)) :
    env.Takes wanted S (e >>= k) :=
  List.append_nil wanted ▸ h.bind fun a env₁ hc ha => nil (hk a env₁ hc ha)

end Takes

/-- A term of a sort. -/
def HasSort (k : TermSort) (env : Environment) (t : Term) : Prop := env.terms.sort? t = some k

/-- A formula over a term of a sort, with the type of that sort. -/
structure Precise (k : TermSort) (env : Environment) (f : Formula) : Prop where
  owner : f.owner = env.id
  type : f.type = k.type
  sort : env.HasSort k f.term

theorem Precise.types (hf : Precise k env f) : env.Types f :=
  ⟨hf.owner, k, hf.sort, hf.type ▸ FormulaType.accepts_self _⟩

theorem HasSort.evolve (h : HasSort k env t) (he : env.Evolves env₁) : HasSort k env₁ t :=
  he.terms.extension.sort? h

theorem yields_build {b : Build Term} {n : Node} (hb : b env.terms = .ok (env.terms.intern n))
    (hgrows : b.Grows) : env.Yields (HasSort n.sort) (build b) := by
  have hx : (build b).exec env = (.ok (env.terms.intern n).1,
      { env with terms := (env.terms.intern n).2 }) := by
    rw [exec_build, hb]
  have hc : env.Continues ((build b).exec env).2 := build_continues hgrows env
  rw [hx] at hc
  exact ⟨_, _, hx, hc, Store.sort?_intern env.terms n⟩

theorem yields_precise (ht : HasSort k env t) : env.Yields (Precise k) (wrap k.type t) := by
  obtain ⟨ticket, handles, hx⟩ := exec_wrap ht (FormulaType.accepts_self k.type)
  exact ⟨_, _, hx, env.continues_handles handles, rfl, rfl, ht⟩

theorem yields_proposition (ht : HasSort .bool env t) :
    env.Yields (fun env p => Precise .bool env p.formula) (wrapBool t) := by
  refine .ask_bind (typeOf_eq_ok.2 ⟨.bool, ht, rfl⟩) ?_
  exact ⟨_, _, rfl, env.continues_handles _, rfl, rfl, ht⟩

end Environment

namespace Numeral

variable {env : Environment} {d : NumberDomain} {f g : Formula} {fs : List Formula}

/-- A formula may be typed wider than its term is sorted. What accepts the formula accepts the
term. -/
theorem accepts_trans {type : FormulaType} {k : TermSort} (h : type.accepts f.type = true)
    (hk : f.type.accepts k.type = true) : type.accepts k.type = true := by
  obtain hsame | ⟨hwide, hinteger⟩ := FormulaType.accepts_iff.1 h
  · rwa [hsame]
  · rw [hinteger] at hk
    obtain hsort | ⟨hrational, -⟩ := FormulaType.accepts_iff.1 hk
    · exact FormulaType.accepts_iff.2 (.inr ⟨hwide, hsort.symm⟩)
    · cases hrational

/-- A term is converted to the sort that a type has, whatever the formula said of its own. -/
theorem yields_widened {type : FormulaType} {k l : TermSort} {t : Term}
    (hl : env.sortOf type = .ok l) (ht : HasSort k env t) (haccepts : type.accepts k.type = true) :
    env.Yields (HasSort l) (widened type t) := by
  have htype : l.type = type := type_of_sortOf hl
  refine .ask_bind (typeOf_eq_ok.2 ⟨k, ht, rfl⟩) ?_
  obtain hsame | ⟨hrational, hinteger⟩ := FormulaType.accepts_iff.1 haccepts
  · have hif : ¬(type = .rational ∧ k.type = .integer) := by
      rintro ⟨hrational, hinteger⟩
      cases hrational.symm.trans (hsame.trans hinteger)
    rw [if_neg hif]
    obtain rfl : l = k := TermSort.type_injective (htype.trans hsame)
    exact .pure ht
  · rw [if_pos ⟨hrational, hinteger⟩]
    obtain rfl : l = .real := TermSort.type_injective (htype.trans hrational)
    obtain rfl : k = .int := TermSort.type_injective hinteger
    have hnumerals : env.theories.numerals = true := by
      by_contra hno
      simp [hrational, sortOf, hno] at hl
    refine .look_bind ?_
    simp only [hnumerals, if_true]
    exact yields_build (Build.toReal_of_sort ht) (Constructor.toReal t).grows

/-- The check of a declared type, and the conversion to its sort. -/
theorem takes_checked {type : FormulaType} {l : TermSort} (hl : env.sortOf type = .ok l)
    (hf : env.Types f) :
    env.Takes [(type, f)] (HasSort l) (do
      unless type.accepts f.type do throw (.typeMismatch type f.type)
      widened type (← .ask (·.unwrap f))) := by
  obtain ⟨k, hk, haccepts⟩ := hf.sort
  unfold Takes
  cases haccepted : type.accepts f.type with
  | false => simp [haccepted]
  | true =>
    simp only [List.find?_cons, haccepted, Bool.not_true, List.find?_nil, if_true]
    exact .ask_bind hf.unwrap_eq (yields_widened hl hk (accepts_trans haccepted haccepts))

theorem sortOf_domain (hd : d.theory.isIn env.theories = true) :
    env.sortOf d.type = .ok d.sort := by
  have hnumerals : env.theories.numerals = true := by cases d <;> exact hd
  cases d <;> simp [NumberDomain.type, NumberDomain.sort, sortOf, hnumerals]

theorem takes_operand (hd : d.theory.isIn env.theories = true) (hf : env.Types f) :
    env.Takes [(d.type, f)] (HasSort d.sort) (operand d f) :=
  takes_checked (sortOf_domain hd) hf

/-- Terms for formulas, all of one sort. -/
structure Operands (d : NumberDomain) (count : Nat) (env : Environment) (ts : List Term) :
    Prop where
  length : ts.length = count
  sorts : ∀ t ∈ ts, HasSort d.sort env t

theorem takes_operands (hd : d.theory.isIn env.theories = true) (hfs : ∀ f ∈ fs, env.Types f) :
    env.Takes (fs.map (d.type, ·)) (Operands d fs.length) (fs.mapM (operand d)) := by
  induction fs generalizing env with
  | nil => exact .nil (.pure ⟨rfl, by simp⟩)
  | cons f fs ih =>
    obtain ⟨hf, hfs⟩ := List.forall_mem_cons.1 hfs
    rw [List.mapM_cons]
    refine (takes_operand hd hf).bind fun t env₁ hc ht => ?_
    have hd₁ : d.theory.isIn env₁.theories = true := by rwa [hc.theories]
    refine (ih hd₁ fun g hg => (hfs g hg).evolve hc.toEvolves).then_yields
      fun ts env₂ hc₂ hts => .pure ⟨by simp [hts.length], ?_⟩
    exact List.forall_mem_cons.2 ⟨ht.evolve hc₂.toEvolves, hts.sorts⟩

theorem takes_pair {α : Type} {R : Environment → α → Prop}
    {work : Term → Term → Effect Environment α} (hd : d.theory.isIn env.theories = true)
    (hf : env.Types f) (hg : env.Types g)
    (hwork : ∀ t u env₁, (∀ x ∈ [t, u], HasSort d.sort env₁ x) → env₁.Yields R (work t u)) :
    env.Takes [(d.type, f), (d.type, g)] R (do work (← operand d f) (← operand d g)) := by
  refine (takes_operand hd hf).bind fun t env₁ hc ht => ?_
  have hd₁ : d.theory.isIn env₁.theories = true := by rwa [hc.theories]
  refine (takes_operand hd₁ (hg.evolve hc.toEvolves)).then_yields fun u env₂ hc₂ hu => ?_
  exact hwork t u env₂ (by simpa using ⟨ht.evolve hc₂.toEvolves, hu⟩)

/-- A node of the sort of a domain, as a formula. -/
theorem yields_made {b : Build Term} {o : Operator} {ts : List Term}
    (hb : b env.terms = .ok (env.terms.intern ⟨o, ts, d.sort⟩)) (hgrows : b.Grows) :
    env.Yields (Precise d.sort) (do wrap d.type (← build b)) :=
  (yields_build hb hgrows).bind fun _ _ _ ht => d.type_sort ▸ yields_precise ht

theorem yields_related {b : Build Term} {o : Operator} {ts : List Term}
    (hb : b env.terms = .ok (env.terms.intern ⟨o, ts, .bool⟩)) (hgrows : b.Grows) :
    env.Yields (fun env p => Precise .bool env p.formula) (do wrapBool (← build b)) :=
  (yields_build hb hgrows).bind fun _ _ _ ht => yields_proposition ht

theorem yields_zero (hd : d.theory.isIn env.theories = true) :
    env.Yields (Precise d.sort) (constant d 0) := by
  have hif : ¬(d = .integers ∧ (0 : Rat).den ≠ 1) := by simp
  unfold constant
  simp only [if_neg hif]
  refine .ask_bind (sortOf_domain hd) ?_
  cases d with
  | integers => exact yields_made (d := .integers) rfl (.numeral 0 .int)
  | rationals => exact yields_made (d := .rationals) rfl (.numeral 0 .real)

/-- What a manager of numbers makes of formulas. -/
inductive Operation where
  | neg (f : Formula)
  | arithmetic (op : Expression.Arithmetic) (f g : Formula)
  | sum (fs : List Formula)
  | comparison (op : Expression.Comparison) (f g : Formula)
  | distinct (fs : List Formula)

namespace Operation

def operands : Operation → List Formula
  | neg f => [f]
  | arithmetic _ f g | comparison _ f g => [f, g]
  | sum fs | distinct fs => fs

def perform (d : NumberDomain) : Operation → Effect Environment Formula
  | neg f => Numeral.neg d f
  | arithmetic op f g => op.apply d f g
  | sum fs => Numeral.sum d fs
  | comparison op f g => Expression.formula (op.apply d f g)
  | distinct fs => Expression.formula (Numeral.distinct d fs)

/-- The sort of what an operation makes. -/
def sort (d : NumberDomain) : Operation → TermSort
  | neg _ | arithmetic .. | sum _ => d.sort
  | comparison .. | distinct _ => .bool

/-- There is no remainder of rationals, and fewer than two formulas are not looked at to see whether
they differ. -/
def Offered (d : NumberDomain) : Operation → Prop
  | arithmetic .mod _ _ => d = .integers
  | distinct fs => 2 ≤ fs.length
  | _ => True

end Operation

variable (hd : d.theory.isIn env.theories = true)
include hd

theorem takes_sum (hfs : ∀ f ∈ fs, env.Types f) :
    env.Takes (fs.map (d.type, ·)) (Precise d.sort) (sum d fs) := by
  match fs with
  | [] => exact .nil (yields_zero hd)
  | [f] =>
    refine (takes_operand hd (hfs f (by simp))).then_yields fun t env₁ _ ht => ?_
    exact d.type_sort ▸ yields_precise ht
  | f :: g :: fs =>
    refine (takes_operands hd hfs).then_yields fun ts env₁ _ hts => ?_
    have hne : ts ≠ [] := by
      rintro rfl
      cases hts.length
    exact yields_made (Build.arith_of_sorts d.numeric hne hts.sorts) (Constructor.add ts).grows

theorem takes_arithmetic {op : Expression.Arithmetic} (hop : op = .mod → d = .integers)
    (hf : env.Types f) (hg : env.Types g) :
    env.Takes [(d.type, f), (d.type, g)] (Precise d.sort) (op.apply d f g) := by
  cases op with
  | add => exact takes_sum hd (List.forall_mem_cons.2 ⟨hf, List.forall_mem_singleton.2 hg⟩)
  | sub =>
    exact takes_pair hd hf hg fun t u _ h =>
      yields_made (Build.arith_of_sorts d.numeric (by simp) h) (Constructor.sub t u).grows
  | mul =>
    exact takes_pair hd hf hg fun t u _ h =>
      yields_made (Build.arith_of_sorts d.numeric (by simp) h) (Constructor.mul t u).grows
  | div =>
    exact takes_pair hd hf hg fun t u _ h =>
      yields_made (Build.divide_of_sorts d.numeric h) (Constructor.divide t u).grows
  | mod =>
    obtain rfl := hop rfl
    exact takes_pair hd hf hg fun t u _ h =>
      yields_made (Build.modulo_of_sorts h) (Constructor.modulo t u).grows

theorem takes_comparison (op : Expression.Comparison) (hf : env.Types f) (hg : env.Types g) :
    env.Takes [(d.type, f), (d.type, g)] (fun env p => Precise .bool env p.formula)
      (op.apply d f g) := by
  have hcompare : ∀ o (ho : o ∈ [ArithOp.lt, .le, .gt, .ge]),
      env.Takes [(d.type, f), (d.type, g)] (fun env p => Precise .bool env p.formula)
        (relation d (Build.compare o) f g) := fun o ho =>
    takes_pair hd hf hg fun t u _ h =>
      yields_related (Build.compare_of_sorts o d.numeric h) (Constructor.compare o ho t u).grows
  cases op with
  | eq =>
    exact takes_pair hd hf hg fun t u _ h =>
      yields_related (Build.eq_of_sorts h) (Constructor.eq t u).grows
  | gt => exact hcompare .gt (by simp)
  | ge => exact hcompare .ge (by simp)
  | lt => exact hcompare .lt (by simp)
  | le => exact hcompare .le (by simp)

theorem takes_distinct (hlength : 2 ≤ fs.length) (hfs : ∀ f ∈ fs, env.Types f) :
    env.Takes (fs.map (d.type, ·)) (fun env p => Precise .bool env p.formula)
      (distinct d fs) := by
  unfold distinct
  rw [if_neg (Nat.not_lt.2 hlength)]
  refine (takes_operands hd hfs).then_yields fun ts env₁ _ hts => ?_
  exact yields_related (Build.distinct_of_sorts (hts.length ▸ hlength) hts.sorts)
    (Constructor.distinct ts).grows

theorem takes_operation {op : Operation} (hop : op.Offered d)
    (hfs : ∀ f ∈ op.operands, env.Types f) :
    env.Takes (op.operands.map (d.type, ·)) (Precise (op.sort d)) (op.perform d) := by
  cases op with
  | neg f =>
    refine (takes_operand hd (hfs f (by simp [Operation.operands]))).then_yields
      fun t env₁ _ ht => ?_
    exact yields_made (Build.arith_of_sorts d.numeric (by simp)
      (List.forall_mem_singleton.2 ht))
      (Constructor.neg t).grows
  | arithmetic op f g =>
    refine takes_arithmetic hd (fun h => ?_) (hfs f (by simp [Operation.operands]))
      (hfs g (by simp [Operation.operands]))
    subst h
    exact hop
  | sum fs => exact takes_sum hd hfs
  | comparison op f g =>
    refine (takes_comparison hd op (hfs f ?_) (hfs g ?_)).then_yields fun p _ _ hp => .pure hp
    all_goals simp [Operation.operands]
  | distinct fs => exact (takes_distinct hd hop hfs).then_yields fun p _ _ hp => .pure hp

end Numeral

/-- A function that was declared in an environment. -/
structure Environment.HasFunction (env : Environment) (d : FunctionDeclaration) : Prop where
  owner : d.owner = env.id
  signature : ∃ ks k, List.Forall₂ (fun type k => env.sortOf type = .ok k) d.arguments ks ∧
    env.sortOf d.result = .ok k ∧ env.terms.decl? d.decl = some ⟨d.name, ks, k⟩

theorem Environment.HasFunction.evolve {env env₁ : Environment} {d : FunctionDeclaration}
    (h : env.HasFunction d) (he : env.Evolves env₁) : env₁.HasFunction d := by
  obtain ⟨ks, k, hks, hk, hdecl⟩ := h.signature
  refine ⟨h.owner.trans he.id.symm, ks, k, ?_, ?_, he.terms.extension.decl? _ _ hdecl⟩
  · rwa [sortOf_congr he.theories]
  · rwa [sortOf_congr he.theories]

namespace Functions

variable {env env₁ : Environment} {d : FunctionDeclaration} {f : Formula} {fs : List Formula}

/-- Every function that is requested is declared. -/
theorem ensures_function (henv : env.Registered) (name : String) (types : List FormulaType)
    (result : FormulaType) :
    (requestFunction name types result).Ensures env fun r env₁ => env₁.HasFunction r.1 := by
  intro r env₁ hx
  rw [exec_requestFunction] at hx
  split at hx
  · cases hx
  · split at hx
    · next decl hlookup =>
      obtain ⟨ks, k, hks, hk, hdecl⟩ := henv.function _ _ _ _ (mem_of_lookup hlookup)
      cases hx
      exact ⟨rfl, ks, k, hks, hk, hdecl⟩
    · split at hx
      · cases hx
      · next ks hks =>
        split at hx
        · cases hx
        · next k hk =>
          cases hx
          exact ⟨rfl, ks, k, mapM_eq_ok.1 hks, hk, Store.decl?_internDecl _ _⟩

theorem arguments_cons (fs : List Formula) (type : FormulaType) (types : List FormulaType) :
    arguments (f :: fs) (type :: types) = (do
      unless type.accepts f.type do throw (.typeMismatch type f.type)
      Numeral.widened type (← .ask (·.unwrap f))) >>= fun t =>
        arguments fs types >>= fun ts => pure (t :: ts) := by
  rw [arguments]
  split <;> simp

theorem takes_arguments {types : List FormulaType} {ks : List TermSort}
    (hks : List.Forall₂ (fun type k => env.sortOf type = .ok k) types ks)
    (hlength : types.length = fs.length) (hfs : ∀ f ∈ fs, env.Types f) :
    env.Takes (types.zip fs) (fun env ts => env.terms.Sorts ts ks) (arguments fs types) := by
  induction types generalizing env fs ks with
  | nil =>
    cases hks
    obtain rfl := List.length_eq_zero_iff.1 hlength.symm
    exact .nil (.pure .nil)
  | cons type types ih =>
    obtain ⟨k, ks, hk, hks, rfl⟩ := List.forall₂_cons_left_iff.1 hks
    cases fs with
    | nil => cases hlength
    | cons f fs =>
      obtain ⟨hf, hfs⟩ := List.forall_mem_cons.1 hfs
      rw [arguments_cons]
      refine (Numeral.takes_checked hk hf).bind fun t env₁ hc ht => ?_
      have hks₁ : List.Forall₂ (fun type k => env₁.sortOf type = .ok k) types ks := by
        rwa [sortOf_congr hc.theories]
      refine (ih hks₁ (Nat.succ.inj hlength) fun g hg => (hfs g hg).evolve hc.toEvolves).then_yields
        fun ts env₂ hc₂ hts => .pure ?_
      exact .cons (ht.evolve hc₂.toEvolves) hts

/-- A call of a function. -/
theorem takes_call (hd : env.HasFunction d) (hlength : d.arguments.length = fs.length)
    (hfs : ∀ f ∈ fs, env.Types f) :
    ∃ k, env.sortOf d.result = .ok k ∧ k.type = d.result ∧
      env.Takes (d.arguments.zip fs) (Precise k) (apply d fs) := by
  obtain ⟨ks, k, hks, hk, hdecl⟩ := hd.signature
  have htype : k.type = d.result := type_of_sortOf hk
  refine ⟨k, hk, htype, .look_bind ?_⟩
  rw [if_neg (not_not.2 hd.owner), if_neg (not_not.2 hlength)]
  refine (takes_arguments hks hlength hfs).then_yields fun ts env₁ hc hts => ?_
  have hb := Build.apply_of_sorts (hc.terms.extension.decl? _ _ hdecl) hts
  refine (yields_build hb (Constructor.apply d.decl ts).grows).bind fun t env₂ _ ht => ?_
  exact htype ▸ yields_precise ht

end Functions

/-- Operators over numbers and function calls give formulas of exactly their sorts from all operands
of types that they accept, and refuse the first operand of another type. The functions are those
that were requested. -/
theorem widening_total (env : Environment) :
    (∀ (d : NumberDomain) (op : Numeral.Operation), d.theory.isIn env.theories = true →
      op.Offered d → (∀ f ∈ op.operands, env.Types f) →
      env.Takes (op.operands.map (d.type, ·)) (Precise (op.sort d)) (op.perform d)) ∧
    (∀ (d : FunctionDeclaration) (fs : List Formula), env.HasFunction d →
      d.arguments.length = fs.length → (∀ f ∈ fs, env.Types f) →
      ∃ k, env.sortOf d.result = .ok k ∧ k.type = d.result ∧
        env.Takes (d.arguments.zip fs) (Precise k) (Functions.apply d fs)) ∧
    ∀ name types result r env₁ env₂, env.Registered →
      (requestFunction name types result).exec env = (.ok r, env₁) → env₁.Evolves env₂ →
      env₂.HasFunction r.1 := by
  refine ⟨fun d op hd hop hfs => Numeral.takes_operation hd hop hfs,
    fun d fs hd hlength hfs => Functions.takes_call hd hlength hfs, ?_⟩
  intro name types result r env₁ env₂ henv hx he
  exact (Functions.ensures_function henv name types result r env₁ hx).evolve he

/-- A constant for an integer, and one for a rational. -/
def mixed : Environment :=
  { Environment.new 0 .everything false false false with
    terms := Store.empty.serveAll
      [.construct (.constant "x" .int), .construct (.constant "y" .real)] }

/-- Rationals are summed, and a function of a rational is called, over an integer as such and over
one that was wrapped as a rational. A sum of integers refuses the rational. -/
theorem widening_total_mixed :
    let x : Formula := ⟨⟨0⟩, .integer, 0, none⟩
    let wide : Formula := ⟨⟨0⟩, .rational, 0, none⟩
    let y : Formula := ⟨⟨1⟩, .rational, 0, none⟩
    mixed.Types x ∧ mixed.Types wide ∧ mixed.Types y ∧
    mixed.Yields (Precise .real) (Numeral.sum .rationals [x, wide, y]) ∧
    ((Numeral.sum .integers [x, y]).exec mixed).1 = .error (.typeMismatch .integer .rational) ∧
    ∃ r env, (requestFunction "f" [.rational, .rational] .rational).exec mixed = (.ok r, env) ∧
      env.Yields (Precise .real) (Functions.apply r.1 [x, wide]) := by
  intro x wide y
  have hx : mixed.Types x := ⟨rfl, .int, by decide +kernel, rfl⟩
  have hwide : mixed.Types wide := ⟨rfl, .int, by decide +kernel, rfl⟩
  have hy : mixed.Types y := ⟨rfl, .real, by decide +kernel, rfl⟩
  have hregistered : mixed.Registered :=
    ⟨rfl, fun _ _ _ h => (List.not_mem_nil h).elim, fun _ _ _ _ h => (List.not_mem_nil h).elim⟩
  obtain ⟨hoperations, -, hfunctions⟩ := widening_total mixed
  refine ⟨hx, hwide, hy, ?_, ?_, ?_⟩
  · refine (hoperations .rationals (.sum [x, wide, y]) rfl trivial ?_).yields (by decide)
    simpa [Numeral.Operation.operands] using ⟨hx, hwide, hy⟩
  · refine (hoperations .integers (.sum [x, y]) rfl trivial ?_).refuses rfl
    simpa [Numeral.Operation.operands] using ⟨hx, hy⟩
  · have he := requestFunction_evolves "f" [.rational, .rational] .rational mixed
    have hf := hfunctions "f" [.rational, .rational] .rational _ _ _ hregistered rfl
      (Std.Refl.refl _)
    obtain ⟨-, hcalls, -⟩ := widening_total
      ((requestFunction "f" [.rational, .rational] .rational).exec mixed).2
    obtain ⟨k, hk, htype, htakes⟩ := hcalls _ [x, wide] hf rfl
      (by simpa using ⟨hx.evolve he, hwide.evolve he⟩)
    obtain rfl : k = .real := TermSort.type_injective htype
    exact ⟨_, _, rfl, htakes.yields (by decide)⟩

end FormulaStack
