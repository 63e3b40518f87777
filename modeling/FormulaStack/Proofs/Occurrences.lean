import FormulaStack.Proofs.Abstraction
import FormulaStack.Proofs.Walks

/-!
The symbols of a formula. Its walk collects the names of the free constants that occur anywhere in
it, or with functions also the names of the functions that are applied, each with a formula that
bears the name.
-/
namespace FormulaStack

open Effect Environment

variable {α β : Type} {env start : Environment} {t u : Term} {x y : Tree} {f g : Formula}
  {functions : Bool} {name : String} {key : Option String} {seen : List Formula}
  {found : List (String × Formula)}

namespace Tree

/-- A tree is a free constant of a name or, with `functions`, applies a function of that name. -/
def Named (functions : Bool) (name : String) (x : Tree) : Prop :=
  ∃ d : Signature, d.name = name ∧ (x = d.constant ∨ functions = true ∧ x.label = .apply d)

theorem occurs_constant {d : Signature} : Occurs y d.constant ↔ d.constant = y := by
  simp [Signature.constant, occurs_node]

@[simp] theorem named_constant {d : Signature} :
    d.constant.Named functions name ↔ d.name = name := by
  constructor
  · rintro ⟨e, rfl, hconstant | ⟨-, hl⟩⟩
    · cases d
      cases e
      cases hconstant
      rfl
    · rw [Label.apply.inj hl]
  · exact fun h => ⟨d, h, .inl rfl⟩

@[simp] theorem named_op {o : Operator} {k : TermSort} {xs : List Tree} :
    ¬(node (.op o) k xs).Named functions name := by
  rintro ⟨d, -, hconstant | ⟨-, hl⟩⟩
  · cases hconstant
  · cases hl

@[simp] theorem named_apply {d : Signature} {k : TermSort} {xs : List Tree} :
    (node (.apply d) k (x :: xs)).Named functions name ↔ functions = true ∧ d.name = name := by
  constructor
  · rintro ⟨e, rfl, hconstant | ⟨hfunctions, hl⟩⟩
    · cases hconstant
    · exact ⟨hfunctions, by rw [Label.apply.inj hl]⟩
  · exact fun h => ⟨d, h.2, .inr ⟨h.1, rfl⟩⟩

theorem WellSorted.exists_signature (hx : x.WellSorted)
    (h : x.kind = .variable ∨ x.kind = .application) : ∃ d, x.label = .apply d := by
  obtain ⟨l, k, xs⟩ := x
  cases l with
  | apply d => exact ⟨d, rfl⟩
  | op o =>
    have hfits : Label.Fits (.op o) (xs.map sort) k := (wellSorted_node.1 hx).1
    cases o with
    | apply d => simp [Label.Fits, Operator.Fits] at hfits
    | _ => simp [kind, label, Node.kind] at h

theorem kind_of_apply {d : Signature} (h : x.label = .apply d) :
    x.kind = .variable ∧ x.args = [] ∨ x.kind = .application ∧ x.args ≠ [] := by
  cases hargs : x.args <;> simp [kind, h, hargs]

theorem WellSorted.eq_constant {d : Signature} (hx : x.WellSorted) (h : x.label = .apply d)
    (hargs : x.args = []) : x = d.constant := by
  obtain ⟨l, k, xs⟩ := x
  obtain rfl : l = .apply d := h
  obtain rfl : xs = [] := hargs
  rw [(wellSorted_node.1 hx).1.2, Signature.constant]

/-- Whether a tree has a name can be seen at its root. -/
theorem WellSorted.named_iff (hx : x.WellSorted) : x.Named functions name ↔
    ∃ d, x.label = .apply d ∧ d.name = name ∧
      (x.kind = .variable ∨ functions = true ∧ x.kind = .application) := by
  constructor
  · rintro ⟨d, hname, rfl | ⟨hfunctions, hl⟩⟩
    · exact ⟨d, rfl, hname, .inl rfl⟩
    · exact ⟨d, hl, hname, (kind_of_apply hl).imp And.left fun h => ⟨hfunctions, h.1⟩⟩
  · rintro ⟨d, hl, hname, hkind | ⟨hfunctions, -⟩⟩
    · have hargs : x.args = [] := by
        obtain ⟨-, h⟩ | ⟨h, -⟩ := kind_of_apply hl
        · exact h
        · cases hkind.symm.trans h
      exact ⟨d, hname, .inl (hx.eq_constant hl hargs)⟩
    · exact ⟨d, hname, .inr ⟨hfunctions, hl⟩⟩

end Tree

namespace Environment

/-- The symbol at the root of a term. -/
theorem Shows.symbolName {d : Signature} (h : env.Shows t x) (henv : env.Proper)
    (hl : x.label = .apply d) : env.terms.symbolName t = .ok d.name := by
  obtain ⟨n, hn, hlabel, -⟩ := h.node henv
  obtain ⟨decl, hop, hdecl⟩ := Store.label_eq_apply (hlabel.trans hl)
  rw [Store.symbolName, Store.node_eq_ok.2 hn]
  simp [Except.map, Store.headText, hop, Store.declName, hdecl]

theorem Types.exists_shows (h : env.Types f) (henv : env.Proper) : ∃ x, env.Shows f.term x := by
  obtain ⟨n, hn⟩ := h.exists_node
  obtain ⟨xs, -, hx⟩ := henv.wellFormed.tree? hn
  exact ⟨_, hx⟩

theorem Shows.arguments (h : env.Shows t x) (henv : env.Proper) :
    env.ShowsAll (env.childrenOf t) x.args := by
  obtain ⟨n, hn, -, -, hargs⟩ := h.node henv
  rwa [childrenOf_eq hn]

/-- What is reached from a term occurs in its tree. -/
theorem Shows.occurs (h : env.Shows t x) (henv : env.Proper)
    (hreached : Walk.Reached env.Argument t u) :
    ∃ y, env.Shows u y ∧ Tree.Occurs y x := by
  induction hreached using Relation.ReflTransGen.head_induction_on generalizing x with
  | refl => exact ⟨x, h, by cases x; exact Tree.occurs_node.2 (.inl rfl)⟩
  | head hstep _ ih =>
    obtain ⟨z, hz, hshows⟩ := exists_related (List.Forall₂.flip (h.arguments henv)) _ hstep
    obtain ⟨y, hy, hoccurs⟩ := ih hshows
    refine ⟨y, hy, ?_⟩
    obtain ⟨l, k, xs⟩ := x
    exact Tree.occurs_node.2 (.inr ⟨z, hz, hoccurs⟩)

/-- What occurs in the tree of a term is reached from it. -/
theorem Shows.reached (h : env.Shows t x) (henv : env.Proper) (hoccurs : Tree.Occurs y x) :
    ∃ u, Walk.Reached env.Argument t u ∧ env.Shows u y := by
  induction x using Tree.induction generalizing t with
  | step l k xs ih =>
    obtain rfl | ⟨z, hz, hoccurs⟩ := Tree.occurs_node.1 hoccurs
    · exact ⟨t, .refl, h⟩
    · obtain ⟨a, ha, hshows⟩ := exists_related (h.arguments henv) z hz
      obtain ⟨u, hreached, hu⟩ := ih z hz hshows hoccurs
      exact ⟨u, .head ha hreached, hu⟩

end Environment

namespace TermView

/-- The name that a formula is kept under, given a view of it. -/
def name? (functions : Bool) : TermView → Option String
  | free name => some name
  | function name kind _ => if functions && kind == .application then some name else none
  | _ => none

end TermView

namespace Formula

/-- A view of a formula gives its name, if it has one. -/
theorem ensures_view_name (functions : Bool) (henv : env.Proper) (hf : env.Types f)
    (hx : env.Shows f.term x) :
    f.view.Ensures env fun v _ => ∀ name, v.name? functions = some name ↔
      x.Named functions name := by
  have hsorted : x.WellSorted := henv.wellFormed.wellSorted_of_tree? hx
  refine .ask_bind fun t ht => .ask_bind fun k hk => ?_
  obtain rfl : f.term = t := Except.ok.inj ((hf.unwrap (.refl env)).symm.trans ht)
  have hkind : x.kind = k := Except.ok.inj ((hx.kind henv).symm.trans hk)
  have hnone : ∀ v : TermView, k ≠ .variable → k ≠ .application → v.name? functions = none →
      ∀ name, v.name? functions = some name ↔ x.Named functions name := by
    intro v hvariable happlication hv name
    simp [hv, hsorted.named_iff, hkind, hvariable, happlication]
  have happly : k ≠ .variable → Effect.Ensures (do
      let args ← wrapAll wrapAsIs id (← .ask (·.children f.term))
      return TermView.function (← .ask (·.terms.symbolName f.term)) k args) env
      fun v _ => ∀ name, v.name? functions = some name ↔ x.Named functions name := by
    intro hvariable
    refine .ask_bind fun ts _ => .bind ((wrapAll_works wrapAsIs_works ts).ensures env)
      fun args u hu => .ask_bind fun symbol hsymbol => .pure fun name => ?_
    by_cases happlication : k = .application
    · obtain ⟨d, hl⟩ := hsorted.exists_signature (.inr (hkind.trans happlication))
      have ha : env.Advances u := hu.advances
      have hname := (hx.advance henv ha).symbolName (ha.proper henv) hl
      obtain rfl : d.name = symbol := Except.ok.inj (hname.symm.trans hsymbol)
      cases functions <;> simp [TermView.name?, hsorted.named_iff, hl, hkind, happlication]
    · simp [TermView.name?, hsorted.named_iff, hkind, hvariable, happlication]
  cases k with
  | «variable» =>
    obtain ⟨d, hl⟩ := hsorted.exists_signature (.inl hkind)
    refine .ask_bind fun symbol hsymbol => .pure fun name => ?_
    obtain rfl : d.name = symbol := Except.ok.inj ((hx.symbolName henv hl).symm.trans hsymbol)
    simp [TermView.name?, hsorted.named_iff, hl, hkind]
  | boundVariable index => exact .pure (hnone _ (by simp) (by simp) rfl)
  | true | false | value =>
    refine .ask_bind fun value _ => ?_
    cases value with
    | some value => exact .pure (hnone _ (by simp) (by simp) rfl)
    | none => exact .later fun _ _ => .throw _
  | quantifier q =>
    cases f.toBool with
    | error e => exact .throw e
    | ok whole =>
      refine .ask_bind fun ts _ => ?_
      cases ts with
      | nil => exact .throw _
      | cons body rest => exact .later fun b _ => .pure (hnone _ (by simp) (by simp) rfl)
  | _ => exact happly (by simp)

/-- What is found once a formula is kept under a key in place of an earlier one. -/
def kept (g : Formula) (found : List (String × Formula)) :
    Option String → List (String × Formula)
  | some name => (name, g) :: found.filter (·.1 != name)
  | none => found

theorem mem_names_kept : name ∈ (kept g found key).map (·.1) ↔
    key = some name ∨ name ∈ found.map (·.1) := by
  cases key with
  | none => simp [kept]
  | some other =>
    by_cases hsame : name = other
    · simp [kept, hsame]
    · simp [kept, hsame, Ne.symm hsame]

theorem nodup_names_kept (h : (found.map (·.1)).Nodup) :
    ((kept g found key).map (·.1)).Nodup := by
  cases key with
  | none => exact h
  | some name =>
    have hnames : (found.filter (·.1 != name)).map (·.1) =
        (found.map (·.1)).filter (· != name) := by
      rw [List.filter_map]
      rfl
    rw [kept, List.map_cons, hnames]
    exact List.nodup_cons.2 ⟨by simp, h.filter _⟩

theorem mem_of_mem_kept {p : String × Formula} (h : p ∈ kept g found key) :
    key = some p.1 ∧ p.2 = g ∨ p ∈ found := by
  cases key with
  | none => exact .inr h
  | some name =>
    obtain rfl | h := List.mem_cons.1 h
    · exact .inl ⟨rfl, rfl⟩
    · exact .inr (List.mem_of_mem_filter h)

/-- What was found is the names of the formulas seen, each once with one that bears it. -/
structure Collected (start : Environment) (functions : Bool) (seen : List Formula)
    (found : List (String × Formula)) : Prop where
  once : (found.map (·.1)).Nodup
  complete : ∀ g ∈ seen, ∀ x, start.Shows g.term x → ∀ name, x.Named functions name →
    name ∈ found.map (·.1)
  exact : ∀ p ∈ found, p.2 ∈ seen ∧ ∃ x, start.Shows p.2.term x ∧ x.Named functions p.1

theorem collected_nil : Collected start functions [] [] := ⟨List.nodup_nil, by simp, by simp⟩

theorem Collected.keep (h : Collected start functions seen found) (hx : start.Shows g.term x)
    (hkey : ∀ name, key = some name ↔ x.Named functions name) :
    Collected start functions (g :: seen) (kept g found key) where
  once := nodup_names_kept h.once
  complete := by
    intro g' hg y hy name hname
    rw [mem_names_kept, hkey]
    obtain rfl | hg := List.mem_cons.1 hg
    · obtain rfl : x = y := Option.some.inj (hx.symm.trans hy)
      exact .inl hname
    · exact .inr (h.complete g' hg y hy name hname)
  exact := by
    intro p hp
    obtain ⟨hname, rfl⟩ | hp := mem_of_mem_kept hp
    · exact ⟨List.mem_cons_self .., x, hx, (hkey p.1).1 hname⟩
    · obtain ⟨hmem, hshows⟩ := h.exact p hp
      exact ⟨List.mem_cons_of_mem _ hmem, hshows⟩

theorem exec_collect (functions : Bool) (v : TermView) (s : Environment × List (String × Formula)) :
    ∃ env, s.1.Advances env ∧ (symbols.collect functions g v).exec s =
      (.ok .proceed, env, kept g s.2 (v.name? functions)) := by
  have hput : ∀ name, ∃ env, s.1.Advances env ∧
      (do symbols.put name g; return Step.proceed : Visit _ Step).exec s =
        (.ok .proceed, env, kept g s.2 (some name)) :=
    fun name => ⟨_, (advances_retain s.1 g).trans (advances_discardAll _ _), rfl⟩
  cases v with
  | free name => exact hput name
  | function name kind args =>
    by_cases hif : (functions && kind == .application) = true
    · rw [symbols.collect, TermView.name?, if_pos hif, if_pos hif]
      exact hput name
    · rw [symbols.collect, TermView.name?, if_neg hif, if_neg hif]
      exact ⟨s.1, .refl _, rfl⟩
  | bound | constant | quantifier => exact ⟨s.1, .refl _, rfl⟩

/-- Every visit of a walk collects what the formula is named. -/
theorem Collected.visit {s : Environment × List (String × Formula)} (henv : start.Proper)
    (hopens : Walk.Opens start route seen s g) (h : Collected start functions seen s.2) :
    Collected start functions (g :: seen)
      ((g.visit (symbols.collect functions g)).exec s).2.2 := by
  have ha : start.Advances s.1 := hopens.advances
  have hg : s.1.Types g := Types.mono hopens.formula ha.id ha.terms.extension
  obtain ⟨x, hx⟩ := Types.exists_shows hopens.formula henv
  obtain ⟨v, u, hview, -⟩ := view_succeeds (ha.proper henv) hg
  have hkey := ensures_view_name functions (ha.proper henv) hg (hx.advance henv ha) v u hview
  obtain ⟨w, -, hcollect⟩ := exec_collect (g := g) functions v (u, s.2)
  have hvisit : ((g.visit (symbols.collect functions g)).exec s).2.2 =
      kept g s.2 (v.name? functions) := by
    change ((shown g.view TermView.operands (symbols.collect functions g)).exec s).2.2 = _
    rw [exec_shown, hview]
    dsimp only
    rw [hcollect]
  rw [hvisit]
  exact h.keep hx hkey

end Formula

/-- A walk over terms that is always urged on comes to its end, and has seen all that is reached. -/
theorem Walk.exists_descends_urged {τ : Type} {visitor : Formula → TermView → Visit τ Step}
    (henv : env.Proper) (hf : env.Types f) (hadmits : ∀ g, env.Admits (visitor g))
    (hurges : ∀ g, env.Urges (visitor g)) (u : τ) :
    ∃ more s' seen', Descends env env.Argument Formula.route (fun g => g.visit (visitor g)) [f] []
      (env.retain f, u) (.ok more) s' seen' ∧
      ∀ t, Reached env.Argument f.term t → t ∈ seen'.map (·.term) := by
  have hspans := spans_terms henv.wellFormed hadmits
  obtain ⟨out, s', seen', hd⟩ := exists_descends hspans (f.term.index + 1)
    (s := (env.retain f, u)) ⟨advances_retain env f, List.forall_mem_nil _⟩
    (List.forall_mem_singleton.2 ⟨hf, Nat.lt_succ_self _⟩)
  obtain ⟨hall, herror⟩ := hd.proceeds hspans fun g s _ ha =>
    proceeds_shown g.view_works (hurges g) ha
  cases out with
  | ok more => exact ⟨more, s', seen', hd, hall rfl⟩
  | error e =>
    obtain ⟨g, -, s₁, hg, ha, hx⟩ := herror e rfl
    exact absurd hx (no_error_of_enter henv (hadmits g) (hurges g) hg ha)

namespace Formula

/-- The symbols of a formula are the names that occur in it, in order, each with a formula that
bears the name and occurs there. -/
theorem symbols_exact (henv : env.Proper) (hf : env.Types f) (functions : Bool) :
    ∃ x found env', env.Shows f.term x ∧ (f.symbols functions).exec env = (.ok found, env') ∧
      env.Advances env' ∧ (found.map (·.1)).Pairwise (· < ·) ∧
      (∀ name, name ∈ found.map (·.1) ↔ ∃ y, Tree.Occurs y x ∧ y.Named functions name) ∧
      ∀ p ∈ found, env.Types p.2 ∧ ∃ y, env.Shows p.2.term y ∧ Tree.Occurs y x ∧
        y.Named functions p.1 := by
  obtain ⟨x, hx⟩ := hf.exists_shows henv
  have hadmits : ∀ g, env.Admits (symbols.collect functions g) := by
    intro g v s _
    obtain ⟨u, hu, hrun⟩ := exec_collect functions v s
    rwa [hrun]
  have hurges : ∀ g, env.Urges (symbols.collect functions g) := by
    intro g v s _
    obtain ⟨u, -, hrun⟩ := exec_collect functions v s
    rw [hrun]
  obtain ⟨more, s', seen', hd, hall⟩ := Walk.exists_descends_urged henv hf hadmits hurges []
  have hsound := hd.sound (Walk.spans_terms henv.wellFormed hadmits)
    ⟨advances_retain env f, List.forall_mem_nil _⟩
  have hcollected : Collected env functions seen' s'.2 :=
    hd.invariant (fun g seen s hopens h => h.visit henv hopens) collected_nil
  have hwalk : (f.visitAll (symbols.collect functions)).exec (env, []) =
      (.ok (), Walk.drop route seen' s') := hd.loop 0
  have hperm := List.mergeSort_perm s'.2 fun a b => decide (a.1 ≤ b.1)
  have hfound : ∀ p ∈ s'.2, env.Types p.2 ∧ ∃ y, env.Shows p.2.term y ∧ Tree.Occurs y x ∧
      y.Named functions p.1 := by
    intro p hp
    obtain ⟨hmem, y, hy, hnamed⟩ := hcollected.exact p hp
    have hreached : Walk.Reached env.Argument f.term p.2.term := by
      obtain hmem | ⟨_, hmem, hreached⟩ := hd.reached p.2 hmem
      · exact absurd hmem List.not_mem_nil
      · exact List.mem_singleton.1 hmem ▸ hreached
    obtain ⟨z, hz, hoccurs⟩ := hx.occurs henv hreached
    obtain rfl : y = z := Option.some.inj (hy.symm.trans hz)
    exact ⟨hsound.types p.2 hmem, y, hy, hoccurs, hnamed⟩
  refine ⟨x, s'.2.mergeSort fun a b => decide (a.1 ≤ b.1), (Walk.drop Formula.route seen' s').1, hx,
    by rw [symbols, exec_of, hwalk]; rfl, ?_, ?_, fun name => ?_, ?_⟩
  · exact hsound.advances.trans (advances_discardAll _ _)
  · have hnodup := (hperm.map (·.1)).nodup_iff.2 hcollected.once
    have hsorted : ((s'.2.mergeSort fun a b => decide (a.1 ≤ b.1)).map (·.1)).Pairwise (· ≤ ·) :=
      List.pairwise_map.2 (pairwise_mergeSort_by (·.1) s'.2)
    refine hsorted.imp₂ (fun a b hle hne => ?_) hnodup
    exact String.not_le.1 fun hge => hne (String.le_antisymm hle hge)
  · refine (hperm.map (·.1)).mem_iff.trans ⟨?_, ?_⟩
    · intro hname
      obtain ⟨p, hp, rfl⟩ := List.mem_map.1 hname
      obtain ⟨-, y, -, hoccurs, hnamed⟩ := hfound p hp
      exact ⟨y, hoccurs, hnamed⟩
    · rintro ⟨y, hoccurs, hnamed⟩
      obtain ⟨t, hreached, hy⟩ := hx.reached henv hoccurs
      obtain ⟨g, hg, rfl⟩ := List.mem_map.1 (hall t hreached)
      exact hcollected.complete g hg y hy name hnamed
  · exact fun p hp => hfound p (hperm.mem_iff.1 hp)

/-- All integers are below a function of a constant. -/
def quantified : Environment :=
  { Environment.new 0 .everything false false false with
    terms := Store.empty.serveAll
      [.construct (.constant "x" .int), .construct (.constant "y" .int),
        .declare ⟨"g", [.int], .int⟩, .construct (.apply ⟨2⟩ [⟨1⟩]),
        .construct (.compare .lt (by decide) ⟨0⟩ ⟨2⟩), .construct (.quantifier .all [⟨0⟩] ⟨3⟩)] }

/-- The variable that is bound is no symbol of the formula, and the function only if functions are
asked for. -/
theorem symbols_exact_quantified :
    let f : Formula := ⟨⟨6⟩, .boolean, 0, none⟩
    quantified.Proper ∧ quantified.Types f ∧
    (∃ found env', (f.symbols false).exec quantified = (.ok found, env') ∧
      ∀ name, name ∈ found.map (·.1) ↔ name = "y") ∧
    ∃ found env', (f.symbols true).exec quantified = (.ok found, env') ∧
      ∀ name, name ∈ found.map (·.1) ↔ name = "g" ∨ name = "y" := by
  intro f
  let g : Signature := ⟨"g", [.int], .int⟩
  let c : Signature := ⟨"y", [], .int⟩
  have hproper : quantified.Proper := ⟨Store.wellFormed_serveAll _, rfl⟩
  have hf : quantified.Types f := ⟨rfl, .bool, by decide +kernel, rfl⟩
  have htree : quantified.terms.tree? f.term = some (.connective (.quantifier .all [("x", .int)])
      [.connective (.arith .lt) [.node (.op (.bound 0)) .int [],
        .node (.apply g) .int [c.constant]]]) := by decide +kernel
  refine ⟨hproper, hf, ?_, ?_⟩
  · obtain ⟨x, found, env', hx, hrun, -, -, hnames, -⟩ := symbols_exact hproper hf false
    obtain rfl := Option.some.inj (htree.symm.trans hx)
    refine ⟨found, env', hrun, fun name => (hnames name).trans ?_⟩
    simp [Tree.connective, Tree.occurs_node, Tree.occurs_constant, c, eq_comm]
  · obtain ⟨x, found, env', hx, hrun, -, -, hnames, -⟩ := symbols_exact hproper hf true
    obtain rfl := Option.some.inj (htree.symm.trans hx)
    refine ⟨found, env', hrun, fun name => (hnames name).trans ?_⟩
    simp [Tree.connective, Tree.occurs_node, Tree.occurs_constant, or_and_right, exists_or, g, c,
      eq_comm]

end Formula
end FormulaStack
