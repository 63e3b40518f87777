import FormulaStack.Proofs.Frames
import FormulaStack.Proofs.Solvers

/-!
The folding solver answers by interpretations. What folds to a truth value has it under all of
them; the one that it finds gives default values to the constants.
-/
namespace FormulaStack

open Meaning Effect

variable {A : TermSort → TermSort → Type} {s : Store} {t : Term} {x : Tree}

/-- A standard meaning is the meaning in every structure. -/
theorem Structure.ofNode_of_standard? (M : Structure A) (ρ : Binding A) {op : Operator}
    {k : TermSort} {ds : List (Binding A → Meaning A)} {d : Meaning A}
    (h : op.standard? (ds.map (· ρ)) = some d) : M.ofNode (.op op) k ds ρ = d := by
  rw [Structure.ofNode, h]
  · rfl
  · rintro i rfl
    simp [Operator.standard?] at h
  · rintro q vars e - rfl
    simp [Operator.standard?] at h

namespace Valuation

variable (I : Valuation A)

/-- The meanings of the terms of a store. -/
noncomputable def interpretation (s : Store) : Interpretation A where
  free t n ds :=
    (((s.tree? t).map (·.value I.symbols I.values)).filter (·.sort = n.sort)).getD
      (I.symbols.meaning (s.label n.op) n.sort ds)
  sort_free t n ds := by
    cases h : ((s.tree? t).map (·.value I.symbols I.values)).filter (·.sort = n.sort) with
    | none => exact I.symbols.sort_meaning _ _ _
    | some d => simpa using (Option.filter_eq_some_iff.1 h).2

theorem free_interpretation (hs : s.WellFormed) (ht : s.tree? t = some x) {n : Node}
    (hn : n.sort = x.sort) (ds : List (Meaning A)) :
    (I.interpretation s).free t n ds = x.value I.symbols I.values := by
  have hsort := Tree.sort_value I.symbols I.values (hs.wellSorted_of_tree? ht)
  have hfits : (some (x.value I.symbols I.values)).filter (·.sort = n.sort) =
      some (x.value I.symbols I.values) :=
    Option.filter_eq_some_iff.2 ⟨rfl, decide_eq_true (hsort.trans hn.symm)⟩
  change (((s.tree? t).map _).filter _).getD _ = _
  rw [ht, Option.map_some, hfits, Option.getD_some]

theorem value?_interpretation (hs : s.WellFormed) (ht : s.tree? t = some x) :
    (I.interpretation s).value? s t = some (x.value I.symbols I.values) := by
  induction x using Tree.induction generalizing t with
  | step l k xs ih =>
    obtain ⟨n, hn, hl, rfl, hxs⟩ := hs.node_of_tree? ht
    obtain ⟨ds, hds, hd⟩ := hs.bottomUp? (I.interpretation s).ofNode hn
    have hargs : ds = (xs.map (·.value I.symbols)).map (· I.values) := by
      have hvalues : n.args.filterMap ((I.interpretation s).value? s) =
          (xs.map (·.value I.symbols)).map (· I.values) := by
        clear hds hd hn ht
        generalize n.args = ts at hxs
        induction hxs with
        | nil => rfl
        | cons ha _ ihs =>
          rw [List.filterMap_cons_some (ih _ (by simp) ha), ihs fun x hx => ih x (by simp [hx])]
          rfl
      exact hds.filterMap.symm.trans hvalues
    refine hd.trans (congrArg some ?_)
    cases hstd : n.op.standard? ds with
    | none =>
      rw [Interpretation.ofNode, hstd, Option.getD_none]
      exact I.free_interpretation hs ht rfl ds
    | some d =>
      have hlabel : s.label n.op = .op n.op := by
        cases h : n.op with
        | apply e => simp [h, Operator.standard?] at hstd
        | _ => rfl
      rw [hargs] at hstd
      rw [Tree.value_node, ← hl, hlabel, I.symbols.ofNode_of_standard? I.values hstd, hargs,
        Interpretation.ofNode, hstd, Option.getD_some]

theorem satisfies_iff (hs : s.WellFormed) (ht : s.tree? t = some x) (hx : x.sort = .bool) :
    (I.interpretation s).Satisfies s t ↔ I.truth x = true := by
  have hx' : x.Proposition := ⟨hs.wellSorted_of_tree? ht, hx⟩
  rw [Interpretation.Satisfies, I.value?_interpretation hs ht, Tree.value_eq_truth _ _ hx']
  simp [truth]

theorem satisfies_all_iff {ts : List Term} {xs : List Tree} (hs : s.WellFormed)
    (h : s.Unfolds ts xs) (hxs : ∀ x ∈ xs, x.sort = .bool) :
    (∀ t ∈ ts, (I.interpretation s).Satisfies s t) ↔ I.Satisfies xs := by
  unfold Satisfies
  induction h with
  | nil => simp
  | cons ht _ ih =>
    simp [I.satisfies_iff hs ht (hxs _ (by simp)), ih fun x hx => hxs x (by simp [hx])]

end Valuation

variable [∀ index element, Inhabited (A index element)]

theorem Meaning.known_ofSort (k : TermSort) :
    Known (Value.default? k) (Meaning.ofSort k : Meaning A) := by
  intro v hv
  cases k <;> cases hv <;> simp [ofSort, Value.Denotes]

namespace Valuation

/-- Everything that has no standard meaning has the default value of its sort. -/
noncomputable def defaults : Valuation A where
  symbols := ⟨fun _ k _ => .ofSort k, fun _ k _ => Meaning.sort_ofSort k⟩
  values _ := .truth false

theorem defaults_interpretation (hs : s.WellFormed) :
    ((defaults : Valuation A).interpretation s).Defaults s := by
  intro t n d hn hop hargs
  obtain ⟨xs, hxs, ht⟩ := hs.tree? hn
  obtain rfl : xs = [] := by
    rw [hargs] at hxs
    cases hxs
    rfl
  have hvalue : (Tree.node (s.label n.op) n.sort []).value (defaults : Valuation A).symbols
      (defaults : Valuation A).values = .ofSort n.sort := by
    rw [Tree.value_node, hop, Store.label]
    split <;> rfl
  rw [free_interpretation _ hs ht rfl, hvalue]
  exact known_ofSort n.sort

/-- What folding completes is so where everything has its default value. -/
theorem truth_of_fold (hs : s.WellFormed) (ht : s.tree? t = some x) (hx : x.sort = .bool)
    {v : Value} (h : s.fold true t = some v) : v = .truth ((defaults : Valuation A).truth x) := by
  have hx' : x.Proposition := ⟨hs.wellSorted_of_tree? ht, hx⟩
  obtain ⟨n, hn⟩ := Store.exists_node_of_bottomUp? ht
  obtain ⟨hvalue, -, hknown⟩ := ((defaults : Valuation A).interpretation s).known_fold hs
    (fun _ => defaults_interpretation hs) hn
  rw [value?_interpretation _ hs ht, Tree.value_eq_truth _ _ hx', Option.some.injEq] at hvalue
  have hv := hknown v h
  rw [← hvalue] at hv
  cases v with
  | truth b => exact congrArg Value.truth hv
  | _ => cases hv

end Valuation

namespace FoldingSolver

theorem assertions_record (solver : FoldingSolver) (t : Term) :
    (solver.record t).assertions = solver.assertions ++ [t] := by
  unfold assertions record
  rw [Tower.toList_modifyTop, solver.frames.toList_eq]
  simp

/-- A session has asserted terms that fold as their trees say. -/
structure Asserted (y : Store × FoldingSolver) (xs : List Tree) : Prop where
  wellFormed : y.1.WellFormed
  unfolds : y.1.Unfolds y.2.assertions xs
  boolean : ∀ x ∈ xs, x.sort = .bool

theorem Asserted.quiet {y z : Store × FoldingSolver} {xs : List Tree} (h : Asserted y xs)
    (hz : Quiet y z) : Asserted z xs := by
  have hwf := hz.1.wellFormed h.wellFormed
  refine ⟨hwf, ?_, h.boolean⟩
  rw [assertions, hz.2]
  exact h.unfolds.mono h.wellFormed hwf hz.1.extension

theorem Asserted.sorts {y : Store × FoldingSolver} {xs : List Tree} (h : Asserted y xs) :
    ∀ t ∈ y.2.assertions, y.1.sort? t = some .bool := by
  intro t ht
  obtain ⟨x, hx, htx⟩ := exists_related h.unfolds.flip t ht
  rw [h.wellFormed.sort?_of_tree? htx, h.boolean x hx]

theorem ensures_assert {y : Store × FoldingSolver} {xs : List Tree} (h : Asserted y xs)
    (ht : y.1.tree? t = some x) (hx : x.sort = .bool) :
    (assert t).Ensures y fun _ z => y.1.Grows z.1 ∧ Asserted z (xs ++ [x]) := by
  intro _ z hz
  rw [exec_assert] at hz
  split at hz
  · cases hz
  · split at hz <;> cases hz
    refine ⟨.refl y.1, h.wellFormed, ?_, by simpa [or_imp, forall_and, hx] using h.boolean⟩
    rw [assertions_record]
    exact List.rel_append h.unfolds (.cons ht .nil)

omit [∀ index element, Inhabited (A index element)] in
theorem ensures_check {y : Store × FoldingSolver} {xs : List Tree} (h : Asserted y xs) :
    check.Ensures y fun verdict z => y.1.Grows z.1 ∧ Asserted z xs ∧
      (verdict = .sat → ∀ I : Valuation A, I.Satisfies xs) ∧
      (verdict = .unsat → ∀ I : Valuation A, ¬ I.Satisfies xs) := by
  intro verdict z hz
  rw [exec_check] at hz
  have hall := fun I : Valuation A => I.satisfies_all_iff h.wellFormed h.unfolds h.boolean
  split at hz <;> cases hz <;> refine ⟨.refl y.1, h.quiet ⟨.refl y.1, rfl⟩, ?_, ?_⟩
  · exact nofun
  · exact nofun
  · exact fun hsat I => (hall I).1 (verdict_sat _ h.wellFormed h.sorts hsat)
  · exact fun hunsat I hI => verdict_unsat _ h.wellFormed h.sorts hunsat ((hall I).2 hI)

theorem ensures_build {α : Type} {b : Build α} {y : Store × FoldingSolver}
    {Q : α → Store × FoldingSolver → Prop} (h : ∀ a s, b y.1 = .ok (a, s) → Q a (s, y.2)) :
    (SessionM.build b).Ensures y Q := by
  obtain ⟨s, solver⟩ := y
  intro a z hz
  rw [SessionM.build, exec_of] at hz
  dsimp only at hz
  split at hz <;> cases hz
  exact h a _ ‹_›

/-- A literal of a truth value is read back as what it was made of. -/
theorem constantValue_literal {v : Bool} {k : TermSort} {s u : Store} {t : Term} {b : Bool}
    (h : (Value.truth v).literal k s = .ok (t, u))
    (hb : u.constantValue t = .ok (some (.bool b))) : v = b := by
  have hnode := s.node?_intern ⟨if v then .true else .false, [], .bool⟩
  rw [show s.intern _ = (t, u) from Except.ok.inj h] at hnode
  rw [Store.constantValue, Store.node_eq_ok.2 hnode] at hb
  cases v <;> cases b <;> first | rfl | cases hb

theorem ensures_eval {y : Store × FoldingSolver} {xs : List Tree} (h : Asserted y xs)
    (ht : y.1.tree? t = some x) (hx : x.sort = .bool) :
    (eval true t).Ensures y fun value z => y.1.Grows z.1 ∧ Asserted z xs ∧
      ∀ v b, value = some v → z.1.constantValue v = .ok (some (.bool b)) →
        (Valuation.defaults : Valuation A).truth x = b := by
  have hquiet : (eval true t).Ensures y fun _ z => Quiet y z := by
    intro _ z hz
    have := quiet_eval true t y
    rwa [hz] at this
  refine (hquiet.and ?_).mono fun value z hz => ⟨hz.1.1, h.quiet hz.1, hz.2⟩
  refine .bind (ensures_modelAvailable y) fun _ z hz => ?_
  rw [hz.1]
  obtain ⟨store, solver⟩ := y
  refine .ask_bind fun sort _ => .look_bind ?_
  dsimp only
  cases hv : store.fold true t with
  | none => exact .pure nofun
  | some v =>
    obtain rfl := Valuation.truth_of_fold (A := A) h.wellFormed ht hx hv
    refine .bind (P := fun u z => ∀ b, z.1.constantValue u = .ok (some (.bool b)) →
      (Valuation.defaults : Valuation A).truth x = b)
      (ensures_build fun u s hlit b hb => constantValue_literal hlit hb) fun u z hu => .pure ?_
    rintro _ b ⟨⟩ hb
    exact hu b hb

variable (A) in
/-- The folding solver takes all interpretations into account. -/
noncomputable def sound : SoundSession FoldingSolver A where
  Possible _ := True
  Asserts := Asserted
  Found _ I := I = .defaults
  grows h hg := h.quiet ⟨hg, rfl⟩
  push {y xs} h := by
    refine .update ⟨.refl y.1, h.wellFormed, ?_, h.boolean⟩
    rw [assertions, Tower.toList_push, List.flatMap_append]
    exact (List.append_nil y.2.assertions).symm ▸ h.unfolds
  assert := ensures_assert
  check h := (ensures_check h).mono fun _ _ ⟨hg, hz, hsat, hunsat⟩ =>
    ⟨hg, hz, fun hv => ⟨.defaults, trivial, rfl, hsat hv _⟩, fun hv I _ => hunsat hv I⟩
  eval h hI ht hx := (ensures_eval h ht hx).mono fun _ _ ⟨hg, hz, hv⟩ => ⟨hg, hz, hI, hI ▸ hv⟩
  pop {y} := by
    intro _ z hz
    rw [show (Session.pop : SessionM FoldingSolver Unit) = pop from rfl, exec_pop] at hz
    split at hz <;> cases hz
    exact .refl y.1
  declare {y symbol} := by
    intro _ z hz
    rw [show Session.declare symbol = declare symbol from rfl, exec_declare] at hz
    split at hz <;> cases hz
    exact .refl y.1

end FoldingSolver
end FormulaStack
