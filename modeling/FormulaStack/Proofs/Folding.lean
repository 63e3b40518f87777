import FormulaStack.FoldingSolver
import FormulaStack.Proofs.Knowledge

/-!
Folding is sound: a value that it finds is what the term means in every interpretation. The proof
goes along the nodes of a well-formed store, from the arguments to the node.
-/
namespace FormulaStack

open Meaning

namespace Store

variable {β : Type}

/-- Induction along the arguments of nodes. -/
@[elab_as_elim]
theorem WellFormed.induction {s : Store} {motive : Term → Node → Prop} {t : Term} {n : Node}
    (hs : s.WellFormed) (ht : s.node? t = some n)
    (step : ∀ t n, s.node? t = some n →
      (∀ a ∈ n.args, ∀ m, s.node? a = some m → motive a m) → motive t n) : motive t n := by
  induction hi : t.index using Nat.strong_induction_on generalizing t n with
  | _ i ih =>
    refine step t n ht fun a ha m hm => ih a.index ?_ hm rfl
    rw [← hi]
    exact hs.older ht a ha

theorem Sorts.node? {s : Store} {ts : List Term} {ks : List TermSort} (h : s.Sorts ts ks) :
    ∀ t ∈ ts, ∃ n, s.node? t = some n := by
  intro t ht
  obtain ⟨k, -, hk⟩ := exists_related h.flip t ht
  obtain ⟨n, hn, -⟩ := Option.map_eq_some_iff.1 hk
  exact ⟨n, hn⟩

/-- The results of a table for a list of terms. -/
def Results (s : Store) (step : Term → Node → List β → β) (ts : List Term) (bs : List β) : Prop :=
  List.Forall₂ (fun t b => s.bottomUp? step t = some b) ts bs

theorem exists_results {s : Store} {step : Term → Node → List β → β} {ts : List Term}
    (h : ∀ t ∈ ts, ∃ b, s.bottomUp? step t = some b) : ∃ bs, s.Results step ts bs := by
  induction ts with
  | nil => exact ⟨[], .nil⟩
  | cons t ts ih =>
    obtain ⟨b, hb⟩ := h t (by simp)
    obtain ⟨bs, hbs⟩ := ih fun u hu => h u (by simp [hu])
    exact ⟨b :: bs, .cons hb hbs⟩

theorem Results.filterMap {s : Store} {step : Term → Node → List β → β} {ts : List Term}
    {bs : List β} (h : s.Results step ts bs) : ts.filterMap (s.bottomUp? step) = bs := by
  induction h with
  | nil => rfl
  | cons hb _ ih => rw [List.filterMap_cons_some hb, ih]

/-- The result for a node, from results for all of its arguments. -/
theorem WellFormed.bottomUp? {s : Store} (hs : s.WellFormed) (step : Term → Node → List β → β)
    {t : Term} {n : Node} (ht : s.node? t = some n) :
    ∃ bs, s.Results step n.args bs ∧ s.bottomUp? step t = some (step t n bs) := by
  refine hs.induction ht fun t n ht ih => ?_
  obtain ⟨ks, hks, -⟩ := hs.fits ht
  have hargs : ∀ a ∈ n.args, ∃ b, s.bottomUp? step a = some b := by
    intro a ha
    obtain ⟨m, hm⟩ := hks.node? a ha
    obtain ⟨bs, -, hb⟩ := ih a ha m hm
    exact ⟨_, hb⟩
  obtain ⟨bs, hbs⟩ := exists_results hargs
  refine ⟨bs, hbs, ?_⟩
  rw [bottomUp?_eq ht (hs.older ht), hbs.filterMap]

/-- The results in a store and in one that extends it are the same. -/
theorem WellFormed.bottomUp?_extends {s u : Store} (hs : s.WellFormed) (hu : u.WellFormed)
    (h : u.Extends s) {step : Term → Node → List β → β} {t : Term} {n : Node}
    (ht : s.node? t = some n) : u.bottomUp? step t = s.bottomUp? step t := by
  refine hs.induction ht fun t n ht ih => ?_
  obtain ⟨bs, hbs, hb⟩ := hs.bottomUp? step ht
  obtain ⟨cs, hcs, hc⟩ := hu.bottomUp? step (h.node? t n ht)
  obtain ⟨ks, hks, -⟩ := hs.fits ht
  have hsame : n.args.filterMap (u.bottomUp? step) = n.args.filterMap (s.bottomUp? step) := by
    refine List.filterMap_congr fun a ha => ?_
    obtain ⟨m, hm⟩ := hks.node? a ha
    exact ih a ha m hm
  rw [hb, hc, ← hbs.filterMap, ← hcs.filterMap, hsame]

end Store

variable {A : TermSort → TermSort → Type}

theorem map_eq_pair {α β : Type} {f : α → β} {as : List α} {x y : β} (h : as.map f = [x, y]) :
    ∃ a b, as = [a, b] ∧ f a = x ∧ f b = y := by
  obtain ⟨a, bs, rfl, ha, hbs⟩ := List.map_eq_cons_iff.1 h
  obtain ⟨b, rfl, hb⟩ := List.map_eq_singleton_iff.1 hbs
  exact ⟨a, b, rfl, ha, hb⟩

open scoped Classical in
/-- What folding knows of a node is what the node means, if that is so for its arguments. -/
theorem known_ofNode {decl? : FuncDecl → Option Signature} {complete : Bool}
    (I : Interpretation A) (t : Term) (n : Node) {f : Term → Meaning A} {g : Term → Option Value}
    (hconstant : ∀ d, n.op = .apply d → n.args = [] → complete = true →
      Known (Value.default? n.sort) (I.free t n []))
    (hfg : ∀ a ∈ n.args, Known (g a) (f a))
    (hop : n.op.Fits decl? (n.args.map fun a => (f a).sort) n.sort) :
    Known (Value.ofNode complete t n (n.args.map g)) (I.ofNode t n (n.args.map f)) := by
  obtain ⟨op, args, k⟩ := n
  have hall : List.Forall₂ Known (args.map g) (args.map f) := by
    rw [List.forall₂_map_left_iff, List.forall₂_map_right_iff, List.forall₂_same]
    exact hfg
  have hmem : ∀ {l : TermSort}, (∀ a ∈ args.map fun a => (f a).sort, a = l) →
      ∀ d ∈ args.map f, d.sort = l := by
    intro l h d hd
    obtain ⟨a, ha, rfl⟩ := List.mem_map.1 hd
    exact h _ (List.mem_map_of_mem ha)
  dsimp only at hfg hop
  cases op with
  | true | false | int _ | real _ =>
    obtain rfl : args = [] := by simpa using hop.1
    intro x hx
    cases hx
    rfl
  | bits value width =>
    obtain rfl : args = [] := by simpa using hop.1
    intro x hx
    cases hx
    exact (Nat.mod_eq_of_lt hop.2.2.1).symm
  | not =>
    obtain ⟨a, rfl, ha⟩ := List.map_eq_singleton_iff.1 hop.1
    obtain ⟨b, hb⟩ := sort_eq_bool ha
    have hk := hfg a (by simp)
    rw [hb] at hk
    rw [List.map_singleton, List.map_singleton, hb]
    exact hk.not
  | and =>
    obtain ⟨bs, hbs⟩ := eq_map_of_sort sort_eq_bool (hmem hop.2.1)
    rw [hbs] at hall ⊢
    rw [Interpretation.ofNode, Operator.standard?, mapM_map .truth truth? fun _ => rfl]
    exact Known.all hall
  | or =>
    obtain ⟨bs, hbs⟩ := eq_map_of_sort sort_eq_bool (hmem hop.2.1)
    rw [hbs] at hall ⊢
    rw [Interpretation.ofNode, Operator.standard?, mapM_map .truth truth? fun _ => rfl]
    exact Known.any hall
  | iff =>
    obtain ⟨a, b, rfl, ha, hb⟩ := map_eq_pair hop.1
    have hka := hfg a (by simp)
    have hkb := hfg b (by simp)
    obtain ⟨x, hx⟩ := sort_eq_bool ha
    obtain ⟨y, hy⟩ := sort_eq_bool hb
    rw [hx] at hka
    rw [hy] at hkb
    have hsame : a = b → x = y := by
      rintro rfl
      exact Meaning.truth.inj (hx.symm.trans hy)
    rw [List.map_cons, List.map_singleton, List.map_cons, List.map_singleton, hx, hy]
    exact hka.iff hkb (a = b) hsame
  | implies =>
    obtain ⟨a, b, rfl, ha, hb⟩ := map_eq_pair hop.1
    have hka := hfg a (by simp)
    have hkb := hfg b (by simp)
    obtain ⟨x, hx⟩ := sort_eq_bool ha
    obtain ⟨y, hy⟩ := sort_eq_bool hb
    rw [hx] at hka
    rw [hy] at hkb
    rw [List.map_cons, List.map_singleton, List.map_cons, List.map_singleton, hx, hy]
    exact hka.implies hkb
  | ite =>
    obtain ⟨c, as, rfl, hc, has⟩ := List.map_eq_cons_iff.1 hop
    obtain ⟨a, b, rfl, ha, hb⟩ := map_eq_pair has
    have hkc := hfg c (by simp)
    obtain ⟨x, hx⟩ := sort_eq_bool hc
    rw [hx] at hkc
    simp only [List.map_cons, List.map_nil, hx]
    exact hkc.ite (hfg a (by simp)) (hfg b (by simp)) (a = b) (congrArg f)
  | eq =>
    obtain ⟨⟨l, hl⟩, -⟩ := hop
    obtain ⟨a, b, rfl, ha, hb⟩ := map_eq_pair hl
    exact Known.equal (hfg a (by simp)) (hfg b (by simp)) (ha.trans hb.symm) (a = b) (congrArg f)
  | distinct =>
    obtain ⟨-, ⟨l, hl⟩, -⟩ := hop
    exact Known.distinct hall (hmem hl)
  | arith op =>
    intro x hx
    obtain ⟨d, hd, hxd⟩ := Known.arith hall (by rwa [List.map_map]) hx
    rwa [Interpretation.ofNode, Operator.standard?, hd]
  | apply d =>
    intro x hx
    cases args with
    | nil =>
      obtain ⟨hcomplete, hx⟩ := Option.ite_none_right_eq_some.1 hx
      exact hconstant d rfl rfl hcomplete x hx
    | cons => cases hx
  | bound _ | quantifier _ _ | bitwise _ | extract _ _ | select | store | constArray =>
    intro x hx
    cases hx

theorem Store.Results.eq_map {s : Store} {β : Type} {step : Term → Node → List β → β}
    {ts : List Term} {bs : List β} {f : Term → β} (h : s.Results step ts bs)
    (hf : ∀ t b, s.bottomUp? step t = some b → f t = b) : bs = ts.map f := by
  induction h with
  | nil => rfl
  | cons hb _ ih => rw [List.map_cons, hf _ _ hb, ← ih]

namespace Interpretation

/-- The meaning of a term that is there. -/
noncomputable def value (I : Interpretation A) (s : Store) (t : Term) : Meaning A :=
  (I.value? s t).getD (.truth false)

/-- The constants of a store mean what completion gives them. -/
def Defaults (I : Interpretation A) (s : Store) : Prop :=
  ∀ t n d, s.node? t = some n → n.op = .apply d → n.args = [] →
    Known (Value.default? n.sort) (I.free t n [])

variable {complete : Bool}

/-- A value that folding finds is what the term means. -/
theorem known_fold (I : Interpretation A) {s : Store} (hs : s.WellFormed)
    (hI : complete = true → I.Defaults s) {t : Term} {n : Node} (ht : s.node? t = some n) :
    I.value? s t = some (I.value s t) ∧ (I.value s t).sort = n.sort ∧
      Known (s.fold complete t) (I.value s t) := by
  refine hs.induction ht fun t n ht ih => ?_
  obtain ⟨ds, hds, hd⟩ := hs.bottomUp? I.ofNode ht
  obtain ⟨vs, hvs, hv⟩ := hs.bottomUp? (Value.ofNode complete) ht
  obtain ⟨ks, hks, hfit⟩ := hs.fits ht
  obtain rfl : ds = n.args.map (I.value s) := hds.eq_map fun a d ha => by
    rw [value, value?, ha, Option.getD_some]
  obtain rfl : vs = n.args.map (s.fold complete) := hvs.eq_map fun a v ha => by
    rw [Store.fold, ha, Option.join_some]
  obtain rfl : ks = n.args.map fun a => (I.value s a).sort := by
    refine hks.unique (List.forall₂_map_right_iff.2 (List.forall₂_same.2 fun a ha => ?_))
    obtain ⟨m, hm⟩ := hks.node? a ha
    rw [Store.sort?, hm, (ih a ha m hm).2.1]
    rfl
  have hval : I.value s t = I.ofNode t n (n.args.map (I.value s)) := by
    rw [value, value?, hd, Option.getD_some]
  have hfold : s.fold complete t = Value.ofNode complete t n (n.args.map (s.fold complete)) := by
    rw [Store.fold, hv, Option.join_some]
  refine ⟨hd.trans (congrArg some hval.symm), ?_, ?_⟩
  · rw [hval, ofNode]
    cases hstd : n.op.standard? (n.args.map (I.value s)) with
    | none => exact I.sort_free t n _
    | some d => exact Operator.sort_standard? (by simpa [Function.comp_def] using hfit) hstd
  · rw [hval, hfold]
    refine known_ofNode I t n (fun d hop hargs hc => hI hc t n d ht hop hargs) (fun a ha => ?_) hfit
    obtain ⟨m, hm⟩ := hks.node? a ha
    exact (ih a ha m hm).2.2

theorem satisfies_of_fold (I : Interpretation A) {s : Store} (hs : s.WellFormed) {t : Term}
    (ht : s.sort? t = some .bool) {b : Bool} (h : s.fold complete t = some (.truth b))
    (hI : complete = true → I.Defaults s) :
    I.value? s t = some (.truth b) := by
  obtain ⟨n, hn, hb⟩ := Option.map_eq_some_iff.1 ht
  obtain ⟨hv, hsort, hknown⟩ := I.known_fold hs hI hn
  obtain ⟨c, hc⟩ := sort_eq_bool (hsort.trans hb)
  have hbc : b = c := by
    have := hknown _ h
    rwa [hc] at this
  rw [hv, hc, hbc]

end Interpretation

namespace FoldingSolver

/-- What the verdict on terms says of their meanings. -/
theorem verdict_sat (I : Interpretation A) {s : Store} (hs : s.WellFormed) {ts : List Term}
    (hb : ∀ t ∈ ts, s.sort? t = some .bool) (h : verdict (ts.map (s.fold false)) = .sat) :
    ∀ t ∈ ts, I.Satisfies s t := by
  intro t ht
  unfold verdict at h
  split at h
  · cases h
  · split at h
    · next hall =>
      have hfold := List.all_eq_true.1 hall _ (List.mem_map_of_mem ht)
      exact I.satisfies_of_fold hs (hb t ht) (eq_of_beq hfold) nofun
    · cases h

theorem verdict_unsat (I : Interpretation A) {s : Store} (hs : s.WellFormed) {ts : List Term}
    (hb : ∀ t ∈ ts, s.sort? t = some .bool) (h : verdict (ts.map (s.fold false)) = .unsat) :
    ¬ ∀ t ∈ ts, I.Satisfies s t := by
  intro hall
  unfold verdict at h
  split at h
  · next hmem =>
    obtain ⟨t, ht, hfold⟩ := List.mem_map.1 hmem
    have hfalse := I.satisfies_of_fold hs (hb t ht) hfold nofun
    rw [hall t ht] at hfalse
    cases hfalse
  · split at h <;> cases h

end FoldingSolver
end FormulaStack
