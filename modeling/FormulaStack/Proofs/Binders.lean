import FormulaStack.Proofs.Abstraction
import FormulaStack.Proofs.Canonicity

/-!
Quantifiers over constants. A closed body that is quantified says for all, or for some, values of
the constants what it said before of the constants.
-/
namespace FormulaStack

namespace Store

variable {s u : Store} {vars : List Term} {cs : List Tree} {t : Term} {x : Tree}

/-- The place of a term in a list is that of its tree. -/
theorem Unfolds.binderIndex? (h : s.Unfolds vars cs) (hs : s.WellFormed)
    (ht : s.tree? t = some x) : Build.binderIndex? vars t = cs.reverse.idxOf? x := by
  have h : List.Forall₂ (fun v c => s.tree? v = some c) vars.reverse cs.reverse :=
    List.rel_reverse h
  unfold Build.binderIndex?
  generalize vars.reverse = vs at h
  generalize cs.reverse = ds at h
  induction h with
  | nil => rfl
  | @cons v d _ _ hvd _ ih =>
    have hsame : (v == t) = (d == x) := by
      rw [Bool.eq_iff_iff, beq_iff_eq, beq_iff_eq]
      constructor
      · rintro rfl
        exact Option.some.inj (hvd.symm.trans ht)
      · rintro rfl
        exact hs.tree?_injective hvd ht
    rw [List.idxOf?_cons, List.idxOf?_cons, hsame, ih]

theorem Unfolds.sorts {ts : List Term} {xs : List Tree} (h : s.Unfolds ts xs)
    (hs : s.WellFormed) : s.Sorts ts (xs.map Tree.sort) :=
  List.forall₂_map_right_iff.2 (h.imp fun _ _ ht => hs.sort?_of_tree? ht)

/-- The tree of a new node. -/
theorem tree?_intern {n : Node} {ks : List TermSort} {xs : List Tree} (hs : s.WellFormed)
    (hks : s.Sorts n.args ks) (hn : n.op.Fits s.decl? ks n.sort) (hxs : s.Unfolds n.args xs) :
    (s.intern n).2.tree? (s.intern n).1 = some (.node (s.label n.op) n.sort xs) := by
  have hext := s.intern_extends n
  have hu : (s.intern n).2.WellFormed := (grows_intern fun _ => ⟨ks, hks, hn⟩).wellFormed hs
  obtain ⟨ys, hys, hy⟩ := hu.tree? (node?_intern s n)
  have hsame : ys = xs := List.right_unique_forall₂' (fun _ _ _ hb hc => by simp_all) hys
    (hxs.mono hs hu hext)
  rw [hy, label_extends hext hn, hsame]

end Store

namespace Build

variable {s u : Store} {vars : List Term} {cs : List Tree} {memo : BoundTerms}

section Steps

variable {fuel depth : Nat} {t : Term} {n : Node}

theorem abstractWith_remembered {r : Term} (hlook : memo.lookup (t, depth) = some r) :
    abstractWith vars (fuel + 1) depth t memo s = .ok ((r, memo), s) := by
  unfold abstractWith
  refine bind_memo_eq_ok.2 ⟨memo, memo, s, rfl, ?_⟩
  rw [hlook]
  rfl

theorem abstractWith_listed {i : Nat} (hlook : memo.lookup (t, depth) = none)
    (hn : s.node? t = some n) (hi : binderIndex? vars t = some i) :
    let r := s.intern ⟨.bound (i + depth), [], n.sort⟩
    abstractWith vars (fuel + 1) depth t memo s = .ok ((r.1, ((t, depth), r.1) :: memo), r.2) := by
  unfold abstractWith
  refine bind_memo_eq_ok.2 ⟨memo, memo, s, rfl, ?_⟩
  rw [hlook]
  refine bind_memo_eq_ok.2 ⟨n, memo, s, lift_eq_ok.2 ⟨n, s, node_eq_ok.2 ⟨hn, rfl⟩, rfl⟩, ?_⟩
  rw [hi]
  exact bind_memo_eq_ok.2 ⟨_, memo, _, lift_eq_ok.2 ⟨_, _, rfl, rfl⟩, rfl⟩

theorem abstractWith_leaf (hlook : memo.lookup (t, depth) = none) (hn : s.node? t = some n)
    (hi : binderIndex? vars t = none) (hargs : n.args = []) :
    abstractWith vars (fuel + 1) depth t memo s = .ok ((t, ((t, depth), t) :: memo), s) := by
  unfold abstractWith
  refine bind_memo_eq_ok.2 ⟨memo, memo, s, rfl, ?_⟩
  rw [hlook]
  refine bind_memo_eq_ok.2 ⟨n, memo, s, lift_eq_ok.2 ⟨n, s, node_eq_ok.2 ⟨hn, rfl⟩, rfl⟩, ?_⟩
  rw [hi]
  dsimp only
  rw [if_pos (by rw [hargs]; rfl)]
  rfl

theorem abstractWith_node {memo₁ : BoundTerms} {rs : List Term}
    (hlook : memo.lookup (t, depth) = none) (hn : s.node? t = some n)
    (hi : binderIndex? vars t = none) (hargs : n.args ≠ [])
    (h : n.args.mapM (abstractWith vars fuel (depth + (s.label n.op).binds)) memo s =
      .ok ((rs, memo₁), u)) :
    let r := u.intern { n with args := rs }
    abstractWith vars (fuel + 1) depth t memo s =
      .ok ((r.1, ((t, depth), r.1) :: memo₁), r.2) := by
  unfold abstractWith
  refine bind_memo_eq_ok.2 ⟨memo, memo, s, rfl, ?_⟩
  rw [hlook]
  refine bind_memo_eq_ok.2 ⟨n, memo, s, lift_eq_ok.2 ⟨n, s, node_eq_ok.2 ⟨hn, rfl⟩, rfl⟩, ?_⟩
  rw [hi]
  dsimp only
  rw [if_neg (by simpa using hargs)]
  refine bind_memo_eq_ok.2 ⟨rs, memo₁, u, ?_, ?_⟩
  · -- The variables that the node binds itself are bound below it, too.
    convert h using 3
    cases n.op with
    | apply d => cases hd : s.decl? d <;> simp [Store.label, hd, Label.binds]
    | _ => rfl
  exact bind_memo_eq_ok.2 ⟨_, memo₁, _, lift_eq_ok.2 ⟨_, _, rfl, rfl⟩, rfl⟩

end Steps

/-- What is remembered are abstractions. -/
def BoundTerms.Shown (memo : BoundTerms) (cs : List Tree) (s : Store) : Prop :=
  ∀ e ∈ memo, ∃ x, s.tree? e.1.1 = some x ∧ s.tree? e.2 = some (x.abstract cs e.1.2)

theorem BoundTerms.Shown.mono (h : memo.Shown cs s) (hs : s.WellFormed) (hu : s.Grows u) :
    memo.Shown cs u := by
  intro e he
  obtain ⟨x, hx, hr⟩ := h e he
  have hw := hu.wellFormed hs
  exact ⟨x, hs.tree?_extends hw hu.extension hx, hs.tree?_extends hw hu.extension hr⟩

theorem BoundTerms.Shown.cons {t r : Term} {x : Tree} {depth : Nat} (h : memo.Shown cs s)
    (ht : s.tree? t = some x) (hr : s.tree? r = some (x.abstract cs depth)) :
    BoundTerms.Shown (((t, depth), r) :: memo) cs s := by
  intro e he
  obtain rfl | he := List.mem_cons.1 he
  · exact ⟨x, ht, hr⟩
  · exact h e he

theorem BoundTerms.Shown.lookup {t r : Term} {x : Tree} {depth : Nat} (h : memo.Shown cs s)
    (ht : s.tree? t = some x) (hr : memo.lookup (t, depth) = some r) :
    s.tree? r = some (x.abstract cs depth) := by
  obtain ⟨l₁, l₂, rfl, -⟩ := List.lookup_eq_some_iff.1 hr
  obtain ⟨y, hy, hr⟩ := h ((t, depth), r) (by simp)
  cases Option.some.inj (ht.symm.trans hy)
  exact hr

/-- Terms have been abstracted over constants, and what is remembered are abstractions. -/
structure Abstracts (cs : List Tree) (s : Store) (rs : List Term) (ys : List Tree)
    (memo : BoundTerms) (u : Store) : Prop where
  grows : s.Grows u
  shown : memo.Shown cs u
  unfolds : u.Unfolds rs ys

theorem mapM_abstracts {f : Term → StateT BoundTerms Build Term} {g : Tree → Tree}
    {ts : List Term} {xs : List Tree} (hs : s.WellFormed)
    (hf : ∀ t ∈ ts, ∀ x u memo, s.Grows u → memo.Shown cs u → u.tree? t = some x →
      ∃ r memo' v, f t memo u = .ok ((r, memo'), v) ∧ Abstracts cs u [r] [g x] memo' v)
    (hm : memo.Shown cs s) (hts : s.Unfolds ts xs) :
    ∃ rs memo' u, ts.mapM f memo s = .ok ((rs, memo'), u) ∧
      Abstracts cs s rs (xs.map g) memo' u := by
  induction ts generalizing s memo xs with
  | nil =>
    cases hts
    exact ⟨[], memo, s, rfl, .refl s, hm, .nil⟩
  | cons t ts ih =>
    obtain ⟨x, ys, ht, hys, rfl⟩ := List.forall₂_cons_left_iff.1 hts
    obtain ⟨r, memo₁, v, hr, hv⟩ := hf t (by simp) x s memo (.refl s) hm ht
    have hwv := hv.grows.wellFormed hs
    obtain ⟨rs, memo₂, w, hrs, hw⟩ := ih hwv
      (fun t ht x u memo hu => hf t (by simp [ht]) x u memo (hv.grows.trans hu)) hv.shown
      (Store.Unfolds.mono hys hs hwv hv.grows.extension)
    refine ⟨r :: rs, memo₂, w, ?_, hv.grows.trans hw.grows, hw.shown, ?_⟩
    · rw [List.mapM_cons]
      exact bind_memo_eq_ok.2 ⟨r, memo₁, v, hr, bind_memo_eq_ok.2 ⟨rs, memo₂, w, hrs, rfl⟩⟩
    · have hr := hv.unfolds.mono hwv (hw.grows.wellFormed hwv) hw.grows.extension
      exact .cons (List.forall₂_cons.1 hr).1 hw.unfolds

theorem remember_abstracts {t r : Term} {x : Tree} {depth : Nat} (hs : s.WellFormed)
    (ht : s.tree? t = some x) (h : Abstracts cs s [r] [x.abstract cs depth] memo u) :
    Abstracts cs s [r] [x.abstract cs depth] (((t, depth), r) :: memo) u :=
  ⟨h.grows, h.shown.cons (hs.tree?_extends (h.grows.wellFormed hs) h.grows.extension ht)
    (List.forall₂_cons.1 h.unfolds).1, h.unfolds⟩

/-- A new node over arguments that are there. -/
theorem intern_abstracts {n : Node} {ks : List TermSort} {xs : List Tree} {y : Tree}
    (hs : s.WellFormed) (h : Abstracts cs s n.args xs memo u) (hks : u.Sorts n.args ks)
    (hn : n.op.Fits u.decl? ks n.sort) (hy : y = .node (u.label n.op) n.sort xs) :
    Abstracts cs s [(u.intern n).1] [y] memo (u.intern n).2 := by
  have hw := h.grows.wellFormed hs
  have hgrows : u.Grows (u.intern n).2 := Store.grows_intern fun _ => ⟨ks, hks, hn⟩
  refine ⟨h.grows.trans hgrows, h.shown.mono hw hgrows, .cons ?_ .nil⟩
  rw [hy]
  exact Store.tree?_intern hw hks hn h.unfolds

/-- The abstraction of a term is the term of the abstraction of its tree. -/
theorem abstractWith_eq_ok {fuel depth : Nat} {t : Term} {x : Tree} (hs : s.WellFormed)
    (hvars : s.Unfolds vars cs) (hm : memo.Shown cs s) (ht : s.tree? t = some x)
    (hfuel : t.index < fuel) :
    ∃ r memo' u, abstractWith vars fuel depth t memo s = .ok ((r, memo'), u) ∧
      Abstracts cs s [r] [x.abstract cs depth] memo' u := by
  induction fuel generalizing depth t memo s x with
  | zero => exact absurd hfuel (Nat.not_lt_zero _)
  | succ fuel ih =>
    cases hlook : memo.lookup (t, depth) with
    | some r =>
      exact ⟨r, memo, s, abstractWith_remembered hlook, .refl s, hm,
        .cons (hm.lookup ht hlook) .nil⟩
    | none =>
      obtain ⟨l, k, xs⟩ := x
      obtain ⟨n, hn, hl, hk, hargs⟩ := hs.node_of_tree? ht
      have hplace := hvars.binderIndex? hs ht
      have hself : Abstracts cs s [] [] memo s := ⟨.refl s, hm, .nil⟩
      cases hi : cs.reverse.idxOf? (Tree.node l k xs) with
      | some i =>
        refine ⟨_, _, _, abstractWith_listed hlook hn (hplace.trans hi),
          remember_abstracts hs ht
            (intern_abstracts (n := ⟨.bound (i + depth), [], n.sort⟩) hs hself .nil rfl ?_)⟩
        rw [Tree.abstract_node, hi, hk]
        rfl
      | none =>
        cases hxs : n.args with
        | nil =>
          rw [hxs] at hargs
          cases hargs
          refine ⟨_, _, _, abstractWith_leaf hlook hn (hplace.trans hi) hxs,
            remember_abstracts hs ht ⟨.refl s, hm, .cons ?_ .nil⟩⟩
          rw [Tree.abstract_node, hi]
          exact ht
        | cons a as =>
          obtain ⟨ks, hks, hfit⟩ := hs.fits hn
          obtain ⟨rs, memo₁, u, hrs, hu⟩ := mapM_abstracts (g := fun x => x.abstract cs _) hs
            (fun a ha x v memo hv hmv hx => ih (hv.wellFormed hs)
              (hvars.mono hs (hv.wellFormed hs) hv.extension) hmv hx
              (Nat.lt_of_lt_of_le (hs.older hn a ha) (Nat.le_of_lt_succ hfuel))) hm hargs
          refine ⟨_, _, _, abstractWith_node hlook hn (hplace.trans hi) (by simp [hxs]) hrs,
            remember_abstracts hs ht (intern_abstracts hs hu
              (hu.unfolds.sorts (hu.grows.wellFormed hs)) ?_ ?_)⟩
          · have hsorts : xs.map Tree.sort = ks := (hargs.sorts hs).unique hks
            rw [List.map_map]
            simp only [Function.comp_def, Tree.sort_abstract, hsorts]
            exact hfit.mono hu.grows.extension.decl?
          · rw [Tree.abstract_node, hi, Store.label_extends hu.grows.extension hfit, hl, hk]

theorem boundName_eq_ok {f : Signature} {t : Term} (hs : s.WellFormed)
    (ht : s.tree? t = some f.constant) : boundName t s = .ok ((f.name, f.range), s) := by
  obtain ⟨⟨op, args, k⟩, hn, hl, rfl, hargs⟩ := hs.node_of_tree? ht
  obtain ⟨d, rfl, hd⟩ := Store.label_eq_apply hl
  cases hargs
  refine bind_eq_ok.2 ⟨_, s, node_eq_ok.2 ⟨hn, rfl⟩, ?_⟩
  refine bind_eq_ok.2 ⟨f, s, ofExcept_eq_ok.2 ⟨?_, rfl⟩, rfl⟩
  simp [Store.decl, hd]

theorem boundNames_eq_ok {fs : List Signature} (hs : s.WellFormed)
    (h : s.Unfolds vars (fs.map Signature.constant)) :
    vars.mapM boundName s = .ok (fs.map fun f => (f.name, f.range), s) := by
  induction vars generalizing fs with
  | nil =>
    obtain rfl := List.map_eq_nil_iff.1 (List.forall₂_nil_left_iff.1 h)
    rfl
  | cons t ts ih =>
    obtain ⟨x, xs, ht, hts, hfs⟩ := List.forall₂_cons_left_iff.1 h
    obtain ⟨f, gs, rfl, rfl, rfl⟩ := List.map_eq_cons_iff.1 hfs
    rw [List.mapM_cons]
    exact bind_eq_ok.2 ⟨_, s, boundName_eq_ok hs ht, bind_eq_ok.2 ⟨_, s, ih hts, rfl⟩⟩

/-- A quantifier over constants is one over the abstraction of its body. -/
theorem quantifier_eq_ok {q : Quantifier} {fs : List Signature} {body : Term} {x : Tree}
    (hs : s.WellFormed) (hvars : s.Unfolds vars (fs.map Signature.constant)) (hne : vars ≠ [])
    (hbody : s.tree? body = some x) (hx : x.sort = .bool) :
    ∃ t u, quantifier q vars body s = .ok (t, u) ∧ s.Grows u ∧
      u.tree? t = some (.connective (.quantifier q (fs.map fun f => (f.name, f.range)))
        [x.abstract (fs.map Signature.constant) 0]) := by
  have hempty : BoundTerms.Shown [] (fs.map Signature.constant) s := by simp [BoundTerms.Shown]
  obtain ⟨r, memo, u, hr, hu⟩ : ∃ r memo u,
      abstractWith vars (body.index + 1) 0 body [] s = .ok ((r, memo), u) ∧
        Abstracts (fs.map Signature.constant) s [r] [x.abstract (fs.map Signature.constant) 0]
          memo u :=
    abstractWith_eq_ok hs hvars hempty hbody (Nat.lt_succ_self _)
  have hw := hu.grows.wellFormed hs
  have hsort : s.sort? body = some .bool := by rw [hs.sort?_of_tree? hbody, hx]
  have habs : (abstractWith vars (body.index + 1) 0 body [] >>= fun p => pure p.1) s =
      .ok (r, u) := bind_eq_ok.2 ⟨(r, memo), u, hr, rfl⟩
  have hnames : fs.map (fun f => (f.name, f.range)) ≠ [] := by
    rintro h
    obtain rfl := List.map_eq_nil_iff.1 h
    exact hne (List.forall₂_nil_right_iff.1 hvars)
  let n : Node := ⟨.quantifier q (fs.map fun f => (f.name, f.range)), [r], .bool⟩
  have hsorts : u.Sorts n.args [.bool] := by
    simpa [Tree.sort_abstract, hx] using hu.unfolds.sorts hw
  have hfit : n.op.Fits u.decl? [.bool] n.sort := ⟨hnames, rfl, rfl⟩
  refine ⟨(u.intern n).1, (u.intern n).2, ?_, ?_, Store.tree?_intern hw hsorts hfit hu.unfolds⟩
  · refine bind_eq_ok.2 ⟨(), s, expect_eq_ok.2 ⟨hsort, rfl⟩, ?_⟩
    rw [if_neg (by simpa using hne)]
    refine bind_eq_ok.2 ⟨_, s, boundNames_eq_ok hs hvars, ?_⟩
    exact bind_eq_ok.2 ⟨r, u, habs, rfl⟩
  · exact hu.grows.trans (Store.grows_intern fun _ => ⟨_, hsorts, hfit⟩)

end Build

namespace Tree

variable {A : TermSort → TermSort → Type} {q : Quantifier} {fs : List Signature} {x : Tree}

open scoped Classical in
/-- The constants have the values of the new variables, and so do the indices of the body that were
unbound. -/
theorem truth_abstracted {M : Structure A} {ρ : Binding A} (hx : x.Proposition)
    (hy : (x.abstract (fs.map Signature.constant) 0).Proposition) :
    (connective (.quantifier q (fs.map fun f => (f.name, f.range)))
        [x.abstract (fs.map Signature.constant) 0]).truth M ρ = true ↔
      q.Holds (fs.map Signature.range) fun ds =>
        x.truth (M.assign (fs.map Signature.constant) ds) (ρ.extend ds) = true := by
  have hsorts : (fs.map fun f => (f.name, f.range)).map (·.2) = fs.map Signature.range := by
    simp [Function.comp_def]
  rw [truth_quantifier hy, decide_eq_true_iff, hsorts]
  refine q.holds_congr fun ds hds => ?_
  have hds' : ds.map Meaning.sort = (fs.map Signature.constant).map sort := by
    rw [hds, List.map_map]
    rfl
  rw [truth, value_abstract rfl hds' hx.wellSorted (bound_extend ρ ds), truth]

/-- A closed body that is quantified over constants. -/
theorem truth_quantified {M : Structure A} {ρ : Binding A} (hx : x.Proposition) (hc : x.Closed)
    (hy : (x.abstract (fs.map Signature.constant) 0).Proposition) :
    (connective (.quantifier q (fs.map fun f => (f.name, f.range)))
        [x.abstract (fs.map Signature.constant) 0]).truth M ρ = true ↔
      q.Reassigns (fs.map Signature.constant) M fun M' => x.truth M' ρ = true := by
  have hsorts : fs.map Signature.range = (fs.map Signature.constant).map sort := by
    rw [List.map_map]
    rfl
  rw [truth_abstracted hx hy, ← Quantifier.holds_iff_reassigns, hsorts]
  refine q.holds_congr fun ds _ => ?_
  rw [truth, hc.value_congr hx.wellSorted (ρ := ρ) (by simp), truth]

theorem Closed.quantified (hc : x.Closed) :
    (connective (.quantifier q (fs.map fun f => (f.name, f.range)))
      [x.abstract (fs.map Signature.constant) 0]).Closed := by
  refine boundBelow_node.2 ⟨nofun, ?_⟩
  have h : (x.abstract (fs.map Signature.constant) 0).BoundBelow _ := hc.abstract
  simpa [Label.binds] using h

theorem not_occurs_quantified {f : Signature} (hf : f ∈ fs) :
    ¬ Occurs f.constant (connective (.quantifier q (fs.map fun f => (f.name, f.range)))
      [x.abstract (fs.map Signature.constant) 0]) := by
  intro h
  obtain h | ⟨y, hy, h⟩ := occurs_node.1 h
  · cases h
  · rw [List.mem_singleton.1 hy] at h
    exact not_occurs_abstract rfl hf h

end Tree

/-- Whatever was built before, a quantifier binds the listed constants and nothing else. -/
theorem Store.quantifier_binds (requests : List Request) (q : Quantifier) (vars : List Term)
    (body : Term) (fs : List Signature) (x : Tree) (hne : vars ≠ [])
    (hvars : (empty.serveAll requests).Unfolds vars (fs.map Signature.constant))
    (hbody : (empty.serveAll requests).tree? body = some x) (hsort : x.sort = .bool)
    (hclosed : x.Closed) :
    ∃ t u y, Build.quantifier q vars body (empty.serveAll requests) = .ok (t, u) ∧
      u.tree? t = some y ∧
      (∀ (A : TermSort → TermSort → Type) (M : Structure A) (ρ : Binding A),
        y.truth M ρ = true ↔
          q.Reassigns (fs.map Signature.constant) M fun M' => x.truth M' ρ = true) ∧
      y.Closed ∧ ∀ f ∈ fs, ¬ Tree.Occurs f.constant y := by
  have hs : (empty.serveAll requests).WellFormed := wellFormed_serveAll requests
  obtain ⟨t, u, ht, hgrows, hy⟩ := Build.quantifier_eq_ok (q := q) hs hvars hne hbody hsort
  have hwell := (hgrows.wellFormed hs).wellSorted_of_tree? hy
  refine ⟨t, u, _, ht, hy, fun A M ρ => ?_, hclosed.quantified, fun f => Tree.not_occurs_quantified⟩
  refine Tree.truth_quantified ⟨hs.wellSorted_of_tree? hbody, hsort⟩ hclosed ⟨?_, ?_⟩
  · exact (Tree.wellSorted_node.1 hwell).2 _ (by simp)
  · rw [Tree.sort_abstract, hsort]

/-- A constant is listed twice and occurs beside a quantifier over the same name. -/
theorem Store.quantifier_binds_beside_quantifier :
    let p : Signature := ⟨"p", [], .bool⟩
    let s := empty.serveAll [.construct (.constant "p" .bool),
      .construct (.quantifier .all [⟨0⟩] ⟨0⟩), .construct (.or [⟨0⟩, ⟨2⟩])]
    let x := Tree.connective .or [p.constant,
      .connective (.quantifier .all [("p", .bool)]) [.node (.op (.bound 0)) .bool []]]
    s.tree? ⟨3⟩ = some x ∧ x.Closed ∧ ∃ t u y,
      Build.quantifier .some [⟨0⟩, ⟨0⟩] ⟨3⟩ s = .ok (t, u) ∧ u.tree? t = some y ∧
      (∀ (A : TermSort → TermSort → Type) (M : Structure A) (ρ : Binding A),
        y.truth M ρ = true ↔ Quantifier.some.Reassigns [p.constant, p.constant] M
          fun M' => x.truth M' ρ = true) ∧
      y.Closed ∧ ∀ f ∈ [p, p], ¬ Tree.Occurs f.constant y := by
  intro p s x
  have hp : s.tree? ⟨0⟩ = some p.constant := by decide +kernel
  have hx : s.tree? ⟨3⟩ = some x := by decide +kernel
  have hclosed : x.Closed := by
    simp [x, Tree.Closed, Tree.connective, Signature.constant, Tree.boundBelow_node, Label.binds]
  exact ⟨hx, hclosed, quantifier_binds _ .some [⟨0⟩, ⟨0⟩] ⟨3⟩ [p, p] x (by simp)
    (.cons hp (.cons hp .nil)) hx rfl hclosed⟩

end FormulaStack
