import FormulaStack.Proofs.Models
import FormulaStack.Proofs.Repetitions
import FormulaStack.Proofs.Typing
import FormulaStack.Proofs.ValueSorts

/-!
What is in a model. It lists the declared constants that are not arrays, by name: each as often as
frames have declared it, which is once unless a client has added its symbol again. There is a model
after a check that says yes, if no constant is a vector of no bits.
-/
namespace FormulaStack

/-- Constants of other sorts than those of arrays. -/
def Signature.Scalar (f : Signature) : Prop :=
  f.domain = [] ∧ ∀ index element, f.range ≠ .array index element

/-- Constants that are vectors of no bits. -/
def Signature.Bitless (f : Signature) : Prop := f.domain = [] ∧ f.range = .bitvec 0

/-- The constant of a declaration that has a value in models. -/
def Store.Lists (store : Store) (t : Term) (d : FuncDecl) : Prop :=
  ∃ f, store.decl? d = some f ∧ f.Scalar ∧ store.node? t = some ⟨.apply d, [], f.range⟩

theorem Store.Lists.mono {store store' : Store} {t : Term} {d : FuncDecl} (h : store.Lists t d)
    (hs : store'.Extends store) : store'.Lists t d := by
  obtain ⟨f, hf, hscalar, hn⟩ := h
  exact ⟨f, hs.decl? d f hf, hscalar, hs.node? t _ hn⟩

theorem Store.Lists.symbolName {store : Store} {t : Term} {d : FuncDecl} (h : store.Lists t d) :
    store.symbolName t = .ok (store.declName d) := by
  obtain ⟨f, -, -, hn⟩ := h
  rw [Store.symbolName, Store.node_eq_ok.2 hn]
  rfl

theorem Store.decl_eq_ok {store : Store} {d : FuncDecl} {f : Signature} :
    store.decl d = .ok f ↔ store.decl? d = some f := by
  unfold decl
  cases store.decl? d <;> simp

theorem Build.apply_nil {d : FuncDecl} {f : Signature} {store : Store}
    (hf : store.decl d = .ok f) (hdomain : f.domain = []) :
    Build.apply d [] store = .ok (store.intern ⟨.apply d, [], f.range⟩) := by
  refine bind_eq_ok.2 ⟨f, store, ofExcept_eq_ok.2 ⟨hf, rfl⟩, ?_⟩
  rw [hdomain]
  rfl

namespace FoldingSolver

theorem exec_build {α : Type} (b : Build α) (store : Store) (s : FoldingSolver) :
    (SessionM.build b).exec (store, s) =
      match b store with
      | .ok (a, terms) => (.ok a, terms, s)
      | .error x => (.error x, store, s) := by
  rw [SessionM.build]
  rcases hb : b store with x | ⟨a, terms⟩ <;> simp only [Effect.exec_of, hb]

/-- A constant is made with the literal of its default value, if its sort has one. -/
theorem exec_assignment? (d : FuncDecl) (store : Store) (s : FoldingSolver) :
    (assignment? d).exec (store, s) =
      match store.decl d with
      | .error x => (.error x, store, s)
      | .ok f =>
        if f.domain = [] then
          match Value.default? f.range with
          | none => (.ok none, (store.intern ⟨.apply d, [], f.range⟩).2, s)
          | some v =>
            match v.literal f.range (store.intern ⟨.apply d, [], f.range⟩).2 with
            | .error x => (.error x, (store.intern ⟨.apply d, [], f.range⟩).2, s)
            | .ok (u, terms) =>
              (.ok (some ((store.intern ⟨.apply d, [], f.range⟩).1, u)), terms, s)
        else (.ok none, store, s) := by
  unfold assignment? SessionM.ofStore
  rw [Effect.exec_bind, Effect.exec_ask]
  dsimp only
  cases hf : store.decl d with
  | error x => rfl
  | ok f =>
    dsimp only
    by_cases hdomain : f.domain = []
    swap
    · rw [if_neg hdomain, if_pos (by simpa using hdomain)]
      rfl
    · rw [if_pos hdomain, if_neg (by simp [hdomain]), Effect.exec_bind, exec_build,
        Build.apply_nil hf hdomain]
      dsimp only
      cases Value.default? f.range with
      | none => rfl
      | some v =>
        dsimp only
        rw [Effect.exec_bind, exec_build]
        rcases v.literal f.range (store.intern ⟨.apply d, [], f.range⟩).2 with
          x | ⟨u, terms⟩ <;> rfl

theorem default?_eq_none {k : TermSort} :
    Value.default? k = none ↔ ∃ index element, k = .array index element := by
  cases k <;> simp [Value.default?]

/-- The constant of a declaration is given with its value, if it has one in models. -/
theorem ensures_assignment? (d : FuncDecl) (store : Store) (s : FoldingSolver) :
    (assignment? d).Ensures (store, s) fun r p => p.1.Extends store ∧ p.2 = s ∧
      ∃ f, store.decl? d = some f ∧ (f.Scalar ↔ r.isSome = true) ∧
        ∀ pair, r = some pair → p.1.Lists pair.1 d := by
  intro r p hx
  have hquiet := quiet_assignment? d (store, s)
  rw [hx] at hquiet
  rw [exec_assignment?] at hx
  cases hf : store.decl d with
  | error x =>
    rw [hf] at hx
    cases hx
  | ok f =>
    rw [hf] at hx
    have hdecl := Store.decl_eq_ok.1 hf
    dsimp only at hx
    split at hx
    swap
    · next hdomain =>
      cases hx
      exact ⟨.refl store, rfl, f, hdecl, by simp [Signature.Scalar, hdomain], nofun⟩
    next hdomain =>
    split at hx
    · next hv =>
      cases hx
      obtain ⟨index, element, hk⟩ := default?_eq_none.1 hv
      exact ⟨hquiet.1.extension, rfl, f, hdecl, by simp [Signature.Scalar, hk], nofun⟩
    · next v hv =>
      split at hx
      · cases hx
      · next u terms hu =>
        cases hx
        have hscalar : f.Scalar := ⟨hdomain, fun index element hk =>
          by rw [default?_eq_none.2 ⟨index, element, hk⟩] at hv; cases hv⟩
        refine ⟨hquiet.1.extension, rfl, f, hdecl, by simp [hscalar], ?_⟩
        rintro _ ⟨⟩
        refine ⟨f, hquiet.1.extension.decl? d f hdecl, hscalar, ?_⟩
        exact ((literal_grows v f.range) _ _ _ hu).extension.node? _ _ (store.node?_intern _)

theorem ensures_mapM_assignment? (ds : List FuncDecl) (store : Store) (s : FoldingSolver) :
    (ds.mapM assignment?).Ensures (store, s) fun rs p => p.1.Extends store ∧ p.2 = s ∧
      ∃ es, List.Forall₂ (fun (pair : Term × Term) d => p.1.Lists pair.1 d) (rs.filterMap id) es ∧
        es.Sublist ds ∧ ∀ d f, p.1.decl? d = some f → f.Scalar → es.count d = ds.count d := by
  induction ds generalizing store with
  | nil => exact .pure ⟨.refl store, rfl, [], .nil, .refl [], fun _ _ _ _ => rfl⟩
  | cons e ds ih =>
    rw [List.mapM_cons]
    refine .bind (ensures_assignment? e store s) fun r p hr => ?_
    obtain ⟨terms, s'⟩ := p
    obtain ⟨hterms, rfl, f, hf, hscalar, hlists⟩ := hr
    refine .bind (ih terms) fun rs q hrs => .pure ?_
    obtain ⟨hrest, hs, es, hes, hsub, hcount⟩ := hrs
    cases r with
    | none =>
      refine ⟨hrest.trans hterms, hs, es, hes, hsub.cons e, fun d g hd hg => ?_⟩
      have hne : e ≠ d := by
        rintro rfl
        cases (hrest.decl? e f (hterms.decl? e f hf)).symm.trans hd
        cases hscalar.1 hg
      rw [List.count_cons_of_ne hne, hcount d g hd hg]
    | some pair =>
      refine ⟨hrest.trans hterms, hs, e :: es, .cons ((hlists pair rfl).mono hrest) hes,
        hsub.cons_cons e, fun d g hd hg => ?_⟩
      rw [List.count_cons, List.count_cons, hcount d g hd hg]

/-- The constants that the session has declared, each as often as frames have declared it. -/
theorem ensures_assignments (store : Store) (s : FoldingSolver) :
    assignments.Ensures (store, s) fun pairs p => p.1.Extends store ∧ p.2 = s ∧
      s.last = some .sat ∧
      ∃ es, List.Forall₂ (fun (pair : Term × Term) d => p.1.Lists pair.1 d) pairs es ∧
        (∀ d ∈ es, s.isDeclared d = true) ∧
        ∀ d f, p.1.decl? d = some f → f.Scalar → es.count d = s.timesDeclared d := by
  unfold assignments
  refine .bind (ensures_modelAvailable (store, s)) fun _ p hp => ?_
  obtain ⟨rfl, hsat⟩ := hp
  refine .look_bind (.bind (ensures_mapM_assignment? _ store s) fun rs p hrs => .pure ?_)
  obtain ⟨hterms, hs, es, hes, hsub, hcount⟩ := hrs
  have hperm := List.mergeSort_perm (s.frames.toList.flatMap (·.declared))
    fun a b => decide (a.index ≤ b.index)
  refine ⟨hterms, hs, hsat, es, hes, fun d hd => ?_, fun d f hd hf => ?_⟩
  · rw [isDeclared_iff_timesDeclared]
    exact List.count_pos_iff.2 (hperm.mem_iff.1 (hsub.subset hd))
  · rw [hcount d f hd hf, hperm.count_eq]
    rfl

variable {store : Store} {s : FoldingSolver} {k : TermSort} {d : FuncDecl}

theorem modelAvailable_succeeds (hsat : s.last = some .sat) (store : Store) :
    modelAvailable.Succeeds (store, s) fun _ p => p = (store, s) := by
  refine .look_bind ?_
  rw [if_neg (not_not.2 hsat)]
  exact .pure rfl

theorem build_succeeds {α : Type} {b : Build α} {a : α} {terms : Store}
    (hb : b store = .ok (a, terms)) (s : FoldingSolver) :
    (SessionM.build b).Succeeds (store, s) fun a' p => a' = a ∧ p = (terms, s) := by
  refine ⟨a, (terms, s), ?_, rfl, rfl⟩
  rw [exec_build, hb]

/-- A value can be read, unless it is a vector of no bits. -/
theorem literal_succeeds {v : Value} (hv : v.Belongs k) (hk : k ≠ .bitvec 0) (store : Store)
    (s : FoldingSolver) :
    (SessionM.build (v.literal k)).Succeeds (store, s) fun u p => p.1.sort? u = some k := by
  obtain ⟨u, terms, hliteral, hu⟩ := hv.exists_literal hk store
  refine (build_succeeds hliteral s).mono ?_
  rintro _ _ ⟨rfl, rfl⟩
  exact hu

/-- A constant that can be read is listed with a value, or it is left out. -/
theorem assignment?_succeeds {f : Signature} (hf : store.decl? d = some f) (hbits : ¬ f.Bitless)
    (s : FoldingSolver) : (assignment? d).Succeeds (store, s) fun r p =>
      ∀ pair ∈ r, ∃ k, p.1.sort? pair.2 = some k := by
  refine .ask_bind (Store.decl_eq_ok.2 hf) ?_
  by_cases hdomain : f.domain = []
  swap
  · rw [if_pos (by simpa using hdomain)]
    exact .pure nofun
  · rw [if_neg (by simp [hdomain])]
    refine .bind (build_succeeds (Build.apply_nil (Store.decl_eq_ok.2 hf) hdomain) s)
      fun u p _ => ?_
    cases hv : Value.default? f.range with
    | none => exact .pure nofun
    | some v =>
      have hk : f.range ≠ .bitvec 0 := fun hrange => hbits ⟨hdomain, hrange⟩
      refine .bind (literal_succeeds (Value.fits_default v hv) hk p.1 p.2) fun u p hu => .pure ?_
      rintro _ ⟨⟩
      exact ⟨_, hu⟩

theorem mapM_assignment?_succeeds {ds : List FuncDecl} (s : FoldingSolver)
    (h : ∀ d ∈ ds, ∃ f, store.decl? d = some f ∧ ¬ f.Bitless) :
    (ds.mapM assignment?).Succeeds (store, s) fun rs p =>
      ∀ pair ∈ rs.filterMap id, ∃ k, p.1.sort? pair.2 = some k := by
  induction ds generalizing store with
  | nil => exact .pure fun pair hp => (List.not_mem_nil hp).elim
  | cons e ds ih =>
    obtain ⟨⟨f, hf, hbits⟩, hrest⟩ := List.forall_mem_cons.1 h
    rw [List.mapM_cons]
    refine .bind ((assignment?_succeeds hf hbits s).and (ensures_assignment? e store s))
      fun r p hr => ?_
    obtain ⟨terms, s'⟩ := p
    obtain ⟨hr, hterms, rfl, -⟩ := hr
    have hknown : ∀ d ∈ ds, ∃ f, terms.decl? d = some f ∧ ¬ f.Bitless := fun d hd =>
      (hrest d hd).imp fun f hf => ⟨hterms.decl? d f hf.1, hf.2⟩
    refine .bind ((ih hknown).and (ensures_mapM_assignment? ds terms s')) fun rs q hrs => .pure ?_
    obtain ⟨hrs, hextends, -⟩ := hrs
    cases r with
    | none => exact hrs
    | some pair =>
      refine List.forall_mem_cons.2 ⟨?_, hrs⟩
      obtain ⟨k, hk⟩ := hr pair rfl
      exact ⟨k, hextends.sort? hk⟩

/-- As long as there is a model, the declared constants are listed. -/
theorem assignments_succeeds (hsat : s.last = some .sat)
    (h : ∀ d, s.isDeclared d = true → ∃ f, store.decl? d = some f ∧ ¬ f.Bitless) :
    assignments.Succeeds (store, s) fun pairs p => ∀ pair ∈ pairs,
      (∃ d, p.1.Lists pair.1 d) ∧ ∃ k, p.1.sort? pair.2 = some k := by
  have hvalues : assignments.Succeeds (store, s) fun pairs p =>
      ∀ pair ∈ pairs, ∃ k, p.1.sort? pair.2 = some k := by
    refine .bind (modelAvailable_succeeds hsat store) fun _ p hp => ?_
    obtain rfl := hp
    refine .look_bind ?_
    refine .bind (mapM_assignment?_succeeds s fun d hd => h d ?_) fun rs p hrs => .pure hrs
    have hm := (List.mergeSort_perm (s.frames.toList.flatMap (·.declared))
      fun a b => decide (a.index ≤ b.index)).mem_iff.1 hd
    exact isDeclared_iff.2 (List.mem_flatMap.1 hm)
  refine (hvalues.and (ensures_assignments store s)).mono fun pairs p hp pair hm => ?_
  obtain ⟨hsorts, -, -, -, es, hes, -⟩ := hp
  obtain ⟨d, -, hd⟩ := exists_related hes.flip pair hm
  exact ⟨⟨d, hd⟩, hsorts pair hm⟩

end FoldingSolver

namespace Environment

theorem ensures_wrapAsIs (t : Term) (env : Environment) : (wrapAsIs t).Ensures env fun f env' =>
    env'.terms = env.terms ∧ f.term = t := by
  refine .ask_bind fun type _ => .ask_bind fun actual _ => ?_
  split
  · rintro _ _ ⟨⟩
    exact ⟨rfl, rfl⟩
  · exact .throw_bind _

variable {env : Environment} {t : Term} {k : TermSort}

theorem wrap_succeeds {type : FormulaType} (hk : env.terms.sort? t = some k)
    (haccepts : type.accepts k.type = true) :
    (wrap type t).Succeeds env fun f env' => env'.terms = env.terms ∧ f.type = type := by
  obtain ⟨ticket, handles, hx⟩ := exec_wrap hk haccepts
  exact ⟨_, _, hx, rfl, rfl⟩

theorem wrapAsIs_succeeds (hk : env.terms.sort? t = some k) :
    (wrapAsIs t).Succeeds env fun _ env' => env'.terms = env.terms := by
  refine .ask_bind (typeOf_eq_ok.2 ⟨k, hk, rfl⟩) ?_
  exact (wrap_succeeds hk (FormulaType.accepts_self _)).mono fun _ _ h => h.1

end Environment

namespace Model

open Environment

/-- An assignment is about a constant, which its key is, and has its name. -/
def About (terms : Store) (pair : Term × Term) (a : Assignment) : Prop :=
  a.key.term = pair.1 ∧ terms.symbolName pair.1 = .ok a.name

theorem ensures_ofPair (pair : Term × Term) (env : Environment) :
    (Assignment.ofPair pair).Ensures env fun a env' =>
      env'.terms = env.terms ∧ About env.terms pair a := by
  refine .ask_bind fun name hname => .ask_bind fun constant _ => ?_
  refine .bind (ensures_wrapAsIs pair.1 env) fun key u hkey => ?_
  refine .bind (.undoing (ensures_wrapAsIs pair.2 u)) fun value v hvalue => .pure ?_
  exact ⟨hvalue.1.trans hkey.1, hkey.2, hname⟩

theorem ensures_model_assignments (pairs : List (Term × Term)) (env : Environment) :
    (assignments pairs).Ensures env fun m env' =>
      env'.terms = env.terms ∧ List.Forall₂ (About env.terms) pairs m := by
  induction pairs generalizing env with
  | nil => exact .pure ⟨rfl, .nil⟩
  | cons pair pairs ih =>
    refine .bind (ensures_ofPair pair env) fun a u ha => .bind (.undoing (ih u)) fun m v hm => ?_
    exact .pure ⟨hm.1.trans ha.1, .cons ha.2 (ha.1 ▸ hm.2)⟩

theorem ofPair_succeeds {pair : Term × Term} {env : Environment} {d : FuncDecl} {k : TermSort}
    (hconstant : env.terms.Lists pair.1 d) (hvalue : env.terms.sort? pair.2 = some k) :
    (Assignment.ofPair pair).Succeeds env fun _ env' => env'.terms = env.terms := by
  obtain ⟨n, hn, -⟩ := Option.map_eq_some_iff.1 hvalue
  have hliteral : env.terms.constantValue pair.2 = .ok (ConstantValue.ofNode? n) := by
    rw [Store.constantValue, Store.node_eq_ok.2 hn]
    rfl
  refine .ask_bind hconstant.symbolName (.ask_bind hliteral ?_)
  obtain ⟨f, -, -, hnode⟩ := hconstant
  have hkey : env.terms.sort? pair.1 = some f.range := by
    rw [Store.sort?, hnode]
    rfl
  refine .bind (wrapAsIs_succeeds hkey) fun key x hx => ?_
  rw [← hx] at hvalue
  exact .bind (.undoing (wrapAsIs_succeeds hvalue)) fun value y hy => .pure (hy.trans hx)

theorem assignments_succeeds {pairs : List (Term × Term)} {env : Environment}
    (h : ∀ pair ∈ pairs, (∃ d, env.terms.Lists pair.1 d) ∧ ∃ k, env.terms.sort? pair.2 = some k) :
    (assignments pairs).Succeeds env fun _ _ => True := by
  induction pairs generalizing env with
  | nil => exact .pure trivial
  | cons pair pairs ih =>
    obtain ⟨⟨⟨d, hd⟩, k, hk⟩, hrest⟩ := List.forall_mem_cons.1 h
    refine .bind (ofPair_succeeds hd hk) fun a u hu => ?_
    rw [← hu] at hrest
    exact .bind (.undoing (ih hrest)) fun m v _ => .pure trivial

end Model

theorem pairwise_mergeSort_by {α : Type} (key : α → String) (as : List α) :
    (as.mergeSort fun a b => decide (key a ≤ key b)).Pairwise fun a b => key a ≤ key b := by
  have htrans : ∀ a b c, decide (key a ≤ key b) = true → decide (key b ≤ key c) = true →
      decide (key a ≤ key c) = true := by
    intro a b c hab hbc
    rw [decide_eq_true_iff] at hab hbc ⊢
    exact String.le_trans hab hbc
  have htotal : ∀ a b, (decide (key a ≤ key b) || decide (key b ≤ key a)) = true := by
    intro a b
    simpa using String.le_total (key a) (key b)
  exact (List.pairwise_mergeSort htrans htotal as).imp of_decide_eq_true

namespace Site

theorem ensures_native {σ α : Type} {s : Site σ} {e : SessionM σ α} {Q : α → Store × σ → Prop}
    (h : e.Ensures s.desk Q) : (native e).Ensures s fun a t => ∃ p, Q a p ∧ t = s.answered p := by
  intro a t hx
  rcases he : e.exec s.desk with ⟨r, p⟩
  rw [exec_native_eq he] at hx
  cases hx
  exact ⟨p, h a p he, rfl⟩

/-- A model lists, by name, the constants that the session has declared. -/
theorem ensures_model (s : Site FoldingSolver) : model.Ensures s fun m t =>
    s.stack.session.last = some .sat ∧ s.stack.closed = false ∧
    t.env.terms.Extends s.env.terms ∧ m.Pairwise (fun a b => a.name ≤ b.name) ∧
      ∃ ds, List.Forall₂ (fun (a : Assignment) d => t.env.terms.Lists a.key.term d ∧
          t.env.terms.declName d = a.name) m ds ∧
        (∀ d ∈ ds, s.stack.session.isDeclared d = true) ∧
        ∀ d f, t.env.terms.decl? d = some f → f.Scalar →
          ds.count d = s.stack.session.timesDeclared d := by
  refine .bind (ensures_ensureOpen s) fun _ t ht => ?_
  obtain ⟨rfl, ho⟩ := ht
  refine .bind (ensures_native (FoldingSolver.ensures_assignments t.env.terms t.stack.session))
    fun pairs u hu => .on (.bind (Model.ensures_model_assignments pairs u.env)
      fun m env hm => .pure ?_)
  obtain ⟨⟨terms, session⟩, ⟨hterms, -, hsat, es, hes, hdeclared, hcount⟩, rfl⟩ := hu
  obtain ⟨henv, hm⟩ := hm
  have habout : List.Forall₂ (fun (a : Assignment) d => terms.Lists a.key.term d ∧
      terms.declName d = a.name) m es := by
    refine (forall₂_comp hm hes).imp ?_
    rintro a d ⟨pair, ⟨hkey, hname⟩, hlists⟩
    exact ⟨hkey ▸ hlists, Except.ok.inj (hlists.symbolName.symm.trans hname)⟩
  obtain ⟨ds, hds, hperm⟩ := List.perm_comp_forall₂
    (List.mergeSort_perm m fun a b => decide (a.name ≤ b.name)) habout
  have hterms' : env.terms = terms := henv
  refine ⟨hsat, ho, ?_, ?_, ds, ?_, fun d hd => hdeclared d (hperm.mem_iff.1 hd),
    fun d f hd hf => ?_⟩
  · exact hterms' ▸ hterms
  · exact pairwise_mergeSort_by (·.name) m
  · exact hterms' ▸ hds
  · rw [hperm.count_eq]
    exact hcount d f (hterms' ▸ hd) hf

variable {s : Site FoldingSolver}

theorem ensureOpen_succeeds (ho : s.stack.closed = false) :
    ensureOpen.Succeeds s fun _ t => t = s :=
  ⟨(), s, exec_ensureOpen ho, rfl⟩

theorem inEnvironment_succeeds {α : Type} {e : Effect Environment α} {Q : α → Environment → Prop}
    (h : e.Succeeds s.env Q) : (inEnvironment e).Succeeds s fun a t => Q a t.env :=
  .on h

theorem native_succeeds {α : Type} {e : SessionM FoldingSolver α}
    {Q : α → Store × FoldingSolver → Prop} (h : e.Succeeds s.desk Q) :
    (native e).Succeeds s fun a t => ∃ p, Q a p ∧ t = s.answered p :=
  .on (h.mono fun _ p hp => ⟨p, hp, rfl⟩)

/-- A model is given if its constants can be listed. -/
theorem model_succeeds (ho : s.stack.closed = false) (hsat : s.stack.session.last = some .sat)
    (h : ∀ d, s.stack.session.isDeclared d = true →
      ∃ f, s.env.terms.decl? d = some f ∧ ¬ f.Bitless) :
    model.Succeeds s fun _ _ => True := by
  refine .bind (ensureOpen_succeeds ho) fun _ t ht => ?_
  subst ht
  refine .bind (native_succeeds (FoldingSolver.assignments_succeeds hsat h)) fun pairs t ht => ?_
  obtain ⟨p, hp, rfl⟩ := ht
  exact inEnvironment_succeeds (Q := fun _ _ => True)
    (.bind (Model.assignments_succeeds hp) fun m env _ => .pure trivial)

end Site

namespace World

variable {w w' : World FoldingSolver} {id : Nat} {s : AssertionStack FoldingSolver} {x : Context}

theorem atStack_succeeds {α : Type} {e : Effect (Site FoldingSolver) α}
    {Q : α → Site FoldingSolver → Prop} (hs : w.stack? id = some s)
    (hx : w.contexts[s.home]? = some x) (h : e.Succeeds (w.site x s) Q) :
    (atStack id e).Succeeds w fun a w' => ∃ t, Q a t ∧ w'.environmentOf s.home = t.env := by
  obtain ⟨a, t, he, ha⟩ := h
  refine ⟨a, w.put id s.home t, ?_, t, ha, ?_⟩
  · rw [exec_atStack hs hx, he]
  · rw [environmentOf, context_put hx, if_pos rfl]
    rfl

variable {watching : Prop} {events : List (Event FoldingSolver)} {m : Model}

/-- A model lists declared constants that are not arrays, by name, and nothing else. Each that
frames have declared is listed as often as they have, and that is once, unless a client has added or
requested its symbol when it was declared already. -/
theorem model_lists_constants (hx : ∀ e ∈ events, e.Allowed (.folding watching))
    (h : (atStack id Site.model).exec (afterAll events) = (.ok m, w')) :
    ∃ s ds, (afterAll events).stack? id = some s ∧ s.closed = false ∧
      s.session.last = some .sat ∧ m.Pairwise (fun a b => a.name ≤ b.name) ∧
      List.Forall₂ (fun a d => (w'.environmentOf s.home).terms.Lists a.key.term d ∧
        (w'.environmentOf s.home).terms.declName d = a.name) m ds ∧
      (∀ d ∈ ds, s.session.isDeclared d = true) ∧
      ∀ d f, (w'.environmentOf s.home).terms.decl? d = some f → f.Scalar →
        s.session.isDeclared d = true → ds.count d = s.session.timesDeclared d ∧
          (¬ Happens (·.Repeats · id d) [] events → ds.count d = 1) := by
  cases hs : (afterAll events).stack? id with
  | none =>
    rw [exec_atStack_none hs] at h
    cases h
  | some s =>
    obtain ⟨c, hc⟩ := (housed_afterAll events).exists_context hs
    rw [exec_atStack hs hc, Prod.mk.injEq] at h
    obtain ⟨hr, rfl⟩ := h
    obtain ⟨hsat, ho, -, hsorted, ds, hlists, hdeclared, hcount⟩ :=
      Site.ensures_model ((afterAll events).site c s) m _ (Prod.ext hr rfl)
    have henv : ((afterAll events).put id s.home
        (Site.model.exec ((afterAll events).site c s)).2).environmentOf s.home =
        (Site.model.exec ((afterAll events).site c s)).2.env := by
      rw [environmentOf, context_put hc, if_pos rfl]
      rfl
    refine ⟨s, ds, rfl, ho, hsat, hsorted, ?_⟩
    rw [henv]
    refine ⟨hlists, hdeclared, fun d f hd hf hdecl => ⟨hcount d f hd hf, fun hno => ?_⟩⟩
    have hpos := FoldingSolver.isDeclared_iff_timesDeclared.1 hdecl
    exact (hcount d f hd hf).trans (le_antisymm (declared_once hx hs ho hno) hpos)

/-- A constant that a client adds again on a level, and another that is requested after the
check. -/
def adding : List (Event FoldingSolver) :=
  [.addContext .everything false false default none, .openStack 0 .new false,
    .constant 0 .boolean "x", .atStack 0 (.push 1), .atStack 0 (.addSymbol (.boolean ⟨0⟩)),
    .atStack 0 .check, .constant 0 .integer "y"]

/-- The model has the first constant twice and the other one once. -/
theorem model_lists_constants_added :
    ∃ m w' s ds, (atStack 0 Site.model).exec (afterAll adding) = (.ok m, w') ∧
      (afterAll adding).stack? 0 = some s ∧
      List.Forall₂ (fun a d => (w'.environmentOf s.home).terms.Lists a.key.term d ∧
        (w'.environmentOf s.home).terms.declName d = a.name) m ds ∧
      ds.count ⟨0⟩ = 2 ∧ ds.count ⟨1⟩ = 1 := by
  have hstate : ((afterAll adding).stack? 0).map (fun s =>
      (s.home, s.closed, s.session.last, s.session.frames.declarations)) =
        some (0, false, some .sat, [⟨0⟩, ⟨1⟩, ⟨0⟩]) := by
    decide +kernel
  have hcontext : ((afterAll adding).contexts[0]?).map (fun x => x.env.terms.decls) =
      some #[⟨"x", [], .bool⟩, ⟨"y", [], .int⟩] := by
    decide +kernel
  -- the second constant is declared by the last event only
  have hnew : ¬ Happens (·.Repeats · 0 ⟨1⟩) [] adding := by
    have hbefore : ∀ n ≤ 6, ∀ s, (afterAll (adding.take n)).stack? 0 = some s →
        s.session.isDeclared ⟨1⟩ = false := by decide +kernel
    rintro ⟨before, e, rest, hsplit, s, hs, hdeclared, -⟩
    have hlength := congrArg List.length hsplit
    rw [List.length_append, List.length_cons, show adding.length = 7 from rfl] at hlength
    have hfalse := hbefore before.length (by omega) s (by rwa [hsplit, List.take_left])
    cases hdeclared.symm.trans hfalse
  obtain ⟨s, hs, h⟩ := Option.map_eq_some_iff.1 hstate
  obtain ⟨x, hx, hdecls⟩ := Option.map_eq_some_iff.1 hcontext
  simp only [Prod.mk.injEq] at h
  obtain ⟨hhome, ho, hsat, hdeclared⟩ := h
  have hfirst : x.env.terms.decl? ⟨0⟩ = some ⟨"x", [], .bool⟩ := by rw [Store.decl?, hdecls]; rfl
  have hsecond : x.env.terms.decl? ⟨1⟩ = some ⟨"y", [], .int⟩ := by rw [Store.decl?, hdecls]; rfl
  have hread : ∀ d, s.session.isDeclared d = true →
      ∃ f, x.env.terms.decl? d = some f ∧ ¬ f.Bitless := by
    intro d hd
    rw [FoldingSolver.isDeclared_iff_timesDeclared, FoldingSolver.timesDeclared, hdeclared,
      List.count_pos_iff] at hd
    obtain rfl | rfl | rfl : d = ⟨0⟩ ∨ d = ⟨1⟩ ∨ d = ⟨0⟩ := by simpa using hd
    · exact ⟨_, hfirst, by rintro ⟨-, ⟨⟩⟩⟩
    · exact ⟨_, hsecond, by rintro ⟨-, ⟨⟩⟩⟩
    · exact ⟨_, hfirst, by rintro ⟨-, ⟨⟩⟩⟩
  have hmodel : Site.model.Succeeds ((afterAll adding).site x s) fun _ t =>
      t.env.terms.Extends x.env.terms :=
    ((Site.model_succeeds ho hsat hread).and (Site.ensures_model _)).mono fun _ _ h => h.2.2.2.1
  obtain ⟨m, w', hm, t, hterms, henv⟩ := atStack_succeeds hs (hhome ▸ hx) hmodel
  have hallowed : ∀ e ∈ adding, e.Allowed (.folding False) := by
    simp [adding, Event.Allowed, Setting.folding]
  obtain ⟨s', ds, hs', -, -, -, hlists, -, hcount⟩ := model_lists_constants hallowed hm
  cases hs.symm.trans hs'
  rw [← henv] at hterms
  have hdeclares : ∀ d ∈ [⟨0⟩, ⟨1⟩], s.session.isDeclared d = true := by
    simp [FoldingSolver.isDeclared_iff_timesDeclared, FoldingSolver.timesDeclared, hdeclared]
  refine ⟨m, w', s, ds, hm, hs, hlists, ?_, ?_⟩
  · rw [(hcount ⟨0⟩ _ (hterms.decl? _ _ hfirst) ⟨rfl, by rintro _ _ ⟨⟩⟩ (hdeclares _ (by simp))).1,
      FoldingSolver.timesDeclared, hdeclared]
    rfl
  · exact (hcount ⟨1⟩ _ (hterms.decl? _ _ hsecond) ⟨rfl, by rintro _ _ ⟨⟩⟩
      (hdeclares _ (by simp))).2 hnew

end World

end FormulaStack
