import FormulaStack.Proofs.Catalogues
import FormulaStack.Proofs.Vocabulary

/-!
Models can be read. While an open stack has one, it can be listed, and the formulas of its context
evaluate, to formulas of their types or to nothing; only vectors of no bits cannot be read, as they
have no literals.
-/
namespace FormulaStack

namespace FoldingSolver

variable {store : Store} {s : FoldingSolver} {t : Term} {k : TermSort}

/-- As long as there is a model, a term has a literal of its sort as its value, or it has none. -/
theorem eval_succeeds (hsat : s.last = some .sat) (hw : store.WellFormed)
    (ht : store.sort? t = some k) (hk : k ≠ .bitvec 0) :
    (eval true t).Succeeds (store, s) fun r p => ∀ u ∈ r, p.1.sort? u = some k := by
  refine .bind (modelAvailable_succeeds hsat store) fun _ p hp => ?_
  obtain rfl := hp
  refine .ask_bind (Store.sort_eq_ok.2 ht) (.look_bind ?_)
  obtain ⟨n, hn, rfl⟩ := Option.map_eq_some_iff.1 ht
  dsimp only
  cases hv : store.fold true t with
  | none => exact .pure nofun
  | some v =>
    refine .bind (literal_succeeds (hw.fits_fold hn v hv) hk store s) fun u p hu => .pure ?_
    rintro _ ⟨⟩
    exact hu

end FoldingSolver

namespace Site

variable {s : Site FoldingSolver} {f : Formula} {k : TermSort}

/-- A formula evaluates to one of its type, or to nothing. -/
theorem evaluate_succeeds (ho : s.stack.closed = false) (hsat : s.stack.session.last = some .sat)
    (hw : s.env.terms.WellFormed) (howner : f.owner = s.env.id)
    (hk : s.env.terms.sort? f.term = some k) (haccepts : f.type.accepts k.type = true)
    (hbits : k ≠ .bitvec 0) :
    (evaluate f).Succeeds s fun r t => ∀ g ∈ r, g.type = f.type ∧ t.env.Types g := by
  have htype : (evaluate f).Succeeds s fun r _ => ∀ g ∈ r, g.type = f.type := by
    refine .bind (ensureOpen_succeeds ho) fun _ t ht => ?_
    subst ht
    have hunwrap : (inEnvironment (.ask (·.unwrap f))).Succeeds t fun u v => u = f.term ∧ v = t :=
      .on (.ask (if_pos howner) ⟨rfl, rfl⟩)
    refine .bind hunwrap fun u v hv => ?_
    obtain ⟨rfl, rfl⟩ := hv
    refine .bind (native_succeeds (FoldingSolver.eval_succeeds hsat hw hk hbits)) fun r t ht => ?_
    obtain ⟨p, hp, rfl⟩ := ht
    cases r with
    | none => exact .pure nofun
    | some u =>
      refine .bind (inEnvironment_succeeds (Environment.wrap_succeeds (hp u rfl) haccepts))
        fun g w hg => .pure ?_
      rintro _ ⟨⟩
      exact hg.2
  exact (htype.and (evaluate_types f s)).mono fun r t hr g hg => ⟨hr.1 g hg, hr.2 g hg⟩

end Site

namespace World

/-- A world after some events, in which stacks are opened on new folding solvers. -/
def CameBy (w : World FoldingSolver) (events : List (Event FoldingSolver)) : Prop :=
  (∀ e ∈ events, e.Allowed (.folding False)) ∧ w = afterAll events

/-- A client has added a function to a stack, by whatever events the world came about. -/
def Added (w : World FoldingSolver) (id : Nat) (d : FuncDecl) : Prop :=
  (∃ events, w.CameBy events) ∧
    ∀ events, w.CameBy events → .atStack id (.addSymbol (.function d)) ∈ events

end World

namespace Client

open World

variable {c : Client} {id : Nat} {s : AssertionStack FoldingSolver} {x : Context}

/-- A function that an open stack has declared has a signature, unless a client has added it. -/
theorem Reachable.added_of_unknown (hc : Reachable c) (hs : c.world.stack? id = some s)
    (hx : c.world.contexts[s.home]? = some x) (ho : s.closed = false) {d : FuncDecl}
    (hd : s.session.isDeclared d = true) (hunknown : x.env.terms.decl? d = none) :
    c.world.Added id d := by
  refine ⟨hc.reached.exists_events, fun events ⟨hall, hevents⟩ => ?_⟩
  obtain ⟨hwellFormed, hregistered⟩ := hc.settled.context _ x hx
  have henrolled := enrolled_afterAll events s.home
  have hintroduced := introduced_afterAll hall (hevents ▸ hs) ho hd
  rw [← hevents, environmentOf_eq hx] at henrolled
  rw [← hevents, Introduced, environmentOf_eq hx] at hintroduced
  have hnone : ∀ f, x.env.terms.decl? d ≠ some f := fun f hf => by
    cases hunknown.symm.trans hf
  obtain hcovers | ⟨symbol, hm, hsymbol⟩ := hintroduced
  · obtain ⟨f, hf⟩ := hcovers.exists_signature henrolled hregistered
    exact absurd hf (hnone f)
  · obtain rfl | ⟨f, hf⟩ := hwellFormed.exists_signature hsymbol
    · exact hm
    · exact absurd hf (hnone f)

/-- As long as an open stack has a model, which is so after a check that says yes, the model can be
listed, unless the stack has declared a constant that is a vector of no bits, or a client has added
a function that the context does not have. All formulas that a client holds and that belong to the
context evaluate, to formulas of their types or to nothing, unless they are vectors of no bits. -/
theorem models_read (hc : Reachable c) :
    (∀ id w', (atStack id Site.check).exec c.world = (.ok true, w') →
      ∃ s, w'.stack? id = some s ∧ s.closed = false ∧ s.session.last = some .sat) ∧
    ∀ id s x, c.world.stack? id = some s → c.world.contexts[s.home]? = some x →
      s.closed = false → s.session.last = some .sat →
      ((∃ m w', (atStack id Site.model).exec c.world = (.ok m, w')) ∨
        ∃ d, s.session.isDeclared d = true ∧
          ((∃ f, x.env.terms.decl? d = some f ∧ f.Bitless) ∨
            x.env.terms.decl? d = none ∧ c.world.Added id d)) ∧
      ∀ f ∈ c.held, f.owner = x.env.id →
        ∃ k, x.env.terms.sort? f.term = some k ∧ f.type.accepts k.type = true ∧
          (k ≠ .bitvec 0 → ∃ r w', (atStack id (Site.evaluate f)).exec c.world = (.ok r, w') ∧
            ∀ g ∈ r, g.type = f.type ∧ (w'.environmentOf s.home).Types g) := by
  refine ⟨fun id w' h => ?_, fun id s x hs hx ho hsat => ⟨?_, fun f hf howner => ?_⟩⟩
  · obtain ⟨s, hs, -, ho, hsat⟩ := hasModel_of_check hc h
    exact ⟨s, hs, ho, hsat⟩
  · by_cases hread : ∀ d, s.session.isDeclared d = true →
        ∃ f, x.env.terms.decl? d = some f ∧ ¬ f.Bitless
    · obtain ⟨m, w', hm, -⟩ := atStack_succeeds hs hx (Site.model_succeeds ho hsat hread)
      exact .inl ⟨m, w', hm⟩
    · push Not at hread
      obtain ⟨d, hd, hbits⟩ := hread
      refine .inr ⟨d, hd, ?_⟩
      cases hf : x.env.terms.decl? d with
      | some f => exact .inl ⟨f, rfl, hbits f hf⟩
      | none => exact .inr ⟨rfl, hc.added_of_unknown hs hx ho hd hf⟩
  · have hplace := (hc.valid.sound.context _ x hx).place
    have htypes := (hc.types f hf).at_owner hc.valid.sound
      (show c.world.contexts[f.owner]? = some x by rwa [howner, hplace])
    obtain ⟨k, hk, haccepts⟩ := htypes.sort
    refine ⟨k, hk, haccepts, fun hbits => ?_⟩
    obtain ⟨r, w', hr, t, hg, henv⟩ := atStack_succeeds hs hx (Site.evaluate_succeeds
      (s := c.world.site x s) ho hsat (hc.settled.context _ x hx).1 howner hk haccepts hbits)
    exact ⟨r, w', hr, henv ▸ hg⟩

/-- A client with a vector of bits and a stack whose check says yes. -/
def checked : Client :=
  start.afterAll [.addContext .everything false false default none,
    .constant 0 (.bitvector 8) "v", .openStack 0 false, .atStack 0 .check]

theorem models_read_checked :
    (∃ m w', (atStack 0 Site.model).exec checked.world = (.ok m, w')) ∧
      ∃ r w', (atStack 0 (Site.evaluate ⟨⟨0⟩, .bitvector 8, 0, none⟩)).exec checked.world =
        (.ok r, w') ∧ ∀ g ∈ r, g.type = .bitvector 8 := by
  have hstate : (checked.world.stack? 0).map (fun s =>
      (s.closed, s.home, s.session.last, s.session.frames.declarations)) =
        some (false, 0, some .sat, [⟨0⟩]) := by
    decide +kernel
  have hcontext : (checked.world.contexts[0]?).map (fun x =>
      (x.env.id, x.env.terms.decls, x.env.terms.sort? ⟨0⟩)) =
        some (0, #[⟨"v", [], .bitvec 8⟩], some (.bitvec 8)) := by
    decide +kernel
  have hheld : (⟨0⟩, .bitvector 8, 0, none) ∈
      checked.held.map (fun f => (f.term, f.type, f.owner, f.ticket)) := by
    decide +kernel
  obtain ⟨s, hs, h⟩ := Option.map_eq_some_iff.1 hstate
  obtain ⟨x, hx, hx'⟩ := Option.map_eq_some_iff.1 hcontext
  simp only [Prod.mk.injEq] at h hx'
  obtain ⟨ho, hhome, hsat, hdeclared⟩ := h
  obtain ⟨hid, hdecls, hsort⟩ := hx'
  have hreachable : Reachable checked := run_afterAll start _
  obtain ⟨hmodel, hevaluate⟩ := (models_read hreachable).2 0 s x hs (hhome ▸ hx) ho hsat
  refine ⟨?_, ?_⟩
  · obtain hmodel | ⟨d, hd, hbad⟩ := hmodel
    · exact hmodel
    · -- all that is declared is a vector of eight bits
      rw [FoldingSolver.isDeclared_iff_timesDeclared, FoldingSolver.timesDeclared, hdeclared,
        List.count_pos_iff, List.mem_singleton] at hd
      subst hd
      rw [Store.decl?, hdecls] at hbad
      obtain ⟨f, hf, -, hrange⟩ | ⟨hf, -⟩ := hbad
      · cases hf
        cases hrange
      · cases hf
  · obtain ⟨⟨t, type, owner, ticket⟩, hf, h⟩ := Multiset.mem_map.1 hheld
    cases h
    obtain ⟨k, hk, -, hread⟩ := hevaluate _ hf hid.symm
    cases hsort.symm.trans hk
    obtain ⟨r, w', hr, htypes⟩ := hread (by rintro ⟨⟩)
    exact ⟨r, w', hr, fun g hg => (htypes g hg).1⟩

end Client

end FormulaStack
