import FormulaStack.Proofs.Events

/-!
Assertions that are refused. An assertion is logged, and the subterms that its term shares are
handed to the session, before the session takes it or refuses it; there is no way to take them back.
What else a stack and its session keep, and the references of all terms, are then as they were.
-/
namespace FormulaStack

/-- Whatever has a sort has a text. -/
theorem Store.dump_ne_error {store : Store} {t : Term} {k : TermSort} (ht : store.sort? t = some k)
    (x : Fault) : store.dump t ≠ .error x := by
  obtain ⟨n, hn, -⟩ := Option.map_eq_some_iff.1 ht
  have hlt : t.index < store.nodes.size := (Array.getElem?_eq_some_iff.1 hn).1
  have hrow : t.index < (store.rows store.nodeText (t.index + 1)).size := by
    rw [size_rows (by omega)]
    exact Nat.lt_succ_self _
  rw [dump, bottomUp?, Array.getElem?_eq_getElem hrow]
  intro h
  cases h

/-- Only what is not declared is missed, and it is missed. -/
theorem FoldingSolver.undeclared?_eq_none {session : FoldingSolver} {ds : List FuncDecl} :
    session.undeclared? ds = none ↔ ∀ d ∈ ds, session.isDeclared d = true := by
  rw [undeclared?, List.head?_eq_none_iff, ← List.length_eq_zero_iff, List.length_mergeSort,
    List.length_eq_zero_iff, List.filter_eq_nil_iff]
  simp

namespace Site

variable {s : Site FoldingSolver} {f : BoolFormula}

/-- What the log gains by an assertion of a term. -/
def logEntries (s : Site FoldingSolver) (t : Term) : List String :=
  if s.stack.logging then [s!"(assert {s.env.textOf t})"] else []

/-- A site after an assertion of a term was announced: it is in the log, and the session has the
subterms that it shares. -/
def announced (s : Site FoldingSolver) (t : Term) : Site FoldingSolver :=
  s.logged (s.queries ++ s.logEntries t)
    (s.stack.session.abbreviations ++ s.env.sharedSubterms s.stack.abbreviationAtoms t)

theorem exec_assert_foreign (ho : s.stack.closed = false) (hf : f.formula.owner ≠ s.env.id)
    (p : Option Nat) : (assert f p).exec s = (.error .foreign, s) := by
  unfold assert
  rw [Effect.exec_bind_ok (exec_ensureOpen ho), Effect.exec_bind, exec_unwrap, if_neg hf]

theorem exec_assert_own (ho : s.stack.closed = false) (hf : f.formula.owner = s.env.id)
    (p : Option Nat) :
    (assert f p).exec s = (assertTerm f.term p).exec (s.announced f.term) ∨
      ∃ x, s.env.terms.dump f.term = .error x ∧ (assert f p).exec s = (.error x, s) := by
  unfold assert
  rw [Effect.exec_bind_ok (exec_ensureOpen ho), Effect.exec_bind, exec_unwrap, if_pos hf]
  dsimp only
  rw [Effect.exec_bind_ok (Effect.exec_look _ _)]
  by_cases hl : s.stack.logging = true
  · rw [if_pos hl, Effect.exec_bind, Effect.exec_ask]
    cases hd : s.env.terms.dump f.term with
    | error x => exact .inr ⟨x, rfl, rfl⟩
    | ok text =>
      have hentries : s.logEntries f.term = [s!"(assert {text})"] := by
        rw [logEntries, if_pos hl, Environment.textOf, hd]
      rw [announced, hentries]
      exact .inl (exec_abbreviate f.term p _)
  · have hentries : s.logEntries f.term = [] := if_neg hl
    rw [if_neg hl, announced, hentries, List.append_nil]
    exact .inl (exec_abbreviate f.term p s.queries)

/-- What the session refuses is no truth value, or has a symbol that is not declared; nothing has
changed then. -/
theorem assertTerm_refused {x : Fault} {t : Site FoldingSolver} {a : Term} {p : Option Nat}
    (h : (assertTerm a p).exec s = (.error x, t)) :
    t = s ∧ (s.env.terms.sort? a = some .bool → ∃ d ∈ s.env.terms.symbols a,
      s.stack.session.isDeclared d = false ∧
        x = .solver (.undeclared (s.env.terms.declName d))) := by
  rw [exec_assertTerm] at h
  cases he : Build.expect .bool a s.env.terms with
  | error y =>
    rw [he] at h
    cases h
    refine ⟨rfl, fun hsort => ?_⟩
    rw [(Build.expect_eq_ok (r := ((), s.env.terms))).2 ⟨hsort, rfl⟩] at he
    cases he
  | ok r =>
    rw [he] at h
    dsimp only at h
    cases hu : s.stack.session.undeclared? (s.env.terms.symbols a) with
    | none =>
      rw [hu] at h
      cases h
    | some d =>
      rw [hu] at h
      cases h
      obtain ⟨hd, hundeclared⟩ := undeclared?_eq_some hu
      exact ⟨rfl, fun _ => ⟨d, hd, hundeclared, rfl⟩⟩

/-- What the session takes is a truth value, and its symbols are declared. -/
theorem assertTerm_accepted {a : Term} {p : Option Nat}
    (h : ((assertTerm a p).exec s).1 = .ok ()) :
    s.env.terms.sort? a = some .bool ∧
      ∀ d ∈ s.env.terms.symbols a, s.stack.session.isDeclared d = true := by
  rw [exec_assertTerm] at h
  cases he : Build.expect .bool a s.env.terms with
  | error y =>
    rw [he] at h
    cases h
  | ok r =>
    rw [he] at h
    dsimp only at h
    cases hu : s.stack.session.undeclared? (s.env.terms.symbols a) with
    | none => exact ⟨(Build.expect_eq_ok.1 he).1, FoldingSolver.undeclared?_eq_none.1 hu⟩
    | some d =>
      rw [hu] at h
      cases h

/-- The ways in which an assertion is refused, and what is left of it. -/
theorem assert_refused {x : Fault} {t : Site FoldingSolver} {p : Option Nat}
    (ho : s.stack.closed = false) (h : (assert f p).exec s = (.error x, t)) :
    (f.formula.owner ≠ s.env.id ∧ x = .foreign ∧ t = s) ∨
    (f.formula.owner = s.env.id ∧ s.env.terms.sort? f.term ≠ some .bool ∧
      (t = s ∨ t = s.announced f.term)) ∨
    (f.formula.owner = s.env.id ∧ s.env.terms.sort? f.term = some .bool ∧
      t = s.announced f.term ∧ ∃ d ∈ s.env.terms.symbols f.term,
        s.stack.session.isDeclared d = false ∧
          x = .solver (.undeclared (s.env.terms.declName d))) := by
  by_cases hf : f.formula.owner = s.env.id
  · right
    obtain hassert | ⟨y, hdump, hassert⟩ := exec_assert_own ho hf p <;> rw [hassert] at h
    · obtain ⟨ht, hundeclared⟩ := assertTerm_refused h
      by_cases hsort : s.env.terms.sort? f.term = some .bool
      · exact .inr ⟨hf, hsort, ht, hundeclared hsort⟩
      · exact .inl ⟨hf, hsort, .inr ht⟩
    · cases h
      exact .inl ⟨hf, fun hsort => Store.dump_ne_error hsort _ hdump, .inl rfl⟩
  · rw [exec_assert_foreign ho hf p] at h
    cases h
    exact .inl ⟨hf, rfl, rfl⟩

/-- An assertion that is not refused. -/
theorem assert_accepted {p : Option Nat} (ho : s.stack.closed = false)
    (h : ((assert f p).exec s).1 = .ok ()) :
    f.formula.owner = s.env.id ∧ s.env.terms.sort? f.term = some .bool ∧
      ∀ d ∈ s.env.terms.symbols f.term, s.stack.session.isDeclared d = true := by
  by_cases hf : f.formula.owner = s.env.id
  · obtain hassert | ⟨y, hdump, hassert⟩ := exec_assert_own ho hf p <;> rw [hassert] at h
    · have haccepted := assertTerm_accepted h
      exact ⟨hf, haccepted⟩
    · cases h
  · rw [exec_assert_foreign ho hf p] at h
    cases h

end Site

namespace World

variable {w : World FoldingSolver} {id : Nat} {s : AssertionStack FoldingSolver} {c : Context}

/-- A world that knows of an assertion only by the log and by the shared subterms that the session
of a stack was handed. -/
def announced (w : World FoldingSolver) (id : Nat) (s : AssertionStack FoldingSolver)
    (entries : List String) (shared : List Term) : World FoldingSolver :=
  let session := { s.session with abbreviations := s.session.abbreviations ++ shared }
  { w.withStack id (some { s with session }) with queries := w.queries ++ entries }

theorem announced_nil (hs : w.stack? id = some s) : w.announced id s [] [] = w := by
  unfold announced
  rw [List.append_nil, List.append_nil]
  exact withStack_self hs

theorem put_announced (id : Nat) (hc : w.contexts[s.home]? = some c) (t : Term) :
    w.put id s.home ((w.site c s).announced t) =
      w.announced id s ((w.site c s).logEntries t)
        (c.env.sharedSubterms s.abbreviationAtoms t) := by
  have hw : setNotifier s.home (w.notifierOf s.home) (setEnvironment s.home c.env w) = w := by
    rw [setEnvironment_self hc, setNotifier_self]
  unfold put site Site.announced Site.logged
  dsimp only
  rw [hw]
  rfl

/-- An assertion is refused exactly if the formula is foreign, is no truth value, or has a symbol
that the session does not know. Of a foreign formula nothing is left. Of another one the log tells,
and the session keeps the subterms that it shares as abbreviations; what is recorded and
remembered at the stack, the frames of the session, all references, and all else are as before. -/
theorem refused_assertion_keeps (hs : w.stack? id = some s)
    (hc : w.contexts[s.home]? = some c) (ho : s.closed = false) (f : BoolFormula)
    (partition : Option Nat) :
    let outcome := (atStack id (Site.assert f partition)).exec w
    (outcome.1 ≠ .ok () ↔ f.formula.owner ≠ c.env.id ∨ c.env.terms.sort? f.term ≠ some .bool ∨
      ∃ d ∈ c.env.terms.symbols f.term, s.session.isDeclared d = false) ∧
    ∀ x, outcome.1 = .error x → ∃ entries shared, outcome.2 = w.announced id s entries shared ∧
      (f.formula.owner ≠ c.env.id → x = .foreign ∧ entries = [] ∧ shared = []) ∧
      (f.formula.owner = c.env.id → c.env.terms.sort? f.term = some .bool →
        (∃ d ∈ c.env.terms.symbols f.term, s.session.isDeclared d = false ∧
          x = .solver (.undeclared (c.env.terms.declName d))) ∧
        entries = (w.site c s).logEntries f.term ∧
        shared = c.env.sharedSubterms s.abbreviationAtoms f.term) := by
  intro outcome
  have hx : outcome = (((Site.assert f partition).exec (w.site c s)).1,
      w.put id s.home ((Site.assert f partition).exec (w.site c s)).2) := exec_atStack hs hc _
  rcases hassert : (Site.assert f partition).exec (w.site c s) with ⟨x | ⟨⟩, t⟩
  all_goals rw [hassert] at hx; rw [hx]
  · have hput := put_announced id hc f.term
    refine ⟨⟨fun _ => ?_, fun _ => nofun⟩, ?_⟩
    · obtain ⟨hf, -⟩ | ⟨-, hsort, -⟩ | ⟨-, -, -, d, hd, hu, -⟩ := Site.assert_refused ho hassert
      · exact .inl hf
      · exact .inr (.inl hsort)
      · exact .inr (.inr ⟨d, hd, hu⟩)
    · rintro _ ⟨⟩
      obtain ⟨hf, hforeign, rfl⟩ | ⟨hf, hsort, rfl | rfl⟩ | ⟨hf, hsort, rfl, hd⟩ :=
        Site.assert_refused ho hassert
      · refine ⟨[], [], ?_, fun _ => ⟨hforeign, rfl, rfl⟩, fun h => absurd h hf⟩
        exact (put_self hs hc).trans (announced_nil hs).symm
      · refine ⟨[], [], ?_, fun h => absurd hf h, fun _ h => absurd h hsort⟩
        exact (put_self hs hc).trans (announced_nil hs).symm
      · exact ⟨_, _, hput, fun h => absurd hf h, fun _ h => absurd h hsort⟩
      · exact ⟨_, _, hput, fun h => absurd hf h, fun _ _ => ⟨hd, rfl, rfl⟩⟩
  · have hok : ((Site.assert f partition).exec (w.site c s)).1 = .ok () := by rw [hassert]
    obtain ⟨hf, hsort, hdeclared⟩ := Site.assert_accepted ho hok
    refine ⟨iff_of_false (fun h => h rfl) ?_, nofun⟩
    rintro (h | h | ⟨d, hd, h⟩)
    · exact h hf
    · exact h hsort
    · exact Bool.false_ne_true (h.symm.trans (hdeclared d hd))

/-- A stack that has forgotten a constant with the level it was declared in, and an equivalence of
this constant with itself. Whatever is shared is worth an abbreviation. -/
def forgetful : World FoldingSolver :=
  afterAll [
    .addContext .everything true true
      { (default : Options) with
        trackReferences := true, globalDeclarations := false, abbreviationAtoms := 1 } none,
    .openStack 0 .new false, .atStack 0 (.push 1), .constant 0 .boolean "p", .atStack 0 (.pop 1),
    .build 0 (.iff ⟨0⟩ ⟨0⟩)]

theorem refused_assertion_keeps_forgotten :
    let forgotten : BoolFormula := ⟨⟨⟨1⟩, .boolean, 0, none⟩, rfl⟩
    ∃ s, forgetful.stack? 0 = some s ∧ s.closed = false ∧
      ∃ x, (atStack 0 (Site.assert forgotten (some 3))).exec forgetful =
        (.error x, forgetful.announced 0 s [] [⟨0⟩]) := by
  intro forgotten
  have hstack : (forgetful.stack? 0).map (fun s =>
      (s.home, s.closed, s.logging, s.abbreviationAtoms, s.session.isDeclared ⟨0⟩)) =
        some (0, false, false, 1, false) := by
    decide +kernel
  have hcontext : (forgetful.contexts[0]?).map (fun c =>
      (c.env.id, c.env.terms.sort? ⟨1⟩, c.env.terms.symbols ⟨1⟩, c.env.sharedSubterms 1 ⟨1⟩)) =
        some (0, some .bool, [⟨0⟩], [⟨0⟩]) := by
    decide +kernel
  obtain ⟨s, hs, h⟩ := Option.map_eq_some_iff.1 hstack
  obtain ⟨c, hc, h'⟩ := Option.map_eq_some_iff.1 hcontext
  simp only [Prod.mk.injEq] at h h'
  obtain ⟨hhome, ho, hlogging, hatoms, hunknown⟩ := h
  obtain ⟨hid, hsort, hsymbols, hshared⟩ := h'
  rw [← hhome] at hc
  obtain ⟨hrefused, hkeeps⟩ := refused_assertion_keeps hs hc ho forgotten (some 3)
  have hmissed : ∃ d ∈ c.env.terms.symbols ⟨1⟩, s.session.isDeclared d = false :=
    ⟨⟨0⟩, hsymbols ▸ List.mem_singleton_self _, hunknown⟩
  have herror := hrefused.2 (.inr (.inr hmissed))
  rcases hx : (atStack 0 (Site.assert forgotten (some 3))).exec forgetful with ⟨x | ⟨⟩, w'⟩
  all_goals rw [hx] at hkeeps herror
  · obtain ⟨entries, shared, hw', -, hown⟩ := hkeeps x rfl
    obtain ⟨-, hentries, hsubterms⟩ := hown hid.symm hsort
    have hnone : entries = [] :=
      hentries.trans (if_neg (ne_true_of_eq_false hlogging))
    have hsome : shared = [⟨0⟩] := by
      rw [hsubterms, hatoms]
      exact hshared
    rw [hnone, hsome] at hw'
    exact ⟨s, hs, ho, x, Prod.ext rfl hw'⟩
  · exact absurd rfl herror

/-- The abbreviations stay that a refused assertion has brought. -/
theorem abbreviations_outlive_refusal :
    let forgotten : BoolFormula := ⟨⟨⟨1⟩, .boolean, 0, none⟩, rfl⟩
    let outcome := (atStack 0 (Site.assert forgotten none)).exec forgetful
    outcome.1 = .error (.solver (.undeclared "p")) ∧
      (forgetful.stack? 0).map (fun s => (s.closed, s.session.abbreviations)) =
        some (false, []) ∧
      (outcome.2.stack? 0).map (fun s => (s.closed, s.session.abbreviations)) =
        some (false, [⟨0⟩]) := by
  decide +kernel

end World
end FormulaStack
