import FormulaStack.Proofs.Readings
import FormulaStack.Proofs.Solvers
import FormulaStack.World

/-!
Searches at a stack whose session is sound. A search makes one check; the model that it finds is a
list of literals, and to assert that one of their negations is true excludes what they describe.
-/
namespace FormulaStack

open Effect Environment

variable {A : TermSort → TermSort → Type} {σ : Type}

namespace Tree

/-- The literal of a proposition that says that it has a truth value. -/
def literal (x : Tree) (b : Bool) : Tree := if b then x else .connective .not [x]

theorem proposition_literal {x : Tree} (hx : x.Proposition) (b : Bool) :
    (x.literal b).Proposition := by
  cases b
  · exact proposition_connective ⟨rfl, rfl⟩ (by simpa)
  · exact hx

theorem truth_literal {x : Tree} (hx : x.Proposition) (I : Valuation A) (b : Bool) :
    I.truth (x.literal b) = (I.truth x == b) := by
  cases b
  · exact (truth_not hx).trans (by simp [Valuation.truth])
  · simp [literal]

/-- What is not as one interpretation has it is excluded by one literal at least. -/
theorem any_literals {xs : List Tree} (hxs : ∀ x ∈ xs, x.Proposition) (I J : Valuation A) :
    (xs.map fun x => x.literal !I.truth x).any J.truth = true ↔
      xs.map J.truth ≠ xs.map I.truth := by
  simp only [List.any_map, List.any_eq_true, Function.comp_apply, ne_eq, List.map_inj_left,
    not_forall]
  refine exists_congr fun x => ?_
  rw [← exists_prop]
  refine exists_congr fun hx => ?_
  rw [truth_literal (hxs x hx)]
  cases J.truth x <;> cases I.truth x <;> simp

end Tree

namespace Environment

variable {env : Environment}

/-- Literals describe truth values of propositions. -/
def Describes (env : Environment) (xs : List Tree) (literals : List BoolFormula) (v : List Bool) :
    Prop :=
  v.length = xs.length ∧ env.ReadsAll literals (List.zipWith (fun x b => .own (x.literal b)) xs v)

theorem Describes.advance {env' : Environment} {xs : List Tree} {literals : List BoolFormula}
    {v : List Bool} (h : env.Describes xs literals v) (henv : env.Proper)
    (ha : env.Advances env') : env'.Describes xs literals v :=
  ⟨h.1, h.2.advance henv ha⟩

/-- The disjunction of terms, whatever their number. -/
theorem ensures_or {ts : List Term} {xs : List Tree} (henv : env.Proper)
    (hts : env.ShowsAll ts xs) (hxs : ∀ x ∈ xs, x.sort = .bool) :
    (build (Build.or ts)).Ensures env fun t env' => env.Advances env' ∧ ∃ x, env'.Shows t x ∧
      x.sort = .bool ∧ ∀ I : Valuation A, I.truth x = xs.any I.truth := by
  have hpropositions : ∀ x ∈ xs, x.Proposition := by
    intro x hx
    obtain ⟨t, -, ht⟩ := exists_related hts x hx
    exact Shows.proposition ht henv (hxs x hx)
  cases hts with
  | nil =>
    refine (computes_truth henv false).ensures.mono fun t env' ht =>
      ⟨ht.1, _, ht.2, rfl, fun I => ?_⟩
    simp [Valuation.truth]
  | @cons t x ts xs ht hts =>
    cases hts with
    | nil =>
      rintro _ _ ⟨⟩
      exact ⟨.refl env, x, ht, hxs x (by simp), by simp⟩
    | cons hu hts =>
      have hall : env.ShowsAll (_ :: _ :: _) (_ :: _ :: _) := .cons ht (.cons hu hts)
      refine (computes_junction .or henv hall hxs (by simp)).ensures.mono fun t env' ht =>
        ⟨ht.1, _, ht.2, rfl, fun I => ?_⟩
      exact Tree.truth_or hpropositions

end Environment

/-- A stack with the environment that it works in. -/
structure Seat (σ : Type) where
  env : Environment
  stack : AssertionStack σ

def Site.seat (s : Site σ) : Seat σ := ⟨s.env, s.stack⟩

variable [Session σ]

namespace Seat

variable {p q r : Seat σ} {O : SoundSession σ A} {xs : List Tree}

/-- From a stack to a later state of it, with some checks in between. -/
structure Moves (checks : Nat) (p q : Seat σ) : Prop where
  home : q.stack.home = p.stack.home
  env : p.env.Advances q.env
  counted : ∀ count : σ → Nat, Counts count →
    count q.stack.session = count p.stack.session + checks

theorem Moves.refl (p : Seat σ) : Moves 0 p p := ⟨rfl, .refl _, fun _ _ => rfl⟩

theorem Moves.trans {m n : Nat} (h : Moves m p q) (g : Moves n q r) : Moves (m + n) p r where
  home := g.home.trans h.home
  env := h.env.trans g.env
  counted count hc := by rw [g.counted count hc, h.counted count hc, Nat.add_assoc]

theorem Moves.of_env (hstack : q.stack = p.stack) (ha : p.env.Advances q.env) : Moves 0 p q where
  home := by rw [hstack]
  env := ha
  counted count _ := by rw [hstack, Nat.add_zero]

/-- The session of a stack has asserted terms of these trees. -/
structure Holds (O : SoundSession σ A) (p : Seat σ) (xs : List Tree) : Prop where
  proper : p.env.Proper
  asserts : O.Asserts (p.env.terms, p.stack.session) xs

/-- What is asserted stays so when the environment goes on without the session. -/
theorem Holds.advance (h : p.Holds O xs) (ha : p.env.Advances q.env)
    (hsession : q.stack.session = p.stack.session) : q.Holds O xs :=
  ⟨ha.proper h.proper, hsession ▸ O.grows h.asserts ha.terms⟩

/-- What is asserted after work of the session. -/
theorem Holds.native {ys : List Tree} {y : Store × σ} (h : p.Holds O xs)
    (hgrows : p.env.terms.Grows y.1) (hy : O.Asserts y ys) :
    Holds O ⟨{ p.env with terms := y.1 }, { p.stack with session := y.2 }⟩ ys :=
  ⟨⟨hgrows.wellFormed h.proper.wellFormed, h.proper.candid⟩, hy⟩

end Seat

namespace Site

variable {α β : Type} {s : Site σ} {e : Effect (Site σ) α} {f : α → Effect (Site σ) β} {n : Nat}
  {P Q : α → Site σ → Prop} {R : β → Site σ → Prop} {U : Unit → Site σ → Prop}

/-- If the work succeeds, then after so many checks, and `Q` holds of what it gives and leaves. -/
def Spends (n : Nat) (e : Effect (Site σ) α) (s : Site σ) (Q : α → Site σ → Prop) : Prop :=
  e.Ensures s fun a t => s.seat.Moves n t.seat ∧ Q a t

namespace Spends

theorem mono (h : Spends n e s P) (hQ : ∀ a t, s.seat.Moves n t.seat → P a t → Q a t) :
    Spends n e s Q :=
  Ensures.mono h fun a t ht => ⟨ht.1, hQ a t ht.1 ht.2⟩

theorem pure {a : α} (h : Q a s) : Spends 0 (Pure.pure a) s Q := Ensures.pure ⟨.refl _, h⟩

theorem throw (x : Fault) : Spends n (MonadExcept.throw x : Effect (Site σ) α) s Q :=
  Ensures.throw x

theorem look {g : Site σ → α} (h : Q (g s) s) : Spends 0 (.look g) s Q :=
  Ensures.look ⟨.refl _, h⟩

theorem ask {g : Site σ → Except Fault α} (h : ∀ a, g s = .ok a → Q a s) :
    Spends 0 (.ask g) s Q :=
  Ensures.ask fun a ha => ⟨.refl _, h a ha⟩

/-- First what makes no check. -/
theorem bind (he : Spends 0 e s P)
    (hf : ∀ a t, s.seat.Moves 0 t.seat → P a t → Spends n (f a) t R) :
    Spends n (e >>= f) s R :=
  Ensures.bind he fun a t ht => Ensures.mono (hf a t ht.1 ht.2) fun _ _ hu =>
    ⟨by simpa using ht.1.trans hu.1, hu.2⟩

/-- In the end what makes no check. -/
theorem bind_free (he : Spends n e s P)
    (hf : ∀ a t, s.seat.Moves n t.seat → P a t → Spends 0 (f a) t R) :
    Spends n (e >>= f) s R :=
  Ensures.bind he fun a t ht => Ensures.mono (hf a t ht.1 ht.2) fun _ _ hu =>
    ⟨ht.1.trans hu.1, hu.2⟩

theorem undoing {cleanup : Site σ → Site σ} (h : Spends n e s Q) :
    Spends n (e.undoing cleanup) s Q :=
  Ensures.undoing h

theorem inEnvironment {e : Effect Environment α}
    (h : e.Ensures s.env fun a env => s.env.Advances env ∧ Q a { s with env }) :
    Spends 0 (Site.inEnvironment e) s Q :=
  Ensures.on (h.mono fun _ _ ⟨ha, hq⟩ => ⟨⟨rfl, ha, fun _ _ => rfl⟩, hq⟩)

theorem computes {γ : Type} {R : Environment → α → γ → Prop} {e : Effect Environment α} {b : γ}
    (h : Computes s.env R e (.ok b)) :
    Spends 0 (Site.inEnvironment e) s fun a t => R t.env a b ∧ t.stack = s.stack :=
  .inEnvironment (h.ensures.mono fun _ _ ⟨ha, hr⟩ => ⟨ha, hr, rfl⟩)

theorem native {e : SessionM σ α}
    (hcount : ∀ count : σ → Nat, Counts count →
      e.Ensures (s.env.terms, s.stack.session) fun _ y => count y.2 = count s.stack.session + n)
    (h : e.Ensures (s.env.terms, s.stack.session) fun a y => s.env.terms.Grows y.1 ∧
      Q a { s with
        env := { s.env with terms := y.1 }
        stack := { s.stack with session := y.2 } }) :
    Spends n (Site.native e) s Q :=
  Ensures.on fun a y hy => ⟨⟨rfl, ⟨rfl, rfl, (h a y hy).1⟩, fun count hc => hcount count hc a y hy⟩,
    (h a y hy).2⟩

theorem updateStack {g : AssertionStack σ → AssertionStack σ}
    (hhome : (g s.stack).home = s.stack.home) (hsession : (g s.stack).session = s.stack.session)
    (h : U () { s with stack := g s.stack }) : Spends 0 (Site.updateStack g) s U :=
  Ensures.update ⟨⟨hhome, .refl _, fun count _ => congrArg count hsession⟩, h⟩

theorem ensureOpen (h : U () s) : Spends 0 (Site.ensureOpen : Effect (Site σ) Unit) s U := by
  refine .bind (.look (Q := fun _ t => t = s) rfl) fun closed t _ ht => ?_
  split
  · exact .throw _
  · exact .pure (ht ▸ h)

theorem ensureRunning (h : U () s) :
    Spends 0 (Site.ensureRunning : Effect (Site σ) Unit) s U := by
  refine .bind (.look (Q := fun _ t => t = s) rfl) fun reason t _ ht => ?_
  split
  · exact .throw _
  · exact .pure (ht ▸ h)

end Spends

variable {O : SoundSession σ A} {I : Valuation A} {asserted xs : List Tree} {x : Tree}

/-- What is known of a stack after a check. -/
structure Checked (O : SoundSession σ A) (asserted : List Tree) (verdict : Verdict) (s : Site σ) :
    Prop where
  holds : s.seat.Holds O asserted
  sat : verdict = .sat → ∃ I, O.Possible I ∧ O.Found s.stack.session I ∧ I.Satisfies asserted
  unsat : verdict = .unsat → ∀ I, O.Possible I → ¬ I.Satisfies asserted

theorem spends_check (hs : s.seat.Holds O asserted) :
    Spends 1 check s fun sat t => Checked O asserted (if sat then .sat else .unsat) t := by
  refine .bind (.ensureOpen (U := fun _ t => t = s) rfl) fun _ t _ ht => ?_
  rw [ht]
  refine .bind (.ensureRunning (U := fun _ t => t = s) rfl) fun _ t _ ht => ?_
  rw [ht]
  refine .bind_free (P := Checked O asserted) (.native (fun _ hc => hc.check) ?_)
    fun verdict t _ ht => ?_
  · exact (O.check hs.asserts).mono fun _ _ ⟨hgrows, hy, hsat, hunsat⟩ =>
      ⟨hgrows, hs.native hgrows hy, hsat, hunsat⟩
  · refine .bind (.updateStack (U := fun _ => Checked O asserted verdict) rfl rfl
      ⟨ht.holds.advance (.refl _) rfl, ht.sat, ht.unsat⟩) fun _ u _ hu => ?_
    cases verdict with
    | sat | unsat => exact .pure hu
    | unknown =>
      refine .bind (.look (Q := fun _ _ => True) trivial) fun _ _ _ _ => ?_
      exact .bind (.ensureRunning (U := fun _ _ => True) trivial) fun _ _ _ _ => .throw _

/-- What is known of a stack while its session has the model of a check. -/
structure Holding (O : SoundSession σ A) (asserted : List Tree) (I : Valuation A) (s : Site σ) :
    Prop where
  holds : s.seat.Holds O asserted
  found : O.Found s.stack.session I

theorem Holding.advance {t : Site σ} (h : Holding O asserted I s) (ha : s.env.Advances t.env)
    (hsession : t.stack.session = s.stack.session) : Holding O asserted I t :=
  ⟨h.holds.advance ha hsession, hsession ▸ h.found⟩

theorem spends_eval {t : Term} (hs : Holding O asserted I s) (ht : s.env.Shows t x)
    (hx : x.sort = .bool) :
    Spends 0 (native (Session.eval true t)) s fun value u => Holding O asserted I u ∧ ∀ v b,
      value = some v → u.env.terms.constantValue v = .ok (some (.bool b)) → I.truth x = b := by
  refine .native (fun _ hc => hc.eval) ?_
  exact (O.eval hs.holds.asserts hs.found ht hx).mono fun _ _ ⟨hgrows, hy, hfound, hvalue⟩ =>
    ⟨hgrows, ⟨hs.holds.native hgrows hy, hfound⟩, hvalue⟩

/-- A literal and its negation, once the value of the formula is known. -/
theorem spends_polarize {f : BoolFormula} (value : Option ConstantValue)
    (hs : Holding O asserted I s) (hf : s.env.Reads f (.own x))
    (hvalue : ∀ b, value = some (.bool b) → I.truth x = b) :
    Spends 0 (do
      let negated ← inEnvironment (Environment.build (Build.not f.term))
      match value with
      | some (.bool true) => return (← inEnvironment f.copy, negated)
      | some (.bool false) => return (← inEnvironment (Environment.wrapBool negated), f.term)
      | _ => throw (.solver (.noValue (← .ask (·.env.terms.dump f.term))))) s fun l t =>
        Holding O asserted I t ∧ t.env.Reads l.1 (.own (x.literal (I.truth x))) ∧
          t.env.Shows l.2 (x.literal !I.truth x) := by
  refine .bind (.computes (computes_negation hs.holds.proper hf.2.1 hf.2.2))
    fun negated t hst ⟨hnegated, hsame⟩ => ?_
  have ht : Holding O asserted I t := hs.advance hst.env (congrArg (·.session) hsame)
  have hft : t.env.Reads f (.own x) := hf.advance hs.holds.proper hst.env
  split
  · refine .bind (.computes (computes_copy hft ht.holds.proper)) fun g u htu ⟨hg, hsame⟩ => ?_
    rw [hvalue true rfl]
    exact .pure ⟨ht.advance htu.env (congrArg (·.session) hsame), hg,
      hnegated.advance ht.holds.proper htu.env⟩
  · refine .bind (.computes (computes_wrapBool ht.holds.proper hnegated rfl))
      fun g u htu ⟨hg, hsame⟩ => ?_
    rw [hvalue false rfl]
    exact .pure ⟨ht.advance htu.env (congrArg (·.session) hsame), hg,
      hft.2.1.advance ht.holds.proper htu.env⟩
  · exact .bind (.ask (Q := fun _ _ => True) fun _ _ => trivial) fun _ _ _ _ => .throw _

theorem spends_literal {f : BoolFormula} (hs : Holding O asserted I s)
    (hf : s.env.Reads f (.own x)) :
    Spends 0 (literal f f.term) s fun l t => Holding O asserted I t ∧
      t.env.Reads l.1 (.own (x.literal (I.truth x))) ∧ t.env.Shows l.2 (x.literal !I.truth x) := by
  refine .bind (spends_eval hs hf.2.1 hf.2.2) fun value t hst ⟨ht, hvalue⟩ => ?_
  have hft : t.env.Reads f (.own x) := hf.advance hs.holds.proper hst.env
  dsimp only
  split
  · next v _ =>
    refine .bind (.ask (Q := fun value u => t.env.terms.constantValue v = .ok value ∧ u = t)
      fun value hv => ⟨hv, rfl⟩) fun value u _ ⟨hv, hu⟩ => ?_
    rw [hu]
    exact spends_polarize value ht hft fun b hb => hvalue v b rfl (hb ▸ hv)
  · exact spends_polarize none ht hft nofun

theorem spends_literals {fs : List BoolFormula} (hs : Holding O asserted I s)
    (hfs : s.env.ReadsAll fs (xs.map .own)) :
    Spends 0 (literals (fs.map fun f => (f, f.term))) s fun ls t => Holding O asserted I t ∧
      t.env.ReadsAll (ls.map (·.1)) (xs.map fun x => .own (x.literal (I.truth x))) ∧
      t.env.ShowsAll (ls.map (·.2)) (xs.map fun x => x.literal !I.truth x) := by
  induction fs generalizing s xs with
  | nil =>
    obtain rfl := List.map_eq_nil_iff.1 (List.forall₂_nil_left_iff.1 hfs)
    exact .pure ⟨hs, .nil, .nil⟩
  | cons f fs ih =>
    obtain ⟨r, rs, hf, hrest, hrs⟩ := List.forall₂_cons_left_iff.1 hfs
    obtain ⟨x, xs, rfl, rfl, rfl⟩ := List.map_eq_cons_iff.1 hrs
    refine .bind (spends_literal hs hf) fun l t hst ⟨ht, hl, hn⟩ => ?_
    have hrest' := ReadsAll.advance hrest hs.holds.proper hst.env
    refine .bind (.undoing (ih ht hrest')) fun ls u htu ⟨hu, hls, hns⟩ => .pure ⟨hu, ?_, ?_⟩
    · exact .cons (hl.advance ht.holds.proper htu.env) hls
    · exact .cons (hn.advance ht.holds.proper htu.env) hns

/-- What a search says: without a model, no interpretation is left; a model tells how the formulas
are in one that is. -/
def Answers (O : SoundSession σ A) (asserted xs : List Tree) (env : Environment) :
    Option (List (BoolFormula × Term)) → Prop
  | none => ∀ I, O.Possible I → ¬ I.Satisfies asserted
  | some model => ∃ I, O.Possible I ∧ I.Satisfies asserted ∧
      env.ReadsAll (model.map (·.1)) (xs.map fun x => .own (x.literal (I.truth x))) ∧
      env.ShowsAll (model.map (·.2)) (xs.map fun x => x.literal !I.truth x)

theorem spends_nextModel? {fs : List BoolFormula} (hs : s.seat.Holds O asserted)
    (hfs : s.env.ReadsAll fs (xs.map .own)) :
    Spends 1 (nextModel? (fs.map fun f => (f, f.term))) s fun model t =>
      t.seat.Holds O asserted ∧ Answers O asserted xs t.env model := by
  refine .bind (.ensureRunning (U := fun _ t => t = s) rfl) fun _ t _ ht => ?_
  rw [ht]
  refine .bind_free (spends_check hs) fun sat t hst ht => ?_
  cases sat with
  | false => exact .pure ⟨ht.holds, ht.unsat rfl⟩
  | true =>
    obtain ⟨I, hI, hfound, hall⟩ := ht.sat rfl
    exact .bind (spends_literals ⟨ht.holds, hfound⟩ (hfs.advance hs.proper hst.env))
      fun model u _ ⟨hu, hls, hns⟩ => .pure ⟨hu.holds, I, hI, hall, hls, hns⟩

theorem spends_assertTerm {t : Term} {partition : Option Nat} (hs : s.seat.Holds O asserted)
    (ht : s.env.Shows t x) (hx : x.sort = .bool) :
    Spends 0 (assertTerm t partition) s fun _ t => t.seat.Holds O (asserted ++ [x]) := by
  refine .bind (P := fun _ t => t.seat.Holds O (asserted ++ [x]))
    (.native (fun _ hc => hc.assert) ?_) fun _ u _ h => ?_
  · exact (O.assert hs.asserts ht hx).mono fun _ _ hy => ⟨hy.1, hs.native hy.1 hy.2⟩
  have hhold : u.env.Advances { u.env with handles := u.env.handles.hold t } :=
    (Advances.refl u.env).handles _
  exact .bind (P := fun _ t => t.seat.Holds O (asserted ++ [x]))
    (.inEnvironment (.update ⟨hhold, h.advance hhold rfl⟩))
    fun _ v _ h => .updateStack rfl rfl (h.advance (.refl _) rfl)

/-- The disjunction of terms is asserted. -/
theorem spends_block {ts : List Term} (hs : s.seat.Holds O asserted) (hts : s.env.ShowsAll ts xs)
    (hxs : ∀ x ∈ xs, x.sort = .bool) :
    Spends 0 (do
      let t ← inEnvironment (Environment.build (Build.or ts))
      assertTerm t none) s fun _ t => ∃ x, t.seat.Holds O (asserted ++ [x]) ∧
        ∀ I : Valuation A, I.truth x = xs.any I.truth := by
  refine .bind (P := fun t u => u.seat.Holds O asserted ∧ ∃ x, u.env.Shows t x ∧ x.sort = .bool ∧
      ∀ I : Valuation A, I.truth x = xs.any I.truth) (.inEnvironment ?_)
    fun t u _ ⟨hu, x, ht, hx, htruth⟩ => ?_
  · exact (ensures_or hs.proper hts hxs).mono fun t env ⟨ha, hx⟩ => ⟨ha, hs.advance ha rfl, hx⟩
  · exact (spends_assertTerm hu ht hx).mono fun _ _ _ hv => ⟨x, hv, htruth⟩

theorem spends_pushLevels (n : Nat) (hs : s.seat.Holds O asserted) :
    Spends 0 (pushLevels n) s fun _ t => t.seat.Holds O asserted := by
  induction n generalizing s with
  | zero => exact .pure hs
  | succ n ih =>
    refine .bind (P := fun _ t => t.seat.Holds O asserted) (.native (fun _ hc => hc.push) ?_)
      fun _ t _ ht => ?_
    · exact (O.push hs.asserts).mono fun _ _ hy => ⟨hy.1, hs.native hy.1 hy.2⟩
    · exact .bind (.updateStack (U := fun _ t => t.seat.Holds O asserted) rfl rfl
        (ht.advance (.refl _) rfl)) fun _ u _ hu => ih hu

theorem spends_push (n : Nat) (hs : s.seat.Holds O asserted) :
    Spends 0 (push n) s fun _ t => t.seat.Holds O asserted := by
  refine .bind (.ensureOpen (U := fun _ t => t.seat.Holds O asserted) hs) fun _ t _ ht => ?_
  exact .bind (spends_pushLevels n ht) fun _ u _ hu =>
    .updateStack rfl rfl (hu.advance (.refl _) rfl)

/-- Work that makes no check. -/
def Free (e : Effect (Site σ) α) : Prop := ∀ s, Spends 0 e s fun _ _ => True

namespace Free

theorem pure (a : α) : Free (Pure.pure a : Effect (Site σ) α) := fun _ => .pure trivial

theorem throw (x : Fault) : Free (MonadExcept.throw x : Effect (Site σ) α) := fun _ => .throw x

theorem look (g : Site σ → α) : Free (.look g) := fun _ => .look trivial

theorem bind (he : Free e) (hf : ∀ a, Free (f a)) : Free (e >>= f) :=
  fun s => .bind (he s) fun a t _ _ => hf a t

theorem forM {f : α → Effect (Site σ) Unit} (hf : ∀ a, Free (f a)) (as : List α) :
    Free (as.forM f) := by
  induction as with
  | nil => exact .pure ()
  | cons a as ih => exact .bind (hf a) fun _ => ih

theorem updateStack {g : AssertionStack σ → AssertionStack σ} (hhome : ∀ s, (g s).home = s.home)
    (hsession : ∀ s, (g s).session = s.session) : Free (Site.updateStack g) :=
  fun s => .updateStack (hhome s.stack) (hsession s.stack) trivial

theorem native {e : SessionM σ α} (hgrows : ∀ y, e.Ensures y fun _ z => y.1.Grows z.1)
    (hcount : ∀ count : σ → Nat, Counts count →
      ∀ y, e.Ensures y fun _ z => count z.2 = count y.2) : Free (Site.native e) :=
  fun _ => .native (fun count hc => hcount count hc _) ((hgrows _).mono fun _ _ h => ⟨h, trivial⟩)

end Free

theorem free_releaseAll (assertions : List (Option Nat × Term)) :
    Free (releaseAll assertions : Effect (Site σ) Unit) :=
  .forM (fun _ _ => .inEnvironment (.update ⟨(Advances.refl _).handles _, trivial⟩)) assertions

/-! A pop may change what is asserted in whatever way; it makes no check. -/

section Pops

variable (O)
include O

theorem free_declare (symbol : Symbol) :
    Free (Site.native (Session.declare symbol : SessionM σ Unit)) :=
  .native (fun _ => O.declare) fun _ hc _ => hc.declare

theorem free_popLevel : Free (popLevel : Effect (Site σ) _) := by
  refine .bind (.native (fun _ => O.pop) fun _ hc _ => hc.pop) fun _ =>
    .bind (.look _) fun levels => ?_
  split
  · exact .throw _
  · next level below _ =>
    refine .bind (.updateStack (fun _ => rfl) fun _ => rfl) fun _ => .bind (.look _) fun stack => ?_
    split
    · exact .bind (.forM (free_declare O) level.symbols) fun _ =>
        .bind (.updateStack (fun _ => rfl) fun _ => rfl) fun _ => .pure _
    · exact .pure _

theorem free_popLevels (n : Nat) : Free (popLevels n : Effect (Site σ) Unit) := by
  induction n with
  | zero => exact .pure ()
  | succ n ih => exact .bind (free_popLevel O) fun as => .bind (free_releaseAll as) fun _ => ih

theorem free_pop (n : Nat) : Free (pop n : Effect (Site σ) Unit) := by
  have hrest : Free (do
      popLevels n
      updateStack fun s => { s with last := none } : Effect (Site σ) Unit) :=
    .bind (free_popLevels O n) fun _ => .updateStack (fun _ => rfl) fun _ => rfl
  refine .bind (fun _ => .ensureOpen trivial) fun _ => .bind (.look _) fun depth => ?_
  split
  · exact .bind (.throw _) fun _ => hrest
  · exact hrest

end Pops
end Site
end FormulaStack
