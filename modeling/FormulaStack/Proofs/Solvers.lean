import FormulaStack.Proofs.Effects
import FormulaStack.Proofs.Structures
import FormulaStack.Session

/-!
Sessions that answer by interpretations: a check finds one that makes all assertions true, or says
that there is none, and terms are evaluated in the one that was found.
-/
namespace FormulaStack

open Effect

variable {A : TermSort → TermSort → Type} {σ α : Type}

/-- A structure, with values for variables that no binder binds. -/
structure Valuation (A : TermSort → TermSort → Type) where
  symbols : Structure A
  values : Binding A

namespace Valuation

noncomputable def truth (I : Valuation A) (x : Tree) : Bool := x.truth I.symbols I.values

def Satisfies (I : Valuation A) (xs : List Tree) : Prop := ∀ x ∈ xs, I.truth x = true

theorem satisfies_concat {I : Valuation A} {xs : List Tree} {x : Tree} :
    I.Satisfies (xs ++ [x]) ↔ I.Satisfies xs ∧ I.truth x = true := by
  simp [Satisfies, or_imp, forall_and]

end Valuation

/-- What a session says of interpretations. It may know that some of them are impossible, as a
session does that knows a meaning of integer division. Nothing is said of calls that fail. -/
structure SoundSession (σ : Type) [Session σ] (A : TermSort → TermSort → Type) where
  Possible : Valuation A → Prop
  /-- The session has asserted terms of these trees. -/
  Asserts : Store × σ → List Tree → Prop
  /-- The interpretation that the last satisfiable check came with. -/
  Found : σ → Valuation A → Prop
  grows {s t : Store} {session : σ} {xs : List Tree} :
    Asserts (s, session) xs → s.Grows t → Asserts (t, session) xs
  push {y : Store × σ} {xs : List Tree} : Asserts y xs →
    Session.push.Ensures y fun _ z => y.1.Grows z.1 ∧ Asserts z xs
  assert {y : Store × σ} {xs : List Tree} {t : Term} {x : Tree} :
    Asserts y xs → y.1.tree? t = some x → x.sort = .bool →
      (Session.assert t).Ensures y fun _ z => y.1.Grows z.1 ∧ Asserts z (xs ++ [x])
  check {y : Store × σ} {xs : List Tree} : Asserts y xs →
    Session.check.Ensures y fun verdict z => y.1.Grows z.1 ∧ Asserts z xs ∧
      (verdict = .sat → ∃ I, Possible I ∧ Found z.2 I ∧ I.Satisfies xs) ∧
      (verdict = .unsat → ∀ I, Possible I → ¬ I.Satisfies xs)
  eval {y : Store × σ} {xs : List Tree} {I : Valuation A} {t : Term} {x : Tree} :
    Asserts y xs → Found y.2 I → y.1.tree? t = some x → x.sort = .bool →
      (Session.eval true t).Ensures y fun value z => y.1.Grows z.1 ∧ Asserts z xs ∧ Found z.2 I ∧
        ∀ v b, value = some v → z.1.constantValue v = .ok (some (.bool b)) → I.truth x = b
  pop {y : Store × σ} : Session.pop.Ensures y fun _ z => y.1.Grows z.1
  declare {y : Store × σ} {symbol : Symbol} :
    (Session.declare symbol).Ensures y fun _ z => y.1.Grows z.1

/-- A number in a session that each check raises by one, and that nothing else changes. -/
structure Counts [Session σ] (count : σ → Nat) : Prop where
  check {y : Store × σ} : Session.check.Ensures y fun _ z => count z.2 = count y.2 + 1
  push {y : Store × σ} : Session.push.Ensures y fun _ z => count z.2 = count y.2
  pop {y : Store × σ} : Session.pop.Ensures y fun _ z => count z.2 = count y.2
  assert {y : Store × σ} {t : Term} :
    (Session.assert t).Ensures y fun _ z => count z.2 = count y.2
  eval {y : Store × σ} {t : Term} :
    (Session.eval true t).Ensures y fun _ z => count z.2 = count y.2
  declare {y : Store × σ} {symbol : Symbol} :
    (Session.declare symbol).Ensures y fun _ z => count z.2 = count y.2

/-- A session that counts the checks that are made of it. -/
structure Counted (σ : Type) where
  session : σ
  checks : Nat

namespace Counted

/-- Work of the session that is counted. -/
def inner (e : SessionM σ α) : SessionM (Counted σ) α :=
  .on (fun y => (y.1, y.2.session)) (fun z y => (z.1, { y.2 with session := z.2 })) e

theorem ensures_inner {e : SessionM σ α} {y : Store × Counted σ}
    {Q : α → Store × Counted σ → Prop}
    (h : e.Ensures (y.1, y.2.session) fun a z => Q a (z.1, ⟨z.2, y.2.checks⟩)) :
    (inner e).Ensures y Q :=
  .on h

theorem checks_inner (e : SessionM σ α) (y : Store × Counted σ) :
    (inner e).Ensures y fun _ z => z.2.checks = y.2.checks :=
  ensures_inner fun _ _ _ => rfl

variable [Session σ]

instance : Session (Counted σ) where
  declare symbol := inner (Session.declare symbol)
  assert t := inner (Session.assert t)
  push := inner Session.push
  pop := inner Session.pop
  check := do
    SessionM.update fun s => { s with checks := s.checks + 1 }
    inner Session.check
  reasonUnknown s := Session.reasonUnknown s.session
  eval complete t := inner (Session.eval complete t)
  assignments := inner Session.assignments
  forgetsDeclarations s := Session.forgetsDeclarations s.session
  interpolate ts us := inner (Session.interpolate ts us)
  abbreviate ts := inner (Session.abbreviate ts)
  shutdown := inner Session.shutdown
  interrupt s := { s with session := Session.interrupt s.session }

theorem ensures_check {y : Store × Counted σ} {Q : Verdict → Store × Counted σ → Prop}
    (h : Session.check.Ensures (y.1, y.2.session) fun a z => Q a (z.1, ⟨z.2, y.2.checks + 1⟩)) :
    (Session.check : SessionM (Counted σ) Verdict).Ensures y Q :=
  .bind (.update (R := fun _ z => z = (y.1, ⟨y.2.session, y.2.checks + 1⟩)) rfl) fun _ _ hz =>
    hz ▸ ensures_inner h

theorem counts_checks : Counts (checks : Counted σ → Nat) where
  check := ensures_check fun _ _ _ => rfl
  push := checks_inner _ _
  pop := checks_inner _ _
  assert := checks_inner _ _
  eval := checks_inner _ _
  declare := checks_inner _ _

end Counted

/-- Counting the checks changes no answer. -/
def SoundSession.counted [Session σ] (O : SoundSession σ A) : SoundSession (Counted σ) A where
  Possible := O.Possible
  Asserts y xs := O.Asserts (y.1, y.2.session) xs
  Found s I := O.Found s.session I
  grows h := O.grows h
  push h := Counted.ensures_inner (O.push h)
  assert h ht hx := Counted.ensures_inner (O.assert h ht hx)
  check h := Counted.ensures_check (O.check h)
  eval h hI ht hx := Counted.ensures_inner (O.eval h hI ht hx)
  pop := Counted.ensures_inner O.pop
  declare := Counted.ensures_inner O.declare

end FormulaStack
