import FormulaStack.Proofs.Sorting
import FormulaStack.Proofs.Traversals
import FormulaStack.Store.Bottom
import Mathlib.Data.Real.Basic

/-!
Meanings of terms. The connectives, equality, arithmetic without integer division, and literals have
their standard meaning; an interpretation chooses the meaning of everything else.
-/
namespace FormulaStack

/-- What a term can mean. `A` gives the arrays of each sort. -/
inductive Meaning (A : TermSort → TermSort → Type) where
  | truth (value : Bool)
  | integer (value : ℤ)
  | real (value : ℝ)
  | bits (width : Nat) (value : BitVec width)
  | array (index element : TermSort) (value : A index element)

namespace Meaning

variable {A : TermSort → TermSort → Type}

def sort : Meaning A → TermSort
  | .truth _ => .bool
  | .integer _ => .int
  | .real _ => .real
  | .bits width _ => .bitvec width
  | .array index element _ => .array index element

def truth? : Meaning A → Option Bool
  | .truth b => some b
  | _ => none

def integer? : Meaning A → Option ℤ
  | .integer z => some z
  | _ => none

def real? : Meaning A → Option ℝ
  | .real r => some r
  | _ => none

theorem sort_eq_bool {d : Meaning A} (h : d.sort = .bool) : ∃ b, d = .truth b := by
  cases d with
  | truth b => exact ⟨b, rfl⟩
  | _ => simp [sort] at h

theorem sort_eq_int {d : Meaning A} (h : d.sort = .int) : ∃ z, d = .integer z := by
  cases d with
  | integer z => exact ⟨z, rfl⟩
  | _ => simp [sort] at h

theorem sort_eq_real {d : Meaning A} (h : d.sort = .real) : ∃ r, d = .real r := by
  cases d with
  | real r => exact ⟨r, rfl⟩
  | _ => simp [sort] at h

/-- Denotations of one sort come from values of one kind. -/
theorem eq_map_of_sort {α : Type} {k : TermSort} {make : α → Meaning A}
    (hk : ∀ {d : Meaning A}, d.sort = k → ∃ a, d = make a) {ds : List (Meaning A)}
    (h : ∀ d ∈ ds, d.sort = k) : ∃ as : List α, ds = as.map make := by
  induction ds with
  | nil => exact ⟨[], rfl⟩
  | cons d ds ih =>
    obtain ⟨a, rfl⟩ := hk (h d (by simp))
    obtain ⟨as, rfl⟩ := ih fun e he => h e (by simp [he])
    exact ⟨a :: as, rfl⟩

theorem mapM_map {α : Type} (make : α → Meaning A) (get? : Meaning A → Option α)
    (h : ∀ a, get? (make a) = some a) (as : List α) : (as.map make).mapM get? = some as :=
  mapM_eq_some.2 (List.forall₂_map_left_iff.2 (List.forall₂_same.2 fun a _ => h a))

end Meaning

open Meaning

variable {A : TermSort → TermSort → Type}

open scoped Classical in
/-- The standard meaning of an arithmetic operator; division by zero and integer division have
none. -/
noncomputable def ArithOp.standard? : ArithOp → List (Meaning A) → Option (Meaning A)
  | .add, .integer a :: ds => (ds.mapM integer?).map fun zs => .integer (a + zs.sum)
  | .add, .real a :: ds => (ds.mapM real?).map fun rs => .real (a + rs.sum)
  | .neg, [.integer a] => some (.integer (-a))
  | .neg, [.real a] => some (.real (-a))
  | .sub, [.integer a, .integer b] => some (.integer (a - b))
  | .sub, [.real a, .real b] => some (.real (a - b))
  | .mul, [.integer a, .integer b] => some (.integer (a * b))
  | .mul, [.real a, .real b] => some (.real (a * b))
  | .div, [.real a, .real b] => if b = 0 then none else some (.real (a / b))
  | .toReal, [.integer a] => some (.real a)
  | .lt, [.integer a, .integer b] => some (.truth (decide (a < b)))
  | .lt, [.real a, .real b] => some (.truth (decide (a < b)))
  | .le, [.integer a, .integer b] => some (.truth (decide (a ≤ b)))
  | .le, [.real a, .real b] => some (.truth (decide (a ≤ b)))
  | .gt, [.integer a, .integer b] => some (.truth (decide (a > b)))
  | .gt, [.real a, .real b] => some (.truth (decide (a > b)))
  | .ge, [.integer a, .integer b] => some (.truth (decide (a ≥ b)))
  | .ge, [.real a, .real b] => some (.truth (decide (a ≥ b)))
  | _, _ => none

open scoped Classical in
/-- The standard meaning of an operator, where it has one. -/
noncomputable def Operator.standard? : Operator → List (Meaning A) → Option (Meaning A)
  | .true, [] => some (.truth Bool.true)
  | .false, [] => some (.truth Bool.false)
  | .not, [.truth a] => some (.truth !a)
  | .and, ds => (ds.mapM truth?).map fun bs => .truth (bs.all id)
  | .or, ds => (ds.mapM truth?).map fun bs => .truth (bs.any id)
  | .iff, [.truth a, .truth b] => some (.truth (a == b))
  | .implies, [.truth a, .truth b] => some (.truth (!a || b))
  | .ite, [.truth c, a, b] => some (if c then a else b)
  | .eq, [a, b] => some (.truth (decide (a = b)))
  | .distinct, ds => some (.truth (decide ds.Nodup))
  | .int z, [] => some (.integer z)
  | .real q, [] => some (.real q)
  | .bits value width, [] => some (.bits width (BitVec.ofNat width value))
  | .arith op, ds => op.standard? ds
  | _, _ => none

/-- A meaning for everything that has no standard one. It may tell terms apart that have the same
operator and arguments of the same meaning, as quantifiers over different bodies are. -/
structure Interpretation (A : TermSort → TermSort → Type) where
  free : Term → Node → List (Meaning A) → Meaning A
  sort_free : ∀ t n ds, (free t n ds).sort = n.sort

namespace Interpretation

variable (I : Interpretation A)

/-- The meaning of a node from those of its arguments. -/
noncomputable def ofNode (t : Term) (n : Node) (ds : List (Meaning A)) : Meaning A :=
  (n.op.standard? ds).getD (I.free t n ds)

/-- The meaning of a term of a store. -/
noncomputable def value? (s : Store) (t : Term) : Option (Meaning A) :=
  s.bottomUp? I.ofNode t

/-- Whether a term is true. -/
def Satisfies (s : Store) (t : Term) : Prop := I.value? s t = some (.truth true)

end Interpretation
end FormulaStack
