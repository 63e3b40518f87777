import FormulaStack.FormulaType

/-!
Sorts of terms. Every sort has a type; a type has a sort unless it mentions floating point.
-/
namespace FormulaStack

inductive TermSort where
  | bool
  | int
  | real
  | bitvec (width : Nat)
  | array (index element : TermSort)
  deriving DecidableEq, Inhabited

namespace TermSort

def type : TermSort → FormulaType
  | .bool => .boolean
  | .int => .integer
  | .real => .rational
  | .bitvec width => .bitvector width
  | .array index element => .array index.type element.type

def ofType? : FormulaType → Option TermSort
  | .boolean => some .bool
  | .integer => some .int
  | .rational => some .real
  | .bitvector width => some (.bitvec width)
  | .array index element => do some (.array (← ofType? index) (← ofType? element))
  | .floatingPoint .. => none

/-- The SMT-LIB text of a sort. -/
def text : TermSort → String
  | .bool => "Bool"
  | .int => "Int"
  | .real => "Real"
  | .bitvec width => s!"(_ BitVec {width})"
  | .array index element => s!"(Array {index.text} {element.text})"

@[simp] theorem ofType?_type (s : TermSort) : ofType? s.type = some s := by
  induction s with
  | array _ _ hi he => simp [type, ofType?, hi, he]
  | _ => rfl

theorem ofType?_eq_some {t : FormulaType} {s : TermSort} : ofType? t = some s ↔ t = s.type := by
  constructor
  · intro h
    induction t generalizing s with
    | array index element hi he =>
      simp only [ofType?, Option.bind_eq_bind, Option.bind_eq_some_iff, Option.some.injEq] at h
      obtain ⟨i, hi', e, he', rfl⟩ := h
      simp [type, ← hi hi', ← he he']
    | floatingPoint => simp [ofType?] at h
    | _ =>
      simp only [ofType?, Option.some.injEq] at h
      simp [← h, type]
  · rintro rfl
    exact ofType?_type s

theorem type_injective {s t : TermSort} (h : s.type = t.type) : s = t := by
  simpa using congrArg ofType? h

end TermSort
end FormulaStack
