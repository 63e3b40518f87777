import FormulaStack.Store

/-!
Terms over bit-vectors. A literal is reduced modulo the number of values of its width.
-/
namespace FormulaStack.Build

def bits (value : Int) (width : Nat) : Build Term := do
  if width = 0 then fail (.badArgument .zeroWidth)
  intern ⟨.bits (value % Int.pow 2 width).toNat width, [], .bitvec width⟩

def width (t : Term) : Build Nat := do
  match ← Build.sort t with
  | .bitvec width => return width
  | other => fail (.typeMismatch (.bitvector 0) other.type)

/-- An operator over bit-vectors of one width. -/
def bitwise (op : BitOp) (t : Term) (ts : List Term) : Build Term := do
  let width ← width t
  ts.forM (expect (.bitvec width))
  intern ⟨.bitwise op, t :: ts, if op.isPredicate then .bool else .bitvec width⟩

def concat (a b : Term) : Build Term := do
  let width := (← width a) + (← width b)
  intern ⟨.bitwise .concat, [a, b], .bitvec width⟩

/-- The bits from `high` down to `low`. -/
def extract (high low : Nat) (t : Term) : Build Term := do
  let width ← width t
  if high < low ∨ width ≤ high then fail (.badArgument (.extractBeyond high low width))
  intern ⟨.extract high low, [t], .bitvec (high - low + 1)⟩

end FormulaStack.Build
