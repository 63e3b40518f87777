import FormulaStack.Proofs.Sorting

/-!
Ranks. The symbols of the theories of SMT-LIB, and the sorts that their operators take and give, for
the numbers of arguments that terms have. Sums have two summands at least.
-/
namespace FormulaStack

namespace TermSort

def IsNumeric (k : TermSort) : Prop := k = .int ∨ k = .real

instance (k : TermSort) : Decidable k.IsNumeric := inferInstanceAs (Decidable (_ ∨ _))

end TermSort

/-- The sort of what an operator makes of arguments of some sorts. -/
def ArithOp.result? : ArithOp → List TermSort → Option TermSort
  | .add, k :: l :: ks => if k.IsNumeric ∧ ∀ a ∈ l :: ks, a = k then some k else none
  | .neg, [k] => if k.IsNumeric then some k else none
  | .sub, [k, l] | .mul, [k, l] => if k.IsNumeric ∧ l = k then some k else none
  | .div, [.real, .real] => some .real
  | .intDiv, [.int, .int] | .mod, [.int, .int] => some .int
  | .toReal, [.int] => some .real
  | .lt, [k, l] | .le, [k, l] | .gt, [k, l] | .ge, [k, l] =>
    if k.IsNumeric ∧ l = k then some .bool else none
  | _, _ => none

def BitOp.result? : BitOp → List TermSort → Option TermSort
  | .not, [.bitvec w] | .neg, [.bitvec w] => some (.bitvec w)
  | .concat, [.bitvec v, .bitvec w] => some (.bitvec (v + w))
  | op, [.bitvec v, .bitvec w] =>
    if op ≠ .not ∧ op ≠ .neg ∧ w = v then some (if op.isPredicate then .bool else .bitvec v)
    else none
  | _, _ => none

def Operator.result? : Operator → List TermSort → Option TermSort
  | .true, [] | .false, [] => some .bool
  | .not, [.bool] => some .bool
  | .and, ks | .or, ks => if 2 ≤ ks.length ∧ ∀ a ∈ ks, a = .bool then some .bool else none
  | .implies, [.bool, .bool] => some .bool
  | .ite, [.bool, k, l] => if l = k then some k else none
  | .eq, [k, l] => if l = k then some .bool else none
  | .distinct, k :: l :: ks => if ∀ a ∈ l :: ks, a = k then some .bool else none
  | .arith op, ks => op.result? ks
  | .bitwise op, ks => op.result? ks
  | .extract high low, [.bitvec w] =>
    if low ≤ high ∧ high < w then some (.bitvec (high - low + 1)) else none
  | .select, [.array i e, j] => if j = i then some e else none
  | .store, [.array i e, j, f] => if j = i ∧ f = e then some (.array i e) else none
  | _, _ => none

/-- The symbol that an operator is written by. -/
def Operator.symbol? : Operator → Option String
  | .true => some "true"
  | .false => some "false"
  | .not => some "not"
  | .and => some "and"
  | .or => some "or"
  | .iff | .eq => some "="
  | .implies => some "=>"
  | .ite => some "ite"
  | .distinct => some "distinct"
  | .arith op => some op.symbol
  | .bitwise op => some op.symbol
  | .select => some "select"
  | .store => some "store"
  | _ => none

def ArithOp.all : List ArithOp :=
  [.add, .sub, .neg, .mul, .div, .intDiv, .mod, .toReal, .lt, .le, .gt, .ge]

def BitOp.all : List BitOp :=
  [.add, .sub, .mul, .and, .or, .xor, .not, .neg, .ult, .ule, .slt, .sle, .concat]

/-- The operators that are read from symbols. An equation of truth values is one like any other. -/
def Operator.ofSymbols : List Operator :=
  .true :: .false :: .not :: .and :: .or :: .implies :: .ite :: .eq :: .distinct :: .select ::
    .store :: (ArithOp.all.map .arith ++ BitOp.all.map .bitwise)

/-- The operator that is read where one is written. -/
def Operator.read : Operator → Operator
  | .iff => .eq
  | op => op

/-- The operator of a symbol that takes arguments of some sorts, and the sort of what it makes. -/
def rank? (w : String) (ks : List TermSort) : Option (Operator × TermSort) :=
  Operator.ofSymbols.findSome? fun op =>
    if op.symbol? = some w then (op.result? ks).map fun k => (op, k) else none

variable {op : Operator} {d : FuncDecl → Option Signature} {ks : List TermSort} {k : TermSort}

/-- An operator takes what it is made for. -/
theorem ArithOp.result?_of_fits {op : ArithOp} (h : op.Fits ks k)
    (hadd : op = .add → 2 ≤ ks.length) : op.result? ks = some k := by
  cases op with
  | add =>
    obtain ⟨hk, -, hks⟩ := h
    match ks, hadd rfl with
    | a :: b :: ks, _ =>
      obtain ⟨rfl, hks⟩ := List.forall_mem_cons.1 hks
      exact if_pos ⟨hk, hks⟩
  | neg =>
    obtain ⟨hk, rfl⟩ := h
    exact if_pos hk
  | sub | mul =>
    obtain ⟨hk, rfl⟩ := h
    exact if_pos ⟨hk, rfl⟩
  | div | intDiv | mod | toReal =>
    obtain ⟨rfl, rfl⟩ := h
    rfl
  | lt | le | gt | ge =>
    obtain ⟨rfl | rfl, rfl⟩ := h <;> rfl

theorem BitOp.result?_of_fits {op : BitOp} (h : op.Fits ks k) : op.result? ks = some k := by
  cases op with
  | not | neg =>
    obtain ⟨w, rfl, rfl⟩ := h
    rfl
  | concat =>
    obtain ⟨v, w, rfl, rfl⟩ := h
    rfl
  | _ =>
    obtain ⟨w, rfl, rfl⟩ := h
    simp [result?, isPredicate]

theorem Operator.result?_of_fits (h : op.Fits d ks k) (hop : op ∈ ofSymbols)
    (hadd : op = .arith .add → 2 ≤ ks.length) : op.result? ks = some k := by
  cases op with
  | arith op => exact ArithOp.result?_of_fits h fun hop => hadd (congrArg _ hop)
  | bitwise op => exact BitOp.result?_of_fits h
  | and | or =>
    obtain ⟨hlen, hks, rfl⟩ := h
    exact if_pos ⟨hlen, hks⟩
  | eq =>
    obtain ⟨⟨a, rfl⟩, rfl⟩ := h
    exact if_pos rfl
  | distinct =>
    obtain ⟨hlen, ⟨a, hks⟩, rfl⟩ := h
    match ks, hlen with
    | b :: c :: ks, _ =>
      obtain ⟨rfl, hks⟩ := List.forall_mem_cons.1 hks
      exact if_pos hks
  | ite =>
    obtain rfl := h
    exact if_pos rfl
  | select =>
    obtain ⟨i, rfl⟩ := h
    exact if_pos rfl
  | store =>
    obtain ⟨i, e, rfl, rfl⟩ := h
    exact if_pos ⟨rfl, rfl⟩
  | true | false | not | implies =>
    obtain ⟨rfl, rfl⟩ := h
    rfl
  | _ => simp [ofSymbols] at hop

theorem Operator.read_mem {w : String} (h : op.symbol? = some w) :
    op.read ∈ ofSymbols ∧ op.read.symbol? = some w := by
  cases op with
  | arith op => exact ⟨by cases op <;> decide +kernel, h⟩
  | bitwise op => exact ⟨by cases op <;> decide +kernel, h⟩
  | apply | bound | quantifier | int | real | bits | extract | constArray => cases h
  | _ => exact ⟨by decide +kernel, h⟩

theorem Operator.Fits.read (h : op.Fits d ks k) : op.read.Fits d ks k := by
  cases op with
  | iff =>
    obtain ⟨rfl, rfl⟩ := h
    exact ⟨⟨.bool, rfl⟩, rfl⟩
  | _ => exact h

/-- Only a difference and a negation have one symbol. -/
theorem Operator.eq_of_symbol? : ∀ a ∈ ofSymbols, ∀ b ∈ ofSymbols, a.symbol? = b.symbol? →
    a = b ∨ a = .arith .sub ∧ b = .arith .neg ∨ a = .arith .neg ∧ b = .arith .sub := by
  decide +kernel

/-- A symbol and the sorts of the arguments tell which operator is meant. -/
theorem rank?_of_fits {w : String} (h : op.Fits d ks k) (hw : op.symbol? = some w)
    (hadd : op = .arith .add → 2 ≤ ks.length) : rank? w ks = some (op.read, k) := by
  obtain ⟨hop, hw⟩ := Operator.read_mem hw
  have hresult : op.read.result? ks = some k := by
    refine Operator.result?_of_fits h.read hop fun heq => hadd ?_
    cases op <;> cases heq
    rfl
  have hother : ∀ b ∈ Operator.ofSymbols, b.symbol? = some w → b ≠ op.read →
      b.result? ks = none := by
    intro b hb hbw hne
    have hfits := h.read
    revert hop hw hne hfits
    generalize op.read = c
    intro hop hw hne hfits
    obtain rfl | ⟨rfl, rfl⟩ | ⟨rfl, rfl⟩ := Operator.eq_of_symbol? b hb c hop (hbw.trans hw.symm)
    · exact absurd rfl hne
    · obtain ⟨-, rfl⟩ := hfits
      rfl
    · obtain ⟨-, rfl⟩ := hfits
      rfl
  unfold rank?
  revert hop hother
  generalize Operator.ofSymbols = ops
  intro hop hother
  induction ops with
  | nil => simp at hop
  | cons b ops ih =>
    obtain ⟨hb, hops⟩ := List.forall_mem_cons.1 hother
    rw [List.findSome?_cons]
    by_cases hbop : b = op.read
    · rw [hbop, if_pos hw, hresult]
      rfl
    · have hnone : (if b.symbol? = some w then (b.result? ks).map fun k => (b, k) else none) =
          none := by
        split
        · next hbw => rw [hb hbw hbop, Option.map_none]
        · rfl
      rw [hnone]
      exact ih (List.mem_of_ne_of_mem (Ne.symm hbop) hop) hops

/-- Other words are no operators. -/
theorem rank?_eq_none {w : String} (h : ∀ op ∈ Operator.ofSymbols, op.symbol? ≠ some w) :
    rank? w ks = none :=
  List.findSome?_eq_none_iff.2 fun op hop => if_neg (h op hop)

/-- No operator makes a sum of one term. -/
theorem rank?_sum (k : TermSort) : rank? "+" [k] = none := by
  refine List.findSome?_eq_none_iff.2 fun op hop => ?_
  have hsymbol : ∀ op ∈ Operator.ofSymbols, op.symbol? = some "+" → op = .arith .add := by
    decide +kernel
  split
  · next hw => rw [hsymbol op hop hw]; rfl
  · rfl

end FormulaStack
