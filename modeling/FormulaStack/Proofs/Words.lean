import FormulaStack.Proofs.Lexing

/-!
Words of SMT-LIB: numerals and simple symbols.
-/
namespace FormulaStack.Word

/-- The number that digits write; only zero starts with a zero. -/
def numeral? (cs : List Char) : Option Nat :=
  if cs ≠ [] ∧ cs.all Char.isDigit ∧ (cs.head? = some '0' → cs = ['0']) then
    some (Nat.ofDigitChars 10 cs 0)
  else none

/-- The number that a word is. Some readers take digits behind a minus for one. -/
def number? (signed : Bool) (w : String) : Option Int :=
  match w.toList with
  | '-' :: cs => if signed then (numeral? cs).map fun n => -(n : Int) else none
  | cs => (numeral? cs).map (↑)

/-- The number that the name of a constant bit-vector holds. -/
def bits? (w : String) : Option Nat :=
  match w.toList with
  | 'b' :: 'v' :: cs => numeral? cs
  | _ => none

/-- The characters of simple symbols. -/
def isSymbolChar (c : Char) : Bool := c.isAlphanum || c ∈ "~!@$%^&*_-+=<>.?/".toList

structure IsSymbol (w : String) : Prop where
  nonempty : w.toList ≠ []
  chars : w.toList.all isSymbolChar = true
  start : w.toList.head?.all (!·.isDigit) = true

instance (w : String) : Decidable (IsSymbol w) :=
  decidable_of_iff (w.toList ≠ [] ∧ w.toList.all isSymbolChar = true ∧
    w.toList.head?.all (!·.isDigit) = true) ⟨fun h => ⟨h.1, h.2.1, h.2.2⟩, fun h => ⟨h.1, h.2, h.3⟩⟩

/-- The words of the language itself. -/
def reserved : List String :=
  ["!", "_", "as", "exists", "forall", "let", "match", "par", "BINARY", "DECIMAL", "HEXADECIMAL",
    "NUMERAL", "STRING"]

/-! Words of numbers -/

theorem head?_toDigits (n : Nat) (h : (Nat.toDigits 10 n).head? = some '0') : n = 0 := by
  have hdigit : ∀ m < 10, m.digitChar = '0' → m = 0 := by decide
  induction n using Nat.strongRecOn with
  | ind n ih =>
    rw [Nat.toDigits_eq_if (by decide)] at h
    split at h
    · next hlt => exact hdigit n hlt (by simpa using h)
    · rw [List.head?_append_of_ne_nil _ Nat.toDigits_ne_nil] at h
      have := ih (n / 10) (by omega) h
      omega

theorem numeral?_toDigits (n : Nat) : numeral? (Nat.toDigits 10 n) = some n := by
  rw [numeral?, if_pos, Nat.ofDigitChars_toDigits (by decide) (by decide)]
  refine ⟨Nat.toDigits_ne_nil, List.all_eq_true.2 fun c hc =>
    Nat.isDigit_of_mem_toDigits (by decide) (by decide) hc, fun h => ?_⟩
  rw [head?_toDigits n h]
  rfl

theorem toList_toString (n : Nat) : (toString n).toList = Nat.toDigits 10 n := by
  rw [Nat.toString_eq_repr, Nat.toList_repr]

theorem isDigit_of_mem_toString {n : Nat} {c : Char} (h : c ∈ (toString n).toList) :
    c.isDigit = true := by
  rw [toList_toString] at h
  exact Nat.isDigit_of_mem_toDigits (by decide) (by decide) h

theorem number?_natCast (signed : Bool) (n : Nat) :
    number? signed (toString (n : Int)) = some (n : Int) := by
  change number? signed (toString n) = _
  unfold number?
  split
  · next cs h =>
    have hminus : '-'.isDigit = true := isDigit_of_mem_toString (h ▸ List.mem_cons_self)
    simp at hminus
  · rw [toList_toString, numeral?_toDigits]
    rfl

theorem toList_toString_negSucc (n : Nat) :
    (toString (Int.negSucc n)).toList = '-' :: Nat.toDigits 10 (n + 1) := by
  change ("-" ++ toString (n + 1)).toList = _
  rw [String.toList_append, toList_toString]
  rfl

theorem number?_toString (z : Int) : number? true (toString z) = some z := by
  cases z with
  | ofNat n => exact number?_natCast true n
  | negSucc n =>
    rw [number?, toList_toString_negSucc]
    simp [numeral?_toDigits, Int.negSucc_eq]

/-- A negative number is no numeral. -/
theorem number?_negative {z : Int} (h : z < 0) : number? false (toString z) = none := by
  cases z with
  | ofNat n => exact absurd h (by simp)
  | negSucc n => rw [number?, toList_toString_negSucc]; simp

/-- A word that is no number even with a sign is none. -/
theorem number?_eq_none {w : String} (h : number? true w = none) (signed : Bool) :
    number? signed w = none := by
  cases signed with
  | true => exact h
  | false =>
    unfold number? at h ⊢
    split
    · rfl
    · next hplain =>
      split at h
      · next cs hw => exact absurd hw (hplain cs)
      · exact h

/-! What words are made of -/

/-- A class of characters that has no blank and no parenthesis is one of characters of words. -/
theorem isWordChar_of_class {p : Char → Bool} {c : Char} (h : p c = true)
    (hp : [' ', '\t', '\n', '\r', '(', ')'].all (!p ·) = true) : Token.isWordChar c = true := by
  by_contra hc
  have hmem : c ∈ [' ', '\t', '\n', '\r', '(', ')'] := by
    simpa [Token.isWordChar, Token.isBlank, or_assoc, imp_iff_not_or] using hc
  simpa [h] using List.all_eq_true.1 hp c hmem

theorem isWord_of_class (p : Char → Bool) {w : String} (hne : w.toList ≠ [])
    (hw : ∀ c ∈ w.toList, p c = true)
    (hp : [' ', '\t', '\n', '\r', '(', ')'].all (!p ·) = true) : SExpr.IsWord w :=
  ⟨hne, fun c hc => isWordChar_of_class (hw c hc) hp⟩

theorem isWord_natCast (n : Nat) : SExpr.IsWord (toString n) := by
  refine isWord_of_class Char.isDigit ?_ (fun c hc => isDigit_of_mem_toString hc) (by decide)
  rw [toList_toString]
  exact Nat.toDigits_ne_nil

theorem IsSymbol.isWord {w : String} (h : IsSymbol w) : SExpr.IsWord w :=
  isWord_of_class isSymbolChar h.nonempty (List.all_eq_true.1 h.chars) (by decide +kernel)

/-- A symbol is no numeral. -/
theorem IsSymbol.number?_eq_none {w : String} (h : IsSymbol w) : number? false w = none := by
  unfold number?
  split
  · rfl
  · obtain ⟨c, cs, hw⟩ := List.exists_cons_of_ne_nil h.nonempty
    have hstart : c.isDigit = false := by simpa [hw] using h.start
    rw [hw, numeral?, if_neg, Option.map_none]
    rintro ⟨-, hdigits, -⟩
    simp [List.all_eq_true.1 hdigits c List.mem_cons_self] at hstart

theorem isWord_intCast (z : Int) : SExpr.IsWord (toString z) := by
  cases z with
  | ofNat n => exact isWord_natCast n
  | negSucc n =>
    have hchars := toList_toString_negSucc n
    refine isWord_of_class (fun c => c == '-' || c.isDigit) (hchars ▸ List.cons_ne_nil _ _) ?_
      (by decide)
    intro c hc
    rw [hchars, List.mem_cons] at hc
    obtain rfl | hc := hc
    · rfl
    · simp [Nat.isDigit_of_mem_toDigits (by decide) (by decide) hc]

theorem toList_bits (n : Nat) : ("bv" ++ toString n).toList = 'b' :: 'v' :: Nat.toDigits 10 n := by
  rw [String.toList_append, toList_toString]
  rfl

theorem bits?_append (n : Nat) : bits? ("bv" ++ toString n) = some n := by
  rw [bits?, toList_bits]
  exact numeral?_toDigits n

theorem isWord_bits (n : Nat) : SExpr.IsWord ("bv" ++ toString n) := by
  have hchars := toList_bits n
  refine isWord_of_class Char.isAlphanum (hchars ▸ List.cons_ne_nil _ _) ?_ (by decide)
  intro c hc
  rw [hchars, List.mem_cons, List.mem_cons] at hc
  obtain rfl | rfl | hc := hc
  · rfl
  · rfl
  · simp [Char.isAlphanum, Nat.isDigit_of_mem_toDigits (by decide) (by decide) hc]

theorem number?_bits (signed : Bool) (n : Nat) : number? signed ("bv" ++ toString n) = none := by
  rw [number?, toList_bits]
  simp [numeral?]

end FormulaStack.Word
