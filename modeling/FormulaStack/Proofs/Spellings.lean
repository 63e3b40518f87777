import FormulaStack.Proofs.Occurrences
import FormulaStack.Proofs.Ranks
import FormulaStack.Proofs.Words

/-!
Spellings. Sorts and trees as expressions of SMT-LIB. The text of a term without quantifiers and
bound variables is that of the expression of its tree, and its words are words of the language,
numbers and the names of symbols.
-/
namespace FormulaStack

open SExpr Word

namespace TermSort

/-- Every vector has bits. -/
def Positive : TermSort → Prop
  | .bitvec width => 0 < width
  | .array index element => index.Positive ∧ element.Positive
  | _ => True

def expr : TermSort → SExpr
  | .bool => .word "Bool"
  | .int => .word "Int"
  | .real => .word "Real"
  | .bitvec width => .list [.word "_", .word "BitVec", .word (toString width)]
  | .array index element => .list [.word "Array", index.expr, element.expr]

theorem text_expr (k : TermSort) : k.expr.text = k.text := by
  have hself (s : String) : toString s = s := rfl
  induction k with
  | bitvec width =>
    apply String.toList_inj.1
    simp [expr, text, text_list, hself]
  | array index element hi he =>
    apply String.toList_inj.1
    simp [expr, text, text_list, hi, he, hself]
  | _ => rfl

end TermSort

namespace Label

/-- Quantifiers, and the variables that they bind. -/
def isBinding : Label → Bool
  | .op (.bound _) | .op (.quantifier ..) => true
  | _ => false

/-- What stands at the head of a node. -/
def expr (l : Label) (k : TermSort) : SExpr :=
  match l with
  | .apply f => .word f.name
  | .op (.int z) =>
    if z < 0 then .list [.word "-", .word (toString z.natAbs)] else .word (toString z)
  | .op (.real q) => .list [.word "/", .word (toString q.num), .word (toString q.den)]
  | .op (.bits value width) =>
    .list [.word "_", .word ("bv" ++ toString value), .word (toString width)]
  | .op (.extract high low) =>
    .list [.word "_", .word "extract", .word (toString high), .word (toString low)]
  | .op .constArray => .list [.word "as", .word "const", k.expr]
  | .op o => .word (o.symbol?.getD "")

theorem expr_symbol {o : Operator} {w : String} {k : TermSort} (h : o.symbol? = some w) :
    (Label.op o).expr k = .word w := by
  cases o with
  | apply | bound | quantifier | int | real | bits | extract | constArray => cases h
  | _ =>
    cases h
    rfl

end Label

namespace Tree

/-- A tree written down. -/
def expr : Tree → SExpr :=
  fold fun l k xs => if xs.isEmpty then l.expr k else .list (l.expr k :: xs.map (·.2))

theorem expr_node (l : Label) (k : TermSort) (xs : List Tree) : (node l k xs).expr =
    if xs.isEmpty then l.expr k else .list (l.expr k :: xs.map expr) := by
  rw [expr, fold_node, List.map_map, List.isEmpty_map]
  rfl

end Tree

namespace Store

variable {s : Store} {t : Term} {n : Node} {x : Tree} {ks : List TermSort}

theorem headText_eq_text (hop : n.op.Fits s.decl? ks n.sort)
    (hbinding : (s.label n.op).isBinding = false) :
    s.headText n = ((s.label n.op).expr n.sort).text := by
  have hself (s : String) : toString s = s := rfl
  obtain ⟨op, args, k⟩ := n
  dsimp only at hop hbinding ⊢
  cases op with
  | apply d =>
    obtain ⟨name, hd⟩ := hop
    simp [headText, declName, label, hd, Label.expr]
  | int z =>
    by_cases hz : z < 0
    · apply String.toList_inj.1
      simp [label, Label.expr, headText, integerText, hz, text_list, hself]
    · simp [label, Label.expr, headText, integerText, hz]
  | real | bits | extract =>
    apply String.toList_inj.1
    simp [label, Label.expr, headText, text_list, hself]
  | constArray =>
    apply String.toList_inj.1
    simp [label, Label.expr, headText, text_list, TermSort.text_expr, hself]
  | bound | quantifier => cases hbinding
  | _ => rfl

/-- The text of a term is that of its tree. -/
theorem WellFormed.dump_eq_text (hs : s.WellFormed) (hx : s.tree? t = some x)
    (hfree : ∀ y, Tree.Occurs y x → y.label.isBinding = false) : s.dump t = .ok x.expr.text := by
  suffices s.bottomUp? s.nodeText t = some x.expr.text by rw [dump, this]
  induction x using Tree.induction generalizing t with
  | step l k xs ih =>
    obtain ⟨n, hn, rfl, rfl, hxs⟩ := hs.node_of_tree? hx
    obtain ⟨texts, htexts, ht⟩ := hs.bottomUp? s.nodeText hn
    obtain ⟨ks, -, hop⟩ := hs.fits hn
    have hargs : texts = xs.map fun x => x.expr.text := by
      refine eq_map_of_related hxs htexts fun x hxmem a text ha htext => ?_
      have hbelow := ih x hxmem ha fun y hy => hfree y (Tree.occurs_node.2 (.inr ⟨x, hxmem, hy⟩))
      exact Option.some.inj (htext.symm.trans hbelow)
    rw [ht, nodeText, headText_eq_text hop (hfree _ (Tree.occurs_node.2 (.inl rfl))), hargs,
      Tree.expr_node, List.isEmpty_map]
    split
    · rfl
    · simp [text_list, Function.comp_def]

end Store

/-! Words -/

/-- A word that is a number is one without a sign, unless signs are allowed or a symbol has that
name. -/
def Unsigned (signed : Bool) (fs : List Signature) (w : String) : Prop :=
  number? true w ≠ none → number? signed w ≠ none ∨ ∃ f ∈ fs, f.name = w

/-- Symbols that a reader can tell from each other and from everything else. -/
structure Legible (signed : Bool) (fs : List Signature) : Prop where
  symbol : ∀ f ∈ fs, IsSymbol f.name
  unreserved : ∀ f ∈ fs, f.name ∉ reserved
  other : ∀ f ∈ fs, ∀ op ∈ Operator.ofSymbols, op.symbol? ≠ some f.name
  different : ∀ f ∈ fs, ∀ g ∈ fs, f.name = g.name → f = g
  unsigned : signed = true → ∀ f ∈ fs, number? true f.name = none

/-- A tree without quantifiers and bound variables over some symbols. -/
structure Tree.Over (fs : List Signature) (x : Tree) : Prop where
  free : ∀ y, Tree.Occurs y x → y.label.isBinding = false
  symbols : ∀ y, Tree.Occurs y x → ∀ f, y.label = .apply f → f ∈ fs

/-- No real literal is negative. -/
def Tree.Nonnegative (x : Tree) : Prop :=
  ∀ y, Tree.Occurs y x → ∀ q, y.label = .op (.real q) → 0 ≤ q

/-- A tree that adds two terms at least, where the vectors in the sorts of constant arrays have bits
and no real literal is negative, unless signs are allowed. -/
structure Tree.Readable (signed : Bool) (x : Tree) : Prop where
  sums : ∀ y, Tree.Occurs y x → y.label = .op (.arith .add) → 2 ≤ y.args.length
  widths : ∀ y, Tree.Occurs y x → y.label = .op .constArray → y.sort.Positive
  signs : signed = false → x.Nonnegative

variable {signed : Bool} {fs : List Signature} {l : Label} {k : TermSort} {x : Tree}
  {xs : List Tree}

namespace Tree

theorem occurs_self : ∀ x : Tree, Occurs x x
  | node .. => occurs_node.2 (.inl rfl)

theorem Over.arg (h : (node l k xs).Over fs) (hx : x ∈ xs) : x.Over fs :=
  ⟨fun y hy => h.free y (occurs_node.2 (.inr ⟨x, hx, hy⟩)),
    fun y hy => h.symbols y (occurs_node.2 (.inr ⟨x, hx, hy⟩))⟩

theorem Nonnegative.arg (h : (node l k xs).Nonnegative) (hx : x ∈ xs) : x.Nonnegative :=
  fun y hy => h y (occurs_node.2 (.inr ⟨x, hx, hy⟩))

/-- What makes a node readable. -/
theorem readable_node : (node l k xs).Readable signed ↔
    (l = .op (.arith .add) → 2 ≤ xs.length) ∧ (l = .op .constArray → k.Positive) ∧
      (signed = false → ∀ q, l = .op (.real q) → 0 ≤ q) ∧ ∀ x ∈ xs, x.Readable signed := by
  constructor
  · intro h
    have hself := occurs_self (node l k xs)
    refine ⟨h.sums _ hself, h.widths _ hself, fun hs => h.signs hs _ hself, fun x hx => ?_⟩
    have hocc : ∀ {y}, Occurs y x → Occurs y (node l k xs) := fun hy =>
      occurs_node.2 (.inr ⟨x, hx, hy⟩)
    exact ⟨fun y hy => h.sums y (hocc hy), fun y hy => h.widths y (hocc hy),
      fun hs y hy => h.signs hs y (hocc hy)⟩
  · rintro ⟨hsums, hwidths, hsigns, hargs⟩
    constructor
    · intro y hy
      obtain rfl | ⟨x, hx, hy⟩ := occurs_node.1 hy
      · exact hsums
      · exact (hargs x hx).sums y hy
    · intro y hy
      obtain rfl | ⟨x, hx, hy⟩ := occurs_node.1 hy
      · exact hwidths
      · exact (hargs x hx).widths y hy
    · intro hs y hy
      obtain rfl | ⟨x, hx, hy⟩ := occurs_node.1 hy
      · exact hsigns hs
      · exact (hargs x hx).signs hs y hy

end Tree

/-- The words that stand for themselves. -/
def keywords : List String :=
  ["_", "as", "const", "extract", "Bool", "Int", "Real", "BitVec", "Array"] ++
    Operator.ofSymbols.filterMap (·.symbol?)

theorem keyword_plain : ∀ w ∈ keywords,
    w.toList ≠ [] ∧ w.toList.all Token.isWordChar = true ∧ number? true w = none := by
  decide +kernel

/-- What is so of every word of what is written. -/
def Sound (signed : Bool) (fs : List Signature) (w : String) : Prop :=
  IsWord w ∧ Unsigned signed fs w

theorem sound_keyword {w : String} (h : w ∈ keywords) : Sound signed fs w := by
  obtain ⟨hne, hchars, hnumber⟩ := keyword_plain w h
  exact ⟨⟨hne, List.all_eq_true.1 hchars⟩, fun hn => absurd hnumber hn⟩

theorem sound_natCast (n : Nat) : Sound signed fs (toString n) :=
  ⟨isWord_natCast n, fun _ => .inl fun h => by cases (number?_natCast signed n).symm.trans h⟩

theorem sound_intCast {z : Int} (h : signed = false → 0 ≤ z) : Sound signed fs (toString z) := by
  refine ⟨isWord_intCast z, fun _ => .inl fun hn => ?_⟩
  cases signed with
  | true => cases (number?_toString z).symm.trans hn
  | false =>
    obtain ⟨n, rfl⟩ := Int.eq_ofNat_of_zero_le (h rfl)
    cases (number?_natCast false n).symm.trans hn

theorem sound_bits (n : Nat) : Sound signed fs ("bv" ++ toString n) :=
  ⟨isWord_bits n, fun h => absurd (number?_bits true n) h⟩

/-- All words of a list are sound if those of its elements are. -/
theorem sound_list {es : List SExpr} (h : ∀ e ∈ es, ∀ w ∈ e.words, Sound signed fs w) :
    ∀ w ∈ (SExpr.list es).words, Sound signed fs w := by
  intro w hw
  rw [words_list, List.mem_flatMap] at hw
  obtain ⟨e, he, hw⟩ := hw
  exact h e he w hw

theorem sound_word {w : String} (h : Sound signed fs w) :
    ∀ v ∈ (SExpr.word w).words, Sound signed fs v := by
  simpa using h

theorem sound_fixed {w : String} (h : w ∈ keywords) :
    ∀ v ∈ (SExpr.word w).words, Sound signed fs v :=
  sound_word (sound_keyword h)

theorem TermSort.sound_expr (k : TermSort) : ∀ w ∈ k.expr.words, Sound signed fs w := by
  induction k with
  | bitvec width =>
    refine sound_list ?_
    simp only [List.forall_mem_cons]
    exact ⟨sound_fixed (by decide +kernel), sound_fixed (by decide +kernel),
      sound_word (sound_natCast width), nofun⟩
  | array index element hi he =>
    refine sound_list ?_
    simp only [List.forall_mem_cons]
    exact ⟨sound_fixed (by decide +kernel), hi, he, nofun⟩
  | _ => exact sound_fixed (by decide +kernel)

theorem Operator.symbol?_mem {op : Operator} {w : String} (h : op.symbol? = some w) :
    w ∈ keywords :=
  List.mem_append_right _ (List.mem_filterMap.2 ⟨op.read, Operator.read_mem h⟩)

theorem sound_symbol (op : Operator) {w : String} (h : op.symbol? = some w) :
    ∀ v ∈ (SExpr.word w).words, Sound signed fs v :=
  sound_fixed (Operator.symbol?_mem h)

/-- The words at the head of a node. -/
theorem Label.sound_expr (hfs : Legible signed fs) (hx : (Tree.node l k xs).WellSorted)
    (hover : (Tree.node l k xs).Over fs)
    (hsigns : signed = false → (Tree.node l k xs).Nonnegative) :
    ∀ w ∈ (l.expr k).words, Sound signed fs w := by
  have hself := Tree.occurs_self (.node l k xs)
  cases l with
  | apply f =>
    have hf := hover.symbols _ hself f rfl
    exact sound_word ⟨(hfs.symbol f hf).isWord, fun _ => .inr ⟨f, hf, rfl⟩⟩
  | op o =>
    cases hsymbol : o.symbol? with
    | some w =>
      rw [expr_symbol hsymbol]
      exact sound_symbol o hsymbol
    | none =>
      cases o with
      | int z =>
        rw [expr]
        split
        · refine sound_list ?_
          simp only [List.forall_mem_cons]
          exact ⟨sound_symbol (.arith .neg) rfl, sound_word (sound_natCast _), nofun⟩
        · exact sound_word (sound_intCast fun _ => by omega)
      | real q =>
        refine sound_list ?_
        simp only [List.forall_mem_cons]
        exact ⟨sound_symbol (.arith .div) rfl, sound_word (sound_intCast fun hs =>
          Rat.num_nonneg.2 (hsigns hs _ hself q rfl)), sound_word (sound_natCast _), nofun⟩
      | bits value width =>
        refine sound_list ?_
        simp only [List.forall_mem_cons]
        exact ⟨sound_fixed (by decide +kernel), sound_word (sound_bits value),
          sound_word (sound_natCast width), nofun⟩
      | extract high low =>
        refine sound_list ?_
        simp only [List.forall_mem_cons]
        exact ⟨sound_fixed (by decide +kernel), sound_fixed (by decide +kernel),
          sound_word (sound_natCast high), sound_word (sound_natCast low), nofun⟩
      | constArray =>
        refine sound_list ?_
        simp only [List.forall_mem_cons]
        exact ⟨sound_fixed (by decide +kernel), sound_fixed (by decide +kernel), k.sound_expr,
          nofun⟩
      | apply d =>
        obtain ⟨name, hd⟩ := (Tree.wellSorted_node.1 hx).1
        cases hd
      | bound | quantifier => cases hover.free _ hself
      | _ => cases hsymbol

theorem Tree.sound_expr (hfs : Legible signed fs) (hx : x.WellSorted)
    (hover : x.Over fs) (hsigns : signed = false → x.Nonnegative) :
    ∀ w ∈ x.expr.words, Sound signed fs w := by
  induction x using Tree.induction with
  | step l k xs ih =>
    have hhead := l.sound_expr hfs hx hover hsigns
    rw [expr_node]
    split
    · exact hhead
    · refine sound_list ?_
      simp only [List.forall_mem_cons, List.forall_mem_map]
      exact ⟨hhead, fun x hmem => ih x hmem ((wellSorted_node.1 hx).2 x hmem) (hover.arg hmem)
        fun hs => (hsigns hs).arg hmem⟩

end FormulaStack
