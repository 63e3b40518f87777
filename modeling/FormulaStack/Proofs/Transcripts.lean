import FormulaStack.Proofs.Spellings

/-!
Transcripts. How terms are read from texts of SMT-LIB, and that the text of a term reads back as one
with the same value under every interpretation.
-/
namespace FormulaStack

open SExpr Word

/-- The sort that an expression is; a vector has bits. -/
def TermSort.read? : SExpr → Option TermSort
  | .word "Bool" => some .bool
  | .word "Int" => some .int
  | .word "Real" => some .real
  | .list [.word "_", .word "BitVec", .word w] =>
    ((numeral? w.toList).filter (0 < ·)).map .bitvec
  | .list [.word "Array", i, e] => do return .array (← read? i) (← read? e)
  | _ => none

/-- What can be applied to terms. -/
inductive Identifier where
  | symbol (w : String)
  | extract (high low : Nat)
  | bits (value width : Nat)
  | const (sort : TermSort)

namespace Identifier

def read? : SExpr → Option Identifier
  | .word w => some (.symbol w)
  | .list [.word "_", .word "extract", .word high, .word low] => do
    return .extract (← numeral? high.toList) (← numeral? low.toList)
  | .list [.word "_", .word value, .word width] => do
    return .bits (← bits? value) (← numeral? width.toList)
  | .list [.word "as", .word "const", k] => (TermSort.read? k).map .const
  | _ => none

/-- A term over others, where an identifier takes their sorts. -/
def applied? (fs : List Signature) (xs : List Tree) : Identifier → Option Tree
  | symbol w =>
    match fs.find? (·.name = w) with
    | some f => if xs.map Tree.sort = f.domain then some (.node (.apply f) f.range xs) else none
    | none => (rank? w (xs.map Tree.sort)).map fun (op, k) => .node (.op op) k xs
  | extract high low =>
    ((Operator.extract high low).result? (xs.map Tree.sort)).map fun k =>
      .node (.op (.extract high low)) k xs
  | bits value width =>
    if xs.isEmpty ∧ 0 < width ∧ value < 2 ^ width then
      some (.node (.op (.bits value width)) (.bitvec width) [])
    else none
  | const (.array i e) =>
    if xs.map Tree.sort = [e] then some (.node (.op .constArray) (.array i e) xs) else none
  | const _ => none

end Identifier

namespace SExpr

mutual
/-- The terms that an expression over some symbols can be, those with integers before those with
real numbers. -/
def readings (signed : Bool) (fs : List Signature) : SExpr → List Tree
  | .word w =>
    match number? signed w with
    | some z => [.node (.op (.int z)) .int [], .node (.op (.real z)) .real []]
    | none => ((Identifier.symbol w).applied? fs []).toList
  | .list [] => []
  | .list (h :: es) =>
    match Identifier.read? (.list (h :: es)), Identifier.read? h with
    | some i, _ => (i.applied? fs []).toList
    | none, some i =>
      if es.isEmpty then [] else (allReadings signed fs es).filterMap fun xs => i.applied? fs xs
    | none, none => []

/-- The lists of terms that a list of expressions can be. -/
def allReadings (signed : Bool) (fs : List Signature) : List SExpr → List (List Tree)
  | [] => [[]]
  | e :: es => (readings signed fs e).flatMap fun x =>
      (allReadings signed fs es).map fun xs => x :: xs
end

end SExpr

/-- The term that a text is. -/
def Tree.read? (signed : Bool) (fs : List Signature) (text : String) : Option Tree := do
  (readings signed fs (← SExpr.read? text)).head?

variable {signed : Bool} {fs : List Signature} {i : Identifier} {e h : SExpr} {es : List SExpr}
  {l : Label} {k : TermSort} {x y : Tree} {xs ys : List Tree}

/-! What identifiers are read as -/

theorem TermSort.positive_of_read? {k' : TermSort} (h : read? k.expr = some k') : k.Positive := by
  induction k generalizing k' with
  | bitvec width =>
    simp only [expr, read?, toList_toString, numeral?_toDigits, Option.map_eq_some_iff,
      Option.filter_eq_some_iff, decide_eq_true_eq] at h
    obtain ⟨_, ⟨hwidth, hpos⟩, -⟩ := h
    cases hwidth
    exact hpos
  | array index element hi he =>
    simp only [expr, read?, Option.bind_eq_bind, Option.bind_eq_some_iff] at h
    obtain ⟨_, hindex, _, helement, -⟩ := h
    exact ⟨hi hindex, he helement⟩
  | _ => trivial

theorem TermSort.read?_expr (hk : k.Positive) : read? k.expr = some k := by
  induction k with
  | bitvec width =>
    have hwidth : 0 < width := hk
    simp [expr, read?, numeral?_toDigits, hwidth]
  | array index element hi he =>
    obtain ⟨hindex, helement⟩ := hk
    simp [expr, read?, hi hindex, he helement]
  | _ => rfl

/-- No symbol has the name of an operator. -/
theorem Legible.find?_eq_none (hfs : Legible signed fs) (o : Operator) {w : String}
    (hw : o.symbol? = some w) : fs.find? (·.name = w) = none := by
  refine List.find?_eq_none.2 fun f hf hname => ?_
  obtain ⟨hop, hsymbol⟩ := Operator.read_mem hw
  exact hfs.other f hf _ hop (by simpa [hsymbol] using (of_decide_eq_true hname).symm)

namespace Identifier

theorem applied?_operator {o : Operator} {w : String} (hfs : Legible signed fs)
    (hw : o.symbol? = some w) (hfits : o.Fits (fun _ => none) (ys.map Tree.sort) k)
    (hadd : o = .arith .add → 2 ≤ ys.length) :
    (symbol w).applied? fs ys = some (.node (.op o.read) k ys) := by
  simp [applied?, hfs.find?_eq_none o hw, rank?_of_fits hfits hw (by simpa using hadd)]

theorem applied?_function {f : Signature} (hfs : Legible signed fs) (hf : f ∈ fs)
    (hys : ys.map Tree.sort = f.domain) :
    (symbol f.name).applied? fs ys = some (.node (.apply f) f.range ys) := by
  have hfound : fs.find? (·.name = f.name) = some f := by
    cases hg : fs.find? (·.name = f.name) with
    | none => simpa using List.find?_eq_none.1 hg f hf
    | some g =>
      have hname : g.name = f.name := by simpa using List.find?_some hg
      rw [hfs.different g (List.mem_of_find?_eq_some hg) f hf hname]
  simp [applied?, hfound, hys]

end Identifier

namespace SExpr

/-- The first reading of an expression. -/
def Reads (signed : Bool) (fs : List Signature) (e : SExpr) (y : Tree) : Prop :=
  ∃ ys, readings signed fs e = y :: ys

theorem reads_all (h : List.Forall₂ (Reads signed fs) es ys) :
    ∃ yss, allReadings signed fs es = ys :: yss := by
  induction h with
  | nil => exact ⟨[], rfl⟩
  | cons hy _ ih =>
    obtain ⟨rest, hy⟩ := hy
    obtain ⟨yss, hys⟩ := ih
    exact ⟨_, by rw [allReadings, hy, hys]; rfl⟩

/-- A list that starts with no word of the language applies what it starts with. -/
theorem readings_list (hword : ∀ w, h = .word w → w ≠ "_" ∧ w ≠ "as") (e : SExpr)
    (es : List SExpr) :
    readings signed fs (.list (h :: e :: es)) = (Identifier.read? h).elim [] fun i =>
      (allReadings signed fs (e :: es)).filterMap fun xs => i.applied? fs xs := by
  have hnone : Identifier.read? (.list (h :: e :: es)) = none := by
    unfold Identifier.read?
    split <;> simp_all
  rw [readings, hnone]
  cases Identifier.read? h <;> rfl

/-- What is made of the first readings of the arguments is the first reading of an application. -/
theorem reads_application (i : Identifier) (hi : Identifier.read? h = some i)
    (hword : ∀ w, h = .word w → number? signed w = none ∧ w ≠ "_" ∧ w ≠ "as")
    (hes : List.Forall₂ (Reads signed fs) es ys) (hy : i.applied? fs ys = some y) :
    Reads signed fs (if es.isEmpty then h else .list (h :: es)) y := by
  cases hes with
  | nil =>
    refine ⟨[], ?_⟩
    cases h with
    | word w =>
      cases hi
      simp [readings, (hword w rfl).1, hy]
    | list es =>
      cases es with
      | nil => cases hi
      | cons h es => simp [readings, hi, hy]
  | cons he hes =>
    obtain ⟨yss, hall⟩ := reads_all (.cons he hes)
    refine ⟨yss.filterMap fun xs => i.applied? fs xs, ?_⟩
    simp [readings_list fun w hw => (hword w hw).2, hi, hall, hy]

/-- An argument that cannot be read leaves nothing to be read. -/
theorem allReadings_eq_nil (he : e ∈ es) (h : readings signed fs e = []) :
    allReadings signed fs es = [] := by
  induction es with
  | nil => simp at he
  | cons e' es ih =>
    obtain rfl | he := List.mem_cons.1 he
    · simp [allReadings, h]
    · simp [allReadings, ih he]

end SExpr

/-! Trees that agree -/

/-- A term of the sort of another, with the same value under every interpretation. -/
structure Tree.Agrees (x y : Tree) : Prop where
  wellSorted : y.WellSorted
  sort : y.sort = x.sort
  value : ∀ (A : TermSort → TermSort → Type) (M : Structure A), y.value M = x.value M

namespace Tree

theorem Agrees.map_sort (h : List.Forall₂ Agrees xs ys) : ys.map Tree.sort = xs.map Tree.sort := by
  induction h with
  | nil => rfl
  | cons hy _ ih => rw [List.map_cons, List.map_cons, hy.sort, ih]

theorem Agrees.map_value (h : List.Forall₂ Agrees xs ys) {A : TermSort → TermSort → Type}
    (M : Structure A) : ys.map (Tree.value M) = xs.map (Tree.value M) := by
  induction h with
  | nil => rfl
  | cons hy _ ih => rw [List.map_cons, List.map_cons, hy.value, ih]

/-- Nodes agree if their arguments do. -/
theorem Agrees.node (hx : (node l k xs).WellSorted) (h : List.Forall₂ Agrees xs ys) :
    (node l k xs).Agrees (.node l k ys) where
  wellSorted := by
    refine wellSorted_node.2 ⟨Agrees.map_sort h ▸ (wellSorted_node.1 hx).1, fun y hy => ?_⟩
    obtain ⟨x, -, hxy⟩ := exists_related h y hy
    exact hxy.wellSorted
  sort := rfl
  value A M := by rw [value_node, value_node, Agrees.map_value h]

theorem Agrees.trans {z : Tree} (h : x.Agrees y) (g : y.Agrees z) : x.Agrees z :=
  ⟨g.wellSorted, g.sort.trans h.sort, fun A M => (g.value A M).trans (h.value A M)⟩

theorem Agrees.refl (hx : x.WellSorted) : x.Agrees x := ⟨hx, rfl, fun _ _ => rfl⟩

/-- An equivalence agrees with the equation that is read. -/
theorem agrees_read {o : Operator} (hx : (node (.op o) k xs).WellSorted) :
    (node (.op o) k xs).Agrees (node (.op o.read) k xs) := by
  by_cases ho : o = .iff
  · subst ho
    obtain ⟨⟨hsorts, rfl⟩, hargs⟩ := wellSorted_node.1 hx
    obtain ⟨a, _, rfl, ha, hrest⟩ := List.map_eq_cons_iff.1 hsorts
    obtain ⟨b, _, rfl, hb, hnil⟩ := List.map_eq_cons_iff.1 hrest
    obtain rfl := List.map_eq_nil_iff.1 hnil
    have ha : a.Proposition := ⟨hargs a (by simp), ha⟩
    have hb : b.Proposition := ⟨hargs b (by simp), hb⟩
    have heq : (connective .eq [a, b]).Proposition :=
      .of_fits ⟨⟨.bool, hsorts⟩, rfl⟩ hargs
    refine ⟨heq.wellSorted, rfl, fun A M => funext fun ρ => ?_⟩
    have hvalue := value_eq_truth M ρ (x := connective .iff [a, b]) ⟨hx, rfl⟩
    rw [truth_iff ha hb, ← truth_eq ha hb, ← value_eq_truth M ρ heq] at hvalue
    exact hvalue.symm
  · have hread : o.read = o := by
      cases o <;> first | rfl | exact absurd rfl ho
    rw [hread]
    exact .refl hx

end Tree

/-! What the expression of a tree is read as -/

/-- A literal as a tree. -/
def Tree.integer (z : Int) : Tree := .node (.op (.int z)) .int []

def Tree.rational (q : Rat) : Tree := .node (.op (.real q)) .real []

theorem Legible.name_plain {f : Signature} (hfs : Legible signed fs) (hf : f ∈ fs) :
    number? signed f.name = none ∧ f.name ≠ "_" ∧ f.name ≠ "as" := by
  have hreserved := hfs.unreserved f hf
  refine ⟨?_, fun h => hreserved (h ▸ by decide), fun h => hreserved (h ▸ by decide)⟩
  cases signed with
  | true => exact hfs.unsigned rfl f hf
  | false => exact (hfs.symbol f hf).number?_eq_none

theorem Operator.symbol_plain {o : Operator} {w : String} (h : o.symbol? = some w) (signed : Bool) :
    number? signed w = none ∧ w ≠ "_" ∧ w ≠ "as" := by
  have hother : ∀ op ∈ ofSymbols, op.symbol? ≠ some "_" ∧ op.symbol? ≠ some "as" := by
    decide +kernel
  obtain ⟨hop, hw⟩ := Operator.read_mem h
  obtain ⟨hblank, has⟩ := hother _ hop
  obtain ⟨-, -, hnumber⟩ := keyword_plain w (symbol?_mem h)
  exact ⟨number?_eq_none hnumber signed, fun heq => hblank (heq ▸ hw), fun heq => has (heq ▸ hw)⟩

/-- An operator over terms that can be written is read as one with the same value. -/
theorem Operator.reads {o : Operator} {w : String} (hfs : Legible signed fs)
    (hw : o.symbol? = some w) (hx : (Tree.node (.op o) k xs).WellSorted)
    (hadd : o = .arith .add → 2 ≤ xs.length) (hes : List.Forall₂ (Reads signed fs) es ys)
    (hys : List.Forall₂ Tree.Agrees xs ys) :
    Reads signed fs (if es.isEmpty then .word w else .list (.word w :: es))
        (.node (.op o.read) k ys) ∧
      (Tree.node (.op o) k xs).Agrees (.node (.op o.read) k ys) := by
  have hnode := Tree.Agrees.node hx hys
  refine ⟨reads_application (.symbol w) rfl ?_ hes ?_,
    hnode.trans (Tree.agrees_read hnode.wellSorted)⟩
  · rintro _ ⟨⟩
    exact symbol_plain hw signed
  · exact Identifier.applied?_operator hfs hw (Tree.wellSorted_node.1 hnode.wellSorted).1
      fun h => hys.length_eq ▸ hadd h

theorem readings_number {w : String} {z : Int} (h : number? signed w = some z) :
    readings signed fs (.word w) = [.integer z, .rational z] := by
  rw [readings, h]
  rfl

theorem Tree.wellSorted_integer (z : Int) : (integer z).WellSorted :=
  wellSorted_node.2 ⟨⟨rfl, rfl⟩, nofun⟩

theorem Tree.wellSorted_rational (q : Rat) : (rational q).WellSorted :=
  wellSorted_node.2 ⟨⟨rfl, rfl⟩, nofun⟩

/-- A negative integer is written as a negation. -/
theorem Tree.reads_integer (hfs : Legible signed fs) (z : Int) :
    ∃ y, (integer z).expr.Reads signed fs y ∧ (integer z).Agrees y := by
  cases z with
  | ofNat n =>
    have hread : readings signed fs (.word (toString (n : Int))) = _ :=
      readings_number (number?_natCast signed n)
    exact ⟨_, ⟨_, hread⟩, .refl (wellSorted_integer n)⟩
  | negSucc n =>
    have hread : readings signed fs (.word (toString ((n + 1 : Nat) : Int))) = _ :=
      readings_number (number?_natCast signed (n + 1))
    have hx : (node (.op (.arith .neg)) .int [integer (n + 1 : Nat)]).WellSorted :=
      wellSorted_node.2 ⟨⟨.inl rfl, rfl⟩, by simp [wellSorted_integer]⟩
    obtain ⟨hreads, hagrees⟩ := Operator.reads hfs rfl hx nofun (.cons ⟨_, hread⟩ .nil)
      (.cons (.refl (wellSorted_integer _)) .nil)
    have hexpr : (integer (Int.negSucc n)).expr =
        .list [.word "-", .word (toString ((n + 1 : Nat) : Int))] := if_pos (Int.negSucc_lt_zero n)
    refine ⟨_, by rwa [hexpr], hx, rfl, fun A M => funext fun ρ => ?_⟩
    simp [value_node, integer, Structure.ofNode, Operator.standard?,
      ArithOp.standard?, Int.negSucc_eq]

/-- A quotient of numerals is one of real numbers. -/
theorem readings_quotient (hfs : Legible signed fs) {v w : String} {a b : Int}
    (hv : number? signed v = some a) (hw : number? signed w = some b) :
    readings signed fs (.list [.word "/", .word v, .word w]) =
      [.node (.op (.arith .div)) .real [.rational a, .rational b]] := by
  have hnone : fs.find? (·.name = "/") = none := hfs.find?_eq_none (.arith .div) rfl
  have hrank : rank? "/" [.real, .real] = some (.arith .div, .real) ∧
      rank? "/" [.int, .real] = none ∧ rank? "/" [.real, .int] = none ∧
      rank? "/" [.int, .int] = none := by decide +kernel
  obtain ⟨hreal, hleft, hright, hint⟩ := hrank
  have hall : allReadings signed fs [.word v, .word w] =
      [[.integer a, .integer b], [.integer a, .rational b], [.rational a, .integer b],
        [.rational a, .rational b]] := by
    simp [allReadings, readings_number hv, readings_number hw]
  simp [readings, Identifier.read?, hall, Identifier.applied?, hnone, Tree.integer, Tree.rational,
    Tree.sort, hreal, hleft, hright, hint]

/-- A rational number is written as a quotient. -/
theorem Tree.reads_rational (hfs : Legible signed fs) {q : Rat} (hq : signed = false → 0 ≤ q) :
    ∃ y, (rational q).expr.Reads signed fs y ∧ (rational q).Agrees y := by
  have hnum : number? signed (toString q.num) = some q.num := by
    cases signed with
    | true => exact number?_toString q.num
    | false =>
      obtain ⟨n, hn⟩ := Int.eq_ofNat_of_zero_le (Rat.num_nonneg.2 (hq rfl))
      rw [hn]
      exact number?_natCast false n
  have hden : number? signed (toString q.den) = some (q.den : Int) := number?_natCast signed q.den
  refine ⟨_, ⟨[], readings_quotient hfs hnum hden⟩, ?_, rfl, fun A M => funext fun ρ => ?_⟩
  · exact wellSorted_node.2 ⟨⟨rfl, rfl⟩, by simp [wellSorted_rational]⟩
  · have hquotient : (q.num : ℝ) / q.den = q := (Rat.cast_def q).symm
    have hpositive : q.den ≠ 0 := q.den_nz
    simp [value_node, rational, Structure.ofNode, Operator.standard?, ArithOp.standard?,
      hpositive, hquotient]

/-- Reading the expression of a tree. -/
theorem Tree.reads_expr (hfs : Legible signed fs) (hx : x.WellSorted) (hover : x.Over fs)
    (h : x.Readable signed) : ∃ y, x.expr.Reads signed fs y ∧ x.Agrees y := by
  induction x using Tree.induction with
  | step l k xs ih =>
    obtain ⟨hfits, hargs⟩ := wellSorted_node.1 hx
    obtain ⟨hsums, hwidths, hsigns, hreadable⟩ := readable_node.1 h
    have hself := occurs_self (node l k xs)
    obtain ⟨ys, hys⟩ := exists_forall₂ fun x hmem =>
      ih x hmem (hargs x hmem) (hover.arg hmem) (hreadable x hmem)
    have hreads : List.Forall₂ (Reads signed fs) (xs.map expr) ys :=
      List.forall₂_map_left_iff.2 (hys.imp fun _ _ hy => hy.1)
    have hagrees : List.Forall₂ Agrees xs ys := hys.imp fun _ _ hy => hy.2
    have hsorts := Agrees.map_sort hagrees
    have hnode := Agrees.node hx hagrees
    have hform : (node l k xs).expr = if (xs.map expr).isEmpty then l.expr k
        else .list (l.expr k :: xs.map expr) := by rw [expr_node, List.isEmpty_map]
    cases l with
    | apply f =>
      have hf := hover.symbols _ hself f rfl
      obtain ⟨hdomain, rfl⟩ := hfits
      refine ⟨_, ?_, hnode⟩
      rw [hform]
      refine reads_application (.symbol f.name) rfl ?_ hreads
        (Identifier.applied?_function hfs hf (hsorts.trans hdomain))
      rintro _ ⟨⟩
      exact hfs.name_plain hf
    | op o =>
      cases hsymbol : o.symbol? with
      | some w =>
        rw [hform, Label.expr_symbol hsymbol]
        exact ⟨_, Operator.reads hfs hsymbol hx (fun ho => hsums (congrArg _ ho)) hreads
          hagrees⟩
      | none =>
        have hlist : ∀ {es : List SExpr} (w : String), SExpr.list es = .word w →
            number? signed w = none ∧ w ≠ "_" ∧ w ≠ "as" := by
          rintro _ _ ⟨⟩
        cases o with
        | int z =>
          obtain ⟨hnil, rfl⟩ := hfits
          obtain rfl := List.map_eq_nil_iff.1 hnil
          exact reads_integer hfs z
        | real q =>
          obtain ⟨hnil, rfl⟩ := hfits
          obtain rfl := List.map_eq_nil_iff.1 hnil
          exact reads_rational hfs fun hs => hsigns hs q rfl
        | bits value width =>
          obtain ⟨hnil, hwidth, hvalue, rfl⟩ := hfits
          obtain rfl := List.map_eq_nil_iff.1 hnil
          cases hagrees
          have hbits : bits? ("bv" ++ value.repr) = some value := bits?_append value
          refine ⟨_, ?_, hnode⟩
          rw [hform]
          refine reads_application (.bits value width) ?_ hlist hreads ?_
          · simp [Label.expr, Identifier.read?, hbits, numeral?_toDigits]
          · simp [Identifier.applied?, hwidth, hvalue]
        | extract high low =>
          obtain ⟨hle, ⟨w, hw, hbits⟩, rfl⟩ := hfits
          refine ⟨_, ?_, hnode⟩
          rw [hform]
          refine reads_application (.extract high low) ?_ hlist hreads ?_
          · simp [Label.expr, Identifier.read?, numeral?_toDigits]
          · simp [Identifier.applied?, hsorts, hbits, Operator.result?, hle, hw]
        | constArray =>
          obtain ⟨i, e, helement, rfl⟩ := hfits
          have hpositive : (TermSort.array i e).Positive := hwidths rfl
          refine ⟨_, ?_, hnode⟩
          rw [hform]
          refine reads_application (.const (.array i e)) ?_ hlist hreads ?_
          · simp [Label.expr, Identifier.read?, TermSort.read?_expr hpositive]
          · simp [Identifier.applied?, hsorts, helement]
        | apply d =>
          obtain ⟨name, hd⟩ := hfits
          cases hd
        | bound | quantifier => cases hover.free _ hself
        | _ => cases hsymbol

/-! What is not read -/

/-- A word that is a number only if signs are allowed is none of a symbol or an operator. -/
theorem readings_signed {w : String} {z : Int} (h : number? false w = none)
    (hsigned : number? true w = some z) (hnames : ∀ f ∈ fs, number? true f.name = none) :
    readings false fs (.word w) = [] := by
  have hfound : fs.find? (·.name = w) = none := by
    refine List.find?_eq_none.2 fun f hf hname => ?_
    obtain rfl : f.name = w := of_decide_eq_true hname
    cases (hnames f hf).symm.trans hsigned
  have hrank : rank? w [] = none := rank?_eq_none fun op _ hw => by
    cases (Operator.symbol_plain hw true).1.symm.trans hsigned
  simp [readings, h, Identifier.applied?, hfound, hrank]

theorem Tree.readings_negative {q : Rat} (hq : q < 0)
    (hnames : ∀ f ∈ fs, number? true f.name = none) :
    readings false fs (rational q).expr = [] := by
  have hnum : readings false fs (.word (toString q.num)) = [] :=
    readings_signed (number?_negative (Rat.num_neg.2 hq)) (number?_toString q.num) hnames
  have hall : allReadings false fs [.word (toString q.num), .word (toString q.den)] = [] :=
    allReadings_eq_nil List.mem_cons_self hnum
  change readings false fs (.list [.word "/", .word _, .word _]) = []
  rw [readings_list (by rintro _ ⟨⟩; decide), hall]
  rfl

theorem readings_sum (hfs : Legible signed fs) (e : SExpr) :
    readings signed fs (.list [.word "+", e]) = [] := by
  have hfound : fs.find? (·.name = "+") = none := hfs.find?_eq_none (.arith .add) rfl
  have hnone : ∀ y : Tree, (Identifier.symbol "+").applied? fs [y] = none := fun y => by
    simp [Identifier.applied?, hfound, rank?_sum]
  simp +contextual [readings_list, Identifier.read?, allReadings, hnone]

theorem readings_bitless (hk : ¬k.Positive) (e : SExpr) :
    readings signed fs (.list [.list [.word "as", .word "const", k.expr], e]) = [] := by
  have hnone : TermSort.read? k.expr = none :=
    Option.eq_none_iff_forall_ne_some.2 fun _ hread => hk (TermSort.positive_of_read? hread)
  simp [readings_list, Identifier.read?, hnone]

/-- What stands in front of arguments is no word of the language. -/
theorem Label.head_plain (hfs : Legible signed fs) (hx : (Tree.node l k (x :: xs)).WellSorted)
    (hover : (Tree.node l k (x :: xs)).Over fs) :
    ∀ w, l.expr k = .word w → w ≠ "_" ∧ w ≠ "as" := by
  have hself := Tree.occurs_self (.node l k (x :: xs))
  have hfits := (Tree.wellSorted_node.1 hx).1
  cases l with
  | apply f =>
    rintro _ ⟨⟩
    exact (hfs.name_plain (hover.symbols _ hself f rfl)).2
  | op o =>
    cases hsymbol : o.symbol? with
    | some w =>
      rw [expr_symbol hsymbol]
      rintro _ ⟨⟩
      exact (Operator.symbol_plain hsymbol signed).2
    | none =>
      cases o with
      | int => cases hfits.1
      | real | bits | extract | constArray => exact nofun
      | apply =>
        obtain ⟨name, hd⟩ := hfits
        cases hd
      | bound | quantifier => cases hover.free _ hself
      | _ => cases hsymbol

theorem Tree.readings_argument (hfs : Legible signed fs) (hx : (node l k xs).WellSorted)
    (hover : (node l k xs).Over fs) (hmem : x ∈ xs) (h : readings signed fs x.expr = []) :
    readings signed fs (node l k xs).expr = [] := by
  have hall := allReadings_eq_nil (List.mem_map_of_mem hmem) h
  cases xs with
  | nil => simp at hmem
  | cons y ys =>
    rw [expr_node, if_neg (by simp), List.map_cons,
      readings_list (Label.head_plain hfs hx hover), ← List.map_cons, hall]
    cases Identifier.read? (l.expr k) <;> rfl

/-- A tree that is not readable is not read. -/
theorem Tree.readable_of_readings (hfs : Legible signed fs)
    (hnames : ∀ f ∈ fs, number? true f.name = none) (hx : x.WellSorted) (hover : x.Over fs)
    (h : readings signed fs x.expr ≠ []) : x.Readable signed := by
  induction x using Tree.induction with
  | step l k xs ih =>
    obtain ⟨hfits, hargs⟩ := wellSorted_node.1 hx
    refine readable_node.2 ⟨?_, ?_, ?_, fun x hmem => ?_⟩
    · rintro rfl
      obtain ⟨-, hne, -⟩ := hfits
      obtain _ | ⟨y, _ | ⟨z, ys⟩⟩ := xs
      · simp at hne
      · exact absurd (readings_sum hfs y.expr) h
      · simp
    · rintro rfl
      obtain ⟨i, e, helement, rfl⟩ := hfits
      obtain ⟨y, _, rfl, -, hrest⟩ := List.map_eq_cons_iff.1 helement
      obtain rfl := List.map_eq_nil_iff.1 hrest
      exact not_not.1 fun hpositive => h (readings_bitless hpositive y.expr)
    · rintro rfl q rfl
      obtain ⟨hnil, rfl⟩ := hfits
      obtain rfl := List.map_eq_nil_iff.1 hnil
      exact not_lt.1 fun hq => h (readings_negative hq hnames)
    · exact ih x hmem (hargs x hmem) (hover.arg hmem) fun hnil =>
        h (readings_argument hfs hx hover hmem hnil)

/-! Texts of formulas -/

namespace Environment

variable {env : Environment} {f : Formula}

/-- The text of a formula without quantifiers and bound variables over legible symbols is one of a
term, in which all numbers are numerals, and it reads back as a term of the same sort with the same
value under every interpretation. That is so unless the formula has a negative real literal, a sum
of one term or a constant array with vectors of no bits. Then the text is none of a term, except
that readers that take signs read negative literals, as do those that know symbols of such names. -/
theorem dump_reads_back (henv : env.Proper) (hf : env.Types f) (hx : env.Shows f.term x)
    (hfs : Legible signed fs) (hover : x.Over fs) :
    ∃ text, env.dump f = .ok text ∧
      (x.Readable signed →
        (∃ e, SExpr.read? text = some e ∧ ∀ w ∈ e.words, Unsigned signed fs w) ∧
        ∃ y, Tree.read? signed fs text = some y ∧ x.Agrees y) ∧
      (¬x.Readable signed → (∀ g ∈ fs, number? true g.name = none) →
        Tree.read? signed fs text = none) := by
  have hsorted := henv.wellFormed.wellSorted_of_tree? hx
  refine ⟨x.expr.text, ?_, fun hreadable => ?_, fun hreadable hnames => ?_⟩
  · rw [dump, hf.unwrap_eq]
    exact henv.wellFormed.dump_eq_text hx hover.free
  · have hsound := Tree.sound_expr hfs hsorted hover hreadable.signs
    have hread := SExpr.read?_text fun w hmem => (hsound w hmem).1
    obtain ⟨y, ⟨ys, hy⟩, hagrees⟩ := Tree.reads_expr hfs hsorted hover hreadable
    refine ⟨⟨_, hread, fun w hmem => (hsound w hmem).2⟩, y, ?_, hagrees⟩
    simp [Tree.read?, hread, hy]
  · have hfs' : Legible true fs := { hfs with unsigned := fun _ => hnames }
    have hsound := Tree.sound_expr hfs' hsorted hover nofun
    have hread := SExpr.read?_text fun w hmem => (hsound w hmem).1
    have hnil : readings signed fs x.expr = [] := by
      by_contra hne
      exact hreadable (Tree.readable_of_readings hfs hnames hsorted hover hne)
    simp [Tree.read?, hread, hnil]

/-- An element of an array is a slice of a vector if and only if an integer is at least one and a
half. -/
def sliced : Environment :=
  { Environment.new 0 .everything false false false with
    terms := Store.empty.serveAll
      [.construct (.bits 5 8), .construct (.constArray .int ⟨0⟩), .construct (.numeral (-3) .int),
        .construct (.constant "v" (.bitvec 8)), .construct (.store ⟨1⟩ ⟨2⟩ ⟨3⟩),
        .construct (.constant "i" .int), .construct (.select ⟨4⟩ ⟨5⟩),
        .construct (.concat ⟨3⟩ ⟨3⟩), .construct (.extract 7 0 ⟨7⟩), .construct (.eq ⟨6⟩ ⟨8⟩),
        .construct (.numeral (mkRat 3 2) .real), .construct (.toReal ⟨5⟩),
        .construct (.compare .le (by decide) ⟨10⟩ ⟨11⟩), .construct (.iff ⟨9⟩ ⟨12⟩)] }

theorem dump_reads_back_sliced :
    let f : Formula := ⟨⟨13⟩, .boolean, 0, none⟩
    let fs : List Signature := [⟨"v", [], .bitvec 8⟩, ⟨"i", [], .int⟩]
    let text := "(= (= (select (store ((as const (Array Int (_ BitVec 8))) (_ bv5 8)) (- 3) v) i)" ++
      " ((_ extract 7 0) (concat v v))) (<= (/ 3 2) (to_real i)))"
    sliced.Proper ∧ sliced.Types f ∧ Legible false fs ∧ sliced.dump f = .ok text ∧
      ∃ x, sliced.Shows f.term x ∧ x.Over fs ∧ x.Readable false ∧
        ∃ y, Tree.read? false fs text = some y ∧ x.Agrees y := by
  intro f fs text
  let v : Tree := .node (.apply ⟨"v", [], .bitvec 8⟩) (.bitvec 8) []
  let i : Tree := .node (.apply ⟨"i", [], .int⟩) .int []
  let filled : Tree := .node (.op .constArray) (.array .int (.bitvec 8))
    [.node (.op (.bits 5 8)) (.bitvec 8) []]
  let selected : Tree := .node (.op .select) (.bitvec 8)
    [.node (.op .store) (.array .int (.bitvec 8)) [filled, .integer (-3), v], i]
  let slice : Tree := .node (.op (.extract 7 0)) (.bitvec 8)
    [.node (.op (.bitwise .concat)) (.bitvec 16) [v, v]]
  let x : Tree := .connective .iff [.connective .eq [selected, slice],
    .connective (.arith .le) [.rational (3 / 2), .node (.op (.arith .toReal)) .real [i]]]
  have hproper : sliced.Proper := ⟨Store.wellFormed_serveAll _, rfl⟩
  have hf : sliced.Types f := ⟨rfl, .bool, by decide +kernel, rfl⟩
  have hx : sliced.Shows f.term x := by
    unfold Shows
    decide +kernel
  have hfs : Legible false fs :=
    ⟨by decide +kernel, by decide +kernel, by decide +kernel, by decide +kernel, nofun⟩
  have hpositive : (0 : Rat) ≤ 3 / 2 := by decide +kernel
  have hover : x.Over fs := by
    constructor <;>
      simp [x, selected, slice, filled, v, i, fs, Tree.connective, Tree.integer, Tree.rational,
        Tree.occurs_node, Tree.label, Label.isBinding, or_imp, forall_and]
  have hreadable : x.Readable false := by
    simp [x, selected, slice, filled, v, i, Tree.connective, Tree.integer, Tree.rational,
      Tree.readable_node, TermSort.Positive, hpositive]
  have hdump : sliced.dump f = .ok text := by decide +kernel
  obtain ⟨t, ht, hread, -⟩ := dump_reads_back hproper hf hx hfs hover
  cases ht.symm.trans hdump
  exact ⟨hproper, hf, hfs, hdump, x, hx, hover, hreadable, (hread hreadable).2⟩

example : (Store.empty.serveAll [.construct (.numeral (-3 / 2) .real)]).dump ⟨0⟩ = .ok "(/ -3 2)" ∧
    Tree.read? false [] "(/ -3 2)" = none ∧ Tree.read? true [] "(/ -3 2)" =
      some (.node (.op (.arith .div)) .real [.rational (-3), .rational 2]) := by decide +kernel

end Environment
end FormulaStack
