import FormulaStack.Value
import FormulaStack.Proofs.Meaning
import Mathlib.Algebra.BigOperators.Ring.Finset
import Mathlib.Data.Rat.BigOperators
import Mathlib.Data.Rat.Cast.Order
import Mathlib.Algebra.Order.Archimedean.Real.Basic

/-!
What folding knows of single operators: from values that arguments are known to have, the value that
the standard meaning gives.
-/
namespace FormulaStack

open Meaning

/-- Whether a value is what a term means. -/
def Value.Denotes {A : TermSort → TermSort → Type} : Value → Meaning A → Prop
  | .truth b, .truth c => b = c
  | .number q, .integer z => q = z
  | .number q, .real r => (q : ℝ) = r
  | .bits n, .bits _ v => n = v.toNat
  | _, _ => False

/-- What folding knows of a term is what the term means. -/
def Known {A : TermSort → TermSort → Type} (v : Option Value) (d : Meaning A) : Prop :=
  ∀ x, v = some x → x.Denotes d

namespace Known

variable {A : TermSort → TermSort → Type} {v w : Option Value} {vs : List (Option Value)}

theorem truth {b c : Bool} (h : Known v (.truth b : Meaning A))
    (hv : Value.truth? v = some c) : c = b := by
  unfold Value.truth? at hv
  split at hv
  · cases hv
    exact h _ rfl
  · cases hv

theorem integer {z : ℤ} {q : ℚ} (h : Known v (.integer z : Meaning A))
    (hv : Value.number? v = some q) : q = z := by
  unfold Value.number? at hv
  split at hv
  · cases hv
    exact h _ rfl
  · cases hv

theorem real {r : ℝ} {q : ℚ} (h : Known v (.real r : Meaning A))
    (hv : Value.number? v = some q) : (q : ℝ) = r := by
  unfold Value.number? at hv
  split at hv
  · cases hv
    exact h _ rfl
  · cases hv

/-- What is known of several truth values. -/
theorem truths {bs : List Bool} (h : List.Forall₂ Known vs (bs.map (.truth : Bool → Meaning A)))
    {c : Bool} : ((vs.any (Value.truth? · == some c)) = true → c ∈ bs) ∧
      ((vs.all (Value.truth? · == some c)) = true → ∀ b ∈ bs, b = c) := by
  induction bs generalizing vs with
  | nil =>
    cases h
    simp
  | cons b bs ih =>
    obtain ⟨v, ws, hv, hws, rfl⟩ := List.forall₂_cons_right_iff.1 h
    obtain ⟨hany, hall⟩ := ih hws
    constructor
    · intro hc
      obtain hc | hc := Bool.or_eq_true_iff.1 (List.any_cons ▸ hc)
      · exact List.mem_cons.2 (.inl (hv.truth (eq_of_beq hc)))
      · exact List.mem_cons_of_mem b (hany hc)
    · intro hc
      obtain ⟨hb, hbs⟩ := Bool.and_eq_true_iff.1 (List.all_cons ▸ hc)
      intro x hx
      obtain rfl | hx := List.mem_cons.1 hx
      · exact (hv.truth (eq_of_beq hb)).symm
      · exact hall hbs x hx

theorem all {bs : List Bool} (h : List.Forall₂ Known vs (bs.map (.truth : Bool → Meaning A))) :
    Known (Value.all vs) (.truth (bs.all id) : Meaning A) := by
  intro x hx
  unfold Value.all at hx
  split at hx
  · next hany =>
    cases hx
    exact (List.all_eq_false.2 ⟨false, (truths h).1 hany, by simp⟩).symm
  · split at hx
    · next hall =>
      cases hx
      exact (List.all_eq_true.2 fun b hb => (truths h).2 hall b hb).symm
    · cases hx

theorem any {bs : List Bool} (h : List.Forall₂ Known vs (bs.map (.truth : Bool → Meaning A))) :
    Known (Value.any vs) (.truth (bs.any id) : Meaning A) := by
  intro x hx
  unfold Value.any at hx
  split at hx
  · next hany =>
    cases hx
    exact (List.any_eq_true.2 ⟨true, (truths h).1 hany, rfl⟩).symm
  · split at hx
    · next hall =>
      cases hx
      refine (List.any_eq_false.2 fun b hb => ?_).symm
      rw [(truths h).2 hall b hb]
      simp
    · cases hx

/-- What is read from each of several operands. -/
theorem read {α β : Type} {make : α → Meaning A} {get? : Option Value → Option β}
    {R : α → β → Prop} (hget : ∀ {v a b}, Known v (make a) → get? v = some b → R a b) {as : List α}
    {bs : List β} (h : List.Forall₂ Known vs (as.map make)) (hbs : vs.mapM get? = some bs) :
    List.Forall₂ R as bs :=
  (forall₂_comp (List.forall₂_map_right_iff.1 h) (mapM_eq_some.1 hbs)).imp
    fun _ _ ⟨_, hknown, hb⟩ => hget hknown hb

theorem numbers_integer {zs : List ℤ} {qs : List ℚ}
    (h : List.Forall₂ Known vs (zs.map (.integer : ℤ → Meaning A)))
    (hq : vs.mapM Value.number? = some qs) : qs = zs.map (↑) :=
  eq_map_of_forall₂ (read integer h hq)

theorem numbers_real {rs : List ℝ} {qs : List ℚ}
    (h : List.Forall₂ Known vs (rs.map (.real : ℝ → Meaning A)))
    (hq : vs.mapM Value.number? = some qs) : rs = qs.map (↑) :=
  eq_map_of_forall₂ ((read real h hq).flip.imp fun _ _ hr => hr.symm)

theorem eq_singleton {α : Type} {as : List α} {k l : TermSort}
    (h : List.replicate as.length k = [l]) : ∃ a, as = [a] := by
  have hlen : as.length = 1 := by simpa using congrArg List.length h
  exact List.length_eq_one_iff.1 hlen

theorem eq_pair {α : Type} {as : List α} {k l m : TermSort}
    (h : List.replicate as.length k = [l, m]) : ∃ a b, as = [a, b] := by
  have hlen : as.length = 2 := by simpa using congrArg List.length h
  exact List.length_eq_two.1 hlen

/-- Arithmetic on integers. -/
theorem arith_integer {op : ArithOp} {zs : List ℤ} {k : TermSort}
    (h : List.Forall₂ Known vs (zs.map (.integer : ℤ → Meaning A)))
    (hop : op.Fits (List.replicate zs.length .int) k) {x : Value}
    (hx : (vs.mapM Value.number?).bind (Value.arith op) = some x) :
    ∃ d : Meaning A, op.standard? (zs.map .integer) = some d ∧ x.Denotes d := by
  obtain ⟨qs, hqs, hx⟩ := Option.bind_eq_some_iff.1 hx
  rw [numbers_integer h hqs] at hx
  cases op with
  | add =>
    obtain ⟨-, hne, -⟩ := hop
    cases zs with
    | nil => simp at hne
    | cons z zs =>
      cases hx
      refine ⟨.integer (z + zs.sum), ?_, ?_⟩
      · rw [List.map_cons, ArithOp.standard?,
          mapM_map .integer integer? fun _ => rfl]
        rfl
      · rw [← List.sum_eq_foldr]
        simp [Value.Denotes, Int.cast_list_sum]
  | neg =>
    obtain ⟨a, rfl⟩ := eq_singleton hop.2
    cases hx
    exact ⟨.integer (-a), rfl, by simp [Value.Denotes]⟩
  | sub =>
    obtain ⟨a, b, rfl⟩ := eq_pair hop.2
    cases hx
    exact ⟨.integer (a - b), rfl, by simp [Value.Denotes]⟩
  | mul =>
    obtain ⟨a, b, rfl⟩ := eq_pair hop.2
    cases hx
    exact ⟨.integer (a * b), rfl, by simp [Value.Denotes]⟩
  | div =>
    obtain ⟨a, b, rfl⟩ := eq_pair hop.1
    simp [ArithOp.Fits] at hop
  | intDiv =>
    obtain ⟨a, b, rfl⟩ := eq_pair hop.1
    cases hx
  | mod =>
    obtain ⟨a, b, rfl⟩ := eq_pair hop.1
    cases hx
  | toReal =>
    obtain ⟨a, rfl⟩ := eq_singleton hop.1
    cases hx
    exact ⟨.real a, rfl, by simp [Value.Denotes]⟩
  | lt =>
    obtain ⟨a, b, rfl⟩ := hop.1.elim eq_pair eq_pair
    cases hx
    exact ⟨.truth (decide (a < b)), rfl, by simp [Value.Denotes]⟩
  | le =>
    obtain ⟨a, b, rfl⟩ := hop.1.elim eq_pair eq_pair
    cases hx
    exact ⟨.truth (decide (a ≤ b)), rfl, by simp [Value.Denotes]⟩
  | gt =>
    obtain ⟨a, b, rfl⟩ := hop.1.elim eq_pair eq_pair
    cases hx
    exact ⟨.truth (decide (a > b)), rfl, by simp [Value.Denotes]⟩
  | ge =>
    obtain ⟨a, b, rfl⟩ := hop.1.elim eq_pair eq_pair
    cases hx
    exact ⟨.truth (decide (a ≥ b)), rfl, by simp [Value.Denotes]⟩

/-- Arithmetic on rationals. -/
theorem arith_real {op : ArithOp} {rs : List ℝ} {k : TermSort}
    (h : List.Forall₂ Known vs (rs.map (.real : ℝ → Meaning A)))
    (hop : op.Fits (List.replicate rs.length .real) k) {x : Value}
    (hx : (vs.mapM Value.number?).bind (Value.arith op) = some x) :
    ∃ d : Meaning A, op.standard? (rs.map .real) = some d ∧ x.Denotes d := by
  obtain ⟨qs, hqs, hx⟩ := Option.bind_eq_some_iff.1 hx
  obtain rfl := numbers_real h hqs
  rw [List.length_map] at hop
  cases op with
  | add =>
    obtain ⟨-, hne, -⟩ := hop
    cases qs with
    | nil => simp at hne
    | cons q qs =>
      cases hx
      refine ⟨.real (q + (qs.map (↑)).sum), ?_, ?_⟩
      · rw [List.map_cons, List.map_cons, ArithOp.standard?,
          mapM_map .real real? fun _ => rfl]
        rfl
      · rw [← List.sum_eq_foldr]
        simp [Value.Denotes, Rat.cast_list_sum]
  | neg =>
    obtain ⟨a, rfl⟩ := eq_singleton hop.2
    cases hx
    exact ⟨.real (-a), rfl, by simp [Value.Denotes]⟩
  | sub =>
    obtain ⟨a, b, rfl⟩ := eq_pair hop.2
    cases hx
    exact ⟨.real (a - b), rfl, by simp [Value.Denotes]⟩
  | mul =>
    obtain ⟨a, b, rfl⟩ := eq_pair hop.2
    cases hx
    exact ⟨.real (a * b), rfl, by simp [Value.Denotes]⟩
  | div =>
    obtain ⟨a, b, rfl⟩ := eq_pair hop.1
    by_cases hb : b = 0
    · simp [Value.arith, hb] at hx
    · have hb' : (b : ℝ) ≠ 0 := Rat.cast_ne_zero.2 hb
      simp only [Value.arith, hb, if_false, Option.some.injEq] at hx
      refine ⟨.real (a / b), if_neg hb', ?_⟩
      simp [← hx, Value.Denotes]
  | intDiv =>
    obtain ⟨a, b, rfl⟩ := eq_pair hop.1
    cases hx
  | mod =>
    obtain ⟨a, b, rfl⟩ := eq_pair hop.1
    cases hx
  | toReal =>
    obtain ⟨a, rfl⟩ := eq_singleton hop.1
    simp [ArithOp.Fits] at hop
  | lt =>
    obtain ⟨a, b, rfl⟩ := hop.1.elim eq_pair eq_pair
    cases hx
    exact ⟨.truth (decide ((a : ℝ) < b)), rfl, by simp [Value.Denotes]⟩
  | le =>
    obtain ⟨a, b, rfl⟩ := hop.1.elim eq_pair eq_pair
    cases hx
    exact ⟨.truth (decide ((a : ℝ) ≤ b)), rfl, by simp [Value.Denotes]⟩
  | gt =>
    obtain ⟨a, b, rfl⟩ := hop.1.elim eq_pair eq_pair
    cases hx
    exact ⟨.truth (decide ((a : ℝ) > b)), rfl, by simp [Value.Denotes]⟩
  | ge =>
    obtain ⟨a, b, rfl⟩ := hop.1.elim eq_pair eq_pair
    cases hx
    exact ⟨.truth (decide ((a : ℝ) ≥ b)), rfl, by simp [Value.Denotes]⟩

end Known

/-- Values of one sort are equal as what they denote is. -/
theorem Value.Denotes.eq_iff {A : TermSort → TermSort → Type} {v w : Value} {d e : Meaning A}
    (hv : v.Denotes d) (hw : w.Denotes e) (h : d.sort = e.sort) : v = w ↔ d = e := by
  cases d with
  | truth b =>
    obtain ⟨c, rfl⟩ := sort_eq_bool h.symm
    cases v <;> cases w <;> simp_all [Value.Denotes]
  | integer z =>
    obtain ⟨y, rfl⟩ := sort_eq_int h.symm
    cases v <;> cases w <;> simp_all [Value.Denotes]
  | real r =>
    obtain ⟨q, rfl⟩ := sort_eq_real h.symm
    cases v <;> cases w <;> simp only [Value.Denotes] at hv hw
    rw [← hv, ← hw, Value.number.injEq, Meaning.real.injEq, Rat.cast_inj]
  | bits width n =>
    cases e <;> simp only [Meaning.sort, TermSort.bitvec.injEq, reduceCtorEq] at h
    subst h
    cases v <;> cases w <;> simp only [Value.Denotes] at hv hw
    rw [hv, hw, Value.bits.injEq, Meaning.bits.injEq]
    simp [BitVec.toNat_inj]
  | array i j a => cases v <;> exact hv.elim

variable {A : TermSort → TermSort → Type}

theorem Value.Denotes.mem_iff {v : Value} {d : Meaning A} {vs : List Value}
    {ds : List (Meaning A)} (h : List.Forall₂ Value.Denotes vs ds) (hv : v.Denotes d)
    (hk : ∀ e ∈ ds, d.sort = e.sort) : v ∈ vs ↔ d ∈ ds := by
  induction h with
  | nil => simp
  | cons hw _ ih =>
    rw [List.mem_cons, List.mem_cons, hv.eq_iff hw (hk _ (by simp)),
      ih fun e he => hk e (by simp [he])]

theorem Value.Denotes.nodup_iff {k : TermSort} {vs : List Value} {ds : List (Meaning A)}
    (h : List.Forall₂ Value.Denotes vs ds) (hk : ∀ d ∈ ds, d.sort = k) : vs.Nodup ↔ ds.Nodup := by
  induction h with
  | nil => simp
  | cons hv hvs ih =>
    obtain ⟨hd, hds⟩ := List.forall_mem_cons.1 hk
    have hmem := hv.mem_iff hvs fun e he => hd.trans (hds e he).symm
    rw [List.nodup_cons, List.nodup_cons, hmem, ih hds]

theorem ArithOp.sort_standard? {op : ArithOp} {ds : List (Meaning A)} {d : Meaning A}
    {k : TermSort} (hop : op.Fits (ds.map sort) k) (h : op.standard? ds = some d) : d.sort = k := by
  unfold ArithOp.standard? at h
  split at h
  · obtain ⟨zs, -, rfl⟩ := Option.map_eq_some_iff.1 h
    exact hop.2.2 .int (by simp [sort])
  · obtain ⟨rs, -, rfl⟩ := Option.map_eq_some_iff.1 h
    exact hop.2.2 .real (by simp [sort])
  case h_9 a b =>
    split at h <;> cases h
    exact hop.2.symm
  case h_19 => cases h
  all_goals
    cases h
    first
      | exact hop.2.symm
      | exact List.head_eq_of_cons_eq hop.2

theorem Operator.sort_standard? {decl? : FuncDecl → Option Signature} {op : Operator}
    {ds : List (Meaning A)} {d : Meaning A} {k : TermSort}
    (hop : op.Fits decl? (ds.map sort) k) (h : op.standard? ds = some d) : d.sort = k := by
  unfold Operator.standard? at h
  split at h
  case h_4 | h_5 =>
    obtain ⟨bs, -, rfl⟩ := Option.map_eq_some_iff.1 h
    exact hop.2.2.symm
  case h_8 c a b =>
    cases h
    simp only [Operator.Fits, List.map_cons, List.map_nil, List.cons.injEq, and_true] at hop
    cases c
    · exact hop.2.2
    · exact hop.2.1
  case h_10 =>
    cases h
    exact hop.2.2.symm
  case h_13 =>
    cases h
    exact hop.2.2.2.symm
  case h_14 op => exact op.sort_standard? hop h
  case h_15 => cases h
  all_goals
    cases h
    exact hop.2.symm

namespace Known

variable {v w : Option Value} {vs : List (Option Value)} {d e : Meaning A}

theorem not {b : Bool} (h : Known v (.truth b : Meaning A)) :
    Known ((Value.truth? v).map fun b => .truth !b) (.truth !b : Meaning A) := by
  intro x hx
  obtain ⟨c, hc, rfl⟩ := Option.map_eq_some_iff.1 hx
  rw [h.truth hc]
  rfl

theorem implies {b c : Bool} (hv : Known v (.truth b : Meaning A))
    (hw : Known w (.truth c : Meaning A)) :
    Known (Value.implies v w) (.truth (!b || c) : Meaning A) := by
  intro x hx
  unfold Value.implies at hx
  split at hx
  case h_1 hb =>
    cases hx
    simp [Value.Denotes, ← hv.truth hb]
  case h_2 hc _ =>
    cases hx
    simp [Value.Denotes, ← hw.truth hc]
  case h_3 hb hc =>
    cases hx
    simp [Value.Denotes, ← hv.truth hb, ← hw.truth hc]
  case h_4 => cases hx

open scoped Classical in
/-- Two values of one sort, which need not be known if they are those of one term. -/
theorem equal (hv : Known v d) (hw : Known w e) (h : d.sort = e.sort) (same : Prop)
    [Decidable same] (hs : same → d = e) :
    Known (if same then some (.truth true) else do some (.truth (decide ((← v) = (← w)))))
      (.truth (decide (d = e)) : Meaning A) := by
  intro x hx
  split at hx
  · next hsame =>
    cases hx
    exact (decide_eq_true (hs hsame)).symm
  · obtain ⟨a, ha, hrest⟩ := Option.bind_eq_some_iff.1 hx
    obtain ⟨b, hb, hab⟩ := Option.bind_eq_some_iff.1 hrest
    cases hab
    exact decide_eq_decide.2 ((hv a ha).eq_iff (hw b hb) h)

theorem values {as : List Value} {ds : List (Meaning A)} (h : List.Forall₂ Known vs ds)
    (has : vs.mapM id = some as) : List.Forall₂ Value.Denotes as ds :=
  (forall₂_comp (mapM_eq_some.1 has) h).imp fun a _ ⟨_, ha, hknown⟩ => hknown a ha

open scoped Classical in
/-- Two truth values, which need not be known if they are those of one term. -/
theorem iff {b c : Bool} (hv : Known v (.truth b : Meaning A)) (hw : Known w (.truth c : Meaning A))
    (same : Prop) [Decidable same] (hs : same → b = c) :
    Known (if same then some (.truth true) else do some (.truth (decide ((← v) = (← w)))))
      (.truth (b == c) : Meaning A) := by
  have hbc : (b == c) = decide ((.truth b : Meaning A) = .truth c) := by
    rw [Meaning.truth.injEq]
    cases b <;> cases c <;> simp
  rw [hbc]
  exact hv.equal hw rfl same fun h => congrArg _ (hs h)

open scoped Classical in
/-- Several values that are all known, of one sort. -/
theorem distinct {ds : List (Meaning A)} {k : TermSort} (h : List.Forall₂ Known vs ds)
    (hk : ∀ d ∈ ds, d.sort = k) :
    Known ((vs.mapM id).map fun vs => .truth (decide vs.Nodup))
      (.truth (decide ds.Nodup) : Meaning A) := by
  intro x hx
  obtain ⟨as, has, rfl⟩ := Option.map_eq_some_iff.1 hx
  exact decide_eq_decide.2 (Value.Denotes.nodup_iff (values h has) hk)

/-- A choice whose condition may be unknown; its branches may then be one term. -/
theorem ite {u : Option Value} {c : Bool} (hu : Known u (.truth c : Meaning A))
    (hv : Known v d) (hw : Known w e) (same : Prop) [Decidable same] (hs : same → d = e) :
    Known (match Value.truth? u with
      | some true => v
      | some false => w
      | Option.none => if same then v else Option.none) (if c then d else e) := by
  intro x hx
  split at hx
  case h_1 hc =>
    rw [if_pos (hu.truth hc).symm]
    exact hv x hx
  case h_2 hc =>
    rw [if_neg (by rw [← hu.truth hc]; simp)]
    exact hw x hx
  case h_3 =>
    split at hx
    · next h =>
      rw [← hs h, ite_self]
      exact hv x hx
    · cases hx

end Known

theorem ArithOp.Fits.int_or_real {op : ArithOp} {ks : List TermSort} {k : TermSort}
    (h : op.Fits ks k) : (∀ a ∈ ks, a = .int) ∨ (∀ a ∈ ks, a = .real) := by
  cases op with
  | add =>
    obtain ⟨rfl | rfl, -, hks⟩ := h
    · exact .inl hks
    · exact .inr hks
  | neg | sub | mul =>
    obtain ⟨rfl | rfl, rfl⟩ := h <;> simp
  | div | intDiv | mod | toReal =>
    obtain ⟨rfl, -⟩ := h
    simp
  | lt | le | gt | ge =>
    obtain ⟨rfl | rfl, -⟩ := h <;> simp

/-- Arithmetic on numbers of one sort. -/
theorem Known.arith {A : TermSort → TermSort → Type} {op : ArithOp} {vs : List (Option Value)}
    {ds : List (Meaning A)} {k : TermSort} (h : List.Forall₂ Known vs ds)
    (hop : op.Fits (ds.map sort) k) {x : Value}
    (hx : (vs.mapM Value.number?).bind (Value.arith op) = some x) :
    ∃ d : Meaning A, op.standard? ds = some d ∧ x.Denotes d := by
  have hsorts : ∀ {l : TermSort}, (∀ a ∈ ds.map sort, a = l) → ∀ d ∈ ds, d.sort = l :=
    fun h d hd => h _ (List.mem_map_of_mem hd)
  obtain hint | hreal := hop.int_or_real
  · obtain ⟨zs, rfl⟩ := eq_map_of_sort sort_eq_int (hsorts hint)
    rw [List.eq_replicate_iff.2 ⟨rfl, hint⟩, List.length_map, List.length_map] at hop
    exact arith_integer h hop hx
  · obtain ⟨rs, rfl⟩ := eq_map_of_sort sort_eq_real (hsorts hreal)
    rw [List.eq_replicate_iff.2 ⟨rfl, hreal⟩, List.length_map, List.length_map] at hop
    exact arith_real h hop hx

end FormulaStack
