import FormulaStack.Proofs.Refinement
import FormulaStack.Proofs.Simplification

/-!
Exact values of trees. A tree has one if all its parts do, down to constants, which have the values
that completion gives them. It is of the sort of the tree, folding finds it, and no simplification
changes it.
-/
namespace FormulaStack

namespace Value

/-- The contents of values of one kind. -/
def contents? {α : Type} (get? : Option Value → Option α) (vs : List Value) : Option (List α) :=
  vs.mapM fun v => get? (some v)

variable {α : Type} {get? : Option Value → Option α} {make : α → Value}

theorem contents?_eq_some (h : ∀ v a, get? (some v) = some a ↔ v = make a) {vs : List Value}
    {as : List α} : contents? get? vs = some as ↔ vs = as.map make := by
  unfold contents?
  simp only [mapM_eq_some, h]
  exact ⟨fun hvs => eq_map_of_forall₂ hvs.flip, fun hvs => hvs ▸ by simp⟩

theorem truths?_eq_some {vs : List Value} {bs : List Bool} :
    contents? truth? vs = some bs ↔ vs = bs.map .truth :=
  contents?_eq_some fun v b => by cases v <;> simp [truth?]

theorem numbers?_eq_some {vs : List Value} {qs : List Rat} :
    contents? number? vs = some qs ↔ vs = qs.map .number :=
  contents?_eq_some fun v q => by cases v <;> simp [number?]

theorem all_known (bs : List Bool) :
    all (bs.map fun b => some (.truth b)) = some (.truth (bs.all id)) := by
  cases h : bs.all id <;> simp_all [all, truth?]

theorem any_known (bs : List Bool) :
    any (bs.map fun b => some (.truth b)) = some (.truth (bs.any id)) := by
  cases h : bs.any id <;> simp_all [any, truth?]

end Value

/-- What an operator makes of values that are all known. -/
def Operator.known? : Operator → List Value → Option Value
  | .true, _ => some (.truth Bool.true)
  | .false, _ => some (.truth Bool.false)
  | .int value, _ => some (.number value)
  | .real value, _ => some (.number value)
  | .not, [.truth b] => some (.truth !b)
  | .and, vs => (Value.contents? Value.truth? vs).map fun bs => .truth (bs.all id)
  | .or, vs => (Value.contents? Value.truth? vs).map fun bs => .truth (bs.any id)
  | .implies, [.truth a, .truth b] => some (.truth (!a || b))
  | .iff, [v, w] => some (.truth (decide (v = w)))
  | .eq, [v, w] => some (.truth (decide (v = w)))
  | .distinct, vs => some (.truth (decide vs.Nodup))
  | .ite, [.truth c, v, w] => some (if c then v else w)
  | .arith op, vs => (Value.contents? Value.number? vs).bind (Value.arith op)
  | _, _ => none

namespace Operator

variable {vs : List Value} {v : Value}

theorem eq_of_known_not (h : Operator.not.known? vs = some v) :
    ∃ b, vs = [.truth b] ∧ v = .truth (!b) := by
  unfold known? at h
  split at h <;> simp_all

theorem eq_of_known_implies (h : Operator.implies.known? vs = some v) :
    ∃ a b, vs = [.truth a, .truth b] ∧ v = .truth (!a || b) := by
  unfold known? at h
  split at h <;> grind

theorem eq_of_known_equal {o : Operator} (ho : o = .iff ∨ o = .eq) (h : o.known? vs = some v) :
    ∃ u w, vs = [u, w] ∧ v = .truth (decide (u = w)) := by
  unfold known? at h
  split at h <;> simp_all

theorem eq_of_known_ite (h : Operator.ite.known? vs = some v) :
    ∃ c u w, vs = [.truth c, u, w] ∧ v = if c then u else w := by
  unfold known? at h
  split at h <;> simp_all

end Operator

/-- What a label makes of values that are all known. -/
def Label.known? : Label → TermSort → List Value → Option Value
  | .op o, _, vs => o.known? vs
  | .apply _, .bool, [] => some (.truth false)
  | .apply _, .int, [] | .apply _, .real, [] => some (.number 0)
  | .apply _, _, _ => none

/-- A constant has the value that completion gives. -/
theorem Label.apply_of_known? {f : Signature} {k : TermSort} {vs : List Value} {v : Value}
    (h : (apply f).known? k vs = some v) : vs = [] ∧ Value.default? k = some v := by
  cases vs with
  | nil =>
    refine ⟨rfl, ?_⟩
    cases k with
    | bool | int | real => exact h
    | bitvec | array => cases h
  | cons => cases k <;> cases h

namespace Tree

/-- The value of a tree all of whose parts have values. -/
def known? : Tree → Option Value :=
  fold fun l k xs => (xs.mapM Prod.snd).bind (l.known? k)

/-- The values of several trees. -/
def Exacts (xs : List Tree) (vs : List Value) : Prop :=
  List.Forall₂ (fun x v => x.known? = some v) xs vs

theorem known?_node {l : Label} {k : TermSort} {xs : List Tree} {v : Value} :
    (node l k xs).known? = some v ↔ ∃ vs, Exacts xs vs ∧ l.known? k vs = some v := by
  rw [known?, fold_node, List.mapM_map, Option.bind_eq_some_iff]
  simp only [Exacts, ← mapM_eq_some]
  rfl

end Tree

namespace Value

/-- A node over known values has the value that its operator makes of them. -/
theorem ofNode_of_known? {t : Term} {n : Node} {f : Term → Option Value} {vs : List Value}
    {v : Value} (hargs : n.args.map f = vs.map some) (h : n.op.known? vs = some v) :
    ofNode true t n (n.args.map f) = some v := by
  obtain ⟨op, args, k⟩ := n
  dsimp only at hargs h ⊢
  cases op with
  | true | false | int _ | real _ => exact h
  | and =>
    obtain ⟨bs, hbs, rfl⟩ := Option.map_eq_some_iff.1 h
    rw [hargs, truths?_eq_some.1 hbs, List.map_map]
    exact all_known bs
  | or =>
    obtain ⟨bs, hbs, rfl⟩ := Option.map_eq_some_iff.1 h
    rw [hargs, truths?_eq_some.1 hbs, List.map_map]
    exact any_known bs
  | not =>
    obtain ⟨b, rfl, rfl⟩ := Operator.eq_of_known_not h
    obtain ⟨a, rfl, ha⟩ := List.map_eq_singleton_iff.1 hargs
    simp [ofNode, ha, truth?]
  | implies =>
    obtain ⟨b, c, rfl, rfl⟩ := Operator.eq_of_known_implies h
    obtain ⟨a, a', rfl, ha, ha'⟩ := map_eq_pair hargs
    cases b <;> cases c <;> simp [ofNode, ha, ha', implies, truth?]
  | iff | eq =>
    obtain ⟨v, w, rfl, rfl⟩ := Operator.eq_of_known_equal (by simp) h
    obtain ⟨a, a', rfl, ha, ha'⟩ := map_eq_pair hargs
    by_cases hsame : a = a'
    · rw [hsame, ha'] at ha
      simp [ofNode, hsame, Option.some.inj ha]
    · simp [ofNode, hsame, ha, ha']
  | distinct =>
    cases h
    have hknown : (vs.map some).mapM id = some vs := by
      rw [List.mapM_map]
      exact (List.mapM_pure (f := id)).trans (by rw [List.map_id]; rfl)
    rw [hargs]
    change ((vs.map some).mapM id).map (fun vs => Value.truth (decide vs.Nodup)) = _
    rw [hknown]
    rfl
  | ite =>
    obtain ⟨c, v, w, rfl, rfl⟩ := Operator.eq_of_known_ite h
    obtain ⟨a, as, rfl, ha, has⟩ := List.map_eq_cons_iff.1 hargs
    obtain ⟨b, b', rfl, hb, hb'⟩ := map_eq_pair has
    cases c <;> simp [ofNode, ha, hb, hb', truth?]
  | arith op =>
    obtain ⟨qs, hqs, hv⟩ := Option.bind_eq_some_iff.1 h
    rw [hargs]
    change ((vs.map some).mapM number?).bind (arith op) = some v
    rw [List.mapM_map]
    exact Option.bind_eq_some_iff.2 ⟨qs, hqs, hv⟩
  | apply _ | bound _ | quantifier _ _ | bits _ _ | bitwise _ | extract _ _ | select | store
  | constArray => cases h

end Value

namespace Store

variable {s : Store} {t : Term} {x : Tree} {v : Value}

/-- Folding with completion finds exact values. -/
theorem WellFormed.fold_of_known? (hs : s.WellFormed) (ht : s.tree? t = some x)
    (hx : x.known? = some v) : s.fold true t = some v := by
  induction x using Tree.induction generalizing t v with
  | step l k xs ih =>
    obtain ⟨n, hn, hl, rfl, hxs⟩ := hs.node_of_tree? ht
    obtain ⟨ks, -, hfit⟩ := hs.fits hn
    obtain ⟨vs, hvs, hv⟩ := Tree.known?_node.1 hx
    have hargs : n.args.map (s.fold true) = vs.map some := by
      clear hn hl hfit hv ht hx
      revert hxs
      generalize n.args = ts
      intro hts
      induction hts generalizing vs with
      | nil =>
        cases hvs
        rfl
      | cons ht _ ihs =>
        cases hvs with
        | cons hv hvs =>
          rw [List.map_cons, List.map_cons, ih _ List.mem_cons_self ht hv,
            ihs (fun x hx => ih x (List.mem_cons_of_mem _ hx)) _ hvs]
    rw [hs.fold_eq true hn]
    cases l with
    | op o =>
      obtain rfl := label_eq_op hfit hl
      exact Value.ofNode_of_known? hargs hv
    | apply f =>
      obtain ⟨d, hop, -⟩ := label_eq_apply hl
      obtain ⟨rfl, hdefault⟩ := Label.apply_of_known? hv
      obtain ⟨op, args, k⟩ := n
      obtain rfl : args = [] := List.map_eq_nil_iff.1 hargs
      obtain rfl : op = .apply d := hop
      exact hdefault

end Store

namespace Value

/-- Truth values and numbers of a sort. -/
inductive Of : TermSort → Value → Prop
  | truth (b : Bool) : Of .bool (.truth b)
  | integer (z : Int) : Of .int (.number z)
  | rational (q : Rat) : Of .real (.number q)

variable {k : TermSort} {v : Value} {a b : Rat} {vs : List Value} {ks : List TermSort}

theorem of_number : Of k (.number a) ↔ k = .real ∨ k = .int ∧ ∃ z : Int, a = z := by
  constructor
  · intro h
    cases h with
    | integer z => exact .inr ⟨rfl, z, rfl⟩
    | rational => exact .inl rfl
  · rintro (rfl | ⟨rfl, z, rfl⟩)
    · exact .rational a
    · exact .integer z

theorem Of.neg (h : Of k (.number a)) : Of k (.number (-a)) := by
  obtain rfl | ⟨rfl, z, rfl⟩ := of_number.1 h
  · exact .rational _
  · exact of_number.2 (.inr ⟨rfl, -z, by push_cast; rfl⟩)

/-- What takes integers to integers keeps to the sort of its operands. -/
theorem Of.combine {f : Rat → Rat → Rat} {g : Int → Int → Int}
    (hf : ∀ y z : Int, f y z = g y z) (ha : Of k (.number a)) (hb : Of k (.number b)) :
    Of k (.number (f a b)) := by
  obtain rfl | ⟨rfl, y, rfl⟩ := of_number.1 ha
  · exact .rational _
  · obtain h | ⟨-, z, rfl⟩ := of_number.1 hb
    · cases h
    · rw [hf]
      exact .integer _

theorem Of.sum (hk : k = .int ∨ k = .real) {qs : List Rat}
    (h : ∀ q ∈ qs, Of k (.number q)) : Of k (.number (qs.foldr (· + ·) 0)) := by
  induction qs with
  | nil =>
    obtain rfl | rfl := hk
    · exact .integer 0
    · exact .rational 0
  | cons q qs ih =>
    have hrest := ih fun q hq => h q (List.mem_cons_of_mem _ hq)
    exact .combine (fun y z => (Int.cast_add y z).symm) (h q List.mem_cons_self) hrest

end Value

/-- What arithmetic makes of values of the right sorts is a value of the right sort. -/
theorem ArithOp.of_arith {op : ArithOp} {ks : List TermSort} {k : TermSort} {qs : List Rat}
    {v : Value} (hfit : op.Fits ks k) (hqs : List.Forall₂ (fun k q => Value.Of k (.number q)) ks qs)
    (hv : Value.arith op qs = some v) : Value.Of k v := by
  cases op with
  | add =>
    obtain ⟨hk, -, hks⟩ := hfit
    cases hv
    refine .sum hk fun q hq => ?_
    obtain ⟨l, hl, hq⟩ := exists_related hqs q hq
    rwa [hks l hl] at hq
  | neg =>
    obtain ⟨-, rfl⟩ := hfit
    obtain ⟨q, _, hq, hnil, rfl⟩ := List.forall₂_cons_left_iff.1 hqs
    cases hnil
    cases hv
    exact hq.neg
  | sub | mul =>
    obtain ⟨-, rfl⟩ := hfit
    obtain ⟨p, _, hp, hrest, rfl⟩ := List.forall₂_cons_left_iff.1 hqs
    obtain ⟨q, _, hq, hnil, rfl⟩ := List.forall₂_cons_left_iff.1 hrest
    cases hnil
    cases hv
    first
      | exact .combine (fun y z => (Int.cast_sub y z).symm) hp hq
      | exact .combine (fun y z => (Int.cast_mul y z).symm) hp hq
  | div =>
    obtain ⟨rfl, rfl⟩ := hfit
    obtain ⟨p, _, hp, hrest, rfl⟩ := List.forall₂_cons_left_iff.1 hqs
    obtain ⟨q, _, hq, hnil, rfl⟩ := List.forall₂_cons_left_iff.1 hrest
    cases hnil
    obtain ⟨-, hv⟩ := Option.ite_none_left_eq_some.1 hv
    cases hv
    exact .rational _
  | toReal =>
    obtain ⟨rfl, rfl⟩ := hfit
    obtain ⟨q, _, hq, hnil, rfl⟩ := List.forall₂_cons_left_iff.1 hqs
    cases hnil
    cases hv
    exact .rational _
  | intDiv | mod => cases hv
  | lt | le | gt | ge =>
    obtain ⟨hks, rfl⟩ := hfit
    have hlen : qs.length = 2 := by
      rw [← List.Forall₂.length_eq hqs]
      obtain rfl | rfl := hks <;> rfl
    obtain ⟨p, q, rfl⟩ := List.length_eq_two.1 hlen
    cases hv
    exact .truth _

theorem Operator.of_known? {o : Operator} {decl? : FuncDecl → Option Signature}
    {ks : List TermSort} {k : TermSort} {vs : List Value} {v : Value} (hfit : o.Fits decl? ks k)
    (hvs : List.Forall₂ Value.Of ks vs) (hv : o.known? vs = some v) : Value.Of k v := by
  cases o with
  | true | false =>
    obtain ⟨-, rfl⟩ := hfit
    cases hv
    exact .truth _
  | int z =>
    obtain ⟨-, rfl⟩ := hfit
    cases hv
    exact .integer z
  | real q =>
    obtain ⟨-, rfl⟩ := hfit
    cases hv
    exact .rational q
  | not =>
    obtain ⟨-, rfl⟩ := hfit
    obtain ⟨b, -, rfl⟩ := eq_of_known_not hv
    exact .truth _
  | and | or =>
    obtain ⟨-, -, rfl⟩ := hfit
    obtain ⟨bs, -, rfl⟩ := Option.map_eq_some_iff.1 hv
    exact .truth _
  | implies =>
    obtain ⟨-, rfl⟩ := hfit
    obtain ⟨a, b, -, rfl⟩ := eq_of_known_implies hv
    exact .truth _
  | iff | eq =>
    obtain ⟨-, rfl⟩ := hfit
    obtain ⟨a, b, -, rfl⟩ := eq_of_known_equal (by simp) hv
    exact .truth _
  | distinct =>
    obtain ⟨-, -, rfl⟩ := hfit
    cases hv
    exact .truth _
  | ite =>
    obtain rfl := hfit
    obtain ⟨c, a, b, rfl, rfl⟩ := eq_of_known_ite hv
    obtain ⟨-, hrest⟩ := List.forall₂_cons.1 hvs
    obtain ⟨ha, hrest⟩ := List.forall₂_cons.1 hrest
    obtain ⟨hb, -⟩ := List.forall₂_cons.1 hrest
    cases c
    · exact hb
    · exact ha
  | arith op =>
    obtain ⟨qs, hqs, harith⟩ := Option.bind_eq_some_iff.1 hv
    obtain rfl := Value.numbers?_eq_some.1 hqs
    exact op.of_arith hfit (List.forall₂_map_right_iff.1 hvs) harith
  | apply _ | bound _ | quantifier _ _ | bits _ _ | bitwise _ | extract _ _ | select | store
  | constArray => cases hv

namespace Tree

/-- Exact values are of the sort of the tree. -/
theorem WellSorted.of_known? {x : Tree} (h : x.WellSorted) {v : Value} (hv : x.known? = some v) :
    Value.Of x.sort v := by
  induction x using Tree.induction generalizing v with
  | step l k xs ih =>
    obtain ⟨hfit, hargs⟩ := wellSorted_node.1 h
    obtain ⟨vs, hvs, hv⟩ := known?_node.1 hv
    have hsorted : ∀ x ∈ xs, ∀ v, x.known? = some v → Value.Of x.sort v :=
      fun x hx v hv => ih x hx (hargs x hx) hv
    have hvs : List.Forall₂ Value.Of (xs.map sort) vs :=
      List.forall₂_map_left_iff.2
        (((List.forall₂_and_left xs vs).2 ⟨hsorted, hvs⟩).imp fun _ v h => h.1 v h.2)
    cases l with
    | op o => exact Operator.of_known? hfit hvs hv
    | apply f =>
      obtain ⟨rfl, -⟩ := Label.apply_of_known? hv
      cases k with
      | bool =>
        cases hv
        exact .truth false
      | int =>
        cases hv
        exact .integer 0
      | real =>
        cases hv
        exact .rational 0
      | bitvec | array => cases hv

/-- A proposition and its exact truth value. -/
structure ExactTruth (x : Tree) (b : Bool) : Prop where
  proposition : x.Proposition
  value : x.known? = some (.truth b)

theorem known?_connective {o : Operator} {xs : List Tree} {v : Value} :
    (connective o xs).known? = some v ↔ ∃ vs, Exacts xs vs ∧ o.known? vs = some v :=
  known?_node

theorem known?_junction {j : Junction} {xs : List Tree} {b : Bool} :
    (connective j.op xs).known? = some (.truth b) ↔
      ∃ bs : List Bool, Exacts xs (bs.map .truth) ∧ b = j.combine bs := by
  have hop : ∀ vs, j.op.known? vs =
      (Value.contents? Value.truth? vs).map fun bs => .truth (j.combine bs) := by
    intro vs
    cases j <;> rfl
  simp only [known?_connective, hop, Option.map_eq_some_iff, Value.truths?_eq_some]
  constructor
  · rintro ⟨_, hxs, bs, rfl, hb⟩
    cases hb
    exact ⟨bs, hxs, rfl⟩
  · rintro ⟨bs, hxs, rfl⟩
    exact ⟨_, hxs, bs, rfl, rfl⟩

/-- Exact truth values go along negations and junctions. -/
theorem judges_exactTruth : Judges ExactTruth where
  proposition h := h.proposition
  unique h g := by
    have hsame := h.value.symm.trans g.value
    cases hsame
    rfl
  constant b := ⟨proposition_constant b, by cases b <;> rfl⟩
  not h := ⟨proposition_not h.proposition, known?_connective.2 ⟨_, .cons h.value .nil, rfl⟩⟩
  operand {x b} h := by
    obtain ⟨y, hy, hyp⟩ := h.proposition.not_arg rfl
    cases hy
    obtain ⟨vs, hvs, hv⟩ := known?_connective.1 h.value
    obtain ⟨v, _, hx, hnil, rfl⟩ := List.forall₂_cons_left_iff.1 hvs
    cases hnil
    cases v with
    | truth c =>
      cases hv
      exact ⟨hyp, by rw [hx, Bool.not_not]⟩
    | _ => cases hv
  junction j xs bs hlen h := by
    have hp : ∀ x ∈ xs, x.Proposition := fun x hx => by
      obtain ⟨b, -, hb⟩ := exists_related h.flip x hx
      exact hb.proposition
    refine ⟨proposition_junction j hlen hp, known?_junction.2 ⟨bs, ?_, rfl⟩⟩
    exact List.forall₂_map_right_iff.2 (h.imp fun _ _ hb => hb.value)
  operands j x y c h := by
    obtain ⟨-, hargs⟩ := h.proposition.junction_args rfl
    obtain ⟨bs, hbs, rfl⟩ := known?_junction.1 h.value
    have hvs := List.forall₂_map_right_iff.1 hbs
    obtain ⟨a, _, ha, hrest, rfl⟩ := List.forall₂_cons_left_iff.1 hvs
    obtain ⟨b, _, hb, hnil, rfl⟩ := List.forall₂_cons_left_iff.1 hrest
    cases hnil
    exact ⟨a, b, ⟨hargs x (by simp [connective, args]), ha⟩,
      ⟨hargs y (by simp [connective, args]), hb⟩, rfl⟩

end Tree
end FormulaStack
