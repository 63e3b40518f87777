import FormulaStack.Boolean
import FormulaStack.Proofs.Structures

/-!
What the simplifying constructors of boolean formulas make of trees, and that it means what the
plain connective means.
-/
namespace FormulaStack

namespace Junction

def op : Junction → Operator
  | .and => .and
  | .or => .or

def combine : Junction → List Bool → Bool
  | .and, bs => bs.all id
  | .or, bs => bs.any id

/-- What an absorbing operand is. -/
def limit : Junction → Bool
  | .and => false
  | .or => true

theorem combine_append (j : Junction) (bs cs : List Bool) :
    j.combine (bs ++ cs) = j.combine [j.combine bs, j.combine cs] := by
  cases j <;> simp [combine]

theorem combine_singleton (j : Junction) (b : Bool) : j.combine [b] = b := by
  cases j <;> simp [combine]

theorem combine_limit (j : Junction) {bs : List Bool} (h : j.limit ∈ bs) :
    j.combine bs = j.limit := by
  cases j <;> simpa [combine, limit] using h

theorem combine_neutral (j : Junction) (bs : List Bool) :
    j.combine ((!j.limit) :: bs) = j.combine bs := by
  cases j <;> simp [combine, limit]

theorem combine_comm (j : Junction) (b c : Bool) : j.combine [b, c] = j.combine [c, b] := by
  cases j <;> simp [combine, Bool.and_comm, Bool.or_comm]

theorem combine_self (j : Junction) (b : Bool) : j.combine [b, b] = b := by
  cases j <;> simp [combine]

theorem combine_mem (j : Junction) {b : Bool} {bs : List Bool} (h : b ∈ bs) :
    j.combine [j.combine bs, b] = j.combine bs := by
  cases j <;> cases b <;> simp_all [combine]

end Junction

/-- The operator that a kind tells. -/
def TermKind.operator? : TermKind → Option Operator
  | .true => some .true
  | .false => some .false
  | .not => some .not
  | .and => some .and
  | .or => some .or
  | .iff => some .iff
  | .implies => some .implies
  | .ite => some .ite
  | .eq => some .eq
  | .distinct => some .distinct
  | _ => none

/-- A formula as an environment sees it: by its tree, or as one of another environment. -/
inductive Reading where
  | own (x : Tree)
  | foreign (owner : Nat) (t : Term)

def Reading.unwrap : Reading → Except Fault Tree
  | .own x => .ok x
  | .foreign .. => .error .foreign

namespace Tree

/-- What a backend reports for the root of a tree. -/
def kind (x : Tree) : TermKind :=
  match x.label with
  | .op o => (Node.mk o [] .bool).kind
  | .apply _ => if x.args.isEmpty then .variable else .application

def negation (x : Tree) : Tree :=
  match x.kind, x.args with
  | .not, y :: _ => y
  | _, _ => connective .not [x]

/-- Of two pairs of trees that share exactly one tree: that tree and the two others. -/
def sharedOperand? (a b c d : Tree) : Option (Tree × Tree × Tree) :=
  match [(a, c, b, d), (a, d, b, c), (b, c, a, d), (b, d, a, c)].filter fun p => p.1 = p.2.1 with
  | [(shared, _, rest, rest')] => some (shared, rest, rest')
  | _ => none

def factored? (outer : Junction) (x y : Tree) : Option Tree :=
  match Junction.ofKind? x.kind, Junction.ofKind? y.kind with
  | some inner, some inner' =>
    if inner ≠ inner' then none
    else
      match x.args, y.args with
      | [a, b], [c, d] =>
        match sharedOperand? a b c d with
        | some (shared, rest, rest') =>
          some (connective inner.op [shared, connective outer.op [rest, rest']])
        | none => none
      | _, _ => none
  | _, _ => none

def binary (j : Junction) (x y : Tree) : Tree :=
  (factored? j x y).getD (connective j.op [x, y])

/-- The junction of two trees; a neutral or equal one is left out. -/
def junction (j : Junction) (x y : Tree) : Tree :=
  if x = y then x
  else if y.kind = j.neutral then x
  else if x.kind = j.neutral then y
  else binary j x y

/-- The first absorbing operand, or the others, each once and without the neutral ones. -/
def gather (j : Junction) (seen : List Tree) :
    List Reading → Except Fault (Tree ⊕ List Tree)
  | [] => return .inr seen.reverse
  | r :: rs => do
    let x ← r.unwrap
    if x.kind = j.absorbing then return .inl x
    if x.kind = j.neutral ∨ x ∈ seen then gather j seen rs else gather j (x :: seen) rs

/-- The junction of what was gathered. -/
def join (j : Junction) : Tree ⊕ List Tree → Tree
  | .inl x => x
  | .inr [] => constant (j == .and)
  | .inr [x] => x
  | .inr [x, y] => binary j x y
  | .inr xs => connective j.op xs

def nary (j : Junction) (rs : List Reading) : Except Fault Tree :=
  (gather j [] rs).map (join j)

theorem kind_of_op {x : Tree} {o : Operator} (h : x.label = .op o) :
    x.kind = (Node.mk o [] .bool).kind := by
  simp [kind, h]

theorem label_of_kind {x : Tree} {o : Operator} (h : x.kind.operator? = some o) :
    x.label = .op o := by
  obtain ⟨l, s, xs⟩ := x
  cases l with
  | op o' => cases o' <;> simp_all [kind, label, Node.kind, TermKind.operator?]
  | apply f =>
    simp only [kind, label] at h
    split at h <;> simp [TermKind.operator?] at h

variable {A : TermSort → TermSort → Type} {M : Structure A} {ρ : Binding A} {x y : Tree}

theorem Proposition.eq_connective {o : Operator} (hx : x.Proposition) (h : x.label = .op o) :
    x = connective o x.args := by
  obtain ⟨l, k, xs⟩ := x
  obtain ⟨-, rfl⟩ := hx
  cases h
  rfl

theorem Proposition.arg_wellSorted (hx : x.Proposition) : ∀ y ∈ x.args, y.WellSorted := by
  obtain ⟨l, k, xs⟩ := x
  exact (wellSorted_node.1 hx.wellSorted).2

theorem Proposition.fits {o : Operator} (hx : x.Proposition) (h : x.label = .op o) :
    o.Fits (fun _ => none) (x.args.map sort) .bool := by
  obtain ⟨l, k, xs⟩ := x
  obtain ⟨hs, rfl⟩ := hx
  cases h
  exact (wellSorted_node.1 hs).1

theorem Proposition.not_arg (hx : x.Proposition) (h : x.label = .op .not) :
    ∃ y, x = connective .not [y] ∧ y.Proposition := by
  have hxs := hx.eq_connective h
  obtain ⟨y, hy, hb⟩ := List.map_eq_singleton_iff.1 (hx.fits h).1
  rw [hy] at hxs
  exact ⟨y, hxs, hx.arg_wellSorted y (by simp [hy]), hb⟩

theorem Proposition.junction_args {j : Junction} (hx : x.Proposition) (h : x.label = .op j.op) :
    x = connective j.op x.args ∧ ∀ y ∈ x.args, y.Proposition := by
  refine ⟨hx.eq_connective h, fun y hy => ⟨hx.arg_wellSorted y hy, ?_⟩⟩
  have hfits := hx.fits h
  cases j <;> exact hfits.2.1 _ (List.mem_map_of_mem hy)

theorem truth_junction {j : Junction} {xs : List Tree} (h : ∀ x ∈ xs, x.Proposition) :
    (connective j.op xs).truth M ρ = j.combine (xs.map (truth M ρ)) := by
  cases j with
  | and => simp [Junction.op, Junction.combine, truth_and h, List.all_map]
  | or => simp [Junction.op, Junction.combine, truth_or h, List.any_map]

theorem proposition_junction (j : Junction) {xs : List Tree} (hlen : 2 ≤ xs.length)
    (h : ∀ x ∈ xs, x.Proposition) : (connective j.op xs).Proposition := by
  apply proposition_connective _ h
  cases j <;> exact ⟨by simpa using hlen, fun _ => List.eq_of_mem_replicate, rfl⟩

theorem proposition_not (hx : x.Proposition) : (connective .not [x]).Proposition :=
  proposition_connective ⟨rfl, rfl⟩ (by simpa)

theorem negation_of_ne (h : ∀ y ys, x.kind = .not → x.args ≠ y :: ys) :
    x.negation = connective .not [x] := by
  unfold negation
  split
  · next y ys hk hargs => exact absurd hargs (h y ys hk)
  · rfl

theorem proposition_negation (hx : x.Proposition) : x.negation.Proposition := by
  unfold negation
  split
  · next y ys hk hargs =>
    obtain ⟨z, rfl, hz⟩ := hx.not_arg (label_of_kind (by rw [hk]; rfl))
    cases hargs
    exact hz
  · exact proposition_not hx

/-- The pairs are the shared tree and one other each, in some order. -/
theorem sharedOperand?_eq_some {a b c d s y z : Tree}
    (h : sharedOperand? a b c d = some (s, y, z)) :
    ([a, b] = [s, y] ∨ [a, b] = [y, s]) ∧ ([c, d] = [s, z] ∨ [c, d] = [z, s]) := by
  unfold sharedOperand? at h
  split at h
  · next s' u y' z' heq =>
    cases h
    have hmem : (s, u, y, z) ∈ [(a, c, b, d), (a, d, b, c), (b, c, a, d), (b, d, a, c)].filter
        fun p => decide (p.1 = p.2.1) := by
      rw [heq]
      simp
    simp only [List.mem_filter, List.mem_cons, Prod.mk.injEq, List.not_mem_nil, or_false,
      decide_eq_true_eq] at hmem
    grind
  · cases h

theorem label_of_ofKind? {j : Junction} (h : Junction.ofKind? x.kind = some j) :
    x.label = .op j.op := by
  apply label_of_kind
  cases hk : x.kind <;> simp [hk, Junction.ofKind?] at h <;> subst h <;> rfl

/-- The two pairs of operands that are factored, with what they share in front. -/
theorem factored?_eq_some {j : Junction} {z : Tree} (hx : x.Proposition) (hy : y.Proposition)
    (h : factored? j x y = some z) :
    ∃ (i : Junction) (a b c : Tree), a.Proposition ∧ b.Proposition ∧ c.Proposition ∧
      (x = connective i.op [a, b] ∨ x = connective i.op [b, a]) ∧
      (y = connective i.op [a, c] ∨ y = connective i.op [c, a]) ∧
      z = connective i.op [a, connective j.op [b, c]] := by
  unfold factored? at h
  split at h
  · next i i' hi hi' =>
    split at h
    · cases h
    · next hsame =>
      obtain rfl : i = i' := not_not.1 hsame
      obtain ⟨hxe, hxs⟩ := hx.junction_args (label_of_ofKind? hi)
      obtain ⟨hye, hys⟩ := hy.junction_args (label_of_ofKind? hi')
      split at h
      · next a b c d hab hcd =>
        split at h
        · next s r r' hs =>
          cases h
          rw [hab] at hxe hxs
          rw [hcd] at hye hys
          obtain ⟨hl, hr⟩ := sharedOperand?_eq_some hs
          refine ⟨i, s, r, r', ?_, ?_, ?_, ?_, ?_, rfl⟩
          · exact hxs s (by obtain h | h := hl <;> simp [h])
          · exact hxs r (by obtain h | h := hl <;> simp [h])
          · exact hys r' (by obtain h | h := hr <;> simp [h])
          · exact hl.imp (fun h => by rw [hxe, h]) fun h => by rw [hxe, h]
          · exact hr.imp (fun h => by rw [hye, h]) fun h => by rw [hye, h]
        · cases h
      · cases h
  · cases h

theorem Proposition.eq_constant {b : Bool} (hx : x.Proposition)
    (h : x.kind = if b then .true else .false) : x = constant b := by
  have hl : x.label = .op (if b then .true else .false) := by
    apply label_of_kind
    rw [h]
    cases b <;> rfl
  have hargs : x.args = [] := by
    have hfits := hx.fits hl
    cases b <;> exact List.map_eq_nil_iff.1 hfits.1
  rw [hx.eq_connective hl, hargs]
  rfl

theorem gather_own (j : Junction) (seen : List Tree) (x : Tree) (rs : List Reading) :
    gather j seen (.own x :: rs) =
      if x.kind = j.absorbing then .ok (.inl x)
      else if x.kind = j.neutral ∨ x ∈ seen then gather j seen rs
      else gather j (x :: seen) rs := by
  simp only [gather, Reading.unwrap]
  rfl

theorem exists_gather (j : Junction) (seen xs : List Tree) :
    ∃ out, gather j seen (xs.map .own) = .ok out := by
  induction xs generalizing seen with
  | nil => exact ⟨_, rfl⟩
  | cons x xs ih =>
    rw [List.map_cons, gather_own]
    split
    · exact ⟨_, rfl⟩
    · split <;> exact ih _

/-- A way to judge propositions that goes along their negations and junctions. -/
structure Judges (holds : Tree → Bool → Prop) : Prop where
  proposition {x : Tree} {b : Bool} : holds x b → x.Proposition
  unique {x : Tree} {a b : Bool} : holds x a → holds x b → a = b
  constant (b : Bool) : holds (constant b) b
  not {x : Tree} {b : Bool} : holds x b → holds (connective .not [x]) (!b)
  operand {x : Tree} {b : Bool} : holds (connective .not [x]) b → holds x (!b)
  junction (j : Junction) {xs : List Tree} {bs : List Bool} : 2 ≤ xs.length →
    List.Forall₂ holds xs bs → holds (connective j.op xs) (j.combine bs)
  operands (j : Junction) {x y : Tree} {c : Bool} : holds (connective j.op [x, y]) c →
    ∃ a b, holds x a ∧ holds y b ∧ c = j.combine [a, b]

namespace Judges

variable {holds : Tree → Bool → Prop} {x y : Tree} {a b : Bool} {j : Junction}
  (h : Judges holds)
include h

theorem negation (hx : holds x b) : holds x.negation (!b) := by
  unfold Tree.negation
  split
  · next y ys hk hargs =>
    obtain ⟨z, rfl, -⟩ := (h.proposition hx).not_arg (label_of_kind (by rw [hk]; rfl))
    cases hargs
    exact h.operand hx
  · exact h.not hx

theorem pair (j : Junction) (hx : holds x a) (hy : holds y b) :
    holds (connective j.op [x, y]) (j.combine [a, b]) :=
  h.junction j (by simp) (.cons hx (.cons hy .nil))

theorem operands_comm (j : Junction) {c : Bool} (hx : holds (connective j.op [y, x]) c) :
    ∃ a b, holds x a ∧ holds y b ∧ c = j.combine [a, b] := by
  obtain ⟨b, a, hb, ha, rfl⟩ := h.operands j hx
  exact ⟨a, b, ha, hb, j.combine_comm b a⟩

/-- Factoring is distributivity, or associativity where the connectives are the same. -/
theorem binary (j : Junction) (hx : holds x a) (hy : holds y b) :
    holds (binary j x y) (j.combine [a, b]) := by
  cases hz : factored? j x y with
  | none =>
    rw [Tree.binary, hz]
    exact h.pair j hx hy
  | some z =>
    obtain ⟨i, u, v, w, -, -, -, hxe, hye, rfl⟩ :=
      factored?_eq_some (h.proposition hx) (h.proposition hy) hz
    have hx' : ∃ a₁ a₂, holds u a₁ ∧ holds v a₂ ∧ a = i.combine [a₁, a₂] := by
      obtain rfl | rfl := hxe
      · exact h.operands i hx
      · exact h.operands_comm i hx
    have hy' : ∃ b₁ b₂, holds u b₁ ∧ holds w b₂ ∧ b = i.combine [b₁, b₂] := by
      obtain rfl | rfl := hye
      · exact h.operands i hy
      · exact h.operands_comm i hy
    obtain ⟨a₁, a₂, hu, hv, rfl⟩ := hx'
    obtain ⟨b₁, b₂, hu', hw, rfl⟩ := hy'
    obtain rfl := h.unique hu hu'
    have hz' := h.pair i hu (h.pair j hv hw)
    have hsame : i.combine [a₁, j.combine [a₂, b₂]] =
        j.combine [i.combine [a₁, a₂], i.combine [a₁, b₂]] := by
      cases i <;> cases j <;> cases a₁ <;> simp [Junction.combine]
    rw [Tree.binary, hz, Option.getD_some, ← hsame]
    exact hz'

theorem absorbing (hx : holds x b) (hk : x.kind = j.absorbing) : b = j.limit := by
  have hc : x = Tree.constant j.limit :=
    (h.proposition hx).eq_constant (by cases j <;> exact hk)
  rw [hc] at hx
  exact h.unique hx (h.constant _)

theorem neutral (hx : holds x b) (hk : x.kind = j.neutral) : b = !j.limit := by
  have hc : x = Tree.constant (!j.limit) :=
    (h.proposition hx).eq_constant (by cases j <;> exact hk)
  rw [hc] at hx
  exact h.unique hx (h.constant _)

theorem joined (j : Junction) (hx : holds x a) (hy : holds y b) :
    holds (Tree.junction j x y) (j.combine [a, b]) := by
  unfold Tree.junction
  split
  · next hsame =>
    subst hsame
    obtain rfl := h.unique hx hy
    rwa [j.combine_self]
  · split
    · next hk =>
      rw [h.neutral hy hk, j.combine_comm, j.combine_neutral, j.combine_singleton]
      exact hx
    · split
      · next hk =>
        rw [h.neutral hx hk, j.combine_neutral, j.combine_singleton]
        exact hy
      · exact h.binary j hx hy

end Judges

/-- What was gathered is judged as the operands are together. -/
def Sums (holds : Tree → Bool → Prop) (j : Junction) (b : Bool) : Tree ⊕ List Tree → Prop
  | .inl x => holds x b
  | .inr xs => ∃ bs, List.Forall₂ holds xs bs ∧ j.combine bs = b

namespace Judges

variable {holds : Tree → Bool → Prop} {x y : Tree} {a b : Bool} {j : Junction}
  (h : Judges holds)
include h

theorem mem (hx : holds x b) {xs : List Tree} {bs : List Bool} (hxs : List.Forall₂ holds xs bs)
    (hmem : x ∈ xs) : b ∈ bs := by
  obtain ⟨c, hc, hxc⟩ := exists_related hxs.flip x hmem
  rwa [h.unique hx hxc]

theorem gather {seen xs : List Tree} {as bs : List Bool} (hseen : List.Forall₂ holds seen as)
    (hxs : List.Forall₂ holds xs bs) :
    ∃ out, gather j seen (xs.map .own) = .ok out ∧
      Sums holds j (j.combine (as.reverse ++ bs)) out := by
  induction hxs generalizing seen as with
  | nil => exact ⟨_, rfl, as.reverse, List.forall₂_reverse_iff.2 hseen, by simp⟩
  | @cons x b xs bs hx _ ih =>
    rw [List.map_cons, gather_own]
    split
    · next habs =>
      refine ⟨_, rfl, ?_⟩
      obtain rfl := h.absorbing hx habs
      rw [j.combine_limit (by simp)]
      exact hx
    · split
      · next hdrop =>
        obtain ⟨out, hout, hsums⟩ := ih hseen
        refine ⟨out, hout, ?_⟩
        have hsame : j.combine (as.reverse ++ b :: bs) = j.combine (as.reverse ++ bs) := by
          obtain hn | hmem := hdrop
          · rw [h.neutral hx hn, j.combine_append, j.combine_neutral, ← j.combine_append]
          · have hin : b ∈ as.reverse := List.mem_reverse.2 (h.mem hx hseen hmem)
            rw [List.append_cons, j.combine_append, j.combine_append as.reverse,
              j.combine_singleton, j.combine_mem hin, ← j.combine_append]
        rwa [hsame]
      · obtain ⟨out, hout, hsums⟩ := ih (.cons hx hseen)
        exact ⟨out, hout, by simpa using hsums⟩

theorem join {out : Tree ⊕ List Tree} (hout : Sums holds j b out) : holds (join j out) b := by
  unfold Tree.join
  split
  · exact hout
  · obtain ⟨bs, hbs, rfl⟩ := hout
    cases hbs
    have hc := h.constant (j == .and)
    cases j <;> exact hc
  · obtain ⟨bs, hbs, rfl⟩ := hout
    obtain ⟨b, _, hb, hnil, rfl⟩ := List.forall₂_cons_left_iff.1 hbs
    cases hnil
    rwa [j.combine_singleton]
  · obtain ⟨bs, hbs, rfl⟩ := hout
    obtain ⟨b, _, hb, hrest, rfl⟩ := List.forall₂_cons_left_iff.1 hbs
    obtain ⟨c, _, hc, hnil, rfl⟩ := List.forall₂_cons_left_iff.1 hrest
    cases hnil
    exact h.binary j hb hc
  · next ys h0 h1 h2 =>
    obtain ⟨bs, hbs, rfl⟩ := hout
    refine h.junction j ?_ hbs
    match ys with
    | [] => exact absurd rfl h0
    | [x] => exact absurd rfl (h1 x)
    | _ :: _ :: _ => simp

/-- The junction of a list, however it is simplified. -/
theorem nary {xs : List Tree} {bs : List Bool} (hxs : List.Forall₂ holds xs bs) :
    ∃ y, nary j (xs.map .own) = .ok y ∧ holds y (j.combine bs) := by
  obtain ⟨out, hout, hsums⟩ := h.gather (j := j) .nil hxs
  exact ⟨_, by rw [Tree.nary, hout]; rfl, h.join hsums⟩

end Judges

variable (M ρ) in
/-- What trees say in a structure goes along negations and junctions. -/
theorem judges_truth : Judges fun x b => x.Proposition ∧ x.truth M ρ = b where
  proposition h := h.1
  unique h g := h.2.symm.trans g.2
  constant b := ⟨proposition_constant b, truth_constant M ρ b⟩
  not h := ⟨proposition_not h.1, by rw [truth_not h.1, h.2]⟩
  operand h := by
    obtain ⟨y, hy, hyp⟩ := h.1.not_arg rfl
    cases hy
    exact ⟨hyp, by rw [← h.2, truth_not hyp, Bool.not_not]⟩
  junction j xs bs hlen h := by
    have hp : ∀ x ∈ xs, x.Proposition := fun x hx => by
      obtain ⟨b, -, hb⟩ := exists_related h.flip x hx
      exact hb.1
    have hbs : xs.map (truth M ρ) = bs := by
      rw [← List.forall₂_eq_eq_eq, List.forall₂_map_left_iff]
      exact h.imp fun _ _ hb => hb.2
    exact ⟨proposition_junction j hlen hp, by rw [truth_junction hp, hbs]⟩
  operands j x y c h := by
    obtain ⟨-, hargs⟩ := h.1.junction_args rfl
    have hx : x.Proposition := hargs x (by simp [connective, args])
    have hy : y.Proposition := hargs y (by simp [connective, args])
    refine ⟨x.truth M ρ, y.truth M ρ, ⟨hx, rfl⟩, ⟨hy, rfl⟩, ?_⟩
    rw [← h.2, truth_junction (by simp [hx, hy])]
    rfl

theorem truth_negation (hx : x.Proposition) : x.negation.truth M ρ = !x.truth M ρ :=
  ((judges_truth M ρ).negation ⟨hx, rfl⟩).2

/-- The junction of propositions, however it is simplified. -/
theorem truth_nary {j : Junction} {xs : List Tree} {y : Tree} (hxs : ∀ x ∈ xs, x.Proposition)
    (h : nary j (xs.map .own) = .ok y) :
    y.Proposition ∧ ∀ (A : TermSort → TermSort → Type) (M : Structure A) (ρ : Binding A),
      y.truth M ρ = j.combine (xs.map (truth M ρ)) := by
  have hall : ∀ {A : TermSort → TermSort → Type} (M : Structure A) (ρ : Binding A),
      y.Proposition ∧ y.truth M ρ = j.combine (xs.map (truth M ρ)) := by
    intro A M ρ
    have htruths : List.Forall₂ (fun x b => x.Proposition ∧ x.truth M ρ = b) xs
        (xs.map (truth M ρ)) := by
      rw [List.forall₂_map_right_iff, List.forall₂_same]
      exact fun x hx => ⟨hxs x hx, rfl⟩
    obtain ⟨z, hz, hjudged⟩ := (judges_truth M ρ).nary (j := j) htruths
    rw [h] at hz
    cases hz
    exact hjudged
  -- Whether it is a proposition at all can be told in any structure.
  have hsome := hall (default : Structure fun _ _ => Unit) fun _ => .truth false
  exact ⟨hsome.1, fun A M ρ => (hall M ρ).2⟩

end Tree
end FormulaStack
