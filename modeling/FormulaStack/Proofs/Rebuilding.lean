import FormulaStack.Proofs.Simplification

/-!
Trees with other formulas for their atoms. The result of rebuilding a tree from the atoms up is as
true as the tree is if its atoms are read as what stands for them.
-/
namespace FormulaStack.Tree

variable {A : TermSort → TermSort → Type}

/-- Whether a boolean tree is left whole by a visit. -/
def isAtom (x : Tree) : Bool :=
  match x.label with
  | .op .true | .op .false | .op .not | .op .and | .op .or | .op .iff | .op .implies | .op .ite
  | .op (.quantifier ..) => false
  | .op .eq | .op .distinct => !x.args.head?.any (·.sort == .bool)
  | _ => true

/-- Whether no boolean visit can enter a tree. -/
def isRefused (x : Tree) : Bool := x.label == .op .distinct && !x.isAtom

/-- The trees that a visit goes on to. -/
def operands (x : Tree) : List Tree := if x.isAtom || x.isRefused then [] else x.args

/-- A connective over the images of its operands. -/
def combine (l : Label) (rs : List Reading) : Except Fault Tree :=
  match l, rs with
  | .op .true, [] => return constant true
  | .op .false, [] => return constant false
  | .op .not, [r] => return negation (← r.unwrap)
  | .op .and, rs => nary .and rs
  | .op .or, rs => nary .or rs
  | .op .iff, [r, s] | .op .eq, [r, s] => return connective .iff [← r.unwrap, ← s.unwrap]
  | .op .implies, [r, s] => return connective .implies [← r.unwrap, ← s.unwrap]
  | .op .ite, [c, r, s] => return connective .ite [← c.unwrap, ← r.unwrap, ← s.unwrap]
  | .op (.quantifier q vars), [r] => return connective (.quantifier q vars) [← r.unwrap]
  | _, _ => .error (.badArgument .noOperands)

/-- A tree with the images of its atoms in their places. -/
def rebuild (image : Tree → Reading) : Tree → Except Fault Reading :=
  fold fun l k xs =>
    let x := node l k (xs.map (·.1))
    if x.isAtom then return image x
    else if x.isRefused then .error (.missingOperator (.root "distinct"))
    else do return .own (← combine l (← xs.mapM (·.2)))

open scoped Classical in
/-- What a connective says of its operands. -/
noncomputable def connect? (l : Label) (ps : List (Binding A → Bool)) (ρ : Binding A) :
    Option Bool :=
  match l, ps with
  | .op .true, [] => some true
  | .op .false, [] => some false
  | .op .not, [p] => some !p ρ
  | .op .and, ps => some (ps.all (· ρ))
  | .op .or, ps => some (ps.any (· ρ))
  | .op .iff, [p, q] | .op .eq, [p, q] => some (p ρ == q ρ)
  | .op .implies, [p, q] => some (!p ρ || q ρ)
  | .op .ite, [c, p, q] => some (if c ρ then p ρ else q ρ)
  | .op (.quantifier q vars), [p] =>
    some (decide (q.Holds (vars.map (·.2)) fun ds => p (ρ.extend ds) = true))
  | _, _ => none

/-- Whether a tree is true, if its atoms are read by `atom`. -/
noncomputable def truthWith (atom : Tree → Binding A → Bool) : Tree → Binding A → Bool :=
  fold fun l k xs ρ =>
    let x := node l k (xs.map (·.1))
    if x.isAtom then atom x ρ else (connect? l (xs.map (·.2)) ρ).getD (atom x ρ)

theorem rebuild_eq (image : Tree → Reading) (x : Tree) :
    x.rebuild image =
      if x.isAtom then .ok (image x)
      else if x.isRefused then .error (.missingOperator (.root "distinct"))
      else do return .own (← combine x.label (← x.args.mapM (rebuild image))) := by
  obtain ⟨l, k, xs⟩ := x
  rw [rebuild, fold_node]
  simp only [List.map_map, Function.comp_def, List.map_id', List.mapM_map]
  rfl

theorem rebuild_of_refused (image : Tree → Reading) {x : Tree} (h : x.isRefused = true) :
    x.rebuild image = .error (.missingOperator (.root "distinct")) := by
  have ha : ¬x.isAtom = true := by
    intro ha
    simp [isRefused, ha] at h
  rw [rebuild_eq, if_neg ha, if_pos h]

theorem truthWith_eq (atom : Tree → Binding A → Bool) (x : Tree) (ρ : Binding A) :
    x.truthWith atom ρ =
      if x.isAtom then atom x ρ
      else (connect? x.label (x.args.map (truthWith atom)) ρ).getD (atom x ρ) := by
  obtain ⟨l, k, xs⟩ := x
  rw [truthWith, fold_node]
  simp only [List.map_map, Function.comp_def, List.map_id']
  rfl

variable {M : Structure A} {ρ : Binding A} {x : Tree}

theorem Proposition.args (hx : x.Proposition) (h : x.isAtom = false) :
    ∀ y ∈ x.args, y.Proposition := by
  intro y hy
  refine ⟨hx.arg_wellSorted y hy, ?_⟩
  have hmem : y.sort ∈ x.args.map sort := List.mem_map_of_mem hy
  cases hl : x.label with
  | apply f => simp [isAtom, hl] at h
  | op o =>
    have hfits := hx.fits hl
    have head : ∀ k, (∀ b ∈ x.args.map sort, b = k) →
        x.args.head?.any (·.sort == .bool) = true → y.sort = .bool := by
      intro k hk hany
      cases hargs : x.args with
      | nil => simp [hargs] at hy
      | cons z zs =>
        have hz : z.sort = k := hk _ (by simp [hargs])
        have hzb : z.sort = .bool := by simpa [hargs] using hany
        rw [hk _ hmem, ← hz, hzb]
    cases o with
    | true | false | not | iff | implies =>
      rw [hfits.1] at hmem
      simp_all
    | and | or => exact hfits.2.1 _ hmem
    | ite =>
      change x.args.map sort = [.bool, .bool, .bool] at hfits
      rw [hfits] at hmem
      simpa using hmem
    | quantifier q vars =>
      rw [hfits.2.1] at hmem
      simpa using hmem
    | eq =>
      obtain ⟨⟨k, hk⟩, -⟩ := hfits
      exact head k (by simp [hk]) (by simpa [isAtom, hl] using h)
    | distinct =>
      obtain ⟨-, ⟨k, hk⟩, -⟩ := hfits
      exact head k hk (by simpa [isAtom, hl] using h)
    | _ => simp [isAtom, hl] at h

/-- A connective over propositions is as true as the connective says. -/
theorem truth_combine {l : Label} {ys : List Tree} {z : Tree} (hys : ∀ y ∈ ys, y.Proposition)
    (hl : ∀ q vars, l = .op (.quantifier q vars) → vars ≠ [])
    (h : combine l (ys.map .own) = .ok z) :
    z.Proposition ∧ ∀ (A : TermSort → TermSort → Type) (M : Structure A) (ρ : Binding A),
      connect? l (ys.map fun y ρ => y.truth M ρ) ρ = some (z.truth M ρ) := by
  unfold combine at h
  split at h
  case h_1 heq =>
    obtain rfl := List.map_eq_nil_iff.1 heq
    cases h
    exact ⟨proposition_constant _, by simp [connect?]⟩
  case h_2 heq =>
    obtain rfl := List.map_eq_nil_iff.1 heq
    cases h
    exact ⟨proposition_constant _, by simp [connect?]⟩
  case h_3 heq =>
    obtain ⟨y, rfl, rfl⟩ := List.map_eq_singleton_iff.1 heq
    have hy : y.Proposition := hys y (by simp)
    cases h
    exact ⟨proposition_negation hy, by simp [connect?, truth_negation hy]⟩
  case h_4 =>
    obtain ⟨hz, htruth⟩ := truth_nary hys h
    refine ⟨hz, fun A M ρ => ?_⟩
    rw [htruth]
    simp [connect?, Junction.combine, List.all_map, Function.comp_def]
  case h_5 =>
    obtain ⟨hz, htruth⟩ := truth_nary hys h
    refine ⟨hz, fun A M ρ => ?_⟩
    rw [htruth]
    simp [connect?, Junction.combine, List.any_map, Function.comp_def]
  case h_6 heq | h_7 heq =>
    obtain ⟨y, z, rfl, rfl, rfl⟩ := map_eq_pair heq
    have hy : y.Proposition := hys y (by simp)
    have hz : z.Proposition := hys z (by simp)
    cases h
    exact ⟨proposition_connective ⟨rfl, rfl⟩ hys, by simp [connect?, truth_iff hy hz]⟩
  case h_8 heq =>
    obtain ⟨y, z, rfl, rfl, rfl⟩ := map_eq_pair heq
    have hy : y.Proposition := hys y (by simp)
    have hz : z.Proposition := hys z (by simp)
    cases h
    exact ⟨proposition_connective ⟨rfl, rfl⟩ hys, by simp [connect?, truth_implies hy hz]⟩
  case h_9 heq =>
    obtain ⟨c, as, rfl, rfl, has⟩ := List.map_eq_cons_iff.1 heq
    obtain ⟨y, z, rfl, rfl, rfl⟩ := map_eq_pair has
    have hc : c.Proposition := hys c (by simp)
    have hy : y.Proposition := hys y (by simp)
    have hz : z.Proposition := hys z (by simp)
    cases h
    exact ⟨proposition_connective rfl hys, by simp [connect?, truth_ite hc hy hz]⟩
  case h_10 q vars _ heq =>
    obtain ⟨y, rfl, rfl⟩ := List.map_eq_singleton_iff.1 heq
    have hy : y.Proposition := hys y (by simp)
    cases h
    exact ⟨proposition_connective ⟨hl q vars rfl, rfl, rfl⟩ hys,
      by simp [connect?, truth_quantifier hy]⟩
  case h_11 => cases h

/-- What is said of the operands of a connective is what it says itself. -/
theorem truth_of_connect? {o : Operator} {ys : List Tree} {b : Bool}
    (hys : ∀ y ∈ ys, y.Proposition)
    (h : connect? (.op o) (ys.map fun y ρ => y.truth M ρ) ρ = some b) :
    (connective o ys).truth M ρ = b := by
  unfold connect? at h
  split at h <;> cases h
  case h_1 ho heq =>
    cases ho
    obtain rfl := List.map_eq_nil_iff.1 heq
    exact truth_constant M ρ true
  case h_2 ho heq =>
    cases ho
    obtain rfl := List.map_eq_nil_iff.1 heq
    exact truth_constant M ρ false
  case h_3 ho heq =>
    cases ho
    obtain ⟨y, rfl, rfl⟩ := List.map_eq_singleton_iff.1 heq
    exact truth_not (hys y (by simp))
  case h_4 ho =>
    cases ho
    simp [truth_and hys, List.all_map, Function.comp_def]
  case h_5 ho =>
    cases ho
    simp [truth_or hys, List.any_map, Function.comp_def]
  case h_6 ho heq =>
    cases ho
    obtain ⟨y, z, rfl, rfl, rfl⟩ := map_eq_pair heq
    exact truth_iff (hys y (by simp)) (hys z (by simp))
  case h_7 ho heq =>
    cases ho
    obtain ⟨y, z, rfl, rfl, rfl⟩ := map_eq_pair heq
    exact truth_eq (hys y (by simp)) (hys z (by simp))
  case h_8 ho heq =>
    cases ho
    obtain ⟨y, z, rfl, rfl, rfl⟩ := map_eq_pair heq
    exact truth_implies (hys y (by simp)) (hys z (by simp))
  case h_9 ho heq =>
    cases ho
    obtain ⟨c, as, rfl, rfl, has⟩ := List.map_eq_cons_iff.1 heq
    obtain ⟨y, z, rfl, rfl, rfl⟩ := map_eq_pair has
    exact truth_ite (hys c (by simp)) (hys y (by simp)) (hys z (by simp))
  case h_10 ho heq =>
    cases ho
    obtain ⟨y, rfl, rfl⟩ := List.map_eq_singleton_iff.1 heq
    exact truth_quantifier (hys y (by simp))

/-- Operands that are as many as before can be combined. -/
theorem exists_combine {ys : List Tree} (hx : x.Proposition) (ha : x.isAtom = false)
    (hr : x.isRefused = false) (hlen : ys.length = x.args.length) :
    ∃ z, combine x.label (ys.map .own) = .ok z := by
  have nary : ∀ j, ∃ z, nary j (ys.map .own) = .ok z := by
    intro j
    obtain ⟨out, hout⟩ := exists_gather j [] ys
    exact ⟨join j out, by rw [Tree.nary, hout]; rfl⟩
  have count : ∀ {ks : List TermSort}, x.args.map sort = ks → ys.length = ks.length := by
    rintro _ rfl
    simpa using hlen
  cases hl : x.label with
  | apply f => simp [isAtom, hl] at ha
  | op o =>
    have hfits := hx.fits hl
    cases o with
    | true | false =>
      obtain rfl := List.length_eq_zero_iff.1 (count hfits.1)
      exact ⟨_, rfl⟩
    | not =>
      obtain ⟨y, rfl⟩ := List.length_eq_one_iff.1 (count hfits.1)
      exact ⟨_, rfl⟩
    | and | or => exact nary _
    | iff | implies =>
      obtain ⟨y, z, rfl⟩ := List.length_eq_two.1 (count hfits.1)
      exact ⟨_, rfl⟩
    | eq =>
      obtain ⟨⟨k, hk⟩, -⟩ := hfits
      obtain ⟨y, z, rfl⟩ := List.length_eq_two.1 (count hk)
      exact ⟨_, rfl⟩
    | ite =>
      obtain ⟨c, y, z, rfl⟩ := List.length_eq_three.1 (count hfits)
      exact ⟨_, rfl⟩
    | quantifier q vars =>
      obtain ⟨y, rfl⟩ := List.length_eq_one_iff.1 (count hfits.2.1)
      exact ⟨_, rfl⟩
    | distinct => simp [isRefused, hl, ha] at hr
    | _ => simp [isAtom, hl] at ha

theorem bind_eq_ok {α β : Type} {e : Except Fault α} {f : α → Except Fault β} {b : β} :
    e >>= f = .ok b ↔ ∃ a, e = .ok a ∧ f a = .ok b := by
  cases e <;> simp [bind, Except.bind]

/-- Propositions for atoms. -/
structure Substitution where
  image : Tree → Tree
  proposition : ∀ a, a.isAtom = true → a.Proposition → (image a).Proposition

/-- A tree is as true as another with images in the places of its atoms, in every structure. -/
def Renders (image : Tree → Tree) (x y : Tree) : Prop :=
  y.Proposition ∧ ∀ (A : TermSort → TermSort → Type) (M : Structure A) (ρ : Binding A),
    y.truth M ρ = x.truthWith (fun a ρ => (image a).truth M ρ) ρ

/-- The images of several trees, from what is known of each image. -/
theorem exists_rendered {image : Tree → Tree} {xs : List Tree} {rs : List Reading}
    (hrs : xs.mapM (rebuild fun a => .own (image a)) = .ok rs)
    (h : ∀ x ∈ xs, ∀ r, x.rebuild (fun a => .own (image a)) = .ok r →
      ∃ y, r = .own y ∧ Renders image x y) :
    ∃ ys : List Tree, rs = ys.map .own ∧ List.Forall₂ (Renders image) xs ys := by
  replace hrs := mapM_eq_ok.1 hrs
  induction hrs with
  | nil => exact ⟨[], rfl, .nil⟩
  | cons hr _ ih =>
    obtain ⟨y, rfl, hy⟩ := h _ (by simp) _ hr
    obtain ⟨ys, rfl, hys⟩ := ih fun z hz => h z (by simp [hz])
    exact ⟨y :: ys, rfl, .cons hy hys⟩

theorem truths_rendered {image : Tree → Tree} {xs ys : List Tree}
    (h : List.Forall₂ (Renders image) xs ys) (M : Structure A) :
    xs.map (truthWith fun a ρ => (image a).truth M ρ) = ys.map fun y ρ => y.truth M ρ := by
  induction h with
  | nil => rfl
  | cons hx _ ih => rw [List.map_cons, List.map_cons, ih, funext fun ρ => hx.2 _ M ρ]

theorem propositions_rendered {image : Tree → Tree} {xs ys : List Tree}
    (h : List.Forall₂ (Renders image) xs ys) : ∀ y ∈ ys, y.Proposition := by
  induction h with
  | nil => simp
  | cons hx _ ih => simpa using ⟨hx.1, ih⟩

/-- Rebuilding keeps truth. -/
theorem truth_rebuild (σ : Substitution) {r : Reading} (hx : x.Proposition)
    (h : x.rebuild (fun a => .own (σ.image a)) = .ok r) :
    ∃ y, r = .own y ∧ Renders σ.image x y := by
  -- `Renders` is about all values of the bound variables, as they change on the way into a body.
  induction x using Tree.induction generalizing r with
  | step l k xs ih =>
    rw [rebuild_eq] at h
    split at h
    · next hc =>
      cases h
      refine ⟨_, rfl, σ.proposition _ hc hx, fun A M ρ => ?_⟩
      rw [truthWith_eq, if_pos hc]
    · next hc =>
      have hargs := hx.args (by simpa using hc)
      split at h
      · cases h
      · obtain ⟨rs, hrs, h⟩ := bind_eq_ok.1 h
        obtain ⟨z, hz, h⟩ := bind_eq_ok.1 h
        cases h
        obtain ⟨ys, rfl, hys⟩ := exists_rendered hrs fun x hx' r hr =>
          ih x hx' (hargs x hx') hr
        have hvars : ∀ q vars, l = .op (.quantifier q vars) → vars ≠ [] := by
          rintro q vars rfl
          exact (hx.fits rfl).1
        have hall := propositions_rendered hys
        obtain ⟨hzp, htruth⟩ := truth_combine hall hvars hz
        refine ⟨z, rfl, hzp, fun A M ρ => ?_⟩
        rw [truthWith_eq, if_neg hc, truths_rendered hys]
        exact (congrArg (Option.getD · _) (htruth A M ρ)).symm

/-- A tree whose atoms are read as what they are. -/
theorem truthWith_truth (hx : x.Proposition) :
    x.truthWith (fun y ρ => y.truth M ρ) ρ = x.truth M ρ := by
  induction x using Tree.induction generalizing ρ with
  | step l k xs ih =>
    rw [truthWith_eq]
    split
    · rfl
    · next hc =>
      have hargs := hx.args (by simpa using hc)
      have hxs : xs.map (truthWith fun y ρ => y.truth M ρ) = xs.map fun y ρ => y.truth M ρ :=
        List.map_congr_left fun y hy => funext fun ρ => ih y hy (hargs y hy)
      change (connect? l (xs.map (truthWith fun y ρ => y.truth M ρ)) ρ).getD _ = _
      rw [hxs]
      cases h : connect? l (xs.map fun y ρ => y.truth M ρ) ρ with
      | none => rfl
      | some b =>
        cases l with
        | op o =>
          rw [hx.eq_connective rfl]
          exact (truth_of_connect? hargs h).symm
        | apply f => simp [connect?] at h

end FormulaStack.Tree
