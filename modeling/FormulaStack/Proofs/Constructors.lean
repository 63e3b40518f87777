import FormulaStack.Build.Binding
import FormulaStack.Proofs.Building

/-!
Binding keeps sorts, so quantifiers let a store grow as the other constructors do. All constructors
as data.
-/
namespace FormulaStack

namespace Build

/-- Terms already bound have the sorts of the terms they stand for. -/
def BoundTerms.Sorted (memo : BoundTerms) (s : Store) : Prop :=
  ∀ x ∈ memo, ∃ k, s.sort? x.1.1 = some k ∧ s.sort? x.2 = some k

theorem BoundTerms.Sorted.mono {memo : BoundTerms} {s u : Store} (h : memo.Sorted s)
    (hu : u.Extends s) : memo.Sorted u := by
  intro x hx
  obtain ⟨k, ht, hr⟩ := h x hx
  exact ⟨k, hu.sort? ht, hu.sort? hr⟩

/-- The terms `rs` have, in the store `u`, the sorts that the terms `ts` have in `s`. -/
def Bound (s : Store) (memo : BoundTerms) (ts rs : List Term) (memo' : BoundTerms) (u : Store) :
    Prop :=
  u.Extends s ∧ (s.WellFormed → memo.Sorted s →
    u.WellFormed ∧ memo'.Sorted u ∧ ∀ ks, s.Sorts ts ks → u.Sorts rs ks)

namespace Bound

variable {s u v : Store} {memo memo₁ memo₂ : BoundTerms} {t r : Term} {ts rs : List Term}

theorem refl : Bound s memo ts ts memo s := ⟨.refl s, fun hs hm => ⟨hs, hm, fun _ h => h⟩⟩

theorem cons (h : Bound s memo [t] [r] memo₁ u) (hs : Bound u memo₁ ts rs memo₂ v) :
    Bound s memo (t :: ts) (r :: rs) memo₂ v := by
  refine ⟨hs.1.trans h.1, fun hw hm => ?_⟩
  obtain ⟨hu, hm₁, ht⟩ := h.2 hw hm
  obtain ⟨hv, hm₂, hts⟩ := hs.2 hu hm₁
  refine ⟨hv, hm₂, fun ks hks => ?_⟩
  obtain ⟨k, ls, hk, hls, rfl⟩ := Store.sorts_cons.1 hks
  obtain ⟨l, _, hl, -, hkl⟩ := Store.sorts_cons.1 (ht [k] (.cons hk .nil))
  cases hkl
  exact .cons (hs.1.sort? hl) (hts ls (hls.mono h.1))

/-- A new node of the sort of a term. -/
theorem intern {n m : Node} (ht : s.node? t = some n) (hs : m.sort = n.sort)
    (h : u.Extends s) (hw : s.WellFormed → memo.Sorted s → u.WellFormed ∧ memo₁.Sorted u ∧
      ∃ ks, u.Sorts m.args ks ∧ m.op.Fits u.decl? ks m.sort) :
    Bound s memo [t] [(u.intern m).1] memo₁ (u.intern m).2 := by
  have hext := u.intern_extends m
  refine ⟨hext.trans h, fun hws hm => ?_⟩
  obtain ⟨hu, hm₁, hfit⟩ := hw hws hm
  have hgrow : u.Grows (u.intern m).2 := Store.grows_intern fun _ => hfit
  refine ⟨hgrow.wellFormed hu, hm₁.mono hext, fun ks hks => ?_⟩
  obtain ⟨k, ls, hk, hls, rfl⟩ := Store.sorts_cons.1 hks
  cases hls
  have hkn : s.sort? t = some n.sort := Option.map_eq_some_iff.2 ⟨n, ht, rfl⟩
  rw [hkn] at hk
  refine .cons ?_ .nil
  rw [Store.sort?_intern, hs, hk]

/-- The result for a term is remembered. -/
theorem remember {n : Node} {depth : Nat} (ht : s.node? t = some n)
    (h : Bound s memo [t] [r] memo₁ u) :
    Bound s memo [t] [r] (((t, depth), r) :: memo₁) u := by
  refine ⟨h.1, fun hw hm => ?_⟩
  obtain ⟨hu, hm₁, hks⟩ := h.2 hw hm
  refine ⟨hu, ?_, hks⟩
  have hk : s.sort? t = some n.sort := Option.map_eq_some_iff.2 ⟨n, ht, rfl⟩
  obtain ⟨l, _, hl, -, hkl⟩ := Store.sorts_cons.1 (hks [n.sort] (.cons hk .nil))
  cases hkl
  intro x hx
  obtain rfl | hx := List.mem_cons.1 hx
  · exact ⟨n.sort, h.1.sort? hk, hl⟩
  · exact hm₁ x hx

end Bound

theorem bind_memo_eq_ok {x : StateT BoundTerms Build α} {f : α → StateT BoundTerms Build β}
    {memo : BoundTerms} {s : Store} {r : (β × BoundTerms) × Store} :
    (x >>= f) memo s = .ok r ↔
      ∃ a memo₁ t, x memo s = .ok ((a, memo₁), t) ∧ f a memo₁ t = .ok r := by
  change (x memo >>= fun p => f p.1 p.2) s = .ok r ↔ _
  simp only [bind_eq_ok, Prod.exists]

theorem lift_eq_ok {b : Build α} {memo : BoundTerms} {s : Store} {r : (α × BoundTerms) × Store} :
    (liftM b : StateT BoundTerms Build α) memo s = .ok r ↔
      ∃ a t, b s = .ok (a, t) ∧ r = ((a, memo), t) := by
  change (b >>= fun a => pure (a, memo)) s = .ok r ↔ _
  simp only [bind_eq_ok, pure_eq_ok]

theorem mapM_bound {f : Term → StateT BoundTerms Build Term}
    (hf : ∀ {t memo memo' s u r}, f t memo s = .ok ((r, memo'), u) → Bound s memo [t] [r] memo' u)
    {ts rs : List Term} {memo memo' : BoundTerms} {s u : Store}
    (h : ts.mapM f memo s = .ok ((rs, memo'), u)) : Bound s memo ts rs memo' u := by
  induction ts generalizing memo s rs with
  | nil =>
    rw [List.mapM_nil] at h
    cases h
    exact .refl
  | cons t ts ih =>
    rw [List.mapM_cons] at h
    obtain ⟨r, memo₁, v, hr, h⟩ := bind_memo_eq_ok.1 h
    obtain ⟨rs, memo₂, w, hrs, h⟩ := bind_memo_eq_ok.1 h
    cases h
    exact (hf hr).cons (ih hrs)

theorem boundName_readOnly (t : Term) : ReadOnly (boundName t) := by
  unfold boundName
  refine .bind (.node t) fun n => ?_
  split
  · exact .bind (.ofExcept _) fun f => .pure _
  · exact .fail _

theorem remember_eq_ok {t r r' : Term} {depth : Nat} {memo memo' : BoundTerms} {s u : Store}
    (h : (do modify (((t, depth), r) :: ·); return r : StateT BoundTerms Build Term) memo s =
      .ok ((r', memo'), u)) : r' = r ∧ memo' = ((t, depth), r) :: memo ∧ u = s := by
  cases h
  exact ⟨rfl, rfl, rfl⟩

theorem abstractWith_bound (vars : List Term) (fuel depth : Nat) {t : Term}
    {memo memo' : BoundTerms} {s u : Store} {r : Term}
    (h : abstractWith vars fuel depth t memo s = .ok ((r, memo'), u)) :
    Bound s memo [t] [r] memo' u := by
  induction fuel generalizing depth t memo s u r memo' with
  | zero =>
    cases h
    exact .refl
  | succ fuel ih =>
    unfold abstractWith at h
    obtain ⟨_, _, _, hget, hlook⟩ := bind_memo_eq_ok.1 h
    cases hget
    cases hl : memo.lookup (t, depth) with
    | some done =>
      rw [hl] at hlook
      cases hlook
      obtain ⟨l₁, l₂, rfl, -⟩ := List.lookup_eq_some_iff.1 hl
      refine ⟨.refl s, fun hs hm => ⟨hs, hm, fun ks hks => ?_⟩⟩
      obtain ⟨k, hk, hr⟩ := hm ((t, depth), r) (by simp)
      rw [(Store.Sorts.unique hks (.cons hk .nil) : ks = [k])]
      exact .cons hr .nil
    | none =>
      rw [hl] at hlook
      obtain ⟨n, _, _, hnode, hcases⟩ := bind_memo_eq_ok.1 hlook
      obtain ⟨_, v, hn, hr⟩ := lift_eq_ok.1 hnode
      cases hr
      obtain ⟨hn, hv⟩ := node_eq_ok.1 hn
      subst hv
      dsimp only at hcases hn
      cases hi : binderIndex? vars t with
      | some index =>
        rw [hi] at hcases
        obtain ⟨x, memo₁, w, hx, hend⟩ := bind_memo_eq_ok.1 hcases
        obtain ⟨_, _, hx, hr⟩ := lift_eq_ok.1 hx
        cases hr
        obtain ⟨rfl, rfl, rfl⟩ := remember_eq_ok hend
        obtain ⟨rfl, rfl⟩ := Prod.ext_iff.1 (intern_eq_ok.1 hx)
        exact .remember hn (.intern hn rfl (.refl _) fun hs hm => ⟨hs, hm, [], .nil, rfl⟩)
      | none =>
        rw [hi] at hcases
        by_cases hempty : n.args.isEmpty
        · dsimp only at hcases
          rw [if_pos hempty] at hcases
          obtain ⟨rfl, rfl, rfl⟩ := remember_eq_ok hcases
          exact .remember hn .refl
        · dsimp only at hcases
          rw [if_neg hempty] at hcases
          obtain ⟨rs, memo₁, w, hrs, hmk⟩ := bind_memo_eq_ok.1 hcases
          obtain ⟨x, memo₂, y, hx, hend⟩ := bind_memo_eq_ok.1 hmk
          obtain ⟨_, _, hx, hr⟩ := lift_eq_ok.1 hx
          cases hr
          obtain ⟨rfl, rfl, rfl⟩ := remember_eq_ok hend
          obtain ⟨rfl, rfl⟩ := Prod.ext_iff.1 (intern_eq_ok.1 hx)
          have hargs := mapM_bound (ih _) hrs
          refine .remember hn (.intern hn rfl hargs.1 fun hs hm => ?_)
          obtain ⟨hw, hm₁, hks⟩ := hargs.2 hs hm
          obtain ⟨ks, hn, hfit⟩ := hs.fits hn
          exact ⟨hw, hm₁, ks, hks ks hn, hfit.mono hargs.1.decl?⟩

theorem abstract_eq_ok {vars : List Term} {t r : Term} {s u : Store}
    (h : abstract vars t s = .ok (r, u)) :
    ∃ memo, abstractWith vars (t.index + 1) 0 t [] s = .ok ((r, memo), u) := by
  have h : (abstractWith vars (t.index + 1) 0 t [] >>= fun p => pure p.1) s = .ok (r, u) := h
  obtain ⟨⟨a, memo⟩, v, ha, hr⟩ := bind_eq_ok.1 h
  cases pure_eq_ok.1 hr
  exact ⟨memo, ha⟩

namespace Grows

theorem quantifier (q : Quantifier) (vars : List Term) (body : Term) :
    Grows (quantifier q vars body) := by
  intro s t u h
  obtain ⟨_, v, hb, hif⟩ := bind_eq_ok.1 h
  obtain ⟨hb, hv⟩ := expect_eq_ok.1 hb
  subst hv
  split at hif
  · exact pure _ _ _ _ hif
  · next hvars =>
    obtain ⟨names, w, hnames, habs⟩ := bind_eq_ok.1 hif
    obtain ⟨hlen, hw⟩ := ReadOnly.mapM boundName_readOnly hnames
    subst hw
    obtain ⟨r, x, hr, hu⟩ := bind_eq_ok.1 habs
    obtain ⟨memo, hr⟩ := abstract_eq_ok hr
    obtain ⟨hext, hbound⟩ := abstractWith_bound vars _ 0 hr
    have hne : names ≠ [] := by
      rintro rfl
      exact hvars (by simpa using hlen.symm)
    obtain ⟨rfl, rfl⟩ := Prod.ext_iff.1 (intern_eq_ok.1 hu)
    refine ⟨(Store.intern_extends _ _).trans hext, fun hs => ?_⟩
    obtain ⟨hwx, -, hks⟩ := hbound hs (by simp [BoundTerms.Sorted])
    have hbody := hks [.bool] (.cons hb .nil)
    refine (Store.grows_intern fun _ => ⟨[.bool], hbody, ?_⟩).wellFormed hwx
    exact ⟨hne, rfl, rfl⟩

end Grows
end Build

/-- A constructor of terms with its arguments. -/
inductive Constructor where
  | truth (value : Bool)
  | not (t : Term)
  | and (ts : List Term)
  | or (ts : List Term)
  | iff (a b : Term)
  | implies (a b : Term)
  | ite (c a b : Term)
  | eq (a b : Term)
  | distinct (ts : List Term)
  | apply (d : FuncDecl) (ts : List Term)
  | constant (name : String) (sort : TermSort)
  | replaceChildren (t : Term) (ts : List Term)
  | numeral (value : Rat) (sort : TermSort)
  | add (ts : List Term)
  | neg (t : Term)
  | sub (a b : Term)
  | mul (a b : Term)
  | divide (a b : Term)
  | modulo (a b : Term)
  | toReal (t : Term)
  | compare (op : ArithOp) (relation : op ∈ [.lt, .le, .gt, .ge]) (a b : Term)
  | bits (value : Int) (width : Nat)
  | bitUnary (op : BitOp) (unary : op ∈ [.not, .neg]) (t : Term)
  | bitBinary (op : BitOp) (binary : op ∉ [.not, .neg, .concat]) (a b : Term)
  | concat (a b : Term)
  | extract (high low : Nat) (t : Term)
  | select (array index : Term)
  | store (array index value : Term)
  | constArray (index : TermSort) (value : Term)
  | quantifier (q : Quantifier) (vars : List Term) (body : Term)

namespace Constructor

/-- The term that a constructor makes. -/
def build : Constructor → Build Term
  | truth value => Build.truth value
  | not t => Build.not t
  | and ts => Build.and ts
  | or ts => Build.or ts
  | iff a b => Build.iff a b
  | implies a b => Build.implies a b
  | ite c a b => Build.ite c a b
  | eq a b => Build.eq a b
  | distinct ts => Build.distinct ts
  | apply d ts => Build.apply d ts
  | constant name sort => Build.constant name sort
  | replaceChildren t ts => Build.replaceChildren t ts
  | numeral value sort => Build.numeral value sort
  | add ts => Build.arith .add ts
  | neg t => Build.arith .neg [t]
  | sub a b => Build.arith .sub [a, b]
  | mul a b => Build.arith .mul [a, b]
  | divide a b => Build.divide a b
  | modulo a b => Build.modulo a b
  | toReal t => Build.toReal t
  | compare op _ a b => Build.compare op a b
  | bits value width => Build.bits value width
  | bitUnary op _ t => Build.bitwise op t []
  | bitBinary op _ a b => Build.bitwise op a [b]
  | concat a b => Build.concat a b
  | extract high low t => Build.extract high low t
  | select array index => Build.select array index
  | store array index value => Build.store array index value
  | constArray index value => Build.constArray index value
  | quantifier q vars body => Build.quantifier q vars body

theorem grows (c : Constructor) : c.build.Grows := by
  cases c with
  | truth value => exact .truth value
  | not t => exact .not t
  | and ts => exact .and ts
  | or ts => exact .or ts
  | iff a b => exact .iff a b
  | implies a b => exact .implies a b
  | ite c a b => exact .ite c a b
  | eq a b => exact .eq a b
  | distinct ts => exact .distinct ts
  | apply d ts => exact .apply d ts
  | constant name sort => exact .constant name sort
  | replaceChildren t ts => exact .replaceChildren t ts
  | numeral value sort => exact .numeral value sort
  | add ts =>
    refine .arith .add ts fun k hk hts => ⟨hk, ?_, fun _ => List.eq_of_mem_replicate⟩
    simpa using hts
  | neg t => exact .arith .neg [t] fun k hk _ => ⟨hk, rfl⟩
  | sub a b => exact .arith .sub [a, b] fun k hk _ => ⟨hk, rfl⟩
  | mul a b => exact .arith .mul [a, b] fun k hk _ => ⟨hk, rfl⟩
  | divide a b => exact .divide a b
  | modulo a b => exact .modulo a b
  | toReal t => exact .toReal t
  | compare op hop a b =>
    refine .compare op a b fun k hk => ?_
    have hsorts : [k, k] = [.int, .int] ∨ [k, k] = [.real, .real] := by simpa using hk
    cases op <;> first | exact ⟨hsorts, rfl⟩ | simp at hop
  | bits value width => exact .bits value width
  | bitUnary op hop t =>
    refine .bitwise op t [] fun w => ?_
    cases op <;> first | exact ⟨w, rfl, rfl⟩ | simp at hop
  | bitBinary op hop a b =>
    refine .bitwise op a [b] fun w => ?_
    cases op <;> first | exact ⟨w, rfl, rfl⟩ | simp at hop
  | concat a b => exact .concat a b
  | extract high low t => exact .extract high low t
  | select array index => exact .select array index
  | store array index value => exact .store array index value
  | constArray index value => exact .constArray index value
  | quantifier q vars body => exact .quantifier q vars body

end Constructor
end FormulaStack
