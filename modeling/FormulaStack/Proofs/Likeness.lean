import FormulaStack.Proofs.Binders
import FormulaStack.Proofs.Readings
import FormulaStack.Proofs.Registers

/-!
Work on two stores side by side. Terms are alike if they unfold to one tree. Constructors over terms
that are alike fail for one reason or make terms that are alike, whatever else is in the stores.
-/
namespace FormulaStack

namespace Store

variable {s s' u u' : Store} {t t' : Term} {ts ts' : List Term}

/-- Terms of two stores that unfold to one tree. -/
def Alike (s s' : Store) (t t' : Term) : Prop := ∃ x, s.tree? t = some x ∧ s'.tree? t' = some x

def AllAlike (s s' : Store) (ts ts' : List Term) : Prop := List.Forall₂ (s.Alike s') ts ts'

theorem AllAlike.exists_unfolds (h : s.AllAlike s' ts ts') :
    ∃ xs, s.Unfolds ts xs ∧ s'.Unfolds ts' xs := by
  obtain ⟨xs, hxs, hxs'⟩ := exists_of_forall₂_comp h
  exact ⟨xs, hxs.flip, hxs'.flip⟩

theorem Unfolds.allAlike {xs : List Tree} (h : s.Unfolds ts xs) (h' : s'.Unfolds ts' xs) :
    s.AllAlike s' ts ts' :=
  forall₂_comp h.flip h'.flip

section

variable (hs : s.WellFormed) (hs' : s'.WellFormed)
include hs hs'

theorem Alike.mono (h : s.Alike s' t t') (hu : s.Grows u) (hu' : s'.Grows u') :
    u.Alike u' t t' := by
  obtain ⟨x, hx, hx'⟩ := h
  exact ⟨x, hs.tree?_extends (hu.wellFormed hs) hu.extension hx,
    hs'.tree?_extends (hu'.wellFormed hs') hu'.extension hx'⟩

theorem Alike.sort_eq (h : s.Alike s' t t') : s'.sort t' = s.sort t := by
  obtain ⟨x, hx, hx'⟩ := h
  rw [sort_eq_ok.2 (hs.sort?_of_tree? hx), sort_eq_ok.2 (hs'.sort?_of_tree? hx')]

/-- New nodes over arguments that are alike. -/
theorem Alike.intern {n n' : Node} (hop : s.label n.op = s'.label n'.op) (hk : n.sort = n'.sort)
    (hargs : s.AllAlike s' n.args n'.args) (hu : (s.intern n).2.WellFormed)
    (hu' : (s'.intern n').2.WellFormed) :
    (s.intern n).2.Alike (s'.intern n').2 (s.intern n).1 (s'.intern n').1 := by
  obtain ⟨xs, hxs, hxs'⟩ := hargs.exists_unfolds
  have htree : ∀ {r : Store} {m : Node}, r.WellFormed → (r.intern m).2.WellFormed →
      r.Unfolds m.args xs → (r.intern m).2.tree? (r.intern m).1 =
        some (.node ((r.intern m).2.label m.op) m.sort xs) := by
    intro r m hr hrm hm
    obtain ⟨ys, hys, hy⟩ := hrm.tree? (node?_intern r m)
    have hsame : ys = xs := List.right_unique_forall₂' (fun _ _ _ hb hc => by simp_all) hys
      (hm.mono hr hrm (r.intern_extends m))
    rw [hy, hsame]
  refine ⟨_, htree hs hu hxs, ?_⟩
  rw [htree hs' hu' hxs', ← hk]
  have hlabel : ∀ (r : Store) (m : Node), (r.intern m).2.label m.op = r.label m.op := by
    intro r m
    have hdecl : (r.intern m).2.decls = r.decls := by
      unfold Store.intern
      split <;> rfl
    unfold label decl?
    rw [hdecl]
  rw [hlabel, hlabel, hop]

end

theorem WellFormed.tree?_constant {d : FuncDecl} {name : String} {k : TermSort}
    (hs : s.WellFormed) (hn : s.node? t = some ⟨.apply d, [], k⟩)
    (hd : s.decl? d = some ⟨name, [], k⟩) :
    s.tree? t = some (Signature.constant ⟨name, [], k⟩) := by
  obtain ⟨xs, hxs, hx⟩ := hs.tree? hn
  cases hxs
  rw [hx, label, hd]
  rfl

/-- The symbol at the root of a tree. -/
theorem headText_eq {n n' : Node} {ks ks' : List TermSort}
    (hn : n.op.Fits s.decl? ks n.sort) (hn' : n'.op.Fits s'.decl? ks' n'.sort)
    (hop : s.label n.op = s'.label n'.op) (hk : n.sort = n'.sort) :
    s.headText n = s'.headText n' := by
  obtain ⟨op, args, k⟩ := n
  obtain ⟨op', args', k'⟩ := n'
  dsimp only at hn hn' hop hk
  cases hl : s.label op with
  | apply f =>
    obtain ⟨d, rfl, hd⟩ := label_eq_apply hl
    obtain ⟨d', rfl, hd'⟩ := label_eq_apply (hop.symm.trans hl)
    simp only [headText, declName, hd, hd']
  | op o =>
    obtain rfl := label_eq_op hn hl
    obtain rfl := label_eq_op hn' (hop.symm.trans hl)
    subst hk
    cases o with
    | apply d =>
      obtain ⟨name, hd⟩ := hn
      simp [label, hd] at hl
    | _ => rfl

/-- Terms that are alike have one text. -/
theorem Alike.dump_eq (hs : s.WellFormed) (hs' : s'.WellFormed) (h : s.Alike s' t t') :
    ∃ text, s.dump t = .ok text ∧ s'.dump t' = .ok text := by
  suffices ∀ x t t', s.tree? t = some x → s'.tree? t' = some x →
      ∃ text, s.bottomUp? s.nodeText t = some text ∧ s'.bottomUp? s'.nodeText t' = some text by
    obtain ⟨x, hx, hx'⟩ := h
    obtain ⟨text, ht, ht'⟩ := this x t t' hx hx'
    exact ⟨text, by rw [dump, ht], by rw [dump, ht']⟩
  intro x
  induction x using Tree.induction with
  | step l k xs ih =>
    intro t t' hx hx'
    obtain ⟨n, hn, hl, hk, hxs⟩ := hs.node_of_tree? hx
    obtain ⟨n', hn', hl', hk', hxs'⟩ := hs'.node_of_tree? hx'
    obtain ⟨texts, htexts, ht⟩ := hs.bottomUp? s.nodeText hn
    obtain ⟨texts', htexts', ht'⟩ := hs'.bottomUp? s'.nodeText hn'
    obtain ⟨ks, -, hfit⟩ := hs.fits hn
    obtain ⟨ks', -, hfit'⟩ := hs'.fits hn'
    have hargs : texts = texts' := by
      clear hn hn' hx hx' hfit hfit' ht ht'
      revert hxs hxs' htexts htexts'
      generalize n.args = as
      generalize n'.args = as'
      intro hxs hxs' htexts htexts'
      induction hxs generalizing as' texts texts' with
      | nil =>
        cases hxs'
        cases htexts
        cases htexts'
        rfl
      | cons ha _ ihs =>
        cases hxs' with
        | cons ha' hxs' =>
          cases htexts with
          | cons hb hbs =>
            cases htexts' with
            | cons hb' hbs' =>
              obtain ⟨text, hc, hc'⟩ := ih _ (by simp) _ _ ha ha'
              rw [hb] at hc
              rw [hb'] at hc'
              rw [Option.some.inj hc, Option.some.inj hc',
                ihs (fun x hx => ih x (by simp [hx])) _ _ _ hxs' hbs hbs']
    refine ⟨_, ht, ?_⟩
    rw [ht', nodeText, nodeText, hargs,
      headText_eq hfit hfit' (hl.trans hl'.symm) (hk.trans hk'.symm)]

end Store

namespace Build

variable {α β : Type} {s s' : Store} {t t' : Term} {ts ts' : List Term}

/-- Work that leaves two stores as they are, and finds the same in them. -/
def ReadsAlike (b b' : Build α) (s s' : Store) : Prop :=
  ∃ r : Except Fault α, b s = r.map (·, s) ∧ b' s' = r.map (·, s')

namespace ReadsAlike

theorem pure (a : α) : ReadsAlike (Pure.pure a) (Pure.pure a) s s' := ⟨.ok a, rfl, rfl⟩

theorem fail (f : Fault) : ReadsAlike (fail f : Build α) (fail f) s s' := ⟨.error f, rfl, rfl⟩

theorem bind {b b' : Build α} {f f' : α → Build β} (h : ReadsAlike b b' s s')
    (hf : ∀ a, ReadsAlike (f a) (f' a) s s') : ReadsAlike (b >>= f) (b' >>= f') s s' := by
  obtain ⟨r, hb, hb'⟩ := h
  cases r with
  | error e =>
    refine ⟨.error e, ?_, ?_⟩
    · change (b s >>= fun p => f p.1 p.2) = _
      rw [hb]
      rfl
    · change (b' s' >>= fun p => f' p.1 p.2) = _
      rw [hb']
      rfl
  | ok a =>
    obtain ⟨q, hq, hq'⟩ := hf a
    refine ⟨q, ?_, ?_⟩
    · change (b s >>= fun p => f p.1 p.2) = _
      rw [hb]
      exact hq
    · change (b' s' >>= fun p => f' p.1 p.2) = _
      rw [hb']
      exact hq'

section

variable (hs : s.WellFormed) (hs' : s'.WellFormed)
include hs hs'

theorem sort (h : s.Alike s' t t') : ReadsAlike (Build.sort t) (Build.sort t') s s' :=
  ⟨s.sort t, rfl, congrArg (Except.map (·, s')) (h.sort_eq hs hs')⟩

theorem expect (k : TermSort) (h : s.Alike s' t t') :
    ReadsAlike (expect k t) (expect k t') s s' := by
  refine (sort hs hs' h).bind fun actual => ?_
  split
  · exact .pure ()
  · exact .fail _

theorem forM_expect (k : TermSort) (h : s.AllAlike s' ts ts') :
    ReadsAlike (ts.forM (Build.expect k)) (ts'.forM (Build.expect k)) s s' := by
  induction h with
  | nil => exact .pure ()
  | cons ht _ ih => exact (expect hs hs' k ht).bind fun _ => ih

theorem commonSort (h : s.AllAlike s' ts ts') :
    ReadsAlike (commonSort ts) (commonSort ts') s s' := by
  cases h with
  | nil => exact .fail _
  | cons ht hts =>
    exact (sort hs hs' ht).bind fun k => (forM_expect hs hs' k hts).bind fun _ => .pure k

theorem numericSort (h : s.AllAlike s' ts ts') :
    ReadsAlike (numericSort ts) (numericSort ts') s s' := by
  refine (commonSort hs hs' h).bind fun k => ?_
  split
  · exact .pure k
  · exact (ReadsAlike.fail _).bind fun _ => .pure k

theorem width (h : s.Alike s' t t') : ReadsAlike (width t) (width t') s s' := by
  refine (sort hs hs' h).bind fun k => ?_
  cases k with
  | bitvec w => exact .pure w
  | _ => exact .fail _

end

end ReadsAlike

/-- A new constant is one. -/
theorem constant_makes (name : String) (k : TermSort) (s : Store) :
    ∃ t u, constant name k s = .ok (t, u) ∧
      (u.WellFormed → u.tree? t = some (Signature.constant ⟨name, [], k⟩)) := by
  have hdecl : ofExcept (·.decl (s.internDecl ⟨name, [], k⟩).1) (s.internDecl ⟨name, [], k⟩).2 =
      .ok (⟨name, [], k⟩, (s.internDecl ⟨name, [], k⟩).2) := by
    simp [ofExcept, Store.decl, Store.decl?_internDecl, Except.map]
  have hok : ∃ r, constant name k s = .ok r :=
    ⟨_, bind_eq_ok.2 ⟨_, _, internDecl_eq_ok.2 rfl, bind_eq_ok.2 ⟨_, _, hdecl, rfl⟩⟩⟩
  obtain ⟨⟨t, u⟩, hr⟩ := hok
  obtain ⟨d, hn, hd⟩ := decl_of_constant hr
  exact ⟨t, u, hr, fun hu => hu.tree?_constant hn hd⟩

/-- Work on two stores that fails for one reason, or makes terms that are alike. -/
def MakesAlike (b b' : Build Term) (s s' : Store) : Prop :=
  Agree (fun p q => p.2.WellFormed → q.2.WellFormed → p.2.Alike q.2 p.1 q.1) (b s) (b' s')

namespace MakesAlike

theorem fail (f : Fault) : MakesAlike (fail f) (fail f) s s' := .error f

theorem fail_bind (f : Fault) (g g' : α → Build Term) :
    MakesAlike (Build.fail f >>= g) (Build.fail f >>= g') s s' := .error f

theorem bind {b b' : Build α} {f f' : α → Build Term} (h : ReadsAlike b b' s s')
    (hf : ∀ a, MakesAlike (f a) (f' a) s s') : MakesAlike (b >>= f) (b' >>= f') s s' := by
  obtain ⟨r, hb, hb'⟩ := h
  have hx : (b >>= f) s = b s >>= fun p => f p.1 p.2 := rfl
  have hx' : (b' >>= f') s' = b' s' >>= fun p => f' p.1 p.2 := rfl
  rw [MakesAlike, hx, hx', hb, hb']
  cases r with
  | error e => exact .error e
  | ok a => exact hf a

section

variable (hs : s.WellFormed) (hs' : s'.WellFormed)
include hs hs'

theorem intern (op : Operator) (k : TermSort) (hop : ∀ d, op ≠ .apply d)
    (h : s.AllAlike s' ts ts') :
    MakesAlike (Build.intern ⟨op, ts, k⟩) (Build.intern ⟨op, ts', k⟩) s s' := by
  refine .ok (Store.Alike.intern hs hs' ?_ rfl h)
  cases op with
  | apply d => exact absurd rfl (hop d)
  | _ => rfl

theorem connective (op : Operator) (hop : ∀ d, op ≠ .apply d) (h : s.AllAlike s' ts ts') :
    MakesAlike (connective op ts) (connective op ts') s s' :=
  bind (.forM_expect hs hs' .bool h) fun _ => intern hs hs' op .bool hop h

theorem truth (b : Bool) : MakesAlike (truth b) (truth b) s s' :=
  intern hs hs' _ .bool (by cases b <;> nofun) .nil

variable {a a' c c' : Term}

theorem ite (hc : s.Alike s' c c') (ht : s.Alike s' t t') (ha : s.Alike s' a a') :
    MakesAlike (ite c t a) (ite c' t' a') s s' :=
  bind (.expect hs hs' .bool hc) fun _ =>
    bind (.commonSort hs hs' (.cons ht (.cons ha .nil))) fun k =>
      intern hs hs' .ite k nofun (.cons hc (.cons ht (.cons ha .nil)))

theorem eq (ht : s.Alike s' t t') (ha : s.Alike s' a a') :
    MakesAlike (eq t a) (eq t' a') s s' :=
  bind (.commonSort hs hs' (.cons ht (.cons ha .nil))) fun _ =>
    intern hs hs' .eq .bool nofun (.cons ht (.cons ha .nil))

theorem distinct (h : s.AllAlike s' ts ts') : MakesAlike (distinct ts) (distinct ts') s s' := by
  unfold Build.distinct
  rw [show ts'.length = ts.length from (List.Forall₂.length_eq h).symm]
  split
  · exact fail_bind _ _ _
  · exact bind (.commonSort hs hs' h) fun _ => intern hs hs' .distinct .bool nofun h

theorem numeral (q : Rat) (k : TermSort) : MakesAlike (numeral q k) (numeral q k) s s' := by
  cases k with
  | int =>
    unfold Build.numeral
    dsimp only
    split
    · exact intern hs hs' _ .int nofun .nil
    · exact fail _
  | real => exact intern hs hs' _ .real nofun .nil
  | _ => exact fail _

theorem arith (op : ArithOp) (h : s.AllAlike s' ts ts') :
    MakesAlike (arith op ts) (arith op ts') s s' :=
  bind (.numericSort hs hs' h) fun k => intern hs hs' (.arith op) k nofun h

theorem compare (op : ArithOp) (ht : s.Alike s' t t') (ha : s.Alike s' a a') :
    MakesAlike (compare op t a) (compare op t' a') s s' :=
  bind (.numericSort hs hs' (.cons ht (.cons ha .nil))) fun _ =>
    intern hs hs' (.arith op) .bool nofun (.cons ht (.cons ha .nil))

theorem divide (ht : s.Alike s' t t') (ha : s.Alike s' a a') :
    MakesAlike (divide t a) (divide t' a') s s' := by
  refine bind (.sort hs hs' ht) fun k => ?_
  split <;> exact arith hs hs' _ (.cons ht (.cons ha .nil))

theorem modulo (ht : s.Alike s' t t') (ha : s.Alike s' a a') :
    MakesAlike (modulo t a) (modulo t' a') s s' :=
  bind (.expect hs hs' .int ht) fun _ => arith hs hs' .mod (.cons ht (.cons ha .nil))

theorem toReal (ht : s.Alike s' t t') : MakesAlike (toReal t) (toReal t') s s' :=
  bind (.expect hs hs' .int ht) fun _ => intern hs hs' _ .real nofun (.cons ht .nil)

theorem bits (value : Int) (width : Nat) :
    MakesAlike (bits value width) (bits value width) s s' := by
  unfold Build.bits
  dsimp only
  split
  · exact fail_bind _ _ _
  · exact intern hs hs' _ _ nofun .nil

theorem bitwise (op : BitOp) (ht : s.Alike s' t t') (h : s.AllAlike s' ts ts') :
    MakesAlike (bitwise op t ts) (bitwise op t' ts') s s' :=
  bind (.width hs hs' ht) fun w => bind (.forM_expect hs hs' (.bitvec w) h) fun _ =>
    intern hs hs' (.bitwise op) _ nofun (.cons ht h)

theorem concat (ht : s.Alike s' t t') (ha : s.Alike s' a a') :
    MakesAlike (concat t a) (concat t' a') s s' :=
  bind (.width hs hs' ht) fun _ => bind (.width hs hs' ha) fun _ =>
    intern hs hs' (.bitwise .concat) _ nofun (.cons ht (.cons ha .nil))

theorem extract (high low : Nat) (ht : s.Alike s' t t') :
    MakesAlike (extract high low t) (extract high low t') s s' := by
  refine bind (.width hs hs' ht) fun w => ?_
  split
  · exact fail_bind _ _ _
  · exact intern hs hs' (.extract high low) _ nofun (.cons ht .nil)

theorem select (ht : s.Alike s' t t') (ha : s.Alike s' a a') :
    MakesAlike (select t a) (select t' a') s s' := by
  refine bind (.sort hs hs' ht) fun k => ?_
  cases k with
  | array i e =>
    exact bind (.expect hs hs' i ha) fun _ =>
      intern hs hs' .select e nofun (.cons ht (.cons ha .nil))
  | _ => exact fail _

theorem store (ht : s.Alike s' t t') (ha : s.Alike s' a a') (hc : s.Alike s' c c') :
    MakesAlike (store t a c) (store t' a' c') s s' := by
  refine bind (.sort hs hs' ht) fun k => ?_
  cases k with
  | array i e =>
    exact bind (.expect hs hs' i ha) fun _ => bind (.expect hs hs' e hc) fun _ =>
      intern hs hs' .store _ nofun (.cons ht (.cons ha (.cons hc .nil)))
  | _ => exact fail _

theorem constArray (k : TermSort) (ht : s.Alike s' t t') :
    MakesAlike (constArray k t) (constArray k t') s s' :=
  bind (.sort hs hs' ht) fun _ => intern hs hs' .constArray _ nofun (.cons ht .nil)

/-- Applications of declarations of one signature. -/
theorem apply {d d' : FuncDecl} {f : Signature} (hd : s.decl? d = some f)
    (hd' : s'.decl? d' = some f) (h : s.AllAlike s' ts ts') :
    MakesAlike (apply d ts) (apply d' ts') s s' := by
  have hdecl : ReadsAlike (ofExcept (·.decl d)) (ofExcept (·.decl d')) s s' := by
    refine ⟨.ok f, ?_, ?_⟩
    · simp [ofExcept, Store.decl, hd]
    · simp [ofExcept, Store.decl, hd']
  have hchecks : ∀ ks : List TermSort, ReadsAlike
      ((ts.zip ks).forM fun p => expect p.2 p.1)
      ((ts'.zip ks).forM fun p => expect p.2 p.1) s s' := by
    induction h with
    | nil => exact fun ks => .pure ()
    | cons ht _ ih =>
      intro ks
      cases ks with
      | nil => exact .pure ()
      | cons k ks => exact (ReadsAlike.expect hs hs' k ht).bind fun _ => ih ks
  refine bind hdecl fun g => ?_
  rw [show ts'.length = ts.length from (List.Forall₂.length_eq h).symm]
  split
  · exact fail_bind _ _ _
  · refine bind (hchecks g.domain) fun _ => ?_
    exact .ok (Store.Alike.intern hs hs' (by simp [Store.label, hd, hd']) rfl h)

/-- A quantifier over the same constants. -/
theorem quantifier (q : Quantifier) {fs : List Signature}
    (hvars : s.Unfolds ts (fs.map Signature.constant))
    (hvars' : s'.Unfolds ts' (fs.map Signature.constant)) (ht : s.Alike s' t t') :
    MakesAlike (quantifier q ts t) (quantifier q ts' t') s s' := by
  obtain ⟨r, hr, hr'⟩ := ReadsAlike.expect hs hs' .bool ht
  cases r with
  | error e =>
    change Agree _ (expect .bool t s >>= _) (expect .bool t' s' >>= _)
    rw [hr, hr']
    exact .error e
  | ok u =>
    cases ts with
    | nil =>
      obtain rfl : fs = [] := List.map_eq_nil_iff.1 (List.forall₂_nil_left_iff.1 hvars)
      obtain rfl : ts' = [] := List.forall₂_nil_right_iff.1 hvars'
      exact bind (.expect hs hs' .bool ht) fun _ => .ok fun _ _ => ht
    | cons v vs =>
      obtain ⟨x, hx, hx'⟩ := ht
      have hbool : x.sort = .bool := Option.some.inj
        ((hs.sort?_of_tree? hx).symm.trans (expect_eq_ok.1 hr).1)
      have hne' : ts' ≠ [] := by
        rintro rfl
        rw [List.forall₂_nil_left_iff.1 hvars'] at hvars
        cases hvars
      obtain ⟨y, u, hy, -, htree⟩ :=
        quantifier_eq_ok (q := q) hs hvars (List.cons_ne_nil v vs) hx hbool
      obtain ⟨y', u', hy', -, htree'⟩ := quantifier_eq_ok (q := q) hs' hvars' hne' hx' hbool
      rw [MakesAlike, hy, hy']
      exact .ok fun _ _ => ⟨_, htree, htree'⟩

end

end MakesAlike
end Build
end FormulaStack
