import FormulaStack.Proofs.Traversals
import FormulaStack.Store
import Mathlib.Algebra.Group.Nat.Defs

/-!
Well-formed stores: the arguments of every node are older than the node, their sorts are those that
its operator takes, and nothing is kept twice. Adding a node whose arguments fit keeps a store
well-formed.
-/
namespace FormulaStack

/-- The sorts of arguments and result that an arithmetic operator takes. -/
def ArithOp.Fits (op : ArithOp) (args : List TermSort) (sort : TermSort) : Prop :=
  match op with
  | .add => (sort = .int ∨ sort = .real) ∧ args ≠ [] ∧ ∀ a ∈ args, a = sort
  | .neg => (sort = .int ∨ sort = .real) ∧ args = [sort]
  | .sub | .mul => (sort = .int ∨ sort = .real) ∧ args = [sort, sort]
  | .div => args = [.real, .real] ∧ sort = .real
  | .intDiv | .mod => args = [.int, .int] ∧ sort = .int
  | .toReal => args = [.int] ∧ sort = .real
  | .lt | .le | .gt | .ge => (args = [.int, .int] ∨ args = [.real, .real]) ∧ sort = .bool

/-- The sorts of arguments and result that an operator on bit-vectors takes. -/
def BitOp.Fits (op : BitOp) (args : List TermSort) (sort : TermSort) : Prop :=
  match op with
  | .not | .neg => ∃ w, args = [.bitvec w] ∧ sort = .bitvec w
  | .add | .sub | .mul | .and | .or | .xor =>
    ∃ w, args = [.bitvec w, .bitvec w] ∧ sort = .bitvec w
  | .ult | .ule | .slt | .sle => ∃ w, args = [.bitvec w, .bitvec w] ∧ sort = .bool
  | .concat => ∃ v w, args = [.bitvec v, .bitvec w] ∧ sort = .bitvec (v + w)

/-- The sorts of arguments and result that an operator takes. -/
def Operator.Fits (decl? : FuncDecl → Option Signature) (op : Operator) (args : List TermSort)
    (sort : TermSort) : Prop :=
  match op with
  | .true | .false => args = [] ∧ sort = .bool
  | .not => args = [.bool] ∧ sort = .bool
  | .and | .or => 2 ≤ args.length ∧ (∀ a ∈ args, a = .bool) ∧ sort = .bool
  | .iff | .implies => args = [.bool, .bool] ∧ sort = .bool
  | .ite => args = [.bool, sort, sort]
  | .eq => (∃ a, args = [a, a]) ∧ sort = .bool
  | .distinct => 2 ≤ args.length ∧ (∃ a, ∀ b ∈ args, b = a) ∧ sort = .bool
  | .apply d => ∃ name, decl? d = some ⟨name, args, sort⟩
  | .bound _ => args = []
  | .quantifier _ vars => vars ≠ [] ∧ args = [.bool] ∧ sort = .bool
  | .int _ => args = [] ∧ sort = .int
  | .real _ => args = [] ∧ sort = .real
  | .bits value width => args = [] ∧ 0 < width ∧ value < 2 ^ width ∧ sort = .bitvec width
  | .arith op => op.Fits args sort
  | .bitwise op => op.Fits args sort
  | .extract high low =>
    low ≤ high ∧ (∃ w, high < w ∧ args = [.bitvec w]) ∧ sort = .bitvec (high - low + 1)
  | .select => ∃ i, args = [.array i sort, i]
  | .store => ∃ i e, args = [.array i e, i, e] ∧ sort = .array i e
  | .constArray => ∃ i e, args = [e] ∧ sort = .array i e

theorem Operator.Fits.mono {f g : FuncDecl → Option Signature} {op : Operator}
    {args : List TermSort} {sort : TermSort} (h : op.Fits f args sort)
    (hfg : ∀ d x, f d = some x → g d = some x) : op.Fits g args sort := by
  cases op with
  | apply d =>
    obtain ⟨name, hd⟩ := h
    exact ⟨name, hfg d _ hd⟩
  | _ => exact h

namespace Store

def sort? (s : Store) (t : Term) : Option TermSort := (s.node? t).map (·.sort)

/-- The sorts of a list of terms. -/
def Sorts (s : Store) (ts : List Term) (sorts : List TermSort) : Prop :=
  List.Forall₂ (fun t k => s.sort? t = some k) ts sorts

structure WellFormed (s : Store) : Prop where
  older : ∀ {t n}, s.node? t = some n → ∀ a ∈ n.args, a.index < t.index
  fits : ∀ {t n}, s.node? t = some n →
    ∃ sorts, s.Sorts n.args sorts ∧ n.op.Fits s.decl? sorts n.sort
  once : ∀ {t u n}, s.node? t = some n → s.node? u = some n → t = u
  declaredOnce : ∀ {d e f}, s.decl? d = some f → s.decl? e = some f → d = e

theorem wellFormed_empty : empty.WellFormed where
  older h := by simp [node?, empty] at h
  fits h := by simp [node?, empty] at h
  once h := by simp [node?, empty] at h
  declaredOnce h := by simp [decl?, empty] at h

theorem sort_eq_ok {s : Store} {t : Term} {k : TermSort} :
    s.sort t = .ok k ↔ s.sort? t = some k := by
  unfold sort sort? node
  cases s.node? t <;> simp [Except.map]

theorem Extends.sort? {s r : Store} (h : s.Extends r) {t : Term} {k : TermSort}
    (hk : r.sort? t = some k) : s.sort? t = some k := by
  obtain ⟨n, hn, rfl⟩ := Option.map_eq_some_iff.1 hk
  exact Option.map_eq_some_iff.2 ⟨n, h.node? t n hn, rfl⟩

theorem Sorts.mono {s r : Store} {ts : List Term} {sorts : List TermSort} (h : r.Sorts ts sorts)
    (hs : s.Extends r) : s.Sorts ts sorts :=
  List.Forall₂.imp (fun _ _ hk => hs.sort? hk) h

theorem sorts_cons {s : Store} {t : Term} {ts : List Term} {sorts : List TermSort} :
    s.Sorts (t :: ts) sorts ↔ ∃ k ks, s.sort? t = some k ∧ s.Sorts ts ks ∧ sorts = k :: ks :=
  List.forall₂_cons_left_iff

/-- A list has sorts if each of its terms has one. -/
theorem sorts_of_forall {s : Store} {ts : List Term} {k : TermSort}
    (h : ∀ t ∈ ts, s.sort? t = some k) : s.Sorts ts (List.replicate ts.length k) := by
  induction ts with
  | nil => exact .nil
  | cons t ts ih => exact .cons (h t (by simp)) (ih fun u hu => h u (by simp [hu]))

/-- The sorts of terms determine the sorts of a list. -/
theorem Sorts.unique {s : Store} {ts : List Term} {ks ls : List TermSort} (hk : s.Sorts ts ks)
    (hl : s.Sorts ts ls) : ks = ls :=
  List.right_unique_forall₂' (fun _ _ _ h h' => Option.some.inj (h.symm.trans h')) hk hl

/-- Terms of the same sorts in the places of others. -/
theorem Sorts.replace {s : Store} {ts us : List Term} {ks : List TermSort} (h : s.Sorts ts ks)
    (hu : List.Forall₂ (fun t u => ∃ k, s.sort? t = some k ∧ s.sort? u = some k) ts us) :
    s.Sorts us ks := by
  refine (forall₂_comp hu h).imp fun u k ⟨t, ⟨l, hl, hul⟩, hk⟩ => ?_
  rw [hul, ← hl, hk]

theorem node?_lt {s : Store} {t : Term} {n : Node} (h : s.node? t = some n) :
    t.index < s.nodes.size :=
  (Array.getElem?_eq_some_iff.1 h).1

theorem sort?_lt {s : Store} {t : Term} {k : TermSort} (h : s.sort? t = some k) :
    t.index < s.nodes.size := by
  obtain ⟨n, hn, -⟩ := Option.map_eq_some_iff.1 h
  exact node?_lt hn

theorem sort?_intern (s : Store) (n : Node) :
    (s.intern n).2.sort? (s.intern n).1 = some n.sort := by
  rw [sort?, node?_intern]
  rfl

/-- Terms that were there before or are new; a term is new if its node is. -/
theorem node?_of_intern {s : Store} {n m : Node} {t : Term}
    (h : (s.intern n).2.node? t = some m) :
    s.node? t = some m ∨ (t.index = s.nodes.size ∧ m = n ∧ ∀ u, s.node? u ≠ some n) := by
  unfold intern at h
  split at h
  · exact .inl h
  · next hnew =>
    simp only [node?, Array.getElem?_push] at h
    split at h
    · next ht =>
      refine .inr ⟨ht, (Option.some.inj h).symm, fun u hu => ?_⟩
      have hall := Array.findIdx?_eq_none_iff.1 hnew n (Array.mem_of_getElem? hu)
      simp at hall
    · exact .inl h

/-- Declarations that were there before or are new; one is new if its signature is. -/
theorem decl?_of_internDecl {s : Store} {f g : Signature} {d : FuncDecl}
    (h : (s.internDecl f).2.decl? d = some g) :
    s.decl? d = some g ∨ (d.index = s.decls.size ∧ g = f ∧ ∀ e, s.decl? e ≠ some f) := by
  unfold internDecl at h
  split at h
  · exact .inl h
  · next hnew =>
    simp only [decl?, Array.getElem?_push] at h
    split at h
    · next hd =>
      refine .inr ⟨hd, (Option.some.inj h).symm, fun e he => ?_⟩
      have hall := Array.findIdx?_eq_none_iff.1 hnew f (Array.mem_of_getElem? he)
      simp at hall
    · exact .inl h

theorem Sorts.forall_lt {s : Store} {ts : List Term} {ks : List TermSort} (h : s.Sorts ts ks) :
    ∀ t ∈ ts, t.index < s.nodes.size := by
  intro t ht
  obtain ⟨k, -, hk⟩ := exists_related h.flip t ht
  exact sort?_lt hk

/-- `t` has everything that `s` has, and is as well-formed. -/
structure Grows (s t : Store) : Prop where
  extension : t.Extends s
  wellFormed : s.WellFormed → t.WellFormed

theorem Grows.refl (s : Store) : s.Grows s := ⟨.refl s, id⟩

theorem Grows.trans {s t u : Store} (h : s.Grows t) (g : t.Grows u) : s.Grows u :=
  ⟨g.extension.trans h.extension, fun hs => g.wellFormed (h.wellFormed hs)⟩

/-- A node over arguments that fit may be added. -/
theorem grows_intern {s : Store} {n : Node}
    (h : s.WellFormed → ∃ sorts, s.Sorts n.args sorts ∧ n.op.Fits s.decl? sorts n.sort) :
    s.Grows (s.intern n).2 := by
  have hext := s.intern_extends n
  refine ⟨hext, fun hs => ?_⟩
  obtain ⟨sorts, ha, hn⟩ := h hs
  have hdecls : ∀ d, (s.intern n).2.decl? d = s.decl? d := fun d => by
    unfold intern
    split <;> rfl
  constructor
  · intro t m hm a ham
    obtain hold | ⟨ht, rfl, -⟩ := node?_of_intern hm
    · exact hs.older hold a ham
    · rw [ht]
      exact ha.forall_lt a ham
  · intro t m hm
    obtain hold | ⟨-, rfl, -⟩ := node?_of_intern hm
    · obtain ⟨ks, hks, hfit⟩ := hs.fits hold
      exact ⟨ks, hks.mono hext, hfit.mono hext.decl?⟩
    · exact ⟨sorts, ha.mono hext, hn.mono hext.decl?⟩
  · intro t u m ht hu
    obtain hold | ⟨hi, rfl, hnew⟩ := node?_of_intern ht
    · obtain hu | ⟨-, rfl, hnew⟩ := node?_of_intern hu
      · exact hs.once hold hu
      · exact absurd hold (hnew t)
    · obtain hu | ⟨hj, -, -⟩ := node?_of_intern hu
      · exact absurd hu (hnew u)
      · exact congrArg Term.mk (hi.trans hj.symm)
  · intro d e f hd he
    rw [hdecls] at hd he
    exact hs.declaredOnce hd he

theorem decl?_internDecl (s : Store) (f : Signature) :
    (s.internDecl f).2.decl? (s.internDecl f).1 = some f := by
  unfold internDecl
  split
  · next i h =>
    obtain ⟨hi, he, -⟩ := Array.findIdx?_eq_some_iff_getElem.1 h
    simp [decl?, eq_of_beq he, hi]
  · simp [decl?]

theorem grows_internDecl (s : Store) (f : Signature) : s.Grows (s.internDecl f).2 := by
  have hext := s.internDecl_extends f
  have hnodes : (s.internDecl f).2.nodes = s.nodes := by
    unfold internDecl
    split <;> rfl
  have hnode : ∀ t, (s.internDecl f).2.node? t = s.node? t := fun t => by rw [node?, hnodes, node?]
  refine ⟨hext, fun hs => ⟨?_, ?_, ?_, ?_⟩⟩
  · intro t n hn
    exact hs.older ((hnode t).symm.trans hn)
  · intro t n hn
    obtain ⟨ks, hks, hfit⟩ := hs.fits ((hnode t).symm.trans hn)
    exact ⟨ks, hks.mono hext, hfit.mono hext.decl?⟩
  · intro t u n ht hu
    exact hs.once ((hnode t).symm.trans ht) ((hnode u).symm.trans hu)
  · intro d e g hd he
    obtain hold | ⟨hi, rfl, hnew⟩ := decl?_of_internDecl hd
    · obtain he | ⟨-, rfl, hnew⟩ := decl?_of_internDecl he
      · exact hs.declaredOnce hold he
      · exact absurd hold (hnew d)
    · obtain he | ⟨hj, -, -⟩ := decl?_of_internDecl he
      · exact absurd he (hnew e)
      · exact congrArg FuncDecl.mk (hi.trans hj.symm)

end Store
end FormulaStack
