import FormulaStack.Build.Arith
import FormulaStack.Build.Arrays
import FormulaStack.Build.Bits
import FormulaStack.Build.Logic
import FormulaStack.Proofs.Sorting
import Mathlib.Tactic.Positivity
import Mathlib.Tactic.Zify

/-!
When the constructors of terms succeed, and that each of them lets a store grow.
-/
namespace FormulaStack

namespace Build

variable {α β : Type} {s : Store}

theorem bind_eq_ok {b : Build α} {f : α → Build β} {r : β × Store} :
    (b >>= f) s = .ok r ↔ ∃ a t, b s = .ok (a, t) ∧ f a t = .ok r := by
  simp only [bind, StateT.bind, Except.bind]
  rcases b s with e | ⟨a, t⟩ <;> simp

theorem pure_eq_ok {a : α} {r : α × Store} : (pure a : Build α) s = .ok r ↔ r = (a, s) := by
  change Except.ok (a, s) = .ok r ↔ r = (a, s)
  rw [Except.ok.injEq]
  exact eq_comm

theorem fail_eq_ok {f : Fault} {r : α × Store} : (fail f : Build α) s = .ok r ↔ False := by
  simp [fail]

theorem fail_bind_eq_ok {f : Fault} {g : α → Build β} {r : β × Store} :
    (fail f >>= g) s = .ok r ↔ False := by
  simp [bind_eq_ok, fail_eq_ok]

theorem ofExcept_eq_ok {f : Store → Except Fault α} {r : α × Store} :
    ofExcept f s = .ok r ↔ f s = .ok r.1 ∧ r.2 = s := by
  obtain ⟨a, t⟩ := r
  unfold ofExcept
  rcases f s with e | b
  · simp [Except.map]
  · simp only [Except.map, Except.ok.injEq, Prod.mk.injEq]
    exact and_congr_right fun _ => eq_comm

theorem intern_eq_ok {n : Node} {r : Term × Store} : intern n s = .ok r ↔ r = s.intern n := by
  simp only [intern, Except.ok.injEq]
  exact eq_comm

theorem internDecl_eq_ok {f : Signature} {r : FuncDecl × Store} :
    internDecl f s = .ok r ↔ r = s.internDecl f := by
  simp only [internDecl, Except.ok.injEq]
  exact eq_comm

theorem node_eq_ok {t : Term} {r : Node × Store} :
    node t s = .ok r ↔ s.node? t = some r.1 ∧ r.2 = s := by
  rw [node, ofExcept_eq_ok, Store.node]
  cases s.node? t <;> simp

theorem sort_eq_ok {t : Term} {r : TermSort × Store} :
    Build.sort t s = .ok r ↔ s.sort? t = some r.1 ∧ r.2 = s := by
  rw [Build.sort, ofExcept_eq_ok, Store.sort_eq_ok]

theorem expect_eq_ok {k : TermSort} {t : Term} {r : Unit × Store} :
    expect k t s = .ok r ↔ s.sort? t = some k ∧ r.2 = s := by
  rw [expect, bind_eq_ok]
  constructor
  · rintro ⟨l, u, hl, h⟩
    obtain ⟨hl, rfl⟩ := sort_eq_ok.1 hl
    split at h
    · next hk => exact ⟨hk ▸ hl, by rw [pure_eq_ok.1 h]⟩
    · exact (fail_eq_ok.1 h).elim
  · rintro ⟨hk, rfl⟩
    refine ⟨k, r.2, sort_eq_ok.2 ⟨hk, rfl⟩, ?_⟩
    rw [if_pos rfl]
    exact pure_eq_ok.2 rfl

theorem expectSame_eq_ok {x : Term × Term} {r : Unit × Store} :
    (do expect (← Build.sort x.1) x.2 : Build Unit) s = .ok r ↔
      (∃ k, s.sort? x.1 = some k ∧ s.sort? x.2 = some k) ∧ r.2 = s := by
  rw [bind_eq_ok]
  constructor
  · rintro ⟨k, y, hk, hx⟩
    obtain ⟨hk, rfl⟩ := sort_eq_ok.1 hk
    obtain ⟨hx, hr⟩ := expect_eq_ok.1 hx
    exact ⟨⟨k, hk, hx⟩, hr⟩
  · rintro ⟨⟨k, hk, hx⟩, hr⟩
    exact ⟨k, s, sort_eq_ok.2 ⟨hk, rfl⟩, expect_eq_ok.2 ⟨hx, hr⟩⟩

/-- A check of each element, none of which changes the store. -/
theorem forM_eq_ok {f : α → Build Unit} {p : α → Prop}
    (hf : ∀ {a r}, f a s = .ok r ↔ p a ∧ r.2 = s) {as : List α} {r : Unit × Store} :
    as.forM f s = .ok r ↔ (∀ a ∈ as, p a) ∧ r.2 = s := by
  induction as with
  | nil =>
    rw [List.forM_eq_forM, List.forM_nil, pure_eq_ok]
    simp [Prod.ext_iff]
  | cons a as ih =>
    rw [List.forM_eq_forM] at ih ⊢
    rw [List.forM_cons, bind_eq_ok]
    constructor
    · rintro ⟨_, t, ha, h⟩
      obtain ⟨hp, rfl⟩ := hf.1 ha
      obtain ⟨has, ht⟩ := ih.1 h
      exact ⟨by simpa using ⟨hp, has⟩, ht⟩
    · rintro ⟨h, ht⟩
      exact ⟨(), s, hf.2 ⟨h a (by simp), rfl⟩, ih.2 ⟨fun b hb => h b (by simp [hb]), ht⟩⟩

theorem forM_expect_eq_ok {k : TermSort} {ts : List Term} {r : Unit × Store} :
    ts.forM (expect k) s = .ok r ↔ (∀ t ∈ ts, s.sort? t = some k) ∧ r.2 = s :=
  forM_eq_ok expect_eq_ok

theorem commonSort_eq_ok {ts : List Term} {r : TermSort × Store} :
    commonSort ts s = .ok r ↔ ts ≠ [] ∧ (∀ t ∈ ts, s.sort? t = some r.1) ∧ r.2 = s := by
  cases ts with
  | nil => simp [commonSort, fail_eq_ok]
  | cons t ts =>
    rw [commonSort, bind_eq_ok]
    constructor
    · rintro ⟨k, u, hk, h⟩
      obtain ⟨hk, rfl⟩ := sort_eq_ok.1 hk
      obtain ⟨_, v, hts, hr⟩ := bind_eq_ok.1 h
      obtain ⟨hts, rfl⟩ := forM_expect_eq_ok.1 hts
      cases pure_eq_ok.1 hr
      exact ⟨by simp, by simpa using ⟨hk, hts⟩, rfl⟩
    · rintro ⟨-, h, rfl⟩
      refine ⟨r.1, r.2, sort_eq_ok.2 ⟨h t (by simp), rfl⟩, bind_eq_ok.2 ⟨(), r.2, ?_, ?_⟩⟩
      · exact forM_expect_eq_ok.2 ⟨fun u hu => h u (by simp [hu]), rfl⟩
      · exact pure_eq_ok.2 rfl

theorem numericSort_eq_ok {ts : List Term} {r : TermSort × Store} :
    numericSort ts s = .ok r ↔
      (r.1 = .int ∨ r.1 = .real) ∧ ts ≠ [] ∧ (∀ t ∈ ts, s.sort? t = some r.1) ∧ r.2 = s := by
  rw [numericSort, bind_eq_ok]
  constructor
  · rintro ⟨k, t, hk, h⟩
    obtain ⟨hne, hts, rfl⟩ := commonSort_eq_ok.1 hk
    split at h
    · next hn =>
      cases pure_eq_ok.1 h
      exact ⟨hn, hne, hts, rfl⟩
    · obtain ⟨_, _, h, -⟩ := bind_eq_ok.1 h
      exact (fail_eq_ok.1 h).elim
  · rintro ⟨hn, hne, hts, rfl⟩
    refine ⟨r.1, r.2, commonSort_eq_ok.2 ⟨hne, hts, rfl⟩, ?_⟩
    rw [if_pos hn]
    exact pure_eq_ok.2 rfl

theorem width_eq_ok {t : Term} {r : Nat × Store} :
    width t s = .ok r ↔ s.sort? t = some (.bitvec r.1) ∧ r.2 = s := by
  rw [width, bind_eq_ok]
  constructor
  · rintro ⟨k, u, hk, h⟩
    obtain ⟨hk, rfl⟩ := sort_eq_ok.1 hk
    cases k with
    | bitvec w =>
      cases pure_eq_ok.1 h
      exact ⟨hk, rfl⟩
    | _ => exact (fail_eq_ok.1 h).elim
  · rintro ⟨hk, rfl⟩
    exact ⟨.bitvec r.1, r.2, sort_eq_ok.2 ⟨hk, rfl⟩, pure_eq_ok.2 rfl⟩

/-- The declaration and the arguments of an application agree. -/
theorem apply_eq_ok {d : FuncDecl} {ts : List Term} {s u : Store} {t : Term}
    (h : Build.apply d ts s = .ok (t, u)) :
    ∃ f, s.decl? d = some f ∧ s.Sorts ts f.domain ∧ (t, u) = s.intern ⟨.apply d, ts, f.range⟩ := by
  obtain ⟨f, v, hf, hv⟩ := bind_eq_ok.1 h
  obtain ⟨hf, rfl⟩ := ofExcept_eq_ok.1 hf
  have hd : v.decl? d = some f := by
    unfold Store.decl at hf
    cases hx : v.decl? d <;> rw [hx] at hf <;> simp_all
  split at hv
  · exact (fail_bind_eq_ok.1 hv).elim
  · next hlen =>
    obtain ⟨_, w, hts, hu⟩ := bind_eq_ok.1 hv
    have check : ∀ {x : Term × TermSort} {r}, expect x.2 x.1 v = .ok r ↔
        v.sort? x.1 = some x.2 ∧ r.2 = v := expect_eq_ok
    obtain ⟨hts, rfl⟩ := (forM_eq_ok check).1 hts
    refine ⟨f, hd, List.forall₂_iff_zip.2 ⟨?_, fun hx => hts _ hx⟩, intern_eq_ok.1 hu⟩
    exact (not_not.1 hlen).symm

theorem replaceChildren_eq_ok {n : Node} {t : Term} {ts : List Term} (hn : s.node? t = some n)
    (hts : List.Forall₂ (fun a b => ∃ k, s.sort? a = some k ∧ s.sort? b = some k) n.args ts) :
    Build.replaceChildren t ts s = .ok (s.intern { n with args := ts }) := by
  refine bind_eq_ok.2 ⟨n, s, node_eq_ok.2 ⟨hn, rfl⟩, ?_⟩
  rw [if_neg (not_not.2 hts.length_eq)]
  refine bind_eq_ok.2 ⟨(), s, (forM_eq_ok expectSame_eq_ok).2 ⟨?_, rfl⟩, rfl⟩
  exact fun x hx => (List.forall₂_iff_zip.1 hts).2 hx

/-- Only terms of the sorts of the children can take their places. -/
theorem replaces_of_eq_ok {t : Term} {ts : List Term} {r : Term × Store}
    (h : Build.replaceChildren t ts s = .ok r) :
    ∃ n, s.node? t = some n ∧
      List.Forall₂ (fun a b => ∃ k, s.sort? a = some k ∧ s.sort? b = some k) n.args ts ∧
      r = s.intern { n with args := ts } := by
  obtain ⟨n, v, hn, hv⟩ := bind_eq_ok.1 h
  obtain ⟨hn, rfl⟩ := node_eq_ok.1 hn
  split at hv
  · exact (fail_bind_eq_ok.1 hv).elim
  · next hlen =>
    obtain ⟨_, w, hts, hu⟩ := bind_eq_ok.1 hv
    obtain ⟨hts, rfl⟩ := (forM_eq_ok expectSame_eq_ok).1 hts
    exact ⟨n, hn, List.forall₂_iff_zip.2 ⟨not_not.1 hlen, fun hx => hts _ hx⟩, intern_eq_ok.1 hu⟩

/-- What a new constant is. -/
theorem constant_eq_ok {name : String} {k : TermSort} {s u : Store} {t : Term}
    (h : Build.constant name k s = .ok (t, u)) :
    ∃ d, u.node? t = some ⟨.apply d, [], k⟩ := by
  obtain ⟨d, v, hd, hv⟩ := bind_eq_ok.1 h
  obtain ⟨f, hf, -, hu⟩ := apply_eq_ok hv
  obtain ⟨rfl, rfl⟩ := Prod.ext_iff.1 (internDecl_eq_ok.1 hd)
  obtain ⟨rfl, rfl⟩ := Prod.ext_iff.1 hu
  rw [Store.decl?_internDecl] at hf
  exact ⟨_, (Store.node?_intern _ _).trans (by rw [← Option.some.inj hf])⟩

/-! Over terms of the sorts that they take, constructors add a node -/

variable {op : ArithOp} {a b t : Term} {ts : List Term} {k : TermSort}

theorem toReal_of_sort (ht : s.sort? t = some .int) :
    toReal t s = .ok (s.intern ⟨.arith .toReal, [t], .real⟩) :=
  bind_eq_ok.2 ⟨(), s, expect_eq_ok.2 ⟨ht, rfl⟩, rfl⟩

theorem arith_of_sorts (hk : k = .int ∨ k = .real) (hne : ts ≠ [])
    (hts : ∀ t ∈ ts, s.sort? t = some k) :
    arith op ts s = .ok (s.intern ⟨.arith op, ts, k⟩) :=
  bind_eq_ok.2 ⟨k, s, numericSort_eq_ok.2 ⟨hk, hne, hts, rfl⟩, rfl⟩

theorem compare_of_sorts (op : ArithOp) (hk : k = .int ∨ k = .real)
    (hts : ∀ t ∈ [a, b], s.sort? t = some k) :
    compare op a b s = .ok (s.intern ⟨.arith op, [a, b], .bool⟩) :=
  bind_eq_ok.2 ⟨k, s, numericSort_eq_ok.2 ⟨hk, by simp, hts, rfl⟩, rfl⟩

/-- Division is by the sort of the dividend. -/
theorem divide_of_sorts (hk : k = .int ∨ k = .real) (hts : ∀ t ∈ [a, b], s.sort? t = some k) :
    divide a b s =
      .ok (s.intern ⟨.arith (if k = .int then .intDiv else .div), [a, b], k⟩) := by
  refine bind_eq_ok.2 ⟨k, s, sort_eq_ok.2 ⟨hts a (by simp), rfl⟩, ?_⟩
  obtain rfl | rfl := hk
  · exact arith_of_sorts (.inl rfl) (by simp) hts
  · exact arith_of_sorts (.inr rfl) (by simp) hts

theorem modulo_of_sorts (hts : ∀ t ∈ [a, b], s.sort? t = some .int) :
    modulo a b s = .ok (s.intern ⟨.arith .mod, [a, b], .int⟩) :=
  bind_eq_ok.2 ⟨(), s, expect_eq_ok.2 ⟨hts a (by simp), rfl⟩,
    arith_of_sorts (.inl rfl) (by simp) hts⟩

theorem connective_of_sorts {op : Operator} (hts : ∀ t ∈ ts, s.sort? t = some .bool) :
    connective op ts s = .ok (s.intern ⟨op, ts, .bool⟩) :=
  bind_eq_ok.2 ⟨(), s, forM_expect_eq_ok.2 ⟨hts, rfl⟩, rfl⟩

theorem ite_of_sorts {c : Term} (hc : s.sort? c = some .bool)
    (hts : ∀ t ∈ [a, b], s.sort? t = some k) :
    ite c a b s = .ok (s.intern ⟨.ite, [c, a, b], k⟩) :=
  bind_eq_ok.2 ⟨(), s, expect_eq_ok.2 ⟨hc, rfl⟩,
    bind_eq_ok.2 ⟨k, s, commonSort_eq_ok.2 ⟨by simp, hts, rfl⟩, rfl⟩⟩

theorem eq_of_sorts (hts : ∀ t ∈ [a, b], s.sort? t = some k) :
    eq a b s = .ok (s.intern ⟨.eq, [a, b], .bool⟩) :=
  bind_eq_ok.2 ⟨k, s, commonSort_eq_ok.2 ⟨by simp, hts, rfl⟩, rfl⟩

theorem distinct_of_sorts (hlength : 2 ≤ ts.length) (hts : ∀ t ∈ ts, s.sort? t = some k) :
    distinct ts s = .ok (s.intern ⟨.distinct, ts, .bool⟩) := by
  have hne : ts ≠ [] := by
    rintro rfl
    simp at hlength
  unfold distinct
  rw [if_neg (Nat.not_lt.2 hlength)]
  exact bind_eq_ok.2 ⟨k, s, commonSort_eq_ok.2 ⟨hne, hts, rfl⟩, rfl⟩

theorem apply_of_sorts {d : FuncDecl} {f : Signature} (hf : s.decl? d = some f)
    (hts : s.Sorts ts f.domain) : apply d ts s = .ok (s.intern ⟨.apply d, ts, f.range⟩) := by
  have hdecl : s.decl d = .ok f := by rw [Store.decl, hf]
  refine bind_eq_ok.2 ⟨f, s, ofExcept_eq_ok.2 ⟨hdecl, rfl⟩, ?_⟩
  rw [if_neg (not_not.2 (List.Forall₂.length_eq hts).symm)]
  have check : ∀ {x : Term × TermSort} {r}, expect x.2 x.1 s = .ok r ↔
      s.sort? x.1 = some x.2 ∧ r.2 = s := expect_eq_ok
  refine bind_eq_ok.2 ⟨(), s, (forM_eq_ok check).2 ⟨?_, rfl⟩, rfl⟩
  exact fun x hx => (List.forall₂_iff_zip.1 hts).2 hx

/-- The store stays as it is. -/
def ReadOnly (b : Build α) : Prop := ∀ s r, b s = .ok r → r.2 = s

namespace ReadOnly

theorem pure (a : α) : ReadOnly (Pure.pure a) := by
  intro s r h
  rw [pure_eq_ok.1 h]

theorem fail (f : Fault) : ReadOnly (fail f : Build α) :=
  fun _ _ h => (fail_eq_ok.1 h).elim

theorem ofExcept (f : Store → Except Fault α) : ReadOnly (ofExcept f) :=
  fun _ _ h => (ofExcept_eq_ok.1 h).2

theorem node (t : Term) : ReadOnly (node t) := ofExcept _

theorem bind {b : Build α} {f : α → Build β} (hb : ReadOnly b) (hf : ∀ a, ReadOnly (f a)) :
    ReadOnly (b >>= f) := by
  intro s r h
  obtain ⟨a, t, ha, hr⟩ := bind_eq_ok.1 h
  have ht : t = s := hb s _ ha
  rw [← ht]
  exact hf a t r hr

/-- Work on each element of a list. -/
theorem mapM {f : α → Build β} (hf : ∀ a, ReadOnly (f a)) {as : List α}
    {r : List β × Store} (h : as.mapM f s = .ok r) : r.1.length = as.length ∧ r.2 = s := by
  induction as generalizing r with
  | nil =>
    rw [List.mapM_nil] at h
    cases pure_eq_ok.1 h
    exact ⟨rfl, rfl⟩
  | cons a as ih =>
    rw [List.mapM_cons] at h
    obtain ⟨b, t, hb, h'⟩ := bind_eq_ok.1 h
    have ht : t = s := hf a s _ hb
    obtain ⟨bs, u, hbs, hr⟩ := bind_eq_ok.1 h'
    rw [ht] at hbs
    obtain ⟨hlen, hu⟩ := ih hbs
    cases pure_eq_ok.1 hr
    exact ⟨congrArg (· + 1) hlen, hu⟩

end ReadOnly

/-- Where it succeeds, the store grows. -/
def Grows (b : Build α) : Prop := ∀ s a t, b s = .ok (a, t) → s.Grows t

namespace Grows

theorem pure (a : α) : Grows (Pure.pure a) := by
  intro s b t h
  cases pure_eq_ok.1 h
  exact .refl s

theorem fail (f : Fault) : Grows (fail f : Build α) := fun _ _ _ h => (fail_eq_ok.1 h).elim

theorem bind {b : Build α} {f : α → Build β} (hb : Grows b) (hf : ∀ a, Grows (f a)) :
    Grows (b >>= f) := by
  intro s c u h
  obtain ⟨a, t, ha, hc⟩ := bind_eq_ok.1 h
  exact (hb s a t ha).trans (hf a t c u hc)

/-- A new node whose arguments fit. -/
theorem intern {n : Node} {s t : Store} {r : Term} {sorts : List TermSort}
    (h : Build.intern n s = .ok (r, t)) (ha : s.Sorts n.args sorts)
    (hn : n.op.Fits s.decl? sorts n.sort) : s.Grows t := by
  have ht : t = (s.intern n).2 := congrArg Prod.snd (intern_eq_ok.1 h)
  rw [ht]
  exact Store.grows_intern fun _ => ⟨sorts, ha, hn⟩

theorem truth (b : Bool) : Grows (truth b) := by
  intro s t u h
  refine intern h .nil ?_
  cases b <;> exact ⟨rfl, rfl⟩

/-- A connective over as many boolean arguments as it takes. -/
theorem connective (op : Operator) (ts : List Term)
    (h : ∀ decl?, op.Fits decl? (List.replicate ts.length .bool) .bool) :
    Grows (connective op ts) := by
  intro s t u hs
  obtain ⟨_, v, hts, hu⟩ := bind_eq_ok.1 hs
  obtain ⟨hts, rfl⟩ := forM_expect_eq_ok.1 hts
  exact intern hu (Store.sorts_of_forall hts) (h _)

theorem not (t : Term) : Grows (not t) := connective .not [t] fun _ => ⟨rfl, rfl⟩

theorem and : ∀ ts : List Term, Grows (and ts)
  | [] => truth true
  | [t] => pure t
  | t :: u :: ts =>
    connective .and (t :: u :: ts) fun _ => ⟨by simp, fun _ => List.eq_of_mem_replicate, rfl⟩

theorem or : ∀ ts : List Term, Grows (or ts)
  | [] => truth false
  | [t] => pure t
  | t :: u :: ts =>
    connective .or (t :: u :: ts) fun _ => ⟨by simp, fun _ => List.eq_of_mem_replicate, rfl⟩

theorem iff (a b : Term) : Grows (iff a b) := connective .iff [a, b] fun _ => ⟨rfl, rfl⟩

theorem implies (a b : Term) : Grows (implies a b) :=
  connective .implies [a, b] fun _ => ⟨rfl, rfl⟩

theorem ite (c a b : Term) : Grows (ite c a b) := by
  intro s t u h
  obtain ⟨_, v, hc, hv⟩ := bind_eq_ok.1 h
  obtain ⟨hc, rfl⟩ := expect_eq_ok.1 hc
  obtain ⟨k, w, hk, hu⟩ := bind_eq_ok.1 hv
  obtain ⟨-, hk, rfl⟩ := commonSort_eq_ok.1 hk
  exact intern hu (.cons hc (Store.sorts_of_forall hk)) rfl

theorem eq (a b : Term) : Grows (eq a b) := by
  intro s t u h
  obtain ⟨k, w, hk, hu⟩ := bind_eq_ok.1 h
  obtain ⟨-, hk, rfl⟩ := commonSort_eq_ok.1 hk
  exact intern hu (Store.sorts_of_forall hk) ⟨⟨k, rfl⟩, rfl⟩

theorem distinct (ts : List Term) : Grows (distinct ts) := by
  intro s t u h
  unfold Build.distinct at h
  split at h
  · exact (fail_bind_eq_ok.1 h).elim
  · next hlen =>
    obtain ⟨k, w, hk, hu⟩ := bind_eq_ok.1 h
    obtain ⟨-, hk, rfl⟩ := commonSort_eq_ok.1 hk
    refine intern hu (Store.sorts_of_forall hk) ⟨?_, ⟨k, fun _ => List.eq_of_mem_replicate⟩, rfl⟩
    rw [List.length_replicate]
    exact Nat.le_of_not_lt hlen

theorem internDecl (f : Signature) : Grows (internDecl f) := by
  intro s d t h
  have ht : t = (s.internDecl f).2 := congrArg Prod.snd (internDecl_eq_ok.1 h)
  rw [ht]
  exact s.grows_internDecl f

theorem apply (d : FuncDecl) (ts : List Term) : Grows (apply d ts) := by
  intro s t u h
  obtain ⟨f, hf, hts, hu⟩ := apply_eq_ok h
  exact intern (intern_eq_ok.2 hu) hts ⟨f.name, hf⟩

theorem constant (name : String) (k : TermSort) : Grows (constant name k) :=
  (internDecl _).bind fun d => apply d []

theorem numeral (q : Rat) (k : TermSort) : Grows (numeral q k) := by
  intro s t u h
  unfold Build.numeral at h
  split at h
  · split at h
    · exact intern h .nil ⟨rfl, rfl⟩
    · exact (fail_eq_ok.1 h).elim
  · exact intern h .nil ⟨rfl, rfl⟩
  · exact (fail_eq_ok.1 h).elim

/-- An arithmetic operator over as many arguments of one numeric sort as it takes. -/
theorem arith (op : ArithOp) (ts : List Term)
    (h : ∀ k, (k = .int ∨ k = .real) → ts ≠ [] → op.Fits (List.replicate ts.length k) k) :
    Grows (arith op ts) := by
  intro s t u hs
  obtain ⟨k, v, hk, hu⟩ := bind_eq_ok.1 hs
  obtain ⟨hn, hne, hts, rfl⟩ := numericSort_eq_ok.1 hk
  exact intern hu (Store.sorts_of_forall hts) (h k hn hne)

theorem compare (op : ArithOp) (a b : Term)
    (h : ∀ k, (k = .int ∨ k = .real) → op.Fits [k, k] .bool) : Grows (compare op a b) := by
  intro s t u hs
  obtain ⟨k, v, hk, hu⟩ := bind_eq_ok.1 hs
  obtain ⟨hn, -, hts, rfl⟩ := numericSort_eq_ok.1 hk
  exact intern hu (Store.sorts_of_forall hts) (h k hn)

theorem divide (a b : Term) : Grows (divide a b) := by
  intro s t u h
  obtain ⟨k, v, hk, hv⟩ := bind_eq_ok.1 h
  obtain ⟨hk, rfl⟩ := sort_eq_ok.1 hk
  split at hv
  · obtain ⟨l, w, hl, hu⟩ := bind_eq_ok.1 hv
    obtain ⟨-, -, hts, rfl⟩ := numericSort_eq_ok.1 hl
    obtain rfl : l = .int := Option.some.inj ((hts a (by simp)).symm.trans hk)
    exact intern hu (Store.sorts_of_forall hts) ⟨rfl, rfl⟩
  · next hint =>
    obtain ⟨l, w, hl, hu⟩ := bind_eq_ok.1 hv
    obtain ⟨hn, -, hts, rfl⟩ := numericSort_eq_ok.1 hl
    have hkl : l = k := Option.some.inj ((hts a (by simp)).symm.trans hk)
    obtain rfl : l = .real := hn.resolve_left fun hi => hint (hkl ▸ hi)
    exact intern hu (Store.sorts_of_forall hts) ⟨rfl, rfl⟩

theorem modulo (a b : Term) : Grows (modulo a b) := by
  intro s t u h
  obtain ⟨_, v, ha, hv⟩ := bind_eq_ok.1 h
  obtain ⟨ha, rfl⟩ := expect_eq_ok.1 ha
  obtain ⟨l, w, hl, hu⟩ := bind_eq_ok.1 hv
  obtain ⟨-, -, hts, rfl⟩ := numericSort_eq_ok.1 hl
  obtain rfl : l = .int := Option.some.inj ((hts a (by simp)).symm.trans ha)
  exact intern hu (Store.sorts_of_forall hts) ⟨rfl, rfl⟩

theorem toReal (t : Term) : Grows (toReal t) := by
  intro s r u h
  obtain ⟨_, v, ht, hu⟩ := bind_eq_ok.1 h
  obtain ⟨ht, rfl⟩ := expect_eq_ok.1 ht
  exact intern hu (.cons ht .nil) ⟨rfl, rfl⟩

theorem bits (value : Int) (width : Nat) : Grows (bits value width) := by
  intro s t u h
  unfold Build.bits at h
  split at h
  · exact (fail_bind_eq_ok.1 h).elim
  · next hw =>
    refine intern h .nil ⟨rfl, Nat.pos_of_ne_zero hw, ?_, rfl⟩
    have hpos : (0 : Int) < 2 ^ width := by positivity
    have hlt := Int.emod_lt_of_pos value hpos
    change (value % 2 ^ width).toNat < 2 ^ width
    have hge := Int.emod_nonneg value hpos.ne'
    zify
    rwa [Int.toNat_of_nonneg hge]

/-- An operator over as many bit-vectors of one width as it takes. -/
theorem bitwise (op : BitOp) (t : Term) (ts : List Term)
    (h : ∀ w, op.Fits (List.replicate (ts.length + 1) (.bitvec w))
      (if op.isPredicate then .bool else .bitvec w)) : Grows (bitwise op t ts) := by
  intro s r u hs
  obtain ⟨w, v, hw, hv⟩ := bind_eq_ok.1 hs
  obtain ⟨hw, rfl⟩ := width_eq_ok.1 hw
  obtain ⟨_, x, hts, hu⟩ := bind_eq_ok.1 hv
  obtain ⟨hts, rfl⟩ := forM_expect_eq_ok.1 hts
  exact intern hu (.cons hw (Store.sorts_of_forall hts)) (h w)

theorem concat (a b : Term) : Grows (concat a b) := by
  intro s t u h
  obtain ⟨v, x, ha, hx⟩ := bind_eq_ok.1 h
  obtain ⟨ha, rfl⟩ := width_eq_ok.1 ha
  obtain ⟨w, y, hb, hu⟩ := bind_eq_ok.1 hx
  obtain ⟨hb, rfl⟩ := width_eq_ok.1 hb
  exact intern hu (.cons ha (.cons hb .nil)) ⟨v, w, rfl, rfl⟩

theorem extract (high low : Nat) (t : Term) : Grows (extract high low t) := by
  intro s r u h
  obtain ⟨w, v, hw, hv⟩ := bind_eq_ok.1 h
  obtain ⟨hw, rfl⟩ := width_eq_ok.1 hw
  split at hv
  · exact (fail_bind_eq_ok.1 hv).elim
  · next hb =>
    refine intern hv (.cons hw .nil) ⟨?_, ⟨w, ?_, rfl⟩, rfl⟩ <;> omega

theorem select (a i : Term) : Grows (select a i) := by
  intro s t u h
  obtain ⟨k, v, hk, hv⟩ := bind_eq_ok.1 h
  obtain ⟨hk, rfl⟩ := sort_eq_ok.1 hk
  split at hv
  · obtain ⟨_, w, hi, hu⟩ := bind_eq_ok.1 hv
    obtain ⟨hi, rfl⟩ := expect_eq_ok.1 hi
    exact intern hu (.cons hk (.cons hi .nil)) ⟨_, rfl⟩
  · exact (fail_eq_ok.1 hv).elim

theorem store (a i x : Term) : Grows (store a i x) := by
  intro s t u h
  obtain ⟨k, v, hk, hv⟩ := bind_eq_ok.1 h
  obtain ⟨hk, rfl⟩ := sort_eq_ok.1 hk
  split at hv
  · obtain ⟨_, w, hi, hw⟩ := bind_eq_ok.1 hv
    obtain ⟨hi, rfl⟩ := expect_eq_ok.1 hi
    obtain ⟨_, y, hx, hu⟩ := bind_eq_ok.1 hw
    obtain ⟨hx, rfl⟩ := expect_eq_ok.1 hx
    exact intern hu (.cons hk (.cons hi (.cons hx .nil))) ⟨_, _, rfl, rfl⟩
  · exact (fail_eq_ok.1 hv).elim

theorem constArray (k : TermSort) (x : Term) : Grows (constArray k x) := by
  intro s t u h
  obtain ⟨e, v, he, hu⟩ := bind_eq_ok.1 h
  obtain ⟨he, rfl⟩ := sort_eq_ok.1 he
  exact intern hu (.cons he .nil) ⟨k, e, rfl, rfl⟩

theorem replaceChildren (t : Term) (ts : List Term) : Grows (replaceChildren t ts) := by
  intro s r u h
  obtain ⟨n, hn, hts, hu⟩ := replaces_of_eq_ok h
  have hu : u = _ := congrArg Prod.snd hu
  rw [hu]
  refine Store.grows_intern fun hs => ?_
  obtain ⟨ks, hks, hfit⟩ := hs.fits hn
  exact ⟨ks, hks.replace hts, hfit⟩

end Grows

end Build
end FormulaStack
