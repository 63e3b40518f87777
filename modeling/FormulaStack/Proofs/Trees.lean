import FormulaStack.Proofs.Folding

/-!
The tree that a term unfolds to. Declarations appear by their signatures, so a tree says nothing of
the store that it was read from. In a well-formed store a term is determined by its tree.
-/
namespace FormulaStack

/-- An operator, with a signature in place of a declaration. -/
inductive Label where
  | op (op : Operator)
  | apply (f : Signature)
  deriving DecidableEq

inductive Tree where
  | node (label : Label) (sort : TermSort) (args : List Tree)

namespace Tree

def label : Tree → Label
  | node l _ _ => l

def sort : Tree → TermSort
  | node _ k _ => k

def args : Tree → List Tree
  | node _ _ xs => xs

theorem induction {motive : Tree → Prop}
    (step : ∀ l k xs, (∀ x ∈ xs, motive x) → motive (node l k xs)) : ∀ x, motive x
  | node l k xs => step l k xs fun x _ => induction step x

mutual
def decEq : (x y : Tree) → Decidable (x = y)
  | node l k xs, node l' k' ys =>
    if h : l = l' ∧ k = k' then
      match decEqAll xs ys with
      | isTrue hargs => isTrue (by rw [h.1, h.2, hargs])
      | isFalse hargs => isFalse (by rintro ⟨⟩; exact hargs rfl)
    else isFalse (by rintro ⟨⟩; exact h ⟨rfl, rfl⟩)

def decEqAll : (xs ys : List Tree) → Decidable (xs = ys)
  | [], [] => isTrue rfl
  | [], _ :: _ | _ :: _, [] => isFalse nofun
  | x :: xs, y :: ys =>
    match decEq x y, decEqAll xs ys with
    | isTrue h, isTrue hs => isTrue (by rw [h, hs])
    | isFalse h, _ => isFalse (by rintro ⟨⟩; exact h rfl)
    | _, isFalse hs => isFalse (by rintro ⟨⟩; exact hs rfl)
end

instance : DecidableEq Tree := decEq

variable {β : Type}

mutual
/-- The result for a tree, from its arguments and the results for them. -/
def fold (step : Label → TermSort → List (Tree × β) → β) : Tree → β
  | node l k xs => step l k (foldAll step xs)

def foldAll (step : Label → TermSort → List (Tree × β) → β) : List Tree → List (Tree × β)
  | [] => []
  | x :: xs => (x, fold step x) :: foldAll step xs
end

@[simp] theorem foldAll_eq_map (step : Label → TermSort → List (Tree × β) → β) (xs : List Tree) :
    foldAll step xs = xs.map fun x => (x, x.fold step) := by
  induction xs with
  | nil => rfl
  | cons x xs ih => simp [foldAll, ih]

theorem fold_node (step : Label → TermSort → List (Tree × β) → β) (l : Label) (k : TermSort)
    (xs : List Tree) : (node l k xs).fold step = step l k (xs.map fun x => (x, x.fold step)) := by
  simp [fold]

end Tree

namespace Store

def label (s : Store) : Operator → Label
  | .apply d =>
    match s.decl? d with
    | some f => .apply f
    | none => .op (.apply d)
  | op => .op op

/-- The tree of a term that is there. -/
def tree? (s : Store) (t : Term) : Option Tree :=
  s.bottomUp? (fun _ n xs => .node (s.label n.op) n.sort xs) t

def Unfolds (s : Store) (ts : List Term) (xs : List Tree) : Prop :=
  List.Forall₂ (fun t x => s.tree? t = some x) ts xs

variable {s u : Store} {t : Term} {n : Node} {x : Tree}

theorem label_extends {op : Operator} {ks : List TermSort} {k : TermSort} (h : u.Extends s)
    (hop : op.Fits s.decl? ks k) : u.label op = s.label op := by
  cases op with
  | apply d =>
    obtain ⟨name, hd⟩ := hop
    simp [label, hd, h.decl? d _ hd]
  | _ => rfl

/-- A label that is a signature comes from the declaration of that signature. -/
theorem label_eq_apply {op : Operator} {f : Signature} (h : s.label op = .apply f) :
    ∃ d, op = .apply d ∧ s.decl? d = some f := by
  cases op with
  | apply d =>
    cases hd : s.decl? d with
    | none => simp [label, hd] at h
    | some g =>
      simp only [label, hd, Label.apply.injEq] at h
      exact ⟨d, rfl, by rw [hd, h]⟩
  | _ => simp [label] at h

theorem label_eq_op {op op' : Operator} {ks : List TermSort} {k : TermSort}
    (hop : op.Fits s.decl? ks k) (h : s.label op = .op op') : op' = op := by
  cases op with
  | apply d =>
    obtain ⟨name, hd⟩ := hop
    simp [label, hd] at h
  | _ => simpa [label] using h.symm

theorem WellFormed.label_injective (hs : s.WellFormed) {op op' : Operator}
    {ks ks' : List TermSort} {k k' : TermSort} (hop : op.Fits s.decl? ks k)
    (hop' : op'.Fits s.decl? ks' k') (h : s.label op = s.label op') : op = op' := by
  cases hl : s.label op with
  | op _ => rw [← label_eq_op hop hl, ← label_eq_op hop' (h.symm.trans hl)]
  | apply f =>
    obtain ⟨d, rfl, hd⟩ := label_eq_apply hl
    obtain ⟨e, rfl, he⟩ := label_eq_apply (h.symm.trans hl)
    rw [hs.declaredOnce hd he]

theorem exists_node_of_bottomUp? {β : Type} {step : Term → Node → List β → β} {b : β}
    (h : s.bottomUp? step t = some b) : ∃ n, s.node? t = some n := by
  by_contra hn
  simp only [node?, not_exists, ← Option.eq_none_iff_forall_ne_some,
    Array.getElem?_eq_none_iff] at hn
  have hrows : s.rows step (t.index + 1) = s.rows step s.nodes.size := by
    simp only [rows]
    rw [List.take_of_length_le (by simp; omega), List.take_of_length_le (by simp)]
  have hnone : (s.rows step (t.index + 1))[t.index]? = none := by
    rw [hrows, Array.getElem?_eq_none_iff, size_rows (le_refl _)]
    exact hn
  simp [bottomUp?, hnone] at h

theorem WellFormed.tree? (hs : s.WellFormed) (ht : s.node? t = some n) :
    ∃ xs, s.Unfolds n.args xs ∧ s.tree? t = some (.node (s.label n.op) n.sort xs) :=
  hs.bottomUp? _ ht

/-- The root of a tree is the node of its term. -/
theorem WellFormed.node_of_tree? (hs : s.WellFormed) {l : Label} {k : TermSort} {xs : List Tree}
    (h : s.tree? t = some (.node l k xs)) :
    ∃ n, s.node? t = some n ∧ s.label n.op = l ∧ n.sort = k ∧ s.Unfolds n.args xs := by
  obtain ⟨n, hn⟩ := exists_node_of_bottomUp? h
  obtain ⟨ys, hys, ht⟩ := hs.tree? hn
  rw [ht] at h
  simp only [Option.some.injEq, Tree.node.injEq] at h
  obtain ⟨hl, hk, rfl⟩ := h
  exact ⟨n, hn, hl, hk, hys⟩

theorem WellFormed.sort?_of_tree? (hs : s.WellFormed) (h : s.tree? t = some x) :
    s.sort? t = some x.sort := by
  cases x with
  | node l k xs =>
    obtain ⟨n, hn, -, hk, -⟩ := hs.node_of_tree? h
    simp [sort?, hn, hk, Tree.sort]

/-- Other terms may be added; a tree stays what it is. -/
theorem WellFormed.tree?_extends (hs : s.WellFormed) (hu : u.WellFormed) (h : u.Extends s)
    (ht : s.tree? t = some x) : u.tree? t = some x := by
  obtain ⟨n, hn⟩ := exists_node_of_bottomUp? ht
  rw [← ht]
  refine hs.induction hn fun t n hn ih => ?_
  obtain ⟨xs, hxs, hx⟩ := hs.tree? hn
  obtain ⟨ys, hys, hy⟩ := hu.tree? (h.node? t n hn)
  obtain ⟨ks, hks, hop⟩ := hs.fits hn
  have hsame : ys = xs := by
    rw [← Results.filterMap hxs, ← Results.filterMap hys]
    apply List.filterMap_congr
    intro a ha
    obtain ⟨m, hm⟩ := hks.node? a ha
    exact ih a ha m hm
  rw [hx, hy, hsame, label_extends h hop]

theorem Unfolds.mono {ts : List Term} {xs : List Tree} (h : s.Unfolds ts xs) (hs : s.WellFormed)
    (hu : u.WellFormed) (hext : u.Extends s) : u.Unfolds ts xs :=
  List.Forall₂.imp (fun _ _ ht => hs.tree?_extends hu hext ht) h

/-- A term is determined by its tree. -/
theorem WellFormed.tree?_injective (hs : s.WellFormed) {t u : Term} (ht : s.tree? t = some x)
    (hu : s.tree? u = some x) : t = u := by
  -- For two terms at once: their labels and arguments agree, so their nodes do, and no node is kept
  -- twice.
  induction x using Tree.induction generalizing t u with
  | step l k xs ih =>
    obtain ⟨n, hn, hnl, hnk, hnxs⟩ := hs.node_of_tree? ht
    obtain ⟨m, hm, hml, hmk, hmxs⟩ := hs.node_of_tree? hu
    obtain ⟨_, -, hnop⟩ := hs.fits hn
    obtain ⟨_, -, hmop⟩ := hs.fits hm
    have hop : n.op = m.op := hs.label_injective hnop hmop (hnl.trans hml.symm)
    have hargs : n.args = m.args := by
      clear hn hm ht hu hnop hmop
      revert hnxs hmxs
      generalize n.args = ts
      generalize m.args = us
      intro hts hus
      induction hts generalizing us with
      | nil => cases hus; rfl
      | cons ha _ ihs =>
        cases hus with
        | cons hb hus =>
          rw [ih _ (by simp) ha hb, ihs (fun x hx => ih x (by simp [hx])) _ hus]
    have hnm : n = m := by
      cases n
      cases m
      simp_all
    exact hs.once hn (hnm ▸ hm)

end Store
end FormulaStack
