import FormulaStack.Proofs.Rebuilding
import Mathlib.Logic.Relation

/-!
What a run of a map keeps of trees: the images it made, and the trees it looked into. An image is
made of those of the operands, so a table without gaps says what any tree in it becomes.
-/
namespace FormulaStack

namespace Tree

/-- A visit of one tree comes to another, through as many connectives as there are. -/
def Reaches : Tree → Tree → Prop := Relation.ReflTransGen fun x y => y ∈ x.operands

variable {x y z : Tree}

theorem mem_args_of_operand (h : y ∈ x.operands) : y ∈ x.args := by
  unfold operands at h
  split at h
  · simp at h
  · exact h

theorem operands_eq_args (ha : x.isAtom = false) (hr : x.isRefused = false) :
    x.operands = x.args := by
  simp [operands, ha, hr]

theorem sizeOf_operand (h : y ∈ x.operands) : sizeOf y < sizeOf x := by
  obtain ⟨l, k, xs⟩ := x
  have hy := List.sizeOf_lt_of_mem (mem_args_of_operand h)
  simp only [args, node.sizeOf_spec] at hy ⊢
  omega

theorem Reaches.refl (x : Tree) : x.Reaches x := Relation.ReflTransGen.refl

theorem Reaches.operand (h : y ∈ x.operands) (hz : y.Reaches z) : x.Reaches z :=
  Relation.ReflTransGen.head h hz

theorem exists_mapM_rebuild {image : Tree → Tree} (xs : List Tree)
    (h : ∀ x ∈ xs, ∃ y, x.rebuild (fun a => .own (image a)) = .ok (.own y)) :
    ∃ ys : List Tree, ys.length = xs.length ∧
      xs.mapM (rebuild fun a => .own (image a)) = .ok (ys.map .own) := by
  obtain ⟨ys, hys⟩ := exists_forall₂ h
  exact ⟨ys, hys.length_eq.symm, mapM_eq_ok.2 (List.forall₂_map_right_iff.2 hys)⟩

/-- Rebuilding gets through where a visit meets nothing that it cannot enter. -/
theorem exists_rebuild (image : Tree → Tree) (hx : x.Proposition)
    (h : ∀ y, x.Reaches y → y.isRefused = false) :
    ∃ y, x.rebuild (fun a => .own (image a)) = .ok (.own y) := by
  induction x using Tree.induction with
  | step l k xs ih =>
    rw [rebuild_eq]
    cases ha : (node l k xs).isAtom with
    | true => exact ⟨_, rfl⟩
    | false =>
      have hr := h _ (.refl _)
      obtain ⟨ys, hlen, hys⟩ := exists_mapM_rebuild (node l k xs).args fun z hz =>
        ih z hz (hx.args ha z hz) fun y hy =>
          h y (.operand (by rwa [operands_eq_args ha hr]) hy)
      obtain ⟨z, hz⟩ := exists_combine hx ha hr hlen
      refine ⟨z, ?_⟩
      rw [if_neg (by simp), if_neg (by simp [hr]), hys]
      exact congrArg (fun e : Except Fault Tree => do return Reading.own (← e)) hz

theorem Reaches.sizeOf_le (h : x.Reaches y) : sizeOf y ≤ sizeOf x := by
  induction h with
  | refl => exact le_refl _
  | tail _ hz ih => exact (sizeOf_operand hz).le.trans ih

end Tree

/-- Trees with their images, and the trees that were looked into. -/
structure Record where
  table : List (Tree × Reading)
  visited : List Tree

/-- What may become of an atom: an image, or a fault. -/
abbrev Outcomes := Tree → Except Fault Reading → Prop

/-- No atom fails, and each has the image that `image` gives. -/
def Exactly (image : Tree → Reading) : Outcomes := fun a o => o = .ok (image a)

/-- Atoms may fail, and may have any images. -/
def Anyhow : Outcomes := fun _ _ => True

theorem Exactly.eq {image : Tree → Reading} {a : Tree} {r : Reading}
    (h : Exactly image a (.ok r)) : image a = r :=
  (Except.ok.inj h).symm

/-- An image is the answer for an atom, or is over the images that a table has of the arguments. -/
inductive Made (G : Outcomes) (table : List (Tree × Reading)) (x : Tree) : Reading → Prop
  | atom {r : Reading} (ha : x.isAtom = true) (h : G x (.ok r)) : Made G table x r
  | node {rs : List Reading} {y : Tree} (ha : x.isAtom = false) (hr : x.isRefused = false)
      (hrs : List.Forall₂ (fun z q => (z, q) ∈ table) x.args rs)
      (hy : Tree.combine x.label rs = .ok y) : Made G table x (.own y)

namespace Record

variable {G : Outcomes} {image : Tree → Reading} {k k' : Record} {x y : Tree} {r : Reading}

def keys (k : Record) : List Tree := k.table.map (·.1)

def Closed (G : Outcomes) (k : Record) : Prop := ∀ q ∈ k.table, Made G k.table q.1 q.2

/-- The atoms of a record have the images that `image` gives. -/
def Follows (image : Tree → Reading) (k : Record) : Prop :=
  ∀ q ∈ k.table, q.1.isAtom = true → image q.1 = q.2

theorem mem_keys (h : (x, r) ∈ k.table) : x ∈ k.keys := List.mem_map_of_mem h

theorem exists_of_mem_keys (h : x ∈ k.keys) : ∃ r, (x, r) ∈ k.table := by
  obtain ⟨⟨_, r⟩, hq, rfl⟩ := List.mem_map.1 h
  exact ⟨r, hq⟩

end Record

theorem Made.mono {G : Outcomes} {table table' : List (Tree × Reading)} {x : Tree} {r : Reading}
    (h : Made G table x r) (hsub : table ⊆ table') : Made G table' x r := by
  cases h with
  | atom ha h => exact .atom ha h
  | node ha hr hrs hy => exact .node ha hr (hrs.imp fun _ _ hq => hsub hq) hy

namespace Record

variable {G : Outcomes} {image : Tree → Reading} {k : Record} {x y : Tree} {r : Reading}

theorem mapM_cons_bind {β : Type} (hx : x.rebuild image = .ok r) (xs : List Tree)
    (kont : List Reading → Except Fault β) :
    (x :: xs).mapM (Tree.rebuild image) >>= kont =
      xs.mapM (Tree.rebuild image) >>= fun rs => kont (r :: rs) := by
  rw [List.mapM_cons, hx]
  cases xs.mapM (Tree.rebuild image) <;> rfl

/-- A table without gaps has for each of its trees what rebuilding makes of it. The induction is
over the tree, whose arguments are in the table too. -/
theorem Closed.rebuild (h : k.Closed G) (himage : k.Follows image) (hx : (x, r) ∈ k.table) :
    x.rebuild image = .ok r := by
  induction x using Tree.induction generalizing r with
  | step l s xs ih =>
    rw [Tree.rebuild_eq]
    cases h _ hx with
    | atom ha _ => rw [if_pos ha, himage _ hx ha]
    | @node rs y ha hr hrs hy =>
      have hargs : (Tree.node l s xs).args.mapM (Tree.rebuild image) = .ok rs := by
        refine mapM_eq_ok.2 ?_
        refine List.forall₂_iff_get.2 ⟨hrs.length_eq, fun i hi hi' => ?_⟩
        exact ih _ (List.get_mem xs ⟨i, hi⟩) ((List.forall₂_iff_get.1 hrs).2 i hi hi')
      rw [if_neg (by simp [ha]), if_neg (by simp [hr]), hargs]
      exact congrArg (fun e : Except Fault Tree => do return Reading.own (← e)) hy

/-- What a visit of a tree in the table comes to is in the table. -/
theorem Closed.mem_keys_of_reaches (h : k.Closed G) (hx : x ∈ k.keys) (hxy : x.Reaches y) :
    y ∈ k.keys := by
  induction hxy with
  | refl => exact hx
  | tail _ hz ih =>
    obtain ⟨r, hr⟩ := exists_of_mem_keys ih
    cases h _ hr with
    | atom ha _ => simp [Tree.operands, show Tree.isAtom _ = true from ha] at hz
    | node _ _ hrs _ =>
      obtain ⟨q, -, hq⟩ := exists_related hrs.flip _ (Tree.mem_args_of_operand hz)
      exact mem_keys hq

/-- What one record has beyond another: trees that `R` holds of, and their images. -/
structure Adds (R : Tree → Prop) (k k' : Record) : Prop where
  table : k.table ⊆ k'.table
  visited : k.visited ⊆ k'.visited
  met : ∀ y ∈ k'.visited, y ∈ k.visited ∨ R y
  keys : ∀ y ∈ k'.keys, y ∈ k.keys ∨ y ∈ k'.visited ∧ R y

variable {R R' : Tree → Prop} {k' k'' : Record}

theorem Adds.refl (R : Tree → Prop) (k : Record) : Adds R k k :=
  ⟨fun _ => id, fun _ => id, fun _ => .inl, fun _ => .inl⟩

theorem Adds.subset_keys (h : Adds R k k') : k.keys ⊆ k'.keys := by
  intro y hy
  obtain ⟨r, hr⟩ := exists_of_mem_keys hy
  exact mem_keys (h.table hr)

theorem Adds.trans (h : Adds R k k') (h' : Adds R k' k'') : Adds R k k'' where
  table := List.Subset.trans h.table h'.table
  visited := List.Subset.trans h.visited h'.visited
  met y hy := (h'.met y hy).elim (h.met y) .inr
  keys y hy := by
    obtain hy | hy := h'.keys y hy
    · exact (h.keys y hy).imp_right fun ⟨hv, hR⟩ => ⟨h'.visited hv, hR⟩
    · exact .inr hy

theorem Adds.mono (h : Adds R k k') (hR : ∀ y, R y → R' y) : Adds R' k k' where
  table := h.table
  visited := h.visited
  met y hy := (h.met y hy).imp_right (hR y)
  keys y hy := (h.keys y hy).imp_right fun ⟨hv, hy⟩ => ⟨hv, hR y hy⟩

/-- All that was looked into has an image. -/
def Finishes (k k' : Record) : Prop := ∀ y ∈ k'.visited, y ∈ k.visited ∨ y ∈ k'.keys

theorem Finishes.trans (h : Finishes k k') (h' : Finishes k' k'') (ha : Adds R k' k'') :
    Finishes k k'' := by
  intro y hy
  obtain hy | hy := h' y hy
  · exact (h y hy).imp_right fun hk => ha.subset_keys hk
  · exact .inr hy

/-- What was looked into and has no image yet is of a size above `n`. -/
def PendingAbove (n : Nat) (k : Record) : Prop := ∀ y ∈ k.visited, y ∈ k.keys ∨ n < sizeOf y

theorem PendingAbove.finishes {n : Nat} (h : k.PendingAbove n) (hf : Finishes k k')
    (ha : Adds R k k') : k'.PendingAbove n := by
  intro y hy
  obtain hy | hy := hf y hy
  · exact (h y hy).imp_left fun hk => ha.subset_keys hk
  · exact .inl hy

/-- A look into a tree. -/
def enter (k : Record) (x : Tree) : Record := { k with visited := k.visited ++ [x] }

/-- The image of a tree that was looked into. -/
def leave (k : Record) (x : Tree) (r : Reading) : Record := { k with table := k.table ++ [(x, r)] }

@[simp] theorem keys_leave (k : Record) (x : Tree) (r : Reading) :
    (k.leave x r).keys = k.keys ++ [x] := by
  simp [keys, leave]

theorem PendingAbove.not_visited (h : k.PendingAbove (sizeOf x)) (hx : x ∉ k.keys) :
    x ∉ k.visited := by
  intro hmem
  obtain hk | hlt := h x hmem
  · exact hx hk
  · exact absurd hlt (lt_irrefl _)

theorem PendingAbove.enter (h : k.PendingAbove (sizeOf x)) (hy : y ∈ x.operands) :
    (k.enter x).PendingAbove (sizeOf y) := by
  intro z hz
  obtain hz | hz := List.mem_append.1 hz
  · exact (h z hz).imp_right (Tree.sizeOf_operand hy).trans
  · obtain rfl := List.mem_singleton.1 hz
    exact .inr (Tree.sizeOf_operand hy)

theorem adds_enter (k : Record) (x : Tree) : k.Adds x.Reaches (k.enter x) where
  table _ := id
  visited := List.subset_append_left ..
  met y hy := by
    obtain hy | hy := List.mem_append.1 hy
    · exact .inl hy
    · obtain rfl := List.mem_singleton.1 hy
      exact .inr (.refl y)
  keys _ := .inl

/-- What is met below a tree is smaller. -/
theorem Adds.not_mem_keys (h : (k.enter x).Adds (fun y => ∃ z ∈ x.operands, z.Reaches y) k')
    (hx : x ∉ k.keys) : x ∉ k'.keys := by
  intro hmem
  obtain hk | ⟨-, z, hz, hzx⟩ := h.keys x hmem
  · exact hx hk
  · exact absurd (hzx.sizeOf_le.trans_lt (Tree.sizeOf_operand hz)) (lt_irrefl _)

theorem Adds.below (h : (k.enter x).Adds (fun y => ∃ z ∈ x.operands, z.Reaches y) k') :
    k.Adds x.Reaches k' :=
  (adds_enter k x).trans (h.mono fun _ ⟨_, hz, hy⟩ => .operand hz hy)

theorem Adds.leave (h : k.Adds x.Reaches k') (hx : x ∈ k'.visited) :
    k.Adds x.Reaches (k'.leave x r) where
  table := List.Subset.trans h.table (List.subset_append_left ..)
  visited := h.visited
  met := h.met
  keys y hy := by
    rw [keys_leave] at hy
    obtain hy | hy := List.mem_append.1 hy
    · exact h.keys y hy
    · obtain rfl := List.mem_singleton.1 hy
      exact .inr ⟨hx, .refl y⟩

theorem Finishes.leave (h : (k.enter x).Finishes k') : k.Finishes (k'.leave x r) := by
  intro y hy
  rw [keys_leave]
  obtain hy | hy := h y hy
  · exact (List.mem_append.1 hy).imp_right (List.mem_append_right _)
  · exact .inr (List.mem_append_left _ hy)

theorem Closed.leave (h : k.Closed G) (hx : Made G k.table x r) : (k.leave x r).Closed G := by
  have hsub : k.table ⊆ (k.leave x r).table := List.subset_append_left ..
  intro q hq
  obtain hq | hq := List.mem_append.1 hq
  · exact (h q hq).mono hsub
  · obtain rfl := List.mem_singleton.1 hq
    exact hx.mono hsub

/-- A fault of an atom, or one that rebuilding has too. -/
def Fails {β : Type} (G : Outcomes) (k : Record) (x : Tree)
    (run : (Tree → Reading) → Except Fault β) (e : Fault) : Prop :=
  (∃ a, x.Reaches a ∧ a.isAtom = true ∧ G a (.error e)) ∨
    ∀ image, k.Follows image → run image = .error e

theorem Fails.imp {β γ : Type} {run : (Tree → Reading) → Except Fault β}
    {run' : (Tree → Reading) → Except Fault γ} {e : Fault} (h : Fails G k x run e)
    (hrun : ∀ image, k.Follows image → run image = .error e → run' image = .error e) :
    Fails G k x run' e :=
  h.imp_right fun hall image himage => hrun image himage (hall image himage)

end Record
end FormulaStack
