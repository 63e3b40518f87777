import FormulaStack.AssertionStack
import FormulaStack.Proofs.Frames

/-!
Histories of stacks: the depth after each step, and what was asserted at it. An assertion survives
if the stack has not gone below its depth since. The levels of a stack have exactly the survivors.
-/
namespace FormulaStack

/-- A step of a stack: the depth it leads to, and the term that it asserts there. -/
structure Mark where
  depth : Nat
  asserted : Option Term
  deriving DecidableEq

abbrev History := List Mark

namespace History

/-- The depth after the last step. -/
def depth (h : History) : Nat := (h.getLast?.map (·.depth)).getD 0

/-- The assertions at depths that the stack has not gone below since, with their depths. -/
def alive : History → List (Nat × Term)
  | [] => []
  | m :: later =>
    if later.all (m.depth ≤ ·.depth) then m.asserted.toList.map (m.depth, ·) ++ alive later
    else alive later

/-- The surviving assertions in the order in which they were made. -/
def survivors (h : History) : List Term := h.alive.map (·.2)

@[simp] theorem depth_append (h : History) (m : Mark) : depth (h ++ [m]) = m.depth := by
  simp [depth]

/-- A step ends the assertions above the depth it leads to. -/
theorem alive_append (h : History) (m : Mark) :
    alive (h ++ [m]) =
      (alive h).filter (·.1 ≤ m.depth) ++ m.asserted.toList.map (m.depth, ·) := by
  induction h with
  | nil => simp [alive]
  | cons k h ih =>
    rw [List.cons_append, alive, alive, ih, List.all_append]
    by_cases hall : h.all (k.depth ≤ ·.depth)
    · by_cases hk : k.depth ≤ m.depth
      · have hkeep : (k.asserted.toList.map (k.depth, ·)).filter (·.1 ≤ m.depth) =
            k.asserted.toList.map (k.depth, ·) := by
          refine List.filter_eq_self.2 fun x hx => ?_
          obtain ⟨t, -, rfl⟩ := List.mem_map.1 hx
          exact decide_eq_true hk
        simp only [hall, List.all_cons, hk, List.all_nil, decide_true, Bool.and_true, if_true,
          List.filter_append, hkeep, List.append_assoc]
      · have hdrop : (k.asserted.toList.map (k.depth, ·)).filter (·.1 ≤ m.depth) = [] := by
          refine List.filter_eq_nil_iff.2 fun x hx => ?_
          obtain ⟨t, -, rfl⟩ := List.mem_map.1 hx
          simpa using hk
        simp only [hall, List.all_cons, hk, List.all_nil, decide_false, Bool.false_and,
          Bool.and_false, Bool.false_eq_true, if_false, if_true, List.filter_append, hdrop,
          List.nil_append]
    · simp only [hall, Bool.false_and, Bool.false_eq_true, if_false]

end History

namespace Tower

/-- The asserted terms with the depths of their levels. -/
def indexed (levels : Tower Level) : List (Nat × Term) :=
  levels.toList.zipIdx.flatMap fun x => x.1.assertions.map fun a => (x.2, a.2)

/-- The asserted terms. -/
def terms (levels : Tower Level) : List Term :=
  levels.toList.flatMap fun l => l.assertions.map (·.2)

theorem map_snd_indexed (levels : Tower Level) : levels.indexed.map (·.2) = levels.terms := by
  unfold indexed terms
  generalize levels.toList = ls
  generalize 0 = k
  induction ls generalizing k with
  | nil => rfl
  | cons l ls ih =>
    rw [List.zipIdx_cons, List.flatMap_cons, List.flatMap_cons, List.map_append, ih, List.map_map]
    rfl

theorem indexed_eq (levels : Tower Level) :
    levels.indexed =
      (levels.toList.dropLast.zipIdx.flatMap fun x => x.1.assertions.map fun a => (x.2, a.2)) ++
        levels.top.assertions.map fun a => (levels.depth, a.2) := by
  unfold indexed
  rw [levels.toList_eq, List.zipIdx_append, List.flatMap_append, List.dropLast_concat,
    levels.length_dropLast]
  simp

theorem indexed_modifyTop (levels : Tower Level) (f : Level → Level) :
    (levels.modifyTop f).indexed =
      (levels.toList.dropLast.zipIdx.flatMap fun x => x.1.assertions.map fun a => (x.2, a.2)) ++
        (f levels.top).assertions.map fun a => (levels.depth, a.2) := by
  unfold indexed
  rw [toList_modifyTop, List.zipIdx_append, List.flatMap_append, levels.length_dropLast]
  simp

theorem le_depth_of_mem_indexed {levels : Tower Level} {x : Nat × Term} (h : x ∈ levels.indexed) :
    x.1 ≤ levels.depth := by
  obtain ⟨y, hy, hx⟩ := List.mem_flatMap.1 h
  obtain ⟨a, -, rfl⟩ := List.mem_map.1 hx
  have hlt := (List.mem_zipIdx hy).2.1
  rw [length_toList] at hlt
  omega

@[simp] theorem indexed_push (levels : Tower Level) :
    (levels.push default).indexed = levels.indexed := by
  unfold indexed
  rw [toList_push, List.zipIdx_append, List.flatMap_append]
  exact List.append_nil _

@[simp] theorem indexed_modifyUpper (levels : Tower Level) (symbols : Level → List Symbol) :
    (levels.modifyUpper fun l => { l with symbols := symbols l }).indexed = levels.indexed := by
  obtain ⟨base, _ | ⟨l, rest⟩⟩ := levels
  · rfl
  · simp [indexed, modifyUpper, toList, List.zipIdx_append]

theorem indexed_pop {levels below : Tower Level} {level : Level}
    (h : levels.pop? = some (level, below)) :
    levels.indexed = below.indexed ++ level.assertions.map fun a => (levels.depth, a.2) := by
  obtain ⟨hlist, hdepth⟩ := pop?_eq_some h
  unfold indexed
  rw [hlist, List.zipIdx_append, List.flatMap_append, length_toList, hdepth]
  simp

@[simp] theorem terms_push (levels : Tower Level) : (levels.push default).terms = levels.terms := by
  rw [← map_snd_indexed, indexed_push, map_snd_indexed]

@[simp] theorem terms_modifyUpper (levels : Tower Level) (symbols : Level → List Symbol) :
    (levels.modifyUpper fun l => { l with symbols := symbols l }).terms = levels.terms := by
  rw [← map_snd_indexed, indexed_modifyUpper, map_snd_indexed]

theorem terms_pop {levels below : Tower Level} {level : Level}
    (h : levels.pop? = some (level, below)) :
    levels.terms = below.terms ++ level.assertions.map (·.2) := by
  rw [← map_snd_indexed, ← map_snd_indexed, indexed_pop h, List.map_append, List.map_map]
  rfl

theorem terms_assert (levels : Tower Level) (x : Term) (p : Option Nat) :
    (levels.modifyTop fun l => { l with assertions := l.assertions ++ [(p, x)] }).terms =
      levels.terms ++ [x] := by
  rw [← map_snd_indexed, ← map_snd_indexed, indexed_modifyTop, levels.indexed_eq]
  simp

end Tower

/-- The levels of a stack are those that a history leads to. -/
structure History.Leads (h : History) (levels : Tower Level) : Prop where
  depth : h.depth = levels.depth
  alive : h.alive = levels.indexed

namespace History.Leads

variable {h : History} {levels : Tower Level}

theorem new : Leads [] default := ⟨rfl, rfl⟩

/-- The levels after a step that asserts nothing, given those below the depth it leads to. -/
theorem move {levels' : Tower Level} (hl : h.Leads levels)
    (hi : levels'.indexed = levels.indexed.filter (·.1 ≤ levels'.depth)) :
    Leads (h ++ [⟨levels'.depth, none⟩]) levels' := by
  constructor
  · rw [depth_append]
  · rw [alive_append, hl.alive, hi]
    simp

theorem assert (hl : h.Leads levels) (p : Option Nat) (t : Term) :
    Leads (h ++ [⟨levels.depth, some t⟩])
      (levels.modifyTop fun l => { l with assertions := l.assertions ++ [(p, t)] }) := by
  constructor
  · rw [depth_append, Tower.depth_modifyTop]
  · have hkeep : levels.indexed.filter (·.1 ≤ levels.depth) = levels.indexed :=
      List.filter_eq_self.2 fun x hx => decide_eq_true (Tower.le_depth_of_mem_indexed hx)
    rw [alive_append, hl.alive, hkeep, Tower.indexed_modifyTop, levels.indexed_eq]
    simp

theorem note (hl : h.Leads levels) (symbols : Level → List Symbol) :
    h.Leads (levels.modifyUpper fun l => { l with symbols := symbols l }) := by
  constructor
  · rw [Tower.depth_modifyUpper, hl.depth]
  · rw [Tower.indexed_modifyUpper, hl.alive]

end History.Leads
end FormulaStack
