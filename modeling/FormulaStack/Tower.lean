/-!
Stacks that cannot become empty.
-/
namespace FormulaStack

/-- A base and what is stacked on it, the top first. -/
structure Tower (α : Type) where
  base : α
  upper : List α
  deriving DecidableEq

namespace Tower

variable {α β : Type}

instance [Inhabited α] : Inhabited (Tower α) := ⟨⟨default, []⟩⟩

/-- How much is stacked on the base. -/
def depth (t : Tower α) : Nat := t.upper.length

def top (t : Tower α) : α := t.upper.headD t.base

/-- From the base to the top. -/
def toList (t : Tower α) : List α := t.base :: t.upper.reverse

def push (t : Tower α) (a : α) : Tower α := { t with upper := a :: t.upper }

/-- The top and what it stands on; the base has nothing below it. -/
def pop? (t : Tower α) : Option (α × Tower α) :=
  match t.upper with
  | [] => none
  | a :: rest => some (a, { t with upper := rest })

def modifyTop (f : α → α) (t : Tower α) : Tower α :=
  match t.upper with
  | [] => { t with base := f t.base }
  | a :: rest => { t with upper := f a :: rest }

/-- Changes the top, unless the base is the top. -/
def modifyUpper (f : α → α) (t : Tower α) : Tower α :=
  match t.upper with
  | [] => t
  | a :: rest => { t with upper := f a :: rest }

@[simp] theorem depth_push (t : Tower α) (a : α) : (t.push a).depth = t.depth + 1 := rfl

@[simp] theorem pop?_push (t : Tower α) (a : α) : (t.push a).pop? = some (a, t) := rfl

@[simp] theorem depth_modifyTop (f : α → α) (t : Tower α) : (t.modifyTop f).depth = t.depth := by
  unfold modifyTop depth
  split <;> simp_all

@[simp] theorem depth_modifyUpper (f : α → α) (t : Tower α) :
    (t.modifyUpper f).depth = t.depth := by
  unfold modifyUpper depth
  split <;> simp_all

@[simp] theorem toList_push (t : Tower α) (a : α) : (t.push a).toList = t.toList ++ [a] := by
  simp [push, toList]

theorem length_toList (t : Tower α) : t.toList.length = t.depth + 1 := by
  simp [toList, depth]

theorem pop?_eq_none_iff {t : Tower α} : t.pop? = none ↔ t.depth = 0 := by
  unfold pop? depth
  split <;> simp_all

theorem pop?_eq_some {t u : Tower α} {a : α} (h : t.pop? = some (a, u)) :
    t.toList = u.toList ++ [a] ∧ t.depth = u.depth + 1 := by
  unfold pop? at h
  split at h
  · simp at h
  · next b rest hb =>
    simp only [Option.some.injEq, Prod.mk.injEq] at h
    obtain ⟨rfl, rfl⟩ := h
    simp [toList, depth, hb]

end Tower
end FormulaStack
