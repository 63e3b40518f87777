/-!
Tables of things by name. A name that is given again stands for the later thing.
-/
namespace FormulaStack

structure Names (α : Type) where
  entries : List (String × α)

namespace Names

variable {α : Type}

def empty : Names α := ⟨[]⟩

def find? (t : Names α) (name : String) : Option α := t.entries.lookup name

def erase (t : Names α) (name : String) : Names α := ⟨t.entries.filter (·.1 != name)⟩

def put (t : Names α) (name : String) (a : α) : Names α := ⟨(name, a) :: (t.erase name).entries⟩

@[simp] theorem find?_empty (name : String) : (empty : Names α).find? name = none := rfl

@[simp] theorem find?_put_self (t : Names α) (name : String) (a : α) :
    (t.put name a).find? name = some a := by
  simp [find?, put]

theorem find?_erase (t : Names α) (name other : String) :
    (t.erase name).find? other = if other = name then none else t.find? other := by
  obtain ⟨entries⟩ := t
  simp only [find?, erase]
  induction entries with
  | nil => simp
  | cons e es ih =>
    obtain ⟨k, a⟩ := e
    by_cases hk : k = name
    · subst hk
      by_cases ho : other = k
      · simpa [ho] using ih
      · simpa [ho, List.lookup_cons, beq_eq_false_iff_ne.2 ho] using ih
    · by_cases ho : other = k
      · subst ho
        simp [hk]
      · simp [hk, List.lookup_cons, beq_eq_false_iff_ne.2 ho, ih]

theorem find?_put_of_ne (t : Names α) {name other : String} (a : α) (h : other ≠ name) :
    (t.put name a).find? other = t.find? other := by
  have := t.find?_erase name other
  simp only [if_neg h] at this
  simpa [find?, put, List.lookup_cons, beq_eq_false_iff_ne.2 h] using this

end Names
end FormulaStack
