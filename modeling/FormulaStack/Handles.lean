import FormulaStack.Term

/-!
References that wrappers hold on terms. A backend may count references; a wrapper then registers
its term when it is made, and the count goes down again once every copy of the wrapper is gone and
the queue of registrations is drained.
-/
namespace FormulaStack

/-- A wrapped term, and how many copies of its wrapper there are. -/
structure Registration where
  ticket : Nat
  term : Term
  holders : Nat
  deriving DecidableEq

structure Handles where
  /-- The backend keeps counts. -/
  counting : Bool
  /-- The backend tells its clients that it keeps counts. -/
  announced : Bool
  /-- Wrappers register. -/
  tracking : Bool
  counts : List (Term × Nat)
  queue : List Registration
  nextTicket : Nat
  /-- How often a reference was given back that nobody had taken. -/
  underflows : Nat
  deriving Inhabited

namespace Handles

def count (h : Handles) (t : Term) : Nat := (h.counts.lookup t).getD 0

/-- One reference more. -/
def increment (h : Handles) (t : Term) : Handles :=
  if h.counting then
    { h with counts := (t, h.count t + 1) :: h.counts.filter (·.1 ≠ t) }
  else h

/-- One reference less; a term without references has none to lose. -/
def decrement (h : Handles) (t : Term) : Handles :=
  if h.counting then
    match h.count t with
    | 0 => { h with underflows := h.underflows + 1 }
    | 1 => { h with counts := h.counts.filter (·.1 ≠ t) }
    | n + 1 => { h with counts := (t, n) :: h.counts.filter (·.1 ≠ t) }
  else h

/-- A reference kept outside of wrappers. -/
def hold (h : Handles) (t : Term) : Handles := if h.tracking then h.increment t else h

/-- Gives back a reference taken with `hold`. -/
def release (h : Handles) (t : Term) : Handles := if h.tracking then h.decrement t else h

/-- Gives back the references of all wrappers that are gone; the number of these. -/
def drain (h : Handles) : Nat × Handles :=
  let gone := h.queue.filter (·.holders == 0)
  let kept := { h with queue := h.queue.filter (·.holders != 0) }
  (gone.length, gone.foldl (fun h r => h.decrement r.term) kept)

/-- A new wrapper of a term. -/
def register (h : Handles) (t : Term) : Option Nat × Handles :=
  if h.tracking then
    let h := h.drain.2.increment t
    (some h.nextTicket,
      { h with queue := h.queue ++ [⟨h.nextTicket, t, 1⟩], nextTicket := h.nextTicket + 1 })
  else (none, h)

/-- Changes the number of copies of one wrapper. -/
def adjust (h : Handles) (f : Nat → Nat) : Option Nat → Handles
  | none => h
  | some ticket =>
    { h with
      queue := h.queue.map fun r => if r.ticket = ticket then { r with holders := f r.holders } else r }

/-- One copy of a wrapper more. -/
def retain (h : Handles) (ticket : Option Nat) : Handles := h.adjust (· + 1) ticket

/-- One copy of a wrapper less. -/
def discard (h : Handles) (ticket : Option Nat) : Handles := h.adjust (· - 1) ticket

/-- Gives back the references of all wrappers, also of those still in use, and those of `kept`. -/
def retire (h : Handles) (kept : List Term) : Handles :=
  if h.tracking then
    (h.queue.map (·.term) ++ kept).foldl decrement { h with queue := [] }
  else h

end Handles
end FormulaStack
