/-!
Requests to stop. The first request sticks: its listeners run then, once each, and a listener that
comes later runs at once and is not kept.
-/
namespace FormulaStack

/-- A notifier whose listeners do what `ρ` says. -/
structure Notifier (ρ : Type) where
  reason : Option String
  nextListener : Nat
  listeners : List (Nat × ρ)
  deriving Inhabited

namespace Notifier

variable {ρ : Type}

def new : Notifier ρ := ⟨none, 0, []⟩

/-- Requests a stop; gives the listeners that have to run now. -/
def request (reason : String) (n : Notifier ρ) : List ρ × Notifier ρ :=
  match n.reason with
  | some _ => ([], n)
  | none => (n.listeners.map (·.2), { n with reason := some reason })

def requested (n : Notifier ρ) : Bool := n.reason.isSome

/-- Adds a listener; gives its number, and the reason if it has to run now. -/
def register (listener : ρ) (n : Notifier ρ) : Nat × Option String × Notifier ρ :=
  let kept :=
    match n.reason with
    | some _ => n.listeners
    | none => n.listeners ++ [(n.nextListener, listener)]
  (n.nextListener, n.reason, { n with nextListener := n.nextListener + 1, listeners := kept })

/-- Removes a listener; tells whether it was there. -/
def unregister (id : Nat) (n : Notifier ρ) : Bool × Notifier ρ :=
  (n.listeners.any (·.1 == id), { n with listeners := n.listeners.filter (·.1 != id) })

end Notifier
end FormulaStack
