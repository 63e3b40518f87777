import FormulaStack.Fault

/-!
Effects: work on a state that may fail, and whose changes up to the failure stay.
-/
namespace FormulaStack

abbrev Effect (S : Type) := ExceptT Fault (StateM S)

namespace Effect

variable {S T α : Type}

/-- The outcome of an effect and the state it leaves. -/
def exec (e : Effect S α) (s : S) : Except Fault α × S := e.run s

/-- An effect from what it does to each state. -/
def of (f : S → Except Fault α × S) : Effect S α := ExceptT.mk f

/-- Reads the state. -/
def ask (f : S → Except Fault α) : Effect S α := of fun s => (f s, s)

/-- Reads the state without failing. -/
def look (f : S → α) : Effect S α := of fun s => (.ok (f s), s)

def update (f : S → S) : Effect S Unit := of fun s => (.ok (), f s)

/-- Work on a part of the state. -/
def on (get : S → T) (set : T → S → S) (e : Effect T α) : Effect S α :=
  of fun s =>
    let (r, t) := e.exec (get s)
    (r, set t s)

/-- Whatever the outcome, `cleanup` follows. -/
def andThen (e : Effect S α) (cleanup : S → S) : Effect S α :=
  of fun s =>
    let (r, s) := e.exec s
    (r, cleanup s)

/-- `cleanup` follows a failure. -/
def undoing (e : Effect S α) (cleanup : S → S) : Effect S α :=
  of fun s =>
    match e.exec s with
    | (.error f, s) => (.error f, cleanup s)
    | (.ok a, s) => (.ok a, s)

/-- The outcome itself, as a value. -/
def attempt (e : Effect S α) : Effect S (Except Fault α) :=
  of fun s =>
    let (r, s) := e.exec s
    (.ok r, s)

end Effect
end FormulaStack
