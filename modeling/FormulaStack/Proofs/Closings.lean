import FormulaStack.Proofs.Sparing

/-!
Closed stacks. Nobody tells them anything, they refuse whatever they are asked, and nothing that
happens later reads or changes their sessions.
-/
namespace FormulaStack

namespace World

variable {σ α : Type} [Session σ] {w w' : World σ} {id j ctx : Nat}

end World

namespace Event

variable {σ : Type} [Session σ] {id : Nat}

end Event

/-- What happens, and the parts of requests: listeners may act while they are told of a symbol. -/
inductive Moment (σ : Type) where
  | event (e : Event σ)
  | requestVariable (ctx : Nat) (type : FormulaType) (name : String)
  | requestFunction (ctx : Nat) (name : String) (arguments : List FormulaType)
    (result : FormulaType)
  | tell (symbol : Symbol) (o : Observer)
  | note (watch : Nat) (symbol : Symbol)

namespace Moment

variable {σ : Type}

/-- Clients listen for themselves, in requests also. -/
def Discreet : Moment σ → Prop
  | event e => e.Discreet
  | _ => True

variable [Session σ] {w : World σ} {id : Nat}

def after (w : World σ) : Moment σ → World σ
  | event e => e.after w
  | requestVariable ctx type name =>
    ((World.inEnvironment ctx (Environment.requestVariable type name)).exec w).2
  | requestFunction ctx name arguments result =>
    ((World.inEnvironment ctx (Environment.requestFunction name arguments result)).exec w).2
  | tell symbol o => ((World.tell symbol o).exec w).2
  | note watch symbol =>
    { w with
      watches := w.watches.modify watch (Option.map fun watch =>
        { watch with received := watch.received ++ [symbol] }) }

theorem tethers (x : Moment σ) (hx : x.Discreet) (hw : w.Housed) : w.Tethers (x.after w) := by
  cases x with
  | event e => exact e.tethers hx hw
  | requestVariable ctx | requestFunction ctx => exact World.inEnvironment_tethers _ ctx w
  | tell symbol o => exact World.tell_tethers symbol o w
  | note watch symbol => exact World.tethers_of_contexts rfl rfl fun _ c hc => ⟨c, hc, rfl⟩

theorem reaches (x : Moment σ) (hw : w.Housed) : w.Reaches .free (x.after w) := by
  have hrequest : ∀ {α : Type} {request : Effect Environment (α × Option Symbol)} (ctx : Nat),
      (∀ env, Environment.Requested env (request.exec env)) →
        w.Reaches .free ((World.inEnvironment ctx request).exec w).2 := by
    intro α request ctx hrequest
    refine World.inEnvironment_within (fun w c hc => ?_) w
    obtain ⟨hsame, -⟩ | ⟨_, _, _, -, hd⟩ := hrequest c.env
    · rw [hsame, World.setEnvironment_self hc]
      exact Std.Refl.refl w
    · exact .single (.requested trivial hc hd)
  cases x with
  | event e => exact e.reaches e.allowed_free hw
  | requestVariable ctx type name =>
    exact hrequest ctx (Environment.requestVariable_requested type name)
  | requestFunction ctx name arguments result =>
    exact hrequest ctx (Environment.requestFunction_requested name arguments result)
  | tell symbol o =>
    exact World.tell_reaches symbol (fun _ _ => trivial) fun _ _ => trivial
  | note watch symbol =>
    exact .single (.watched trivial rfl rfl (fun _ _ => .inr trivial) fun i c hc =>
      ⟨c, c.env.observers, hc, rfl, fun _ => rfl⟩)

end Moment

namespace World

variable {σ : Type} [Session σ] {w : World σ} {id : Nat} {s : AssertionStack σ}

end World

end FormulaStack
