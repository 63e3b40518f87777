import FormulaStack.Proofs.Runs

/-!
References that a backend counts. Every reference has an owner: a constant that is kept, a
registration in the queue, or an assertion of an open stack.
-/
namespace FormulaStack

namespace World

variable {w : World FoldingSolver}

end World

namespace Client

variable {c : Client} {i : Nat} {ctx : Context}

/-- A client that asserts a constant, which it requested twice, at two levels. -/
def asserted : Client :=
  start.afterAll [
    .addContext .everything true true { (default : Options) with trackReferences := true } none,
    .constant 0 .boolean "x", .constant 0 .boolean "x", .openStack 0 false,
    .atStack 0 (.assert ⟨⟨⟨0⟩, .boolean, 0, some 0⟩, rfl⟩ none), .atStack 0 (.push 1),
    .atStack 0 (.assert ⟨⟨⟨0⟩, .boolean, 0, some 1⟩, rfl⟩ none)]

end Client
end FormulaStack
