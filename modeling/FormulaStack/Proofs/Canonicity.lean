import FormulaStack.Proofs.Constructors
import FormulaStack.Proofs.Trees

/-!
Stores that came about by requests. Whatever was asked for, equal terms are the same term, arguments
are older than what they are arguments of, and later requests leave all terms alone.
-/
namespace FormulaStack.Store

/-- What can be asked of a store. -/
inductive Request where
  | construct (c : Constructor)
  | declare (f : Signature)

/-- The store after a request; one that is refused changes nothing. -/
def serve (s : Store) : Request → Store
  | .construct c =>
    match c.build s with
    | .ok (_, t) => t
    | .error _ => s
  | .declare f => (s.internDecl f).2

def serveAll (s : Store) (requests : List Request) : Store := requests.foldl serve s

theorem grows_serve (s : Store) (r : Request) : s.Grows (s.serve r) := by
  cases r with
  | construct c =>
    simp only [serve]
    split
    · next t h => exact c.grows s _ t h
    · exact .refl s
  | declare f => exact s.grows_internDecl f

theorem grows_serveAll (s : Store) (requests : List Request) : s.Grows (s.serveAll requests) := by
  induction requests generalizing s with
  | nil => exact .refl s
  | cons r rs ih => exact (s.grows_serve r).trans (ih (s.serve r))

theorem wellFormed_serveAll (requests : List Request) : (empty.serveAll requests).WellFormed :=
  (grows_serveAll empty requests).wellFormed wellFormed_empty

/-- Terms, and declarations, are equal exactly if they stand for the same. -/
theorem handles_canonical (requests later : List Request) :
    let s := empty.serveAll requests
    let u := s.serveAll later
    (∀ t n, s.node? t = some n → ∃ xs, s.Unfolds n.args xs ∧
      s.tree? t = some (.node (s.label n.op) n.sort xs)) ∧
    (∀ t v, (s.node? t).isSome → (s.node? v).isSome → (t = v ↔ s.tree? t = s.tree? v)) ∧
    (∀ d e, (s.decl? d).isSome → (s.decl? e).isSome → (d = e ↔ s.decl? d = s.decl? e)) ∧
    (∀ t n, s.node? t = some n → ∀ a ∈ n.args, a.index < t.index ∧ (s.node? a).isSome) ∧
    (∀ t n, s.node? t = some n → u.node? t = some n ∧ u.tree? t = s.tree? t) ∧
    (∀ d f, s.decl? d = some f → u.decl? d = some f) := by
  intro s u
  have hs : s.WellFormed := wellFormed_serveAll requests
  have hsu : s.Grows u := s.grows_serveAll later
  have hu : u.WellFormed := hsu.wellFormed hs
  refine ⟨fun t n ht => hs.tree? ht, ?_, ?_, ?_, ?_, hsu.extension.decl?⟩
  · intro t v ht hv
    obtain ⟨n, ht⟩ := Option.isSome_iff_exists.1 ht
    obtain ⟨xs, -, hx⟩ := hs.tree? ht
    constructor
    · exact fun h => congrArg s.tree? h
    · intro h
      exact hs.tree?_injective hx (h.symm.trans hx)
  · intro d e hd _
    obtain ⟨f, hf⟩ := Option.isSome_iff_exists.1 hd
    constructor
    · exact fun h => congrArg s.decl? h
    · intro h
      exact hs.declaredOnce hf (h.symm.trans hf)
  · intro t n ht a ha
    obtain ⟨ks, hks, -⟩ := hs.fits ht
    obtain ⟨m, hm⟩ := hks.node? a ha
    exact ⟨hs.older ht a ha, by simp [hm]⟩
  · intro t n ht
    obtain ⟨xs, -, hx⟩ := hs.tree? ht
    exact ⟨hsu.extension.node? t n ht, (hs.tree?_extends hu hsu.extension hx).trans hx.symm⟩

end FormulaStack.Store
