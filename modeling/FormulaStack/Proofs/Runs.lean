import FormulaStack.Proofs.Operations
import Mathlib.Logic.Relation

/-!
Runs of clients. A client has a world, the wrappers that it holds, and the history of each stack. In
every state that it can reach from nothing, the invariant holds.
-/
namespace FormulaStack

/-- What a client can do, beside handing wrappers around. -/
inductive Operation where
  | addContext (theories : Theories) (counting announced : Bool) (options : Options)
    (notifierOf : Option Nat)
  | build (ctx : Nat) (constructor : Constructor)
  | wrap (ctx : Nat) (type : FormulaType) (t : Term)
  | wrapBool (ctx : Nat) (t : Term)
  | cleanUp (ctx : Nat)
  | constant (ctx : Nat) (type : FormulaType) (name : String)
  | function (ctx : Nat) (name : String) (result : FormulaType) (arguments : List FormulaType)
  | openStack (ctx : Nat) (interpolating : Bool)
  | newStack (ctx : Nat) (interpolating : Bool)
  | atStack (id : Nat) (operation : StackOperation)
  | dropStack (id : Nat)
  | requestStop (ctx : Nat) (reason : String)
  | listen (ctx : Nat) (reaction : Reaction)
  | unlisten (ctx id : Nat)

namespace Operation

/-- What an operation does; it gives the wrappers that the client obtains. -/
def perform : Operation → Effect (World FoldingSolver) (List Formula)
  | addContext theories counting announced options notifierOf => do
    .update fun w => w.addContext theories counting announced options notifierOf
    return []
  | build ctx constructor => do
    let _ ← World.inEnvironment ctx (Environment.build constructor.build)
    return []
  | wrap ctx type t => return [← World.inEnvironment ctx (Environment.wrap type t)]
  | wrapBool ctx t => return [(← World.inEnvironment ctx (Environment.wrapBool t)).formula]
  | cleanUp ctx => do
    let _ ← World.inEnvironment ctx Environment.cleanUp
    return []
  | constant ctx type name => return [← World.constant ctx type name]
  | function ctx name result arguments => do
    let _ ← World.function ctx name result arguments
    return []
  | openStack ctx interpolating => do
    let _ ← World.openStack ctx FoldingSolver.new interpolating
    return []
  | newStack ctx interpolating => do
    let _ ← World.newStack ctx FoldingSolver.new interpolating
    return []
  | atStack id operation => World.atStack id operation.perform
  | dropStack id => do
    .update fun w => w.dropStack id
    return []
  | requestStop ctx reason => do
    .update fun w => w.requestStop ctx reason
    return []
  | listen ctx reaction => do
    .update fun w => (w.listen ctx reaction).2
    return []
  | unlisten ctx id => do
    .update fun w => (w.unlisten ctx id).2
    return []

/-- The histories of stacks after an operation that succeeded in a world. -/
def record (w : World FoldingSolver) (history : Nat → History) : Operation → Nat → History
  | openStack .. | newStack .. => Function.update history w.stackTable.size []
  | atStack id operation =>
    Function.update history id (history id ++ operation.marks (history id).depth)
  | _ => history

end Operation

structure Client where
  world : World FoldingSolver
  /-- The wrappers in use. -/
  held : Multiset Formula
  /-- What happened at each stack. -/
  history : Nat → History

namespace Client

def start : Client := ⟨.empty, 0, fun _ => []⟩

def Valid (c : Client) : Prop := c.world.Valid c.held c.history

/-- A client after an operation. -/
def after (c : Client) (op : Operation) : Client :=
  let outcome := op.perform.exec c.world
  { world := outcome.2
    held := obtained outcome.1 + c.held
    history :=
      match outcome.1 with
      | .ok _ => op.record c.world c.history
      | .error _ => c.history }

theorem valid_start : start.Valid := by
  have hstack : ∀ id s, start.world.stack? id ≠ some s := by
    intro id s hs
    rw [World.stack?_eq_some] at hs
    simp [start, World.empty] at hs
  refine ⟨⟨fun f hf => absurd hf (Multiset.notMem_zero f), fun i c hc => ?_, fun id s hs => ?_⟩,
    fun id s hs => ?_⟩
  · simp [start, World.empty] at hc
  · exact absurd hs (hstack id s)
  · exact absurd hs (hstack id s)

variable {c d : Client} {op : Operation}

/-- An operation that is no step of a stack. -/
theorem after_valid_of (hrecord : op.record c.world c.history = c.history)
    (h : (op.perform.exec c.world).2.Valid (obtained (op.perform.exec c.world).1 + c.held)
        c.history ∧
      (op.perform.exec c.world).2.Extends c.world) :
    (c.after op).Valid ∧ (c.after op).world.Extends c.world := by
  refine ⟨?_, h.2⟩
  have hhistory : (c.after op).history = c.history := by
    unfold after
    dsimp only
    rw [hrecord]
    cases (op.perform.exec c.world).1 <;> rfl
  unfold Valid
  rw [hhistory]
  exact h.1

theorem obtained_forget {α : Type} (r : Except Fault α) :
    obtained (r.map fun _ => []) = 0 := by
  cases r <;> rfl

theorem obtained_single {α : Type} (r : Except Fault α) (f : α → Formula) :
    obtained (r.map fun a => [f a]) = World.gained (fun a => {f a}) r := by
  cases r <;> rfl

/-- An operation on an environment alone that brings no wrapper. -/
theorem environment_valid {α : Type} {e : Effect Environment α} {ctx : Nat}
    (h : c.Valid) (he : ∀ env₀ recorded, Effect.Owns (Environment.At env₀ recorded) 0 e fun _ => 0)
    (hop : op.perform = do
      let _ ← World.inEnvironment ctx e
      return [])
    (hrecord : op.record c.world c.history = c.history) :
    (c.after op).Valid ∧ (c.after op).world.Extends c.world := by
  obtain ⟨hv, hk⟩ := World.inEnvironment_valid he h ctx
  refine after_valid_of hrecord ?_
  rw [hop, Effect.exec_bind_pure, obtained_forget]
  refine ⟨?_, hk.extends⟩
  cases hx : ((World.inEnvironment ctx e).exec c.world).1 <;> rw [hx] at hv <;> exact hv

/-- An operation on an environment alone that brings a wrapper. -/
theorem wrapper_valid {α : Type} {e : Effect Environment α} {ctx : Nat} {f : α → Formula}
    (h : c.Valid)
    (he : ∀ env₀ recorded, Effect.Owns (Environment.At env₀ recorded) 0 e fun a => {f a})
    (hop : op.perform = do return [f (← World.inEnvironment ctx e)])
    (hrecord : op.record c.world c.history = c.history) :
    (c.after op).Valid ∧ (c.after op).world.Extends c.world := by
  obtain ⟨hv, hk⟩ := World.inEnvironment_valid he h ctx
  refine after_valid_of hrecord ?_
  rw [hop, Effect.exec_bind_pure, obtained_single]
  exact ⟨hv, hk.extends⟩

/-- An operation on the world that cannot fail. -/
theorem update_valid {f : World FoldingSolver → World FoldingSolver}
    (h : (f c.world).Valid c.held c.history ∧ (f c.world).Extends c.world)
    (hop : op.perform = do
      .update f
      return [])
    (hrecord : op.record c.world c.history = c.history) :
    (c.after op).Valid ∧ (c.after op).world.Extends c.world := by
  refine after_valid_of hrecord ?_
  rw [hop]
  change (f c.world).Valid (0 + c.held) c.history ∧ _
  rw [zero_add]
  exact h

/-- An operation that opens a stack. -/
theorem opens_valid {e : Effect (World FoldingSolver) Nat}
    (h : c.Valid) (he : c.world.Opens c.held c.history (e.exec c.world))
    (hop : op.perform = do
      let _ ← e
      return [])
    (hrecord : op.record c.world c.history = Function.update c.history c.world.stackTable.size []) :
    (c.after op).Valid ∧ (c.after op).world.Extends c.world := by
  have hx : op.perform.exec c.world = ((e.exec c.world).1.map fun _ => [], (e.exec c.world).2) := by
    rw [hop, Effect.exec_bind_pure]
  unfold Valid after
  rw [hx]
  obtain ⟨x, he⟩ | ⟨w, he, hv, hw⟩ := he
  · rw [he]
    change c.world.Valid (0 + c.held) c.history ∧ _
    rw [zero_add]
    exact ⟨h, .refl _⟩
  · rw [he, hrecord]
    change w.Valid (0 + c.held) _ ∧ _
    rw [zero_add]
    exact ⟨hv, hw⟩

/-- Every operation keeps the invariant, whatever its outcome. -/
theorem after_valid (op : Operation) (h : c.Valid) :
    (c.after op).Valid ∧ (c.after op).world.Extends c.world := by
  cases op with
  | addContext theories counting announced options notifierOf =>
    exact update_valid (World.addContext_valid h theories counting announced options notifierOf) rfl
      rfl
  | build ctx constructor =>
    exact environment_valid h (fun _ _ => Environment.build_owns constructor.grows) rfl rfl
  | wrap ctx type t => exact wrapper_valid h (fun _ _ => Environment.wrap_owns type t) rfl rfl
  | wrapBool ctx t => exact wrapper_valid h (fun _ _ => Environment.wrapBool_owns t) rfl rfl
  | cleanUp ctx => exact environment_valid h (fun _ _ => Environment.cleanUp_owns) rfl rfl
  | constant ctx type name =>
    refine after_valid_of rfl ?_
    unfold Operation.perform
    rw [Effect.exec_bind_pure, obtained_single]
    exact World.constant_valid h ctx type name
  | function ctx name result arguments =>
    refine after_valid_of rfl ?_
    unfold Operation.perform
    rw [Effect.exec_bind_pure, obtained_forget, zero_add]
    exact World.function_valid h ctx name result arguments
  | openStack ctx interpolating =>
    exact opens_valid h (World.openStack_opens h ctx interpolating) rfl rfl
  | newStack ctx interpolating =>
    exact opens_valid h (World.newStack_opens h ctx interpolating) rfl rfl
  | atStack id operation =>
    obtain ⟨hv, hk⟩ := World.perform_valid operation id h
    exact ⟨hv, hk.extends⟩
  | dropStack id => exact update_valid (World.dropStack_valid h id) rfl rfl
  | requestStop ctx reason =>
    have ha := World.requestStop_alike ctx reason c.world
    exact update_valid ⟨h.alike ha, ha.keeps.extends⟩ rfl rfl
  | listen ctx reaction =>
    have ha := World.listen_alike ctx reaction c.world
    exact update_valid ⟨h.alike ha, ha.keeps.extends⟩ rfl rfl
  | unlisten ctx id =>
    have ha := World.unlisten_alike ctx id c.world
    exact update_valid (f := fun w => (w.unlisten ctx id).2) ⟨h.alike ha, ha.keeps.extends⟩ rfl rfl

/-- The client after the search for the next model in an enumeration. -/
def search (c : Client) (id : Nat) (important : List (BoolFormula × Term)) : Client :=
  let outcome := (World.atStack id (Site.nextModel? important)).exec c.world
  { c with
    world := outcome.2
    held := World.found outcome.1 + c.held }

/-- The client after an enumeration has blocked a model. -/
def block (c : Client) (id : Nat) (negations : List Term) : Client :=
  let outcome := (World.block id negations).exec c.world
  { c with
    world := outcome.2
    history :=
      match outcome.1 with
      | .ok _ => Function.update c.history id
        (c.history id ++ [⟨(c.history id).depth, c.world.blockingTerm id negations⟩])
      | .error _ => c.history }

/-- One step of a client: an operation, a wrapper that is cloned or dropped, or half a round of an
enumeration of models. Between the halves of a round the callback has its way, but for an end of the
stack that is enumerated. -/
inductive Step : Client → Client → Prop
  | operation (c : Client) (op : Operation) : Step c (c.after op)
  | clone (c : Client) {f : Formula} (hf : f ∈ c.held) :
    Step c { c with world := c.world.retain f, held := f ::ₘ c.held }
  | drop (w : World FoldingSolver) (f : Formula) (held : Multiset Formula)
    (history : Nat → History) : Step ⟨w, f ::ₘ held, history⟩ ⟨w.discard f, held, history⟩
  | search (c : Client) (id : Nat) {important : List (BoolFormula × Term)}
    (h : ∀ l ∈ important, l.1.formula ∈ c.held ∧
      ∀ s, c.world.stack? id = some s → l.1.formula.owner = s.home) :
    Step c (c.search id important)
  | block (c : Client) {id : Nat} (negations : List Term) (h : c.world.IsOpen id) :
    Step c (c.block id negations)

abbrev Run : Client → Client → Prop := Relation.ReflTransGen Step

/-- What a client can reach from nothing. -/
def Reachable (c : Client) : Prop := Run start c

theorem step_valid (h : Step c d) (hc : c.Valid) : d.Valid ∧ d.world.Extends c.world := by
  cases h with
  | operation _ op => exact after_valid op hc
  | clone _ hf => exact World.retain_valid hc hf
  | drop w f held history => exact World.discard_valid hc
  | search _ id h =>
    obtain ⟨hv, hk⟩ := World.search_valid hc h
    exact ⟨hv, hk.extends⟩
  | block _ negations h =>
    obtain ⟨s, hs, ho⟩ := h
    obtain ⟨hv, hk⟩ := World.block_valid negations hc hs ho
    exact ⟨hv, hk.extends⟩

theorem run_valid (h : Run c d) (hc : c.Valid) : d.Valid ∧ d.world.Extends c.world := by
  induction h with
  | refl => exact ⟨hc, .refl _⟩
  | tail _ hstep ih =>
    obtain ⟨hv, hx⟩ := step_valid hstep ih.1
    exact ⟨hv, hx.trans ih.2⟩

theorem Reachable.valid (h : Reachable c) : c.Valid := (run_valid h valid_start).1

/-- A client after one operation after the other. -/
def afterAll (c : Client) (ops : List Operation) : Client := ops.foldl after c

theorem run_afterAll (c : Client) (ops : List Operation) : Run c (c.afterAll ops) := by
  induction ops generalizing c with
  | nil => exact .refl
  | cons op ops ih => exact .head (.operation c op) (ih _)

end Client
end FormulaStack
