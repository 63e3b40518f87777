import FormulaStack.Proofs.Lifecycles

/-!
The operations of clients at stacks. Each keeps the invariant of its stack, whatever its outcome,
and adds to the history what the outcome says.
-/
namespace FormulaStack

/-- The wrappers that an outcome brings to a client. -/
def obtained : Except Fault (List Formula) → Multiset Formula
  | .ok fs => fs
  | .error _ => 0

/-- What a client can do at a stack. -/
inductive StackOperation where
  | push (n : Nat)
  | pop (n : Nat)
  | assert (f : BoolFormula) (partition : Option Nat)
  | addSymbol (symbol : Symbol)
  | check
  | model
  | evaluate (f : Formula)
  | interpolants (groups : List (List Nat))
  | close

namespace StackOperation

/-- What an operation does; it gives the wrappers that the client obtains. -/
def perform : StackOperation → Effect (Site FoldingSolver) (List Formula)
  | push n => do
    Site.push n
    return []
  | pop n => do
    Site.pop n
    return []
  | assert f partition => do
    Site.assert f partition
    return []
  | addSymbol symbol => do
    Site.addSymbol symbol
    return []
  | check => do
    let _ ← Site.check
    return []
  | model => return (← Site.model).formulas
  | evaluate f => return (← Site.evaluate f).toList
  | interpolants groups => return (← Site.interpolants groups).map (·.formula)
  | close => do
    Site.close
    return []

/-- What an operation that succeeds at some depth adds to the history of its stack. -/
def marks (depth : Nat) : StackOperation → History
  | push n => [⟨depth + n, none⟩]
  | pop n => [⟨depth - n, none⟩]
  | assert f _ => [⟨depth, some f.term⟩]
  | _ => []

end StackOperation

namespace Site

variable {α : Type} {s t : Site FoldingSolver} {held : Multiset Formula} {others : Multiset Term}
  {history : History}

/-- What an operation at a stack with this outcome means. -/
structure Does (s : Site FoldingSolver) (held : Multiset Formula) (others : Multiset Term)
    (history : History) (outcome : Except Fault (List Formula) × Site FoldingSolver)
    (marks : History) : Prop where
  keeps : s.Keeps outcome.2
  owned : ∀ f ∈ obtained outcome.1, f.owner = s.env.id
  ok : ∀ fs, outcome.1 = .ok fs → outcome.2.Sound (fs + held) others (history ++ marks)
  error : ∀ x, outcome.1 = .error x → outcome.2.Sound held others history

theorem does_error {x : Fault} {marks : History} (hk : s.Keeps t)
    (ht : t.Sound held others history) : s.Does held others history (.error x, t) marks :=
  ⟨hk, fun f hf => absurd hf (Multiset.notMem_zero f), nofun, fun _ _ => ht⟩

theorem does_ok {marks : History} (hk : s.Keeps t)
    (ht : t.Sound held others (history ++ marks)) :
    s.Does held others history (.ok [], t) marks := by
  refine ⟨hk, fun f hf => absurd hf (Multiset.notMem_zero f), fun fs hfs => ?_, nofun⟩
  cases hfs
  exact (zero_add held).symm ▸ ht

/-- A question whose answer brings wrappers. -/
theorem does_of_owns {e : Effect (Site FoldingSolver) α} {post : α → List Formula}
    (he : Effect.Owns (Effect.Lent (At s others history) held) 0 e
      fun a => (post a : Multiset Formula))
    (h : s.Sound held others history) (howned : ∀ f ∈ held, f.owner = s.env.id) :
    s.Does held others history ((do return post (← e) : Effect _ _).exec s) [] := by
  have hat : At s others history s (held + (0 + 0)) := by
    rw [zero_add, add_zero]
    exact ⟨.refl s, rfl, howned, h⟩
  have ho := he s 0 hat
  rw [Effect.exec_bind]
  rcases hx : e.exec s with ⟨x | a, t⟩ <;> rw [hx] at ho
  · unfold Effect.Lent at ho
    rw [add_zero] at ho
    exact does_error ho.keeps ho.sound
  · have hat' : At s others history t (held + (post a + 0)) := ho
    rw [add_zero, add_comm] at hat'
    have hid : t.env.id = s.env.id := congrArg (·.id) hat'.keeps.env
    refine ⟨hat'.keeps, fun f hf => ?_, fun fs hfs => ?_, nofun⟩
    · rw [← hid]
      exact hat'.owned f (Multiset.mem_add.2 (.inl hf))
    · cases hfs
      rw [List.append_nil]
      exact hat'.sound

theorem quiet_does {e : Effect (Site FoldingSolver) α} (he : Effect.Within Quiet e)
    (h : s.Sound held others history) (howned : ∀ f ∈ held, f.owner = s.env.id) :
    s.Does held others history ((do let _ ← e; return [] : Effect _ (List Formula)).exec s) [] :=
  have howns : Effect.Owns (Effect.Lent (At s others history) held) 0 e
      fun _ => (([] : List Formula) : Multiset Formula) := quiet_owns he
  does_of_owns howns h howned

theorem push_does (n : Nat) (h : s.Sound held others history) :
    s.Does held others history ((StackOperation.push n).perform.exec s)
      [⟨history.depth + n, none⟩] := by
  unfold StackOperation.perform
  cases ho : s.stack.closed with
  | true =>
    have hx : (push n).exec s = (.error (.badState .stackClosed), s) :=
      Effect.exec_bind_error (exec_ensureOpen_closed ho) _
    rw [Effect.exec_bind_error hx]
    exact does_error (.refl s) h
  | false =>
    obtain ⟨t, ht, hk, hsound⟩ := push_sound n h ho
    rw [Effect.exec_bind_ok ht]
    exact does_ok hk hsound

theorem pop_does (n : Nat) (h : s.Sound held others history) :
    s.Does held others history ((StackOperation.pop n).perform.exec s)
      [⟨history.depth - n, none⟩] := by
  unfold StackOperation.perform
  cases ho : s.stack.closed with
  | true =>
    have hx : (pop n).exec s = (.error (.badState .stackClosed), s) :=
      Effect.exec_bind_error (exec_ensureOpen_closed ho) _
    rw [Effect.exec_bind_error hx]
    exact does_error (.refl s) h
  | false =>
    by_cases hn : n ≤ history.depth
    · obtain ⟨t, ht, hk, hsound⟩ := pop_sound h ho hn
      rw [Effect.exec_bind_ok ht]
      exact does_ok hk hsound
    · have hdepth := (h.opened ho).2.depth
      rw [Effect.exec_bind_error (exec_pop_error ho (by omega))]
      exact does_error (.refl s) h

theorem assert_does (f : BoolFormula) (p : Option Nat) (h : s.Sound held others history) :
    s.Does held others history ((StackOperation.assert f p).perform.exec s)
      [⟨history.depth, some f.term⟩] := by
  unfold StackOperation.perform
  cases ho : s.stack.closed with
  | true =>
    have hx : (assert f p).exec s = (.error (.badState .stackClosed), s) :=
      Effect.exec_bind_error (exec_ensureOpen_closed ho) _
    rw [Effect.exec_bind_error hx]
    exact does_error (.refl s) h
  | false =>
    have ha := assert_asserts f p h ho
    rcases hx : (assert f p).exec s with ⟨x | _, t⟩ <;> rw [hx] at ha
    · rw [Effect.exec_bind_error hx]
      exact does_error ha.keeps (ha.error nofun)
    · rw [Effect.exec_bind_ok hx]
      exact does_ok ha.keeps (ha.ok rfl)

theorem addSymbol_does (symbol : Symbol) (h : s.Sound held others history) :
    s.Does held others history ((StackOperation.addSymbol symbol).perform.exec s) [] := by
  unfold StackOperation.perform
  cases ho : s.stack.closed with
  | true =>
    have hx : (addSymbol symbol).exec s = (.error (.badState .stackClosed), s) :=
      Effect.exec_bind_error (exec_ensureOpen_closed ho) _
    rw [Effect.exec_bind_error hx]
    exact does_error (.refl s) h
  | false =>
    have hx : (addSymbol symbol).exec s = (declare symbol).exec s :=
      Effect.exec_bind_ok (exec_ensureOpen ho) _
    rw [exec_declare] at hx
    cases hd : s.env.terms.declOf symbol with
    | error f =>
      rw [hd] at hx
      rw [Effect.exec_bind_error hx]
      exact does_error (.refl s) h
    | ok d =>
      rw [hd] at hx
      rw [Effect.exec_bind_ok hx]
      refine does_ok (keeps_noted _ _) ?_
      rw [List.append_nil]
      exact sound_noted h ho hd

theorem close_does (h : s.Sound held others history) :
    s.Does held others history (StackOperation.close.perform.exec s) [] := by
  unfold StackOperation.perform
  cases ho : s.stack.closed with
  | true =>
    have hx : close.exec s = (.error (.badState .stackClosed), s) :=
      Effect.exec_bind_error (exec_ensureOpen_closed ho) _
    rw [Effect.exec_bind_error hx]
    exact does_error (.refl s) h
  | false =>
    obtain ⟨t, ht, hk, -, hsound⟩ := close_sound h ho (history ++ [])
    rw [Effect.exec_bind_ok ht]
    exact does_ok hk hsound

/-- The literals of a model. -/
def literalsOf (model : Option (List (BoolFormula × Term))) : List Formula :=
  (model.getD []).map (·.1.formula)

/-- The search for a model, with the formulas it is about at hand. -/
theorem search_does {important : List (BoolFormula × Term)} (h : s.Sound held others history)
    (howned : ∀ f ∈ held, f.owner = s.env.id) (himportant : ∀ l ∈ important, l.1.formula ∈ held) :
    s.Does held others history ((do return literalsOf (← nextModel? important) : Effect _ _).exec s)
      [] :=
  does_of_owns (nextModel?_owns himportant) h howned

/-- The term that blocks a model. -/
def blockingTerm (store : Store) (negations : List Term) : Option Term :=
  match Build.or negations store with
  | .ok (t, _) => some t
  | .error _ => none

/-- What blocks a model at its stack. -/
def block (negations : List Term) : Effect (Site FoldingSolver) Unit := do
  let t ← inEnvironment (Environment.build (Build.or negations))
  assertTerm t none

theorem exec_build {σ : Type} {s : Site σ} (b : Build α) :
    (inEnvironment (Environment.build b)).exec s =
      match b s.env.terms with
      | .ok (a, terms) => (.ok a, { s with env := { s.env with terms } })
      | .error f => (.error f, s) := by
  have hb : (Environment.build b).exec s.env = _ := Environment.exec_build b s.env
  unfold inEnvironment
  rw [Effect.exec_on, hb]
  cases b s.env.terms <;> rfl

theorem block_does (negations : List Term) (h : s.Sound held others history)
    (ho : s.stack.closed = false) :
    s.Does held others history
      ((do
        let _ ← block negations
        return [] : Effect (Site FoldingSolver) (List Formula)).exec s)
      [⟨history.depth, blockingTerm s.env.terms negations⟩] := by
  rw [Effect.exec_bind_pure]
  unfold block blockingTerm
  rw [Effect.exec_bind, exec_build]
  cases hb : Build.or negations s.env.terms with
  | error f => exact does_error (.refl s) h
  | ok r =>
    have hq : s.Quiet { s with env := { s.env with terms := r.2 } } :=
      ⟨rfl, rfl, Build.Grows.or negations _ _ _ hb, rfl⟩
    have ha := assertTerm_asserts r.1 none (hq.sound h) ho
    dsimp only
    rcases hx : (assertTerm r.1 none).exec { s with env := { s.env with terms := r.2 } } with
      ⟨x | _, t⟩ <;> rw [hx] at ha
    · exact does_error (hq.keeps.trans ha.keeps) (ha.error nofun)
    · exact does_ok (hq.keeps.trans ha.keeps) (ha.ok rfl)

/-- Every operation keeps the invariant of its stack. -/
theorem perform_does (op : StackOperation) (h : s.Sound held others history)
    (howned : ∀ f ∈ held, f.owner = s.env.id) :
    s.Does held others history (op.perform.exec s) (op.marks history.depth) := by
  cases op with
  | push n => exact push_does n h
  | pop n => exact pop_does n h
  | assert f p => exact assert_does f p h
  | addSymbol symbol => exact addSymbol_does symbol h
  | check => exact quiet_does quiet_check h howned
  | model => exact does_of_owns model_owns h howned
  | evaluate f => exact does_of_owns (evaluate_owns f) h howned
  | interpolants groups => exact does_of_owns (interpolants_owns groups) h howned
  | close => exact close_does h

end Site

namespace World

variable {w : World FoldingSolver} {s : AssertionStack FoldingSolver} {id : Nat}
  {held : Multiset Formula} {history : Nat → History}

/-- What a client does at a stack, in the world. -/
theorem atStack_valid {e : Effect (Site FoldingSolver) (List Formula)} {marks : History}
    (h : w.Valid held history) (id : Nat)
    (he : ∀ (s : AssertionStack FoldingSolver) c, w.stack? id = some s →
      w.contexts[s.home]? = some c →
      (w.site c s).Does (ownedBy s.home held) (w.others s.home id) (history id)
        (e.exec (w.site c s)) marks) :
    ((atStack id e).exec w).2.Valid
        (obtained ((atStack id e).exec w).1 + held)
        (match ((atStack id e).exec w).1 with
          | .ok _ => Function.update history id (history id ++ marks)
          | .error _ => history) ∧
      w.Keeps ((atStack id e).exec w).2 := by
  cases hs : w.stack? id with
  | none =>
    rw [exec_atStack_none hs]
    dsimp only
    rw [obtained, zero_add]
    exact ⟨h, .refl w⟩
  | some s =>
    obtain ⟨c, hc, -⟩ := h.sound.stack id s hs
    have hd := he s c hs hc
    rw [exec_atStack hs hc]
    rcases hx : e.exec (w.site c s) with ⟨x | fs, t⟩ <;> rw [hx] at hd <;> dsimp only
    · have hkeeps := keeps_put hs hc hd.keeps
      rw [obtained, zero_add]
      have hsound := h.sound.put_same hs hc hd.keeps (hd.error x rfl)
      exact ⟨⟨hsound, h.knows.mono h.sound hkeeps⟩, hkeeps⟩
    · have hkeeps := keeps_put hs hc hd.keeps
      have hplace := (h.sound.context _ c hc).place
      have hsound := h.sound.put hs hc hd.keeps (fun f hf => (hd.owned f hf).trans hplace)
        (hd.ok fs rfl)
      exact ⟨⟨hsound, h.knows.mono h.sound hkeeps⟩, hkeeps⟩

theorem perform_valid (op : StackOperation) (id : Nat) (h : w.Valid held history) :
    ((atStack id op.perform).exec w).2.Valid
        (obtained ((atStack id op.perform).exec w).1 + held)
        (match ((atStack id op.perform).exec w).1 with
          | .ok _ => Function.update history id (history id ++ op.marks (history id).depth)
          | .error _ => history) ∧
      w.Keeps ((atStack id op.perform).exec w).2 := by
  refine atStack_valid h id fun s c hs hc => ?_
  refine Site.perform_does op (site_sound h.sound hs hc) fun f hf => ?_
  exact (Multiset.mem_filter.1 hf).2.trans (h.sound.context _ c hc).place.symm

theorem exec_atStack_map {σ α β : Type} {w : World σ} (e : Effect (Site σ) α) (f : α → β) :
    (atStack id (e >>= fun a => pure (f a))).exec w =
      (((atStack id e).exec w).1.map f, ((atStack id e).exec w).2) := by
  unfold atStack
  rw [Effect.exec_bind_ok (Effect.exec_get _), Effect.exec_bind_ok (Effect.exec_get _)]
  cases w.stack? id with
  | none => rfl
  | some s =>
    dsimp only
    rw [Effect.exec_bind, Effect.exec_bind]
    rcases (context s.home).exec w with ⟨x | c, u⟩
    · rfl
    · dsimp only
      rw [Effect.exec_on, Effect.exec_on, Effect.exec_bind_pure]

/-- The outcome of a search for a model, as wrappers. -/
def found : Except Fault (Option (List (BoolFormula × Term))) → Multiset Formula :=
  gained fun model => (Site.literalsOf model : Multiset Formula)

theorem search_valid {important : List (BoolFormula × Term)} (h : w.Valid held history)
    (himportant : ∀ l ∈ important, l.1.formula ∈ held ∧
      ∀ s, w.stack? id = some s → l.1.formula.owner = s.home) :
    ((atStack id (Site.nextModel? important)).exec w).2.Valid
        (found ((atStack id (Site.nextModel? important)).exec w).1 + held) history ∧
      w.Keeps ((atStack id (Site.nextModel? important)).exec w).2 := by
  have hv := atStack_valid h id fun s c hs hc =>
    Site.search_does (site_sound h.sound hs hc)
      (fun f hf => (Multiset.mem_filter.1 hf).2.trans (h.sound.context _ c hc).place.symm)
      fun l hl => by
        obtain ⟨hm, howner⟩ := himportant l hl
        exact Multiset.mem_filter.2 ⟨hm, howner s hs⟩
  rw [exec_atStack_map] at hv
  cases hx : ((atStack id (Site.nextModel? important)).exec w).1 with
  | error x =>
    rw [hx] at hv
    exact hv
  | ok model =>
    rw [hx, List.append_nil, Function.update_eq_self] at hv
    exact hv

/-- The term that blocks a model in a world. -/
def blockingTerm (w : World FoldingSolver) (id : Nat) (negations : List Term) : Option Term := do
  let s ← w.stack? id
  let c ← w.contexts[s.home]?
  Site.blockingTerm c.env.terms negations

theorem block_valid (negations : List Term) (h : w.Valid held history) (hs : w.stack? id = some s)
    (ho : s.closed = false) :
    ((block id negations).exec w).2.Valid held
        (match ((block id negations).exec w).1 with
          | .ok _ => Function.update history id
            (history id ++ [⟨(history id).depth, w.blockingTerm id negations⟩])
          | .error _ => history) ∧
      w.Keeps ((block id negations).exec w).2 := by
  obtain ⟨c, hc, -⟩ := h.sound.stack id s hs
  have hterm : w.blockingTerm id negations = Site.blockingTerm c.env.terms negations := by
    unfold blockingTerm
    rw [hs]
    change (w.contexts[s.home]?).bind _ = _
    rw [hc]
    rfl
  have hdoes : ∀ (s' : AssertionStack FoldingSolver) c', w.stack? id = some s' →
      w.contexts[s'.home]? = some c' →
      (w.site c' s').Does (ownedBy s'.home held) (w.others s'.home id) (history id)
        ((do
          let _ ← Site.block negations
          return [] : Effect (Site FoldingSolver) (List Formula)).exec (w.site c' s'))
        [⟨(history id).depth, w.blockingTerm id negations⟩] := by
    intro s' c' hs' hc'
    rw [hs] at hs'
    cases hs'
    rw [hc] at hc'
    cases hc'
    rw [hterm]
    exact Site.block_does negations (site_sound h.sound hs hc) ho
  have hv := atStack_valid h id hdoes
  rw [exec_atStack_map] at hv
  change ((atStack id (Site.block negations)).exec w).2.Valid held
    (match ((atStack id (Site.block negations)).exec w).1 with
      | .ok _ => _
      | .error _ => _) ∧ w.Keeps ((atStack id (Site.block negations)).exec w).2
  cases hx : ((atStack id (Site.block negations)).exec w).1 with
  | error x =>
    rw [hx] at hv
    change World.Valid _ (0 + held) _ ∧ _ at hv
    rw [zero_add] at hv
    exact hv
  | ok _ =>
    rw [hx] at hv
    change World.Valid _ (0 + held) _ ∧ _ at hv
    rw [zero_add] at hv
    exact hv

end World
end FormulaStack
