import FormulaStack.Proofs.Runs

/-!
Enumerations of models are runs: a level is pushed, and each round is a search, what the callback
does, and an assertion that blocks the model; in the end the level is popped.
-/
namespace FormulaStack

namespace Site

variable {s t : Site FoldingSolver} {held : Multiset Formula} {others : Multiset Term}
  {history : History}

/-- A model is found at an open stack, which stays open. -/
theorem nextModel?_open {important model : List (BoolFormula × Term)}
    (h : s.Sound held others history) (howned : ∀ f ∈ held, f.owner = s.env.id)
    (himportant : ∀ l ∈ important, l.1.formula ∈ held)
    (hx : ((nextModel? important).exec s).1 = .ok (some model)) :
    ((nextModel? important).exec s).2.stack.closed = false := by
  have ho : s.stack.closed = false := by
    by_contra hc
    have hcheck : check.exec s = (.error (.badState .stackClosed), s) :=
      Effect.exec_bind_error (exec_ensureOpen_closed (by simpa using hc)) _
    unfold nextModel? at hx
    rw [Effect.exec_bind, exec_ensureRunning] at hx
    cases hr : s.notifier.reason with
    | some reason =>
      rw [hr] at hx
      cases hx
    | none =>
      rw [hr] at hx
      dsimp only at hx
      rw [Effect.exec_bind_error hcheck] at hx
      cases hx
  have hat : At s others history s (held + (0 + 0)) := by
    rw [zero_add, add_zero]
    exact ⟨.refl s, rfl, howned, h⟩
  have hown := nextModel?_owns himportant s 0 hat
  rcases hy : (nextModel? important).exec s with ⟨x | m, t⟩ <;> rw [hy] at hown
  · exact hown.closed.trans ho
  · exact hown.closed.trans ho

end Site

namespace World

variable {w : World FoldingSolver} {c : Context} {s : AssertionStack FoldingSolver} {ctx id : Nat}
  {held : Multiset Formula} {history : Nat → History}

theorem search_open {important model : List (BoolFormula × Term)} (h : w.Valid held history)
    (himportant : ∀ l ∈ important, l.1.formula ∈ held ∧
      ∀ s, w.stack? id = some s → l.1.formula.owner = s.home)
    (hx : ((atStack id (Site.nextModel? important)).exec w).1 = .ok (some model)) :
    ((atStack id (Site.nextModel? important)).exec w).2.IsOpen id := by
  cases hs : w.stack? id with
  | none =>
    rw [exec_atStack_none hs] at hx
    cases hx
  | some s =>
    obtain ⟨c, hc, -⟩ := h.sound.stack id s hs
    rw [exec_atStack hs hc] at hx ⊢
    refine ⟨((Site.nextModel? important).exec (w.site c s)).2.stack, ?_, ?_⟩
    · rw [stack?_put hs, if_pos rfl]
    · refine Site.nextModel?_open (site_sound h.sound hs hc) (fun f hf => ?_) (fun l hl => ?_) hx
      · exact (Multiset.mem_filter.1 hf).2.trans (h.sound.context _ c hc).place.symm
      · obtain ⟨hm, howner⟩ := himportant l hl
        exact Multiset.mem_filter.2 ⟨hm, howner s hs⟩

end World

namespace Client

variable {c d : Client}

/-- Wrappers that are dropped one after the other. -/
theorem run_discardAll (fs : List Formula) (w : World FoldingSolver) (held : Multiset Formula)
    (history : Nat → History) :
    Run ⟨w, (fs : Multiset Formula) + held, history⟩ ⟨w.discardAll fs, held, history⟩ := by
  induction fs generalizing w with
  | nil =>
    rw [Multiset.coe_nil, zero_add]
    exact .refl
  | cons f fs ih =>
    rw [← Multiset.cons_coe, Multiset.cons_add]
    exact .head (.drop w f _ history) (ih (w.discard f))

variable {τ : Type} {id : Nat} {lent : Multiset Formula}
  {callback : Nat → List BoolFormula → Effect (World FoldingSolver × τ) Unit}

/-- The wrappers of literals. -/
def shown (literals : List BoolFormula) : List Formula := literals.map (·.formula)

/-- A callback that does what a client can do. It has the literals that it is shown and other
wrappers at hand, all of which it leaves there, as it leaves the stack open. -/
def Obliging (id : Nat) (lent : Multiset Formula)
    (callback : Nat → List BoolFormula → Effect (World FoldingSolver × τ) Unit) : Prop :=
  ∀ count literals w x held history,
    Valid ⟨w, (shown literals : Multiset Formula) + (lent + held), history⟩ → w.IsOpen id →
      ((callback count literals).exec (w, x)).2.1.IsOpen id ∧
        ∃ held' history', Run ⟨w, (shown literals : Multiset Formula) + (lent + held), history⟩
          ⟨((callback count literals).exec (w, x)).2.1,
            (shown literals : Multiset Formula) + (lent + held'), history'⟩

theorem round_run (hcallback : Obliging id lent callback) (count : Nat)
    (model : List (BoolFormula × Term)) {w : World FoldingSolver} (x : τ) {held : Multiset Formula}
    {history : Nat → History}
    (h : Valid ⟨w, (shown (model.map (·.1)) : Multiset Formula) + (lent + held), history⟩)
    (ho : w.IsOpen id) :
    ∃ held' history', Run ⟨w, (shown (model.map (·.1)) : Multiset Formula) + (lent + held), history⟩
      ⟨((World.round id count model callback).exec (w, x)).2.1, lent + held', history'⟩ := by
  obtain ⟨ho', held', history', hrun⟩ := hcallback count (model.map (·.1)) w x held history h ho
  unfold World.round
  rw [Effect.exec_andThen, Effect.exec_bind]
  rcases hx : (callback count (model.map (·.1))).exec (w, x) with ⟨e | _, w', x'⟩ <;>
    rw [hx] at hrun ho' ⊢ <;> dsimp only at hrun ho' ⊢
  · exact ⟨held', history', hrun.trans (run_discardAll _ _ _ _)⟩
  · by_cases hm : model.isEmpty = true
    · rw [if_pos hm]
      exact ⟨held', history', hrun.trans (run_discardAll _ _ _ _)⟩
    · rw [if_neg hm, Effect.exec_bind_pure]
      have hblock := Step.block ⟨w', (shown (model.map (·.1)) : Multiset Formula) + (lent + held'),
        history'⟩ (model.map (·.2)) ho'
      exact ⟨held', _, (hrun.tail hblock).trans (run_discardAll _ _ _ _)⟩

theorem exec_modelsFrom_succ (id fuel count : Nat) (important : List (BoolFormula × Term))
    (callback : Nat → List BoolFormula → Effect (World FoldingSolver × τ) Unit)
    (w : World FoldingSolver) (x : τ) :
    (World.modelsFrom id important callback (fuel + 1) count).exec (w, x) =
      match (World.atStack id (Site.nextModel? important)).exec w with
      | (.error e, w) => (.error e, (w, x))
      | (.ok none, w) => (.ok count, (w, x))
      | (.ok (some model), w) =>
        match (World.round id count model callback).exec (w, x) with
        | (.error e, y) => (.error e, y)
        | (.ok more, y) =>
          if more then (World.modelsFrom id important callback fuel (count + 1)).exec y
          else (.ok (count + 1), y) := by
  rw [World.modelsFrom_succ, Effect.exec_bind, World.exec_beside]
  rcases (World.atStack id (Site.nextModel? important)).exec w with ⟨e | _ | model, w'⟩
  · rfl
  · rfl
  · dsimp only
    rw [Effect.exec_bind]
    rcases (World.round id count model callback).exec (w', x) with ⟨e | more, y⟩
    · rfl
    · cases more <;> rfl

/-- The rounds of an enumeration. -/
theorem modelsFrom_run (hcallback : Obliging id lent callback)
    {important : List (BoolFormula × Term)} (fuel count : Nat) {w : World FoldingSolver} (x : τ)
    {held : Multiset Formula} {history : Nat → History} (h : Valid ⟨w, lent + held, history⟩)
    (hid : id < w.stackTable.size)
    (himportant : ∀ l ∈ important, l.1.formula ∈ lent ∧
      ∀ s, w.stack? id = some s → l.1.formula.owner = s.home) :
    ∃ held' history', Run ⟨w, lent + held, history⟩
      ⟨((World.modelsFrom id important callback fuel count).exec (w, x)).2.1, lent + held',
        history'⟩ := by
  induction fuel generalizing count w x held history with
  | zero => exact ⟨held, history, .refl⟩
  | succ fuel ih =>
    have hmem : ∀ l ∈ important, l.1.formula ∈ lent + held ∧
        ∀ s, w.stack? id = some s → l.1.formula.owner = s.home := fun l hl =>
      ⟨Multiset.mem_add.2 (.inl (himportant l hl).1), (himportant l hl).2⟩
    have hsearch := Step.search ⟨w, lent + held, history⟩ id hmem
    have hopen : ∀ model,
        ((World.atStack id (Site.nextModel? important)).exec w).1 = .ok (some model) →
        ((World.atStack id (Site.nextModel? important)).exec w).2.IsOpen id :=
      fun model hx => World.search_open h hmem hx
    unfold search at hsearch
    rw [exec_modelsFrom_succ]
    rcases hx : (World.atStack id (Site.nextModel? important)).exec w with ⟨e | _ | model, w'⟩ <;>
      rw [hx] at hsearch hopen <;> dsimp only at hsearch hopen ⊢
    · refine ⟨held, history, .single ?_⟩
      rwa [show World.found (.error e) + (lent + held) = lent + held from zero_add _] at hsearch
    · refine ⟨held, history, .single ?_⟩
      rwa [show World.found (.ok none) + (lent + held) = lent + held from zero_add _] at hsearch
    · have hfound : World.found (.ok (some model)) =
          (shown (model.map (·.1)) : Multiset Formula) := by
        unfold World.found World.gained Site.literalsOf shown
        rw [List.map_map]
        rfl
      rw [hfound] at hsearch
      have hv := (step_valid hsearch h).1
      obtain ⟨held', history', hround⟩ := round_run hcallback count model x hv (hopen model rfl)
      have hrun := Relation.ReflTransGen.head hsearch hround
      rcases hy : (World.round id count model callback).exec (w', x) with ⟨e | more, w'', x''⟩ <;>
        rw [hy] at hrun <;> dsimp only at hrun ⊢
      · exact ⟨held', history', hrun⟩
      · cases more with
        | false => exact ⟨held', history', hrun⟩
        | true =>
          obtain ⟨hv', he⟩ := run_valid hrun h
          obtain ⟨held'', history'', hrest⟩ := ih (count + 1) x'' hv' (hid.trans_le he.places)
            fun l hl => by
              refine ⟨(himportant l hl).1, fun s hs => ?_⟩
              obtain ⟨s₀, hs₀, hh⟩ := he.home id s hid hs
              rw [hh]
              exact (himportant l hl).2 s₀ hs₀
          exact ⟨held'', history'', hrun.trans hrest⟩

/-- Reading the terms of formulas leaves the world as it is. -/
theorem exec_unwrapAll {w : World FoldingSolver} {held : Multiset Formula}
    {history : Nat → History} (h : w.Sound held history) (id : Nat) (important : List BoolFormula) :
    ((World.atStack id (Site.inEnvironment (important.mapM (·.unwrap)))).exec w).2 = w ∧
      ∀ ts,
        ((World.atStack id (Site.inEnvironment (important.mapM (·.unwrap)))).exec w).1 = .ok ts →
        id < w.stackTable.size ∧
          ∀ f ∈ important, ∀ s, w.stack? id = some s → f.formula.owner = s.home := by
  refine ⟨World.atStack_readOnly (.mapM (fun _ => .ask _) important) id w, fun ts hts => ?_⟩
  cases hs : w.stack? id with
  | none =>
    rw [World.exec_atStack_none hs] at hts
    cases hts
  | some s =>
    obtain ⟨c, hc, -⟩ := h.stack id s hs
    rw [World.exec_atStack hs hc] at hts
    refine ⟨World.lt_of_stack? hs, fun f hf s' hs' => ?_⟩
    cases hs'
    exact (Environment.owner_of_unwraps hts f hf).trans (h.context _ c hc).place

/-- An operation at a stack that brings no wrappers. -/
theorem step_atStack (op : StackOperation) {e : Effect (Site FoldingSolver) Unit}
    (hop : op.perform = do
      e
      return []) (c : Client) (id : Nat) :
    ∃ history', Step c ⟨((World.atStack id e).exec c.world).2, c.held, history'⟩ := by
  have hstep := Step.operation c (.atStack id op)
  unfold after Operation.perform at hstep
  dsimp only at hstep
  rw [hop, World.exec_atStack_map, obtained_forget, zero_add] at hstep
  exact ⟨_, hstep⟩

theorem exec_conclude (id : Nat) (outcome : Except Fault Nat) (w : World FoldingSolver) (x : τ) :
    ((World.conclude id outcome).exec (w, x)).2.1 = ((World.atStack id (Site.pop 1)).exec w).2 := by
  unfold World.conclude
  rw [Effect.exec_bind, World.exec_beside]
  rcases (World.atStack id (Site.pop 1)).exec w with ⟨e | _, w'⟩
  · rfl
  · cases outcome <;> rfl

theorem enumerate_run {important : List BoolFormula} {w : World FoldingSolver} (x : τ)
    {held : Multiset Formula} {history : Nat → History}
    (hcallback : Obliging id (shown important : Multiset Formula) callback)
    (h : Valid ⟨w, (shown important : Multiset Formula) + held, history⟩) :
    ∃ held' history', Run ⟨w, (shown important : Multiset Formula) + held, history⟩
      ⟨((World.enumerate id important callback).exec (w, x)).2.1,
        (shown important : Multiset Formula) + held', history'⟩ := by
  obtain ⟨hsame, howner⟩ := exec_unwrapAll h.sound id important
  unfold World.enumerate
  rw [Effect.exec_bind, World.exec_beside]
  rcases hx : (World.atStack id (Site.inEnvironment (important.mapM (·.unwrap)))).exec w with
    ⟨e | ts, w'⟩ <;> rw [hx] at hsame howner ⊢ <;> dsimp only at hsame howner ⊢ <;> subst hsame
  · exact ⟨held, history, .refl⟩
  · obtain ⟨hid, hall⟩ := howner ts rfl
    refine modelsFrom_run hcallback World.maxModels 0 x h hid fun l hl => ?_
    have hl' : l.1 ∈ important := (List.of_mem_zip hl).1
    exact ⟨List.mem_map_of_mem hl', hall l.1 hl'⟩

/-- An enumeration of models whose callback does what a client can do is a run. -/
theorem allSat_run {important : List BoolFormula} {w : World FoldingSolver} (x : τ)
    {held : Multiset Formula} {history : Nat → History}
    (hcallback : Obliging id (shown important : Multiset Formula) callback)
    (h : Valid ⟨w, (shown important : Multiset Formula) + held, history⟩) :
    ∃ held' history', Run ⟨w, (shown important : Multiset Formula) + held, history⟩
      ⟨((World.allSat id important callback).exec (w, x)).2.1,
        (shown important : Multiset Formula) + held', history'⟩ := by
  obtain ⟨history₁, hpush⟩ := step_atStack (.push 1) rfl
    ⟨w, (shown important : Multiset Formula) + held, history⟩ id
  rw [World.allSat_eq, Effect.exec_bind, World.exec_beside]
  rcases hx : (World.atStack id (Site.push 1)).exec w with ⟨e | _, w₁⟩ <;> rw [hx] at hpush <;>
    dsimp only at hpush ⊢
  · exact ⟨held, history₁, .single hpush⟩
  · obtain ⟨held₂, history₂, hrun⟩ := enumerate_run x hcallback (step_valid hpush h).1
    obtain ⟨history₃, hpop⟩ := step_atStack (.pop 1) rfl
      ⟨((World.enumerate id important callback).exec (w₁, x)).2.1,
        (shown important : Multiset Formula) + held₂, history₂⟩ id
    refine ⟨held₂, history₃, ((Relation.ReflTransGen.single hpush).trans hrun).tail ?_⟩
    rw [Effect.exec_bind_ok (Effect.exec_attempt _ _), exec_conclude]
    exact hpop

/-- What an enumeration leaves behind can be reached. -/
theorem Reachable.allSat {important : List BoolFormula} {w : World FoldingSolver} (x : τ)
    {held : Multiset Formula} {history : Nat → History}
    (hcallback : Obliging id (shown important : Multiset Formula) callback)
    (h : Reachable ⟨w, (shown important : Multiset Formula) + held, history⟩) :
    ∃ held' history', Reachable ⟨((World.allSat id important callback).exec (w, x)).2.1,
      (shown important : Multiset Formula) + held', history'⟩ := by
  obtain ⟨held', history', hrun⟩ := allSat_run x hcallback h.valid
  exact ⟨held', history', Relation.ReflTransGen.trans h hrun⟩

end Client
end FormulaStack
