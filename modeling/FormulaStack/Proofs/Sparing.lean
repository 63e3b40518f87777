import FormulaStack.Proofs.Interruptions
import FormulaStack.Proofs.Stops

/-!
Work that passes closed stacks by. A closed stack refuses whatever it is asked, and nobody knows of
it; so it stays as it is, and whatever its session, other work comes to the same.
-/
namespace FormulaStack

namespace Site

variable {σ α β : Type} {s : Site σ}

variable [Session σ]

end Site

namespace World

variable {σ α β γ : Type} {w w' : World σ} {id j ctx : Nat} {x : σ}

/-- A world with another session in the place of that of a stack. -/
def reseat (id : Nat) (x : σ) (w : World σ) : World σ :=
  { w with stackTable := w.stackTable.modify id (Option.map fun s => { s with session := x }) }

theorem stack?_reseat (id : Nat) (x : σ) (w : World σ) (j : Nat) :
    (w.reseat id x).stack? j =
      if j = id then (w.stack? id).map fun s => { s with session := x } else w.stack? j := by
  unfold stack? reseat
  rw [Array.getElem?_modify]
  by_cases hj : j = id
  · rw [if_pos hj.symm, if_pos hj, hj]
    cases w.stackTable[id]? <;> rfl
  · rw [if_neg (Ne.symm hj), if_neg hj]

/-- A stack is closed or gone, and nobody will call it. -/
structure Dead (id : Nat) (w : World σ) : Prop where
  place : id < w.stackTable.size
  closed : ∀ s, w.stack? id = some s → s.closed = true
  unheard : ∀ (k : Nat) n, w.notifiers[k]? = some n →
    ∀ number, (number, Reaction.interrupt id) ∉ n.listeners
  unobserved : ∀ i, .stack id ∉ w.observersOf i

theorem Dead.reseat (hw : w.Dead id) (x : σ) : (w.reseat id x).Dead id := by
  refine ⟨hw.place.trans_eq Array.size_modify.symm, fun s hs => ?_, hw.unheard, hw.unobserved⟩
  rw [stack?_reseat, if_pos rfl] at hs
  obtain ⟨s', hs', rfl⟩ := Option.map_eq_some_iff.1 hs
  exact hw.closed s' hs'

/-- Work that passes a closed stack by: it leaves the stack alone, unless it drops it, and it would
come to the same if the stack had another session. -/
structure Spares (id : Nat) (g : World σ → β × World σ) : Prop where
  dead : ∀ w, w.Dead id → (g w).2.Dead id
  same : ∀ w, w.Dead id → (g w).2.stack? id = w.stack? id ∨ (g w).2.stack? id = none
  apart : ∀ w, w.Dead id → ∀ x, g (w.reseat id x) = ((g w).1, (g w).2.reseat id x)

namespace Spares

theorem const (b : β) : Spares id fun w : World σ => (b, w) :=
  ⟨fun _ h => h, fun _ _ => .inl rfl, fun _ _ _ => rfl⟩

/-- It is enough to say for each world what the work comes to there, whatever the session. -/
theorem locally {g : World σ → β × World σ} (h : ∀ w, w.Dead id → ∃ g', Spares id g' ∧
    g w = g' w ∧ ∀ x, g (w.reseat id x) = g' (w.reseat id x)) : Spares id g := by
  refine ⟨fun w hw => ?_, fun w hw => ?_, fun w hw x => ?_⟩ <;>
    obtain ⟨g', hg', heq, hx⟩ := h w hw
  · exact heq ▸ hg'.dead w hw
  · exact heq ▸ hg'.same w hw
  · rw [hx, heq, hg'.apart w hw]

theorem andThen {f : World σ → γ × World σ} {g : γ → World σ → β × World σ} (hf : Spares id f)
    (hg : ∀ a, Spares id (g a)) : Spares id fun w => g (f w).1 (f w).2 := by
  refine ⟨fun w hw => (hg _).dead _ (hf.dead w hw), fun w hw => ?_, fun w hw x => ?_⟩
  · obtain hsame | hnone := (hg (f w).1).same _ (hf.dead w hw)
    · rw [hsame]
      exact hf.same w hw
    · exact .inr hnone
  · rw [hf.apart w hw x]
    exact (hg _).apart _ (hf.dead w hw) x

theorem bind {e : Effect (World σ) α} {f : α → Effect (World σ) β} (he : Spares id e.exec)
    (hf : ∀ a, Spares id (f a).exec) : Spares id (e >>= f).exec := by
  refine .locally fun w hw => ?_
  have hapart := he.apart w hw
  rcases hx : e.exec w with ⟨x | a, w'⟩ <;> rw [hx] at hapart
  · refine ⟨_, he.andThen fun _ => const (.error x), ?_, fun y => ?_⟩
    · rw [Effect.exec_bind_error hx, hx]
    · rw [Effect.exec_bind_error (hapart y), hapart]
  · refine ⟨_, he.andThen fun _ => hf a, ?_, fun y => ?_⟩
    · rw [Effect.exec_bind_ok hx, hx]
    · rw [Effect.exec_bind_ok (hapart y), hapart]

theorem forM {ι : Type} {f : ι → Effect (World σ) Unit} (hf : ∀ i, Spares id (f i).exec)
    (is : List ι) : Spares id (is.forM f).exec := by
  rw [List.forM_eq_forM]
  induction is with
  | nil => exact const _
  | cons i is ih =>
    rw [List.forM_cons]
    exact (hf i).bind fun _ => ih

/-- What changes nothing of the stacks, and lets nobody know of this one. -/
theorem beside (b : β) {f : World σ → World σ} (htable : ∀ w, (f w).stackTable = w.stackTable)
    (hnotifiers : ∀ w (k : Nat) n', (f w).notifiers[k]? = some n' → ∀ number,
      (number, Reaction.interrupt id) ∈ n'.listeners →
        ∃ n, w.notifiers[k]? = some n ∧ (number, Reaction.interrupt id) ∈ n.listeners)
    (hcontexts : ∀ w i, .stack id ∈ (f w).observersOf i → .stack id ∈ w.observersOf i)
    (hreseat : ∀ w x, f (w.reseat id x) = (f w).reseat id x) :
    Spares id fun w => (b, f w) := by
  refine ⟨fun w hw => ⟨?_, fun s hs => ?_, fun k n' hn' number hp => ?_, fun i ho => ?_⟩,
    fun w _ => .inl ?_, fun w _ x => Prod.ext rfl (hreseat w x)⟩
  · rw [htable]
    exact hw.place
  · rw [stack?, htable] at hs
    exact hw.closed s hs
  · obtain ⟨n, hn, hp⟩ := hnotifiers w k n' hn' number hp
    exact hw.unheard k n hn number hp
  · exact hw.unobserved i (hcontexts w i ho)
  · rw [stack?, stack?, htable]

/-- What only changes contexts. -/
theorem contexts (b : β) {f : Context → Context}
    (hf : ∀ c, .stack id ∈ (f c).env.observers → .stack id ∈ c.env.observers) (ctx : Nat) :
    Spares id fun w : World σ => (b, { w with contexts := w.contexts.modify ctx f }) := by
  refine beside b (fun _ => rfl) (fun w k n hn number hp => ⟨n, hn, hp⟩) (fun w i ho => ?_)
    fun _ _ => rfl
  unfold observersOf at ho ⊢
  dsimp only at ho
  rw [Array.getElem?_modify] at ho
  split at ho
  · cases hc : w.contexts[i]? with
    | none =>
      rw [hc] at ho
      cases ho
    | some c =>
      rw [hc] at ho
      exact hf c ho
  · exact ho

theorem environment (b : β) {env : Environment} (henv : .stack id ∉ env.observers) (ctx : Nat) :
    Spares id fun w : World σ => (b, setEnvironment ctx env w) :=
  contexts b (f := fun c => { c with env }) (fun _ ho => absurd ho henv) ctx

theorem notifier (b : β) {n : Notifier Reaction}
    (hn : ∀ number, (number, Reaction.interrupt id) ∉ n.listeners) (ctx : Nat) :
    Spares id fun w : World σ => (b, setNotifier ctx n w) := by
  refine beside b (fun w => stackTable_setNotifier n w) (fun w k n' hn' number hp => ?_)
    (fun w i ho => ?_) fun w x => ?_
  · cases hc : w.contexts[ctx]? with
    | none =>
      rw [setNotifier, hc] at hn'
      exact ⟨n', hn', hp⟩
    | some c =>
      obtain ⟨-, hold⟩ | ⟨-, rfl, -⟩ := getElem?_notifiers_setNotifier hc hn'
      · exact ⟨n', hold, hp⟩
      · exact absurd hp (hn number)
  · rwa [observersOf, contexts_setNotifier] at ho
  · unfold setNotifier reseat
    dsimp only
    cases w.contexts[ctx]? <;> rfl

/-- What changes other places of the table of stacks. -/
theorem table (b : β) {F : Array (Option (AssertionStack σ)) → Array (Option (AssertionStack σ))}
    (hsize : ∀ t, t.size ≤ (F t).size) (hplace : ∀ t, id < t.size → (F t)[id]? = t[id]?)
    (hmodify : ∀ t g, id < t.size → F (t.modify id g) = (F t).modify id g) :
    Spares id fun w : World σ => (b, { w with stackTable := F w.stackTable }) := by
  refine ⟨fun w hw => ⟨hw.place.trans_le (hsize _), fun s' hs' => ?_, hw.unheard, hw.unobserved⟩,
    fun w hw => .inl (congrArg Option.join (hplace _ hw.place)), fun w hw x => Prod.ext rfl ?_⟩
  · rw [stack?, hplace _ hw.place] at hs'
    exact hw.closed s' hs'
  · exact congrArg (fun stackTable => { w with stackTable }) (hmodify _ _ hw.place)

/-- What changes the place of another stack. -/
theorem place (b : β) (hj : j ≠ id) (s : Option (AssertionStack σ)) :
    Spares id fun w : World σ => (b, { w with stackTable := w.stackTable.setIfInBounds j s }) := by
  refine table b (F := fun t => t.setIfInBounds j s) (fun t => (Array.size_setIfInBounds).ge)
    (fun t _ => Array.getElem?_setIfInBounds_ne hj) fun t g _ => Array.ext_getElem? fun k => ?_
  rw [Array.getElem?_setIfInBounds, Array.getElem?_modify, Array.getElem?_modify,
    Array.getElem?_setIfInBounds, Array.size_modify]
  by_cases hk : j = k
  · have hid : ¬ id = k := fun h => hj (hk.trans h.symm)
    rw [if_pos hk, if_neg hid, if_pos hk]
  · rw [if_neg hk, if_neg hk]

theorem put (b : β) (hj : j ≠ id) {t : Site σ} (henv : .stack id ∉ t.env.observers)
    (hn : ∀ number, (number, Reaction.interrupt id) ∉ t.notifier.listeners) (home : Nat) :
    Spares id fun w : World σ => (b, w.put j home t) := by
  have hqueries : Spares id fun w : World σ => ((), { w with queries := t.queries }) :=
    beside () (fun _ => rfl) (fun w k n hn number hp => ⟨n, hn, hp⟩) (fun _ _ ho => ho)
      fun _ _ => rfl
  exact ((environment () henv home).andThen fun _ => notifier () hn home).andThen fun _ =>
    hqueries.andThen fun _ => place b hj (some t.stack)

/-- A world with no such stack. -/
theorem gone (b : β) : Spares id fun w : World σ => (b, w.withStack id none) := by
  have hgone : ∀ {w : World σ}, w.Dead id → (w.withStack id none).stack? id = none := fun hw => by
    rw [stack?_withStack hw.place, if_pos rfl]
  refine ⟨fun w hw => ⟨?_, fun s hs => ?_, hw.unheard, hw.unobserved⟩, fun w hw => .inr (hgone hw),
    fun w hw x => Prod.ext rfl ?_⟩
  · dsimp only
    rw [withStack, Array.size_setIfInBounds]
    exact hw.place
  · cases (hgone hw).symm.trans hs
  · have htable : (w.reseat id x).stackTable.setIfInBounds id none =
        (w.stackTable.setIfInBounds id none).modify id
          (Option.map fun s => { s with session := x }) := by
      refine Array.ext_getElem? fun k => ?_
      rw [reseat, Array.getElem?_setIfInBounds, Array.getElem?_modify, Array.getElem?_modify,
        Array.getElem?_setIfInBounds, Array.size_modify]
      by_cases hk : id = k
      · rw [if_pos hk, if_pos hk, if_pos hk, if_pos hw.place]
        rfl
      · rw [if_neg hk, if_neg hk, if_neg hk, if_neg hk]
    exact congrArg (fun stackTable => { w with stackTable }) htable

end Spares

variable [Session σ]

end World

end FormulaStack
