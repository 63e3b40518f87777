import FormulaStack.Proofs.Worlds

/-!
What stays of a world: its contexts, their terms, and what open stacks know. The invariant of worlds
is that they are sound and their open stacks know the symbols of their contexts.
-/
namespace FormulaStack

namespace World

variable {w : World FoldingSolver} {c : Context} {s : AssertionStack FoldingSolver} {ctx id : Nat}
  {held : Multiset Formula} {history : Nat → History}

/-- What stays of a context. -/
structure ContextKeeps (c c' : Context) : Prop where
  options : c'.options = c.options
  id : c'.env.id = c.env.id
  declared : c'.env.declared = c.env.declared
  terms : c'.env.terms.Extends c.env.terms

/-- What stays of a stack. Where declarations are made again, none is forgotten. -/
structure StackKeeps (s s' : AssertionStack FoldingSolver) : Prop where
  home : s'.home = s.home
  replaying : s'.replaying = s.replaying
  opened : s'.closed = false → s.closed = false
  knows : s.replaying = true → s'.closed = false → ∀ d,
    s.session.isDeclared d = true → s'.session.isDeclared d = true

theorem ContextKeeps.refl (c : Context) : ContextKeeps c c := ⟨rfl, rfl, rfl, .refl _⟩

theorem ContextKeeps.trans {c c' c'' : Context} (h : ContextKeeps c c') (g : ContextKeeps c' c'') :
    ContextKeeps c c'' :=
  ⟨g.options.trans h.options, g.id.trans h.id, g.declared.trans h.declared, g.terms.trans h.terms⟩

theorem StackKeeps.refl (s : AssertionStack FoldingSolver) : StackKeeps s s :=
  ⟨rfl, rfl, fun h => h, fun _ _ _ h => h⟩

theorem StackKeeps.trans {s s' s'' : AssertionStack FoldingSolver} (h : StackKeeps s s')
    (g : StackKeeps s' s'') : StackKeeps s s'' :=
  ⟨g.home.trans h.home, g.replaying.trans h.replaying, fun ho => h.opened (g.opened ho),
    fun hr ho d hd => g.knows (h.replaying.trans hr) ho d (h.knows hr (g.opened ho) d hd)⟩

/-- No context or stack is new, and what was declared at a stack stays so. -/
structure Keeps (w w' : World FoldingSolver) : Prop where
  contexts : w'.contexts.size = w.contexts.size
  places : w'.stackTable.size = w.stackTable.size
  context : ∀ (i : Nat) c c', w.contexts[i]? = some c → w'.contexts[i]? = some c' →
    ContextKeeps c c'
  stack : ∀ id s', w'.stack? id = some s' → ∃ s, w.stack? id = some s ∧ StackKeeps s s'

namespace Keeps

variable {w' w'' : World FoldingSolver}

theorem refl (w : World FoldingSolver) : w.Keeps w := by
  refine ⟨rfl, rfl, fun i c c' hc hc' => ?_, fun id s hs => ⟨s, hs, .refl s⟩⟩
  rw [hc] at hc'
  cases hc'
  exact .refl c

theorem exists_context (h : w.Keeps w') {i : Nat} (hc : w.contexts[i]? = some c) :
    ∃ c', w'.contexts[i]? = some c' ∧ ContextKeeps c c' := by
  have hi : i < w'.contexts.size := by
    rw [h.contexts]
    exact (Array.getElem?_eq_some_iff.1 hc).1
  exact ⟨_, Array.getElem?_eq_getElem hi, h.context i c _ hc (Array.getElem?_eq_getElem hi)⟩

theorem trans (h : w.Keeps w') (g : w'.Keeps w'') : w.Keeps w'' := by
  refine ⟨g.contexts.trans h.contexts, g.places.trans h.places, fun i c c'' hc hc'' => ?_,
    fun id s'' hs'' => ?_⟩
  · obtain ⟨c', hc', hk⟩ := h.exists_context hc
    exact hk.trans (g.context i c' c'' hc' hc'')
  · obtain ⟨s', hs', hk'⟩ := g.stack id s'' hs''
    obtain ⟨s, hs, hk⟩ := h.stack id s' hs'
    exact ⟨s, hs, hk.trans hk'⟩

end Keeps

theorem keeps_put {t : Site FoldingSolver} (hs : w.stack? id = some s)
    (hc : w.contexts[s.home]? = some c) (hk : (w.site c s).Keeps t) :
    w.Keeps (w.put id s.home t) := by
  refine ⟨?_, size_stackTable_put t _, fun i c₁ c₂ h₁ h₂ => ?_, fun j s' hs' => ?_⟩
  · rw [contexts_put, Array.size_modify]
  · rw [context_put hc] at h₂
    split at h₂
    · next hi =>
      rw [hi, hc] at h₁
      cases h₁
      cases h₂
      exact ⟨rfl, congrArg (·.id) hk.env, congrArg (·.declared) hk.env, hk.terms⟩
    · rw [h₁] at h₂
      cases h₂
      exact .refl _
  · rw [stack?_put hs] at hs'
    split at hs'
    · next hj =>
      cases hs'
      exact ⟨s, hj ▸ hs, hk.home, hk.replaying, fun ho => (hk.opened ho).1, hk.knows⟩
    · exact ⟨s', hs', .refl s'⟩

/-- Where declarations are made again, an open stack knows all symbols of its environment. -/
def Knows (w : World FoldingSolver) : Prop :=
  ∀ id s, w.stack? id = some s → s.closed = false → s.replaying = true →
    ∀ c, w.contexts[s.home]? = some c → ∀ symbol ∈ c.env.declared, ∀ d,
      c.env.terms.declOf symbol = .ok d → s.session.isDeclared d = true

theorem Knows.mono {w' : World FoldingSolver} (hknows : w.Knows) (h : w.Sound held history)
    (hk : w.Keeps w') : w'.Knows := by
  intro id s' hs' ho hr c' hc' symbol hm d hd
  obtain ⟨s, hs, hstack⟩ := hk.stack id s' hs'
  obtain ⟨c, hc, -⟩ := h.stack id s hs
  have hcontext := hk.context _ c c' hc (hstack.home ▸ hc')
  rw [hcontext.declared] at hm
  obtain ⟨e, he⟩ := (h.context _ c hc).declarable symbol hm
  have hde := hcontext.terms.declOf he
  rw [hd] at hde
  cases hde
  have hr' := hstack.replaying.symm.trans hr
  exact hstack.knows hr' ho d (hknows id s hs (hstack.opened ho) hr' c hc symbol hm d he)

/-- The invariant, with what open stacks know. -/
structure Valid (w : World FoldingSolver) (held : Multiset Formula) (history : Nat → History) :
    Prop where
  sound : w.Sound held history
  knows : w.Knows

/-- All contexts are still there, and have all their terms. The stacks that are still there are
where they were opened. -/
structure Extends (w' w : World FoldingSolver) : Prop where
  context : ∀ (i : Nat) c, w.contexts[i]? = some c →
    ∃ c', w'.contexts[i]? = some c' ∧ c'.env.terms.Extends c.env.terms
  places : w.stackTable.size ≤ w'.stackTable.size
  home : ∀ id s', id < w.stackTable.size → w'.stack? id = some s' →
    ∃ s, w.stack? id = some s ∧ s'.home = s.home

theorem Extends.refl (w : World FoldingSolver) : w.Extends w :=
  ⟨fun _ c hc => ⟨c, hc, .refl _⟩, Nat.le_refl _, fun _ s _ hs => ⟨s, hs, rfl⟩⟩

theorem Extends.trans {w' w'' : World FoldingSolver} (g : w''.Extends w') (h : w'.Extends w) :
    w''.Extends w := by
  refine ⟨fun i c hc => ?_, h.places.trans g.places, fun id s'' hid hs'' => ?_⟩
  · obtain ⟨c', hc', hk⟩ := h.context i c hc
    obtain ⟨c'', hc'', hk'⟩ := g.context i c' hc'
    exact ⟨c'', hc'', hk'.trans hk⟩
  · obtain ⟨s', hs', hh'⟩ := g.home id s'' (hid.trans_le h.places) hs''
    obtain ⟨s, hs, hh⟩ := h.home id s' hid hs'
    exact ⟨s, hs, hh'.trans hh⟩

theorem Keeps.extends {w' : World FoldingSolver} (h : w.Keeps w') : w'.Extends w := by
  refine ⟨fun i c hc => ?_, h.places.ge, fun id s' _ hs' => ?_⟩
  · obtain ⟨c', hc', hk⟩ := h.exists_context hc
    exact ⟨c', hc', hk.terms⟩
  · obtain ⟨s, hs, hk⟩ := h.stack id s' hs'
    exact ⟨s, hs, hk.home⟩

/-! Work in one environment -/

/-- What a change of one environment means for the world. -/
theorem Sound.environment {env : Environment} {held' : Multiset Formula} (h : w.Sound held history)
    (hc : w.contexts[ctx]? = some c) (hid : env.id = c.env.id)
    (hobservers : env.observers = c.env.observers) (hterms : c.env.terms.Grows env.terms)
    (hdeclarable : ∀ symbol ∈ env.declared, ∃ d, env.terms.declOf symbol = .ok d)
    (haccounts : env.Accounts (ownedBy ctx held') (w.recorded ctx))
    (howners : ∀ f ∈ held', f.owner < w.contexts.size)
    (hothers : ∀ i ≠ ctx, ownedBy i held' = ownedBy i held) :
    (setEnvironment ctx env w).Sound held' history := by
  have hcontext := h.context ctx c hc
  refine ⟨fun f hf => ?_, fun i c' hc' => ?_, fun j s hs => ?_⟩
  · rw [setEnvironment, Array.size_modify]
    exact howners f hf
  · rw [context_setEnvironment hc] at hc'
    split at hc'
    · next hi =>
      subst hi
      cases hc'
      refine ⟨hid.trans hcontext.place, hterms.wellFormed hcontext.wellFormed, hdeclarable,
        haccounts, fun o ho => ?_⟩
      rw [show ({ c with env } : Context).env.observers = c.env.observers from hobservers] at ho
      exact hcontext.observers o ho
    · next hi =>
      have hcontext' := h.context i c' hc'
      refine ⟨hcontext'.place, hcontext'.wellFormed, hcontext'.declarable, ?_, hcontext'.observers⟩
      rw [hothers i hi]
      exact hcontext'.accounts
  · obtain ⟨c', hc', hstack⟩ := h.stack j s hs
    refine hstack.exists_of_change hc' hc (context_setEnvironment hc env) rfl hterms.extension
      fun _ ho => ?_
    rw [show ({ c with env } : Context).env.observers = c.env.observers from hobservers]
    exact ho

theorem keeps_setEnvironment {env : Environment} (hc : w.contexts[ctx]? = some c)
    (hid : env.id = c.env.id) (hdeclared : env.declared = c.env.declared)
    (hterms : env.terms.Extends c.env.terms) : w.Keeps (setEnvironment ctx env w) := by
  refine ⟨Array.size_modify, rfl, fun i c₁ c₂ h₁ h₂ => ?_, fun j s' hs' => ⟨s', hs', .refl s'⟩⟩
  rw [context_setEnvironment hc] at h₂
  split at h₂
  · next hi =>
    rw [hi, hc] at h₁
    cases h₁
    cases h₂
    exact ⟨rfl, hid, hdeclared, hterms⟩
  · rw [h₁] at h₂
    cases h₂
    exact .refl _

/-- The wrappers that an outcome brings. -/
def gained {α : Type} (post : α → Multiset Formula) : Except Fault α → Multiset Formula
  | .ok a => post a
  | .error _ => 0

theorem inEnvironment_valid {α : Type} {e : Effect Environment α} {post : α → Multiset Formula}
    (he : ∀ env₀ recorded, Effect.Owns (Environment.At env₀ recorded) 0 e post)
    (h : w.Valid held history) (ctx : Nat) :
    ((inEnvironment ctx e).exec w).2.Valid
        (gained post ((inEnvironment ctx e).exec w).1 + held) history ∧
      w.Keeps ((inEnvironment ctx e).exec w).2 := by
  cases hc : w.contexts[ctx]? with
  | none =>
    rw [exec_inEnvironment_none hc, gained, zero_add]
    exact ⟨h, .refl w⟩
  | some c =>
    have hcontext := h.sound.context ctx c hc
    have hat : Environment.At c.env (w.recorded ctx) c.env (0 + ownedBy ctx held) := by
      rw [zero_add]
      refine ⟨.refl _, hcontext.wellFormed, fun f hf => ?_, hcontext.accounts⟩
      rw [hcontext.place]
      exact (Multiset.mem_filter.1 hf).2
    have hown : Environment.At c.env (w.recorded ctx) (e.exec c.env).2
        (gained post (e.exec c.env).1 + ownedBy ctx held) := by
      have ho := he c.env (w.recorded ctx) c.env (ownedBy ctx held) hat
      rcases hx : e.exec c.env with ⟨x | a, env⟩ <;> rw [hx] at ho
      · rw [gained, zero_add]
        exact ho
      · exact ho
    rw [exec_inEnvironment hc]
    generalize (e.exec c.env).1 = r at hown
    generalize (e.exec c.env).2 = env at hown
    have hrest := hown.follows.rest
    have hdeclared : env.declared = c.env.declared := by rw [hrest]
    have hnew : ∀ f ∈ gained post r, f.owner = ctx := fun f hf =>
      (hown.owned f (Multiset.mem_add.2 (.inl hf))).trans hcontext.place
    have hk : w.Keeps (setEnvironment ctx env w) :=
      keeps_setEnvironment hc hown.id hdeclared hown.follows.terms
    have hgrows : c.env.terms.Grows env.terms := ⟨hown.follows.terms, fun _ => hown.wellFormed⟩
    refine ⟨⟨h.sound.environment hc hown.id (by rw [hrest]) hgrows
      (fun symbol hm => ?_) ?_ (fun f hf => ?_) fun i hi => ?_, h.knows.mono h.sound hk⟩, hk⟩
    · rw [hdeclared] at hm
      obtain ⟨d, hd⟩ := hcontext.declarable symbol hm
      exact ⟨d, hown.follows.terms.declOf hd⟩
    · rw [ownedBy_add held hnew, if_pos rfl]
      exact hown.accounts
    · obtain hf | hf := Multiset.mem_add.1 hf
      · rw [hnew f hf]
        exact (Array.getElem?_eq_some_iff.1 hc).1
      · exact h.sound.owners f hf
    · rw [ownedBy_add held hnew, if_neg hi]

end World
end FormulaStack
