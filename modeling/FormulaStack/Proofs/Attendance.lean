import FormulaStack.Proofs.Mirroring

/-!
Who hears of new symbols. Each stack that is open observes its environment, once; so that it is told
of a new symbol exactly once, unless a watch fails before.
-/
namespace FormulaStack

/-- A stack after it was told of a symbol; a closed one does not listen. -/
def AssertionStack.hears (s : AssertionStack FoldingSolver) (symbol : Symbol) (d : FuncDecl) :
    AssertionStack FoldingSolver :=
  if s.closed then s
  else { s with session := s.session.note [d], levels := s.levels.receive [symbol] }

@[simp] theorem AssertionStack.home_hears (s : AssertionStack FoldingSolver) (symbol : Symbol)
    (d : FuncDecl) : (s.hears symbol d).home = s.home := by
  unfold hears
  split <;> rfl

namespace World

section Observers

variable {σ : Type} {watching : Prop} {w w' : World σ}

/-- The observers of an environment; one that is not there has none. -/
def observersOf (w : World σ) (i : Nat) : List Observer :=
  ((w.contexts[i]?).map (·.env.observers)).getD []

theorem observersOf_eq {i : Nat} {c : Context} (hc : w.contexts[i]? = some c) :
    w.observersOf i = c.env.observers := by
  rw [observersOf, hc]
  rfl

theorem observersOf_setEnvironment {ctx : Nat} {c : Context} {env : Environment}
    (hc : w.contexts[ctx]? = some c) (i : Nat) :
    (setEnvironment ctx env w).observersOf i =
      if i = ctx then env.observers else w.observersOf i := by
  rw [observersOf, context_setEnvironment hc]
  split <;> rfl

/-- Each stack that is open observes its environment, and none does twice. Where no watches come,
nobody else observes it. -/
structure Attended (watching : Prop) (w : World σ) : Prop where
  places : ∀ i id, .stack id ∈ w.observersOf i → id < w.stackTable.size ∧
    ∀ s, w.stack? id = some s → s.home = i
  once : ∀ i id, (w.observersOf i).count (.stack id) ≤ 1
  opened : ∀ id s, w.stack? id = some s → s.closed = false → .stack id ∈ w.observersOf s.home
  unwatched : ¬ watching → ∀ i, ∀ o ∈ w.observersOf i, ∃ id, o = .stack id

/-- Observers that stay, but for watches, and stacks that stay. -/
theorem Attended.stays (h : w.Attended watching)
    (hobservers : ∀ i, w'.observersOf i = w.observersOf i ∨ watching ∧
      ∀ id, (w'.observersOf i).count (.stack id) = (w.observersOf i).count (.stack id))
    (hsize : w.stackTable.size ≤ w'.stackTable.size)
    (hstacks : ∀ id s', w'.stack? id = some s' → ∃ s, w.stack? id = some s ∧
      s'.home = s.home ∧ s'.closed = s.closed) : w'.Attended watching := by
  have hcount : ∀ i id,
      (w'.observersOf i).count (.stack id) = (w.observersOf i).count (.stack id) := by
    intro i id
    obtain heq | ⟨-, hcount⟩ := hobservers i
    · rw [heq]
    · exact hcount id
  have hmem : ∀ {i id}, .stack id ∈ w'.observersOf i ↔ .stack id ∈ w.observersOf i := by
    intro i id
    rw [← List.count_pos_iff, hcount, List.count_pos_iff]
  refine ⟨fun i id ho => ?_, fun i id => ?_, fun id s' hs' ho => ?_, fun hw i o ho => ?_⟩
  · obtain ⟨hid, hhome⟩ := h.places i id (hmem.1 ho)
    refine ⟨hid.trans_le hsize, fun s' hs' => ?_⟩
    obtain ⟨s, hs, hh, -⟩ := hstacks id s' hs'
    exact hh.trans (hhome s hs)
  · rw [hcount]
    exact h.once i id
  · obtain ⟨s, hs, hh, hcl⟩ := hstacks id s' hs'
    rw [hmem, hh]
    exact h.opened id s hs (hcl ▸ ho)
  · obtain heq | ⟨hwatching, -⟩ := hobservers i
    · exact h.unwatched hw i o (heq ▸ ho)
    · exact absurd hwatching hw

theorem Attended.put {id : Nat} {s : AssertionStack σ} {c : Context} {t : Site σ}
    (h : w.Attended watching) (hplace : s.id = id)
    (hs : w.stack? id = some s) (hc : w.contexts[s.home]? = some c)
    (ht : (w.site c s).Remains t) : (w.put id s.home t).Attended watching := by
  have hobservers : ∀ i, (w.put id s.home t).observersOf i =
      if i = s.home then t.env.observers else w.observersOf i := by
    intro i
    rw [observersOf, context_put hc]
    split <;> rfl
  have hold : w.observersOf s.home = c.env.observers := observersOf_eq hc
  have hfewer : ∀ i, ((w.put id s.home t).observersOf i).Sublist (w.observersOf i) := by
    intro i
    rw [hobservers]
    split
    · next hi =>
      rw [hi, hold]
      exact ht.fewer
    · exact .refl _
  have hhome : t.stack.home = s.home := ht.home
  refine ⟨fun i j ho => ?_, fun i j => ?_, fun j s' hs' ho => ?_, fun hw i o ho => ?_⟩
  · obtain ⟨hj, hall⟩ := h.places i j ((hfewer i).subset ho)
    refine ⟨?_, fun s' hs' => ?_⟩
    · rwa [stackTable_put, withStack, Array.size_setIfInBounds]
    rw [stack?_put hs] at hs'
    split at hs'
    · next hji =>
      cases hs'
      rw [hhome]
      exact hall s (hji ▸ hs)
    · exact hall s' hs'
  · exact ((hfewer i).count_le _).trans (h.once i j)
  · rw [hobservers]
    rw [stack?_put hs] at hs'
    split at hs'
    · next hji =>
      subst hji
      cases hs'
      rw [if_pos hhome, ht.opened ho]
      have hmem := h.opened _ s hs (Site.not_closed ht.closed ho)
      rwa [hold] at hmem
    · next hji =>
      -- Another stack is still there, as turns detach none but their own.
      have hmem := h.opened j s' hs' ho
      split
      · next hi =>
        rw [hi, hold] at hmem
        have hcount := ht.observers (.stack j) fun he => hji
          ((Observer.stack.inj he).trans hplace)
        rw [← List.count_pos_iff, hcount]
        exact List.count_pos_iff.2 hmem
      · exact hmem
  · exact h.unwatched hw i o ((hfewer i).subset ho)

theorem Attended.opened_new {ctx : Nat} {c : Context} {s : AssertionStack σ}
    (h : w.Attended watching) (hc : w.contexts[ctx]? = some c) (hhome : s.home = ctx) :
    (w.opened ctx s).Attended watching := by
  have hobservers : ∀ i, (w.opened ctx s).observersOf i =
      if i = ctx then w.observersOf ctx ++ [.stack w.stackTable.size] else w.observersOf i := by
    intro i
    rw [observersOf, context_opened hc, observersOf_eq hc]
    split <;> rfl
  have hmem : ∀ {i o}, o ∈ (w.opened ctx s).observersOf i →
      o ∈ w.observersOf i ∨ i = ctx ∧ o = .stack w.stackTable.size := by
    intro i o ho
    rw [hobservers] at ho
    split at ho
    · next hi =>
      obtain ho | ho := List.mem_append.1 ho
      · exact .inl (hi ▸ ho)
      · exact .inr ⟨hi, List.mem_singleton.1 ho⟩
    · exact .inl ho
  have hsize : (w.opened ctx s).stackTable.size = w.stackTable.size + 1 := Array.size_push _
  refine ⟨fun i j ho => ?_, fun i j => ?_, fun j s' hs' ho => ?_, fun hw i o ho => ?_⟩
  · rw [hsize]
    obtain ho | ⟨hi, ho⟩ := hmem ho
    · obtain ⟨hj, hall⟩ := h.places i j ho
      refine ⟨Nat.lt_succ_of_lt hj, fun s' hs' => hall s' ?_⟩
      rwa [stack?_opened, if_neg hj.ne] at hs'
    · obtain rfl := Observer.stack.inj ho
      refine ⟨Nat.lt_succ_self _, fun s' hs' => ?_⟩
      rw [stack?_opened, if_pos rfl] at hs'
      cases hs'
      exact hhome.trans hi.symm
  · rw [hobservers]
    split
    · rw [List.count_append]
      by_cases hj : j = w.stackTable.size
      · -- The new stack has observed nothing yet.
        have hnew : .stack j ∉ w.observersOf ctx := fun hm => (h.places ctx j hm).1.ne hj
        rw [List.count_eq_zero_of_not_mem hnew, Nat.zero_add]
        exact List.count_le_length
      · rw [List.count_singleton, if_neg (by simpa using Ne.symm hj)]
        exact h.once ctx j
    · exact h.once i j
  · rw [hobservers]
    rw [stack?_opened] at hs'
    split at hs'
    · next hj =>
      cases hs'
      rw [if_pos hhome, hj]
      exact List.mem_append_right _ (List.mem_singleton_self _)
    · have hmem := h.opened j s' hs' ho
      split
      · next hi => exact List.mem_append_left _ (hi ▸ hmem)
      · exact hmem
  · obtain ho | ⟨-, ho⟩ := hmem ho
    · exact h.unwatched hw i o ho
    · exact ⟨_, ho⟩

theorem Attended.setEnvironment {ctx : Nat} {c : Context} {env : Environment}
    (h : w.Attended watching) (hc : w.contexts[ctx]? = some c)
    (he : env.observers = c.env.observers) : (setEnvironment ctx env w).Attended watching := by
  refine h.stays (fun i => .inl ?_) (le_refl _) fun id s hs => ⟨s, hs, rfl, rfl⟩
  rw [observersOf_setEnvironment hc]
  split
  · next hi => rw [hi, observersOf_eq hc, he]
  · rfl

/-- Each stack is where its number says. -/
def Placed (w : World σ) : Prop := ∀ id s, w.stack? id = some s → s.id = id

variable [Session σ] {g : Setting σ} {told : List Incident}

theorem Move.placed (h : Move g w told w') (hp : w.Placed) : w'.Placed := by
  intro j s' hs'
  cases h with
  | site _ hs hc h =>
    rw [stack?_put hs] at hs'
    split at hs'
    · next hj =>
      cases hs'
      rw [(Site.remains_of_trail h).id, hj]
      exact hp _ _ hs
    · exact hp j s' hs'
  | context theories counting announced options notifierOf =>
    rw [stack?, stackTable_addContext] at hs'
    exact hp j s' hs'
  | opened hc _ h interpolating =>
    rw [stack?_opened] at hs'
    split at hs'
    · next hj =>
      cases hs'
      exact hj.symm
    · exact hp j s' hs'
  | dropped _ hs hcl => exact hp j s' (stack?_of_withStack_none hs')
  | reacted reason r =>
    obtain ⟨s, hs, rfl | rfl⟩ := stack?_react hs'
    · exact hp j _ hs
    · exact hp j s hs
  | beside hcontexts hstacks | watched hg hsize hstacks =>
    rw [stack?, hstacks] at hs'
    exact hp j s' hs'
  | _ => exact hp j s' hs'

theorem Move.attended (h : Move g w told w') (hp : w.Placed) (ha : w.Attended g.watching) :
    w'.Attended g.watching := by
  cases h with
  | environment hc h => exact ha.setEnvironment hc (by rw [h.rest])
  | requested _ hc h => exact ha.setEnvironment hc h.observers
  | site _ hs hc h => exact ha.put (hp _ _ hs) hs hc (Site.remains_of_trail h)
  | context theories counting announced options notifierOf =>
    obtain ⟨notifier, hcontexts⟩ :=
      contexts_addContext w theories counting announced options notifierOf
    have htable := stackTable_addContext w theories counting announced options notifierOf
    refine ha.stays (fun i => .inl ?_) (by rw [htable]) fun id s hs => ⟨s, ?_, rfl, rfl⟩
    · rw [observersOf, hcontexts, Array.getElem?_push]
      split
      · next hi =>
        rw [hi, observersOf, Array.getElem?_eq_none (le_refl _)]
        rfl
      · rfl
    · rwa [stack?, htable] at hs
  | @opened ctx c session session' terms hc _ h interpolating =>
    have hset : (setEnvironment ctx { c.env with terms } w).Attended g.watching :=
      ha.setEnvironment hc rfl
    have hc' := (context_setEnvironment hc { c.env with terms } ctx).trans (if_pos rfl)
    exact hset.opened_new hc' rfl
  | unopened hc _ h => exact ha.setEnvironment hc rfl
  | dropped _ hs hcl =>
    exact ha.stays (fun _ => .inl rfl) Array.size_setIfInBounds.ge
      fun id s hs => ⟨s, stack?_of_withStack_none hs, rfl, rfl⟩
  | reacted reason r =>
    refine ha.stays (fun i => .inl (by rw [observersOf, contexts_react]; rfl)) ?_
      fun id s' hs' => ?_
    · cases r with
      | note name => exact le_refl _
      | interrupt id => exact Array.size_modify.ge
    · obtain ⟨s, hs, rfl | rfl⟩ := stack?_react hs'
      · exact ⟨_, hs, rfl, rfl⟩
      · exact ⟨s, hs, rfl, rfl⟩
  | beside hcontexts hstacks haims =>
    refine ha.stays (fun i => .inl (by rw [observersOf, hcontexts]; rfl)) (by rw [hstacks])
      fun id s hs => ⟨s, ?_, rfl, rfl⟩
    rwa [stack?, hstacks] at hs
  | watched hg hsize hstacks haims hcontexts =>
    refine ha.stays (fun i => .inr ⟨hg, fun id => ?_⟩) (by rw [hstacks])
      fun id s hs => ⟨s, ?_, rfl, rfl⟩
    · cases hc' : w'.contexts[i]? with
      | none =>
        have hc : w.contexts[i]? = none := by
          rw [Array.getElem?_eq_none_iff] at hc' ⊢
          rwa [← hsize]
        rw [observersOf, observersOf, hc, hc']
      | some c' =>
        obtain ⟨c, observers, hc, rfl, hcount⟩ := hcontexts i c' hc'
        rw [observersOf_eq hc, observersOf_eq hc']
        exact hcount id
    · rwa [stack?, hstacks] at hs

theorem attended_of_trail (h : Trail (Move g) empty told w) :
    w.Placed ∧ w.Attended g.watching := by
  induction h with
  | refl =>
    have hnone : ∀ id s, (empty : World σ).stack? id ≠ some s := fun id s hs => by
      rw [stack?_eq_some] at hs
      simp [empty] at hs
    refine ⟨fun id s hs => absurd hs (hnone id s), fun i id ho => ?_, fun i id => ?_,
      fun id s hs => absurd hs (hnone id s), fun _ i o ho => ?_⟩
    · simp [observersOf, empty] at ho
    · simp [observersOf, empty]
    · simp [observersOf, empty] at ho
  | tail _ hmove ih => exact ⟨hmove.placed ih.1, hmove.attended ih.1 ih.2⟩

theorem Reached.placed (h : Reached g w) : w.Placed :=
  (attended_of_trail h.exists_trail.choose_spec).1

theorem Reached.attended (h : Reached g w) : w.Attended g.watching :=
  (attended_of_trail h.exists_trail.choose_spec).2

theorem attended_afterAll (events : List (Event σ)) : (afterAll events).Attended True :=
  (reached_afterAll (g := .free) fun e _ => e.allowed_free).attended

end Observers

/-! Publications -/

variable {w w' : World FoldingSolver} {ctx : Nat} {c : Context} {symbol : Symbol} {d : FuncDecl}

/-- A stack of an environment hears of its symbols. -/
theorem exec_tell {id : Nat} (hc : w.contexts[ctx]? = some c)
    (hd : c.env.terms.declOf symbol = .ok d) (hhome : ∀ s, w.stack? id = some s → s.home = ctx) :
    ∃ w', (tell symbol (.stack id)).exec w = (.ok (), w') ∧ w'.contexts = w.contexts ∧
      w'.watches = w.watches ∧
      ∀ j, w'.stack? j = if j = id then (w.stack? j).map (·.hears symbol d) else w.stack? j := by
  unfold tell
  rw [Effect.exec_bind_ok (Effect.exec_get _)]
  cases hs : w.stack? id with
  | none =>
    refine ⟨w, rfl, rfl, rfl, fun j => ?_⟩
    split
    · next hj => rw [hj, hs, Option.map_none]
    · rfl
  | some s =>
    have hcs : w.contexts[s.home]? = some c := by rw [hhome s hs, hc]
    rw [Option.isSome_some, if_pos rfl, exec_atStack hs hcs, Site.exec_symbolRequested hd]
    have hsite : (if (w.site c s).stack.closed then w.site c s
        else (w.site c s).noted [symbol] [d]) = { w.site c s with stack := s.hears symbol d } := by
      unfold AssertionStack.hears
      by_cases hcl : s.closed = true
      · rw [if_pos (show (w.site c s).stack.closed = true from hcl), if_pos hcl]
        rfl
      · rw [if_neg (show ¬ (w.site c s).stack.closed = true from hcl), if_neg hcl]
        rfl
    rw [hsite]
    refine ⟨_, rfl, ?_, watches_put w id s.home _, fun j => ?_⟩
    · rw [contexts_put]
      exact congrArg (·.contexts) (setEnvironment_self hcs)
    · rw [stack?_put hs]
      split
      · next hj => rw [hj, hs, Option.map_some]
      · rfl

/-- Stacks of an environment do not refuse its symbols. -/
theorem exec_tellAll {os : List Observer} (hc : w.contexts[ctx]? = some c)
    (hd : c.env.terms.declOf symbol = .ok d)
    (hos : ∀ o ∈ os, ∃ id, o = .stack id ∧ ∀ s, w.stack? id = some s → s.home = ctx) :
    ∃ w', (os.forM (tell symbol)).exec w = (.ok (), w') := by
  rw [List.forM_eq_forM]
  induction os generalizing w with
  | nil => exact ⟨w, rfl⟩
  | cons o os ih =>
    obtain ⟨id, rfl, hhome⟩ := hos _ List.mem_cons_self
    obtain ⟨u, hu, hcontexts, -, hstack⟩ := exec_tell hc hd hhome
    have hos' : ∀ o ∈ os, ∃ id, o = .stack id ∧ ∀ s, u.stack? id = some s → s.home = ctx := by
      intro o ho
      obtain ⟨j, rfl, hall⟩ := hos o (List.mem_cons_of_mem _ ho)
      refine ⟨j, rfl, fun s hs => ?_⟩
      rw [hstack] at hs
      split at hs
      · obtain ⟨s', hs', rfl⟩ := Option.map_eq_some_iff.1 hs
        rw [AssertionStack.home_hears]
        exact hall s' hs'
      · exact hall s hs
    obtain ⟨v, hv⟩ := ih (hcontexts ▸ hc) hos'
    exact ⟨v, by rw [List.forM_cons, Effect.exec_bind_ok hu]; exact hv⟩

end World
end FormulaStack
