import FormulaStack.Proofs.Rounds

/-!
What watches have heard of. A watch observes an environment once at most, from when it came until it
is removed or dropped. It has received the symbols of the requests that were the first of their kind
while it observed, in their order, but for those whose round ended before it was told.
-/
namespace FormulaStack

/-- Watches neither come nor go. -/
def Setting.steady {σ : Type} : Setting σ := ⟨fun _ => True, fun _ => True, True, False⟩

namespace World

section Observing

variable {σ : Type} [Session σ] {g : Setting σ} {w w' : World σ}

theorem Move.count_watch {more : List Incident} (h : Move g w more w') (hg : ¬ g.watching)
    (i k : Nat) : (w'.observersOf i).count (.watch k) = (w.observersOf i).count (.watch k) := by
  have hset : ∀ {ctx : Nat} {c : Context} {env : Environment}, w.contexts[ctx]? = some c →
      env.observers.count (.watch k) = c.env.observers.count (.watch k) →
        ((setEnvironment ctx env w).observersOf i).count (.watch k) =
          (w.observersOf i).count (.watch k) := by
    intro ctx c env hc hcount
    rw [observersOf_setEnvironment hc]
    split
    · next hi => rw [hi, observersOf_eq hc, hcount]
    · rfl
  have hsame : ∀ {w'' : World σ}, w''.contexts = w.contexts →
      (w''.observersOf i).count (.watch k) = (w.observersOf i).count (.watch k) :=
    fun hcontexts => by rw [observersOf, hcontexts]; rfl
  cases h with
  | environment hc h => exact hset hc (by rw [h.rest])
  | requested _ hc h => exact hset hc (by rw [h.observers])
  | unopened hc _ h => exact hset hc rfl
  | @site id s c _ t _ hs hc h =>
    rw [observersOf, context_put hc]
    split
    · next hi =>
      rw [hi, observersOf_eq hc]
      exact (Site.remains_of_trail h).observers _ (by intro hw; cases hw)
    · rfl
  | context theories counting announced options notifierOf =>
    obtain ⟨notifier, hcontexts⟩ :=
      contexts_addContext w theories counting announced options notifierOf
    rw [observersOf, hcontexts, Array.getElem?_push]
    split
    · next hi =>
      rw [hi, observersOf, Array.getElem?_eq_none (le_refl _)]
      rfl
    · rfl
  | @opened ctx c session session' terms hc _ h interpolating =>
    have hc' := (context_setEnvironment hc { c.env with terms } ctx).trans (if_pos rfl)
    rw [observersOf, context_opened hc', context_setEnvironment hc]
    split
    · next hi =>
      rw [hi, observersOf_eq hc]
      simp [observedBy]
    · rfl
  | dropped => exact hsame rfl
  | reacted reason r => exact hsame (contexts_react reason w r)
  | beside hcontexts => exact hsame hcontexts
  | watched hw => exact absurd hw hg

theorem Reaches.count_watch (h : w.Reaches g w') (hg : ¬ g.watching) (i k : Nat) :
    (w'.observersOf i).count (.watch k) = (w.observersOf i).count (.watch k) := by
  obtain ⟨more, h⟩ := h
  induction h with
  | refl => rfl
  | tail _ hmove ih => exact (hmove.count_watch hg i k).trans ih

/-- Only watches that have come observe an environment, and none does twice. -/
def Numbered (w : World σ) : Prop :=
  ∀ i k, (w.observersOf i).count (.watch k) ≤ if k < w.watches.size then 1 else 0

end Observing

end World

namespace Event

variable {σ : Type} [Session σ] {w : World σ}

/-- Where watches neither come nor go, and nothing is requested, they stay as they are. -/
theorem sameWatches (e : Event σ) (hr : e.request? = none) (ha : e.Allowed .steady) (w : World σ) :
    w.SameWatches (e.after w) := by
  cases e with
  | addContext theories counting announced options notifierOf =>
    exact World.addContext_sameWatches theories counting announced options notifierOf w
  | build ctx constructor => exact World.inEnvironment_sameWatches _ ctx w
  | wrap ctx type t => exact World.inEnvironment_sameWatches _ ctx w
  | wrapBool ctx t => exact World.inEnvironment_sameWatches _ ctx w
  | cleanUp ctx => exact World.inEnvironment_sameWatches _ ctx w
  | retain | discard => rfl
  | constant | function => cases hr
  | openStack ctx session interpolating => exact World.openStack_sameWatches ctx session _ w
  | newStack ctx session interpolating => exact World.newStack_sameWatches ctx session _ w
  | atStack id operation => exact World.atStack_sameWatches _ id w
  | search id important => exact World.atStack_sameWatches _ id w
  | block id negations => exact World.atStack_sameWatches _ id w
  | dropStack id => exact World.dropStack_sameWatches id w
  | requestStop ctx reason => exact World.requestStop_sameWatches ctx reason w
  | listen ctx reaction => exact World.listen_sameWatches ctx reaction w
  | unlisten ctx id => exact World.setNotifier_sameWatches ctx _ w
  | addWatch => exact ha.1.elim
  | aimWatch => exact ha.1.elim
  | removeWatch | dropWatch => exact ha.elim

/-- Without a request a watch receives nothing; a new one has received nothing. -/
theorem received?_after (e : Event σ) (hr : e.request? = none) {k : Nat} {received : List Symbol}
    (h : (e.after w).received? k = some received) :
    w.received? k = some received ∨ w.watches.size ≤ k ∧ received = [] := by
  have hsteady : e.Allowed .steady →
      w.received? k = some received ∨ w.watches.size ≤ k ∧ received = [] := fun ha =>
    .inl ((e.sameWatches hr ha w).received? k ▸ h)
  cases e with
  | constant | function => cases hr
  | addWatch ctx closes fails =>
    rw [World.received?, after, World.addWatch, Array.getElem?_push] at h
    split at h
    · next hk =>
      cases h
      exact .inr ⟨hk.ge, rfl⟩
    · exact .inl h
  | removeWatch ctx id => exact .inl h
  | aimWatch id stack =>
    rw [World.received?, after, World.aimWatch, Array.getElem?_modify] at h
    split at h
    · next hk =>
      subst hk
      refine .inl ?_
      rw [World.received?, ← h]
      rcases w.watches[id]? with _ | _ | watch <;> rfl
    · exact .inl h
  | dropWatch id =>
    rw [World.received?, after, World.dropWatch, Array.getElem?_setIfInBounds] at h
    split at h
    · split at h <;> cases h
    · exact .inl h
  | _ => exact hsteady trivial

end Event

namespace SymbolRequest

variable {σ : Type} [Session σ]

/-- What follows a request in its event concerns no watch. -/
theorem event_sameWatches (r : SymbolRequest) (ctx : Nat) (w : World σ) :
    ((r.make ctx).exec w).2.SameWatches ((r.event ctx).after w) :=
  r.after_event_of (fun _ _ => World.inEnvironment_sameWatches _ ctx) w

theorem size_watches_after (r : SymbolRequest) (ctx : Nat) (w : World σ) :
    ((r.event ctx).after w).watches.size = w.watches.size := by
  rw [r.event_sameWatches ctx w]
  obtain ⟨hsame, -⟩ | ⟨c, symbol, env, hc, -, hx⟩ := r.make_cases ctx w
  · rw [hsame]
  · rw [hx]
    exact World.size_watches_publish ctx symbol _

end SymbolRequest

namespace World

section Numbers

variable {σ : Type} {w w' : World σ}

theorem observersOf_modify {ctx : Nat} {f : List Observer → List Observer}
    (hcontexts : w'.contexts = w.contexts.modify ctx fun c =>
      { c with env := { c.env with observers := f c.env.observers } }) (i : Nat) :
    w'.observersOf i = w.observersOf i ∨ w'.observersOf i = f (w.observersOf i) := by
  cases hc : w.contexts[i]? with
  | none =>
    refine .inl ?_
    rw [observersOf, observersOf, hcontexts, Array.getElem?_modify, hc]
    split <;> rfl
  | some c =>
    rw [observersOf, hcontexts, Array.getElem?_modify, observersOf_eq hc, hc]
    split
    · exact .inr rfl
    · exact .inl rfl

variable [Session σ]

theorem size_watches_after (e : Event σ) (w : World σ) :
    w.watches.size ≤ (e.after w).watches.size := by
  cases hr : e.request? with
  | some p =>
    obtain rfl := Event.request?_eq_some.1 hr
    exact (p.2.size_watches_after p.1 w).ge
  | none =>
    have hsteady : e.Allowed .steady → w.watches.size ≤ (e.after w).watches.size :=
      fun ha => (congrArg Array.size (e.sameWatches hr ha w)).ge
    cases e with
    | constant | function => cases hr
    | addWatch => exact (Nat.le_succ _).trans_eq (Array.size_push _).symm
    | removeWatch => exact le_refl _
    | aimWatch => exact Array.size_modify.ge
    | dropWatch => exact Array.size_setIfInBounds.ge
    | _ => exact hsteady trivial

theorem Numbered.after (h : w.Numbered) (hw : w.Housed) (e : Event σ) : (e.after w).Numbered := by
  have hfewer : ∀ {w' : World σ}, w.watches.size ≤ w'.watches.size →
      (∀ i k, (w'.observersOf i).count (.watch k) ≤ (w.observersOf i).count (.watch k)) →
        w'.Numbered := by
    intro w' hsize hcount i k
    refine (hcount i k).trans ((h i k).trans ?_)
    split <;> split <;> omega
  have hfilter : ∀ (observers : List Observer) (id k : Nat),
      (observers.filter (· ≠ .watch id)).count (.watch k) ≤ observers.count (.watch k) :=
    fun _ _ _ => List.filter_sublist.count_le _
  have hsize := size_watches_after e w
  have hsteady : e.Allowed .steady → (e.after w).Numbered := fun ha =>
    hfewer hsize fun i k => ((e.reaches ha hw).count_watch not_false i k).le
  cases e with
  | constant | function => exact hsteady ⟨trivial, fun _ => trivial⟩
  | addWatch ctx closes fails =>
    intro i k
    have hnew : (w.addWatch ctx closes fails).2.watches.size = w.watches.size + 1 :=
      Array.size_push _
    have hobservers : (w.addWatch ctx closes fails).2.observersOf i = w.observersOf i ∨
        (w.addWatch ctx closes fails).2.observersOf i =
          w.observersOf i ++ [.watch w.watches.size] :=
      observersOf_modify (f := (· ++ [.watch w.watches.size])) rfl i
    have hk := h i k
    change ((w.addWatch ctx closes fails).2.observersOf i).count (.watch k) ≤
      if k < (w.addWatch ctx closes fails).2.watches.size then 1 else 0
    rw [hnew]
    -- The new watch has the next number, under which nobody observes.
    have hone : [Observer.watch w.watches.size].count (.watch k) =
        if w.watches.size = k then 1 else 0 := by
      rw [List.count_singleton]
      simp
    obtain hi | hi := hobservers <;> rw [hi]
    · split at hk <;> split <;> omega
    · rw [List.count_append, hone]
      split at hk <;> split <;> split <;> omega
  | removeWatch ctx id =>
    refine hfewer hsize fun i k => ?_
    have hobservers : (w.removeWatch ctx id).observersOf i = w.observersOf i ∨
        (w.removeWatch ctx id).observersOf i = (w.observersOf i).filter (· ≠ .watch id) :=
      observersOf_modify (f := (·.filter (· ≠ .watch id))) rfl i
    obtain hi | hi := hobservers
    · exact (congrArg _ hi).le
    · exact (congrArg _ hi).trans_le (hfilter _ id k)
  | aimWatch => exact hfewer hsize fun _ _ => le_refl _
  | dropWatch id =>
    refine hfewer hsize fun i k => ?_
    have hi : (w.dropWatch id).observersOf i = (w.observersOf i).filter (· ≠ .watch id) := by
      rw [observersOf, dropWatch, Array.getElem?_map]
      cases hc : w.contexts[i]? with
      | none => rw [observersOf, hc]; rfl
      | some c => rw [observersOf_eq hc]; rfl
    exact (congrArg _ hi).trans_le (hfilter _ id k)
  | _ => exact hsteady trivial

end Numbers

/-! What was heard -/

section Heard

variable {σ : Type} [Session σ] {w : World σ}

/-- Who is told of the symbol that a request makes. -/
def audience (w : World σ) (p : Nat × SymbolRequest) : List Observer :=
  ((inEnvironment p.1 (Environment.request p.2)).exec w).1.toOption.elim [] fun found =>
    told found.1 (w.observersOf p.1) ((inEnvironment p.1 (Environment.request p.2)).exec w).2

theorem prefix_audience (w : World σ) (p : Nat × SymbolRequest) :
    w.audience p <+: w.observersOf p.1 := by
  unfold audience
  cases ((inEnvironment p.1 (Environment.request p.2)).exec w).1.toOption with
  | none => exact List.nil_prefix
  | some found => exact prefix_told _ _ _

/-- The request of an event, if it can be met and has not been made before, and an observer is told
of its symbol. -/
def heard? (w : World σ) (asked : List (Nat × SymbolRequest)) (e : Event σ) (o : Observer) :
    Option (Nat × SymbolRequest) :=
  (e.news? w asked).filter fun p => o ∈ w.audience p

/-- The first requests that an observer was told of. The latest event comes first. -/
def heardIn (o : Observer) : List (Event σ) → List (Nat × SymbolRequest)
  | [] => []
  | e :: earlier =>
    heardIn o earlier ++ ((afterAll earlier.reverse).heard? (askedIn earlier) e o).toList

/-- The first requests that an observer was told of, in their order. -/
def heard (o : Observer) (events : List (Event σ)) : List (Nat × SymbolRequest) :=
  heardIn o events.reverse

theorem heard_concat (o : Observer) (events : List (Event σ)) (e : Event σ) :
    heard o (events ++ [e]) =
      heard o events ++ ((afterAll events).heard? (firstRequests events) e o).toList := by
  rw [heard, List.reverse_append, List.reverse_singleton, List.singleton_append, heardIn,
    List.reverse_reverse]
  rfl

/-- They are some of all first requests, in the same order. -/
theorem heard_sublist (o : Observer) (events : List (Event σ)) :
    (heard o events).Sublist (firstRequests events) := by
  induction events using List.reverseRecOn with
  | nil => exact List.nil_sublist _
  | append_singleton events e ih =>
    rw [heard_concat, firstRequests_concat, heard?]
    refine ih.append ?_
    cases e.news? (afterAll events) (firstRequests events) with
    | none => exact .refl _
    | some p =>
      rw [Option.filter_some]
      split
      · exact .refl _
      · exact List.nil_sublist _

theorem numbered_afterAll (events : List (Event σ)) : (afterAll events).Numbered := by
  induction events using List.reverseRecOn with
  | nil => exact fun i k => (List.count_nil.trans (by rfl)).le
  | append_singleton events e ih =>
    rw [afterAll_concat]
    exact ih.after (housed_afterAll events) e

end Heard

variable {w : World FoldingSolver} {e : Event FoldingSolver} {p : Nat × SymbolRequest}
  {c : Context} {symbol : Symbol} {env : Environment}

theorem Introduces.audience (h : w.Introduces e p c symbol env) :
    w.audience p = told symbol (w.observersOf p.1) (setEnvironment p.1 env w) := by
  rw [World.audience, h.found]
  rfl

theorem Introduces.observersOf (h : w.Introduces e p c symbol env) (i : Nat) :
    (setEnvironment p.1 env w).observersOf i = w.observersOf i := by
  obtain ⟨d, hd⟩ := h.makes.declares
  rw [observersOf_setEnvironment h.context]
  split
  · next hi => rw [hi, hd.observers, observersOf_eq h.context]
  · rfl

/-- A watch that is told of a new symbol receives it, no other one does. -/
theorem Introduces.received? (h : w.Introduces e p c symbol env) (hw : w.Numbered) (k : Nat) :
    (e.after w).received? k =
      (w.received? k).map (· ++ if .watch k ∈ w.audience p then [symbol] else []) := by
  obtain rfl := Event.request?_eq_some.1 h.request
  have hc := (context_setEnvironment h.context env p.1).trans (if_pos rfl)
  rw [(p.2.event_sameWatches p.1 w).received?, h.made, received?_publish hc, h.observersOf,
    ← h.audience]
  have honce : (w.audience p).count (.watch k) ≤ 1 :=
    ((w.prefix_audience p).sublist.count_le _).trans ((hw p.1 k).trans (by split <;> omega))
  change (w.received? k).map _ = _
  split
  · next hm =>
    have hpos := List.count_pos_iff.2 hm
    rw [show (w.audience p).count (.watch k) = 1 by omega]
    rfl
  · next hm =>
    rw [List.count_eq_zero_of_not_mem hm]
    rfl

/-- Whatever happens, a watch that is there has received the symbols of the first requests that it
was told of, in their order. -/
theorem received_afterAll (events : List (Event FoldingSolver)) (k : Nat) :
    ((afterAll events).watches.size ≤ k → heard (.watch k) events = []) ∧
      ∀ received, (afterAll events).received? k = some received →
        received.map some = (heard (.watch k) events).map (afterAll events).symbolOf? := by
  induction events using List.reverseRecOn with
  | nil => exact ⟨fun _ => rfl, fun received h => by cases h⟩
  | append_singleton events e ih =>
    obtain ⟨hlate, hreceived⟩ := ih
    have hsize := size_watches_after e (afterAll events)
    have hnumbered := numbered_afterAll events
    rw [heard_concat, afterAll_concat, heard?]
    obtain ⟨hnone, hunasked, hfinds⟩ | ⟨p, c, symbol, env, hnews, hfresh, hnew⟩ :=
      (chronicled_afterAll events).cases (housed_afterAll events) (registered_afterAll events) e
    · rw [hnone, symbolOf?_unasked hunasked, Option.filter_none, Option.toList_none,
        List.append_nil]
      refine ⟨fun hk => hlate (hsize.trans hk), fun received h => ?_⟩
      cases hr : e.request? with
      | none =>
        obtain h | ⟨hk, rfl⟩ := e.received?_after hr h
        · exact hreceived received h
        · rw [hlate hk]
          rfl
      | some p =>
        obtain rfl := Event.request?_eq_some.1 hr
        rw [(p.2.event_sameWatches p.1 _).received?, (hfinds p hr).same] at h
        exact hreceived received h
    · rw [hnews, Option.filter_some, hnew.received? hnumbered]
      have hold := hnew.map_symbolOf? fun h => hfresh ((heard_sublist (.watch k) events).subset h)
      refine ⟨fun hk => ?_, fun received h => ?_⟩
      · have hnever : .watch k ∉ (afterAll events).audience p := fun hm => by
          have hcount := List.count_pos_iff.2 (((prefix_audience _ p).subset) hm)
          have hle := hnumbered p.1 k
          rw [if_neg (by omega)] at hle
          omega
        simp [hlate (hsize.trans hk), hnever]
      · obtain ⟨before, hbefore, rfl⟩ := Option.map_eq_some_iff.1 h
        rw [List.map_append, List.map_append, hreceived before hbefore, hold]
        congr 1
        by_cases hm : .watch k ∈ (afterAll events).audience p <;> simp [hm, hnew.symbolOf?]

end World

end FormulaStack
