import FormulaStack.Proofs.Precedence

/-!
Rounds, in which the observers of an environment are told of a new symbol one after the other. The
first one that fails ends the round, so that those behind it are not told. What a watch has received
changes in rounds only, and there by the symbol that it is told of.
-/
namespace FormulaStack

namespace World

variable {σ : Type} {w w' : World σ} {symbol : Symbol} {o : Observer} {os : List Observer}

/-- What a watch has received. -/
def received? (w : World σ) (k : Nat) : Option (List Symbol) :=
  (w.watches[k]?.join).map (·.received)

/-- All watches stay as they are. -/
def SameWatches (w w' : World σ) : Prop := w'.watches = w.watches

instance : Std.Refl (SameWatches (σ := σ)) := ⟨fun _ => rfl⟩

instance : IsTrans (World σ) SameWatches := ⟨fun _ _ _ h g => Eq.trans g h⟩

theorem SameWatches.received? (h : w.SameWatches w') (k : Nat) :
    w'.received? k = w.received? k := by
  rw [World.received?, World.received?, h]

theorem inEnvironment_sameWatches {α : Type} (e : Effect Environment α) (ctx : Nat) :
    Effect.Within SameWatches (inEnvironment ctx e : Effect (World σ) α) :=
  inEnvironment_within fun _ _ _ => rfl

theorem atStack_sameWatches {α : Type} (e : Effect (Site σ) α) (id : Nat) :
    Effect.Within SameWatches (atStack id e) :=
  atStack_within fun w _ s _ _ => watches_put w id s.home _

theorem addContext_sameWatches (theories : Theories) (counting announced : Bool)
    (options : Options) (notifierOf : Option Nat) (w : World σ) :
    w.SameWatches (w.addContext theories counting announced options notifierOf) := by
  unfold addContext
  dsimp only
  split <;> rfl

theorem setNotifier_sameWatches (ctx : Nat) (n : Notifier Reaction) (w : World σ) :
    w.SameWatches (setNotifier ctx n w) :=
  watches_setNotifier ctx n w

variable [Session σ]

theorem closeStack_sameWatches (id : Nat) :
    Effect.Within SameWatches (closeStack id : Effect (World σ) Unit) :=
  closeStack_within (atStack_sameWatches _ id)

theorem react_sameWatches (reason : String) (r : Reaction) (w : World σ) :
    w.SameWatches (react reason w r) := by
  cases r <;> rfl

theorem requestStop_sameWatches (ctx : Nat) (reason : String) (w : World σ) :
    w.SameWatches (requestStop ctx reason w) :=
  requestStop_within (setNotifier_sameWatches ctx _ w) (react_sameWatches reason)

theorem listen_sameWatches (ctx : Nat) (r : Reaction) (w : World σ) :
    w.SameWatches (listen ctx r w).2 :=
  listen_within (setNotifier_sameWatches ctx _ w) fun reason w => react_sameWatches reason r w

theorem openStack_sameWatches (ctx : Nat) (session : σ) (interpolating : Bool) :
    Effect.Within SameWatches (openStack ctx session interpolating) := fun _ =>
  openStack_within (fun _ _ _ _ _ _ => rfl) fun _ _ _ _ _ => listen_sameWatches ctx _ _

theorem newStack_sameWatches (ctx : Nat) (session : σ) (interpolating : Bool) :
    Effect.Within SameWatches (newStack ctx session interpolating) := fun w =>
  newStack_within (openStack_sameWatches ctx session interpolating w)

theorem dropStack_sameWatches (id : Nat) (w : World σ) : w.SameWatches (w.dropStack id) :=
  dropStack_within (closeStack_sameWatches id w) fun _ => rfl

/-! Rounds -/

theorem respond_sameWatches (watch : Watch) :
    Effect.Within SameWatches (respond watch : Effect (World σ) Unit) :=
  respond_within fun stack _ => closeStack_sameWatches stack

omit [Session σ] in
theorem received?_receiving {k : Nat} {watch : Watch} (hwatch : w.watches[k]?.join = some watch)
    (symbol : Symbol) (j : Nat) : (w.receiving k watch symbol).received? j =
      (w.received? j).map (· ++ if j = k then [symbol] else []) := by
  obtain ⟨hk, -⟩ := Array.getElem?_eq_some_iff.1 (Option.join_eq_some_iff.1 hwatch)
  rw [received?, receiving, Array.getElem?_setIfInBounds]
  split
  · next hj =>
    subst hj
    rw [received?, hwatch, if_pos rfl]
    rfl
  · next hj =>
    rw [if_neg (Ne.symm hj)]
    simp [received?, Function.comp_def]

/-- Who is told has received the symbol, if it is a watch, whether it fails or not. -/
theorem received?_tell (symbol : Symbol) (o : Observer) (w : World σ) (k : Nat) :
    ((tell symbol o).exec w).2.received? k =
      (w.received? k).map (· ++ if o = .watch k then [symbol] else []) := by
  cases o with
  | stack id =>
    have hsame : w.SameWatches ((tell symbol (.stack id)).exec w).2 := by
      unfold tell
      rw [Effect.exec_bind_ok (Effect.exec_get _)]
      split
      · exact atStack_sameWatches _ id w
      · rfl
    rw [hsame.received?, if_neg (by intro h; cases h)]
    simp
  | watch j =>
    cases hwatch : w.watches[j]?.join with
    | none =>
      rw [exec_tell_nobody hwatch]
      by_cases hj : j = k
      · subst hj
        rw [received?, hwatch]
        rfl
      · rw [if_neg fun h => hj (Observer.watch.inj h)]
        simp
    | some watch =>
      rw [exec_tell_watch hwatch, (respond_sameWatches watch _).received?,
        received?_receiving hwatch]
      simp [eq_comm]

theorem size_watches_tell (symbol : Symbol) (o : Observer) :
    Effect.Within (fun w w' : World σ => w'.watches.size = w.watches.size) (tell symbol o) := by
  intro w
  cases o with
  | stack id =>
    unfold tell
    rw [Effect.exec_bind_ok (Effect.exec_get _)]
    split
    · exact congrArg Array.size (atStack_sameWatches _ id w)
    · rfl
  | watch k =>
    cases hwatch : w.watches[k]?.join with
    | none => rw [exec_tell_nobody hwatch]
    | some watch =>
      rw [exec_tell_watch hwatch]
      exact (congrArg Array.size (respond_sameWatches watch _)).trans Array.size_setIfInBounds

/-- Those of some observers who are told of a symbol: all up to the first one that fails. -/
def told (symbol : Symbol) : List Observer → World σ → List Observer
  | [], _ => []
  | o :: os, w =>
    o :: if ((tell symbol o).exec w).1.isOk then told symbol os ((tell symbol o).exec w).2 else []

theorem prefix_told (symbol : Symbol) (os : List Observer) (w : World σ) :
    told symbol os w <+: os := by
  induction os generalizing w with
  | nil => exact List.prefix_rfl
  | cons o os ih =>
    rw [told, List.prefix_cons_inj]
    split
    · exact ih _
    · exact List.nil_prefix

/-- Of a round that succeeds all are told. -/
theorem told_eq_of_ok (h : ((os.forM (tell symbol)).exec w).1 = .ok ()) :
    told symbol os w = os := by
  rw [List.forM_eq_forM] at h
  induction os generalizing w with
  | nil => rfl
  | cons o os ih =>
    rw [List.forM_cons, Effect.exec_bind] at h
    rw [told]
    rcases hx : (tell symbol o).exec w with ⟨x | _, u⟩ <;> rw [hx] at h
    · cases h
    · exact congrArg (o :: ·) (ih h)

/-- In a round a watch receives the symbol as often as it is told. -/
theorem received?_round (symbol : Symbol) (os : List Observer) (w : World σ) (k : Nat) :
    ((os.forM (tell symbol)).exec w).2.received? k =
      (w.received? k).map (· ++ List.replicate ((told symbol os w).count (.watch k)) symbol) := by
  have hreplicate : ∀ o : Observer, (if o = .watch k then [symbol] else []) =
      List.replicate ([o].count (.watch k)) symbol := fun o => by
    rw [List.count_singleton]
    by_cases ho : o = .watch k <;> simp [ho]
  rw [List.forM_eq_forM]
  induction os generalizing w with
  | nil => simp [told]
  | cons o os ih =>
    have hfirst := received?_tell symbol o w k
    rw [List.forM_cons, Effect.exec_bind, told]
    rcases hx : (tell symbol o).exec w with ⟨x | _, u⟩ <;> rw [hx] at hfirst <;> dsimp only
    · rw [hfirst, hreplicate]
      rfl
    · have hok : (Except.ok () : Except Fault Unit).isOk = true := rfl
      have hcons : o :: told symbol os u = [o] ++ told symbol os u := rfl
      rw [ih, hfirst, hreplicate, Option.map_map, if_pos hok, hcons, List.count_append,
        ← List.replicate_append_replicate]
      simp only [Function.comp_def, List.append_assoc]

theorem received?_publish {ctx : Nat} {c : Context} (hc : w.contexts[ctx]? = some c)
    (symbol : Symbol) (k : Nat) : ((publish ctx symbol).exec w).2.received? k =
      (w.received? k).map
        (· ++ List.replicate ((told symbol (w.observersOf ctx) w).count (.watch k)) symbol) := by
  unfold publish
  rw [Effect.exec_bind_ok (exec_context hc), received?_round, observersOf_eq hc]

theorem size_watches_publish (ctx : Nat) (symbol : Symbol) :
    Effect.Within (fun w w' : World σ => w'.watches.size = w.watches.size)
      (publish ctx symbol) := by
  have : Std.Refl fun w w' : World σ => w'.watches.size = w.watches.size := ⟨fun _ => rfl⟩
  have : IsTrans (World σ) fun w w' => w'.watches.size = w.watches.size :=
    ⟨fun _ _ _ h g => g.trans h⟩
  exact publish_within (size_watches_tell symbol)

end World

end FormulaStack
