import FormulaStack.Environment
import FormulaStack.Proofs.Effects
import Mathlib.Algebra.Order.Group.Multiset

/-!
Accounts of references. What a backend counts for a term is what the owners of references have: the
registrations in the queue, and the terms kept outside of wrappers. A registration has as many
holders as there are copies of its wrapper.
-/
namespace FormulaStack

namespace Handles

theorem lookup_filter_ne (l : List (Term × Nat)) (t u : Term) :
    (l.filter (·.1 ≠ t)).lookup u = if u = t then none else l.lookup u := by
  induction l with
  | nil => simp
  | cons x l ih =>
    obtain ⟨v, n⟩ := x
    by_cases hv : v = t
    · subst hv
      by_cases hu : u = v
      · simpa [hu] using ih
      · simpa [hu, List.lookup_cons, beq_eq_false_iff_ne.2 hu] using ih
    · by_cases hu : u = v
      · subst hu
        simp [hv]
      · simp only [ne_eq, decide_not] at ih
        simp [hv, List.lookup_cons, beq_eq_false_iff_ne.2 hu, ih]

variable {h : Handles} {t u : Term}

theorem count_erased (h : Handles) (t u : Term) :
    ({ h with counts := h.counts.filter (·.1 ≠ t) }).count u = if u = t then 0 else h.count u := by
  unfold count
  rw [lookup_filter_ne]
  split <;> rfl

theorem count_put (h : Handles) (t u : Term) (n : Nat) :
    ({ h with counts := (t, n) :: h.counts.filter (·.1 ≠ t) }).count u =
      if u = t then n else h.count u := by
  unfold count
  by_cases hu : u = t
  · subst hu
    simp
  · rw [List.lookup_cons, beq_eq_false_iff_ne.2 hu, lookup_filter_ne, if_neg hu, if_neg hu]

theorem count_increment (hc : h.counting = true) :
    (h.increment t).count u = h.count u + if u = t then 1 else 0 := by
  unfold increment
  rw [if_pos hc, count_put]
  split
  · next hu => rw [hu]
  · rfl

theorem count_decrement (hc : h.counting = true) (ht : h.count t ≠ 0) :
    (h.decrement t).count u + (if u = t then 1 else 0) = h.count u ∧
      (h.decrement t).underflows = h.underflows := by
  unfold decrement
  rw [if_pos hc]
  split
  · contradiction
  · next h1 =>
    rw [count_erased]
    split
    · next hu => exact ⟨by rw [hu, h1], rfl⟩
    · exact ⟨rfl, rfl⟩
  · next n _ hn =>
    rw [count_put]
    split
    · next hu => exact ⟨by rw [hu, hn], rfl⟩
    · exact ⟨rfl, rfl⟩

/-- What neither direction of counting touches. -/
structure SameQueue (h g : Handles) : Prop where
  counting : g.counting = h.counting
  tracking : g.tracking = h.tracking
  queue : g.queue = h.queue
  nextTicket : g.nextTicket = h.nextTicket

theorem SameQueue.refl (h : Handles) : h.SameQueue h := ⟨rfl, rfl, rfl, rfl⟩

theorem SameQueue.trans {g k : Handles} (hg : h.SameQueue g) (gk : g.SameQueue k) :
    h.SameQueue k :=
  ⟨gk.counting.trans hg.counting, gk.tracking.trans hg.tracking, gk.queue.trans hg.queue,
    gk.nextTicket.trans hg.nextTicket⟩

theorem sameQueue_increment (h : Handles) (t : Term) : h.SameQueue (h.increment t) := by
  unfold increment
  split <;> exact ⟨rfl, rfl, rfl, rfl⟩

theorem sameQueue_decrement (h : Handles) (t : Term) : h.SameQueue (h.decrement t) := by
  unfold decrement
  split
  · split <;> exact ⟨rfl, rfl, rfl, rfl⟩
  · exact .refl h

theorem sameQueue_hold (h : Handles) (t : Term) : h.SameQueue (h.hold t) := by
  unfold hold
  split
  · exact sameQueue_increment h t
  · exact .refl h

theorem sameQueue_release (h : Handles) (t : Term) : h.SameQueue (h.release t) := by
  unfold release
  split
  · exact sameQueue_decrement h t
  · exact .refl h

/-- The references that were taken and not given back. -/
structure Covers (h : Handles) (owed : Multiset Term) : Prop where
  count : h.counting = true → ∀ t, h.count t = owed.count t
  underflows : h.underflows = 0

theorem Covers.of_eq {g : Handles} {owed : Multiset Term} (hg : g.Covers owed)
    (hc : h.counting = g.counting) (ht : h.counts = g.counts) (hu : h.underflows = g.underflows) :
    h.Covers owed := by
  refine ⟨fun hh t => ?_, hu.trans hg.underflows⟩
  rw [← hg.count (hc ▸ hh) t, Handles.count, Handles.count, ht]

theorem Covers.increment {owed : Multiset Term} (hh : h.Covers owed) :
    (h.increment t).Covers (t ::ₘ owed) := by
  constructor
  · intro hc u
    rw [(sameQueue_increment h t).counting] at hc
    rw [count_increment hc, hh.count hc, Multiset.count_cons]
  · unfold Handles.increment
    split <;> exact hh.underflows

theorem Covers.decrement {owed : Multiset Term} (hh : h.Covers (t ::ₘ owed)) :
    (h.decrement t).Covers owed := by
  by_cases hc : h.counting = true
  · have hne : h.count t ≠ 0 := by
      rw [hh.count hc, Multiset.count_cons_self]
      exact Nat.succ_ne_zero _
    refine ⟨fun _ u => ?_, (count_decrement (u := t) hc hne).2.trans hh.underflows⟩
    have hu := (count_decrement (u := u) hc hne).1
    rw [hh.count hc, Multiset.count_cons] at hu
    exact Nat.add_right_cancel hu
  · have hd : h.decrement t = h := if_neg hc
    rw [hd]
    exact ⟨fun hh => absurd hh hc, hh.underflows⟩

/-- All references of a list are given back. -/
theorem Covers.foldl_decrement {owed : Multiset Term} {ts : List Term}
    (hh : h.Covers ((ts : Multiset Term) + owed)) : (ts.foldl Handles.decrement h).Covers owed := by
  induction ts generalizing h with
  | nil => simpa using hh
  | cons t ts ih =>
    rw [← Multiset.cons_coe, Multiset.cons_add] at hh
    exact ih hh.decrement

theorem sameQueue_foldl (h : Handles) (ts : List Term) :
    h.SameQueue (ts.foldl Handles.decrement h) := by
  induction ts generalizing h with
  | nil => exact .refl h
  | cons t ts ih => exact (sameQueue_decrement h t).trans (ih _)

/-- The terms that are registered. -/
def registered (h : Handles) : Multiset Term := (h.queue.map (·.term) : List Term)

/-- The queue and the keepers of `kept` have all references. -/
def Balanced (h : Handles) (kept : Multiset Term) : Prop :=
  h.tracking = true → h.Covers (h.registered + kept)

theorem registered_filter (h : Handles) (p : Registration → Bool) :
    h.registered = ((h.queue.filter (!p ·)).map (·.term) : List Term) +
      (((h.queue.filter p).map (·.term) : List Term) : Multiset Term) := by
  unfold registered
  rw [Multiset.coe_add, Multiset.coe_eq_coe, ← List.map_append]
  exact ((List.perm_append_comm.trans (List.filter_append_perm p h.queue)).map _).symm

variable {kept : Multiset Term}

theorem Balanced.hold (hb : h.Balanced kept) : (h.hold t).Balanced (t ::ₘ kept) := by
  intro ht
  have hs := sameQueue_hold h t
  rw [hs.tracking] at ht
  rw [registered, hs.queue, ← registered, Multiset.add_cons, Handles.hold, if_pos ht]
  exact (hb ht).increment

theorem Balanced.release (hb : h.Balanced (t ::ₘ kept)) : (h.release t).Balanced kept := by
  intro ht
  have hs := sameQueue_release h t
  rw [hs.tracking] at ht
  rw [registered, hs.queue, ← registered, Handles.release, if_pos ht]
  have hc := hb ht
  rw [Multiset.add_cons] at hc
  exact hc.decrement

/-- The queue without the registrations of wrappers that are gone. -/
def settled (h : Handles) : Handles := { h with queue := h.queue.filter (·.holders != 0) }

/-- The registered terms whose wrappers are gone. -/
def gone (h : Handles) : List Term := (h.queue.filter (!·.holders != 0)).map (·.term)

theorem drain_eq (h : Handles) : h.drain.2 = h.gone.foldl decrement h.settled := by
  have hgone : h.queue.filter (!·.holders != 0) = h.queue.filter (·.holders == 0) := by
    refine List.filter_congr fun r _ => ?_
    rw [bne, Bool.not_not]
  rw [gone, List.foldl_map, hgone]
  rfl

theorem sameQueue_drain (h : Handles) : h.settled.SameQueue h.drain.2 := by
  rw [drain_eq]
  exact sameQueue_foldl _ _

theorem Balanced.drain (hb : h.Balanced kept) : h.drain.2.Balanced kept := by
  intro ht
  have hs := sameQueue_drain h
  have hc := hb (hs.tracking.symm.trans ht)
  rw [registered_filter h (·.holders != 0), add_assoc] at hc
  rw [registered, hs.queue, drain_eq]
  exact Covers.foldl_decrement (hc.of_eq rfl rfl rfl)

/-- A registration goes to the end of what a drain leaves. -/
theorem register_tracking (ht : h.tracking = true) (t : Term) :
    h.register t = (some h.nextTicket,
      { h.drain.2.increment t with
        queue := h.settled.queue ++ [⟨h.nextTicket, t, 1⟩]
        nextTicket := h.nextTicket + 1 }) := by
  have hs := (sameQueue_drain h).trans (sameQueue_increment _ t)
  have hn : (h.drain.2.increment t).nextTicket = h.nextTicket := hs.nextTicket
  unfold Handles.register
  rw [if_pos ht]
  dsimp only
  rw [hs.queue, hn]

theorem register_not_tracking (ht : ¬h.tracking = true) (t : Term) :
    h.register t = (none, h) :=
  if_neg ht

theorem Balanced.register (hb : h.Balanced kept) : (h.register t).2.Balanced kept := by
  intro ht
  by_cases htr : h.tracking = true
  · have hd : h.drain.2.Covers (h.drain.2.registered + kept) :=
      hb.drain ((sameQueue_drain h).tracking.trans htr)
    have hreg : h.drain.2.registered = (h.settled.queue.map (·.term) : List Term) := by
      rw [registered, (sameQueue_drain h).queue]
    have howed : h.drain.2.registered + {t} + kept = t ::ₘ (h.drain.2.registered + kept) := by
      rw [add_right_comm, add_comm _ ({t} : Multiset Term), Multiset.singleton_add]
    rw [register_tracking htr, registered, List.map_append, ← Multiset.coe_add, ← hreg]
    change Handles.Covers _ (h.drain.2.registered + {t} + kept)
    rw [howed]
    exact hd.increment.of_eq rfl rfl rfl
  · rw [register_not_tracking htr] at ht ⊢
    exact hb ht

theorem map_term_adjust (q : List Registration) (f : Nat → Nat) (ticket : Nat) :
    (q.map fun r => if r.ticket = ticket then { r with holders := f r.holders } else r).map
      (·.term) = q.map (·.term) := by
  rw [List.map_map]
  refine List.map_congr_left fun r _ => ?_
  rw [Function.comp_apply]
  split <;> rfl

theorem Balanced.adjust (hb : h.Balanced kept) (f : Nat → Nat) (ticket : Option Nat) :
    (h.adjust f ticket).Balanced kept := by
  cases ticket with
  | none => exact hb
  | some k =>
    intro ht
    rw [registered, Handles.adjust, map_term_adjust]
    exact (hb ht).of_eq rfl rfl rfl

/-- In the end all references are given back. -/
theorem Balanced.retire {ts : List Term} (hb : h.Balanced (ts : Multiset Term))
    (ht : h.tracking = true) (hc : h.counting = true) (u : Term) :
    (h.retire ts).count u = 0 ∧ (h.retire ts).underflows = 0 := by
  have hcov : (h.retire ts).Covers 0 := by
    unfold Handles.retire
    rw [if_pos ht]
    refine Covers.foldl_decrement ?_
    have hb := hb ht
    rw [registered, Multiset.coe_add] at hb
    rw [add_zero]
    exact hb.of_eq rfl rfl rfl
  refine ⟨?_, hcov.underflows⟩
  have hcr : (h.retire ts).counting = true := by
    unfold Handles.retire
    rw [if_pos ht, (sameQueue_foldl _ _).counting]
    exact hc
  rw [hcov.count hcr, Multiset.count_zero]

/-- Every registration has as many holders as there are copies of its wrapper, and every wrapper
that is held is registered. -/
structure Serves (h : Handles) (id : Nat) (held : Multiset Formula) : Prop where
  nodup : (h.queue.map (·.ticket)).Nodup
  fresh : ∀ r ∈ h.queue, r.ticket < h.nextTicket
  holders : ∀ r ∈ h.queue,
    r.holders = held.countP fun f => f.owner = id ∧ f.ticket = some r.ticket
  registered : h.tracking = true → ∀ f ∈ held, f.owner = id →
    ∃ r ∈ h.queue, f.ticket = some r.ticket ∧ r.term = f.term

variable {id : Nat} {held : Multiset Formula} {f : Formula}

theorem Serves.of_eq {g : Handles} (hs : h.Serves id held) (hg : h.SameQueue g) :
    g.Serves id held := by
  constructor
  · rw [hg.queue]
    exact hs.nodup
  · rw [hg.queue, hg.nextTicket]
    exact hs.fresh
  · rw [hg.queue]
    exact hs.holders
  · rw [hg.queue, hg.tracking]
    exact hs.registered

/-- A wrapper that is held has a holder. -/
theorem Serves.holders_ne_zero (hs : h.Serves id held) {r : Registration} (hr : r ∈ h.queue)
    (hf : f ∈ held) (ho : f.owner = id) (ht : f.ticket = some r.ticket) : r.holders ≠ 0 := by
  rw [hs.holders r hr]
  exact (Multiset.countP_pos.2 ⟨f, hf, ho, ht⟩).ne'

theorem Serves.settled (hs : h.Serves id held) : h.settled.Serves id held := by
  have hsub : h.settled.queue.Sublist h.queue := List.filter_sublist
  refine ⟨(hsub.map _).nodup hs.nodup, fun r hr => hs.fresh r (hsub.subset hr),
    fun r hr => hs.holders r (hsub.subset hr), fun ht f hf ho => ?_⟩
  obtain ⟨r, hr, hft, hrt⟩ := hs.registered ht f hf ho
  refine ⟨r, List.mem_filter.2 ⟨hr, ?_⟩, hft, hrt⟩
  exact bne_iff_ne.2 (hs.holders_ne_zero hr hf ho hft)

theorem Serves.drain (hs : h.Serves id held) : h.drain.2.Serves id held :=
  hs.settled.of_eq (sameQueue_drain h)

/-- A new wrapper is held once. -/
theorem Serves.register (hs : h.Serves id held) (t : Term) (type : FormulaType) :
    (h.register t).2.Serves id (⟨t, type, id, (h.register t).1⟩ ::ₘ held) := by
  by_cases ht : h.tracking = true
  · rw [register_tracking ht]
    have hset := hs.settled
    have hnew : ∀ r ∈ h.settled.queue, r.ticket ≠ h.nextTicket := fun r hr =>
      (hset.fresh r hr).ne
    constructor
    · simp only [List.map_append, List.map_singleton]
      refine List.nodup_append.2 ⟨hset.nodup, List.nodup_singleton _, ?_⟩
      intro k hk l hl
      obtain ⟨r, hr, rfl⟩ := List.mem_map.1 hk
      rw [List.mem_singleton.1 hl]
      exact hnew r hr
    · intro r hr
      obtain hr | hr := List.mem_append.1 hr
      · exact Nat.lt_succ_of_lt (hset.fresh r hr)
      · rw [List.mem_singleton.1 hr]
        exact Nat.lt_succ_self _
    · intro r hr
      rw [Multiset.countP_cons]
      obtain hr | hr := List.mem_append.1 hr
      · rw [if_neg fun hc => hnew r hr (Option.some.inj hc.2).symm, add_zero]
        exact hset.holders r hr
      · rw [List.mem_singleton.1 hr, if_pos ⟨rfl, rfl⟩]
        have hzero : held.countP (fun f => f.owner = id ∧ f.ticket = some h.nextTicket) = 0 := by
          refine Multiset.countP_eq_zero.2 fun f hf hc => ?_
          obtain ⟨r, hr, hft, -⟩ := hset.registered ht f hf hc.1
          exact hnew r hr (Option.some.inj (hft.symm.trans hc.2))
        rw [hzero]
    · intro _ f hf ho
      obtain rfl | hf := Multiset.mem_cons.1 hf
      · exact ⟨_, List.mem_append.2 (.inr (List.mem_singleton.2 rfl)), rfl, rfl⟩
      · obtain ⟨r, hr, hft, hrt⟩ := hset.registered ht f hf ho
        exact ⟨r, List.mem_append.2 (.inl hr), hft, hrt⟩
  · rw [register_not_tracking ht]
    refine ⟨hs.nodup, hs.fresh, fun r hr => ?_, fun htr => absurd htr ht⟩
    rw [Multiset.countP_cons, if_neg (by simp), add_zero]
    exact hs.holders r hr

/-- A registration whose number of holders may change. -/
def adjusted (f : Nat → Nat) (ticket : Nat) (r : Registration) : Registration :=
  if r.ticket = ticket then { r with holders := f r.holders } else r

@[simp] theorem ticket_adjusted (f : Nat → Nat) (ticket : Nat) (r : Registration) :
    (adjusted f ticket r).ticket = r.ticket := by
  unfold adjusted
  split <;> rfl

@[simp] theorem term_adjusted (f : Nat → Nat) (ticket : Nat) (r : Registration) :
    (adjusted f ticket r).term = r.term := by
  unfold adjusted
  split <;> rfl

theorem queue_adjust (h : Handles) (f : Nat → Nat) (ticket : Nat) :
    (h.adjust f (some ticket)).queue = h.queue.map (adjusted f ticket) := rfl

/-- The number of copies of one wrapper changes. -/
theorem Serves.adjust {held' : Multiset Formula} (hs : h.Serves id held) (g : Nat → Nat)
    (ticket : Option Nat)
    (hcopies : ∀ k, held'.countP (fun f => f.owner = id ∧ f.ticket = some k) =
      if ticket = some k then g (held.countP fun f => f.owner = id ∧ f.ticket = some k)
      else held.countP fun f => f.owner = id ∧ f.ticket = some k)
    (hmem : ∀ f ∈ held', f.owner = id → f ∈ held) : (h.adjust g ticket).Serves id held' := by
  cases ticket with
  | none =>
    refine ⟨hs.nodup, hs.fresh, fun r hr => ?_, fun ht f hf ho => ?_⟩
    · rw [hcopies, if_neg (by simp)]
      exact hs.holders r hr
    · exact hs.registered ht f (hmem f hf ho) ho
  | some k =>
    constructor
    · rw [queue_adjust, List.map_map]
      simpa [Function.comp_def] using hs.nodup
    · intro r hr
      rw [queue_adjust] at hr
      obtain ⟨q, hq, rfl⟩ := List.mem_map.1 hr
      rw [ticket_adjusted]
      exact hs.fresh q hq
    · intro r hr
      rw [queue_adjust] at hr
      obtain ⟨q, hq, rfl⟩ := List.mem_map.1 hr
      rw [ticket_adjusted, hcopies, ← hs.holders q hq]
      unfold adjusted
      by_cases hk : q.ticket = k
      · rw [if_pos hk, if_pos (congrArg some hk.symm)]
      · rw [if_neg hk, if_neg fun h => hk (Option.some.inj h).symm]
    · intro ht f hf ho
      obtain ⟨r, hr, hft, hrt⟩ := hs.registered ht f (hmem f hf ho) ho
      refine ⟨adjusted g k r, List.mem_map_of_mem hr, ?_, ?_⟩
      · rw [ticket_adjusted, hft]
      · rw [term_adjusted, hrt]

theorem Serves.retain (hs : h.Serves id held) (hf : f ∈ held) (ho : f.owner = id) :
    (h.retain f.ticket).Serves id (f ::ₘ held) := by
  refine hs.adjust _ _ (fun k => ?_) fun g hg _ => ?_
  · rw [Multiset.countP_cons]
    by_cases hk : f.ticket = some k
    · rw [if_pos ⟨ho, hk⟩, if_pos hk]
    · rw [if_neg fun h => hk h.2, if_neg hk, add_zero]
  · obtain rfl | hg := Multiset.mem_cons.1 hg
    · exact hf
    · exact hg

theorem Serves.discard (hs : h.Serves id (f ::ₘ held)) (ho : f.owner = id) :
    (h.discard f.ticket).Serves id held := by
  refine hs.adjust _ _ (fun k => ?_) fun g hg _ => Multiset.mem_cons_of_mem hg
  rw [Multiset.countP_cons]
  by_cases hk : f.ticket = some k
  · rw [if_pos hk, if_pos ⟨ho, hk⟩, Nat.add_sub_cancel]
  · rw [if_neg hk, if_neg fun h => hk h.2, add_zero]

/-- Wrappers of other environments do not matter. -/
theorem serves_cons_foreign (ho : f.owner ≠ id) : h.Serves id (f ::ₘ held) ↔ h.Serves id held := by
  have hcopies : ∀ k, (f ::ₘ held).countP (fun f => f.owner = id ∧ f.ticket = some k) =
      held.countP fun f => f.owner = id ∧ f.ticket = some k := by
    intro k
    rw [Multiset.countP_cons, if_neg fun hc => ho hc.1, add_zero]
  have hmem : ∀ g, g.owner = id → (g ∈ f ::ₘ held ↔ g ∈ held) := by
    intro g hg
    rw [Multiset.mem_cons]
    exact or_iff_right fun h => ho (h ▸ hg)
  constructor
  · intro hs
    refine ⟨hs.nodup, hs.fresh, fun r hr => (hs.holders r hr).trans (hcopies _), ?_⟩
    exact fun ht g hg hgo => hs.registered ht g ((hmem g hgo).2 hg) hgo
  · intro hs
    refine ⟨hs.nodup, hs.fresh, fun r hr => (hs.holders r hr).trans (hcopies _).symm, ?_⟩
    exact fun ht g hg hgo => hs.registered ht g ((hmem g hgo).1 hg) hgo

end Handles

namespace Environment

/-- The terms of the constants that an environment keeps. -/
def constantTerms (env : Environment) : List Term := env.constants.map (·.2)

/-- The accounts of an environment: `held` are the wrappers in use, and `recorded` the terms that
assertion stacks keep. -/
structure Accounts (env : Environment) (held : Multiset Formula) (recorded : Multiset Term) :
    Prop where
  serves : env.handles.Serves env.id held
  balanced : env.handles.Balanced (env.constantTerms + recorded)

variable {env : Environment} {held : Multiset Formula} {recorded : Multiset Term} {f : Formula}

theorem Accounts.discard (h : env.Accounts (f ::ₘ held) recorded) :
    (env.discard f).Accounts held recorded := by
  unfold Environment.discard
  split
  · next ho => exact ⟨h.serves.discard ho, h.balanced.adjust _ _⟩
  · next ho => exact ⟨(Handles.serves_cons_foreign ho).1 h.serves, h.balanced⟩

theorem Accounts.retain (h : env.Accounts held recorded) (hf : f ∈ held) :
    (env.retain f).Accounts (f ::ₘ held) recorded := by
  unfold Environment.retain
  split
  · next ho => exact ⟨h.serves.retain hf ho, h.balanced.adjust _ _⟩
  · next ho => exact ⟨(Handles.serves_cons_foreign ho).2 h.serves, h.balanced⟩

theorem Accounts.hold {t : Term} (h : env.Accounts held recorded) :
    ({ env with handles := env.handles.hold t } : Environment).Accounts held (t ::ₘ recorded) := by
  refine ⟨h.serves.of_eq (Handles.sameQueue_hold _ t), ?_⟩
  rw [Multiset.add_cons]
  exact h.balanced.hold

theorem Accounts.release {t : Term} (h : env.Accounts held (t ::ₘ recorded)) :
    ({ env with handles := env.handles.release t } : Environment).Accounts held recorded := by
  refine ⟨h.serves.of_eq (Handles.sameQueue_release _ t), ?_⟩
  have hb := h.balanced
  rw [Multiset.add_cons] at hb
  exact hb.release

theorem Accounts.drain (h : env.Accounts held recorded) :
    ({ env with handles := env.handles.drain.2 } : Environment).Accounts held recorded :=
  ⟨h.serves.drain, h.balanced.drain⟩

theorem Accounts.register (h : env.Accounts held recorded) (t : Term) (type : FormulaType) :
    ({ env with handles := (env.handles.register t).2 } : Environment).Accounts
      (⟨t, type, env.id, (env.handles.register t).1⟩ ::ₘ held) recorded :=
  ⟨h.serves.register t type, h.balanced.register⟩

end Environment
end FormulaStack
