import FormulaStack.Notifier

/-!
Runs of a notifier: what its clients do with it, one after the other, and which listeners run when.
Up to the first request nobody runs. A listener waits until then or until it is removed, and is
spent after that.
-/
namespace FormulaStack.Notifier

variable {ρ : Type}

/-- What a client does with a notifier. -/
inductive Action (ρ : Type) where
  | register (listener : ρ)
  | unregister (id : Nat)
  | request (reason : String)

/-- A listener that ran: in which action, under which number, and for which reason. -/
structure Call (ρ : Type) where
  time : Nat
  id : Nat
  listener : ρ
  reason : String

def callsOf (i : Nat) (calls : List (Call ρ)) : List (Call ρ) := calls.filter (·.id = i)

def Action.reason? : Action ρ → Option String
  | .request reason => some reason
  | .register _ | .unregister _ => none

/-- The reason of the first request. -/
def firstReason (as : List (Action ρ)) : Option String := as.findSome? (·.reason?)

/-- The listeners that an action runs, and the notifier after it. A listener goes with its number,
by which its calls are told from those of others. -/
def act (time : Nat) (n : Notifier (Nat × ρ)) :
    Action ρ → List (Call ρ) × Notifier (Nat × ρ)
  | .register listener =>
    let (id, reason, n') := n.register (n.nextListener, listener)
    (reason.toList.map fun r => ⟨time, id, listener, r⟩, n')
  | .unregister id => ([], (n.unregister id).2)
  | .request reason =>
    let (listeners, n') := n.request reason
    (listeners.map fun l => ⟨time, l.1, l.2, reason⟩, n')

/-- A run of actions from a time on. -/
def run (time : Nat) (n : Notifier (Nat × ρ)) :
    List (Action ρ) → List (Call ρ) × Notifier (Nat × ρ)
  | [] => ([], n)
  | a :: as =>
    let (calls, n') := n.act time a
    let (later, n'') := n'.run (time + 1) as
    (calls ++ later, n'')

variable {n : Notifier (Nat × ρ)} {a : Action ρ} {as bs : List (Action ρ)} {l : ρ} {i time : Nat}
  {reason : String}

theorem firstReason_cons : firstReason (a :: as) = a.reason?.or (firstReason as) := by
  unfold firstReason
  rw [List.findSome?_cons]
  cases a.reason? <;> rfl

theorem reason_act : (n.act time a).2.reason = n.reason.or a.reason? := by
  cases a with
  | register listener | unregister id => exact Option.or_none.symm
  | request reason =>
    unfold act request
    cases hr : n.reason with
    | none => rfl
    | some r => exact hr

/-- Every listener is kept under its number, and further numbers are new. -/
def Numbered (n : Notifier (Nat × ρ)) : Prop :=
  ∀ p ∈ n.listeners, p.2.1 = p.1 ∧ p.1 < n.nextListener

/-- No listener is kept under a number that was given. -/
def Absent (i : Nat) (n : Notifier (Nat × ρ)) : Prop :=
  i < n.nextListener ∧ ∀ p ∈ n.listeners, p.1 ≠ i

/-- A listener that is kept until the first request. -/
def Waiting (i : Nat) (l : ρ) (n : Notifier (Nat × ρ)) : Prop :=
  n.reason = none ∧ n.listeners.filter (·.1 = i) = [(i, i, l)]

theorem nextListener_act : n.nextListener ≤ (n.act time a).2.nextListener := by
  unfold act register unregister request
  cases a with
  | register listener => exact Nat.le_succ _
  | unregister id => exact Nat.le_refl _
  | request reason => cases n.reason <;> exact Nat.le_refl _

/-- What is kept was kept before, or it is new. -/
theorem listeners_act {p : Nat × Nat × ρ} (h : p ∈ (n.act time a).2.listeners) :
    p ∈ n.listeners ∨ ∃ l, a = .register l ∧ n.reason = none ∧
      p = (n.nextListener, n.nextListener, l) := by
  unfold act register unregister request at h
  cases a with
  | register listener =>
    cases hr : n.reason with
    | some r =>
      rw [hr] at h
      exact .inl h
    | none =>
      rw [hr] at h
      exact (List.mem_append.1 h).imp id fun h => ⟨listener, rfl, rfl, List.mem_singleton.1 h⟩
  | unregister id => exact .inl (List.mem_filter.1 h).1
  | request reason =>
    cases hr : n.reason <;> rw [hr] at h <;> exact .inl h

theorem Numbered.act (h : n.Numbered) : (n.act time a).2.Numbered := by
  intro p hp
  obtain hp | ⟨l, rfl, -, rfl⟩ := listeners_act hp
  · exact ⟨(h p hp).1, Nat.lt_of_lt_of_le (h p hp).2 nextListener_act⟩
  · exact ⟨rfl, Nat.lt_succ_self _⟩

theorem Numbered.run (h : n.Numbered) : (n.run time as).2.Numbered := by
  induction as generalizing n time with
  | nil => exact h
  | cons a as ih => exact ih h.act

theorem Absent.act (h : Absent i n) : Absent i (n.act time a).2 := by
  refine ⟨Nat.lt_of_lt_of_le h.1 nextListener_act, fun p hp => ?_⟩
  obtain hp | ⟨l, -, -, rfl⟩ := listeners_act hp
  · exact h.2 p hp
  · exact Nat.ne_of_gt h.1

theorem Absent.run (h : Absent i n) : Absent i (n.run time as).2 := by
  induction as generalizing n time with
  | nil => exact h
  | cons a as ih => exact ih h.act

theorem Waiting.lt (hn : n.Numbered) (h : Waiting i l n) : i < n.nextListener := by
  have hmem : (i, i, l) ∈ n.listeners.filter (·.1 = i) := h.2 ▸ List.mem_singleton_self _
  exact (hn _ (List.mem_filter.1 hmem).1).2

theorem Waiting.act (hn : n.Numbered) (h : Waiting i l n) (ha : a.reason? = none)
    (hremains : a ≠ .unregister i) : Waiting i l (n.act time a).2 := by
  refine ⟨by rw [reason_act, h.1, ha]; rfl, ?_⟩
  unfold Notifier.act register unregister
  cases a with
  | request reason => cases ha
  | register listener =>
    rw [h.1]
    dsimp only
    have hnew : ¬ n.nextListener = i := Nat.ne_of_gt (h.lt hn)
    rw [List.filter_append, h.2]
    simp [hnew]
  | unregister id =>
    have hid : id ≠ i := fun hid => hremains (hid ▸ rfl)
    dsimp only
    rw [List.filter_filter, ← h.2]
    refine List.filter_congr fun p _ => ?_
    by_cases hp : p.1 = i <;> simp [hp, Ne.symm hid]

theorem Waiting.run (hn : n.Numbered) (h : Waiting i l n) (has : firstReason as = none)
    (hremains : .unregister i ∉ as) : Waiting i l (n.run time as).2 := by
  induction as generalizing n time with
  | nil => exact h
  | cons a as ih =>
    rw [firstReason_cons, Option.or_eq_none_iff] at has
    rw [List.mem_cons, not_or] at hremains
    exact ih hn.act (h.act hn has.1 (Ne.symm hremains.1)) has.2 hremains.2

/-- At the request it runs. -/
theorem Waiting.request (hn : n.Numbered) (h : Waiting i l n) :
    callsOf i (n.act time (.request reason)).1 = [⟨time, i, l, reason⟩] := by
  unfold Notifier.act Notifier.request callsOf
  rw [h.1]
  dsimp only
  have hlabel : n.listeners.filter (fun p => p.2.1 = i) = [(i, i, l)] := by
    rw [← h.2]
    refine List.filter_congr fun p hp => ?_
    rw [(hn p hp).1]
  rw [List.filter_map, List.filter_map]
  change ((n.listeners.filter fun p => p.2.1 = i).map _).map _ = _
  rw [hlabel]
  rfl

/-- The notifier that a run of actions leaves. -/
def reached (as : List (Action ρ)) : Notifier (Nat × ρ) := (new.run 0 as).2

/-- The listeners that run in a run of actions. -/
def calls (as : List (Action ρ)) : List (Call ρ) := (new.run 0 as).1

end FormulaStack.Notifier
