import FormulaStack.Proofs.Budgets
import FormulaStack.Proofs.Readings
import FormulaStack.Proofs.Typing
import FormulaStack.Walk
import Mathlib.Logic.Relation

/-!
The recursive depth-first walk. The walk with a list of pending formulas does what it does: pending
formulas are the siblings that the recursion still has to come to, the innermost first.
-/
namespace FormulaStack

open Effect Environment

theorem Environment.Types.exists_node {env : Environment} {f : Formula} (h : env.Types f) :
    ∃ n, env.terms.node? f.term = some n := by
  obtain ⟨k, hk, -⟩ := h.sort
  obtain ⟨n, hn, -⟩ := Option.map_eq_some_iff.1 hk
  exact ⟨n, hn⟩

namespace Walk

variable {α τ : Type}

/-- Gives back formulas. -/
def drop (route : Route α) (fs : List α) (s : Environment × τ) : Environment × τ :=
  (discardAll (fs.map route.formula) s.1, s.2)

/-- Work beside the formulas seen so far. -/
def besideSeen {β : Type} (e : Visit τ β) : Effect ((Environment × τ) × List α) β :=
  .on Prod.fst (fun s st => (s, st.2)) e

/-- Walks from formulas, from left to right, as long as the walk goes on. -/
def inTurn (route : Route α) (walkOne : α → Effect ((Environment × τ) × List α) Bool) :
    List α → Effect ((Environment × τ) × List α) Bool
  | [] => return true
  | f :: fs => do
    let more ← (walkOne f).undoing fun (s, seen) => (drop route fs s, seen)
    if more then inTurn route walkOne fs
    else
      .update fun (s, seen) => (drop route fs s, seen)
      return false

/-- The recursive walk from a formula, and whether the walk goes on after it. -/
def descend (route : Route α) (visit : α → Visit τ Step) :
    (depth : Nat) → α → Effect ((Environment × τ) × List α) Bool
  | 0, _ => return false
  | depth + 1, f => do
    if (← .look (·.2)).any (route.formula · == route.formula f) then
      .update fun (s, seen) => (drop route [f] s, seen)
      return true
    else
      .update fun (s, seen) => (s, f :: seen)
      match ← besideSeen (visit f) with
      | .abort => return false
      | .skip => return true
      | .proceed =>
        inTurn route (descend route visit depth)
          (← besideSeen (Visit.inEnvironment (route.children f)))

/-- The recursive walk from a formula, from nothing seen. What it has seen is given back. -/
def descent (route : Route α) (visit : α → Visit τ Step) (depth : Nat) (f : α) : Visit τ Unit :=
  .of fun s =>
    let (out, s, seen) :=
      (descend route visit depth f).exec ((s.1.retain (route.formula f), s.2), [])
    (out.map fun _ => (), drop route seen s)

/-- A visit, and the formulas that it makes the walk go on to; none if the walk ends. -/
def enter (route : Route α) (visit : α → Visit τ Step) (f : α) : Visit τ (Option (List α)) := do
  match ← visit f with
  | .abort => return none
  | .skip => return some []
  | .proceed => return some (← Visit.inEnvironment (route.children f))

/-- A formula was seen. -/
def Met (route : Route α) (seen : List α) (f : α) : Prop :=
  seen.any (route.formula · == route.formula f) = true

variable {route : Route α} {visit : α → Visit τ Step} {f g : α} {fs gs seen seen' rest : List α}
  {s s' s₁ s₂ : Environment × τ} {fuel depth : Nat}

/-! Giving back -/

theorem drop_append (fs gs : List α) (s : Environment × τ) :
    drop route (fs ++ gs) s = drop route gs (drop route fs s) := by
  simp [drop, discardAll]

theorem discard_comm (f g : Formula) (env : Environment) :
    (env.discard f).discard g = (env.discard g).discard f := by
  have hhandles : ∀ h : Handles, (h.discard f.ticket).discard g.ticket =
      (h.discard g.ticket).discard f.ticket := by
    intro h
    cases hf : f.ticket <;> cases hg : g.ticket <;> simp only [Handles.discard, Handles.adjust]
    simp only [List.map_map, Handles.mk.injEq, true_and, and_true]
    refine List.map_congr_left fun r _ => ?_
    simp only [Function.comp]
    split_ifs <;> simp_all
  unfold Environment.discard
  by_cases hf : f.owner = env.id <;> by_cases hg : g.owner = env.id <;> simp [hf, hg, hhandles]

theorem drop_perm (h : fs.Perm gs) (s : Environment × τ) : drop route fs s = drop route gs s := by
  have hcomm : RightCommutative fun env f => discard f env := ⟨fun env f g => discard_comm f g env⟩
  exact congrArg (·, s.2) ((h.map route.formula).foldl_eq s.1)

/-! One step of either walk -/

@[simp] theorem exec_finish (fs : List α) (s : Environment × τ) :
    (walkFrom.finish route fs : Visit τ Unit).exec s = (.ok (), drop route fs s) := rfl

theorem exec_inTurn_cons (walkOne : α → Effect ((Environment × τ) × List α) Bool) :
    (inTurn route walkOne (f :: fs)).exec (s, seen) =
      match (walkOne f).exec (s, seen) with
      | (.ok true, st) => (inTurn route walkOne fs).exec st
      | (out, (s', seen')) => (out, (drop route fs s', seen')) := by
  rw [inTurn, exec_bind, exec_undoing]
  rcases (walkOne f).exec (s, seen) with ⟨x | _ | _, s', seen'⟩ <;> rfl

theorem exec_inTurn_singleton (walkOne : α → Effect ((Environment × τ) × List α) Bool) :
    (inTurn route walkOne [f]).exec (s, seen) = (walkOne f).exec (s, seen) := by
  rw [exec_inTurn_cons]
  rcases (walkOne f).exec (s, seen) with ⟨x | _ | _, s', seen'⟩ <;> rfl

theorem exec_descend_met (h : Met route seen f) :
    (descend route visit (depth + 1) f).exec (s, seen) = (.ok true, (drop route [f] s, seen)) := by
  unfold Met at h
  rw [descend, exec_bind_ok (exec_look _ _), if_pos h]
  rfl

theorem exec_descend (h : ¬Met route seen f) :
    (descend route visit (depth + 1) f).exec (s, seen) =
      match (enter route visit f).exec s with
      | (.error e, s₁) => (.error e, (s₁, f :: seen))
      | (.ok none, s₁) => (.ok false, (s₁, f :: seen))
      | (.ok (some gs), s₁) =>
        (inTurn route (descend route visit depth) gs).exec (s₁, f :: seen) := by
  unfold Met at h
  rw [descend, exec_bind_ok (exec_look _ _), if_neg h, exec_bind_ok (exec_update _ _), enter,
    exec_bind, exec_bind, besideSeen, exec_on]
  rcases (visit f).exec s with ⟨x | _ | _ | _, s₁⟩
  · rfl
  · dsimp only
    rw [exec_bind, exec_bind, besideSeen, exec_on]
    rcases (Visit.inEnvironment (route.children f)).exec s₁ with ⟨x | gs, s₂⟩ <;> rfl
  · rfl
  · rfl

/-- What becomes of the pending formulas of a walk when the recursive walk through those before them
is over. -/
def resume (route : Route α) (visit : α → Visit τ Step) (fuel : Nat) (rest : List α) :
    Except Fault Bool → Environment × τ → List α → Except Fault Unit × (Environment × τ)
  | .ok true, s, seen => (walkFrom route visit fuel seen rest).exec s
  | .ok false, s, seen => (.ok (), drop route (seen ++ rest) s)
  | .error e, s, seen => (.error e, drop route (seen ++ rest) s)

theorem exec_walkFrom_met (h : Met route seen f) :
    (walkFrom route visit (fuel + 1) seen (f :: rest)).exec s =
      (walkFrom route visit fuel seen rest).exec (drop route [f] s) := by
  unfold Met at h
  rw [walkFrom, if_pos h]
  exact exec_bind_ok (exec_finish _ _) _

theorem exec_walkFrom (h : ¬Met route seen f) :
    (walkFrom route visit (fuel + 1) seen (f :: rest)).exec s =
      match (enter route visit f).exec s with
      | (.error e, s₁) => resume route visit fuel rest (.error e) s₁ (f :: seen)
      | (.ok none, s₁) => resume route visit fuel rest (.ok false) s₁ (f :: seen)
      | (.ok (some gs), s₁) =>
        (walkFrom route visit fuel (f :: seen) (gs ++ rest)).exec s₁ := by
  unfold Met at h
  rw [walkFrom, if_neg h]
  refine (exec_bind_ok (exec_attempt (enter route visit f) s) _).trans ?_
  rcases (enter route visit f).exec s with ⟨x | _ | gs, s₁⟩ <;> rfl

/-- Where a walk stops, it is the same to give back pending formulas before the others. -/
theorem resume_append {out : Except Fault Bool} (h : out ≠ .ok true) :
    resume route visit fuel (fs ++ rest) out s seen =
      resume route visit fuel rest out (drop route fs s) seen := by
  have hdrop : drop route (seen ++ (fs ++ rest)) s =
      drop route (seen ++ rest) (drop route fs s) := by
    rw [← drop_append]
    exact drop_perm (List.perm_append_comm_assoc ..) s
  match out with
  | .error e => rw [resume, resume, hdrop]
  | .ok false => rw [resume, resume, hdrop]
  | .ok true => exact absurd rfl h

theorem resume_nil (out : Except Fault Bool) :
    resume route visit fuel [] out s seen = (out.map fun _ => (), drop route seen s) := by
  match out with
  | .error e => rw [resume, List.append_nil]; rfl
  | .ok false => rw [resume, List.append_nil]; rfl
  | .ok true =>
    cases fuel with
    | zero => rw [resume, walkFrom, List.append_nil]; rfl
    | succ fuel => rfl

/-! A walk over terms -/

/-- The term that a formula wraps. -/
def Route.term (route : Route α) (f : α) : Term := (route.formula f).term

/-- Formulas that a walk may go on to from another one: they are over some of the arguments of its
term, which are `Below` it. -/
structure LeadsTo (start : Environment) (Below : Term → Term → Prop) (route : Route α) (f : α)
    (gs : List α) : Prop where
  types : ∀ g ∈ gs, start.Types (route.formula g)
  arguments : (gs.map route.term).Sublist (start.childrenOf (route.term f))
  below : ∀ t ∈ gs.map route.term, Below (route.term f) t

/-- A walk over the terms of an environment. Whoever visits may add to it; the operands of a formula
are over all terms that are `Below` its own. -/
structure Spans (start : Environment) (Below : Term → Term → Prop) (route : Route α)
    (visit : α → Visit τ Step) : Prop where
  wellFormed : start.terms.WellFormed
  visits : ∀ f env (s : τ), start.Types (route.formula f) → start.Advances env →
    start.Advances ((visit f).exec (env, s)).2.1
  unfolds : ∀ f env, start.Types (route.formula f) → start.Advances env →
    start.Advances ((route.children f).exec env).2
  operands : ∀ f env, start.Types (route.formula f) → start.Advances env →
    (route.children f).Ensures env fun gs _ => LeadsTo start Below route f gs ∧
      ∀ t, Below (route.term f) t → t ∈ gs.map route.term

/-- The state of a walk: the environment was added to, and what was seen was there before. -/
structure Sound (start : Environment) (route : Route α) (seen : List α) (s : Environment × τ) :
    Prop where
  advances : start.Advances s.1
  types : ∀ g ∈ seen, start.Types (route.formula g)

/-- The walk comes to a formula that it has not seen. -/
structure Opens (start : Environment) (route : Route α) (seen : List α) (s : Environment × τ)
    (f : α) : Prop extends Sound start route seen s where
  unmet : ¬Met route seen f
  formula : start.Types (route.formula f)

variable {start : Environment} {Below : Term → Term → Prop} {out : Except Fault Bool}

theorem LeadsTo.index_lt (h : LeadsTo start Below route f gs) (hs : start.terms.WellFormed) :
    ∀ g ∈ gs, (route.term g).index < (route.term f).index :=
  fun _ hg => index_childrenOf_lt hs (h.arguments.subset (List.mem_map_of_mem hg))

theorem LeadsTo.length_le (h : LeadsTo start Below route f gs) :
    gs.length ≤ (start.childrenOf (route.term f)).length := by
  simpa using h.arguments.length_le

theorem leadsTo_nil : LeadsTo start Below route f [] := ⟨by simp, by simp, by simp⟩

theorem Sound.drop (h : Sound start route seen s) (fs : List α) :
    Sound start route seen (drop route fs s) :=
  ⟨h.advances.trans (advances_discardAll _ _), h.types⟩

namespace Opens

theorem notMem (h : Opens start route seen s f) : route.term f ∉ seen.map route.term := by
  intro hmem
  obtain ⟨g, hg, hterm⟩ := List.mem_map.1 hmem
  refine h.unmet (List.any_eq_true.2 ⟨g, hg, ?_⟩)
  change ((route.formula g).owner == (route.formula f).owner && route.term g == route.term f) = true
  rw [(h.types g hg).owner, h.formula.owner, hterm, beq_self_eq_true, beq_self_eq_true]
  rfl

theorem exec_enter (h : Opens start route seen s f) (hspans : Spans start Below route visit)
    {gs : Except Fault (Option (List α))} (hx : (enter route visit f).exec s = (gs, s₁)) :
    Sound start route (f :: seen) s₁ := by
  refine ⟨?_, List.forall_mem_cons.2 ⟨h.formula, h.types⟩⟩
  have hv : start.Advances ((visit f).exec s).2.1 := hspans.visits f s.1 s.2 h.formula h.advances
  obtain rfl : ((enter route visit f).exec s).2 = s₁ := by rw [hx]
  rw [enter, exec_bind]
  rcases hx : (visit f).exec s with ⟨x | _ | _ | _, s₁⟩ <;> rw [hx] at hv
  · exact hv
  · dsimp only
    rw [exec_bind_pure]
    exact hspans.unfolds f s₁.1 h.formula hv
  · exact hv
  · exact hv

theorem ensures_visit (h : Opens start route seen s f) (hspans : Spans start Below route visit) :
    (visit f).Ensures s fun _ s₁ => start.Advances s₁.1 := by
  have hv : start.Advances ((visit f).exec s).2.1 := hspans.visits f s.1 s.2 h.formula h.advances
  intro step s₁ hx
  rwa [hx] at hv

theorem ensures_enter (h : Opens start route seen s f) (hspans : Spans start Below route visit) :
    (enter route visit f).Ensures s fun gs _ => ∀ gs', gs = some gs' →
      LeadsTo start Below route f gs' := by
  refine (h.ensures_visit hspans).bind fun step s₁ hs₁ => ?_
  cases step with
  | abort => exact .pure nofun
  | skip =>
    refine .pure ?_
    rintro _ ⟨⟩
    exact leadsTo_nil
  | proceed =>
    refine .bind (P := fun gs _ => LeadsTo start Below route f gs)
      (.on ((hspans.operands f s₁.1 h.formula hs₁).mono fun _ _ hgs => hgs.1))
      fun gs _ hgs => .pure ?_
    rintro _ ⟨⟩
    exact hgs

end Opens

/-- The fault of a visit, or of the operands. -/
theorem error_of_enter {e : Fault}
    (hx : ((enter route visit f).exec s).1 = .error e) :
    ((visit f).exec s).1 = .error e ∨
      ((route.children f).exec ((visit f).exec s).2.1).1 = .error e := by
  rw [enter, exec_bind] at hx
  rcases hy : (visit f).exec s with ⟨x | _ | _ | _, s₁⟩ <;> rw [hy] at hx
  · exact .inl (congrArg _ (Except.error.inj hx))
  · refine .inr ?_
    dsimp only at hx ⊢
    rw [exec_bind_pure, Visit.inEnvironment, exec_on] at hx
    dsimp only at hx
    cases hz : ((route.children f).exec s₁.1).1 with
    | error x =>
      rw [hz] at hx
      exact congrArg _ (Except.error.inj hx)
    | ok gs =>
      rw [hz] at hx
      cases hx
  · cases hx
  · cases hx

theorem mem_of_met (h : Met route seen f) : route.term f ∈ seen.map route.term := by
  obtain ⟨g, hg, hsame⟩ := List.any_eq_true.1 h
  exact List.mem_map.2 ⟨g, hg, eq_of_beq (Bool.and_eq_true_iff.1 hsame).2⟩

/-! The tree of calls -/

/-- The calls of the recursive walk from some formulas, one after the other: what was seen and the
state before, the outcome, and the state and what was seen after. -/
inductive Descends (start : Environment) (Below : Term → Term → Prop) (route : Route α)
    (visit : α → Visit τ Step) :
    List α → List α → Environment × τ → Except Fault Bool → Environment × τ → List α → Prop
  | nil {seen : List α} {s : Environment × τ} :
      Descends start Below route visit [] seen s (.ok true) s seen
  | met {f : α} {fs seen seen' : List α} {s s' : Environment × τ} {out : Except Fault Bool}
      (h : Met route seen f)
      (hfs : Descends start Below route visit fs seen (drop route [f] s) out s' seen') :
      Descends start Below route visit (f :: fs) seen s out s' seen'
  | failed {f : α} {fs seen : List α} {s s₁ : Environment × τ} {e : Fault}
      (h : Opens start route seen s f) (hf : (enter route visit f).exec s = (.error e, s₁)) :
      Descends start Below route visit (f :: fs) seen s (.error e) (drop route fs s₁) (f :: seen)
  | aborted {f : α} {fs seen : List α} {s s₁ : Environment × τ}
      (h : Opens start route seen s f) (hf : (enter route visit f).exec s = (.ok none, s₁)) :
      Descends start Below route visit (f :: fs) seen s (.ok false) (drop route fs s₁) (f :: seen)
  | entered {f : α} {fs gs seen seen₂ seen' : List α} {s s₁ s₂ s' : Environment × τ}
      {out : Except Fault Bool} (h : Opens start route seen s f)
      (hf : (enter route visit f).exec s = (.ok (some gs), s₁))
      (hlead : LeadsTo start Below route f gs)
      (hgs : Descends start Below route visit gs (f :: seen) s₁ (.ok true) s₂ seen₂)
      (hfs : Descends start Below route visit fs seen₂ s₂ out s' seen') :
      Descends start Below route visit (f :: fs) seen s out s' seen'
  | stopped {f : α} {fs gs seen seen₂ : List α} {s s₁ s₂ : Environment × τ}
      {out : Except Fault Bool} (h : Opens start route seen s f)
      (hf : (enter route visit f).exec s = (.ok (some gs), s₁))
      (hlead : LeadsTo start Below route f gs)
      (hgs : Descends start Below route visit gs (f :: seen) s₁ out s₂ seen₂)
      (hout : out ≠ .ok true) :
      Descends start Below route visit (f :: fs) seen s out (drop route fs s₂) seen₂

theorem Descends.sound (hd : Descends start Below route visit fs seen s out s' seen')
    (hspans : Spans start Below route visit) (h : Sound start route seen s) :
    Sound start route seen' s' := by
  induction hd with
  | nil => exact h
  | met _ _ ih => exact ih (h.drop _)
  | failed hf hx | aborted hf hx => exact (hf.exec_enter hspans hx).drop _
  | entered hf hx _ _ _ ihgs ih => exact ih (ihgs (hf.exec_enter hspans hx))
  | stopped hf hx _ _ _ ihgs => exact (ihgs (hf.exec_enter hspans hx)).drop _

/-- Only visits change what a visitor keeps. -/
theorem exec_enter_kept : ((enter route visit f).exec s).2.2 = ((visit f).exec s).2.2 := by
  rw [enter, exec_bind]
  rcases (visit f).exec s with ⟨x | _ | _ | _, s₁⟩
  · rfl
  · dsimp only
    rw [exec_bind_pure, Visit.inEnvironment, exec_on]
  · rfl
  · rfl

/-- What every visit preserves of the formulas seen and of what the visitor keeps, a walk does. -/
theorem Descends.invariant {P : List α → τ → Prop}
    (hd : Descends start Below route visit fs seen s out s' seen')
    (hvisit : ∀ f seen s, Opens start route seen s f → P seen s.2 →
      P (f :: seen) ((visit f).exec s).2.2) (h : P seen s.2) : P seen' s'.2 := by
  have henter : ∀ {f : α} {seen : List α} {s s₁ : Environment × τ}
      {gs : Except Fault (Option (List α))}, Opens start route seen s f → P seen s.2 →
      (enter route visit f).exec s = (gs, s₁) → P (f :: seen) s₁.2 := by
    intro f seen s s₁ gs hopens hseen hx
    have hentered : P (f :: seen) ((enter route visit f).exec s).2.2 :=
      exec_enter_kept ▸ hvisit f seen s hopens hseen
    rwa [hx] at hentered
  induction hd with
  | nil => exact h
  | met _ _ ih => exact ih h
  | failed hf hx | aborted hf hx =>
    have hentered := henter hf h hx
    exact hentered
  | entered hf hx _ _ _ ihgs ih => exact ih (ihgs (henter hf h hx))
  | stopped hf hx _ _ _ ihgs => exact ihgs (henter hf h hx)

/-- There is a tree of calls. It is as deep as the terms are at most. -/
theorem exists_descends (hspans : Spans start Below route visit) (depth : Nat)
    (h : Sound start route seen s)
    (hfs : ∀ f ∈ fs, start.Types (route.formula f) ∧ (route.term f).index < depth) :
    ∃ out s' seen', Descends start Below route visit fs seen s out s' seen' := by
  induction depth generalizing fs seen s with
  | zero =>
    cases fs with
    | nil => exact ⟨_, _, _, .nil⟩
    | cons f fs => exact absurd (hfs f (by simp)).2 (Nat.not_lt_zero _)
  | succ depth ihdepth =>
    -- Operands are older than what they are operands of, siblings may be as young.
    induction fs generalizing seen s with
    | nil => exact ⟨_, _, _, .nil⟩
    | cons f fs ih =>
      obtain ⟨⟨hf, hdepth⟩, hfs⟩ := List.forall_mem_cons.1 hfs
      by_cases hmet : Met route seen f
      · obtain ⟨out, s', seen', hd⟩ := ih (h.drop [f]) hfs
        exact ⟨out, s', seen', .met hmet hd⟩
      · have hopens : Opens start route seen s f := ⟨h, hmet, hf⟩
        rcases hx : (enter route visit f).exec s with ⟨e | _ | gs, s₁⟩
        · exact ⟨_, _, _, .failed hopens hx⟩
        · exact ⟨_, _, _, .aborted hopens hx⟩
        · have hlead := hopens.ensures_enter hspans _ _ hx gs rfl
          have hs₁ := hopens.exec_enter hspans hx
          obtain ⟨out, s₂, seen₂, hd⟩ := ihdepth hs₁ fun g hg =>
            ⟨hlead.types g hg, (hlead.index_lt hspans.wellFormed g hg).trans_le
              (Nat.le_of_lt_succ hdepth)⟩
          by_cases hout : out = .ok true
          · subst hout
            obtain ⟨out, s', seen', hd'⟩ := ih (hd.sound hspans hs₁) hfs
            exact ⟨out, s', seen', .entered hopens hx hlead hd hd'⟩
          · exact ⟨out, _, seen₂, .stopped hopens hx hlead hd hout⟩

/-- The recursive walk makes the calls, if it may go as deep as its terms are. -/
theorem Descends.exec_inTurn (hd : Descends start Below route visit fs seen s out s' seen')
    (hs : start.terms.WellFormed) (hfs : ∀ f ∈ fs, (route.term f).index < depth) :
    (inTurn route (descend route visit depth) fs).exec (s, seen) = (out, (s', seen')) := by
  induction hd generalizing depth with
  | nil => rfl
  | met hmet _ ih =>
    obtain ⟨hdepth, hfs⟩ := List.forall_mem_cons.1 hfs
    obtain ⟨depth, rfl⟩ := Nat.exists_eq_add_one_of_ne_zero (Nat.ne_zero_of_lt hdepth)
    rw [exec_inTurn_cons, exec_descend_met hmet]
    exact ih hfs
  | failed h hf | aborted h hf =>
    obtain ⟨depth, rfl⟩ := Nat.exists_eq_add_one_of_ne_zero
      (Nat.ne_zero_of_lt (hfs _ (List.mem_cons_self ..)))
    rw [exec_inTurn_cons, exec_descend h.unmet, hf]
  | entered h hf hlead _ _ ihgs ih =>
    obtain ⟨hdepth, hfs⟩ := List.forall_mem_cons.1 hfs
    obtain ⟨depth, rfl⟩ := Nat.exists_eq_add_one_of_ne_zero (Nat.ne_zero_of_lt hdepth)
    rw [exec_inTurn_cons, exec_descend h.unmet, hf]
    dsimp only
    rw [ihgs fun g hg => (hlead.index_lt hs g hg).trans_le (Nat.le_of_lt_succ hdepth)]
    exact ih hfs
  | @stopped f fs gs seen seen₂ s s₁ s₂ out h hf hlead _ hout ihgs =>
    have hdepth := hfs f (List.mem_cons_self ..)
    obtain ⟨depth, rfl⟩ := Nat.exists_eq_add_one_of_ne_zero (Nat.ne_zero_of_lt hdepth)
    rw [exec_inTurn_cons, exec_descend h.unmet, hf]
    dsimp only
    rw [ihgs fun g hg => (hlead.index_lt hs g hg).trans_le (Nat.le_of_lt_succ hdepth)]
    match out with
    | .error e => rfl
    | .ok false => rfl
    | .ok true => exact absurd rfl hout

/-- The argument places of the terms that are not seen yet. -/
def placesLeft (start : Environment) (route : Route α) (seen : List α) : Nat :=
  start.terms.workLeft (·.args.length) (seen.map route.term)

theorem Opens.placesLeft_eq (h : Opens start route seen s f) :
    placesLeft start route seen =
      (start.childrenOf (route.term f)).length + placesLeft start route (f :: seen) := by
  obtain ⟨n, hn⟩ : ∃ n, start.terms.node? (route.term f) = some n := h.formula.exists_node
  rw [placesLeft, Store.workLeft_cons _ hn h.notMem, childrenOf_eq hn]
  rfl

/-- The walk with pending formulas follows a tree of calls. A step of it deals with one of them;
those that a visit adds fill argument places of a term that was not seen before. -/
theorem Descends.exists_steps (hd : Descends start Below route visit fs seen s out s' seen') :
    ∃ steps, steps + placesLeft start route seen' ≤ fs.length + placesLeft start route seen ∧
      ∀ fuel rest, (walkFrom route visit (steps + fuel) seen (fs ++ rest)).exec s =
        resume route visit fuel rest out s' seen' := by
  induction hd with
  | nil => exact ⟨0, by simp, fun fuel rest => by rw [Nat.zero_add]; rfl⟩
  | met hmet _ ih =>
    obtain ⟨steps, hbudget, hrun⟩ := ih
    refine ⟨steps + 1, by rw [List.length_cons]; omega, fun fuel rest => ?_⟩
    rw [Nat.add_right_comm, List.cons_append, exec_walkFrom_met hmet, hrun]
  | failed h hf | aborted h hf =>
    have hplaces := h.placesLeft_eq
    refine ⟨1, by rw [List.length_cons]; omega, fun fuel rest => ?_⟩
    rw [Nat.add_comm, List.cons_append, exec_walkFrom h.unmet, hf]
    exact resume_append nofun
  | entered h hf hlead _ _ ihgs ih =>
    -- The siblings wait below the operands, and are what is pending when these are done.
    obtain ⟨steps, hbudget, hrun⟩ := ihgs
    obtain ⟨more, hbudget', hrest⟩ := ih
    have hplaces := h.placesLeft_eq
    have hlength := hlead.length_le
    refine ⟨steps + more + 1, by rw [List.length_cons]; omega, fun fuel rest => ?_⟩
    rw [Nat.add_right_comm, List.cons_append, exec_walkFrom h.unmet, hf]
    dsimp only
    rw [Nat.add_assoc, hrun]
    exact hrest fuel rest
  | stopped h hf hlead _ hout ihgs =>
    obtain ⟨steps, hbudget, hrun⟩ := ihgs
    have hplaces := h.placesLeft_eq
    have hlength := hlead.length_le
    refine ⟨steps + 1, by rw [List.length_cons]; omega, fun fuel rest => ?_⟩
    rw [Nat.add_right_comm, List.cons_append, exec_walkFrom h.unmet, hf]
    dsimp only
    rw [hrun, resume_append hout]

/-! What is visited -/

theorem Descends.subset (hd : Descends start Below route visit fs seen s out s' seen') :
    seen ⊆ seen' := by
  induction hd with
  | nil => exact fun _ => id
  | met _ _ ih => exact ih
  | failed | aborted => exact List.subset_cons_self ..
  | entered _ _ _ _ _ ihgs ih => exact fun g hg => ih (ihgs (List.mem_cons_of_mem _ hg))
  | stopped _ _ _ _ _ ihgs => exact fun g hg => ihgs (List.mem_cons_of_mem _ hg)

/-- No term is visited twice. -/
theorem Descends.nodup (hd : Descends start Below route visit fs seen s out s' seen')
    (hnodup : (seen.map route.term).Nodup) : (seen'.map route.term).Nodup := by
  induction hd with
  | nil => exact hnodup
  | met _ _ ih => exact ih hnodup
  | failed h | aborted h => exact List.nodup_cons.2 ⟨h.notMem, hnodup⟩
  | entered h _ _ _ _ ihgs ih => exact ih (ihgs (List.nodup_cons.2 ⟨h.notMem, hnodup⟩))
  | stopped h _ _ _ _ ihgs => exact ihgs (List.nodup_cons.2 ⟨h.notMem, hnodup⟩)

/-- A term is reached from another one through operands. -/
abbrev Reached (Below : Term → Term → Prop) : Term → Term → Prop := Relation.ReflTransGen Below

theorem LeadsTo.reached (h : LeadsTo start Below route f gs) {t : Term}
    (ht : ∃ g ∈ gs, Reached Below (route.term g) t) : Reached Below (route.term f) t := by
  obtain ⟨g, hg, hreached⟩ := ht
  exact .head (h.below _ (List.mem_map_of_mem hg)) hreached

/-- What is visited is reached from where the walk started. -/
theorem Descends.reached (hd : Descends start Below route visit fs seen s out s' seen') :
    ∀ g ∈ seen', g ∈ seen ∨ ∃ f ∈ fs, Reached Below (route.term f) (route.term g) := by
  induction hd with
  | nil => exact fun g hg => .inl hg
  | met _ _ ih =>
    exact fun g hg => (ih g hg).imp_right fun ⟨f, hf, hr⟩ => ⟨f, List.mem_cons_of_mem _ hf, hr⟩
  | failed | aborted =>
    intro g hg
    obtain rfl | hg := List.mem_cons.1 hg
    · exact .inr ⟨g, by simp, .refl⟩
    · exact .inl hg
  | entered _ _ hlead _ _ ihgs ih =>
    intro g hg
    obtain hg | ⟨f, hf, hr⟩ := ih g hg
    · obtain hg | hr := ihgs g hg
      · obtain rfl | hg := List.mem_cons.1 hg
        · exact .inr ⟨g, by simp, .refl⟩
        · exact .inl hg
      · exact .inr ⟨_, List.mem_cons_self .., hlead.reached hr⟩
    · exact .inr ⟨f, List.mem_cons_of_mem _ hf, hr⟩
  | stopped _ _ hlead _ _ ihgs =>
    intro g hg
    obtain hg | hr := ihgs g hg
    · obtain rfl | hg := List.mem_cons.1 hg
      · exact .inr ⟨g, by simp, .refl⟩
      · exact .inl hg
    · exact .inr ⟨_, List.mem_cons_self .., hlead.reached hr⟩

/-- The visitor never keeps operands out of the walk, and never ends it. -/
def Proceeds (start : Environment) (route : Route α) (visit : α → Visit τ Step) : Prop :=
  ∀ f (s : Environment × τ), start.Types (route.formula f) → start.Advances s.1 →
    (visit f).Ensures s fun step _ => step = .proceed

theorem Opens.enter_proceeds (h : Opens start route seen s f)
    (hspans : Spans start Below route visit) (hproceeds : Proceeds start route visit) :
    (enter route visit f).Ensures s fun gs _ => ∃ gs', gs = some gs' ∧
      ∀ t, Below (route.term f) t → t ∈ gs'.map route.term := by
  have hstep := (hproceeds f s h.formula h.advances).and (h.ensures_visit hspans)
  refine hstep.bind fun step s₁ hstep => ?_
  obtain ⟨rfl, hs₁⟩ := hstep
  refine .bind (P := fun gs _ => ∀ t, Below (route.term f) t → t ∈ gs.map route.term)
    (.on ((hspans.operands f s₁.1 h.formula hs₁).mono fun _ _ hgs => hgs.2)) fun gs _ hgs => ?_
  exact .pure ⟨gs, rfl, hgs⟩

/-- A walk that is never stopped has visited where it started, and what is below all that it
visited. -/
theorem Descends.closed (hd : Descends start Below route visit fs seen s out s' seen')
    (hspans : Spans start Below route visit) (hproceeds : Proceeds start route visit)
    (hout : out = .ok true) :
    (∀ f ∈ fs, route.term f ∈ seen'.map route.term) ∧
    ∀ g ∈ seen', g ∈ seen ∨ ∀ t, Below (route.term g) t → t ∈ seen'.map route.term := by
  induction hd with
  | nil => exact ⟨List.forall_mem_nil _, fun g hg => .inl hg⟩
  | met hmet hfs ih =>
    obtain ⟨hstart, hbelow⟩ := ih hout
    refine ⟨List.forall_mem_cons.2 ⟨?_, hstart⟩, hbelow⟩
    exact List.map_subset _ hfs.subset (mem_of_met hmet)
  | failed | aborted => cases hout
  | stopped _ _ _ _ hstop => exact absurd hout hstop
  | @entered f fs gs seen seen₂ seen' s s₁ s₂ s' out h hf _ hgs hfs ihgs ih =>
    obtain ⟨hstart, hbelow⟩ := ih hout
    obtain ⟨hstart₂, hbelow₂⟩ := ihgs rfl
    obtain ⟨_, ⟨⟩, hall⟩ := h.enter_proceeds hspans hproceeds _ _ hf
    have hsub : seen₂.map route.term ⊆ seen'.map route.term := List.map_subset _ hfs.subset
    have hbelowf : ∀ t, Below (route.term f) t → t ∈ seen'.map route.term := by
      intro t ht
      obtain ⟨g, hg, rfl⟩ := List.mem_map.1 (hall t ht)
      exact hsub (hstart₂ g hg)
    refine ⟨List.forall_mem_cons.2 ⟨?_, hstart⟩, fun g hg => ?_⟩
    · exact hsub (List.mem_map_of_mem (hgs.subset (List.mem_cons_self ..)))
    · obtain hg | hg := hbelow g hg
      · obtain hg | hg := hbelow₂ g hg
        · obtain rfl | hg := List.mem_cons.1 hg
          · exact .inr hbelowf
          · exact .inl hg
        · exact .inr fun t ht => hsub (hg t ht)
      · exact .inr hg

/-- A walk that ends early ends at a formula that it visited. -/
theorem Descends.ends (hd : Descends start Below route visit fs seen s out s' seen')
    (hout : out ≠ .ok true) :
    ∃ g ∈ seen', ∃ seen₁ s₁, Opens start route seen₁ s₁ g ∧
      ((enter route visit g).exec s₁).1 = out.map fun _ => none := by
  induction hd with
  | nil => exact absurd rfl hout
  | met _ _ ih => exact ih hout
  | failed h hf | aborted h hf =>
    refine ⟨_, List.mem_cons_self .., _, _, h, ?_⟩
    rw [hf]
    rfl
  | entered _ _ _ _ _ _ ih => exact ih hout
  | stopped _ _ _ _ hstop ihgs => exact ihgs hstop

/-! Noting visits -/

/-- A visit that is noted. -/
def noted (visit : α → Visit τ Step) (f : α) : Visit (τ × List α) Step := do
  .update fun (env, s, notes) => (env, s, notes ++ [f])
  .on (fun v => (v.1, v.2.1)) (fun v w => (v.1, v.2, w.2.2)) (visit f)

/-- A state with notes. -/
def withNotes (s : Environment × τ) (notes : List α) : Environment × τ × List α :=
  (s.1, s.2, notes)

theorem exec_enter_noted (notes : List α) :
    (enter route (noted visit) f).exec (withNotes s notes) =
      (((enter route visit f).exec s).1,
        withNotes ((enter route visit f).exec s).2 (notes ++ [f])) := by
  have hnoted : (noted visit f).exec (withNotes s notes) =
      (((visit f).exec s).1, withNotes ((visit f).exec s).2 (notes ++ [f])) := rfl
  rw [enter, enter, exec_bind, exec_bind, hnoted]
  rcases (visit f).exec s with ⟨x | _ | _ | _, s₁⟩
  · rfl
  · dsimp only
    rw [exec_bind_pure, exec_bind_pure]
    rfl
  · rfl
  · rfl

/-- With notes the calls are the same. The notes are what was seen, the first one first. -/
theorem Descends.noted (hd : Descends start Below route visit fs seen s out s' seen') :
    Descends start Below route (noted visit) fs seen (withNotes s seen.reverse) out
      (withNotes s' seen'.reverse) seen' := by
  have hopens : ∀ {f : α} {seen : List α} {s : Environment × τ}, Opens start route seen s f →
      Opens start route seen (withNotes s seen.reverse) f :=
    fun h => ⟨⟨h.advances, h.types⟩, h.unmet, h.formula⟩
  have henter : ∀ {f : α} {seen : List α} {s s₁ : Environment × τ}
      {gs : Except Fault (Option (List α))}, (enter route visit f).exec s = (gs, s₁) →
      (enter route (Walk.noted visit) f).exec (withNotes s seen.reverse) =
        (gs, withNotes s₁ (f :: seen).reverse) := by
    intro f seen s s₁ gs hf
    rw [exec_enter_noted, hf, List.reverse_cons]
  induction hd with
  | nil => exact .nil
  | met hmet _ ih => exact .met hmet ih
  | failed h hf => exact .failed (hopens h) (henter hf)
  | aborted h hf => exact .aborted (hopens h) (henter hf)
  | entered h hf hlead _ _ ihgs ih => exact .entered (hopens h) (henter hf) hlead ihgs ih
  | stopped h hf hlead _ hout ihgs => exact .stopped (hopens h) (henter hf) hlead ihgs hout

/-! Whole walks -/

/-- A walk from a formula is the recursive walk: the outcome, the state that is left and the visits
in their order are one and the same, whatever fuel and depth are to spare. No term is visited twice,
and what is visited is reached. -/
structure DepthFirst (start : Environment) (Below : Term → Term → Prop) (route : Route α)
    (visit : α → Visit τ Step) (s : τ) (f : α) (out : Except Fault Unit) (s' : Environment × τ)
    (visits : List α) : Prop where
  loop : ∀ more, (walkFrom route visit (start.terms.edges + 2 + more) [] [f]).exec
    (start.retain (route.formula f), s) = (out, s')
  recursion : ∀ depth, (route.term f).index < depth →
    (descent route visit depth f).exec (start, s) = (out, s')
  notedLoop : ∀ more, (walkFrom route (noted visit) (start.terms.edges + 2 + more) [] [f]).exec
    (withNotes (start.retain (route.formula f), s) []) = (out, withNotes s' visits)
  notedRecursion : ∀ depth, (route.term f).index < depth →
    (descent route (noted visit) depth f).exec (withNotes (start, s) []) =
      (out, withNotes s' visits)
  once : (visits.map route.term).Nodup
  reached : ∀ g ∈ visits, Reached Below (route.term f) (route.term g)

theorem not_met_nil : ¬Met route [] f := nofun

theorem Descends.loop (hd : Descends start Below route visit [f] [] s out s' seen') (more : Nat) :
    (walkFrom route visit (start.terms.edges + 2 + more) [] [f]).exec s =
      (out.map fun _ => (), drop route seen' s') := by
  obtain ⟨steps, hbudget, hrun⟩ := hd.exists_steps
  have hplaces : placesLeft start route ([] : List α) = start.terms.edges := by
    rw [placesLeft, List.map_nil, Store.workLeft_nil, Store.edges_eq_sum]
  rw [hplaces, List.length_singleton] at hbudget
  obtain ⟨spare, hspare⟩ : ∃ spare, start.terms.edges + 2 + more = steps + spare :=
    Nat.exists_eq_add_of_le (by omega)
  rw [hspare, ← List.append_nil [f], hrun, resume_nil]

theorem Descends.recursion {u : τ} (hs : start.terms.WellFormed)
    (hd : Descends start Below route visit [f] [] (start.retain (route.formula f), u) out s' seen')
    (hdepth : (route.term f).index < depth) :
    (descent route visit depth f).exec (start, u) =
      (out.map fun _ => (), drop route seen' s') := by
  have hrun := hd.exec_inTurn hs (List.forall_mem_singleton.2 hdepth)
  rw [exec_inTurn_singleton] at hrun
  rw [descent, exec_of, hrun]

theorem Descends.depthFirst {u : τ} (hs : start.terms.WellFormed)
    (hd : Descends start Below route visit [f] [] (start.retain (route.formula f), u) out s'
      seen') :
    DepthFirst start Below route visit u f (out.map fun _ => ()) (drop route seen' s')
      seen'.reverse where
  loop := hd.loop
  recursion _ := hd.recursion hs
  notedLoop := hd.noted.loop
  notedRecursion _ := Descends.recursion hs hd.noted
  once := by
    rw [List.map_reverse]
    exact List.nodup_reverse.2 (hd.nodup List.nodup_nil)
  reached g hg := by
    obtain hg | ⟨_, hf, hr⟩ := hd.reached g (List.mem_reverse.1 hg)
    · exact absurd hg (List.not_mem_nil)
    · exact List.mem_singleton.1 hf ▸ hr

/-- If the visitor always goes on, it visits all that is reached, or the walk fails where a formula
cannot be shown or taken apart. -/
theorem Descends.proceeds {u : τ}
    (hd : Descends start Below route visit [f] [] (start.retain (route.formula f), u) out s'
      seen') (hspans : Spans start Below route visit) (hproceeds : Proceeds start route visit) :
    (out.map (fun _ => ()) = .ok () →
      ∀ t, Reached Below (route.term f) t → t ∈ seen'.map route.term) ∧
    ∀ e, out.map (fun _ => ()) = .error e → ∃ g ∈ seen', ∃ s₁ : Environment × τ,
      start.Types (route.formula g) ∧ start.Advances s₁.1 ∧
      ((enter route visit g).exec s₁).1 = .error e := by
  constructor
  · intro hok
    have hout : out = .ok true := by
      by_contra hne
      obtain ⟨g, -, seen₁, s₁, hg, hx⟩ := hd.ends hne
      cases out with
      | error e => cases hok
      | ok more =>
        obtain ⟨_, ⟨⟩, -⟩ := hg.enter_proceeds hspans hproceeds none _ (Prod.ext hx rfl)
    obtain ⟨hstart, hbelow⟩ := hd.closed hspans hproceeds hout
    intro t ht
    induction ht with
    | refl => exact hstart f (by simp)
    | tail _ hstep ih =>
      obtain ⟨g, hg, rfl⟩ := List.mem_map.1 ih
      exact (hbelow g hg).resolve_left List.not_mem_nil _ hstep
  · intro e he
    cases out with
    | ok more => cases he
    | error x =>
      obtain rfl : x = e := Except.error.inj he
      obtain ⟨g, hg, seen₁, s₁, hopens, hx⟩ := hd.ends (by simp)
      exact ⟨g, hg, s₁, hopens.formula, hopens.advances, hx⟩

/-! A formula of another environment -/

theorem loop_of_error {e : Fault} (hx : (enter route visit f).exec s = (.error e, s₁)) :
    (walkFrom route visit (fuel + 1) [] [f]).exec s = (.error e, drop route [f] s₁) := by
  rw [exec_walkFrom not_met_nil, hx]
  exact resume_nil (.error e)

theorem recursion_of_error {u : τ} {e : Fault}
    (hx : (enter route visit f).exec (start.retain (route.formula f), u) = (.error e, s₁))
    (hdepth : 0 < depth) :
    (descent route visit depth f).exec (start, u) = (.error e, drop route [f] s₁) := by
  obtain ⟨depth, rfl⟩ := Nat.exists_eq_add_one_of_ne_zero (Nat.ne_zero_of_lt hdepth)
  rw [descent, exec_of, exec_descend not_met_nil, hx]
  rfl

/-- Where the first visit fails, that is all of the walk. -/
theorem depthFirst_of_error {u : τ} {e : Fault}
    (hx : (enter route visit f).exec (start.retain (route.formula f), u) = (.error e, s₁)) :
    DepthFirst start Below route visit u f (.error e) (drop route [f] s₁) [f] := by
  have hnoted : (enter route (noted visit) f).exec
      (withNotes (start.retain (route.formula f), u) []) = (.error e, withNotes s₁ [f]) := by
    rw [exec_enter_noted, hx]
    rfl
  constructor
  · exact fun more => Nat.add_right_comm .. ▸ loop_of_error hx
  · exact fun _ hdepth => recursion_of_error hx (Nat.zero_lt_of_lt hdepth)
  · exact fun more => Nat.add_right_comm .. ▸ loop_of_error hnoted
  · exact fun _ hdepth => recursion_of_error hnoted (Nat.zero_lt_of_lt hdepth)
  · exact List.nodup_singleton _
  · exact List.forall_mem_singleton.2 .refl

/-- A walk over terms is the recursive walk, also from a formula of another environment, if a visit
refuses that. -/
theorem Spans.exists_depthFirst (hspans : Spans start Below route visit)
    (hf : (route.formula f).owner = start.id → start.Types (route.formula f))
    (hforeign : ∀ s : Environment × τ, (route.formula f).owner ≠ s.1.id →
      (enter route visit f).exec s = (.error .foreign, s)) (u : τ) :
    ∃ out s' visits, (walk route visit f).exec (start, u) = (out, s') ∧
      DepthFirst start Below route visit u f out s' visits ∧
      ((route.formula f).owner = start.id → Proceeds start route visit →
        (out = .ok () → ∀ t, Reached Below (route.term f) t → t ∈ visits.map route.term) ∧
        ∀ e, out = .error e → ∃ g ∈ visits, ∃ s₁ : Environment × τ,
          start.Types (route.formula g) ∧ start.Advances s₁.1 ∧
          ((enter route visit g).exec s₁).1 = .error e) := by
  have hretain := advances_retain start (route.formula f)
  by_cases howner : (route.formula f).owner = start.id
  · have hsound : Sound start route [] (start.retain (route.formula f), u) :=
      ⟨hretain, List.forall_mem_nil _⟩
    obtain ⟨out, s', seen', hd⟩ := exists_descends hspans ((route.term f).index + 1) hsound
      (List.forall_mem_singleton.2 ⟨hf howner, Nat.lt_succ_self _⟩)
    have hwalk := hd.depthFirst hspans.wellFormed
    refine ⟨_, _, _, hwalk.loop 0, hwalk, fun _ hproceeds => ?_⟩
    simpa [List.map_reverse] using hd.proceeds hspans hproceeds
  · have hx := hforeign (start.retain (route.formula f), u) (by rwa [hretain.id])
    have hwalk : DepthFirst start Below route visit u f _ _ _ := depthFirst_of_error hx
    exact ⟨_, _, _, hwalk.loop 0, hwalk, fun h => absurd h howner⟩

end Walk
end FormulaStack
