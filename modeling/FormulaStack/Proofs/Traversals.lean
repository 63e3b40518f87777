import Mathlib.Data.List.Forall2

/-!
Lists that go together place by place. A traversal that succeeds gives a list that goes with the one
it went through.
-/
namespace FormulaStack

variable {α β γ ε : Type} {R : α → β → Prop} {S : α → γ → Prop} {as : List α} {bs : List β}
  {cs : List γ}

/-- Every element of the second of two lists goes with one of the first. -/
theorem exists_related (h : List.Forall₂ R as bs) : ∀ b ∈ bs, ∃ a ∈ as, R a b := by
  induction h with
  | nil => simp
  | cons hab _ ih =>
    intro b hb
    obtain rfl | hb := List.mem_cons.1 hb
    · exact ⟨_, by simp, hab⟩
    · obtain ⟨a, ha, hab⟩ := ih b hb
      exact ⟨a, by simp [ha], hab⟩

theorem exists_forall₂ (h : ∀ a ∈ as, ∃ b, R a b) : ∃ bs, List.Forall₂ R as bs := by
  induction as with
  | nil => exact ⟨[], .nil⟩
  | cons a as ih =>
    obtain ⟨b, hb⟩ := h a List.mem_cons_self
    obtain ⟨bs, hbs⟩ := ih fun c hc => h c (List.mem_cons_of_mem _ hc)
    exact ⟨b :: bs, .cons hb hbs⟩

/-- Two lists that both go with a third go together. -/
theorem forall₂_comp (hR : List.Forall₂ R as bs) (hS : List.Forall₂ S as cs) :
    List.Forall₂ (fun b c => ∃ a, R a b ∧ S a c) bs cs := by
  induction hR generalizing cs with
  | nil =>
    cases hS
    exact .nil
  | cons h _ ih =>
    cases hS with
    | cons h' hs => exact .cons ⟨_, h, h'⟩ (ih hs)

theorem exists_of_forall₂_comp (h : List.Forall₂ (fun b c => ∃ a, R a b ∧ S a c) bs cs) :
    ∃ as, List.Forall₂ R as bs ∧ List.Forall₂ S as cs := by
  induction h with
  | nil => exact ⟨[], .nil, .nil⟩
  | cons h _ ih =>
    obtain ⟨a, hR, hS⟩ := h
    obtain ⟨as, hRs, hSs⟩ := ih
    exact ⟨a :: as, .cons hR hRs, .cons hS hSs⟩

theorem eq_map_of_forall₂ {f : α → β} (h : List.Forall₂ (fun a b => b = f a) as bs) :
    bs = as.map f := by
  induction h with
  | nil => rfl
  | cons h _ ih => rw [h, ih, List.map_cons]

/-- Lists over one list, of which the second is a function of the first. -/
theorem eq_map_of_related {f : β → γ} (hR : List.Forall₂ R as bs) (hS : List.Forall₂ S as cs)
    (h : ∀ b ∈ bs, ∀ a c, R a b → S a c → c = f b) : cs = bs.map f := by
  induction hR generalizing cs with
  | nil =>
    cases hS
    rfl
  | cons hab _ ih =>
    cases hS with
    | cons hac hS =>
      rw [List.map_cons, h _ (by simp) _ _ hab hac, ih hS fun b hb => h b (by simp [hb])]

theorem mapM_eq_some {f : α → Option β} :
    as.mapM f = some bs ↔ List.Forall₂ (fun a b => f a = some b) as bs := by
  induction as generalizing bs with
  | nil => simp [eq_comm]
  | cons a as ih =>
    simp only [List.mapM_cons, List.forall₂_cons_left_iff, Option.bind_eq_bind,
      Option.bind_eq_some_iff, Option.pure_def, Option.some.injEq, ih]
    grind

theorem mapM_eq_ok {f : α → Except ε β} :
    as.mapM f = .ok bs ↔ List.Forall₂ (fun a b => f a = .ok b) as bs := by
  induction as generalizing bs with
  | nil =>
    rw [List.mapM_nil, List.forall₂_nil_left_iff]
    exact ⟨fun h => by cases h; rfl, fun h => by rw [h]; rfl⟩
  | cons a as ih =>
    rw [List.mapM_cons, List.forall₂_cons_left_iff]
    cases ha : f a with
    | error e => simp [bind, Except.bind]
    | ok b =>
      cases has : as.mapM f with
      | error e => simp [bind, Except.bind, ← ih, has]
      | ok bs' =>
        have hbs : ∀ cs, List.Forall₂ (fun a b => f a = .ok b) as cs ↔ bs' = cs := fun cs => by
          rw [← ih, has, Except.ok.injEq]
        simp [bind, Except.bind, pure, Except.pure, hbs, @eq_comm _ bs]

end FormulaStack
