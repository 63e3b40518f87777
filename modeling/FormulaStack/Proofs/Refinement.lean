import FormulaStack.Proofs.Trees

/-!
Knowing more. What folding finds without completion it finds with completion, and in a store with
more terms.
-/
namespace FormulaStack

namespace Value

/-- Whatever is known by the first is known by the second. -/
def Refined (v w : Option Value) : Prop := ∀ x, v = some x → w = some x

theorem Refined.refl (v : Option Value) : Refined v v := fun _ h => h

theorem refined_none (w : Option Value) : Refined none w := nofun

variable {v w v' w' : Option Value} {vs ws : List (Option Value)}

theorem Refined.truth? (h : Refined v w) {b : Bool} (hv : Value.truth? v = some b) :
    Value.truth? w = some b := by
  cases v with
  | none => cases hv
  | some x => rw [h x rfl, hv]

theorem Refined.number? (h : Refined v w) {q : ℚ} (hv : Value.number? v = some q) :
    Value.number? w = some q := by
  cases v with
  | none => cases hv
  | some x => rw [h x rfl, hv]

/-- What is read from each of several operands. -/
theorem mapM_refined {α : Type} {get? : Option Value → Option α}
    (hget : ∀ {v w a}, Refined v w → get? v = some a → get? w = some a)
    (h : List.Forall₂ Refined vs ws) {as : List α} (hvs : vs.mapM get? = some as) :
    ws.mapM get? = some as :=
  mapM_eq_some.2 ((forall₂_comp h (mapM_eq_some.1 hvs)).imp fun _ _ ⟨_, hv, ha⟩ => hget hv ha)

theorem any_truth_refined {b : Bool} (h : List.Forall₂ Refined vs ws)
    (hvs : vs.any (Value.truth? · == some b) = true) :
    ws.any (Value.truth? · == some b) = true := by
  obtain ⟨v, hv, hb⟩ := List.any_eq_true.1 hvs
  obtain ⟨w, hw, hvw⟩ := exists_related h.flip v hv
  exact List.any_eq_true.2 ⟨w, hw, beq_iff_eq.2 (Refined.truth? hvw (beq_iff_eq.1 hb))⟩

theorem all_truth_refined {b : Bool} (h : List.Forall₂ Refined vs ws)
    (hvs : vs.all (Value.truth? · == some b) = true) :
    ws.all (Value.truth? · == some b) = true := by
  refine List.all_eq_true.2 fun w hw => ?_
  obtain ⟨v, hv, hvw⟩ := exists_related h w hw
  exact beq_iff_eq.2 (Refined.truth? hvw (beq_iff_eq.1 (List.all_eq_true.1 hvs v hv)))

theorem any_truth_of_all {b c : Bool} (h : vs.all (Value.truth? · == some b) = true)
    (hbc : b ≠ c) : ¬ vs.any (Value.truth? · == some c) = true := by
  intro hany
  obtain ⟨v, hv, hc⟩ := List.any_eq_true.1 hany
  have hb := List.all_eq_true.1 h v hv
  exact hbc (Option.some.inj ((beq_iff_eq.1 hb).symm.trans (beq_iff_eq.1 hc)))

theorem all_refined (h : List.Forall₂ Refined vs ws) : Refined (all vs) (all ws) := by
  intro x hx
  unfold all at hx ⊢
  split at hx
  · next hany => rwa [if_pos (any_truth_refined h hany)]
  · split at hx
    · next hall =>
      have hws := all_truth_refined h hall
      rwa [if_neg (any_truth_of_all hws (by decide)), if_pos hws]
    · cases hx

theorem any_refined (h : List.Forall₂ Refined vs ws) : Refined (any vs) (any ws) := by
  intro x hx
  unfold any at hx ⊢
  split at hx
  · next hany => rwa [if_pos (any_truth_refined h hany)]
  · split at hx
    · next hall =>
      have hws := all_truth_refined h hall
      rwa [if_neg (any_truth_of_all hws (by decide)), if_pos hws]
    · cases hx

theorem implies_refined (hv : Refined v v') (hw : Refined w w') :
    Refined (implies v w) (implies v' w') := by
  intro x hx
  unfold implies at hx
  split at hx
  · next ha => simpa [implies, hv.truth? ha] using hx
  · next hb _ =>
    cases hx
    unfold implies
    rw [hw.truth? hb]
    split <;> simp_all
  · next ha hb =>
    simpa [implies, hv.truth? ha, hw.truth? hb] using hx
  · cases hx

theorem equal_refined (hv : Refined v v') (hw : Refined w w') (same : Prop) [Decidable same] :
    Refined (if same then some (.truth true) else do some (.truth (decide ((← v) = (← w)))))
      (if same then some (.truth true) else do some (.truth (decide ((← v') = (← w'))))) := by
  intro x hx
  split at hx
  · next h => rwa [if_pos h]
  · next h =>
    obtain ⟨a, ha, rest⟩ := Option.bind_eq_some_iff.1 hx
    obtain ⟨b, hb, hxb⟩ := Option.bind_eq_some_iff.1 rest
    rw [if_neg h, hv a ha, hw b hb]
    exact hxb

/-- The branches of a choice that are one term are known alike. -/
theorem ite_refined {c c' : Option Value} (hc : Refined c c') (hv : Refined v v')
    (hw : Refined w w') (same : Prop) [Decidable same] (hsame : same → v = w) :
    Refined
      (match truth? c with
        | some true => v
        | some false => w
        | none => if same then v else none)
      (match truth? c' with
        | some true => v'
        | some false => w'
        | none => if same then v' else none) := by
  intro x hx
  split at hx
  · next h =>
    rw [hc.truth? h]
    exact hv x hx
  · next h =>
    rw [hc.truth? h]
    exact hw x hx
  · split at hx
    · next h =>
      split
      · exact hv x hx
      · exact hw x (hsame h ▸ hx)
      · rw [if_pos h]
        exact hv x hx
    · cases hx

/-- A node is known with completion if it is known without, and its arguments are. -/
theorem ofNode_refined {t : Term} {n : Node} {f g : Term → Option Value}
    (h : ∀ a ∈ n.args, Refined (f a) (g a)) :
    Refined (ofNode false t n (n.args.map f)) (ofNode true t n (n.args.map g)) := by
  obtain ⟨op, args, k⟩ := n
  have hall : List.Forall₂ Refined (args.map f) (args.map g) := by
    rw [List.forall₂_map_left_iff, List.forall₂_map_right_iff, List.forall₂_same]
    exact h
  dsimp only at h
  cases op with
  | true | false | int _ | real _ | bits _ _ => exact .refl _
  | and => exact all_refined hall
  | or => exact any_refined hall
  | apply d =>
    cases args with
    | nil => exact refined_none _
    | cons => exact refined_none _
  | not =>
    match args with
    | [a] =>
      intro x hx
      obtain ⟨b, hb, hxb⟩ := Option.map_eq_some_iff.1 hx
      exact Option.map_eq_some_iff.2 ⟨b, (h a (by simp)).truth? hb, hxb⟩
    | [] | _ :: _ :: _ => exact refined_none _
  | implies =>
    match args with
    | [a, b] => exact implies_refined (h a (by simp)) (h b (by simp))
    | [] | [_] | _ :: _ :: _ :: _ => exact refined_none _
  | iff | eq =>
    match args with
    | [a, b] => exact equal_refined (h a (by simp)) (h b (by simp)) (a = b)
    | [] | [_] | _ :: _ :: _ :: _ => exact refined_none _
  | ite =>
    match args with
    | [c, a, b] =>
      exact ite_refined (h c (by simp)) (h a (by simp)) (h b (by simp)) (a = b) (congrArg f)
    | [] | [_] | [_, _] | _ :: _ :: _ :: _ :: _ => exact refined_none _
  | distinct =>
    intro x hx
    obtain ⟨vs, hvs, hxv⟩ := Option.map_eq_some_iff.1 hx
    have hws : (args.map g).mapM id = some vs := mapM_refined (fun hr => hr _) hall hvs
    exact Option.map_eq_some_iff.2 ⟨vs, hws, hxv⟩
  | arith op =>
    intro x hx
    obtain ⟨qs, hqs, hxq⟩ := Option.bind_eq_some_iff.1 hx
    exact Option.bind_eq_some_iff.2 ⟨qs, mapM_refined (fun hr => hr.number?) hall hqs, hxq⟩
  | bound _ | quantifier _ _ | bitwise _ | extract _ _ | select | store | constArray =>
    exact refined_none _

end Value

namespace Store

variable {s u : Store} {t : Term} {v : Value}

/-- What is known of a node, from what is known of its arguments. -/
theorem WellFormed.fold_eq (hs : s.WellFormed) (complete : Bool) {n : Node}
    (ht : s.node? t = some n) :
    s.fold complete t = Value.ofNode complete t n (n.args.map (s.fold complete)) := by
  obtain ⟨vs, hvs, hv⟩ := hs.bottomUp? (Value.ofNode complete) ht
  obtain rfl : vs = n.args.map (s.fold complete) := hvs.eq_map fun a v ha => by
    rw [fold, ha, Option.join_some]
  rw [fold, hv, Option.join_some]

theorem exists_node_of_fold {complete : Bool} (h : s.fold complete t = some v) :
    ∃ n, s.node? t = some n := by
  obtain ⟨w, hw, -⟩ : ∃ w, s.bottomUp? (Value.ofNode complete) t = some w ∧ w = some v := by
    unfold fold at h
    cases hb : s.bottomUp? (Value.ofNode complete) t with
    | none => rw [hb] at h; cases h
    | some w => exact ⟨w, rfl, by rwa [hb] at h⟩
  exact exists_node_of_bottomUp? hw

/-- Completion only adds to what is known. -/
theorem WellFormed.fold_refined (hs : s.WellFormed) (t : Term) :
    Value.Refined (s.fold false t) (s.fold true t) := by
  intro v hv
  obtain ⟨n, hn⟩ := exists_node_of_fold hv
  revert v
  refine hs.induction hn fun t n hn ih => ?_
  rw [hs.fold_eq false hn, hs.fold_eq true hn]
  obtain ⟨ks, hks, -⟩ := hs.fits hn
  refine Value.ofNode_refined fun a ha => ?_
  obtain ⟨m, hm⟩ := hks.node? a ha
  exact ih a ha m hm

/-- What is known stays known when terms are added. -/
theorem Grows.fold_eq_some (h : s.Grows u) (hs : s.WellFormed) {complete : Bool}
    (hv : s.fold complete t = some v) : u.fold complete t = some v := by
  obtain ⟨n, hn⟩ := exists_node_of_fold hv
  rw [← hv]
  exact congrArg Option.join (hs.bottomUp?_extends (h.wellFormed hs) h.extension hn)

end Store
end FormulaStack
