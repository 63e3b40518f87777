import FormulaStack.Abbreviation
import FormulaStack.Proofs.Budgets
import FormulaStack.Proofs.Canonicity
import Mathlib.Data.Finset.Card
import Mathlib.Data.List.Nodup

/-!
The search for terms worth an abbreviation. It comes to what can be reached through connectives, it
meets every argument place there once, and it counts atoms as they occur in the term written out.
-/
namespace FormulaStack.Environment

variable {env : Environment} {root t u : Term}

/-- Whether the backend reports a connective. -/
def Connects (env : Environment) (t : Term) : Prop :=
  ∃ k ∈ [TermKind.not, .and, .or, .xor, .iff, .implies, .ite], env.kind t = .ok k

/-- What is reached from a root through connectives. -/
inductive InSkeleton (env : Environment) (root : Term) : Term → Prop where
  | root : InSkeleton env root root
  | operand {t u : Term} (ht : InSkeleton env root t) (hc : env.Connects t)
    (hu : u ∈ env.childrenOf t) : InSkeleton env root u

/-- An argument place of a connective that is reached, with the term that fills it. -/
def Fills (env : Environment) (root : Term) (place : Term × Nat) (t : Term) : Prop :=
  env.InSkeleton root place.1 ∧ env.Connects place.1 ∧ (env.childrenOf place.1)[place.2]? = some t

/-- The atoms of a term that is written out, from left to right. -/
def atoms (env : Environment) (t : Term) : List Term :=
  (env.terms.bottomUp? (fun t _ lists => if env.isConnective t then lists.flatten else [t])
    t).getD []

theorem isConnective_iff : env.isConnective t = true ↔ env.Connects t := by
  unfold isConnective Connects
  cases env.kind t with
  | error x => simp
  | ok k => cases k <;> simp [TermKind.isConnective]

/-- The terms that are met at a term. -/
def operands (env : Environment) (t : Term) : List Term :=
  if env.isConnective t then env.childrenOf t else []

theorem mem_operands : u ∈ env.operands t ↔ env.Connects t ∧ u ∈ env.childrenOf t := by
  rw [← isConnective_iff, operands]
  split_ifs with h <;> simp [h]

section

variable (hs : env.terms.WellFormed)
include hs

theorem index_operand_lt (hu : u ∈ env.operands t) : u.index < t.index := by
  exact index_childrenOf_lt hs (mem_operands.1 hu).2

theorem exists_node_operand (hu : u ∈ env.operands t) : ∃ n, env.terms.node? u = some n := by
  exact exists_node_childrenOf hs (mem_operands.1 hu).2

theorem InSkeleton.index_le (h : env.InSkeleton root t) : t.index ≤ root.index := by
  induction h with
  | root => exact le_refl _
  | operand _ hc hu ih => exact (index_operand_lt hs (mem_operands.2 ⟨hc, hu⟩)).le.trans ih

theorem InSkeleton.exists_node (h : env.InSkeleton root t)
    (hroot : ∃ n, env.terms.node? root = some n) : ∃ n, env.terms.node? t = some n := by
  cases h with
  | root => exact hroot
  | operand _ hc hu => exact exists_node_operand hs (mem_operands.2 ⟨hc, hu⟩)

theorem atoms_eq (ht : ∃ n, env.terms.node? t = some n) :
    env.atoms t = if env.isConnective t then (env.operands t).flatMap env.atoms else [t] := by
  obtain ⟨n, hn⟩ := ht
  obtain ⟨lists, hlists, ht⟩ := hs.bottomUp?
    (fun t _ lists => if env.isConnective t then lists.flatten else [t]) hn
  have hmap : lists = n.args.map env.atoms :=
    hlists.eq_map fun u b hb => by rw [atoms, hb, Option.getD_some]
  rw [atoms, ht, Option.getD_some, hmap]
  split_ifs with hc
  · rw [operands, if_pos hc, childrenOf, hn, List.flatMap_def]
  · rfl

end

/-! What is reached -/

/-- Those of some terms that are met for the first time, and not one twice. -/
def fresh (places : List Term) : List Term → List Term
  | [] => []
  | u :: us => if u ∈ places then fresh (u :: places) us else u :: fresh (u :: places) us

theorem mem_fresh {us places : List Term} : t ∈ fresh places us ↔ t ∈ us ∧ t ∉ places := by
  induction us generalizing places with
  | nil => simp [fresh]
  | cons u us ih =>
    unfold fresh
    by_cases htu : t = u
    · subst htu
      split_ifs with h <;> simp [ih, h]
    · split_ifs with h <;> simp [ih, htu]

theorem nodup_fresh (us places : List Term) : (fresh places us).Nodup := by
  induction us generalizing places with
  | nil => exact List.nodup_nil
  | cons u us ih =>
    unfold fresh
    split_ifs with h
    · exact ih _
    · exact List.nodup_cons.2 ⟨fun hu => (mem_fresh.1 hu).2 (by simp), ih _⟩

theorem foldl_meet (us pending places : List Term) :
    us.foldl (fun (pending, places) u =>
        (if u ∈ places then pending else u :: pending, u :: places)) (pending, places) =
      ((fresh places us).reverse ++ pending, us.reverse ++ places) := by
  induction us generalizing pending places with
  | nil => rfl
  | cons u us ih =>
    rw [List.foldl_cons, ih, fresh]
    split_ifs <;> simp

theorem reachFrom_cons (fuel : Nat) (t : Term) (pending reached places : List Term) :
    env.reachFrom (fuel + 1) (t :: pending) reached places =
      env.reachFrom fuel ((fresh places (env.operands t)).reverse ++ pending) (t :: reached)
        ((env.operands t).reverse ++ places) := by
  rw [reachFrom, operands]
  split_ifs
  · rw [foldl_meet]
  · simp [fresh]

/-- Where a search stands. Each term that was met is pending or reached, once; the places are those
of the terms that are reached. -/
structure Explored (env : Environment) (root : Term) (pending reached places : List Term) :
    Prop where
  nodup : (pending ++ reached).Nodup
  met : ∀ t, t ∈ pending ++ reached ↔ t = root ∨ t ∈ places
  places : places.Perm (reached.flatMap env.operands)
  sound : ∀ t ∈ pending ++ reached, env.InSkeleton root t

theorem explored_root (env : Environment) (root : Term) : env.Explored root [root] [] [] where
  nodup := List.nodup_singleton root
  met t := by simp
  places := .refl _
  sound t ht := by
    obtain rfl : t = root := by simpa using ht
    exact .root

section

variable (hs : env.terms.WellFormed) {pending reached places : List Term}
include hs

/-- Taking up a term: what is met there for the first time becomes pending. It is not the root,
which is above all that is met. -/
theorem Explored.step (h : env.Explored root (t :: pending) reached places) :
    env.Explored root ((fresh places (env.operands t)).reverse ++ pending) (t :: reached)
      ((env.operands t).reverse ++ places) := by
  have ht : env.InSkeleton root t := h.sound t (by simp)
  have hroot : ∀ u ∈ env.operands t, u ≠ root := by
    rintro u hu rfl
    have hlt := index_operand_lt hs hu
    have hle := ht.index_le hs
    omega
  have hperm : (((fresh places (env.operands t)).reverse ++ pending) ++ (t :: reached)).Perm
      (fresh places (env.operands t) ++ (t :: pending ++ reached)) := by
    rw [List.append_assoc]
    exact (List.reverse_perm _).append List.perm_middle
  constructor
  · rw [hperm.nodup_iff, List.nodup_append]
    refine ⟨nodup_fresh _ _, h.nodup, ?_⟩
    rintro u hu v hv rfl
    obtain ⟨hu, hnew⟩ := mem_fresh.1 hu
    obtain rfl | hold := (h.met u).1 hv
    · exact hroot u hu rfl
    · exact hnew hold
  · intro u
    rw [hperm.mem_iff, List.mem_append, h.met, mem_fresh, List.mem_append, List.mem_reverse]
    tauto
  · rw [List.flatMap_cons]
    exact (List.reverse_perm _).append h.places
  · intro u hu
    obtain hu | hu := List.mem_append.1 (hperm.mem_iff.1 hu)
    · obtain ⟨hc, hu⟩ := mem_operands.1 (mem_fresh.1 hu).1
      exact .operand ht hc hu
    · exact h.sound u hu

theorem Explored.length_le (h : env.Explored root pending reached places)
    (hroot : ∃ n, env.terms.node? root = some n) : reached.length ≤ env.terms.nodes.size := by
  have hnodup : (reached.map Term.index).Nodup :=
    h.nodup.of_append_right.map fun a b hab => by
      cases a
      cases b
      simpa using hab
  have hsub : reached.map Term.index ⊆ List.range env.terms.nodes.size := by
    intro i hi
    obtain ⟨u, hu, rfl⟩ := List.mem_map.1 hi
    obtain ⟨n, hn⟩ := (h.sound u (List.mem_append_right _ hu)).exists_node hs hroot
    exact List.mem_range.2 (Array.getElem?_eq_some_iff.1 hn).1
  simpa using (hnodup.subperm hsub).length_le

/-- A search with fuel for all nodes that are left ends with nothing pending. -/
theorem Explored.run (h : env.Explored root pending reached places)
    (hroot : ∃ n, env.terms.node? root = some n) :
    ∃ done found, env.Explored root [] done found ∧
      ∀ fuel, env.terms.nodes.size < reached.length + fuel →
        env.reachFrom fuel pending reached places = (done.reverse, found) := by
  induction hleft : env.terms.nodes.size - reached.length using Nat.strong_induction_on
    generalizing pending reached places with
  | _ left ih =>
    cases pending with
    | nil =>
      refine ⟨reached, places, h, fun fuel _ => ?_⟩
      cases fuel <;> rfl
    | cons t pending =>
      have hnext := h.step hs
      have hlength := hnext.length_le hs hroot
      rw [List.length_cons] at hlength
      obtain ⟨done, found, hdone, hrun⟩ :=
        ih _ (by rw [List.length_cons]; omega) hnext rfl
      refine ⟨done, found, hdone, fun fuel hfuel => ?_⟩
      cases fuel with
      | zero => omega
      | succ fuel =>
        rw [reachFrom_cons]
        apply hrun
        rw [List.length_cons]
        omega

omit hs in
theorem Explored.mem_iff {done found : List Term} (h : env.Explored root [] done found) :
    t ∈ done ↔ env.InSkeleton root t := by
  refine ⟨h.sound t, fun ht => ?_⟩
  have hplaces : ∀ u, u ∈ done ↔ u = root ∨ u ∈ found := h.met
  induction ht with
  | root => exact (hplaces root).2 (.inl rfl)
  | @operand t u _ hc hu ih =>
    refine (hplaces u).2 (.inr (h.places.mem_iff.2 ?_))
    exact List.mem_flatMap.2 ⟨t, ih, mem_operands.2 ⟨hc, hu⟩⟩

end

/-! Argument places -/

/-- The argument places of some terms, with the terms that fill them. -/
def slots (env : Environment) (ts : List Term) : List ((Term × Nat) × Term) :=
  ts.flatMap fun t => (env.operands t).zipIdx.map fun p => ((t, p.2), p.1)

theorem mem_slots {ts : List Term} {place : Term × Nat} :
    (place, u) ∈ env.slots ts ↔ place.1 ∈ ts ∧ (env.operands place.1)[place.2]? = some u := by
  obtain ⟨t, i⟩ := place
  simp only [slots, List.mem_flatMap, List.mem_map, Prod.mk.injEq, Prod.exists,
    List.mem_zipIdx_iff_getElem?]
  constructor
  · rintro ⟨t', ht', u', i', hu, ⟨rfl, rfl⟩, rfl⟩
    exact ⟨ht', hu⟩
  · rintro ⟨ht, hu⟩
    exact ⟨t, ht, u, i, hu, ⟨rfl, rfl⟩, rfl⟩

theorem map_snd_slots (ts : List Term) :
    (env.slots ts).map (·.2) = ts.flatMap env.operands := by
  simp [slots, List.map_flatMap, Function.comp_def, List.zipIdx_map_fst]

theorem nodup_slots {ts : List Term} (h : ts.Nodup) : ((env.slots ts).map (·.1)).Nodup := by
  have hmap : (env.slots ts).map (·.1) =
      ts.flatMap fun t => (List.range' 0 (env.operands t).length).map fun i => (t, i) := by
    simp [slots, List.map_flatMap, Function.comp_def, ← List.zipIdx_map_snd]
  rw [hmap, List.nodup_flatMap]
  constructor
  · exact fun t _ => (List.nodup_range' 1).map fun i j hij => congrArg Prod.snd hij
  · refine h.imp fun {t u} hne => ?_
    simp only [Function.onFun, List.disjoint_left, List.mem_map]
    rintro _ ⟨i, -, rfl⟩ ⟨j, -, hj⟩
    exact hne (congrArg Prod.fst hj).symm

/-- A term is met more than once exactly if it fills two places. -/
theorem one_lt_count_iff {ts : List Term} (h : ts.Nodup) :
    1 < (ts.flatMap env.operands).count t ↔
      ∃ p q, p ≠ q ∧ (p, t) ∈ env.slots ts ∧ (q, t) ∈ env.slots ts := by
  have hnodup : (((env.slots ts).filter (·.2 == t)).map (·.1)).Nodup :=
    (nodup_slots h).sublist (List.filter_sublist.map _)
  have hmem : ∀ p, p ∈ ((env.slots ts).filter (·.2 == t)).map (·.1) ↔ (p, t) ∈ env.slots ts := by
    intro p
    simp
  have hcount : (ts.flatMap env.operands).count t =
      (((env.slots ts).filter (·.2 == t)).map (·.1)).length := by
    rw [← map_snd_slots, List.count, List.countP_map, List.countP_eq_length_filter, List.length_map]
    rfl
  rw [hcount, ← List.toFinset_card_of_nodup hnodup, Finset.one_lt_card_iff]
  simp only [List.mem_toFinset, hmem]
  exact exists_congr fun p => exists_congr fun q => by tauto

/-! Counting -/

variable {pending : List (Term × Bool)} {counts counts' counts'' : List (Term × Nat)} {fuel : Nat}

theorem countFrom_counted {expanded : Bool} (h : (counts.lookup t).isSome) :
    env.countFrom (fuel + 1) ((t, expanded) :: pending) counts =
      env.countFrom fuel pending counts := by
  simp [countFrom, h]

theorem countFrom_atom {expanded : Bool} (h : counts.lookup t = none)
    (hc : env.isConnective t = false) :
    env.countFrom (fuel + 1) ((t, expanded) :: pending) counts =
      env.countFrom fuel pending ((t, 1) :: counts) := by
  simp [countFrom, h, hc]

/-- The operands that are still to be counted, the last one first. -/
def uncounted (env : Environment) (counts : List (Term × Nat)) (t : Term) : List Term :=
  ((env.operands t).filter fun u => (counts.lookup u).isNone).reverse

theorem countFrom_expand (h : counts.lookup t = none) (hc : env.isConnective t = true) :
    env.countFrom (fuel + 1) ((t, false) :: pending) counts =
      env.countFrom fuel ((env.uncounted counts t).map (·, false) ++ (t, true) :: pending)
        counts := by
  simp [countFrom, h, hc, uncounted, operands]

/-- The count of a term, from those of its operands. -/
def totalOf (env : Environment) (counts : List (Term × Nat)) (t : Term) : Nat :=
  (env.operands t).foldl (fun n u => min maxAtoms (n + (counts.lookup u).getD 0)) 0

theorem countFrom_expanded (h : counts.lookup t = none) (hc : env.isConnective t = true) :
    env.countFrom (fuel + 1) ((t, true) :: pending) counts =
      env.countFrom fuel pending ((t, env.totalOf counts t) :: counts) := by
  simp [countFrom, h, hc, totalOf, operands]

theorem foldl_saturating {f : Term → Nat} {us : List Term}
    (h : ∀ u ∈ us, (counts.lookup u).getD 0 = min maxAtoms (f u)) (n : Nat) :
    us.foldl (fun n u => min maxAtoms (n + (counts.lookup u).getD 0)) (min maxAtoms n) =
      min maxAtoms (n + (us.map f).sum) := by
  induction us generalizing n with
  | nil => simp
  | cons u us ih =>
    have hstep : min maxAtoms (min maxAtoms n + min maxAtoms (f u)) = min maxAtoms (n + f u) := by
      omega
    rw [List.foldl_cons, h u (by simp), hstep, ih fun v hv => h v (by simp [hv]), List.map_cons,
      List.sum_cons, Nat.add_assoc]

/-- Counts that are right, and that are there for all operands of what was counted. -/
structure Tallied (env : Environment) (counts : List (Term × Nat)) : Prop where
  right : ∀ t n, counts.lookup t = some n → n = min maxAtoms (env.atoms t).length
  closed : ∀ t, (counts.lookup t).isSome → ∀ u ∈ env.operands t, (counts.lookup u).isSome

theorem tallied_nil (env : Environment) : env.Tallied [] := ⟨nofun, nofun⟩

theorem isSome_lookup_cons {n : Nat} :
    (((t, n) :: counts).lookup u).isSome ↔ u = t ∨ (counts.lookup u).isSome := by
  rw [List.lookup_cons]
  by_cases h : u = t
  · simp [h]
  · rw [beq_eq_false_iff_ne.2 h]
    simp only [h, false_or]

theorem Tallied.cons (h : env.Tallied counts) {n : Nat}
    (hn : n = min maxAtoms (env.atoms t).length)
    (ht : ∀ u ∈ env.operands t, (counts.lookup u).isSome) : env.Tallied ((t, n) :: counts) where
  right u m hu := by
    rw [List.lookup_cons] at hu
    by_cases hut : u = t
    · subst hut
      simpa [← hn] using hu.symm
    · rw [beq_eq_false_iff_ne.2 hut] at hu
      exact h.right u m hu
  closed u hu v hv := by
    rw [isSome_lookup_cons] at hu ⊢
    obtain rfl | hu := hu
    · exact .inr (ht v hv)
    · exact .inr (h.closed u hu v hv)

theorem Tallied.totalOf (hs : env.terms.WellFormed) (h : env.Tallied counts)
    (hnode : ∃ n, env.terms.node? t = some n) (hc : env.isConnective t = true)
    (ht : ∀ u ∈ env.operands t, (counts.lookup u).isSome) :
    env.totalOf counts t = min maxAtoms (env.atoms t).length := by
  have hright : ∀ u ∈ env.operands t,
      (counts.lookup u).getD 0 = min maxAtoms (env.atoms u).length := by
    intro u hu
    obtain ⟨n, hn⟩ := Option.isSome_iff_exists.1 (ht u hu)
    rw [hn, Option.getD_some, h.right u n hn]
  have hfold := foldl_saturating hright 0
  rw [Nat.min_zero, Nat.zero_add] at hfold
  rw [Environment.totalOf, hfold, atoms_eq hs hnode, if_pos hc, List.length_flatMap]

/-- Some steps that count pending terms, and what else is older than a bound. A step is paid for by
a pending term, or by the node of a term that is counted. -/
structure Counts (env : Environment) (bound : Nat) (ts : List Term)
    (counts counts' : List (Term × Nat)) (steps : Nat) : Prop where
  tallied : env.Tallied counts'
  counted : ∀ t ∈ ts, (counts'.lookup t).isSome
  kept : ∀ t, (counts.lookup t).isSome → (counts'.lookup t).isSome
  below : ∀ t, (counts'.lookup t).isSome → (counts.lookup t).isSome ∨ t.index < bound
  budget : steps + env.terms.workLeft (·.args.length + 1) (counts'.map (·.1)) ≤
    ts.length + env.terms.workLeft (·.args.length + 1) (counts.map (·.1))
  run : ∀ fuel pending, env.countFrom (steps + fuel) (ts.map (·, false) ++ pending) counts =
    env.countFrom fuel pending counts'

theorem Counts.nil (h : env.Tallied counts) (bound : Nat) :
    env.Counts bound [] counts counts 0 where
  tallied := h
  counted := nofun
  kept _ ht := ht
  below _ ht := .inl ht
  budget := by simp
  run fuel pending := by rw [Nat.zero_add]; rfl

theorem Counts.cons {bound steps more : Nat} {ts : List Term}
    (h : env.Counts bound [t] counts counts' steps)
    (g : env.Counts bound ts counts' counts'' more) :
    env.Counts bound (t :: ts) counts counts'' (steps + more) where
  tallied := g.tallied
  counted := List.forall_mem_cons.2 ⟨g.kept t (h.counted t (by simp)), g.counted⟩
  kept u hu := g.kept u (h.kept u hu)
  below u hu := (g.below u hu).elim (h.below u) .inr
  budget := by
    have h₁ := h.budget
    have h₂ := g.budget
    simp only [List.length_cons, List.length_nil] at h₁ ⊢
    omega
  run fuel pending := by
    have h₁ := h.run (more + fuel) (ts.map (·, false) ++ pending)
    rw [Nat.add_assoc]
    exact h₁.trans (g.run fuel pending)

theorem Counts.again (h : env.Tallied counts) (ht : (counts.lookup t).isSome) (bound : Nat) :
    env.Counts bound [t] counts counts 1 where
  tallied := h
  counted := List.forall_mem_singleton.2 ht
  kept _ hu := hu
  below _ hu := .inl hu
  budget := le_refl _
  run fuel pending := by
    rw [Nat.add_comm]
    exact countFrom_counted ht

theorem notMem_of_lookup_eq_none (h : counts.lookup t = none) : t ∉ counts.map (·.1) := by
  intro hmem
  obtain ⟨p, hp, rfl⟩ := List.mem_map.1 hmem
  simpa using List.lookup_eq_none_iff.1 h p hp

theorem Counts.atom {bound : Nat} {n : Node} (hs : env.terms.WellFormed)
    (ht : env.terms.node? t = some n) (hnew : counts.lookup t = none)
    (hc : env.isConnective t = false) (hbound : t.index < bound) (h : env.Tallied counts) :
    env.Counts bound [t] counts ((t, 1) :: counts) 1 where
  tallied := by
    have hone : 1 = min maxAtoms (env.atoms t).length := by
      rw [atoms_eq hs ⟨n, ht⟩, if_neg (by simp [hc]), List.length_singleton]
      decide
    exact h.cons hone (by simp [operands, hc])
  counted := List.forall_mem_singleton.2 (isSome_lookup_cons.2 (.inl rfl))
  kept u hu := isSome_lookup_cons.2 (.inr hu)
  below u hu := by
    obtain rfl | hu := isSome_lookup_cons.1 hu
    · exact .inr hbound
    · exact .inl hu
  budget := by
    rw [Store.workLeft_cons _ ht (notMem_of_lookup_eq_none hnew)]
    simp only [List.map_cons, List.length_cons, List.length_nil]
    omega
  run fuel pending := by
    rw [Nat.add_comm]
    exact countFrom_atom hnew hc

/-- Counting a term that is not counted yet, once its operands are. -/
theorem Counts.enter {bound steps : Nat} {n : Node} (hs : env.terms.WellFormed)
    (ht : env.terms.node? t = some n) (hnew : counts.lookup t = none)
    (hc : env.isConnective t = true) (hbound : t.index < bound)
    (h : env.Counts t.index (env.uncounted counts t) counts counts' steps) :
    env.Counts bound [t] counts ((t, env.totalOf counts' t) :: counts') (1 + (steps + 1)) := by
  have hnone : counts'.lookup t = none := by
    rw [← Option.not_isSome_iff_eq_none]
    intro hsome
    obtain hold | hlt := h.below t hsome
    · simp [hnew] at hold
    · omega
  have hoperands : ∀ u ∈ env.operands t, (counts'.lookup u).isSome := by
    intro u hu
    cases hold : counts.lookup u with
    | none => exact h.counted u (by simp [uncounted, hu, hold])
    | some m => exact h.kept u (by simp [hold])
  constructor
  · exact h.tallied.cons (h.tallied.totalOf hs ⟨n, ht⟩ hc hoperands) hoperands
  · simp
  · exact fun u hu => isSome_lookup_cons.2 (.inr (h.kept u hu))
  · intro u hu
    obtain rfl | hu := isSome_lookup_cons.1 hu
    · exact .inr hbound
    · exact (h.below u hu).imp_right fun hlt => hlt.trans hbound
  · have hbudget := h.budget
    have hlength : (env.uncounted counts t).length ≤ n.args.length := by
      rw [uncounted, List.length_reverse, operands, if_pos hc, childrenOf, ht]
      exact List.length_filter_le _ _
    rw [Store.workLeft_cons _ ht (notMem_of_lookup_eq_none hnone)] at hbudget
    simp only [List.map_cons, List.length_cons, List.length_nil]
    omega
  · intro fuel pending
    have hrun := h.run (1 + fuel) ((t, true) :: pending)
    rw [show 1 + (steps + 1) + fuel = (steps + (1 + fuel)) + 1 by omega]
    rw [List.map_cons, List.map_nil, List.singleton_append, countFrom_expand hnew hc, hrun,
      Nat.add_comm 1 fuel, countFrom_expanded hnone hc]

theorem exists_counts_all {bound : Nat} {ts : List Term} (h : env.Tallied counts)
    (hone : ∀ t ∈ ts, ∀ counts, env.Tallied counts →
      ∃ counts' steps, env.Counts bound [t] counts counts' steps) :
    ∃ counts' steps, env.Counts bound ts counts counts' steps := by
  induction ts generalizing counts with
  | nil => exact ⟨counts, 0, .nil h bound⟩
  | cons t ts ih =>
    obtain ⟨counts', steps, hfirst⟩ := hone t (by simp) counts h
    obtain ⟨counts'', more, hrest⟩ := ih hfirst.tallied fun u hu => hone u (by simp [hu])
    exact ⟨counts'', steps + more, hfirst.cons hrest⟩

/-- Counting a term ends, and leaves what was pending with it. The operands are older, so a term is
not counted before it comes up again. -/
theorem exists_counts (hs : env.terms.WellFormed) (ht : ∃ n, env.terms.node? t = some n)
    {bound : Nat} (hbound : t.index < bound) (h : env.Tallied counts) :
    ∃ counts' steps, env.Counts bound [t] counts counts' steps := by
  induction hi : t.index using Nat.strong_induction_on generalizing t bound counts with
  | _ i ih =>
    subst hi
    cases hold : counts.lookup t with
    | some n =>
      have hsome : (counts.lookup t).isSome := by rw [hold]; rfl
      exact ⟨counts, 1, .again h hsome bound⟩
    | none =>
      obtain ⟨n, hn⟩ := ht
      cases hc : env.isConnective t with
      | false =>
        exact ⟨_, _, .atom hs hn hold hc hbound h⟩
      | true =>
        have hone : ∀ u ∈ env.uncounted counts t, ∀ counts, env.Tallied counts →
            ∃ counts' steps, env.Counts t.index [u] counts counts' steps := by
          intro u hu counts h
          have hu : u ∈ env.operands t := (List.mem_filter.1 (List.mem_reverse.1 hu)).1
          have hlt := index_operand_lt hs hu
          exact ih u.index hlt (exists_node_operand hs hu) hlt h rfl
        obtain ⟨counts', steps, hcounts⟩ := exists_counts_all h hone
        exact ⟨_, _, hcounts.enter hs hn hold hc hbound⟩

theorem workLeft_counts (s : Store) :
    s.workLeft (·.args.length + 1) [] = s.edges + s.nodes.size := by
  rw [Store.workLeft_nil, s.edges_eq_sum, List.sum_map_add]
  simp

/-- The counts of a root, with as much fuel as they need or more. -/
theorem exists_atomCounts (hs : env.terms.WellFormed) (hroot : ∃ n, env.terms.node? root = some n) :
    ∃ counts, env.Tallied counts ∧ (counts.lookup root).isSome ∧
      ∀ fuel, env.terms.edges + env.terms.nodes.size + 2 ≤ fuel →
        env.countFrom fuel [(root, false)] [] = counts := by
  obtain ⟨counts, steps, h⟩ := exists_counts hs hroot (Nat.lt_succ_self _) (tallied_nil env)
  refine ⟨counts, h.tallied, h.counted root (by simp), fun fuel hfuel => ?_⟩
  have hbudget := h.budget
  rw [List.map_nil, workLeft_counts] at hbudget
  obtain ⟨more, rfl⟩ : ∃ more, fuel = steps + more :=
    Nat.exists_eq_add_of_le (by simp only [List.length_cons, List.length_nil] at hbudget; omega)
  have hrun := h.run more []
  rw [List.append_nil] at hrun
  rw [show [(root, false)] = [root].map (·, false) from rfl, hrun]
  cases more <;> rfl

theorem Tallied.mem_skeleton (h : env.Tallied counts) (hroot : (counts.lookup root).isSome)
    (ht : env.InSkeleton root t) : counts.lookup t = some (min maxAtoms (env.atoms t).length) := by
  have hsome : (counts.lookup t).isSome := by
    induction ht with
    | root => exact hroot
    | operand _ hc hu ih => exact h.closed _ ih _ (mem_operands.2 ⟨hc, hu⟩)
  obtain ⟨n, hn⟩ := Option.isSome_iff_exists.1 hsome
  rw [hn, h.right t n hn]

theorem Explored.fills {done found : List Term} (h : env.Explored root [] done found) :
    1 < found.count t ↔ ∃ p q, p ≠ q ∧ env.Fills root p t ∧ env.Fills root q t := by
  have hslot : ∀ p, (p, t) ∈ env.slots done ↔ env.Fills root p t := by
    intro p
    rw [mem_slots, h.mem_iff, Fills, operands, ← isConnective_iff]
    cases env.isConnective p.1 <;> simp
  have hnodup : done.Nodup := h.nodup
  rw [h.places.count_eq, one_lt_count_iff hnodup]
  simp only [hslot]

theorem Fills.ne_root {p : Term × Nat} (hs : env.terms.WellFormed) (h : env.Fills root p t) :
    t ≠ root := by
  rintro rfl
  have hle := h.1.index_le hs
  have hlt := index_operand_lt hs (mem_operands.2 ⟨h.2.1, List.mem_of_getElem? h.2.2⟩)
  omega

/-- The search ends, and gives the terms below the root, each once, that are reached through
connectives, fill two argument places of them, and have enough atoms when they are written out. -/
theorem sharedSubterms_exact (hs : env.terms.WellFormed)
    (hroot : (env.terms.node? root).isSome) (threshold : Nat) :
    (env.sharedSubterms threshold root).Nodup ∧
    (∀ t, t ∈ env.sharedSubterms threshold root ↔
      t ≠ root ∧ env.InSkeleton root t ∧
      (∃ p q, p ≠ q ∧ env.Fills root p t ∧ env.Fills root q t) ∧
      threshold ≤ min maxAtoms (env.atoms t).length) ∧
    ∀ more, env.reachFrom (env.terms.nodes.size + 2 + more) [root] [] [] = env.reach root ∧
      env.countFrom (env.terms.edges + env.terms.nodes.size + 2 + more) [(root, false)] [] =
        env.atomCounts root := by
  have hroot' := Option.isSome_iff_exists.1 hroot
  obtain ⟨done, found, hdone, hreach⟩ := (explored_root env root).run hs hroot'
  obtain ⟨counts, htallied, hcounted, hcount⟩ := exists_atomCounts hs hroot'
  have hfound : env.reach root = (done.reverse, found) := hreach _ (by simp)
  have hcounts : env.atomCounts root = counts := hcount _ (le_refl _)
  have hnodup : done.Nodup := by simpa using hdone.nodup
  refine ⟨?_, fun t => ?_, fun more => ⟨?_, ?_⟩⟩
  · rw [sharedSubterms, hfound]
    exact (List.nodup_reverse.2 hnodup).filter _
  · rw [sharedSubterms, hfound, hcounts]
    simp only [List.mem_filter, List.mem_reverse, Bool.and_eq_true, decide_eq_true_eq,
      hdone.mem_iff, hdone.fills]
    constructor
    · rintro ⟨ht, hfills, hatoms⟩
      rw [htallied.mem_skeleton hcounted ht] at hatoms
      have hne : t ≠ root := by
        obtain ⟨p, -, -, hp, -⟩ := hfills
        exact hp.ne_root hs
      exact ⟨hne, ht, hfills, hatoms⟩
    · rintro ⟨-, ht, hfills, hatoms⟩
      refine ⟨ht, hfills, ?_⟩
      rwa [htallied.mem_skeleton hcounted ht]
  · rw [hfound]
    exact hreach _ (by simp; omega)
  · rw [hcounts]
    exact hcount _ (by omega)

/-- A conjunction of two constants that fills both places of an equivalence, and one beside a third
constant. -/
def shares : Environment :=
  { Environment.new 0 .everything false false false with
    terms := Store.empty.serveAll
      [.construct (.constant "p" .bool), .construct (.constant "q" .bool),
        .construct (.constant "r" .bool), .construct (.and [⟨0⟩, ⟨1⟩]),
        .construct (.iff ⟨3⟩ ⟨3⟩), .construct (.or [⟨3⟩, ⟨2⟩]), .construct (.implies ⟨4⟩ ⟨5⟩)] }

/-- The conjunction is found. The constants in it fill one place each. -/
theorem sharedSubterms_exact_conjunction :
    shares.terms.WellFormed ∧ (shares.terms.node? ⟨6⟩).isSome ∧
      shares.sharedSubterms 2 ⟨6⟩ = [⟨3⟩] ∧ shares.InSkeleton ⟨6⟩ ⟨3⟩ ∧
      (∃ p q, p ≠ q ∧ shares.Fills ⟨6⟩ p ⟨3⟩ ∧ shares.Fills ⟨6⟩ q ⟨3⟩) ∧
      2 ≤ min maxAtoms (shares.atoms ⟨3⟩).length ∧
      ¬ ∃ p q, p ≠ q ∧ shares.Fills ⟨6⟩ p ⟨0⟩ ∧ shares.Fills ⟨6⟩ q ⟨0⟩ := by
  have hs : shares.terms.WellFormed := Store.wellFormed_serveAll _
  have hroot : (shares.terms.node? ⟨6⟩).isSome := by decide +kernel
  have hfound : ∀ threshold ∈ [0, 1, 2], shares.sharedSubterms threshold ⟨6⟩ = [⟨3⟩] := by
    decide +kernel
  obtain ⟨-, hmem, -⟩ := sharedSubterms_exact hs hroot 2
  obtain ⟨-, hreached, hfills, hatoms⟩ :=
    (hmem ⟨3⟩).1 (by rw [hfound 2 (by simp)]; exact List.mem_singleton_self _)
  refine ⟨hs, hroot, hfound 2 (by simp), hreached, hfills, hatoms, ?_⟩
  rintro ⟨p, q, hne, hp, hq⟩
  obtain ⟨-, hmem, -⟩ := sharedSubterms_exact hs hroot 0
  have hskeleton : shares.InSkeleton ⟨6⟩ ⟨0⟩ :=
    .operand hp.1 hp.2.1 (List.mem_of_getElem? hp.2.2)
  have h := (hmem ⟨0⟩).2 ⟨by decide, hskeleton, ⟨p, q, hne, hp, hq⟩, Nat.zero_le _⟩
  rw [hfound 0 (by simp)] at h
  simp at h

end FormulaStack.Environment
