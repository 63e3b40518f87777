import FormulaStack.Proofs.Occurrences

/-!
The normal form of a junction of a list. A list with the absorbing literal has that literal for its
junction. Of any other list only the remainder counts: the terms of the operands in their order,
each where it occurs first, without the neutral literal.
-/
namespace FormulaStack

open Effect Environment

/-- The terms that were gathered; where an operand absorbs the others, there are none. -/
def Boolean.Gathered.terms? : Boolean.Gathered → Option (List Term)
  | .absorbed _ => none
  | .terms ts => some ts

namespace Environment

variable {env env₁ env₂ : Environment} {b : Bool} {t u : Term} {n : Node} {j : Junction}
  {f g : BoolFormula} {fs gs : List BoolFormula}

/-- A term is the literal of a truth value. -/
def IsLiteral (env : Environment) (b : Bool) (t : Term) : Prop :=
  env.terms.node? t = some ⟨if b then .true else .false, [], .bool⟩

instance : Decidable (env.IsLiteral b t) := inferInstanceAs (Decidable (_ = _))

/-- The terms of operands, each once and without the neutral literal. -/
def essential (env : Environment) (j : Junction) (fs : List BoolFormula) : List Term :=
  ((fs.map (·.term)).filter fun t => ¬env.IsLiteral (!j.limit) t).eraseDups

/-- What counts of a list of operands: nothing if the absorbing literal is among them. -/
def remainder (env : Environment) (j : Junction) (fs : List BoolFormula) : Option (List Term) :=
  if ∃ f ∈ fs, env.IsLiteral j.limit f.term then none else some (env.essential j fs)

/-- Work that gives a formula over a term. -/
def Returns (env : Environment) (e : Effect Environment BoolFormula) (t : Term) : Prop :=
  ∃ g env₁, e.exec env = (.ok g, env₁) ∧ env.Advances env₁ ∧ g.formula.owner = env.id ∧ g.term = t

/-- The term that a remainder is joined to. -/
def Joined (env : Environment) (j : Junction) : Option (List Term) → Term → Prop
  | none, t => env.IsLiteral j.limit t
  | some [], t => env.IsLiteral (!j.limit) t
  | some [u], t => t = u
  | some [u, v], t => ∀ env₁, env.Advances env₁ → ∀ f g : BoolFormula, env₁.Types f.formula →
      env₁.Types g.formula → f.term = u → g.term = v → env₁.Returns (Boolean.junction j f g) t
  | some ts, t => env.terms.node? t = some ⟨j.op, ts, .bool⟩

/-! Literals -/

/-- Nothing but the literal has the kind of a truth value. -/
theorem isLiteral_iff (henv : env.Proper) (hn : env.terms.node? t = some n) :
    env.IsLiteral b t ↔ n.kind = if b then .true else .false := by
  constructor
  · intro h
    rw [IsLiteral, hn] at h
    cases Option.some.inj h
    cases b <;> rfl
  · intro h
    obtain ⟨o, ts, k⟩ := n
    obtain ⟨ks, hks, hop⟩ := henv.wellFormed.fits hn
    have ho : o = if b then .true else .false := by
      cases o <;> cases b <;> simp_all [Node.kind] <;> split at h <;> cases h
    subst ho
    have hfits : ks = [] ∧ k = .bool := by cases b <;> exact hop
    obtain ⟨rfl, rfl⟩ := hfits
    cases hks
    exact hn

theorem isLiteral_advances (ha : env.Advances env₁) (hn : env.terms.node? t = some n) :
    env₁.IsLiteral b t ↔ env.IsLiteral b t := by
  rw [IsLiteral, IsLiteral, ha.terms.extension.node? t n hn, hn]

/-! Operands -/

/-- Boolean formulas of an environment. -/
def Operands (env : Environment) (fs : List BoolFormula) : Prop :=
  ∀ f ∈ fs, env.Types f.formula

theorem Operands.advance (h : env.Operands fs) (ha : env.Advances env₁) : env₁.Operands fs :=
  fun f hf => (h f hf).mono ha.id ha.terms.extension

theorem exists_reads (henv : env.Proper) (hf : env.Types f.formula) :
    ∃ x, env.Reads f (.own x) := by
  obtain ⟨k, hk, haccepts⟩ := hf.sort
  obtain ⟨x, hx⟩ := hf.exists_shows henv
  have hsort : x.sort = k := by
    have := henv.wellFormed.sort?_of_tree? hx
    exact Option.some.inj (this.symm.trans hk)
  refine ⟨x, hf.owner, hx, ?_⟩
  rw [f.isBoolean] at haccepts
  rw [hsort]
  obtain hsame | ⟨hwide, -⟩ := FormulaType.accepts_iff.1 haccepts
  · exact (TermSort.type_injective (s := .bool) hsame).symm
  · cases hwide

/-- One step of gathering. -/
theorem exec_gather_cons (henv : env.Proper) (hf : env.Types f.formula) (seen : List Term) :
    (Boolean.gather j seen (f :: fs)).exec env =
      if env.IsLiteral j.limit f.term then (.ok (.absorbed f), env)
      else if env.IsLiteral (!j.limit) f.term ∨ f.term ∈ seen then
        (Boolean.gather j seen fs).exec env
      else (Boolean.gather j (f.term :: seen) fs).exec env := by
  obtain ⟨n, hn⟩ := hf.exists_node
  have habsorbing : env.IsLiteral j.limit f.term ↔ n.kind = j.absorbing := by
    cases j <;> exact isLiteral_iff henv hn
  have hneutral : env.IsLiteral (!j.limit) f.term ↔ n.kind = j.neutral := by
    cases j <;> exact isLiteral_iff henv hn
  have hunwrap : f.unwrap.exec env = (.ok f.term, env) := by
    rw [BoolFormula.unwrap, exec_ask, hf.unwrap_eq]
    rfl
  have hkind : (ask (·.kind f.term)).exec env = (.ok n.kind, env) := by
    rw [exec_ask]
    exact congrArg (·, env) (kind_of_node? henv hn)
  rw [Boolean.gather, exec_bind_ok hunwrap, exec_bind_ok hkind]
  simp only [habsorbing, hneutral]
  split
  · rfl
  · split <;> rfl

/-- Gathering stops at the absorbing literal. -/
theorem gather_absorbed (henv : env.Proper) (hfs : env.Operands fs)
    (h : ∃ f ∈ fs, env.IsLiteral j.limit f.term) (seen : List Term) :
    ∃ f ∈ fs, env.IsLiteral j.limit f.term ∧
      (Boolean.gather j seen fs).exec env = (.ok (.absorbed f), env) := by
  induction fs generalizing seen with
  | nil => simp at h
  | cons f fs ih =>
    obtain ⟨hf, hrest⟩ := List.forall_mem_cons.1 hfs
    rw [exec_gather_cons henv hf]
    by_cases hlimit : env.IsLiteral j.limit f.term
    · exact ⟨f, by simp, hlimit, if_pos hlimit⟩
    · rw [if_neg hlimit]
      have hlater : ∃ g ∈ fs, env.IsLiteral j.limit g.term := by
        obtain ⟨g, hg, hg'⟩ := h
        obtain rfl | hg := List.mem_cons.1 hg
        · exact absurd hg' hlimit
        · exact ⟨g, hg, hg'⟩
      split
      · obtain ⟨g, hg, h⟩ := ih hrest hlater seen
        exact ⟨g, by simp [hg], h⟩
      · obtain ⟨g, hg, h⟩ := ih hrest hlater (f.term :: seen)
        exact ⟨g, by simp [hg], h⟩

/-- Without the absorbing literal, what was seen is followed by the remainder of what was not. -/
theorem gather_terms (henv : env.Proper) (hfs : env.Operands fs)
    (h : ∀ f ∈ fs, ¬env.IsLiteral j.limit f.term) (seen : List Term) :
    (Boolean.gather j seen fs).exec env =
      (.ok (.terms (seen.reverse ++
        (((fs.map (·.term)).filter fun t => ¬env.IsLiteral (!j.limit) t).filter
          (· ∉ seen)).eraseDups)), env) := by
  induction fs generalizing seen with
  | nil => simp [Boolean.gather]
  | cons f fs ih =>
    obtain ⟨hf, hrest⟩ := List.forall_mem_cons.1 hfs
    obtain ⟨hlimit, hlater⟩ := List.forall_mem_cons.1 h
    rw [exec_gather_cons henv hf, if_neg hlimit]
    split
    · next hdrop =>
      rw [ih hrest hlater]
      obtain hneutral | hseen := hdrop
      · simp [hneutral]
      · by_cases hneutral : env.IsLiteral (!j.limit) f.term <;> simp [hneutral, hseen]
    · next hkeep =>
      obtain ⟨hneutral, hseen⟩ := not_or.1 hkeep
      -- What is left without the new term and what was seen is left if one goes after the other.
      have hsplit : ∀ ts : List Term, ts.filter (· ∉ f.term :: seen) =
          (ts.filter (· ∉ seen)).filter fun t => !t == f.term := by
        intro ts
        rw [List.filter_filter]
        refine List.filter_congr fun t _ => ?_
        rw [Bool.eq_iff_iff]
        simp
      rw [ih hrest hlater, hsplit]
      simp [hneutral, hseen, List.eraseDups_cons]

/-! Remainders -/

theorem remainder_eq_some {ts : List Term} : env.remainder j fs = some ts ↔
    (∀ f ∈ fs, ¬env.IsLiteral j.limit f.term) ∧ env.essential j fs = ts := by
  unfold remainder
  split
  · next h =>
    obtain ⟨f, hf, hlimit⟩ := h
    exact ⟨nofun, fun hnone => absurd hlimit (hnone.1 f hf)⟩
  · next h =>
    push Not at h
    simpa using fun _ => h

theorem mem_essential : t ∈ env.essential j fs ↔
    (∃ f ∈ fs, f.term = t) ∧ ¬env.IsLiteral (!j.limit) t := by
  simp [essential, List.mem_eraseDups]

theorem ne_of_essential {ts : List Term} (h : env.essential j fs = t :: u :: ts) : t ≠ u := by
  unfold essential at h
  generalize (fs.map (·.term)).filter _ = us at h
  cases us with
  | nil => cases h
  | cons v us =>
    rw [List.eraseDups_cons, List.cons.injEq] at h
    obtain ⟨rfl, hrest⟩ := h
    have hu : u ∈ us.filter fun w => !w == v := by
      rw [← List.mem_eraseDups, hrest]
      exact List.mem_cons_self
    have hne := (List.mem_filter.1 hu).2
    rintro rfl
    simp at hne

/-- Later it is the same operands that count. -/
theorem remainder_advances (hfs : env.Operands fs) (ha : env.Advances env₁) :
    env₁.remainder j fs = env.remainder j fs := by
  have hsame : ∀ b, ∀ f ∈ fs, (env₁.IsLiteral b f.term ↔ env.IsLiteral b f.term) := by
    intro b f hf
    obtain ⟨n, hn⟩ := (hfs f hf).exists_node
    exact isLiteral_advances ha hn
  have hessential : env₁.essential j fs = env.essential j fs := by
    unfold essential
    refine congrArg _ (List.filter_congr fun t ht => ?_)
    obtain ⟨f, hf, rfl⟩ := List.mem_map.1 ht
    simp only [hsame _ f hf]
  have hlimit : (∃ f ∈ fs, env₁.IsLiteral j.limit f.term) ↔
      ∃ f ∈ fs, env.IsLiteral j.limit f.term :=
    exists_congr fun f => and_congr_right fun hf => hsame _ f hf
  unfold remainder
  simp only [hlimit, hessential]

theorem essential_insert (as bs : List BoolFormula)
    (h : env.IsLiteral (!j.limit) f.term ∨ f.term ∈ as.map (·.term)) :
    env.essential j (as ++ f :: bs) = env.essential j (as ++ bs) := by
  unfold essential
  simp only [List.map_append, List.map_cons, List.filter_append]
  by_cases hneutral : env.IsLiteral (!j.limit) f.term
  · rw [List.filter_cons_of_neg (by simpa using hneutral)]
  · have hmem : f.term ∈ (as.map (·.term)).filter fun t => ¬env.IsLiteral (!j.limit) t :=
      List.mem_filter.2 ⟨h.resolve_left hneutral, by simpa using hneutral⟩
    rw [List.filter_cons_of_pos (by simpa using hneutral), List.eraseDups_append,
      List.eraseDups_append, List.removeAll, List.filter_cons_of_neg (by simpa using hmem),
      List.removeAll]

/-- A neutral literal counts nowhere, and no operand counts twice. -/
theorem remainder_insert (as bs : List BoolFormula)
    (h : env.IsLiteral (!j.limit) f.term ∨ f.term ∈ as.map (·.term)) :
    env.remainder j (as ++ f :: bs) = env.remainder j (as ++ bs) := by
  have hlimit : (∃ g ∈ as ++ f :: bs, env.IsLiteral j.limit g.term) ↔
      ∃ g ∈ as ++ bs, env.IsLiteral j.limit g.term := by
    constructor
    · rintro ⟨g, hg, hlimit⟩
      obtain hg | hg := List.mem_append.1 hg
      · exact ⟨g, List.mem_append_left _ hg, hlimit⟩
      · obtain rfl | hg := List.mem_cons.1 hg
        · obtain hneutral | hseen := h
          · exact absurd (Option.some.inj (hlimit.symm.trans hneutral)) (by cases j <;> decide)
          · obtain ⟨a, ha, hsame⟩ := List.mem_map.1 hseen
            exact ⟨a, List.mem_append_left _ ha, hsame ▸ hlimit⟩
        · exact ⟨g, List.mem_append_right _ hg, hlimit⟩
    · rintro ⟨g, hg, hlimit⟩
      have hmem := (List.mem_append.1 hg).imp_right (List.mem_cons_of_mem f)
      exact ⟨g, List.mem_append.2 hmem, hlimit⟩
  unfold remainder
  simp only [hlimit, essential_insert as bs h]

/-! Trees and nodes -/

theorem ShowsAll.unique {ts us : List Term} {xs : List Tree} (hts : env.ShowsAll ts xs)
    (hus : env.ShowsAll us xs) (henv : env.Proper) : ts = us := by
  refine List.left_unique_forall₂' (fun t u x ht hu => ?_) hts hus
  exact henv.wellFormed.tree?_injective ht hu

/-- A tree has one node, whose arguments are the terms of the tree's. -/
theorem Shows.node_eq {o : Operator} {k : TermSort} {xs : List Tree} {ts : List Term}
    (h : env.Shows t (.node (.op o) k xs)) (hts : env.ShowsAll ts xs) (henv : env.Proper) :
    env.terms.node? t = some ⟨o, ts, k⟩ := by
  obtain ⟨n, hn, hl, hk, hargs⟩ := h.node henv
  obtain ⟨ks, -, hop⟩ := henv.wellFormed.fits hn
  have ho : n.op = o := (Store.label_eq_op hop hl).symm
  have hsame : ts = n.args := hts.unique hargs henv
  rw [hn, hsame]
  obtain ⟨op, args, sort⟩ := n
  cases ho
  cases hk
  rfl

theorem isLiteral_iff_shows (henv : env.Proper) :
    env.IsLiteral b t ↔ env.Shows t (.constant b) := by
  constructor
  · intro h
    obtain ⟨xs, hxs, hx⟩ := henv.wellFormed.tree? h
    cases hxs
    cases b <;> exact hx
  · exact fun h => h.node_eq .nil henv

/-! Joining -/

/-- What gathering makes of operands. -/
structure Gathers (env : Environment) (j : Junction) (fs : List BoolFormula)
    (out : Boolean.Gathered) : Prop where
  exec : (Boolean.gather j [] fs).exec env = (.ok out, env)
  terms : out.terms? = env.remainder j fs
  absorbed : ∀ f, out = .absorbed f → f ∈ fs ∧ env.IsLiteral j.limit f.term

theorem exists_gathers (henv : env.Proper) (hfs : env.Operands fs) (j : Junction) :
    ∃ out, env.Gathers j fs out := by
  by_cases h : ∃ f ∈ fs, env.IsLiteral j.limit f.term
  · obtain ⟨f, hf, hlimit, hx⟩ := gather_absorbed henv hfs h []
    refine ⟨_, hx, (if_pos h).symm, ?_⟩
    rintro _ ⟨⟩
    exact ⟨hf, hlimit⟩
  · have hnone : ∀ f ∈ fs, ¬env.IsLiteral j.limit f.term := by simpa using h
    refine ⟨_, gather_terms henv hfs hnone [], ?_, nofun⟩
    rw [remainder_eq_some.2 ⟨hnone, rfl⟩]
    simp [Boolean.Gathered.terms?, essential]

theorem exists_shows_essential (henv : env.Proper) (hfs : env.Operands fs) (j : Junction) :
    ∃ xs, env.ShowsAll (env.essential j fs) xs ∧ ∀ x ∈ xs, x.sort = .bool := by
  have hshown : ∀ t ∈ env.essential j fs, ∃ x, env.Shows t x ∧ x.sort = .bool := by
    intro t ht
    obtain ⟨⟨f, hf, rfl⟩, -⟩ := mem_essential.1 ht
    obtain ⟨x, -, hx⟩ := exists_reads henv (hfs f hf)
    exact ⟨x, hx⟩
  generalize env.essential j fs = ts at hshown
  induction ts with
  | nil => exact ⟨[], .nil, by simp⟩
  | cons t ts ih =>
    obtain ⟨ht, hts⟩ := List.forall_mem_cons.1 hshown
    obtain ⟨x, hx, hsort⟩ := ht
    obtain ⟨xs, hxs, hsorts⟩ := ih hts
    exact ⟨x :: xs, .cons hx hxs, by simpa [hsort] using hsorts⟩

/-- The trees of a remainder. -/
def ShowsRemainder (env : Environment) (j : Junction) :
    Option (List Term) → Tree ⊕ List Tree → Prop
  | none, .inl x => x = .constant j.limit
  | some ts, .inr xs => env.ShowsAll ts xs ∧ ∀ x ∈ xs, x.sort = .bool
  | _, _ => False

theorem exists_showsRemainder (henv : env.Proper) (hfs : env.Operands fs) (j : Junction) :
    ∃ out', env.ShowsRemainder j (env.remainder j fs) out' := by
  cases h : env.remainder j fs with
  | none => exact ⟨.inl (.constant j.limit), rfl⟩
  | some ts =>
    obtain ⟨-, rfl⟩ := remainder_eq_some.1 h
    obtain ⟨xs, hxs⟩ := exists_shows_essential henv hfs j
    exact ⟨.inr xs, hxs⟩

/-- Operands of one remainder are joined to one tree. -/
theorem computes_nary_of_remainder (henv : env.Proper) (hfs : env.Operands fs)
    {out' : Tree ⊕ List Tree} (hout' : env.ShowsRemainder j (env.remainder j fs) out') :
    Computes env Reads (Boolean.nary j fs) (.ok (.own (Tree.join j out'))) := by
  obtain ⟨out, hout⟩ := exists_gathers henv hfs j
  have hreads : env.ReadsGathered out out' := by
    rw [← hout.terms] at hout'
    match out, out', hout' with
    | .absorbed f, .inl _, rfl =>
      obtain ⟨hf, hlimit⟩ := hout.absorbed f rfl
      exact ⟨(hfs f hf).owner, (isLiteral_iff_shows henv).1 hlimit, rfl⟩
    | .terms ts, .inr xs, h => exact h
  have hsettled := computes_settle j henv hreads
  constructor
  · rw [Boolean.nary_eq, exec_bind_ok hout.exec]
    exact hsettled.advances
  · rw [Boolean.nary_eq, exec_bind_ok hout.exec]
    exact hsettled.agrees

/-- What a formula reads as, another that reads so is over the same term. -/
theorem Computes.returns {e : Effect Environment BoolFormula} {x : Tree} (henv : env.Proper)
    (h : Computes env Reads e (.ok (.own x))) (ht : env.Shows t x) : env.Returns e t := by
  obtain ⟨g, env₁, hx, ha, howner, hg, -⟩ := h.exists_ok
  have henv₁ := ha.proper henv
  exact ⟨g, env₁, hx, ha, howner.trans ha.id,
    henv₁.wellFormed.tree?_injective hg (ht.advance henv ha)⟩

theorem ShowsRemainder.advance {r : Option (List Term)} {out' : Tree ⊕ List Tree}
    (h : env.ShowsRemainder j r out') (henv : env.Proper) (ha : env.Advances env₁) :
    env₁.ShowsRemainder j r out' := by
  match r, out', h with
  | none, .inl _, h => exact h
  | some _, .inr _, ⟨hts, hxs⟩ => exact ⟨hts.advance henv ha, hxs⟩

theorem kind_ne_neutral (henv : env.Proper) {x : Tree} (ht : env.Shows t x)
    (h : ¬env.IsLiteral (!j.limit) t) : x.kind ≠ j.neutral := by
  obtain ⟨n, hn, -⟩ := ht.node henv
  have hkind : n.kind = x.kind := Except.ok.inj ((kind_of_node? henv hn).symm.trans (ht.kind henv))
  have hneutral : env.IsLiteral (!j.limit) t ↔ n.kind = j.neutral := by
    cases j <;> exact isLiteral_iff henv hn
  rwa [← hkind, Ne, ← hneutral]

/-- Two operands that count are joined as by the connective of two formulas. -/
theorem returns_junction (henv : env.Proper) {x y : Tree} {v : Term} (hx : env.Shows f.term x)
    (hy : env.Shows g.term y) (hv : env.Shows v (Tree.binary j x y)) (hf : env.Types f.formula)
    (hg : env.Types g.formula) (hne : f.term ≠ g.term)
    (hneutral : ∀ w ∈ [f.term, g.term], ¬env.IsLiteral (!j.limit) w) :
    env.Returns (Boolean.junction j f g) v := by
  obtain ⟨x', hfx⟩ := exists_reads henv hf
  obtain ⟨y', hgy⟩ := exists_reads henv hg
  obtain rfl : x' = x := Option.some.inj (hfx.2.1.symm.trans hx)
  obtain rfl : y' = y := Option.some.inj (hgy.2.1.symm.trans hy)
  have hxy : x' ≠ y' := by
    rintro rfl
    exact hne (henv.wellFormed.tree?_injective hx hy)
  have hbinary : Tree.junction j x' y' = Tree.binary j x' y' := by
    rw [Tree.junction, if_neg hxy, if_neg (kind_ne_neutral henv hy (hneutral _ (by simp))),
      if_neg (kind_ne_neutral henv hx (hneutral _ (by simp)))]
  have hjoined := computes_joined j henv hfx hgy
  rw [hbinary] at hjoined
  exact hjoined.returns henv hv

theorem joined_of_shows (henv : env.Proper) {out' : Tree ⊕ List Tree}
    (hout' : env.ShowsRemainder j (env.remainder j fs) out') (ht : env.Shows t (Tree.join j out')) :
    env.Joined j (env.remainder j fs) t := by
  cases hr : env.remainder j fs with
  | none =>
    rw [hr] at hout'
    match out', hout' with
    | .inl _, rfl => exact (isLiteral_iff_shows henv).2 ht
  | some ts =>
    rw [hr] at hout'
    match ts, out', hout' with
    | [], .inr [], _ => 
      have hneutral : (j == .and) = !j.limit := by cases j <;> rfl
      rw [Tree.join, hneutral] at ht
      exact (isLiteral_iff_shows henv).2 ht
    | [u], .inr [x], ⟨.cons hu .nil, _⟩ => exact henv.wellFormed.tree?_injective ht hu
    | [u, v], .inr [x, y], ⟨.cons hu (.cons hv .nil), _⟩ =>
      obtain ⟨-, hessential⟩ := remainder_eq_some.1 hr
      have hneutral : ∀ w ∈ [u, v], ¬env.IsLiteral (!j.limit) w := by
        rw [← hessential]
        exact fun w hw => (mem_essential.1 hw).2
      rintro env₁ ha f g hf hg rfl rfl
      obtain ⟨m, hm, -⟩ := Shows.node hu henv
      obtain ⟨n, hn, -⟩ := Shows.node hv henv
      refine returns_junction (ha.proper henv) (Shows.advance hu henv ha)
        (Shows.advance hv henv ha) (ht.advance henv ha) hf hg (ne_of_essential hessential) ?_
      simpa [isLiteral_advances ha hm, isLiteral_advances ha hn] using hneutral
    | u :: v :: w :: ts, .inr (x :: y :: z :: xs), ⟨hts, _⟩ => exact ht.node_eq hts henv

end Environment

namespace Boolean

variable {env : Environment} {fs : List BoolFormula}

/-- The junction of a list is what its remainder is joined to, and whenever a list has that
remainder its junction is over the same term: so it is if a neutral literal is put in anywhere, or an
operand again anywhere behind its place. -/
theorem nary_normal_form (henv : env.Proper) (j : Junction) (hfs : env.Operands fs) :
    ∃ g env₁, (nary j fs).exec env = (.ok g, env₁) ∧ env.Advances env₁ ∧
      g.formula.owner = env.id ∧ env₁.Joined j (env.remainder j fs) g.term ∧
      ∀ env₂, env₁.Advances env₂ →
        (∀ gs, env₂.Operands gs → env₂.remainder j gs = env.remainder j fs →
          env₂.Returns (nary j gs) g.term) ∧
        ∀ as bs f, fs = as ++ bs → env₂.Types f.formula →
          env₂.IsLiteral (!j.limit) f.term ∨ f.term ∈ as.map (·.term) →
          env₂.Returns (nary j (as ++ f :: bs)) g.term := by
  obtain ⟨out', hout'⟩ := exists_showsRemainder henv hfs j
  obtain ⟨g, env₁, hx, ha₁, howner, hg, -⟩ :=
    (computes_nary_of_remainder henv hfs hout').exists_ok
  have henv₁ := ha₁.proper henv
  have hfs₁ := hfs.advance ha₁
  have hout₁ := hout'.advance henv ha₁
  have hsame₁ := remainder_advances (j := j) hfs ha₁
  refine ⟨g, env₁, hx, ha₁, howner.trans ha₁.id, ?_, fun env₂ ha₂ => ?_⟩
  · rw [← hsame₁] at hout₁ ⊢
    exact joined_of_shows henv₁ hout₁ hg
  · have henv₂ := ha₂.proper henv₁
    have hagain : ∀ gs, env₂.Operands gs → env₂.remainder j gs = env.remainder j fs →
        env₂.Returns (nary j gs) g.term := by
      intro gs hgs hsame
      have hout₂ := hout₁.advance henv₁ ha₂
      rw [← hsame] at hout₂
      exact (computes_nary_of_remainder henv₂ hgs hout₂).returns henv₂ (hg.advance henv₁ ha₂)
    refine ⟨hagain, fun as bs f hsplit hf hdrop => hagain _ ?_ ?_⟩
    · have hfs₂ := hfs₁.advance ha₂
      rw [hsplit] at hfs₂
      intro h hh
      obtain hh | hh := List.mem_append.1 hh
      · exact hfs₂ h (List.mem_append_left _ hh)
      · obtain rfl | hh := List.mem_cons.1 hh
        · exact hf
        · exact hfs₂ h (List.mem_append_right _ hh)
    · rw [remainder_insert as bs hdrop, ← hsplit, remainder_advances hfs (ha₁.trans ha₂)]

/-- Of `true`, `p`, `q`, `p` and `r` it is the conjunction of `p`, `q` and `r`, and stays so if
there is another `q` at the end. -/
theorem nary_normal_form_three :
    let env := { Environment.new 0 .everything false false false with
      terms := Store.empty.serveAll [.construct (.truth true), .construct (.constant "p" .bool),
        .construct (.constant "q" .bool), .construct (.constant "r" .bool)] }
    let f (i : Nat) : BoolFormula := ⟨⟨⟨i⟩, .boolean, 0, none⟩, rfl⟩
    env.Proper ∧ env.Operands [f 0, f 1, f 2, f 1, f 3] ∧
      ∃ g env₁, (nary .and [f 0, f 1, f 2, f 1, f 3]).exec env = (.ok g, env₁) ∧
        env₁.terms.node? g.term = some ⟨.and, [⟨1⟩, ⟨2⟩, ⟨3⟩], .bool⟩ ∧
        env₁.Returns (nary .and [f 0, f 1, f 2, f 1, f 3, f 2]) g.term := by
  intro env f
  have henv : env.Proper := ⟨Store.wellFormed_serveAll _, rfl⟩
  have hsorts : ∀ i ∈ [0, 1, 2, 3], env.terms.sort? ⟨i⟩ = some .bool := by decide +kernel
  have htypes : ∀ i ∈ [0, 1, 2, 3], env.Types (f i).formula := fun i hi =>
    ⟨rfl, .bool, hsorts i hi, rfl⟩
  have hfs : env.Operands [f 0, f 1, f 2, f 1, f 3] := by
    intro g hg
    obtain ⟨i, hi, rfl⟩ : ∃ i ∈ [0, 1, 2, 3], f i = g := by
      simp only [List.mem_cons, List.not_mem_nil, or_false] at hg
      obtain rfl | rfl | rfl | rfl | rfl := hg <;> exact ⟨_, by decide, rfl⟩
    exact htypes i hi
  have hremainder : env.remainder .and [f 0, f 1, f 2, f 1, f 3] = some [⟨1⟩, ⟨2⟩, ⟨3⟩] := by
    decide +kernel
  obtain ⟨g, env₁, hx, ha, -, hjoined, hlater⟩ := nary_normal_form henv .and hfs
  rw [hremainder] at hjoined
  refine ⟨henv, hfs, g, env₁, hx, hjoined, ?_⟩
  refine (hlater env₁ (.refl env₁)).2 [f 0, f 1, f 2, f 1, f 3] [] (f 2) rfl ?_ (.inr (by decide))
  exact (htypes 2 (by decide)).mono ha.id ha.terms.extension

end Boolean
end FormulaStack
