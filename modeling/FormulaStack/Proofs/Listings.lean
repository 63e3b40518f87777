import FormulaStack.Proofs.Assignments
import FormulaStack.Proofs.Canonicity
import FormulaStack.Proofs.Completions
import FormulaStack.Proofs.Worlds
import Mathlib.Data.Fintype.BigOperators

/-!
Enumerations of models over a sound session. What the rounds before have found is blocked, and
nothing else is; so each round finds something new, and what is left in the end is nothing.
-/
namespace FormulaStack

open Effect Environment

variable {A : TermSort → TermSort → Type} {σ τ α : Type}

namespace World

variable {w w' : World σ} {id : Nat} {p q : Seat σ}

/-- A stack that is there, with the environment that it works in. -/
def seat? (w : World σ) (id : Nat) : Option (Seat σ) :=
  (w.stack? id).bind fun stack => (w.contexts[stack.home]?).map fun c => ⟨c.env, stack⟩

theorem seat?_of_context {c : Context} {s : AssertionStack σ} (hs : w.stack? id = some s)
    (hc : w.contexts[s.home]? = some c) : w.seat? id = some ⟨c.env, s⟩ := by
  simp [seat?, hs, hc]

theorem exists_context (hp : w.seat? id = some p) :
    ∃ c s, w.stack? id = some s ∧ w.contexts[s.home]? = some c ∧ p = ⟨c.env, s⟩ := by
  simp only [seat?, Option.bind_eq_some_iff, Option.map_eq_some_iff] at hp
  obtain ⟨s, hs, c, hc, rfl⟩ := hp
  exact ⟨c, s, hs, hc, rfl⟩

theorem seat?_put {c : Context} {s : AssertionStack σ} (hs : w.stack? id = some s)
    (hc : w.contexts[s.home]? = some c) {t : Site σ} (hhome : t.stack.home = s.home) :
    (w.put id s.home t).seat? id = some t.seat := by
  apply seat?_of_context (c := { c with env := t.env })
  · rw [stack?_put hs, if_pos rfl]
  · rw [context_put hc, if_pos hhome]

theorem seat?_discard (hp : w.seat? id = some p) (f : Formula) :
    ∃ q, (w.discard f).seat? id = some q ∧ q.stack = p.stack ∧ p.env.Advances q.env := by
  obtain ⟨c, s, hs, hc, rfl⟩ := exists_context hp
  by_cases hf : f.owner = s.home
  · have hc' : (w.discard f).contexts[s.home]? = some { c with env := c.env.discard f } := by
      rw [discard, Array.getElem?_modify, if_pos hf, hc]
      rfl
    exact ⟨_, seat?_of_context hs hc', rfl, c.env.advances_discard f⟩
  · have hc' : (w.discard f).contexts[s.home]? = some c := by
      rw [discard, Array.getElem?_modify, if_neg hf, hc]
    exact ⟨_, seat?_of_context hs hc', rfl, .refl c.env⟩

theorem seat?_discardAll (hp : w.seat? id = some p) (fs : List Formula) :
    ∃ q, (w.discardAll fs).seat? id = some q ∧ q.stack = p.stack ∧ p.env.Advances q.env := by
  induction fs generalizing w p with
  | nil => exact ⟨p, hp, rfl, .refl _⟩
  | cons f fs ih =>
    obtain ⟨q, hq, hstack, hadv⟩ := seat?_discard hp f
    obtain ⟨r, hr, hstack', hadv'⟩ := ih hq
    exact ⟨r, hr, hstack'.trans hstack, hadv.trans hadv'⟩

variable [Session σ]

/-- Work at a stack. -/
theorem ensures_atStack {e : Effect (Site σ) α} {n : Nat} {Q : α → Seat σ → Prop}
    (hp : w.seat? id = some p)
    (h : ∀ s : Site σ, s.seat = p → Site.Spends n e s fun a t => Q a t.seat) :
    (atStack id e).Ensures w fun a w' => ∃ q, w'.seat? id = some q ∧ p.Moves n q ∧ Q a q := by
  obtain ⟨c, s, hs, hc, rfl⟩ := exists_context hp
  intro a w' hx
  rw [exec_atStack hs hc, Prod.mk.injEq] at hx
  obtain ⟨hout, rfl⟩ := hx
  obtain ⟨hmoves, hQ⟩ := h (w.site c s) rfl a _ (Prod.ext hout rfl)
  exact ⟨_, seat?_put hs hc hmoves.home, hmoves, hQ⟩

omit [Session σ] in
theorem ensures_beside {e : Effect (World σ) α} {y : World σ × τ} {Q : α → World σ × τ → Prop}
    (h : e.Ensures y.1 fun a w => Q a (w, y.2)) : (beside e).Ensures y Q :=
  .on h

/-- A callback that notes the literals it is shown. -/
def noting (callback : Nat → List BoolFormula → Effect (World σ × τ) Unit) (count : Nat)
    (literals : List BoolFormula) : Effect (World σ × τ × List (List BoolFormula)) Unit := do
  .update fun (w, x, calls) => (w, x, calls ++ [literals])
  .on (fun y => (y.1, y.2.1)) (fun z y => (z.1, z.2, y.2.2)) (callback count literals)

/-- The state without the notes of a callback. -/
def forget (y : World σ × τ × List (List BoolFormula)) : World σ × τ := (y.1, y.2.1)

variable {callback : Nat → List BoolFormula → Effect (World σ × τ) Unit}

omit [Session σ] in
theorem along_noting (count : Nat) (literals : List BoolFormula) :
    Along forget (noting callback count literals) (callback count literals) := by
  intro y
  simp only [noting, exec_bind, exec_update, exec_on]
  rfl

theorem along_round (id count : Nat) (model : List (BoolFormula × Term)) :
    Along forget (round id count model (noting callback)) (round id count model callback) := by
  refine .andThen (.bind (along_noting count _) fun _ => ?_) fun _ => rfl
  split
  · exact fun _ => rfl
  · exact .bind (fun _ => rfl) fun _ _ => rfl

theorem along_modelsFrom (id : Nat) (important : List (BoolFormula × Term)) (fuel count : Nat) :
    Along forget (modelsFrom id important (noting callback) fuel count)
      (modelsFrom id important callback fuel count) := by
  induction fuel generalizing count with
  | zero => exact fun _ => rfl
  | succ fuel ih =>
    rw [modelsFrom_succ, modelsFrom_succ]
    refine .bind (fun _ => rfl) fun model => ?_
    cases model with
    | none => exact fun _ => rfl
    | some model =>
      refine .bind (along_round id count model) fun more => ?_
      cases more with
      | true => exact ih (count + 1)
      | false => exact fun _ => rfl

/-- Notes change nothing else. -/
theorem along_allSat (id : Nat) (important : List BoolFormula)
    (callback : Nat → List BoolFormula → Effect (World σ × τ) Unit) :
    Along forget (allSat id important (noting callback)) (allSat id important callback) := by
  rw [allSat_eq, allSat_eq]
  refine .bind (fun _ => rfl) fun _ => .bind (.attempt (.bind (fun _ => rfl)
    fun terms => along_modelsFrom id _ _ 0)) fun outcome => .bind (fun _ => rfl) fun _ => ?_
  cases outcome <;> exact fun _ => rfl

end World

namespace SoundSession

variable [Session σ] (O : SoundSession σ A)

/-- A callback that leaves a stack alone. It may do what it likes with the literals and with
everything else; where it succeeds, the stack is there, and its session has asserted what it had
asserted before and made no check. -/
def Aloof (id : Nat) (callback : Nat → List BoolFormula → Effect (World σ × τ) Unit) : Prop :=
  ∀ count literals w x p asserted (xs : List Tree), w.seat? id = some p → p.Holds O asserted →
    p.env.ReadsAll literals (xs.map .own) →
      (callback count literals).Ensures (w, x) fun _ y =>
        ∃ q, y.1.seat? id = some q ∧ p.Moves 0 q ∧ q.Holds O asserted

/-- Different truth values of some propositions, each of them those in an interpretation of what was
asserted, and calls with literals that describe them. -/
structure Lists (prior xs : List Tree) (env : Environment) (calls : List (List BoolFormula))
    (vectors : List (List Bool)) : Prop where
  described : List.Forall₂ (env.Describes xs) calls vectors
  distinct : vectors.Nodup
  realised : ∀ v ∈ vectors, ∃ I, O.Possible I ∧ I.Satisfies prior ∧ xs.map I.truth = v

namespace Lists

variable {O} {prior xs : List Tree} {env env' : Environment} {calls : List (List BoolFormula)}
  {vectors : List (List Bool)} {I : Valuation A} {literals : List BoolFormula}

theorem nil (env : Environment) : O.Lists prior xs env [] [] := ⟨.nil, .nil, by simp⟩

theorem advance (h : O.Lists prior xs env calls vectors) (henv : env.Proper)
    (ha : env.Advances env') : O.Lists prior xs env' calls vectors :=
  ⟨h.described.imp fun _ _ hd => hd.advance henv ha, h.distinct, h.realised⟩

theorem concat (h : O.Lists prior xs env calls vectors) (hI : O.Possible I)
    (hprior : I.Satisfies prior) (hnew : xs.map I.truth ∉ vectors)
    (hl : env.ReadsAll literals (xs.map fun x => .own (x.literal (I.truth x)))) :
    O.Lists prior xs env (calls ++ [literals]) (vectors ++ [xs.map I.truth]) where
  described := by
    refine List.rel_append h.described (.cons ⟨by simp, ?_⟩ .nil)
    simpa [List.zipWith_map_right] using hl
  distinct := h.distinct.append (List.nodup_singleton _) (List.disjoint_singleton.2 hnew)
  realised v hv := by
    obtain hv | hv := List.mem_append.1 hv
    · exact h.realised v hv
    · exact ⟨I, hI, hprior, (List.mem_singleton.1 hv).symm⟩

/-- There are not more than all vectors. -/
theorem length_le (h : O.Lists prior xs env calls vectors) : vectors.length ≤ 2 ^ xs.length := by
  -- Only lists of one length are finitely many.
  have hlength : ∀ v ∈ vectors, v.length = xs.length := by
    intro v hv
    obtain ⟨I, -, -, rfl⟩ := h.realised v hv
    exact List.length_map _
  have hnodup : (vectors.pmap Subtype.mk hlength : List (List.Vector Bool xs.length)).Nodup :=
    h.distinct.pmap fun _ _ _ _ h => congrArg Subtype.val h
  have hcard := hnodup.length_le_card
  rw [card_vector, Fintype.card_bool] at hcard
  exact List.length_pmap.symm.trans_le hcard

end Lists
end SoundSession

namespace World

variable [Session σ] {w : World σ} {id n count : Nat} {p q : Seat σ} {O : SoundSession σ A}
  {prior asserted xs : List Tree} {vectors : List (List Bool)}
  {y z : World σ × τ × List (List BoolFormula)}
  {callback : Nat → List BoolFormula → Effect (World σ × τ) Unit}

/-- Where an enumeration that started at `p` has come to, after some checks and calls. -/
structure Stage (O : SoundSession σ A) (id : Nat) (p : Seat σ) (prior xs : List Tree)
    (checks : Nat) (vectors : List (List Bool)) (asserted : List Tree)
    (y : World σ × τ × List (List BoolFormula)) (q : Seat σ) : Prop where
  seat : y.1.seat? id = some q
  moves : p.Moves checks q
  holds : q.Holds O asserted
  lists : O.Lists prior xs q.env y.2.2 vectors

/-- What is asserted excludes some vectors, and nothing else. -/
def Excludes (A : TermSort → TermSort → Type) (prior xs : List Tree) (vectors : List (List Bool))
    (asserted : List Tree) : Prop :=
  ∀ I : Valuation A, I.Satisfies asserted ↔ I.Satisfies prior ∧ xs.map I.truth ∉ vectors

theorem Excludes.concat {I : Valuation A} {x : Tree} (hxs : ∀ x ∈ xs, x.Proposition)
    (h : Excludes A prior xs vectors asserted)
    (hx : ∀ J : Valuation A, J.truth x = (xs.map fun x => x.literal !I.truth x).any J.truth) :
    Excludes A prior xs (vectors ++ [xs.map I.truth]) (asserted ++ [x]) := by
  intro J
  rw [Valuation.satisfies_concat, h J, hx J, Tree.any_literals hxs]
  simp [and_assoc]

namespace Stage

theorem later {q' : Seat σ} {asserted' : List Tree} {w' : World σ} {j k : Nat}
    (h : Stage O id p prior xs j vectors asserted y q) (hseat : w'.seat? id = some q')
    (hmoves : q.Moves k q') (hholds : q'.Holds O asserted') :
    Stage O id p prior xs (j + k) vectors asserted' (w', y.2) q' :=
  ⟨hseat, h.moves.trans hmoves, hholds, h.lists.advance h.holds.proper hmoves.env⟩

theorem discard (h : Stage O id p prior xs n vectors asserted y q) (fs : List Formula) :
    ∃ q', Stage O id p prior xs n vectors asserted (y.1.discardAll fs, y.2) q' := by
  obtain ⟨q', hq', hstack, ha⟩ := seat?_discardAll h.seat fs
  exact ⟨q', h.later hq' (.of_env hstack ha) (h.holds.advance ha (congrArg (·.session) hstack))⟩

/-- Work at the stack. -/
theorem work {e : Effect (Site σ) α} {k : Nat} {Q : α → Seat σ → Prop}
    (h : Stage O id p prior xs n vectors asserted y q)
    (he : ∀ s : Site σ, s.seat = q → Site.Spends k e s fun a t => Q a t.seat) :
    (beside (atStack id e) : Effect (World σ × τ × List (List BoolFormula)) α).Ensures y
      fun a z => ∃ q', q.env.Advances q'.env ∧ Q a q' ∧ ∀ asserted', q'.Holds O asserted' →
        Stage O id p prior xs (n + k) vectors asserted' z q' :=
  ensures_beside ((ensures_atStack h.seat he).mono fun _ _ ⟨q', hq', hmoves, hQ⟩ =>
    ⟨q', hmoves.env, hQ, fun _ hholds => h.later hq' hmoves hholds⟩)

theorem push (h : Stage O id p prior xs n vectors asserted y q) (levels : Nat) :
    (beside (atStack id (Site.push levels)) :
      Effect (World σ × τ × List (List BoolFormula)) Unit).Ensures y fun _ z =>
        ∃ q', Stage O id p prior xs n vectors asserted z q' ∧ q.env.Advances q'.env := by
  have hpush : ∀ s : Site σ, s.seat = q →
      Site.Spends 0 (Site.push levels) s fun _ t => t.seat.Holds O asserted := by
    rintro s rfl
    exact Site.spends_push levels h.holds
  exact (h.work (Q := fun _ q => q.Holds O asserted) hpush).mono fun _ _ ⟨q', ha, hholds, hstage⟩ =>
    ⟨q', hstage asserted hholds, ha⟩

/-- A search makes a check. -/
theorem search {fs : List BoolFormula} (h : Stage O id p prior xs n vectors asserted y q)
    (hfs : q.env.ReadsAll fs (xs.map .own)) :
    (beside (atStack id (Site.nextModel? (fs.map fun f => (f, f.term)))) :
      Effect (World σ × τ × List (List BoolFormula)) _).Ensures y fun model z =>
        ∃ q', Stage O id p prior xs (n + 1) vectors asserted z q' ∧
          Site.Answers O asserted xs q'.env model := by
  have hsearch : ∀ s : Site σ, s.seat = q →
      Site.Spends 1 (Site.nextModel? (fs.map fun f => (f, f.term))) s fun model t =>
        t.seat.Holds O asserted ∧ Site.Answers O asserted xs t.seat.env model := by
    rintro s rfl
    exact Site.spends_nextModel? h.holds hfs
  exact (h.work (Q := fun model q => q.Holds O asserted ∧ Site.Answers O asserted xs q.env model)
    hsearch).mono fun _ _ ⟨q', _, ⟨hholds, hanswers⟩, hstage⟩ =>
      ⟨q', hstage asserted hholds, hanswers⟩

/-- A call is noted with what its literals describe. -/
theorem call {I : Valuation A} {literals : List BoolFormula} (hcallback : O.Aloof id callback)
    (h : Stage O id p prior xs n vectors asserted y q) (hI : O.Possible I)
    (hprior : I.Satisfies prior) (hnew : xs.map I.truth ∉ vectors)
    (hl : q.env.ReadsAll literals (xs.map fun x => .own (x.literal (I.truth x)))) :
    (noting callback count literals).Ensures y fun _ z =>
      ∃ q', Stage O id p prior xs n (vectors ++ [xs.map I.truth]) asserted z q' ∧
        q.env.Advances q'.env := by
  have hl' : q.env.ReadsAll literals ((xs.map fun x => x.literal (I.truth x)).map .own) := by
    rwa [List.map_map]
  have hcall := hcallback count literals y.1 y.2.1 q asserted _ h.seat h.holds hl'
  refine .bind (.update (R := fun _ z => z = (y.1, y.2.1, y.2.2 ++ [literals])) rfl)
    fun _ z hz => ?_
  rw [hz]
  refine .on (hcall.mono fun _ z ⟨q', hq', hmoves, hholds⟩ =>
    ⟨q', ⟨hq', ?_, hholds, ?_⟩, hmoves.env⟩)
  · exact h.moves.trans hmoves
  · exact (h.lists.concat hI hprior hnew hl).advance h.holds.proper hmoves.env

/-- The disjunction of terms is asserted. -/
theorem block {ts : List Term} {ns : List Tree} (h : Stage O id p prior xs n vectors asserted y q)
    (hts : q.env.ShowsAll ts ns) (hns : ∀ x ∈ ns, x.sort = .bool) :
    (beside (World.block id ts) : Effect (World σ × τ × List (List BoolFormula)) Unit).Ensures y
      fun _ z => ∃ q' x, Stage O id p prior xs n vectors (asserted ++ [x]) z q' ∧
        ∀ I : Valuation A, I.truth x = ns.any I.truth := by
  have hblock : ∀ s : Site σ, s.seat = q → Site.Spends 0 (do
      let t ← Site.inEnvironment (Environment.build (Build.or ts))
      Site.assertTerm t none) s fun _ t => ∃ x, t.seat.Holds O (asserted ++ [x]) ∧
        ∀ I : Valuation A, I.truth x = ns.any I.truth := by
    rintro s rfl
    exact Site.spends_block h.holds hts hns
  exact (h.work (Q := fun _ q => ∃ x, q.Holds O (asserted ++ [x]) ∧
    ∀ I : Valuation A, I.truth x = ns.any I.truth) hblock).mono
      fun _ _ ⟨q', _, ⟨x, hholds, htruth⟩, hstage⟩ => ⟨q', x, hstage _ hholds, htruth⟩

/-- A round finds a vector. If more are to come, it is excluded from then on; else there is no
other. -/
theorem round {I : Valuation A} {model : List (BoolFormula × Term)}
    (hcallback : O.Aloof id callback) (hxs : ∀ x ∈ xs, x.Proposition)
    (h : Stage O id p prior xs n vectors asserted y q)
    (hI : O.Possible I) (hall : I.Satisfies asserted)
    (hexcludes : Excludes A prior xs vectors asserted)
    (hls : q.env.ReadsAll (model.map (·.1)) (xs.map fun x => .own (x.literal (I.truth x))))
    (hns : q.env.ShowsAll (model.map (·.2)) (xs.map fun x => x.literal !I.truth x)) :
    (World.round id count model (noting callback)).Ensures y fun more z => ∃ q asserted,
      Stage O id p prior xs n (vectors ++ [xs.map I.truth]) asserted z q ∧
        if more then Excludes A prior xs (vectors ++ [xs.map I.truth]) asserted else xs = [] := by
  obtain ⟨hprior, hnew⟩ := (hexcludes I).1 hall
  refine .andThen (.bind (h.call hcallback hI hprior hnew hls) fun _ u ⟨q₁, hu, ha⟩ => ?_)
  split
  · next hempty =>
    have hnil : xs = [] := by
      rw [List.isEmpty_iff.1 hempty] at hls
      exact List.map_eq_nil_iff.1 (List.forall₂_nil_left_iff.1 hls)
    obtain ⟨q₂, hv⟩ := hu.discard ((model.map (·.1)).map (·.formula))
    exact .pure ⟨q₂, asserted, hv, hnil⟩
  · have hboolean : ∀ x ∈ xs.map fun x => x.literal !I.truth x, x.sort = .bool := by
      simpa using fun x hx => (Tree.proposition_literal (hxs x hx) _).boolean
    refine .bind (hu.block (hns.advance h.holds.proper ha) hboolean)
      fun _ v ⟨q₂, x, hv, htruth⟩ => .pure ?_
    obtain ⟨q₃, hw⟩ := hv.discard ((model.map (·.1)).map (·.formula))
    exact ⟨q₃, _, hw, hexcludes.concat hxs htruth⟩

end Stage

/-- An enumeration that came to its end. There was one more check at most, and nothing is left. -/
structure Ended (O : SoundSession σ A) (id : Nat) (p : Seat σ) (prior xs : List Tree) (n : Nat)
    (y : World σ × τ × List (List BoolFormula)) (q : Seat σ) (vectors : List (List Bool))
    (checks : Nat) : Prop where
  seat : y.1.seat? id = some q
  proper : q.env.Proper
  moves : p.Moves checks q
  few : checks ≤ vectors.length + 1
  lists : O.Lists prior xs q.env y.2.2 vectors
  length : vectors.length = n
  complete : ∀ I, O.Possible I → I.Satisfies prior → xs.map I.truth ∈ vectors

theorem Ended.later {q' : Seat σ} {checks : Nat} {w' : World σ}
    (h : Ended O id p prior xs n y q vectors checks) (hseat : w'.seat? id = some q')
    (hmoves : q.Moves 0 q') : Ended O id p prior xs n (w', y.2) q' vectors checks where
  seat := hseat
  proper := hmoves.env.proper h.proper
  moves := h.moves.trans hmoves
  few := h.few
  lists := h.lists.advance h.proper hmoves.env
  length := h.length
  complete := h.complete

theorem Stage.ended {checks : Nat} (h : Stage O id p prior xs checks vectors asserted y q)
    (hfew : checks ≤ vectors.length + 1) (hlength : vectors.length = n)
    (hcomplete : ∀ I, O.Possible I → I.Satisfies prior → xs.map I.truth ∈ vectors) :
    Ended O id p prior xs n y q vectors checks :=
  ⟨h.seat, h.holds.proper, h.moves, hfew, h.lists, hlength, hcomplete⟩

theorem ensures_modelsFrom {important : List BoolFormula} (hcallback : O.Aloof id callback)
    (hp : p.env.Proper) (himportant : p.env.ReadsAll important (xs.map .own)) {fuel count : Nat}
    (hy : Stage O id p prior xs vectors.length vectors asserted y q)
    (hexcludes : Excludes A prior xs vectors asserted) (hcount : vectors.length = count) :
    (modelsFrom id (important.map fun f => (f, f.term)) (noting callback) fuel count).Ensures y
      fun n z => ∃ q vectors checks, Ended O id p prior xs n z q vectors checks := by
  have hxs : ∀ x ∈ xs, x.Proposition := by
    intro x hx
    obtain ⟨f, -, hf⟩ := exists_related (List.forall₂_map_right_iff.1 himportant) x hx
    exact hf.proposition hp
  -- The induction is on the fuel. Each round adds a vector and excludes it, so `Excludes` says that
  -- the next one is new, and at the end that none is missing.
  induction fuel generalizing count vectors asserted y q with
  | zero => exact .throw _
  | succ fuel ih =>
    rw [modelsFrom_succ]
    refine .bind (hy.search (himportant.advance hp hy.moves.env)) fun model z hz => ?_
    obtain ⟨q₁, hz, hanswers⟩ := hz
    cases model with
    | none =>
      refine .pure ⟨q₁, vectors, _, hz.ended le_rfl hcount fun I hI hprior => ?_⟩
      by_contra hv
      exact hanswers I hI ((hexcludes I).2 ⟨hprior, hv⟩)
    | some model =>
      obtain ⟨I, hI, hall, hls, hns⟩ := hanswers
      have hlength : (vectors ++ [xs.map I.truth]).length = vectors.length + 1 :=
        List.length_append
      refine .bind (hz.round hcallback hxs hI hall hexcludes hls hns)
        fun more u ⟨q₂, asserted', hu, hmore⟩ => ?_
      cases more with
      | true => exact ih (hlength ▸ hu) hmore (by omega)
      | false =>
        obtain rfl : xs = [] := hmore
        exact .pure ⟨q₂, _, _, hu.ended (by omega) (by omega) fun _ _ _ => by simp⟩

theorem unwrap_reads {env : Environment} {f : BoolFormula} {r : Reading} {t : Term}
    (hf : env.Reads f r) (ht : env.unwrap f.formula = .ok t) : t = f.term ∧ ∃ x, r = .own x := by
  obtain ⟨howner, rfl⟩ := Environment.unwrap_eq_ok.1 ht
  cases r with
  | own x => exact ⟨rfl, x, rfl⟩
  | foreign owner u => exact absurd (hf.1.symm.trans howner) hf.2.1

theorem ensures_unwrapAll {env : Environment} {fs : List BoolFormula} {rs : List Reading}
    (h : env.ReadsAll fs rs) :
    (fs.mapM (·.unwrap) : Effect Environment (List Term)).Ensures env fun ts env' =>
      env' = env ∧ ts = fs.map (·.term) ∧ ∃ xs : List Tree, rs = xs.map .own := by
  induction h with
  | nil => exact .pure ⟨rfl, rfl, [], rfl⟩
  | @cons f r fs rs hf _ ih =>
    rw [List.mapM_cons]
    refine .bind (.ask (Q := fun t env' => env' = env ∧ t = f.term ∧ ∃ x, r = .own x)
      fun t ht => ⟨rfl, unwrap_reads hf ht⟩) fun t env' ⟨henv, ht, x, hx⟩ => ?_
    rw [henv]
    refine .bind ih fun ts env' ⟨henv, hts, xs, hxs⟩ => .pure ⟨henv, ?_, x :: xs, ?_⟩
    · rw [ht, hts, List.map_cons]
    · rw [hx, hxs, List.map_cons]

/-- An enumeration of formulas came to its end; they were all the stack's own. -/
def Complete (O : SoundSession σ A) (id : Nat) (p : Seat σ) (prior : List Tree) (rs : List Reading)
    (n : Nat) (y : World σ × τ × List (List BoolFormula)) : Prop :=
  ∃ xs q vectors checks, rs = xs.map .own ∧ Ended O id p prior xs n y q vectors checks

/-- Before the first round it does not matter what is enumerated. -/
theorem Stage.of_nil (h : Stage O id p prior xs n [] asserted y q) (xs' : List Tree) :
    Stage O id p prior xs' n [] asserted y q where
  seat := h.seat
  moves := h.moves
  holds := h.holds
  lists := by
    rw [List.forall₂_nil_right_iff.1 h.lists.described]
    exact .nil q.env

theorem ensures_enumerate {important : List BoolFormula} {rs : List Reading}
    (hcallback : O.Aloof id callback) (hp : p.env.Proper)
    (himportant : p.env.ReadsAll important rs) (hy : Stage O id p prior xs 0 [] prior y q) :
    (enumerate id important (noting callback)).Ensures y fun n z =>
      Complete O id p prior rs n z := by
  have hunwrap := ensures_unwrapAll (himportant.advance hp hy.moves.env)
  have hread : ∀ s : Site σ, s.seat = q →
      Site.Spends 0 (Site.inEnvironment (important.mapM (·.unwrap))) s fun ts t =>
        t.seat.Holds O prior ∧ ts = important.map (·.term) ∧
          ∃ xs : List Tree, rs = xs.map .own := by
    rintro s rfl
    refine .inEnvironment (hunwrap.mono fun ts env ⟨henv, hts, hrs⟩ => ?_)
    rw [henv]
    exact ⟨.refl _, hy.holds, hts, hrs⟩
  refine .bind (hy.work (Q := fun ts q => q.Holds O prior ∧ ts = important.map (·.term) ∧
    ∃ xs : List Tree, rs = xs.map .own) hread)
    fun ts z ⟨q', _, ⟨hholds, hts, xs', hrs⟩, hstage⟩ => ?_
  rw [hts, ← List.map_prod_left_eq_zip]
  rw [hrs] at himportant
  have hexcludes : Excludes A prior xs' [] prior := fun I => by simp
  exact (ensures_modelsFrom hcallback hp himportant ((hstage prior hholds).of_nil xs') hexcludes
    rfl).mono fun n z ⟨q, vectors, checks, hended⟩ =>
      ⟨xs', q, vectors, checks, hrs, hended⟩

theorem ensures_conclude {rs : List Reading} {outcome : Except Fault Nat}
    (h : ∀ n, outcome = .ok n → Complete O id p prior rs n y) :
    (conclude id outcome).Ensures y fun n z => Complete O id p prior rs n z := by
  have hpop : (beside (atStack id (Site.pop 1)) :
      Effect (World σ × τ × List (List BoolFormula)) Unit).Ensures y fun _ z =>
        ∀ n, outcome = .ok n → Complete O id p prior rs n z := by
    refine ensures_beside fun _ w hw n hn => ?_
    obtain ⟨xs, q, vectors, checks, hrs, hended⟩ := h n hn
    obtain ⟨q', hq', hmoves, -⟩ := ensures_atStack hended.seat (n := 0) (Q := fun _ _ => True)
      (fun s _ => Site.free_pop O 1 s) _ _ hw
    exact ⟨xs, q', vectors, checks, hrs, hended.later hq' hmoves⟩
  refine .bind hpop fun _ z hz => ?_
  cases outcome with
  | ok n => exact .pure (hz n rfl)
  | error e => exact .throw e

theorem ensures_allSat {important : List BoolFormula} {rs : List Reading} {x : τ}
    (hp : w.seat? id = some p) (hholds : p.Holds O prior) (himportant : p.env.ReadsAll important rs)
    (hcallback : O.Aloof id callback) :
    (allSat id important (noting callback)).Ensures (w, x, []) fun n z =>
      Complete O id p prior rs n z := by
  have hstart : Stage O id p prior [] 0 [] prior (w, x, []) p := ⟨hp, .refl p, hholds, .nil p.env⟩
  rw [allSat_eq]
  refine .bind (hstart.push 1) fun _ y ⟨q, hy, _⟩ => ?_
  exact .bind (.attempt (ensures_enumerate hcallback hholds.proper himportant hy))
    fun outcome z hz => ensures_conclude hz

/-- Over a sound session: an enumeration that succeeds has called back once for each model, with
literals that describe truth values of the formulas. These are different each time, each time they
are those in an interpretation of what was asserted before, and those of every such interpretation
have come. There were no more than `2 ^ k + 1` checks for `k` formulas. -/
theorem allSat_lists {important : List BoolFormula} {rs : List Reading} {x x' : τ}
    (hp : w.seat? id = some p) (hholds : p.Holds O prior) (himportant : p.env.ReadsAll important rs)
    (hcallback : O.Aloof id callback) {w' : World σ}
    (hrun : (allSat id important callback).exec (w, x) = (.ok n, w', x')) :
    ∃ xs calls vectors q, rs = xs.map .own ∧
      (allSat id important (noting callback)).exec (w, x, []) = (.ok n, w', x', calls) ∧
      calls.length = n ∧ w'.seat? id = some q ∧ p.env.Advances q.env ∧
      List.Forall₂ (q.env.Describes xs) calls vectors ∧ vectors.Nodup ∧
      (∀ v ∈ vectors, ∃ I, O.Possible I ∧ I.Satisfies prior ∧ xs.map I.truth = v) ∧
      (∀ I, O.Possible I → I.Satisfies prior → xs.map I.truth ∈ vectors) ∧
      ∀ checks : σ → Nat, Counts checks →
        checks q.stack.session ≤ checks p.stack.session + (2 ^ important.length + 1) := by
  have hnoting := along_allSat id important callback (w, x, [])
  rw [show forget (w, x, []) = (w, x) from rfl, hrun, Prod.mk.injEq] at hnoting
  rcases hx : (allSat id important (noting callback)).exec (w, x, []) with ⟨out, w'', x'', calls⟩
  rw [hx] at hnoting
  obtain ⟨rfl, hstate⟩ := hnoting
  cases hstate
  obtain ⟨xs, q, vectors, made, hrs, hended⟩ :=
    ensures_allSat hp hholds himportant hcallback _ _ hx
  have hlength : xs.length = important.length := by
    rw [himportant.length_eq, hrs, List.length_map]
  refine ⟨xs, calls, vectors, q, hrs, rfl, ?_, hended.seat, hended.moves.env,
    hended.lists.described, hended.lists.distinct, hended.lists.realised, hended.complete,
    fun checks hchecks => ?_⟩
  · rw [hended.lists.described.length_eq, hended.length]
  · have hle := hended.lists.length_le
    rw [hlength] at hle
    have hfew := hended.few
    rw [hended.moves.counted checks hchecks]
    omega

/-- A constant, that it is equivalent to itself, and that it is not. -/
def equivalent : Environment :=
  { Environment.new 0 .everything false false false with
    terms := Store.empty.serveAll
      [.construct (.constant "p" .bool), .construct (.iff ⟨0⟩ ⟨0⟩), .construct (.not ⟨1⟩)]
    declared := [.boolean ⟨0⟩] }

/-- A stack on a folding solver whose checks are counted. -/
def counting : World (Counted FoldingSolver) :=
  ((openStack 0 ⟨.new, 0⟩ false).exec
    (setEnvironment 0 equivalent (empty.addContext .everything false false default none))).2

theorem exists_seat_counting : ∃ p, counting.seat? 0 = some p ∧ p.env.id = 0 ∧
    p.env.terms = equivalent.terms ∧ p.stack.session.checks = 0 ∧
      p.Holds (FoldingSolver.sound fun _ _ => Unit).counted [] := by
  have hstack : (counting.stack? 0).map (fun s =>
      (s.home, s.session.session.frames, s.session.checks)) =
      some (0, ⟨⟨[], [⟨0⟩]⟩, []⟩, 0) := by decide +kernel
  have hcontext : (counting.contexts[0]?).map (fun c =>
      (c.env.id, c.env.reported, c.env.terms.nodes, c.env.terms.decls)) =
      some (0, [], equivalent.terms.nodes, equivalent.terms.decls) := by decide +kernel
  obtain ⟨s, hs, hs'⟩ := Option.map_eq_some_iff.1 hstack
  obtain ⟨c, hc, hc'⟩ := Option.map_eq_some_iff.1 hcontext
  simp only [Prod.mk.injEq] at hs' hc'
  obtain ⟨hhome, hframes, hmade⟩ := hs'
  obtain ⟨hid, hreported, hnodes, hdecls⟩ := hc'
  have hterms : c.env.terms = equivalent.terms := congrArg₂ Store.mk hnodes hdecls
  have hproper : c.env.Proper := ⟨hterms ▸ Store.wellFormed_serveAll _, hreported⟩
  have hasserted : FoldingSolver.Asserted (c.env.terms, s.session.session) [] := by
    refine ⟨hproper.wellFormed, ?_, by simp⟩
    rw [FoldingSolver.assertions, hframes]
    exact .nil
  exact ⟨⟨c.env, s⟩, seat?_of_context hs (hhome ▸ hc), hid, hterms, hmade, hproper, hasserted⟩

/-- One formula twice, and its negation in between. -/
theorem allSat_lists_repeated :
    let f : BoolFormula := ⟨⟨⟨1⟩, .boolean, 0, none⟩, rfl⟩
    let g : BoolFormula := ⟨⟨⟨2⟩, .boolean, 0, none⟩, rfl⟩
    let p : Tree := .node (.apply ⟨"p", [], .bool⟩) .bool []
    let x : Tree := .connective .iff [p, p]
    let tally : Nat → List BoolFormula → Effect (World (Counted FoldingSolver) × Nat) Unit :=
      fun _ _ => .update fun (w, calls) => (w, calls + 1)
    ∃ w' calls q, (allSat 0 [f, g, f] (noting tally)).exec (counting, 0, []) =
        (.ok 1, w', 1, calls) ∧
      w'.seat? 0 = some q ∧ q.stack.session.checks ≤ 9 ∧
      List.Forall₂ (q.env.Describes [x, .connective .not [x], x]) calls [[true, false, true]] := by
  intro f g p x tally
  have hout : ((allSat 0 [f, g, f] tally).exec (counting, 0)).1.toOption = some 1 ∧
      ((allSat 0 [f, g, f] tally).exec (counting, 0)).2.2 = 1 := by decide +kernel
  obtain ⟨r, hr, hid, hterms, hmade, hholds⟩ := exists_seat_counting
  have hf : r.env.Reads f (.own x) := ⟨hid.symm, by rw [Shows, hterms]; decide +kernel, rfl⟩
  have hg : r.env.Reads g (.own (.connective .not [x])) :=
    ⟨hid.symm, by rw [Shows, hterms]; decide +kernel, rfl⟩
  have himportant : r.env.ReadsAll [f, g, f] [.own x, .own (.connective .not [x]), .own x] :=
    .cons hf (.cons hg (.cons hf .nil))
  have hcallback : (FoldingSolver.sound fun _ _ => Unit).counted.Aloof 0 tally :=
    fun _ _ _ _ p _ _ hp hholds _ => .update ⟨p, hp, .refl p, hholds⟩
  rcases hrun : (allSat 0 [f, g, f] tally).exec (counting, 0) with ⟨e | n, w', calls⟩ <;>
    rw [hrun] at hout <;> obtain ⟨hn, hcalls⟩ := hout
  · cases hn
  · cases hn
    cases hcalls
    obtain ⟨xs, calls, vectors, q, hrs, hnoting, hlength, hq, -, hdescribed, -, hrealised, -,
        hchecks⟩ := allSat_lists hr hholds himportant hcallback hrun
    obtain rfl : [x, .connective .not [x], x] = xs :=
      List.map_injective_iff.2 (fun _ _ h => Reading.own.inj h) hrs
    obtain ⟨v, rfl⟩ := List.length_eq_one_iff.1 (hdescribed.length_eq.symm.trans hlength)
    obtain ⟨I, -, -, hv⟩ := hrealised v (by simp)
    have hp : p.Proposition := ⟨Tree.wellSorted_node.2 ⟨⟨rfl, rfl⟩, by simp⟩, rfl⟩
    have hx : I.truth x = true := (Tree.truth_iff hp hp).trans (by simp)
    have hnot : I.truth (.connective .not [x]) = false := by
      refine (Tree.truth_not (hf.proposition hholds.proper)).trans ?_
      rw [show x.truth _ _ = true from hx]
      rfl
    obtain rfl : [true, false, true] = v := by simpa [hx, hnot] using hv
    refine ⟨w', calls, q, hnoting, hq, ?_, hdescribed⟩
    have hcount := hchecks Counted.checks Counted.counts_checks
    rw [show _ = 0 from hmade] at hcount
    exact hcount

end World
end FormulaStack
