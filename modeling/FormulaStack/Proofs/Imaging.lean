import FormulaStack.Proofs.Records
import FormulaStack.Proofs.Viewing

/-!
Runs of a map of formulas that note what they look into. A run keeps a record of trees beside its
images and notes; it leaves the record without gaps whatever becomes of the atoms.
-/
namespace FormulaStack

namespace Effect

variable {S α β ι : Type}

/-- Effects that do one and the same in a state, with an outcome that `Q` holds of. -/
def Settled (e : ι → Effect S α) (s : S) (Q : Except Fault α → S → Prop) : Prop :=
  ∃ out t, (∀ i, (e i).exec s = (out, t)) ∧ Q out t

namespace Settled

variable {e : ι → Effect S α} {f : ι → α → Effect S β} {s : S} {P : Except Fault α → S → Prop}

theorem const {Q : Except Fault α → S → Prop} (e : Effect S α)
    (h : Q (e.exec s).1 (e.exec s).2) : Settled (fun _ : ι => e) s Q :=
  ⟨_, _, fun _ => rfl, h⟩

theorem bind {Q : Except Fault β → S → Prop} (he : Settled e s P)
    (hok : ∀ a t, P (.ok a) t → Settled (fun i => f i a) t Q)
    (herror : ∀ x t, P (.error x) t → Q (.error x) t) :
    Settled (fun i => e i >>= f i) s Q := by
  obtain ⟨out, t, hx, hp⟩ := he
  cases out with
  | error x => exact ⟨.error x, t, fun i => exec_bind_error (hx i) _, herror x t hp⟩
  | ok a =>
    obtain ⟨out, u, hy, hq⟩ := hok a t hp
    exact ⟨out, u, fun i => by rw [exec_bind_ok (hx i), hy i], hq⟩

theorem mono {Q : Except Fault α → S → Prop} (he : Settled e s P)
    (h : ∀ out t, P out t → Q out t) : Settled e s Q := by
  obtain ⟨out, t, hx, hp⟩ := he
  exact ⟨out, t, hx, h out t hp⟩

theorem run_bind {Q : Except Fault β → S → Prop} {e : Effect S α} {out : Except Fault α} {t : S}
    (hx : e.exec s = (out, t)) (hok : ∀ a, out = .ok a → Settled (fun i => f i a) t Q)
    (herror : ∀ x, out = .error x → Q (.error x) t) : Settled (fun i => e >>= f i) s Q :=
  bind (P := fun r u => r = out ∧ u = t) ⟨out, t, fun _ => hx, rfl, rfl⟩
    (fun a _ ⟨ha, hu⟩ => hu ▸ hok a ha.symm) fun x _ ⟨hx, hu⟩ => hu ▸ herror x hx.symm

theorem andThen {Q : Except Fault α → S → Prop} {cleanup : S → S} (he : Settled e s P)
    (h : ∀ out t, P out t → Q out (cleanup t)) :
    Settled (fun i => (e i).andThen cleanup) s Q := by
  obtain ⟨out, t, hx, hp⟩ := he
  exact ⟨out, cleanup t, fun i => by rw [exec_andThen, hx i], h out t hp⟩

end Settled
end Effect

open Effect Environment

variable {τ : Type}

namespace FormulaMap

/-- A look into a formula that is noted. -/
def noted (f : BoolFormula) : Visit (τ × List BoolFormula) BoolView := do
  .update fun (env, s, notes) => (env, s, notes ++ [f])
  Visit.inEnvironment f.view

/-- Work that notes nothing. -/
def unnoted {α : Type} (e : Visit τ α) : Visit (τ × List BoolFormula) α :=
  .on (fun v => (v.1, v.2.1)) (fun v w => (v.1, v.2, w.2.2)) e

/-- The images of a map that notes the formulas it looks into, and that does `stop` without fuel. -/
def recorded (r : FormulaMap τ)
    (stop : BoolFormula → Imaging (τ × List BoolFormula) BoolFormula) :
    (fuel : Nat) → BoolFormula → Imaging (τ × List BoolFormula) BoolFormula
  | 0, f => stop f
  | fuel + 1, f => do
    if let some g := (← .look (·.2)).of? f then
      return ← Imaging.inVisit (Visit.inEnvironment g.copy)
    let v ← Imaging.inVisit (noted f)
    let out ← Imaging.discarding v.operands
      (withImages (recorded r stop fuel) v.operands fun gs =>
        Imaging.inVisit (unnoted (r.answer v gs)))
    .update fun ((env, s), images) =>
      (((env.retain f.formula).retain out.formula, s), images ++ [(f, out)])
    return out

/-- The state of a run without its notes. -/
def erase (st : (Environment × τ × List BoolFormula) × Images) : (Environment × τ) × Images :=
  ((st.1.1, st.1.2.1), st.2)

theorem along_discarding {α : Type} {e : Imaging (τ × List BoolFormula) α} {e' : Imaging τ α}
    (fs : List BoolFormula) (he : Along erase e e') :
    Along erase (Imaging.discarding fs e) (Imaging.discarding fs e') :=
  he.andThen fun _ => rfl

theorem along_withImages {α : Type}
    {image : BoolFormula → Imaging (τ × List BoolFormula) BoolFormula}
    {image' : BoolFormula → Imaging τ BoolFormula} (himage : ∀ f, Along erase (image f) (image' f))
    (fs : List BoolFormula) {body : List BoolFormula → Imaging (τ × List BoolFormula) α}
    {body' : List BoolFormula → Imaging τ α} (hbody : ∀ gs, Along erase (body gs) (body' gs)) :
    Along erase (withImages image fs body) (withImages image' fs body') := by
  induction fs generalizing body body' with
  | nil => exact hbody []
  | cons f fs ih =>
    exact (himage f).bind fun g => along_discarding [g] (ih fun gs => hbody (g :: gs))

/-- Notes change nothing else. -/
theorem along_recorded (r : FormulaMap τ) (fuel : Nat) (f : BoolFormula) :
    Along erase (r.recorded (fun f => Imaging.inVisit (Visit.inEnvironment f.copy)) fuel f)
      (r.imageWith fuel f) := by
  induction fuel generalizing f with
  | zero => exact fun _ => rfl
  | succ fuel ih =>
    refine Along.bind (fun _ => rfl) fun images => ?_
    dsimp only
    cases images.of? f with
    | some g => exact fun _ => rfl
    | none =>
      refine Along.bind (fun _ => rfl) fun v => Along.bind (along_discarding _ ?_) fun out =>
        Along.bind (fun _ => rfl) fun _ _ => rfl
      rw [imageOfView_eq]
      exact along_withImages ih _ fun gs _ => rfl

/-- What a hook makes of atoms in the environments that follow another. -/
def Answers (start : Environment) (G : Outcomes) (hook : BoolFormula → Visit τ BoolFormula) :
    Prop :=
  ∀ ⦃env : Environment⦄ ⦃s : τ⦄ ⦃f : BoolFormula⦄ ⦃x : Tree⦄, start.Advances env → env.Proper →
    env.Reads f (.own x) → x.isAtom = true →
      env.Advances ((hook f).exec (env, s)).2.1 ∧
        ∃ o, G x o ∧ Agree ((hook f).exec (env, s)).2.1.Reads ((hook f).exec (env, s)).1 o

theorem Answers.mono {start : Environment} {G G' : Outcomes}
    {hook : BoolFormula → Visit τ BoolFormula} (h : Answers start G hook)
    (hG : ∀ a o, G a o → G' a o) : Answers start G' hook := by
  intro env s f x ha henv hf hx
  obtain ⟨hadv, o, ho, hagree⟩ := h (s := s) ha henv hf hx
  exact ⟨hadv, o, hG x o ho, hagree⟩

/-- A record says what the images and the notes of a run are. -/
structure Tracks (G : Outcomes) (st : (Environment × τ × List BoolFormula) × Images) (k : Record) :
    Prop where
  proper : st.1.1.Proper
  images : List.Forall₂ (fun p q => st.1.1.Reads p.1 (.own q.1) ∧ st.1.1.Reads p.2 q.2) st.2 k.table
  notes : st.1.1.ReadsAll st.1.2.2 (k.visited.map .own)
  closed : k.Closed G
  keys : k.keys.Nodup
  once : k.visited.Nodup

/-- How a piece of a run ends. What it made is as `M` says of the record that it leaves, and `bad`
says it of its faults. -/
def Yields (G : Outcomes) (R : Tree → Prop) (M : Record → Reading → Prop)
    (bad : Record → Fault → Prop) (env : Environment) (k : Record) (out : Except Fault BoolFormula)
    (st : (Environment × τ × List BoolFormula) × Images) : Prop :=
  ∃ k', env.Advances st.1.1 ∧ Tracks G st k' ∧ k.Adds R k' ∧
    match out with
    | .ok g => k.Finishes k' ∧ ∃ r, M k' r ∧ st.1.1.Reads g r
    | .error e => bad k' e

variable {G : Outcomes} {R : Tree → Prop} {M : Record → Reading → Prop}
  {bad : Record → Fault → Prop} {env env' : Environment} {s : τ} {notes : List BoolFormula}
  {images : Images} {k k' : Record} {out : Except Fault BoolFormula} {f : BoolFormula} {x : Tree}
  {st : (Environment × τ × List BoolFormula) × Images}

theorem tracks_start (G : Outcomes) (henv : env.Proper) (s : τ) :
    Tracks G ((env, s, []), []) ⟨[], []⟩ where
  proper := henv
  images := .nil
  notes := .nil
  closed := by simp [Record.Closed]
  keys := List.nodup_nil
  once := List.nodup_nil

theorem Tracks.advance (h : Tracks G ((env, s, notes), images) k) (ha : env.Advances env')
    (s' : τ) : Tracks G ((env', s', notes), images) k where
  proper := ha.proper h.proper
  images := h.images.imp fun _ _ hp => ⟨hp.1.advance h.proper ha, hp.2.advance h.proper ha⟩
  notes := h.notes.advance h.proper ha
  closed := h.closed
  keys := h.keys
  once := h.once

theorem Tracks.enter (h : Tracks G ((env, s, notes), images) k) (hf : env.Reads f (.own x))
    (hx : x ∉ k.visited) : Tracks G ((env, s, notes ++ [f]), images) (k.enter x) where
  proper := h.proper
  images := h.images
  notes := by
    simp only [Record.enter, List.map_append, List.map_cons, List.map_nil]
    exact List.rel_append h.notes (.cons hf .nil)
  closed := h.closed
  keys := h.keys
  once := h.once.append (List.nodup_singleton x) (List.disjoint_singleton.2 hx)

theorem Tracks.leave {g : BoolFormula} {r : Reading} (h : Tracks G ((env, s, notes), images) k)
    (hf : env.Reads f (.own x)) (hg : env.Reads g r) (hmade : Made G k.table x r)
    (hx : x ∉ k.keys) : Tracks G ((env, s, notes), images ++ [(f, g)]) (k.leave x r) where
  proper := h.proper
  images := List.rel_append h.images (.cons ⟨hf, hg⟩ .nil)
  notes := h.notes
  closed := h.closed.leave hmade
  keys := by
    rw [Record.keys_leave]
    exact h.keys.append (List.nodup_singleton x) (List.disjoint_singleton.2 hx)
  once := h.once

theorem Yields.advance (h : Yields G R M bad env k out st) {env' : Environment}
    (ha : st.1.1.Advances env') :
    Yields G R M bad env k out ((env', st.1.2), st.2) := by
  obtain ⟨k', hadv, htracks, hadds, hout⟩ := h
  refine ⟨k', hadv.trans ha, htracks.advance ha _, hadds, ?_⟩
  cases out with
  | ok g =>
    obtain ⟨hfin, r, hM, hg⟩ := hout
    exact ⟨hfin, r, hM, hg.advance htracks.proper ha⟩
  | error e => exact hout

theorem Yields.after {R' : Tree → Prop} (h : Yields G R' M bad env' k' out st)
    (hR : ∀ y, R' y → R y) (ha : env.Advances env') (hadds : k.Adds R k') (hfin : k.Finishes k') :
    Yields G R M bad env k out st := by
  obtain ⟨k₂, hadv, htracks, hadds₂, hout⟩ := h
  refine ⟨k₂, ha.trans hadv, htracks, hadds.trans (hadds₂.mono hR), ?_⟩
  cases out with
  | ok g => exact ⟨hfin.trans hout.1 hadds₂, hout.2⟩
  | error e => exact hout

theorem Yields.imp_bad {bad' : Record → Fault → Prop} (h : Yields G R M bad env k out st)
    (hbad : ∀ k' e, k'.Closed G → k.table ⊆ k'.table → bad k' e → bad' k' e) :
    Yields G R M bad' env k out st := by
  obtain ⟨k', hadv, htracks, hadds, hout⟩ := h
  refine ⟨k', hadv, htracks, hadds, ?_⟩
  cases out with
  | ok g => exact hout
  | error e => exact hbad k' e htracks.closed hadds.table hout

theorem settled_discarding {ι : Type} {e : ι → Imaging (τ × List BoolFormula) BoolFormula}
    (fs : List BoolFormula) (h : Settled e st (Yields G R M bad env k)) :
    Settled (fun i => Imaging.discarding fs (e i)) st (Yields G R M bad env k) :=
  h.andThen fun _ st' hout => hout.advance (advances_discardAll st'.1.1 _)

/-- Operands come before what they are operands of. -/
theorem index_operand {g : BoolFormula} {z : Tree} (henv : env.Proper) (hf : env.Reads f (.own x))
    (hg : env.Reads g (.own z)) (hz : z ∈ x.operands) : g.term.index < f.term.index := by
  have hf' : env.Shows f.term x := hf.2.1
  obtain ⟨n, hn, -, -, hargs⟩ := hf'.node henv
  obtain ⟨t, ht, hshows⟩ := exists_related hargs z (Tree.mem_args_of_operand hz)
  rw [henv.wellFormed.tree?_injective hg.2.1 hshows]
  exact henv.wellFormed.older hn t ht

theorem reads_beq {g : BoolFormula} {y : Tree} (henv : env.Proper) (hf : env.Reads f (.own x))
    (hg : env.Reads g (.own y)) : (f == g) = true ↔ x = y := by
  change (f.formula.owner == g.formula.owner && f.term == g.term) = true ↔ _
  rw [hf.1, hg.1, beq_self_eq_true, Bool.true_and, beq_iff_eq]
  constructor
  · intro h
    exact Option.some.inj (hf.2.1.symm.trans (h ▸ hg.2.1))
  · rintro rfl
    exact henv.wellFormed.tree?_injective hf.2.1 hg.2.1

/-- A look-up by formula finds what a look-up by tree finds. -/
theorem find?_pairs {table : List (Tree × Reading)} (henv : env.Proper)
    (h : List.Forall₂ (fun p q => env.Reads p.1 (.own q.1) ∧ env.Reads p.2 q.2) images table)
    (hf : env.Reads f (.own x)) :
    Option.Rel (fun p q => env.Reads p.1 (.own q.1) ∧ env.Reads p.2 q.2)
      (images.find? (·.1 == f)) (table.find? (·.1 = x)) := by
  induction h with
  | nil => exact .none
  | @cons p q images table hp _ ih =>
    have hsame := reads_beq henv hp.1 hf
    by_cases hx : q.1 = x
    · simpa [hx, hsame.2 hx] using Option.Rel.some hp
    · have hne : ¬(p.1 == f) = true := fun h => hx (hsame.1 h)
      simpa [hx, hne] using ih

theorem of?_images {table : List (Tree × Reading)} (henv : env.Proper)
    (h : List.Forall₂ (fun p q => env.Reads p.1 (.own q.1) ∧ env.Reads p.2 q.2) images table)
    (hf : env.Reads f (.own x)) :
    match images.of? f with
    | some g => ∃ r, (x, r) ∈ table ∧ env.Reads g r
    | none => x ∉ table.map (·.1) := by
  have hrel := find?_pairs henv h hf
  unfold Images.of?
  generalize images.find? (·.1 == f) = p at hrel ⊢
  generalize hq : table.find? (·.1 = x) = q at hrel
  cases hrel with
  | none =>
    intro hmem
    obtain ⟨q, hqs, rfl⟩ := List.mem_map.1 hmem
    simpa using List.find?_eq_none.1 hq q hqs
  | @some p q hp =>
    obtain rfl : q.1 = x := by simpa using List.find?_some hq
    exact ⟨q.2, List.mem_of_find?_eq_some hq, hp.2⟩

/-- Work on the images of formulas, from what is known of the work on each. `kont` says what becomes
of the readings. -/
theorem settled_withImages {ι : Type} {n : Nat} {xs : List Tree} {fs : List BoolFormula}
    {kont : List Reading → Except Fault Reading}
    {image : ι → BoolFormula → Imaging (τ × List BoolFormula) BoolFormula}
    {body : ι → List BoolFormula → Imaging (τ × List BoolFormula) BoolFormula}
    (himage : ∀ z ∈ xs, ∀ f st' k', st.1.1.Advances st'.1.1 → Tracks G st' k' →
      k'.PendingAbove (sizeOf z) → st'.1.1.Reads f (.own z) → f.term.index < n →
      Settled (fun i => image i f) st'
        (Yields G z.Reaches (fun k r => (z, r) ∈ k.table) (fun k e => k.Fails G z z.rebuild e)
          st'.1.1 k'))
    (hreaches : ∀ z ∈ xs, ∀ y, z.Reaches y → R y ∧ x.Reaches y)
    (hbody : ∀ gs rs st' k', st.1.1.Advances st'.1.1 → k.table ⊆ k'.table → Tracks G st' k' →
      List.Forall₂ (fun z r => (z, r) ∈ k'.table) xs rs → st'.1.1.ReadsAll gs rs →
      Settled (fun i => body i gs) st'
        (Yields G R M (fun k e => k.Fails G x (fun _ => kont rs) e) st'.1.1 k'))
    (htracks : Tracks G st k) (hpending : ∀ z ∈ xs, k.PendingAbove (sizeOf z))
    (hfs : st.1.1.ReadsAll fs (xs.map .own)) (hn : ∀ f ∈ fs, f.term.index < n) :
    Settled (fun i => withImages (image i) fs (body i)) st
      (Yields G R M
        (fun k e => k.Fails G x (fun σ => xs.mapM (Tree.rebuild σ) >>= kont) e) st.1.1 k) := by
  induction xs generalizing fs body kont st k with
  | nil =>
    cases hfs
    exact hbody [] [] st k (.refl _) (fun _ => id) htracks .nil .nil
  | cons z xs ih =>
    obtain ⟨f, fs, hf, htail, rfl⟩ := List.forall₂_cons_right_iff.1 hfs
    have hz := hreaches z (by simp)
    refine (himage z (by simp) f st k (.refl _) htracks (hpending z (by simp)) hf
      (hn f (by simp))).bind ?_ ?_
    · -- The first image is there when the others are made, so also if one of them fails.
      rintro g st₁ ⟨k₁, ha₁, htracks₁, hadds₁, hfin₁, r, hr, hg⟩
      have hrest : Settled (fun i => withImages (image i) fs fun gs => body i (g :: gs)) st₁
          (Yields G R M (fun k e => k.Fails G x
            (fun σ => xs.mapM (Tree.rebuild σ) >>= fun rs => kont (r :: rs)) e) st₁.1.1 k₁) := ih
        (fun y hy f st' k' ha => himage y (by simp [hy]) f st' k' (ha₁.trans ha))
        (fun y hy => hreaches y (by simp [hy]))
        (fun gs rs st' k' ha hsub htracks' hrs hgs =>
          hbody (g :: gs) (r :: rs) st' k' (ha₁.trans ha) (List.Subset.trans hadds₁.table hsub)
            htracks' (.cons (hsub hr) hrs) (.cons (hg.advance htracks₁.proper ha) hgs))
        htracks₁ (fun y hy => (hpending y (by simp [hy])).finishes hfin₁ hadds₁)
        (ReadsAll.advance htail htracks.proper ha₁)
        (fun f hf => hn f (by simp [hf]))
      refine (settled_discarding [g] hrest).mono fun out st₂ hout => ?_
      refine (hout.imp_bad fun k' e hclosed hsub hfail => ?_).after (fun _ => id) ha₁
        (hadds₁.mono fun y hy => (hz y hy).1) hfin₁
      exact hfail.imp fun σ hσ h =>
        (Record.mapM_cons_bind (hclosed.rebuild hσ (hsub hr)) xs kont).trans h
    · rintro e st₁ ⟨k₁, ha₁, htracks₁, hadds₁, hfail⟩
      refine ⟨k₁, ha₁, htracks₁, hadds₁.mono fun y hy => (hz y hy).1, ?_⟩
      obtain ⟨a, hza, ha, hG⟩ | hall := hfail
      · exact .inl ⟨a, (hz a hza).2, ha, hG⟩
      · refine .inr fun σ hσ => ?_
        simp only [List.mapM_cons, hall σ hσ]
        rfl

/-- Work that leaves images and notes alone. -/
theorem settled_unnoted {ι : Type} {e : Visit τ BoolFormula} {o : Except Fault Reading}
    (htracks : Tracks G ((env, s, notes), images) k)
    (ha : env.Advances (e.exec (env, s)).2.1)
    (ho : Agree (e.exec (env, s)).2.1.Reads (e.exec (env, s)).1 o)
    (hM : ∀ r, o = .ok r → M k r) (hbad : ∀ x, o = .error x → bad k x) :
    Settled (fun _ : ι => Imaging.inVisit (unnoted e)) ((env, s, notes), images)
      (Yields G R M bad env k) := by
  rcases hx : e.exec (env, s) with ⟨out, env', s'⟩
  rw [hx] at ha ho
  refine ⟨out, ((env', s', notes), images), fun _ => ?_, k, ha, htracks.advance ha s', .refl R k,
    ?_⟩
  · simp [Imaging.inVisit, unnoted, hx]
  · cases ho with
    | @ok g r h => exact ⟨fun _ => .inl, r, hM r rfl, h⟩
    | error x => exact hbad x rfl

variable {ι : Type} {start : Environment} {hook : BoolFormula → Visit τ BoolFormula}
  {stop : ι → BoolFormula → Imaging (τ × List BoolFormula) BoolFormula} {fuel : ι → Nat}
  {v : BoolView}

variable (stop) in
/-- The image of a tree is made of those of its operands. -/
theorem settled_answer (hhook : Answers start G hook) (hstart : start.Advances env)
    (htracks : Tracks G ((env, s, notes), images) k) (hf : env.Reads f (.own x))
    (hv : Views f x env v ()) (hr : x.isRefused = false)
    (hpending : ∀ z ∈ x.operands, k.PendingAbove (sizeOf z))
    (hfuel : ∀ i, f.term.index ≤ fuel i)
    (ih : ∀ z ∈ x.operands, ∀ g st k, start.Advances st.1.1 → Tracks G st k →
      k.PendingAbove (sizeOf z) → st.1.1.Reads g (.own z) → (∀ i, g.term.index < fuel i) →
      Settled (fun i => (onAtoms hook).recorded (stop i) (fuel i) g) st
        (Yields G z.Reaches (fun k r => (z, r) ∈ k.table) (fun k e => k.Fails G z z.rebuild e)
          st.1.1 k)) :
    Settled (fun i => withImages ((onAtoms hook).recorded (stop i) (fuel i)) v.operands fun gs =>
        Imaging.inVisit (unnoted ((onAtoms hook).answer v gs))) ((env, s, notes), images)
      (Yields G (fun y => ∃ z ∈ x.operands, z.Reaches y) (fun k r => Made G k.table x r)
        (fun k e => k.Fails G x x.rebuild e) env k) := by
  have hops := hv.operands
  cases ha : x.isAtom with
  | true =>
    have hva : v.isAtom = true := hv.atom.trans ha
    obtain ⟨g, rfl⟩ : ∃ g, v = .atom g := by
      cases v with
      | atom g => exact ⟨g, rfl⟩
      | _ => cases hva
    obtain rfl : g = f := hv.tells
    obtain ⟨hadv, o, hG, ho⟩ := hhook hstart htracks.proper hf ha
    exact settled_unnoted htracks hadv ho (fun r h => .atom ha (h ▸ hG)) fun e h =>
      .inl ⟨x, .refl x, ha, h ▸ hG⟩
  | false =>
    have hargs : x.operands = x.args := Tree.operands_eq_args ha hr
    have hva : v.isAtom = false := hv.atom.trans ha
    have hbound : ∀ g ∈ v.operands, g.term.index < f.term.index := by
      intro g hg
      obtain ⟨r, hr, hgr⟩ := exists_related (List.Forall₂.flip hops) g hg
      obtain ⟨z, hz, rfl⟩ := List.mem_map.1 hr
      exact index_operand htracks.proper hf hgr hz
    have hrun : Settled (fun i => withImages ((onAtoms hook).recorded (stop i) (fuel i)) v.operands
          fun gs => Imaging.inVisit (unnoted ((onAtoms hook).answer v gs)))
        ((env, s, notes), images)
        (Yields G (fun y => ∃ z ∈ x.operands, z.Reaches y) (fun k r => Made G k.table x r)
          (fun k e => k.Fails G x (fun σ => x.operands.mapM (Tree.rebuild σ) >>= fun rs => do
            return Reading.own (← Tree.combine x.label rs)) e) env k) := by
      refine settled_withImages ?_ ?_ ?_ htracks hpending hops hbound
      · intro z hz g st' k' hadv htracks' hpend hg hn
        exact ih z hz g st' k' (hstart.trans hadv) htracks' hpend hg fun i => hn.trans_le (hfuel i)
      · exact fun z hz y hy => ⟨⟨z, hz, hy⟩, .operand hz hy⟩
      · intro gs rs st' k' hadv hsub htracks' hrs hgs
        have hlen : v.operands.length = gs.length := by
          rw [List.Forall₂.length_eq hops, List.length_map, List.Forall₂.length_eq hgs,
            hrs.length_eq]
        have hc := computes_remake htracks'.proper (hf.advance htracks.proper hadv) hva hv.tells
          hlen hgs
        rw [answer_onAtoms hook hva hlen]
        refine settled_unnoted htracks' hc.advances hc.agrees (fun r h => ?_) fun e h =>
          .inr fun _ _ => h
        obtain ⟨y, hy, hr'⟩ := Tree.bind_eq_ok.1 h
        cases hr'
        exact .node ha hr (hargs ▸ hrs) hy
    refine hrun.mono fun out st' hout => hout.imp_bad fun k' e _ _ hfail => ?_
    refine hfail.imp fun σ _ h => ?_
    rw [Tree.rebuild_eq, if_neg (by simp [ha]), if_neg (by simp [hr]), ← hargs]
    exact h

variable (stop) in
/-- A run from a tree. -/
theorem settled_recorded (hhook : Answers start G hook) (x : Tree) {fuel : ι → Nat}
    {f : BoolFormula} {st : (Environment × τ × List BoolFormula) × Images} {k : Record}
    (hstart : start.Advances st.1.1) (htracks : Tracks G st k)
    (hpending : k.PendingAbove (sizeOf x)) (hf : st.1.1.Reads f (.own x))
    (hfuel : ∀ i, f.term.index < fuel i) :
    Settled (fun i => (onAtoms hook).recorded (stop i) (fuel i) f) st
      (Yields G x.Reaches (fun k r => (x, r) ∈ k.table) (fun k e => k.Fails G x x.rebuild e)
        st.1.1 k) := by
  -- The induction is over the tree, not the fuel, since a look into a formula goes on to terms of
  -- smaller trees. Only larger trees are being worked on, so none is looked into twice.
  induction x using Tree.induction generalizing fuel f st k with
  | step l c xs ih =>
    generalize hx : Tree.node l c xs = x at hpending hf ⊢
    have hargs : ∀ z ∈ x.operands, z ∈ xs := fun z hz => by
      simpa [← hx, Tree.args] using Tree.mem_args_of_operand hz
    obtain ⟨fuel, rfl⟩ : ∃ fuel', fuel = fun i => fuel' i + 1 :=
      ⟨fun i => fuel i - 1, funext fun i => (Nat.sub_add_cancel (Nat.one_le_of_lt (hfuel i))).symm⟩
    obtain ⟨⟨env, s, notes⟩, images⟩ := st
    have henv : env.Proper := htracks.proper
    refine .run_bind (exec_look _ _) (fun _ h => ?_) fun _ h => by cases h
    obtain rfl := Except.ok.inj h
    have hof := of?_images henv htracks.images hf
    dsimp only
    cases ho : Images.of? images f with
    | some g =>
      rw [ho] at hof
      obtain ⟨r, hr, hg⟩ := hof
      have ha := env.advances_retain g.formula
      exact .const _ ⟨k, ha, htracks.advance ha _, .refl _ k, fun _ => .inl, r, hr,
        hg.advance henv ha⟩
    | none =>
      rw [ho] at hof
      have hvisited : x ∉ k.visited := hpending.not_visited hof
      have hrun : ∀ {out env₁}, f.view.exec env = (out, env₁) →
          (Imaging.inVisit (noted f)).exec ((env, s, notes), images) =
            (out, ((env₁, s, notes ++ [f]), images)) := by
        intro out env₁ h
        simp [Imaging.inVisit, noted, exec_bind, Visit.inEnvironment, h]
      have hview := computes_view henv hf
      cases hr : x.isRefused with
      | true =>
        rw [hr] at hview
        obtain ⟨env₁, hx, ha⟩ := hview.exists_error
        refine .run_bind (hrun hx) (fun _ h => by cases h) fun e he => ?_
        cases he
        exact ⟨k.enter x, ha, (htracks.enter hf hvisited).advance ha s, k.adds_enter x,
          .inr fun σ _ => Tree.rebuild_of_refused σ hr⟩
      | false =>
        rw [hr] at hview
        obtain ⟨v, env₁, hx, ha, hv⟩ := hview.exists_ok
        refine .run_bind (hrun hx) (fun v' hv' => ?_) fun _ h => by cases h
        obtain rfl := Except.ok.inj hv'
        have hanswer := settled_answer stop hhook (hstart.trans ha)
          ((htracks.enter hf hvisited).advance ha s) (hf.advance henv ha) hv hr
          (fun z hz => hpending.enter hz) (fun i => Nat.lt_succ_iff.1 (hfuel i))
          fun z hz g st k => ih z (hargs z hz)
        refine (settled_discarding v.operands hanswer).bind ?_ ?_
        · rintro g ⟨⟨env₂, s₂, notes₂⟩, images₂⟩ ⟨k', ha₂, htracks₂, hadds, hfin, r, hmade, hg⟩
          have hx' : x ∈ k'.visited := hadds.visited (by simp [Record.enter])
          have hf₂ := (hf.advance henv ha).advance (ha.proper henv) ha₂
          have ha₃ := (env₂.advances_retain f.formula).trans
            ((env₂.retain f.formula).advances_retain g.formula)
          have htracks₃ := (htracks₂.leave hf₂ hg hmade (hadds.not_mem_keys hof)).advance ha₃ s₂
          refine .const _ ⟨k'.leave x r, (ha.trans ha₂).trans ha₃, htracks₃, hadds.below.leave hx',
            hfin.leave, r, ?_, hg.advance htracks₂.proper ha₃⟩
          simp [Record.leave]
        · rintro e st₂ ⟨k', ha₂, htracks₂, hadds, hfail⟩
          exact ⟨k', ha.trans ha₂, htracks₂, hadds.below, hfail⟩

/-- A run ends as its recorded runs do, and those end alike with any fuel above the index. -/
theorem exists_run (hhook : Answers start G hook) (hstart : start.Advances env)
    (htracks : Tracks G ((env, s, notes), images) k) (hpending : k.PendingAbove (sizeOf x))
    (hf : env.Reads f (.own x)) :
    ∃ out st, (∀ stop fuel, f.term.index < fuel →
        ((onAtoms hook).recorded stop fuel f).exec ((env, s, notes), images) = (out, st)) ∧
      ((onAtoms hook).image f).exec ((env, s), images) = (out, erase st) ∧
      Yields G x.Reaches (fun k r => (x, r) ∈ k.table) (fun k e => k.Fails G x x.rebuild e) env k
        out st := by
  let Fuel := { n : (BoolFormula → Imaging (τ × List BoolFormula) BoolFormula) × Nat //
    f.term.index < n.2 }
  obtain ⟨out, st, hrun, hyields⟩ :=
    settled_recorded (fun i : Fuel => i.1.1) hhook x hstart htracks hpending hf fun i => i.2
  refine ⟨out, st, fun stop fuel h => hrun ⟨(stop, fuel), h⟩, ?_, hyields⟩
  have herase := along_recorded (onAtoms hook) (f.term.index + 1) f ((env, s, notes), images)
  have hcopy := hrun ⟨(fun f => Imaging.inVisit (Visit.inEnvironment f.copy), f.term.index + 1),
    Nat.lt_succ_self _⟩
  rw [show exec _ _ = _ from hcopy] at herase
  exact herase

/-- A run makes of a formula what rebuilding makes of its tree, unless an atom fails. -/
theorem image_agrees {σ : Tree → Reading} (hσ : ∀ a r, a.isAtom = true → G a (.ok r) → σ a = r)
    (hhook : Answers start G hook) (hstart : start.Advances env)
    (htracks : Tracks G ((env, s, notes), images) k) (hpending : k.PendingAbove (sizeOf x))
    (hf : env.Reads f (.own x)) :
    ∃ out env' s' images',
      ((onAtoms hook).image f).exec ((env, s), images) = (out, ((env', s'), images')) ∧
      env.Advances env' ∧
      match out with
      | .ok g => ∃ r, x.rebuild σ = .ok r ∧ env'.Reads g r
      | .error e => (∃ a, x.Reaches a ∧ a.isAtom = true ∧ G a (.error e)) ∨
          x.rebuild σ = .error e := by
  obtain ⟨out, st, -, hrun, k', ha, htracks', -, hout⟩ :=
    exists_run hhook hstart htracks hpending hf
  have hfollows : k'.Follows σ := by
    rintro ⟨a, r⟩ hq hatom
    cases htracks'.closed _ hq with
    | atom _ hG => exact hσ a r hatom hG
    | node hno _ _ _ => exact absurd (hatom.symm.trans hno) (by simp)
  refine ⟨out, st.1.1, st.1.2.1, st.2, hrun, ha, ?_⟩
  cases out with
  | ok g =>
    obtain ⟨-, r, hr, hg⟩ := hout
    exact ⟨r, htracks'.closed.rebuild hfollows hr, hg⟩
  | error e => exact hout.imp_right fun hall => hall σ hfollows

end FormulaMap
end FormulaStack
