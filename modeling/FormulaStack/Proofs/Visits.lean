import FormulaStack.Proofs.Substituting

/-!
What a map looks into. It looks into no formula twice, and where it succeeds, into all that a visit
comes to. Where an atom fails, the images that are there are as good as those of another run, which
goes on from them.
-/
namespace FormulaStack

open Effect Environment

variable {τ : Type} {env : Environment} {f : BoolFormula} {x y : Tree} {r : Reading} {t : Term}

namespace Record

/-- Where a run from nothing got through, it has looked into what a visit comes to. -/
theorem mem_visited_iff {G : Outcomes} {k : Record} (hclosed : k.Closed G)
    (hadds : Adds x.Reaches ⟨[], []⟩ k) (hx : (x, r) ∈ k.table) :
    (y ∈ k.visited ↔ x.Reaches y) ∧ (y ∈ k.keys ↔ x.Reaches y) := by
  have hkeys : x.Reaches y → y ∈ k.keys := hclosed.mem_keys_of_reaches (mem_keys hx)
  have hreaches : y ∈ k.visited → x.Reaches y := fun hy => by simpa using hadds.met y hy
  have hvisited : y ∈ k.keys → y ∈ k.visited := fun hy => by
    obtain h | h := hadds.keys y hy
    · simp [keys] at h
    · exact h.1
  exact ⟨⟨hreaches, hvisited ∘ hkeys⟩, ⟨hreaches ∘ hvisited, hkeys⟩⟩

theorem Closed.change {G G' : Outcomes} {k : Record} (h : k.Closed G)
    (hG : ∀ q ∈ k.table, q.1.isAtom = true → G' q.1 (.ok q.2)) : k.Closed G' := by
  rintro ⟨a, r⟩ hq
  cases h _ hq with
  | atom ha _ => exact .atom ha (hG _ hq ha)
  | node ha hr hrs hy => exact .node ha hr hrs hy

end Record

namespace Environment

theorem Reads.unique {q : Reading} (hr : env.Reads f r) (hq : env.Reads f q) : r = q := by
  cases r with
  | own x =>
    cases q with
    | own y => rw [Option.some.inj (hr.2.1.symm.trans hq.2.1)]
    | foreign owner t => exact absurd (hq.1.symm.trans hr.1) hq.2.1
  | foreign owner t =>
    cases q with
    | own y => exact absurd (hr.1.symm.trans hq.1) hr.2.1
    | foreign owner' t' => rw [← hr.1, ← hr.2.2, ← hq.1, ← hq.2.2]

variable {fs : List BoolFormula} {xs : List Tree}

theorem nodup_terms (h : List.Forall₂ (fun f x => env.Reads f (.own x)) fs xs) (hxs : xs.Nodup) :
    (fs.map (·.term)).Nodup := by
  have hmap : (fs.map (·.term)).map env.terms.tree? = xs.map some := by
    induction h with
    | nil => rfl
    | cons hf _ ih => simpa using ⟨hf.2.1, by simpa using ih hxs.of_cons⟩
  apply List.Nodup.of_map env.terms.tree?
  rw [hmap]
  exact hxs.map (Option.some_injective _)

theorem mem_terms_iff (henv : env.Proper)
    (h : List.Forall₂ (fun f x => env.Reads f (.own x)) fs xs) :
    t ∈ fs.map (·.term) ↔ ∃ y ∈ xs, env.Shows t y := by
  induction h with
  | nil => simp
  | @cons f x fs xs hf _ ih =>
    have hhead : t = f.term ↔ env.Shows t x := by
      constructor
      · rintro rfl
        exact hf.2.1
      · exact fun ht => henv.wellFormed.tree?_injective ht hf.2.1
    simp [hhead, ih]

end Environment

namespace FormulaMap

variable {s : τ} {images : Images} {hook : BoolFormula → Visit τ BoolFormula}

/-- A run whose atoms do not fail ends as rebuilding does. -/
theorem image_rebuilds {start : Environment} {notes : List BoolFormula} {k : Record}
    {σ : Tree → Reading} (hhook : Answers start (Exactly σ) hook)
    (hstart : start.Advances env)
    (htracks : Tracks (Exactly σ) ((env, s, notes), images) k)
    (hpending : k.PendingAbove (sizeOf x)) (hf : env.Reads f (.own x)) :
    ∃ out env' s' images',
      ((onAtoms hook).image f).exec ((env, s), images) = (out, ((env', s'), images')) ∧
      Agree env'.Reads out (x.rebuild σ) := by
  obtain ⟨out, env', s', images', hrun, -, hout⟩ :=
    image_agrees (fun a r _ h => Exactly.eq h) hhook hstart htracks hpending hf
  refine ⟨out, env', s', images', hrun, ?_⟩
  cases out with
  | ok g =>
    obtain ⟨r, hr, hg⟩ := hout
    exact hr ▸ .ok hg
  | error e =>
    obtain ⟨a, -, -, h⟩ | h := hout
    · cases h
    · exact h ▸ .error e

/-- A run can go on, with another hook, from images that this one could have made. -/
theorem Tracks.resume {τ' : Type} {G G' : Outcomes} {k : Record} {notes : List BoolFormula}
    (h : Tracks G ((env, s, notes), images) k)
    (hG : ∀ q ∈ k.table, q.1.isAtom = true → G' q.1 (.ok q.2)) (u : τ') :
    Tracks G' ((env, u, []), images) ⟨k.table, []⟩ where
  proper := h.proper
  images := h.images
  notes := .nil
  closed := h.closed.change hG
  keys := h.keys
  once := List.nodup_nil

theorem Tracks.reads_keys {G : Outcomes} {k : Record} {notes : List BoolFormula}
    (h : Tracks G ((env, s, notes), images) k) :
    List.Forall₂ (fun f x => env.Reads f (.own x)) (images.map (·.1)) k.keys := by
  rw [Record.keys, List.forall₂_map_left_iff, List.forall₂_map_right_iff]
  exact h.images.imp fun _ _ hp => hp.1

/-- Whatever a hook does with the atoms, and whether it fails: fuel above the index never runs out,
no formula is looked into twice, and after a success those that were, and those with an image, are
the ones that a visit comes to. The images that are there, also after a failure, are those that a
run with a hook of the same answers makes from nothing, and such a run goes on from them to its own
end. -/
theorem image_visits_once (henv : env.Proper) (hf : env.Reads f (.own x))
    (hhook : Answers env Anyhow hook) (s : τ) :
    ∃ out env' s' notes images,
      (∀ stop fuel, f.term.index < fuel →
        ((onAtoms hook).recorded stop fuel f).exec ((env, s, []), []) =
          (out, ((env', s', notes), images))) ∧
      ((onAtoms hook).image f).exec ((env, s), []) = (out, ((env', s'), images)) ∧
      (notes.map (·.term)).Nodup ∧ (images.map (·.1.term)).Nodup ∧
      (∀ g, out = .ok g → ∀ t,
        (t ∈ notes.map (·.term) ↔ ∃ y, x.Reaches y ∧ env'.Shows t y) ∧
        (t ∈ images.map (·.1.term) ↔ ∃ y, x.Reaches y ∧ env'.Shows t y)) ∧
      ∀ (τ' : Type) (sure : BoolFormula → Visit τ' BoolFormula) (σ : Tree → Reading),
        Answers env (Exactly σ) sure →
        (∀ p ∈ images, ∀ a, env'.Reads p.1 (.own a) → a.isAtom = true → env'.Reads p.2 (σ a)) →
        (∀ p ∈ images, ∀ u, ∃ g r env₁ u₁ images₁,
          ((onAtoms sure).image p.1).exec ((env', u), []) = (.ok g, ((env₁, u₁), images₁)) ∧
          env'.Reads p.2 r ∧ env₁.Reads g r) ∧
        ∀ u v start, env.Advances start → ∃ o out₁ env₁ u₁ images₁ out₂ env₂ u₂ images₂,
          ((onAtoms sure).image f).exec ((env', u), images) = (out₁, ((env₁, u₁), images₁)) ∧
          ((onAtoms sure).image f).exec ((start, v), []) = (out₂, ((env₂, u₂), images₂)) ∧
          Agree env₁.Reads out₁ o ∧ Agree env₂.Reads out₂ o := by
  obtain ⟨out, ⟨⟨env', s', notes⟩, images⟩, hrecorded, hrun, k, ha, htracks, hadds, hout⟩ :=
    exists_run hhook (.refl env) (tracks_start _ henv s) (by simp [Record.PendingAbove]) hf
  have henv' : env'.Proper := htracks.proper
  have hnotes : List.Forall₂ (fun f x => env'.Reads f (.own x)) notes k.visited :=
    List.forall₂_map_right_iff.1 htracks.notes
  have hkeys := htracks.reads_keys
  have hkeyTerms : images.map (·.1.term) = (images.map (·.1)).map (·.term) := by simp
  refine ⟨out, env', s', notes, images, hrecorded, hrun, nodup_terms hnotes htracks.once,
    ?_, ?_, ?_⟩
  · rw [hkeyTerms]
    exact nodup_terms hkeys htracks.keys
  · rintro g rfl t
    obtain ⟨-, r, hr, -⟩ := hout
    have hmet := fun y => Record.mem_visited_iff (y := y) htracks.closed hadds hr
    rw [hkeyTerms, mem_terms_iff henv' hnotes, mem_terms_iff henv' hkeys]
    exact ⟨exists_congr fun y => and_congr_left' (hmet y).1,
      exists_congr fun y => and_congr_left' (hmet y).2⟩
  · intro τ' sure σ hsure hsame
    have hG : ∀ q ∈ k.table, q.1.isAtom = true → Exactly σ q.1 (.ok q.2) := by
      intro q hq hatom
      obtain ⟨p, hp, hkey, himage⟩ := exists_related htracks.images q hq
      exact congrArg Except.ok (himage.unique (hsame p hp q.1 hkey hatom))
    have hclosed : k.Closed (Exactly σ) := htracks.closed.change hG
    have hfollows : k.Follows σ := fun q hq hatom => (hG q hq hatom).eq
    constructor
    · intro p hp u
      obtain ⟨q, hq, hkey, himage⟩ := exists_related htracks.images.flip p hp
      obtain ⟨o, env₁, u₁, images₁, hrun₁, hagree⟩ := image_rebuilds hsure ha
        (tracks_start _ henv' u) (by simp [Record.PendingAbove]) hkey
      rw [hclosed.rebuild hfollows hq] at hagree
      cases hagree with
      | ok hg => exact ⟨_, q.2, env₁, u₁, images₁, hrun₁, himage, hg⟩
    · intro u v start hstart
      obtain ⟨out₁, env₁, u₁, images₁, hrun₁, hagree₁⟩ := image_rebuilds hsure ha
        (htracks.resume hG u) (by simp [Record.PendingAbove]) (hf.advance henv ha)
      obtain ⟨out₂, env₂, u₂, images₂, hrun₂, hagree₂⟩ := image_rebuilds hsure hstart
        (tracks_start _ (hstart.proper henv) v) (by simp [Record.PendingAbove])
        (hf.advance henv hstart)
      exact ⟨_, out₁, env₁, u₁, images₁, out₂, env₂, u₂, images₂, hrun₁, hrun₂, hagree₁, hagree₂⟩

/-- A map that refuses the second constant of a conjunction leaves the image of the first, and the
plain map goes on from there. -/
theorem image_visits_once_refused :
    let q : BoolFormula := ⟨⟨⟨1⟩, .boolean, 0, none⟩, rfl⟩
    let f : BoolFormula := ⟨⟨⟨3⟩, .boolean, 0, none⟩, rfl⟩
    ∃ e env' n images,
      ((substitution [] (some q)).image f).exec ((conjoined, 0), []) =
        (.error e, ((env', n), images)) ∧
      images.map (·.1.term) = [⟨0⟩] ∧
      ∃ o out₁ env₁ u₁ images₁ out₂ env₂ u₂ images₂,
        (plain.image f).exec ((env', ()), images) = (out₁, ((env₁, u₁), images₁)) ∧
        (plain.image f).exec ((conjoined, ()), []) = (out₂, ((env₂, u₂), images₂)) ∧
        Agree env₁.Reads out₁ o ∧ Agree env₂.Reads out₂ o := by
  intro q f
  have henv : conjoined.Proper := ⟨Store.wellFormed_serveAll _, rfl⟩
  have hf : conjoined.Reads f (.own (.connective .not [.connective .and
      [.node (.apply ⟨"p", [], .bool⟩) .bool [], .node (.apply ⟨"q", [], .bool⟩) .bool []]])) :=
    ⟨rfl, by unfold Shows; decide +kernel, rfl⟩
  have hhook : Answers conjoined Anyhow (substitution [] (some q)).onAtom :=
    (answers_substitution henv (some q) .nil (List.forall_mem_nil _)).mono fun _ _ _ => trivial
  have hexec : (match ((substitution [] (some q)).image f).exec ((conjoined, 0), []) with
      | (.error _, ((env, _), images)) =>
        some (env.id, images.map fun p => (p.1.term, p.2.term, p.2.formula.owner))
      | _ => none) = some (0, [(⟨0⟩, ⟨0⟩, 0)]) := by decide +kernel
  obtain ⟨out, env', n, notes, images, -, hrun, -, -, -, hresume⟩ :=
    image_visits_once henv hf hhook 0
  rw [show ((substitution [] (some q)).image f).exec _ = _ from hrun] at hexec ⊢
  cases out with
  | ok g => cases hexec
  | error e =>
    have hid : env'.id = 0 := congrArg (fun o => (o.map (·.1)).getD 0) hexec
    have himages : images.map (fun p => (p.1.term, p.2.term, p.2.formula.owner)) =
        [(⟨0⟩, ⟨0⟩, 0)] := congrArg (fun o => (o.map (·.2)).getD []) hexec
    refine ⟨e, env', n, images, rfl, ?_, ?_⟩
    · simpa using congrArg (List.map (·.1)) himages
    · obtain ⟨-, hagain⟩ := hresume Unit _ .own (answers_copy conjoined) fun p hp a ha _ => by
        have hp' : (p.1.term, p.2.term, p.2.formula.owner) ∈
            [((⟨0⟩, ⟨0⟩, 0) : Term × Term × Nat)] := himages ▸ List.mem_map_of_mem hp
        simp only [List.mem_singleton, Prod.mk.injEq] at hp'
        obtain ⟨hkey, himage, howner⟩ := hp'
        exact ⟨howner.trans hid.symm, by rw [himage, ← hkey]; exact ha.2.1, ha.2.2⟩
      exact hagain () () conjoined (.refl conjoined)

end FormulaMap
end FormulaStack
