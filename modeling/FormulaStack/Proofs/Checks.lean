import FormulaStack.Proofs.Enumerations

/-!
What checks of stacks say. A conclusive answer is right for all interpretations. An answer depends
on nothing but the assertions that survive, not on how the stack came to them.
-/
namespace FormulaStack

namespace History

/-- Terms that are asserted at the base. -/
def asserting (ts : List Term) : History := ts.map fun t => ⟨0, some t⟩

theorem survivors_asserting (ts : List Term) : survivors (asserting ts) = ts := by
  induction ts with
  | nil => rfl
  | cons t ts ih =>
    have hall : (asserting ts).all ((0 : Nat) ≤ ·.depth) = true :=
      List.all_eq_true.2 fun m _ => decide_eq_true (Nat.zero_le m.depth)
    unfold survivors at ih ⊢
    change (alive (⟨0, some t⟩ :: asserting ts)).map (·.2) = t :: ts
    rw [alive, if_pos hall, List.map_append, ih]
    rfl

end History

namespace Mirrors

variable {store : Store} {levels : Tower Level} {frames : Tower Frame}

/-- The asserted terms of frames and levels are the same. -/
theorem terms_eq (h : Mirrors store levels frames) :
    frames.toList.flatMap (·.assertions) = levels.terms := by
  have ha := congrArg List.flatten h.assertions
  rwa [← List.flatMap_def, ← List.flatMap_def] at ha

theorem boolean_of_mem (h : Mirrors store levels frames) {t : Term}
    (ht : t ∈ frames.toList.flatMap (·.assertions)) : store.sort? t = some .bool := by
  obtain ⟨f, hf, ht⟩ := List.mem_flatMap.1 ht
  exact h.boolean f hf t ht

end Mirrors

namespace Store

/-- What is known of a term does not change when terms are added. -/
theorem WellFormed.fold_extends {s u : Store} (hs : s.WellFormed) (hu : u.WellFormed)
    (h : u.Extends s) {t : Term} {k : TermSort} (ht : s.sort? t = some k) (complete : Bool) :
    u.fold complete t = s.fold complete t := by
  obtain ⟨n, hn, -⟩ := Option.map_eq_some_iff.1 ht
  exact congrArg Option.join (hs.bottomUp?_extends hu h hn)

end Store

namespace World

variable {w : World FoldingSolver} {id : Nat} {s : AssertionStack FoldingSolver} {ctx : Context}

/-- Neither was a stop requested nor is a check to be canceled. -/
structure Undisturbed (w : World FoldingSolver) (s : AssertionStack FoldingSolver) : Prop where
  running : (w.notifierOf s.home).reason = none
  uninterrupted : s.session.interrupted = false

/-- A check that nothing disturbs says what the asserted terms say together. -/
theorem exec_check (hs : w.stack? id = some s) (hctx : w.contexts[s.home]? = some ctx)
    (ho : s.closed = false) (hu : w.Undisturbed s) :
    ((atStack id Site.check).exec w).1 =
      Site.answer
        (FoldingSolver.verdict (s.session.assertions.map (ctx.env.terms.fold false))) := by
  have hi : (w.site ctx s).stack.session.interrupted = false := hu.uninterrupted
  rw [exec_atStack hs hctx]
  dsimp only
  rw [Site.exec_check ho hu.running, hi]
  rfl

end World

namespace Client

variable {c : Client} {id : Nat} {s : AssertionStack FoldingSolver} {ctx : Context}

/-- The session of an open stack has asserted what survives. -/
theorem assertions_eq (hc : c.Valid) (hs : c.world.stack? id = some s) (ho : s.closed = false) :
    s.session.assertions = (c.history id).survivors := by
  obtain ⟨ctx, hctx, hstack⟩ := hc.sound.stack id s hs
  rw [History.survivors, (hstack.leads ho).alive, Tower.map_snd_indexed]
  exact (hstack.mirrors ho).terms_eq

/-- A check that finds the assertions satisfiable has found them true under every interpretation,
and one that finds them unsatisfiable has found that no interpretation makes all of them true. -/
theorem check_sound (hc : Reachable c) (hs : c.world.stack? id = some s)
    (hctx : c.world.contexts[s.home]? = some ctx) {answer : Bool}
    (hanswer : ((World.atStack id Site.check).exec c.world).1 = .ok answer)
    {A : TermSort → TermSort → Type} (I : Interpretation A) :
    (answer = true → ∀ level ∈ s.levels.toList, ∀ a ∈ level.assertions,
      I.Satisfies ctx.env.terms a.2) ∧
    (answer = false → ¬ ∀ level ∈ s.levels.toList, ∀ a ∈ level.assertions,
      I.Satisfies ctx.env.terms a.2) := by
  have hvalid := hc.valid
  rw [World.exec_atStack hs hctx] at hanswer
  obtain ⟨ho, hverdict⟩ := Site.check_eq_ok hanswer
  have hcore := ((World.site_sound hvalid.sound hs hctx).opened ho).1
  have hboolean : ∀ t ∈ s.session.assertions, ctx.env.terms.sort? t = some .bool := fun t ht =>
    hcore.mirrors.boolean_of_mem ht
  have hall : (∀ t ∈ s.session.assertions, I.Satisfies ctx.env.terms t) ↔
      ∀ level ∈ s.levels.toList, ∀ a ∈ level.assertions, I.Satisfies ctx.env.terms a.2 := by
    rw [show s.session.assertions = s.levels.terms from hcore.mirrors.terms_eq, Tower.terms]
    simp only [List.mem_flatMap, List.mem_map]
    constructor
    · exact fun h level hl a ha => h a.2 ⟨level, hl, a, ha, rfl⟩
    · rintro h t ⟨level, hl, a, ha, rfl⟩
      exact h level hl a ha
  refine ⟨fun htrue => hall.1 ?_, fun hfalse hsat => ?_⟩
  · rw [htrue] at hverdict
    exact FoldingSolver.verdict_sat I hcore.wellFormed hboolean hverdict
  · rw [hfalse] at hverdict
    exact FoldingSolver.verdict_unsat I hcore.wellFormed hboolean hverdict (hall.2 hsat)

/-- An assertion that an integer is equal to itself at one stack, and that it is not at another. -/
def reflexive : Client :=
  start.afterAll [.addContext .everything false false default none, .constant 0 .integer "n",
    .build 0 (.eq ⟨0⟩ ⟨0⟩), .build 0 (.not ⟨1⟩), .openStack 0 false, .openStack 0 false,
    .atStack 0 (.assert ⟨⟨⟨1⟩, .boolean, 0, none⟩, rfl⟩ none), .atStack 1 (.push 1),
    .atStack 1 (.assert ⟨⟨⟨2⟩, .boolean, 0, none⟩, rfl⟩ none)]

theorem check_sound_reflexive :
    ∃ ctx, reflexive.world.contexts[0]? = some ctx ∧
      ∀ (A : TermSort → TermSort → Type) (I : Interpretation A),
        I.Satisfies ctx.env.terms ⟨1⟩ ∧ ¬ I.Satisfies ctx.env.terms ⟨2⟩ := by
  have hcontext : (reflexive.world.contexts[0]?).isSome = true := by decide +kernel
  have hholds : (reflexive.world.stack? 0).map (fun s =>
      (s.home, s.levels.toList.map (·.assertions))) = some (0, [[(none, ⟨1⟩)]]) := by
    decide +kernel
  have hfails : (reflexive.world.stack? 1).map (fun s =>
      (s.home, s.levels.toList.map (·.assertions))) = some (0, [[], [(none, ⟨2⟩)]]) := by
    decide +kernel
  have hsat : ((World.atStack 0 Site.check).exec reflexive.world).1 = .ok true := by
    decide +kernel
  have hunsat : ((World.atStack 1 Site.check).exec reflexive.world).1 = .ok false := by
    decide +kernel
  have hreachable : Reachable reflexive := run_afterAll start _
  obtain ⟨ctx, hctx⟩ := Option.isSome_iff_exists.1 hcontext
  obtain ⟨s, hs, hs'⟩ := Option.map_eq_some_iff.1 hholds
  obtain ⟨t, ht, ht'⟩ := Option.map_eq_some_iff.1 hfails
  simp only [Prod.mk.injEq] at hs' ht'
  refine ⟨ctx, hctx, fun A I => ⟨?_, fun hn => ?_⟩⟩
  · obtain ⟨htrue, -⟩ := check_sound hreachable hs (hs'.1 ▸ hctx) hsat I
    have hmem : [(none, ⟨1⟩)] ∈ s.levels.toList.map (·.assertions) := by simp [hs'.2]
    obtain ⟨level, hl, ha⟩ := List.mem_map.1 hmem
    exact htrue rfl level hl (none, ⟨1⟩) (by simp [ha])
  · obtain ⟨-, hfalse⟩ := check_sound hreachable ht (ht'.1 ▸ hctx) hunsat I
    refine hfalse rfl fun level hl a ha => ?_
    have hmem : level.assertions ∈ t.levels.toList.map (·.assertions) := List.mem_map_of_mem hl
    rw [ht'.2] at hmem
    obtain rfl : a = (none, ⟨2⟩) := by
      simp only [List.mem_cons, List.not_mem_nil, or_false] at hmem
      obtain hnone | hsome := hmem
      · rw [hnone] at ha
        cases ha
      · rw [hsome] at ha
        exact List.mem_singleton.1 ha
    exact hn

/-- The session of an open stack has asserted what survives of the run, in order. A check answers
like one of a stack, of the same context, at which nothing happened but that this was asserted. -/
theorem check_survivors (hc : Reachable c) (hs : c.world.stack? id = some s)
    (ho : s.closed = false) :
    s.session.frames.toList.flatMap (·.assertions) = (c.history id).survivors ∧
    ∀ (d : Client) (fresh : Nat) (s' : AssertionStack FoldingSolver), Run c d →
      d.world.stack? fresh = some s' → s'.closed = false → s'.home = s.home →
      d.history fresh = .asserting (c.history id).survivors →
      c.world.Undisturbed s → d.world.Undisturbed s' →
      ((World.atStack id Site.check).exec c.world).1 =
        ((World.atStack fresh Site.check).exec d.world).1 := by
  have hvalid := hc.valid
  have heq := assertions_eq hvalid hs ho
  refine ⟨heq, fun d fresh s' hrun hs' ho' hhome hhistory hu hu' => ?_⟩
  obtain ⟨hd, hextends⟩ := run_valid hrun hvalid
  obtain ⟨ctx, hctx, hstack⟩ := hvalid.sound.stack id s hs
  obtain ⟨ctx', hctx', hterms⟩ := hextends.context _ ctx hctx
  have heq' := assertions_eq hd hs' ho'
  rw [hhistory, History.survivors_asserting, ← heq] at heq'
  have hstore := (hvalid.sound.context _ ctx hctx).wellFormed
  have hstore' := (hd.sound.context _ ctx' hctx').wellFormed
  have hfold : ∀ t ∈ s.session.assertions,
      ctx'.env.terms.fold false t = ctx.env.terms.fold false t := fun t ht =>
    hstore.fold_extends hstore' hterms ((hstack.mirrors ho).boolean_of_mem ht) false
  rw [World.exec_check hs hctx ho hu, World.exec_check hs' (hhome ▸ hctx') ho' hu', heq',
    List.map_congr_left hfold]

/-- A stack that keeps an assertion at the base, and forgets one at an upper level. -/
def incremental : Client :=
  start.afterAll [.addContext .everything false false default none, .constant 0 .integer "n",
    .build 0 (.eq ⟨0⟩ ⟨0⟩), .build 0 (.not ⟨1⟩), .openStack 0 false,
    .atStack 0 (.assert ⟨⟨⟨1⟩, .boolean, 0, none⟩, rfl⟩ none), .atStack 0 (.push 2),
    .atStack 0 (.assert ⟨⟨⟨2⟩, .boolean, 0, none⟩, rfl⟩ none), .atStack 0 .check,
    .atStack 0 (.pop 3), .atStack 0 (.pop 1)]

/-- The same client after it asserted at a new stack what survives. -/
def scratch : Client :=
  incremental.afterAll
    [.openStack 0 false, .atStack 1 (.assert ⟨⟨⟨1⟩, .boolean, 0, none⟩, rfl⟩ none)]

theorem check_survivors_incremental :
    ((World.atStack 0 Site.check).exec incremental.world).1 =
      ((World.atStack 1 Site.check).exec scratch.world).1 := by
  have hincremental : (incremental.world.stack? 0).map (fun s =>
      (s.closed, s.home, s.session.interrupted)) = some (false, 0, false) := by
    decide +kernel
  have hscratch : (scratch.world.stack? 1).map (fun s =>
      (s.closed, s.home, s.session.interrupted)) = some (false, 0, false) := by
    decide +kernel
  have hrunning : (incremental.world.notifierOf 0).reason = none := by decide +kernel
  have hrunning' : (scratch.world.notifierOf 0).reason = none := by decide +kernel
  have hhistory : scratch.history 1 = .asserting (incremental.history 0).survivors := by
    decide +kernel
  have hreachable : Reachable incremental := run_afterAll start _
  have hrun : Run incremental scratch := run_afterAll incremental _
  obtain ⟨s, hs, h⟩ := Option.map_eq_some_iff.1 hincremental
  obtain ⟨s', hs', h'⟩ := Option.map_eq_some_iff.1 hscratch
  simp only [Prod.mk.injEq] at h h'
  obtain ⟨ho, hh, hi⟩ := h
  obtain ⟨ho', hh', hi'⟩ := h'
  obtain ⟨-, hsame⟩ := check_survivors hreachable hs ho
  refine hsame _ 1 s' hrun hs' ho' (hh'.trans hh.symm) hhistory ⟨?_, hi⟩ ⟨?_, hi'⟩
  · rw [hh]
    exact hrunning
  · rw [hh']
    exact hrunning'

end Client
end FormulaStack
