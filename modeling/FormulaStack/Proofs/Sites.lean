import FormulaStack.Proofs.Environments
import FormulaStack.Proofs.Histories

/-!
What operations do at a stack. Each keeps the invariant of the stack: the frames of the session
mirror its levels, the levels are those that its history leads to, and the accounts of references
are right.
-/
namespace FormulaStack

namespace Site

variable {α : Type}

theorem exec_native {σ : Type} (e : SessionM σ α) (s : Site σ) :
    (native e).exec s =
      ((e.exec (s.env.terms, s.stack.session)).1,
        { s with
          env := { s.env with terms := (e.exec (s.env.terms, s.stack.session)).2.1 }
          stack := { s.stack with session := (e.exec (s.env.terms, s.stack.session)).2.2 } }) := rfl

theorem exec_updateStack {σ : Type} (f : AssertionStack σ → AssertionStack σ) (s : Site σ) :
    (updateStack f).exec s = (.ok (), { s with stack := f s.stack }) :=
  rfl

/-- What holds along notes of queries, abbreviations and assertions of terms holds along assertions
of formulas. -/
theorem assert_within {σ : Type} [Session σ] {R : Site σ → Site σ → Prop} [Std.Refl R]
    [IsTrans _ R] {p : Option Nat}
    (hnote : ∀ (s : Site σ) query, R s { s with queries := s.queries ++ [query] })
    (habbreviate : ∀ ts, Effect.Within R (native (Session.abbreviate ts)))
    (hassert : ∀ t, Effect.Within R (assertTerm t p)) (f : BoolFormula) :
    Effect.Within R (assert f p) := by
  have hopen : Effect.Within R (ensureOpen : Effect (Site σ) Unit) := by
    refine .bind (.look _) fun closed => ?_
    split
    · exact .throw _
    · exact .pure _
  have hrest : ∀ (stack : AssertionStack σ) t, Effect.Within R (do
      let shared ← .look (·.env.sharedSubterms stack.abbreviationAtoms t)
      unless shared.isEmpty do native (Session.abbreviate shared)
      assertTerm t p : Effect (Site σ) Unit) := by
    intro stack t
    refine .bind (.look _) fun shared => ?_
    split
    · exact hassert t
    · exact .bind (habbreviate shared) fun _ => hassert t
  refine .bind hopen fun _ => .bind (fun s => Std.Refl.refl s) fun t =>
    .bind (.look _) fun stack => ?_
  split
  · exact .bind (.ask _) fun text => .bind (.update fun s => hnote s _) fun _ => hrest stack t
  · exact hrest stack t

/-- What the frames and the accounts have to do with the levels. -/
structure Core (s : Site FoldingSolver) (held : Multiset Formula) (others : Multiset Term) :
    Prop where
  wellFormed : s.env.terms.WellFormed
  mirrors : Mirrors s.env.terms s.stack.levels s.stack.session.frames
  accounts : s.env.Accounts held ((s.stack.levels.terms : Multiset Term) + others)

/-- The invariant of a stack and its surroundings. `held` are the wrappers in use, `others` the
terms that other stacks keep, and `history` is what happened at the stack. A closed stack keeps
nothing. -/
structure Sound (s : Site FoldingSolver) (held : Multiset Formula) (others : Multiset Term)
    (history : History) : Prop where
  wellFormed : s.env.terms.WellFormed
  opened : s.stack.closed = false → s.Core held others ∧ history.Leads s.stack.levels
  closed : s.stack.closed = true → s.env.Accounts held others

/-- What operations at a stack leave as it is, or let only grow. -/
structure Keeps (s t : Site FoldingSolver) : Prop where
  env : t.env =
    { s.env with terms := t.env.terms, handles := t.env.handles, observers := t.env.observers }
  terms : t.env.terms.Extends s.env.terms
  fewer : ∀ o ∈ t.env.observers, o ∈ s.env.observers
  observers : ∀ o ∈ s.env.observers, o ≠ .stack s.stack.id → o ∈ t.env.observers
  opened : t.stack.closed = false → s.stack.closed = false ∧ t.env.observers = s.env.observers
  id : t.stack.id = s.stack.id
  home : t.stack.home = s.stack.home
  replaying : t.stack.replaying = s.stack.replaying
  /-- Where declarations are made again, none is forgotten. -/
  knows : s.stack.replaying = true → t.stack.closed = false → ∀ d,
    s.stack.session.isDeclared d = true → t.stack.session.isDeclared d = true

namespace Keeps

variable {s t u : Site FoldingSolver}

theorem refl (s : Site FoldingSolver) : s.Keeps s :=
  ⟨rfl, .refl _, fun _ h => h, fun _ h _ => h, fun h => ⟨h, rfl⟩, rfl, rfl, rfl, fun _ _ _ h => h⟩

theorem trans (h : s.Keeps t) (g : t.Keeps u) : s.Keeps u := by
  refine ⟨?_, g.terms.trans h.terms, fun o ho => h.fewer o (g.fewer o ho), fun o ho hne => ?_,
    fun hu => ?_, g.id.trans h.id, g.home.trans h.home, g.replaying.trans h.replaying,
    fun hr hu d hd => ?_⟩
  · rw [g.env, h.env]
  · exact g.observers o (h.observers o ho hne) (by rwa [h.id])
  · obtain ⟨ht, ho⟩ := g.opened hu
    obtain ⟨hs, ho'⟩ := h.opened ht
    exact ⟨hs, ho.trans ho'⟩
  · exact g.knows (h.replaying.trans hr) hu d (h.knows hr (g.opened hu).1 d hd)

/-- Changes of nothing but handles, levels and what the stack remembers of its checks. -/
theorem of_session {s : Site FoldingSolver} {terms : Store} {handles : Handles}
    {levels : Tower Level} {session : FoldingSolver} {last : Option Verdict}
    {queries : List String} (hterms : terms.Extends s.env.terms)
    (hknows : s.stack.replaying = true → ∀ d,
      s.stack.session.isDeclared d = true → session.isDeclared d = true) :
    s.Keeps
      { s with
        env := { s.env with terms, handles }
        queries
        stack := { s.stack with levels, session, last } } :=
  ⟨rfl, hterms, fun _ h => h, fun _ h _ => h, fun h => ⟨h, rfl⟩, rfl, rfl, rfl,
    fun hr _ => hknows hr⟩

end Keeps

/-! Declarations -/

variable {s : Site FoldingSolver} {held : Multiset Formula} {others : Multiset Term}
  {history : History}

/-- A site after its session was told of declarations and the stack recorded symbols. -/
def noted (s : Site FoldingSolver) (symbols : List Symbol) (ds : List FuncDecl) :
    Site FoldingSolver :=
  { s with
    stack := { s.stack with
      session := s.stack.session.note ds
      levels := s.stack.levels.modifyUpper fun l => { l with symbols := l.symbols ++ symbols } } }

theorem exec_declare (symbol : Symbol) :
    (declare symbol).exec s =
      match s.env.terms.declOf symbol with
      | .ok d => (.ok (), s.noted [symbol] [d])
      | .error f => (.error f, s) := by
  have hd : (Session.declare symbol : SessionM FoldingSolver Unit).exec
      (s.env.terms, s.stack.session) = _ := FoldingSolver.exec_declare symbol
  unfold declare
  rw [Effect.exec_bind, exec_native, hd]
  cases s.env.terms.declOf symbol <;> rfl

theorem core_noted (h : s.Core held others) {symbols : List Symbol} {ds : List FuncDecl}
    (hd : List.Forall₂ (fun symbol d => s.env.terms.declOf symbol = .ok d) symbols ds) :
    (s.noted symbols ds).Core held others := by
  refine ⟨h.wellFormed, h.mirrors.note hd, ?_⟩
  rw [noted, Tower.terms_modifyUpper]
  exact h.accounts

theorem keeps_noted (symbols : List Symbol) (ds : List FuncDecl) : s.Keeps (s.noted symbols ds) :=
  .of_session (.refl _) fun _ _ hd => FoldingSolver.isDeclared_note.2 (.inr hd)

/-- A declaration at an open stack. -/
theorem sound_noted (h : s.Sound held others history) (ho : s.stack.closed = false)
    {symbol : Symbol} {d : FuncDecl} (hd : s.env.terms.declOf symbol = .ok d) :
    (s.noted [symbol] [d]).Sound held others history := by
  obtain ⟨hc, hl⟩ := h.opened ho
  refine ⟨h.wellFormed, fun _ => ⟨core_noted hc (.cons hd .nil), hl.note _⟩, fun hcl => ?_⟩
  rw [show (s.noted [symbol] [d]).stack.closed = s.stack.closed from rfl, ho] at hcl
  cases hcl

/-- An open stack takes note of a symbol that was requested, a closed one does not. -/
theorem exec_symbolRequested {symbol : Symbol} {d : FuncDecl}
    (hd : s.env.terms.declOf symbol = .ok d) :
    (symbolRequested symbol).exec s =
      (.ok (), if s.stack.closed then s else s.noted [symbol] [d]) := by
  unfold symbolRequested
  rw [Effect.exec_bind_ok (Effect.exec_look _ _)]
  cases s.stack.closed with
  | true => rfl
  | false =>
    refine (exec_declare symbol).trans ?_
    rw [hd]
    rfl

/-! Levels -/

theorem exec_ensureOpen {σ : Type} {s : Site σ} (ho : s.stack.closed = false) :
    ensureOpen.exec s = (.ok (), s) := by
  unfold ensureOpen
  rw [Effect.exec_bind, Effect.exec_look]
  dsimp only
  rw [if_neg (by rw [ho]; exact Bool.false_ne_true)]
  rfl

theorem exec_ensureOpen_closed {σ : Type} {s : Site σ} (hc : s.stack.closed = true) :
    ensureOpen.exec s = (.error (.badState .stackClosed), s) := by
  unfold ensureOpen
  rw [Effect.exec_bind, Effect.exec_look]
  dsimp only
  rw [if_pos hc]
  rfl

theorem ensures_ensureOpen {σ : Type} (s : Site σ) :
    ensureOpen.Ensures s fun _ t => t = s ∧ s.stack.closed = false := by
  intro _ t hx
  cases ho : s.stack.closed with
  | true =>
    rw [exec_ensureOpen_closed ho] at hx
    cases hx
  | false =>
    rw [exec_ensureOpen ho] at hx
    cases hx
    exact ⟨rfl, rfl⟩

/-- The levels are those up to a depth, or there are some more without assertions. -/
structure Moves (s t : Site FoldingSolver) (k : Nat) : Prop where
  keeps : s.Keeps t
  closed : t.stack.closed = s.stack.closed
  depth : t.stack.levels.depth = k
  indexed : t.stack.levels.indexed = s.stack.levels.indexed.filter (·.1 ≤ k)

theorem Moves.refl (s : Site FoldingSolver) : s.Moves s s.stack.levels.depth := by
  refine ⟨.refl s, rfl, rfl, (List.filter_eq_self.2 fun x hx => ?_).symm⟩
  exact decide_eq_true (Tower.le_depth_of_mem_indexed hx)

theorem Moves.trans {t u : Site FoldingSolver} {j k : Nat} (h : s.Moves t j) (g : t.Moves u k)
    (hle : ∀ x ∈ s.stack.levels.indexed, x.1 ≤ k → x.1 ≤ j) : s.Moves u k := by
  refine ⟨h.keeps.trans g.keeps, g.closed.trans h.closed, g.depth, ?_⟩
  rw [g.indexed, h.indexed, List.filter_filter]
  refine List.filter_congr fun x hx => ?_
  by_cases hk : x.1 ≤ k
  · simp [hk, hle x hx hk]
  · simp [hk]

theorem Moves.sound {t : Site FoldingSolver} {k : Nat} (h : s.Sound held others history)
    (ho : s.stack.closed = false) (hm : s.Moves t k) (hc : t.Core held others) :
    t.Sound held others (history ++ [⟨k, none⟩]) := by
  refine ⟨hc.wellFormed, fun _ => ⟨hc, ?_⟩, fun hcl => ?_⟩
  · rw [← hm.depth]
    refine (h.opened ho).2.move ?_
    rw [hm.depth, hm.indexed]
  · rw [hm.closed, ho] at hcl
    cases hcl

/-- A site with one more level. -/
def pushed (s : Site FoldingSolver) : Site FoldingSolver :=
  { s with
    stack := { s.stack with
      session := { s.stack.session with
        frames := s.stack.session.frames.push default
        last := none }
      levels := s.stack.levels.push default } }

theorem core_pushed (h : s.Core held others) : s.pushed.Core held others := by
  refine ⟨h.wellFormed, h.mirrors.push, ?_⟩
  rw [pushed, Tower.terms_push]
  exact h.accounts

theorem moves_pushed : s.Moves s.pushed (s.stack.levels.depth + 1) := by
  refine ⟨.of_session (.refl _) fun _ d hd => ?_, rfl, rfl, ?_⟩
  · obtain ⟨f, hf, hdf⟩ := FoldingSolver.isDeclared_iff.1 hd
    refine FoldingSolver.isDeclared_iff.2 ⟨f, ?_, hdf⟩
    rw [Tower.toList_push]
    exact List.mem_append_left _ hf
  · refine (Tower.indexed_push _).trans (List.filter_eq_self.2 fun x hx => ?_).symm
    exact decide_eq_true (Nat.le_succ_of_le (Tower.le_depth_of_mem_indexed hx))

theorem pushLevels_moves (n : Nat) (h : s.Core held others) :
    ∃ t, (pushLevels n).exec s = (.ok (), t) ∧ t.Core held others ∧
      s.Moves t (s.stack.levels.depth + n) := by
  induction n generalizing s with
  | zero => exact ⟨s, rfl, h, .refl s⟩
  | succ n ih =>
    obtain ⟨t, ht, hc, hm⟩ := ih (core_pushed h)
    have hdepth : s.pushed.stack.levels.depth + n = s.stack.levels.depth + (n + 1) :=
      Nat.add_right_comm _ _ _
    rw [hdepth] at hm
    refine ⟨t, ht, hc, moves_pushed.trans hm fun x hx _ => ?_⟩
    exact Nat.le_succ_of_le (Tower.le_depth_of_mem_indexed hx)

/-- Changing what a stack remembers of its checks. -/
theorem sound_last {last : Option Verdict} (h : s.Sound held others history) :
    ({ s with stack := { s.stack with last } } : Site FoldingSolver).Sound held others history :=
  ⟨h.wellFormed, fun ho => ⟨⟨(h.opened ho).1.wellFormed, (h.opened ho).1.mirrors,
    (h.opened ho).1.accounts⟩, (h.opened ho).2⟩, h.closed⟩

theorem keeps_last {last : Option Verdict} : s.Keeps { s with stack := { s.stack with last } } :=
  .of_session (.refl _) fun _ _ h => h

theorem push_sound (n : Nat) (h : s.Sound held others history) (ho : s.stack.closed = false) :
    ∃ t, (push n).exec s = (.ok (), t) ∧ s.Keeps t ∧
      t.Sound held others (history ++ [⟨history.depth + n, none⟩]) := by
  obtain ⟨t, ht, hc, hm⟩ := pushLevels_moves n (h.opened ho).1
  refine ⟨{ t with stack := { t.stack with last := none } }, ?_, hm.keeps.trans keeps_last, ?_⟩
  · exact (Effect.exec_bind_ok (exec_ensureOpen ho) _).trans (Effect.exec_bind_ok ht _)
  · rw [(h.opened ho).2.depth]
    exact sound_last (hm.sound h ho hc)

/-- The references of assertions that are no longer recorded are given back. -/
theorem releaseAll_accounts {as : List (Option Nat × Term)}
    (h : s.env.Accounts held ((as.map (·.2) : List Term) + others)) :
    ∃ handles, (releaseAll as).exec s = (.ok (), { s with env := { s.env with handles } }) ∧
      ({ s.env with handles } : Environment).Accounts held others := by
  unfold releaseAll
  rw [List.forM_eq_forM]
  induction as generalizing s with
  | nil => exact ⟨s.env.handles, rfl, by simpa using h⟩
  | cons a as ih =>
    rw [List.map_cons, ← Multiset.cons_coe, Multiset.cons_add] at h
    obtain ⟨handles, hex, hacc⟩ :=
      ih (s := { s with env := { s.env with handles := s.env.handles.release a.2 } }) h.release
    exact ⟨handles, hex, hacc⟩

theorem exec_forM_native {σ β : Type} {s : Site σ} (f : β → SessionM σ Unit) (bs : List β) :
    (bs.forM fun b => native (f b)).exec s = (native (bs.forM f)).exec s := by
  rw [List.forM_eq_forM, List.forM_eq_forM]
  induction bs generalizing s with
  | nil => rfl
  | cons b bs ih =>
    rw [List.forM_cons, List.forM_cons, Effect.exec_bind, exec_native, exec_native,
      Effect.exec_bind]
    rcases (f b).exec (s.env.terms, s.stack.session) with ⟨x | a, t⟩
    · rfl
    · dsimp only
      rw [ih]
      rfl

theorem exec_declareAll {symbols : List Symbol} {ds : List FuncDecl}
    (hd : List.Forall₂ (fun symbol d => s.env.terms.declOf symbol = .ok d) symbols ds) :
    (symbols.forM fun symbol => native (Session.declare symbol)).exec s =
      (.ok (), { s with stack := { s.stack with session := s.stack.session.note ds } }) := by
  have hx : (symbols.forM Session.declare : SessionM FoldingSolver Unit).exec
      (s.env.terms, s.stack.session) = _ := FoldingSolver.exec_declareAll hd
  rw [exec_forM_native, exec_native, hx]

/-- What is left of a site when its top level is popped. -/
def popped (s : Site FoldingSolver) (below : Tower Level) (rest : Tower Frame) :
    Site FoldingSolver :=
  { s with
    stack := { s.stack with
      session := { s.stack.session with frames := rest, last := none }
      levels := below } }

theorem exec_popLevel {level : Level} {below : Tower Level} {frame : Frame} {rest : Tower Frame}
    {ds : List FuncDecl} (hl : s.stack.levels.pop? = some (level, below))
    (hf : s.stack.session.frames.pop? = some (frame, rest))
    (hd : List.Forall₂ (fun symbol d => s.env.terms.declOf symbol = .ok d) level.symbols ds) :
    popLevel.exec s = (.ok level.assertions,
      if s.stack.replaying then (s.popped below rest).noted level.symbols ds
      else s.popped below rest) := by
  have hp : (Session.pop : SessionM FoldingSolver Unit).exec (s.env.terms, s.stack.session) = _ :=
    FoldingSolver.exec_pop
  have hn : (native Session.pop).exec s = (.ok (),
      { s with
        stack := { s.stack with
          session := { s.stack.session with frames := rest, last := none } } }) := by
    rw [exec_native, hp, hf]
  unfold popLevel
  rw [Effect.exec_bind_ok hn, Effect.exec_bind, Effect.exec_look]
  dsimp only
  rw [hl]
  dsimp only
  rw [Effect.exec_bind_ok (exec_updateStack _ _), Effect.exec_bind_ok (Effect.exec_look _ _)]
  dsimp only
  by_cases hr : s.stack.replaying = true
  · rw [if_pos hr, if_pos (by rw [hr]; rfl)]
    exact Effect.exec_bind_ok (exec_declareAll (s := s.popped below rest) hd) _
  · rw [if_neg hr, if_neg (by simp [hr])]
    rfl

/-- A pop leaves the levels below; the terms of the top are no longer recorded. -/
theorem popLevel_moves {level : Level} {below : Tower Level} (h : s.Core held others)
    (hl : s.stack.levels.pop? = some (level, below)) :
    ∃ t, popLevel.exec s = (.ok level.assertions, t) ∧
      t.Core held ((level.assertions.map (·.2) : List Term) + others) ∧
      s.Moves t below.depth := by
  obtain ⟨frame, rest, hf, hm, hmirrors⟩ := h.mirrors.pop hl
  obtain ⟨ds, hd⟩ := exists_forall₂ hm.declarable
  have hindexed := Tower.indexed_pop hl
  have hcore : (s.popped below rest).Core held
      ((level.assertions.map (·.2) : List Term) + others) := by
    refine ⟨h.wellFormed, hmirrors, ?_⟩
    have ha := h.accounts
    rw [Tower.terms_pop hl, ← Multiset.coe_add, add_assoc] at ha
    exact ha
  have hfilter : below.indexed = s.stack.levels.indexed.filter (·.1 ≤ below.depth) := by
    have hkeep : below.indexed.filter (·.1 ≤ below.depth) = below.indexed :=
      List.filter_eq_self.2 fun x hx => decide_eq_true (Tower.le_depth_of_mem_indexed hx)
    have hdrop : (level.assertions.map fun a => (s.stack.levels.depth, a.2)).filter
        (·.1 ≤ below.depth) = [] := by
      refine List.filter_eq_nil_iff.2 fun x hx => ?_
      obtain ⟨a, -, rfl⟩ := List.mem_map.1 hx
      simp [(Tower.pop?_eq_some hl).2]
    rw [hindexed, List.filter_append, hkeep, hdrop, List.append_nil]
  refine ⟨_, exec_popLevel hl hf hd, ?_⟩
  by_cases hr : s.stack.replaying = true
  · rw [if_pos hr]
    refine ⟨core_noted hcore hd, ⟨.of_session (.refl _) fun _ d hmem => ?_, rfl, ?_, ?_⟩⟩
    · refine FoldingSolver.isDeclared_note.2 ?_
      obtain ⟨f, hmem, hdf⟩ := FoldingSolver.isDeclared_iff.1 hmem
      rw [(Tower.pop?_eq_some hf).1] at hmem
      obtain hmem | hmem := List.mem_append.1 hmem
      · exact .inr (FoldingSolver.isDeclared_iff.2 ⟨f, hmem, hdf⟩)
      · rw [List.mem_singleton.1 hmem] at hdf
        obtain ⟨symbol, hsym, hsd⟩ := hm.recorded d hdf
        obtain ⟨d', hd', hsd'⟩ := exists_related hd.flip symbol hsym
        rw [hsd] at hsd'
        cases hsd'
        exact .inl hd'
    · exact Tower.depth_modifyUpper _ _
    · exact (Tower.indexed_modifyUpper _ _).trans hfilter
  · rw [if_neg hr]
    exact ⟨hcore, ⟨.of_session (.refl _) fun htrue => absurd htrue hr, rfl, rfl, hfilter⟩⟩

theorem popLevels_moves {n k : Nat} (h : s.Core held others) (hk : k + n = s.stack.levels.depth) :
    ∃ t, (popLevels n).exec s = (.ok (), t) ∧ t.Core held others ∧ s.Moves t k := by
  induction n generalizing s with
  | zero =>
    refine ⟨s, rfl, h, ?_⟩
    rw [show k = s.stack.levels.depth from hk]
    exact .refl s
  | succ n ih =>
    cases hl : s.stack.levels.pop? with
    | none =>
      rw [Tower.pop?_eq_none_iff] at hl
      omega
    | some p =>
      obtain ⟨level, below⟩ := p
      obtain ⟨t, ht, hc, hm⟩ := popLevel_moves h hl
      have ha := hc.accounts
      rw [← add_assoc, add_comm (t.stack.levels.terms : Multiset Term), add_assoc] at ha
      obtain ⟨handles, hu, hau⟩ := releaseAll_accounts ha
      have hdepth := (Tower.pop?_eq_some hl).2
      obtain ⟨u, hex, hcu, hmu⟩ := ih (s := { t with env := { t.env with handles } })
        ⟨hc.wellFormed, hc.mirrors, hau⟩ (by rw [hm.depth]; omega)
      have hrel : t.Moves { t with env := { t.env with handles } } below.depth :=
        ⟨.of_session (.refl _) fun _ _ hd => hd, rfl, hm.depth, by
          rw [← hm.depth]
          exact (Moves.refl t).indexed⟩
      have hle : k ≤ below.depth := by omega
      refine ⟨u, ?_, hcu, (hm.trans hrel fun _ _ hx => hx).trans hmu fun _ _ hx => hx.trans hle⟩
      exact (Effect.exec_bind_ok ht _).trans ((Effect.exec_bind_ok hu _).trans hex)

theorem exec_pop_error {n : Nat} (ho : s.stack.closed = false) (hn : s.stack.levels.depth < n) :
    (pop n).exec s = (.error (.badState (.noLevel n s.stack.levels.depth)), s) := by
  unfold pop
  rw [Effect.exec_bind_ok (exec_ensureOpen ho), Effect.exec_bind_ok (Effect.exec_look _ _)]
  dsimp only
  rw [if_pos hn]
  rfl

theorem pop_sound {n : Nat} (h : s.Sound held others history) (ho : s.stack.closed = false)
    (hn : n ≤ history.depth) :
    ∃ t, (pop n).exec s = (.ok (), t) ∧ s.Keeps t ∧
      t.Sound held others (history ++ [⟨history.depth - n, none⟩]) := by
  have hdepth := (h.opened ho).2.depth
  obtain ⟨t, ht, hc, hm⟩ := popLevels_moves (h.opened ho).1 (n := n) (k := history.depth - n)
    (by omega)
  refine ⟨{ t with stack := { t.stack with last := none } }, ?_, hm.keeps.trans keeps_last,
    sound_last (hm.sound h ho hc)⟩
  unfold pop
  rw [Effect.exec_bind_ok (exec_ensureOpen ho), Effect.exec_bind_ok (Effect.exec_look _ _)]
  dsimp only
  rw [if_neg (by omega)]
  exact Effect.exec_bind_ok ht _

/-! The end of a stack -/

/-- A stack that nobody tells anything any more. -/
def detached {σ : Type} (s : Site σ) : Site σ :=
  { s with
    env := { s.env with observers := s.env.observers.filter (· ≠ .stack s.stack.id) }
    notifier := (s.notifier.unregister s.stack.listener).2
    stack := { s.stack with closed := true, last := none } }

theorem keeps_detached (s : Site FoldingSolver) : s.Keeps s.detached :=
  ⟨rfl, .refl _, fun _ ho => (List.mem_filter.1 ho).1,
    fun _ ho hne => List.mem_filter.2 ⟨ho, decide_eq_true hne⟩, nofun, rfl, rfl, rfl, nofun⟩

theorem core_detached (h : s.Core held others) : s.detached.Core held others :=
  ⟨h.wellFormed, h.mirrors, h.accounts.serves, h.accounts.balanced⟩

/-- What a closing stack gives up: its levels, or its session after a request to stop. -/
def giveUp (requested : Bool) (depth : Nat) : Effect (Site FoldingSolver) Unit :=
  if requested then native Session.shutdown else popLevels depth

theorem giveUp_accounts (requested : Bool) (h : s.Core held others) :
    ∃ t, (giveUp requested s.stack.levels.depth).exec s = (.ok (), t) ∧
      t.env.terms.WellFormed ∧
      t.env.Accounts held ((t.stack.levels.terms : Multiset Term) + others) ∧
      t.stack.closed = s.stack.closed ∧ (s.stack.closed = true → s.Keeps t) := by
  cases requested with
  | true =>
    refine ⟨_, rfl, h.wellFormed, h.accounts, rfl, fun hc => ?_⟩
    refine ⟨rfl, .refl _, fun _ ho => ho, fun _ ho _ => ho, fun ho => ?_, rfl, rfl, rfl,
      fun _ ho => ?_⟩ <;>
    · rw [show s.stack.closed = false from ho] at hc
      cases hc
  | false =>
    obtain ⟨t, ht, hc, hm⟩ := popLevels_moves (k := 0) h (Nat.zero_add _)
    exact ⟨t, ht, hc.wellFormed, hc.accounts, hm.closed, fun _ => hm.keeps⟩

theorem close_sound (h : s.Sound held others history) (ho : s.stack.closed = false)
    (history' : History) :
    ∃ t, close.exec s = (.ok (), t) ∧ s.Keeps t ∧ t.stack.closed = true ∧
      t.Sound held others history' := by
  obtain ⟨t, ht, hw, ha, hclosed, hk⟩ :=
    giveUp_accounts s.detached.notifier.requested (core_detached (h.opened ho).1)
  have hterms : t.stack.levels.terms =
      (t.stack.levels.toList.flatMap (·.assertions)).map (·.2) := List.map_flatMap.symm
  rw [hterms] at ha
  obtain ⟨handles, hu, hau⟩ := releaseAll_accounts
    (s := { t with stack := { t.stack with levels := default } }) ha
  refine ⟨{ t with env := { t.env with handles }, stack := { t.stack with levels := default } }, ?_,
    (keeps_detached s).trans ((hk rfl).trans ?_), hclosed, hw, fun hof => ?_, fun _ => hau⟩
  · unfold close
    rw [Effect.exec_bind_ok (exec_ensureOpen ho), Effect.exec_bind_ok (Effect.exec_update _ _),
      Effect.exec_bind_ok (Effect.exec_get _)]
    have hattempt : (Effect.attempt (giveUp s.detached.notifier.requested
        s.detached.stack.levels.depth)).exec s.detached = (.ok (.ok ()), t) := by
      rw [Effect.exec_attempt, ht]
    refine (Effect.exec_bind_ok hattempt _).trans ?_
    rw [Effect.exec_bind_ok (Effect.exec_get _), Effect.exec_bind_ok (exec_updateStack _ _)]
    exact (Effect.exec_bind_ok hu _).trans rfl
  · exact .of_session (.refl _) fun _ _ hd => hd
  · rw [show t.stack.closed = true from hclosed] at hof
    cases hof

end Site
end FormulaStack
