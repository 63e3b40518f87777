import FormulaStack.Proofs.Events

/-!
Levels and frames side by side, whatever happens in a world of folding solvers. The frames of a
session have what the levels of its stack have, and the levels have recorded symbols in the order in
which the stack received them.
-/
namespace FormulaStack

/-! What folding solvers do -/

namespace FoldingSolver

variable {store : Store} {s : FoldingSolver} {p q : Store × FoldingSolver}

theorem declare_eq_ok {symbol : Symbol}
    (h : (Session.declare symbol : SessionM FoldingSolver Unit).exec p = (.ok (), q)) :
    ∃ d, p.1.declOf symbol = .ok d ∧ q = (p.1, p.2.note [d]) := by
  have hx := (exec_declare symbol).symm.trans h
  split at hx
  · next d hd =>
    cases hx
    exact ⟨d, hd, rfl⟩
  · cases hx

theorem declareAll_eq_ok {symbols : List Symbol}
    (h : (symbols.forM Session.declare : SessionM FoldingSolver Unit).exec p = (.ok (), q)) :
    ∃ ds, List.Forall₂ (fun symbol d => p.1.declOf symbol = .ok d) symbols ds ∧
      q = (p.1, p.2.note ds) := by
  rw [List.forM_eq_forM] at h
  induction symbols generalizing p with
  | nil =>
    cases h
    exact ⟨[], .nil, by rw [note_nil]⟩
  | cons symbol symbols ih =>
    rw [List.forM_cons, Effect.exec_bind] at h
    split at h
    · next u r hx =>
      obtain ⟨d, hd, rfl⟩ := declare_eq_ok hx
      obtain ⟨ds, hds, rfl⟩ := ih h
      exact ⟨d :: ds, .cons hd hds, congrArg (Prod.mk p.1) (note_note d ds)⟩
    · cases h

theorem assert_eq_ok {t : Term}
    (h : (Session.assert t : SessionM FoldingSolver Unit).exec p = (.ok (), q)) :
    p.1.sort? t = some .bool ∧ q = (p.1, p.2.record t) := by
  have hx := (exec_assert t).symm.trans h
  split at hx
  · cases hx
  · next r he =>
    split at hx
    · cases hx
    · cases hx
      exact ⟨(Build.expect_eq_ok.1 he).1, rfl⟩

theorem pop_eq_ok (h : (Session.pop : SessionM FoldingSolver Unit).exec p = (.ok (), q)) :
    ∃ frame frames, p.2.frames.pop? = some (frame, frames) ∧
      q = (p.1, { p.2 with frames, last := none }) := by
  have hx := (exec_pop).symm.trans h
  split at hx
  · next frame frames hf =>
    cases hx
    exact ⟨frame, frames, hf, rfl⟩
  · cases hx

/-- A refused command changes nothing. -/
theorem eq_of_refused {e : SessionM FoldingSolver Unit} (he : Session.Command e) {x : Fault}
    (h : e.exec p = (.error x, q)) : q = p := by
  cases he with
  | declare symbol =>
    have hx := (exec_declare symbol).symm.trans h
    split at hx <;> cases hx
    rfl
  | assert t =>
    have hx := (exec_assert t).symm.trans h
    split at hx
    · cases hx
      rfl
    · split at hx <;> cases hx
      rfl
  | push => cases h
  | pop =>
    have hx := (exec_pop).symm.trans h
    split at hx <;> cases hx
    rfl

theorem quiet_question {α : Type} {e : SessionM FoldingSolver α} (he : Session.Question e) :
    Effect.Within Quiet e := by
  cases he with
  | check => exact quiet_check
  | eval complete t => exact quiet_eval complete t
  | assignments => exact quiet_assignments
  | interpolate ts us => exact quiet_interpolate ts us
  | abbreviate ts => exact fun p => ⟨.refl p.1, rfl⟩

/-- The terms of the one desk are those of the other. -/
def SameTerms (p q : Store × FoldingSolver) : Prop := q.1 = p.1

instance : Std.Refl SameTerms := ⟨fun _ => rfl⟩

instance : IsTrans _ SameTerms := ⟨fun _ _ _ h g => g.trans h⟩

theorem declare_sameTerms (symbol : Symbol) :
    Effect.Within SameTerms (Session.declare symbol : SessionM FoldingSolver Unit) := by
  intro p
  rcases hx : (Session.declare symbol : SessionM FoldingSolver Unit).exec p with ⟨x | _, q⟩
  · rw [eq_of_refused (.declare symbol) hx]
    rfl
  · obtain ⟨d, -, rfl⟩ := declare_eq_ok hx
    rfl

theorem pop_sameTerms :
    Effect.Within SameTerms (Session.pop : SessionM FoldingSolver Unit) := by
  intro p
  rcases hx : (Session.pop : SessionM FoldingSolver Unit).exec p with ⟨x | _, q⟩
  · rw [eq_of_refused .pop hx]
    rfl
  · obtain ⟨frame, frames, -, rfl⟩ := pop_eq_ok hx
    rfl

theorem declareAll_sameTerms (symbols : List Symbol) :
    Effect.Within SameTerms (symbols.forM Session.declare : SessionM FoldingSolver Unit) :=
  .forM declare_sameTerms symbols

end FoldingSolver

/-! Recorded symbols -/

/-- The frame of a level knows all symbols that the level has recorded. -/
def Level.Known (store : Store) (l : Level) (f : Frame) : Prop :=
  ∀ symbol ∈ l.symbols, ∃ d ∈ f.declared, store.declOf symbol = .ok d

theorem Level.Known.mono {store store' : Store} {l : Level} {f : Frame} (h : l.Known store f)
    (hs : store'.Extends store) : l.Known store' f := by
  intro symbol hm
  obtain ⟨d, hd, hsd⟩ := h symbol hm
  exact ⟨d, hd, hs.declOf hsd⟩

theorem Level.Known.declared_iff {store : Store} {l : Level} {f : Frame} (h : l.Known store f)
    (hl : l.Mirrors store f) (d : FuncDecl) :
    d ∈ f.declared ↔ ∃ symbol ∈ l.symbols, store.declOf symbol = .ok d := by
  refine ⟨hl.recorded d, fun ⟨symbol, hm, hsd⟩ => ?_⟩
  obtain ⟨e, he, hse⟩ := h symbol hm
  rw [hsd] at hse
  cases hse
  exact he

namespace Tower

theorem upper_of_pop? {α : Type} {t u : Tower α} {a : α} (h : t.pop? = some (a, u)) :
    t.upper = a :: u.upper := by
  unfold pop? at h
  split at h
  · cases h
  · next hu =>
    cases h
    exact hu

variable {levels below : Tower Level} {level : Level} {new : List Symbol}

/-- The recorded symbols, from the base to the top. -/
def symbols (levels : Tower Level) : List Symbol := levels.toList.flatMap (·.symbols)

theorem symbols_push (levels : Tower Level) : (levels.push default).symbols = levels.symbols := by
  rw [symbols, toList_push, List.flatMap_append]
  exact List.append_nil _

theorem symbols_pop (h : levels.pop? = some (level, below)) :
    levels.symbols = below.symbols ++ level.symbols := by
  rw [symbols, (pop?_eq_some h).1, List.flatMap_append, List.flatMap_singleton]
  rfl

theorem symbols_assert (levels : Tower Level) (more : List (Option Nat × Term)) :
    (levels.modifyTop fun l => { l with assertions := l.assertions ++ more }).symbols =
      levels.symbols := by
  rw [symbols, toList_modifyTop, symbols, levels.toList_eq, List.flatMap_append,
    List.flatMap_append, List.dropLast_concat]
  rfl

/-- Symbols are recorded behind the others, unless only the base is there. -/
theorem symbols_receive (levels : Tower Level) (new : List Symbol) :
    (levels.receive new).symbols.Sublist (levels.symbols ++ new) := by
  obtain ⟨base, _ | ⟨l, rest⟩⟩ := levels
  · exact List.sublist_append_left _ _
  · simp [symbols, receive, modifyUpper, toList]

end Tower

/-- The symbols that a stack received, in this order. -/
def received (id : Nat) (told : List Incident) : List Symbol :=
  told.filterMap fun
    | .received i symbol => if i = id then some symbol else none
    | _ => none

theorem received_append (id : Nat) (told more : List Incident) :
    received id (told ++ more) = received id told ++ received id more :=
  List.filterMap_append

/-- The frames of a session have what the levels of its stack have, and the levels have recorded
symbols in the order in which the stack received them. -/
structure AssertionStack.Reflects (store : Store) (s : AssertionStack FoldingSolver)
    (told : List Incident) : Prop where
  mirrors : FormulaStack.Mirrors store s.levels s.session.frames
  known : List.Forall₂ (Level.Known store) s.levels.upper s.session.frames.upper
  ordered : s.levels.symbols.Sublist (received s.id told)

namespace AssertionStack.Reflects

variable {store store' : Store} {s : AssertionStack FoldingSolver} {told : List Incident}
  {level : Level} {below : Tower Level}

theorem mono (h : s.Reflects store told) (hs : store'.Extends store) (more : List Incident) :
    s.Reflects store' (told ++ more) := by
  refine ⟨h.mirrors.mono hs, h.known.imp fun _ _ hk => hk.mono hs, h.ordered.trans ?_⟩
  rw [received_append]
  exact List.sublist_append_left _ _

theorem of_frames (h : s.Reflects store told) {session : FoldingSolver}
    (hf : session.frames = s.session.frames) (last : Option Verdict) :
    ({ s with session, last } : AssertionStack FoldingSolver).Reflects store told :=
  ⟨hf ▸ h.mirrors, hf ▸ h.known, h.ordered⟩

theorem push (h : s.Reflects store told) (last : Option Verdict) :
    ({ s with
      session := { s.session with frames := s.session.frames.push default, last }
      levels := s.levels.push default } : AssertionStack FoldingSolver).Reflects store told :=
  ⟨h.mirrors.push, .cons nofun h.known, by rw [Tower.symbols_push]; exact h.ordered⟩

theorem record (h : s.Reflects store told) {t : Term} (ht : store.sort? t = some .bool)
    (partition : Option Nat) (last : Option Verdict) :
    ({ s with
      session := s.session.record t
      levels :=
        s.levels.modifyTop fun l => { l with assertions := l.assertions ++ [(partition, t)] }
      last } : AssertionStack FoldingSolver).Reflects store told := by
  refine ⟨h.mirrors.record ht partition, ?_, by rw [Tower.symbols_assert]; exact h.ordered⟩
  obtain ⟨⟨base, upper⟩, hs⟩ : ∃ levels, s.levels = levels := ⟨_, rfl⟩
  obtain ⟨⟨fbase, fupper⟩, hf⟩ : ∃ frames, s.session.frames = frames := ⟨_, rfl⟩
  have hknown := h.known
  rw [hs, hf] at hknown
  simp only [FoldingSolver.record, hs, hf]
  cases hknown with
  | nil => exact .nil
  | cons hl hls => exact .cons hl hls

/-- Symbols that the session is told and the stack records. -/
theorem note (h : s.Reflects store told) {symbols : List Symbol} {ds : List FuncDecl}
    (hd : List.Forall₂ (fun symbol d => store.declOf symbol = .ok d) symbols ds)
    {told' : List Incident}
    (hordered : (s.levels.symbols ++ symbols).Sublist (received s.id told')) :
    ({ s with session := s.session.note ds, levels := s.levels.receive symbols } :
      AssertionStack FoldingSolver).Reflects store told' := by
  refine ⟨h.mirrors.note hd, ?_, (Tower.symbols_receive _ _).trans hordered⟩
  obtain ⟨⟨base, upper⟩, hs⟩ : ∃ levels, s.levels = levels := ⟨_, rfl⟩
  obtain ⟨⟨fbase, fupper⟩, hf⟩ : ∃ frames, s.session.frames = frames := ⟨_, rfl⟩
  have hknown := h.known
  rw [hs, hf] at hknown
  simp only [FoldingSolver.note, Tower.receive, hs, hf]
  cases hknown with
  | nil => exact .nil
  | cons hl hls =>
    refine .cons (fun symbol hm => ?_) hls
    obtain hm | hm := List.mem_append.1 hm
    · obtain ⟨d, hd, hsd⟩ := hl symbol hm
      exact ⟨d, FoldingSolver.mem_foldl_insert.2 (.inr hd), hsd⟩
    · obtain ⟨d, hmem, hsd⟩ := exists_related hd.flip symbol hm
      exact ⟨d, FoldingSolver.mem_foldl_insert.2 (.inl hmem), hsd⟩

/-- The top level and the top frame go together. -/
theorem pop (h : s.Reflects store told) (hl : s.levels.pop? = some (level, below)) :
    ∃ frame frames, s.session.frames.pop? = some (frame, frames) ∧ level.Mirrors store frame ∧
      ∀ last, ({ s with session := { s.session with frames, last }, levels := below } :
        AssertionStack FoldingSolver).Reflects store told := by
  obtain ⟨frame, frames, hf, hlevel, hmirrors⟩ := h.mirrors.pop hl
  refine ⟨frame, frames, hf, hlevel, fun last => ⟨hmirrors, ?_, ?_⟩⟩
  · have hknown := h.known
    rw [Tower.upper_of_pop? hl, Tower.upper_of_pop? hf] at hknown
    exact (List.forall₂_cons.1 hknown).2
  · refine List.Sublist.trans ?_ h.ordered
    rw [Tower.symbols_pop hl]
    exact List.sublist_append_left _ _

theorem depth_eq (h : s.Reflects store told) : s.levels.depth = s.session.frames.depth :=
  h.mirrors.upper.length_eq

/-- A level and the frame at its place. -/
theorem frame (h : s.Reflects store told) {i : Nat} {l : Level} {f : Frame}
    (hl : s.levels.toList[i]? = some l) (hf : s.session.frames.toList[i]? = some f) :
    f.assertions = l.assertions.map (·.2) ∧
      (1 ≤ i → ∀ d, d ∈ f.declared ↔ ∃ symbol ∈ l.symbols, store.declOf symbol = .ok d) := by
  cases i with
  | zero =>
    cases hl
    cases hf
    exact ⟨h.mirrors.base, fun hi => absurd hi (Nat.not_succ_le_zero 0)⟩
  | succ i =>
    have hmirrors := List.forall₂_reverse_iff.2 h.mirrors.upper
    have hknown := List.forall₂_reverse_iff.2 h.known
    obtain ⟨hi, rfl⟩ := List.getElem?_eq_some_iff.1 (List.getElem?_cons_succ.symm.trans hl)
    obtain ⟨hi', rfl⟩ := List.getElem?_eq_some_iff.1 (List.getElem?_cons_succ.symm.trans hf)
    have hlevel := hmirrors.get hi hi'
    exact ⟨hlevel.assertions, fun _ => (hknown.get hi hi').declared_iff hlevel⟩

end AssertionStack.Reflects

/-! Turns of a stack -/

namespace Site

variable {s t : Site FoldingSolver} {told more : List Incident}

theorem Pause.grows (h : Pause s t) : s.env.terms.Grows t.env.terms := by
  cases h with
  | question _ he => exact (FoldingSolver.quiet_question he s.desk).1
  | environment _ h => exact h.terms
  | noted => exact .refl _

theorem Turn.grows (h : Turn s told t) : s.env.terms.Grows t.env.terms := by
  have hreplay : ∀ {symbols : List Symbol} {r : Except Fault PUnit} {p q : Store × FoldingSolver},
      (Session.pop : SessionM FoldingSolver Unit).exec s.desk = (.ok (), p) →
      (symbols.forM Session.declare : SessionM FoldingSolver Unit).exec p = (r, q) →
        s.env.terms.Grows q.1 := by
    intro symbols r p q hp hq
    obtain ⟨frame, frames, -, rfl⟩ := FoldingSolver.pop_eq_ok hp
    have hsame := FoldingSolver.declareAll_sameTerms symbols
      (s.desk.1, { s.desk.2 with frames, last := none })
    rw [hq] at hsame
    rw [show q.1 = s.env.terms from hsame]
    exact .refl _
  cases h with
  | pause h => exact h.grows
  | refused he h =>
    rw [FoldingSolver.eq_of_refused he h]
    exact .refl _
  | declared ho h =>
    obtain ⟨d, -, rfl⟩ := FoldingSolver.declare_eq_ok h
    exact .refl _
  | pushed h =>
    cases h
    exact .refl _
  | asserted partition h =>
    obtain ⟨-, rfl⟩ := FoldingSolver.assert_eq_ok h
    exact .refl _
  | popped h hl hr | bottomed h hl =>
    obtain ⟨frame, frames, -, rfl⟩ := FoldingSolver.pop_eq_ok h
    exact .refl _
  | replayed h hl hr hd | abandoned h hl hr hd => exact hreplay h hd
  | detached ho => exact .refl _
  | shutdown hc => exact .refl _
  | emptied hc => exact .refl _

theorem grows_of_trail (h : Trail Turn s told t) : s.env.terms.Grows t.env.terms := by
  induction h with
  | refl => exact .refl _
  | tail _ hturn ih => exact ih.trans hturn.grows

section Pops

variable {p : Store × FoldingSolver} (hr : s.stack.Reflects s.env.terms told)
  (h : (Session.pop : SessionM FoldingSolver Unit).exec s.desk = (.ok (), p))
include hr h

/-- What is declared is declared again. -/
theorem not_abandoned {level : Level} {below : Tower Level}
    (hl : s.stack.levels.pop? = some (level, below)) (x : Fault) (q : Store × FoldingSolver) :
    (level.symbols.forM Session.declare : SessionM FoldingSolver Unit).exec p ≠ (.error x, q) := by
  intro hd
  obtain ⟨frame, frames, hf, rfl⟩ := FoldingSolver.pop_eq_ok h
  obtain ⟨_, _, _, hlevel, _⟩ := hr.pop hl
  obtain ⟨ds, hds⟩ := exists_forall₂ hlevel.declarable
  have hx := FoldingSolver.exec_declareAll (s := { s.desk.2 with frames, last := none }) hds
  cases hd.symm.trans hx

/-- There is a level for each frame. -/
theorem not_bottomed : s.stack.levels.pop? ≠ none := by
  intro hl
  obtain ⟨frame, frames, hf, rfl⟩ := FoldingSolver.pop_eq_ok h
  have hlength := hr.mirrors.upper.length_eq
  rw [Tower.pop?_eq_none_iff, Tower.depth] at hl
  rw [hl, show s.stack.session.frames.upper = _ from Tower.upper_of_pop? hf] at hlength
  cases hlength

end Pops

theorem Turn.reflects (h : Turn s more t) (ho : t.stack.closed = false)
    (hr : s.stack.Reflects s.env.terms told) : t.stack.Reflects t.env.terms (told ++ more) := by
  have hgrown := hr.mono h.grows.extension more
  cases h with
  | pause h =>
    cases h with
    | question _ he => exact hgrown.of_frames (FoldingSolver.quiet_question he s.desk).2 _
    | environment _ h => exact hgrown
    | noted _ queries last => exact hgrown.of_frames rfl last
  | refused he h =>
    rw [FoldingSolver.eq_of_refused he h]
    rw [List.append_nil]
    exact hr
  | @declared symbol p _ h =>
    obtain ⟨d, hd, rfl⟩ := FoldingSolver.declare_eq_ok h
    refine hr.note (.cons hd .nil) ?_
    have hnew : received s.stack.id [.received s.stack.id symbol] = [symbol] := by
      simp [received]
    rw [received_append, hnew]
    exact hr.ordered.append (.refl _)
  | pushed h =>
    cases h
    exact hgrown.push none
  | asserted partition h =>
    obtain ⟨ht, rfl⟩ := FoldingSolver.assert_eq_ok h
    exact hgrown.record ht partition none
  | popped h hl hr' =>
    obtain ⟨frame, frames, hf, rfl⟩ := FoldingSolver.pop_eq_ok h
    obtain ⟨frame', frames', hf', -, hbelow⟩ := hgrown.pop hl
    have hff := hf'.symm.trans hf
    cases hff
    exact hbelow none
  | @replayed p q level below h hl hr' hd =>
    obtain ⟨frame, frames, hf, rfl⟩ := FoldingSolver.pop_eq_ok h
    obtain ⟨ds, hds, rfl⟩ := FoldingSolver.declareAll_eq_ok hd
    obtain ⟨frame', frames', hf', -, hbelow⟩ := hr.pop hl
    have hff := hf'.symm.trans hf
    cases hff
    refine (hbelow none).note hds ?_
    rw [List.append_nil, ← Tower.symbols_pop hl]
    exact hr.ordered
  | abandoned h hl _ hd => exact absurd hd (not_abandoned hr h hl _ _)
  | bottomed h hl => exact absurd hl (not_bottomed hr h)
  | detached _ => cases ho
  | shutdown hc | emptied hc => cases hc.symm.trans ho

theorem reflects_of_trail (h : Trail Turn s more t) (ho : t.stack.closed = false)
    (hr : s.stack.Reflects s.env.terms told) : t.stack.Reflects t.env.terms (told ++ more) := by
  induction h with
  | refl =>
    rw [List.append_nil]
    exact hr
  | tail _ hturn ih =>
    rw [← List.append_assoc]
    exact hturn.reflects ho (ih (not_closed hturn.remains.closed ho))

end Site

/-! Moves of a world -/

/-- What stays of a context, whatever happens in the world. -/
structure Context.Grows (c c' : Context) : Prop where
  options : c'.options = c.options
  terms : c.env.terms.Grows c'.env.terms

/-- A stack whose session may have been interrupted. -/
structure AssertionStack.Alike (s s' : AssertionStack FoldingSolver) : Prop where
  rest : s' = { s with session := s'.session }
  frames : s'.session.frames = s.session.frames

namespace World

variable {g : Setting FoldingSolver} {w w' : World FoldingSolver} {told more : List Incident}

/-- The terms of a context stay, and without requests it gets to know no symbol. -/
theorem Move.context_grows (h : Move g w told w') {i : Nat} {c : Context}
    (hc : w.contexts[i]? = some c) : ∃ c', w'.contexts[i]? = some c' ∧ c.Grows c' ∧
      (¬ g.requesting → c'.env.declared = c.env.declared) := by
  have hsame : ∀ {w' : World FoldingSolver}, w'.contexts = w.contexts →
      ∃ c', w'.contexts[i]? = some c' ∧ c.Grows c' ∧
        (¬ g.requesting → c'.env.declared = c.env.declared) :=
    fun hw => ⟨c, hw ▸ hc, ⟨rfl, .refl _⟩, fun _ => rfl⟩
  have hset : ∀ {ctx : Nat} {d : Context} {env : Environment}, w.contexts[ctx]? = some d →
      d.env.terms.Grows env.terms → (¬ g.requesting → env.declared = d.env.declared) →
      ∃ c', (setEnvironment ctx env w).contexts[i]? = some c' ∧ c.Grows c' ∧
        (¬ g.requesting → c'.env.declared = c.env.declared) := by
    intro ctx d env hd hterms hdeclared
    rw [context_setEnvironment hd]
    split
    · next hi =>
      rw [hi, hd] at hc
      cases hc
      exact ⟨_, rfl, ⟨rfl, hterms⟩, hdeclared⟩
    · exact ⟨c, hc, ⟨rfl, .refl _⟩, fun _ => rfl⟩
  have hlearned : ∀ {symbols : List Symbol} {terms terms' : Store}
      {session session' : FoldingSolver} {r : Except Fault PUnit},
      (symbols.forM Session.declare : SessionM FoldingSolver Unit).exec (terms, session) =
        (r, terms', session') → terms.Grows terms' := by
    intro symbols terms terms' session session' r h
    have hterms := FoldingSolver.declareAll_sameTerms symbols (terms, session)
    rw [h] at hterms
    rw [show terms' = terms from hterms]
    exact .refl _
  cases h with
  | environment hd h => exact hset hd h.terms fun _ => by rw [h.rest]
  | requested hg hd h => exact hset hd h.terms fun hn => absurd hg hn
  | @site id s d _ t hg hs hd h =>
    rw [context_put hd]
    split
    · next hi =>
      rw [hi, hd] at hc
      cases hc
      refine ⟨_, rfl, ⟨rfl, Site.grows_of_trail h⟩, fun _ => ?_⟩
      exact congrArg (·.declared) (Site.remains_of_trail h).env
    · exact ⟨c, hc, ⟨rfl, .refl _⟩, fun _ => rfl⟩
  | context theories counting announced options notifierOf =>
    obtain ⟨notifier, hcontexts⟩ :=
      contexts_addContext w theories counting announced options notifierOf
    refine ⟨c, ?_, ⟨rfl, .refl _⟩, fun _ => rfl⟩
    rw [hcontexts, Array.getElem?_push, if_neg (Array.getElem?_eq_some_iff.1 hc).1.ne, hc]
  | @opened ctx d session session' terms hd hg h interpolating =>
    have hlearn : d.env.terms.Grows { d.env with terms }.terms := hlearned h
    obtain ⟨c', hc', hgrows, hdeclared⟩ := hset hd hlearn fun _ => rfl
    rw [World.opened, Array.getElem?_modify, hc']
    split
    · exact ⟨_, rfl, ⟨hgrows.options, hgrows.terms⟩, hdeclared⟩
    · exact ⟨c', rfl, hgrows, hdeclared⟩
  | unopened hd hg h => exact hset hd (hlearned h) fun _ => rfl
  | dropped hg hs hcl => exact hsame rfl
  | reacted reason r => exact hsame (contexts_react reason w r)
  | beside hcontexts hstacks haims => exact hsame hcontexts
  | watched hg hsize hstacks haims hcontexts =>
    obtain ⟨c', hc'⟩ : ∃ c', w'.contexts[i]? = some c' :=
      ⟨_, Array.getElem?_eq_getElem (hsize ▸ (Array.getElem?_eq_some_iff.1 hc).1)⟩
    obtain ⟨d, observers, hd, rfl, -⟩ := hcontexts i c' hc'
    rw [hc] at hd
    cases hd
    exact ⟨_, hc', ⟨rfl, .refl _⟩, fun _ => rfl⟩

theorem Reaches.context_grows (h : w.Reaches g w') {i : Nat} {c : Context}
    (hc : w.contexts[i]? = some c) : ∃ c', w'.contexts[i]? = some c' ∧ c.Grows c' ∧
      (¬ g.requesting → c'.env.declared = c.env.declared) := by
  obtain ⟨told, h⟩ := h
  induction h with
  | refl => exact ⟨c, hc, ⟨rfl, .refl _⟩, fun _ => rfl⟩
  | tail _ hmove ih =>
    obtain ⟨c₁, hc₁, hgrows, hsame⟩ := ih
    obtain ⟨c₂, hc₂, hgrows', hsame'⟩ := hmove.context_grows hc₁
    exact ⟨c₂, hc₂, ⟨hgrows'.options.trans hgrows.options, hgrows.terms.trans hgrows'.terms⟩,
      fun hn => (hsame' hn).trans (hsame hn)⟩

/-- A stack that is open reflects its session on the terms of its context. -/
structure MirroredAt (w : World FoldingSolver) (told : List Incident) (id : Nat)
    (s : AssertionStack FoldingSolver) : Prop where
  place : s.id = id
  context : ∃ c, w.contexts[s.home]? = some c ∧ s.replaying = c.options.globalDeclarations ∧
    (s.closed = false → s.Reflects c.env.terms told)

/-- All stacks that are open reflect their sessions. -/
def Mirrored (w : World FoldingSolver) (told : List Incident) : Prop :=
  ∀ id s, w.stack? id = some s → w.MirroredAt told id s

/-- A stack that a move leaves alone. -/
theorem MirroredAt.stays {id : Nat} {s s' : AssertionStack FoldingSolver}
    (h : w.MirroredAt told id s) (hmove : Move g w more w') (halike : s.Alike s') :
    w'.MirroredAt (told ++ more) id s' := by
  obtain ⟨hplace, c, hc, hreplaying, hreflects⟩ := h
  obtain ⟨c', hc', hgrows, -⟩ := hmove.context_grows hc
  rw [halike.rest]
  refine ⟨hplace, c', hc', hreplaying.trans (by rw [hgrows.options]), fun ho => ?_⟩
  exact ((hreflects ho).mono hgrows.terms.extension more).of_frames halike.frames s.last

/-- The stack of a site after its turns. -/
theorem MirroredAt.turns {id : Nat} {s : AssertionStack FoldingSolver} {c : Context}
    {t : Site FoldingSolver} (h : w.MirroredAt told id s) (hc : w.contexts[s.home]? = some c)
    (ht : Trail Site.Turn (w.site c s) more t) :
    (w.put id s.home t).MirroredAt (told ++ more) id t.stack := by
  obtain ⟨hplace, c', hc', hreplaying, hreflects⟩ := h
  have hremains := Site.remains_of_trail ht
  rw [hc] at hc'
  cases hc'
  refine ⟨hremains.id.trans hplace, { c with env := t.env }, ?_,
    hremains.replaying.trans hreplaying, fun ho => ?_⟩
  · exact (context_put hc t _).trans (if_pos hremains.home)
  · exact Site.reflects_of_trail ht ho (hreflects (Site.not_closed hremains.closed ho))

/-- A new stack has no level above the base, and neither has its session. -/
theorem reflects_opening {symbols : List Symbol} {store terms : Store} {session : FoldingSolver}
    (h : (symbols.forM Session.declare : SessionM FoldingSolver Unit).exec (store, .new) =
      (.ok (), terms, session)) (ctx : Nat) (c : Context) (interpolating : Bool) :
    (w.opening ctx c interpolating session).Reflects terms told := by
  obtain ⟨ds, hds, hq⟩ := FoldingSolver.declareAll_eq_ok h
  cases hq
  exact ⟨Mirrors.new.note hds, .nil, List.nil_sublist _⟩

theorem Move.mirrored (hg : ∀ session, g.fresh session → session = .new) (h : Move g w more w')
    (hw : w.Mirrored told) : w'.Mirrored (told ++ more) := by
  have hmove := h
  intro id s' hs'
  cases h with
  | environment | requested | unopened => exact (hw id s' hs').stays hmove ⟨rfl, rfl⟩
  | site _ hs hc h =>
    rw [stack?_put hs] at hs'
    split at hs'
    · next hid =>
      subst hid
      cases hs'
      exact (hw _ _ hs).turns hc h
    · exact (hw id s' hs').stays hmove ⟨rfl, rfl⟩
  | context theories counting announced options notifierOf =>
    rw [stack?, stackTable_addContext] at hs'
    exact (hw id s' hs').stays hmove ⟨rfl, rfl⟩
  | @opened ctx c session session' terms hc hfresh h interpolating =>
    rw [stack?_opened] at hs'
    split at hs'
    · next hid =>
      cases hs'
      rw [hg session hfresh] at h
      have hset := context_setEnvironment hc { c.env with terms } ctx
      rw [if_pos rfl] at hset
      refine ⟨hid.symm, observedBy { c with env := { c.env with terms } } w.stackTable.size, ?_,
        rfl, fun _ => reflects_opening h ctx c interpolating⟩
      exact (context_opened hset _ ctx).trans (if_pos rfl)
    · exact (hw id s' hs').stays hmove ⟨rfl, rfl⟩
  | dropped => exact (hw id s' (stack?_of_withStack_none hs')).stays hmove ⟨rfl, rfl⟩
  | reacted reason r =>
    obtain ⟨s, hs, rfl | rfl⟩ := stack?_react hs'
    · exact (hw id _ hs).stays hmove ⟨rfl, rfl⟩
    · exact (hw id s hs).stays hmove ⟨rfl, rfl⟩
  | beside _ hstacks _ | watched _ _ hstacks _ _ =>
    rw [stack?, hstacks] at hs'
    exact (hw id s' hs').stays hmove ⟨rfl, rfl⟩

theorem Mirrored.trail (hg : ∀ session, g.fresh session → session = .new) (hw : w.Mirrored told)
    (h : Trail (Move g) w more w') : w'.Mirrored (told ++ more) := by
  induction h with
  | refl => rwa [List.append_nil]
  | tail _ hmove ih =>
    rw [← List.append_assoc]
    exact hmove.mirrored hg ih

theorem mirrored_of_trail (hg : ∀ session, g.fresh session → session = .new)
    (h : Trail (Move g) empty told w) : w.Mirrored told := by
  have hempty : (empty : World FoldingSolver).Mirrored [] := by
    intro id s hs
    rw [stack?_eq_some] at hs
    simp [empty] at hs
  exact hempty.trail hg h

/-- A stack that is open has as many levels as its session has frames. The terms of a level are the
assertions of its frame; above the base the frame has the declarations of the symbols that the level
recorded. From the base to the top these are in the order in which the stack received them. -/
theorem levels_mirror_frames {watching : Prop} (hw : Reached (.folding watching) w) :
    (∃ told, Trail (Move (.folding watching)) empty told w) ∧
    ∀ told, Trail (Move (.folding watching)) empty told w → ∀ id s, w.stack? id = some s →
      s.closed = false → ∃ c, w.contexts[s.home]? = some c ∧
        s.levels.toList.length = s.session.frames.toList.length ∧ 1 ≤ s.levels.toList.length ∧
        (∀ (i : Nat) l f, s.levels.toList[i]? = some l → s.session.frames.toList[i]? = some f →
          f.assertions = l.assertions.map (·.2) ∧
          (1 ≤ i → ∀ d, d ∈ f.declared ↔
            ∃ symbol ∈ l.symbols, c.env.terms.declOf symbol = .ok d)) ∧
        s.levels.symbols.Sublist (received id told) := by
  refine ⟨hw.exists_trail, fun told htold id s hs ho => ?_⟩
  obtain ⟨hplace, c, hc, -, hreflects⟩ := mirrored_of_trail (fun _ h => h) htold id s hs
  have hs := hreflects ho
  refine ⟨c, hc, ?_, ?_, fun i l f hl hf => hs.frame hl hf, hplace ▸ hs.ordered⟩
  · rw [Tower.length_toList, Tower.length_toList, hs.depth_eq]
  · rw [Tower.length_toList]
    exact Nat.succ_le_succ (Nat.zero_le _)

/-- A stack that was told of a symbol on a level that it popped, and then of another one. -/
def descended : World FoldingSolver :=
  afterAll [
    .addContext .everything false false default none, .openStack 0 .new false, .atStack 0 (.push 2),
    .constant 0 .boolean "x", .atStack 0 (.pop 1), .constant 0 .boolean "y"]

theorem levels_mirror_frames_descended :
    ∃ told s, Trail (Move (.folding False)) empty told descended ∧ descended.stack? 0 = some s ∧
      s.session.frames.toList.length = 2 ∧
      [Symbol.boolean ⟨0⟩, .boolean ⟨1⟩].Sublist (received 0 told) := by
  have hshape : (descended.stack? 0).map (fun s => (s.closed, s.levels.toList.length,
      s.levels.symbols)) = some (false, 2, [.boolean ⟨0⟩, .boolean ⟨1⟩]) := by
    decide +kernel
  have hreached : Reached (.folding False) descended :=
    reached_afterAll (by simp [Event.Allowed, Setting.folding])
  obtain ⟨s, hs, h⟩ := Option.map_eq_some_iff.1 hshape
  simp only [Prod.mk.injEq] at h
  obtain ⟨hclosed, hlength, hsymbols⟩ := h
  obtain ⟨⟨told, htold⟩, hall⟩ := levels_mirror_frames hreached
  obtain ⟨c, hc, hframes, -, -, hordered⟩ := hall told htold 0 s hs hclosed
  exact ⟨told, s, htold, hs, hframes ▸ hlength, hsymbols ▸ hordered⟩

end World
end FormulaStack
