import FormulaStack.AssertionStack
import FormulaStack.FoldingSolver
import FormulaStack.Proofs.Constructors
import FormulaStack.Proofs.Effects
import FormulaStack.Proofs.Traversals

/-!
Levels of a stack and frames of its session. The two mirror each other: a frame has the assertions
of its level, and above the base a level records every declaration of its frame.
-/
namespace FormulaStack

namespace Tower

variable {α β : Type}

@[simp] theorem toList_modifyTop (f : α → α) (t : Tower α) :
    (t.modifyTop f).toList = t.toList.dropLast ++ [f t.top] := by
  unfold modifyTop
  split
  · next h => simp [toList, top, h]
  · next a rest h => simp [toList, top, h, List.dropLast_cons_of_ne_nil]

theorem toList_eq (t : Tower α) : t.toList = t.toList.dropLast ++ [t.top] := by
  obtain ⟨base, _ | ⟨a, rest⟩⟩ := t
  · rfl
  · simp [toList, top, List.dropLast_cons_of_ne_nil]

theorem length_dropLast (t : Tower α) : t.toList.dropLast.length = t.depth := by
  rw [List.length_dropLast, length_toList, Nat.add_sub_cancel]

theorem top_mem (t : Tower α) : t.top ∈ t.toList := by
  rw [toList_eq]
  simp

theorem modifyTop_modifyTop (f g : α → α) (t : Tower α) :
    (t.modifyTop f).modifyTop g = t.modifyTop (g ∘ f) := by
  obtain ⟨base, _ | ⟨a, rest⟩⟩ := t <;> rfl

end Tower

namespace Store

/-- The declaration that a symbol stands for. -/
def declOf (s : Store) : Symbol → Except Fault FuncDecl
  | .boolean t | .numeric t =>
    match s.node t with
    | .error f => .error f
    | .ok n =>
      match n.decl? with
      | some d => .ok d
      | none => .error (.badArgument .notDeclarable)
  | .function d => .ok d

theorem node_eq_ok {s : Store} {t : Term} {n : Node} : s.node t = .ok n ↔ s.node? t = some n := by
  unfold node
  cases s.node? t <;> simp

theorem declOf_of_node {s : Store} {t : Term} {n : Node} {d : FuncDecl} (hn : s.node? t = some n)
    (hd : n.decl? = some d) :
    s.declOf (.boolean t) = .ok d ∧ s.declOf (.numeric t) = .ok d := by
  have h : s.declOf (.boolean t) = .ok d := by
    unfold declOf
    dsimp only
    rw [node_eq_ok.2 hn]
    dsimp only
    rw [hd]
  exact ⟨h, h⟩

theorem Extends.declOf {s u : Store} (h : u.Extends s) {symbol : Symbol} {d : FuncDecl}
    (hd : s.declOf symbol = .ok d) : u.declOf symbol = .ok d := by
  cases symbol with
  | function e => exact hd
  | boolean t | numeric t =>
    unfold Store.declOf at hd ⊢
    dsimp only at hd ⊢
    cases hn : s.node t with
    | error f =>
      rw [hn] at hd
      cases hd
    | ok n =>
      rw [hn] at hd
      rw [node_eq_ok.2 (h.node? t n (node_eq_ok.1 hn))]
      exact hd

end Store

namespace FoldingSolver

variable {store : Store} {s : FoldingSolver}

theorem mem_foldl_insert {d : FuncDecl} {ds l : List FuncDecl} :
    d ∈ ds.foldl (fun l d => l.insert d) l ↔ d ∈ ds ∨ d ∈ l := by
  induction ds generalizing l with
  | nil => simp
  | cons e ds ih =>
    rw [List.foldl_cons, ih, List.mem_insert_iff, List.mem_cons]
    tauto

/-- A session that knows some more declarations, in its top frame. -/
def note (s : FoldingSolver) (ds : List FuncDecl) : FoldingSolver :=
  { s with
    frames := s.frames.modifyTop fun f =>
      { f with declared := ds.foldl (fun l d => l.insert d) f.declared } }

/-- A session with one more assertion. -/
def record (s : FoldingSolver) (t : Term) : FoldingSolver :=
  { s with
    last := none
    frames := s.frames.modifyTop fun f => { f with assertions := f.assertions ++ [t] } }

theorem note_nil : s.note [] = s := by
  obtain ⟨⟨base, _ | ⟨f, rest⟩⟩, _⟩ := s <;> rfl

theorem note_note (d : FuncDecl) (ds : List FuncDecl) :
    (s.note [d]).note ds = s.note (d :: ds) := by
  unfold note
  rw [Tower.modifyTop_modifyTop]
  rfl

theorem isDeclared_iff {d : FuncDecl} :
    s.isDeclared d = true ↔ ∃ f ∈ s.frames.toList, d ∈ f.declared := by
  simp [isDeclared]

theorem isDeclared_note {d : FuncDecl} {ds : List FuncDecl} :
    (s.note ds).isDeclared d = true ↔ d ∈ ds ∨ s.isDeclared d = true := by
  rw [isDeclared_iff, isDeclared_iff, note, Tower.toList_modifyTop, s.frames.toList_eq]
  simp only [List.mem_append, List.mem_singleton, List.dropLast_concat, or_and_right, exists_or,
    exists_eq_left, mem_foldl_insert]
  exact or_left_comm

theorem isDeclared_record {d : FuncDecl} {t : Term} :
    (s.record t).isDeclared d = true ↔ s.isDeclared d = true := by
  rw [isDeclared_iff, isDeclared_iff, record, Tower.toList_modifyTop, s.frames.toList_eq]
  simp only [List.mem_append, List.mem_singleton, List.dropLast_concat, or_and_right, exists_or,
    exists_eq_left]

theorem exec_declare (symbol : Symbol) :
    (declare symbol).exec (store, s) =
      match store.declOf symbol with
      | .ok d => (.ok (), store, s.note [d])
      | .error f => (.error f, store, s) := by
  cases symbol with
  | function d => rfl
  | boolean t | numeric t =>
    unfold declare Store.declOf
    dsimp only
    cases hn : store.node t with
    | error f => simp [Effect.exec_bind, SessionM.ofStore, hn]
    | ok n =>
      cases hd : n.decl? with
      | none => simp [Effect.exec_bind, SessionM.ofStore, hn, hd]
      | some d =>
        simp [Effect.exec_bind, SessionM.ofStore, hn, hd]
        rfl

/-- Declarations one after the other. -/
theorem exec_declareAll {symbols : List Symbol} {ds : List FuncDecl}
    (hd : List.Forall₂ (fun symbol d => store.declOf symbol = .ok d) symbols ds) :
    (symbols.forM declare).exec (store, s) = (.ok (), store, s.note ds) := by
  rw [List.forM_eq_forM]
  induction hd generalizing s with
  | nil =>
    rw [note_nil]
    rfl
  | @cons symbol d symbols ds h _ ih =>
    have hx : (declare symbol).exec (store, s) = (.ok (), store, s.note [d]) := by
      rw [exec_declare, h]
    rw [List.forM_cons, Effect.exec_bind_ok hx, ih, note_note]

theorem exec_pop : pop.exec (store, s) =
    match s.frames.pop? with
    | some (_, frames) => (.ok (), store, { s with frames, last := none })
    | none => (.error (.badState .noFrame), store, s) := by
  unfold pop
  rw [Effect.exec_bind]
  simp only [SessionM.session, Effect.exec_look]
  cases s.frames.pop? <;> rfl

theorem exec_assert (t : Term) :
    (assert t).exec (store, s) =
      match Build.expect .bool t store with
      | .error f => (.error f, store, s)
      | .ok _ =>
        match s.undeclared? (store.symbols t) with
        | some d => (.error (.solver (.undeclared (store.declName d))), store, s)
        | none => (.ok (), store, s.record t) := by
  unfold assert SessionM.build
  rw [Effect.exec_bind, Effect.exec_of]
  dsimp only
  cases he : Build.expect .bool t store with
  | error f => rfl
  | ok r =>
    obtain ⟨-, hr⟩ := Build.expect_eq_ok.1 he
    dsimp only
    rw [hr]
    simp only [Effect.exec_bind, Effect.exec_look, SessionM.session]
    cases s.undeclared? (store.symbols t) <;> rfl

theorem exec_check : check.exec (store, s) =
    if s.interrupted then
      (.ok .unknown, store,
        { s with interrupted := false, reason := some "canceled", last := some .unknown })
    else
      let v := verdict (s.assertions.map (store.fold false))
      (.ok v, store,
        { s with
          reason := if v = .unknown then some "incomplete" else none
          last := some v }) := rfl

/-- Work on a session that leaves its frames alone. -/
def Quiet (a b : Store × FoldingSolver) : Prop := a.1.Grows b.1 ∧ b.2.frames = a.2.frames

instance : Std.Refl Quiet := ⟨fun a => ⟨.refl a.1, rfl⟩⟩

instance : IsTrans _ Quiet :=
  ⟨fun _ _ _ h g => ⟨h.1.trans g.1, g.2.trans h.2⟩⟩

theorem quiet_build {α : Type} {b : Build α} (hb : b.Grows) :
    Effect.Within Quiet (SessionM.build b : SessionM FoldingSolver α) := by
  rintro ⟨store, s⟩
  unfold SessionM.build
  rw [Effect.exec_of]
  dsimp only
  cases h : b store with
  | error f => exact ⟨.refl store, rfl⟩
  | ok r => exact ⟨hb store r.1 r.2 h, rfl⟩

theorem literal_grows (v : Value) (sort : TermSort) : (v.literal sort).Grows := by
  unfold Value.literal
  split
  · exact .truth _
  · exact .numeral _ _
  · exact .bits _ _
  · exact .fail _

theorem quiet_modelAvailable : Effect.Within Quiet modelAvailable := by
  refine .bind (.look _) fun s => ?_
  split
  · exact .throw _
  · exact .pure _

theorem ensures_modelAvailable (y : Store × FoldingSolver) :
    modelAvailable.Ensures y fun _ z => z = y ∧ y.2.last = some .sat := by
  refine .look_bind ?_
  split
  · exact .throw _
  · next hsat => exact .pure ⟨rfl, not_not.1 hsat⟩

theorem quiet_eval (complete : Bool) (t : Term) : Effect.Within Quiet (eval complete t) := by
  refine .bind quiet_modelAvailable fun _ => .bind (.ask _) fun sort => .bind (.look _) fun v => ?_
  split
  · exact .bind (quiet_build (literal_grows _ _)) fun _ => .pure _
  · exact .pure _

theorem quiet_assignment? (d : FuncDecl) : Effect.Within Quiet (assignment? d) := by
  refine .bind (.ask _) fun f => ?_
  split
  · exact .pure _
  · refine .bind (quiet_build (.apply d [])) fun t => ?_
    split
    · exact .bind (quiet_build (literal_grows _ _)) fun _ => .pure _
    · exact .pure _

theorem quiet_assignments : Effect.Within Quiet assignments :=
  .bind quiet_modelAvailable fun _ => .bind (.look _) fun _ =>
    .bind (.mapM quiet_assignment? _) fun _ => .pure _

theorem quiet_check : Effect.Within Quiet check := by
  rintro ⟨store, s⟩
  unfold check
  rw [Effect.exec_of]
  dsimp only
  split <;> exact ⟨.refl store, rfl⟩

theorem quiet_interpolate (ts us : List Term) :
    Effect.Within Quiet (Session.interpolate ts us : SessionM FoldingSolver Term) := .throw _

end FoldingSolver

/-- A frame has the assertions of a level, and the level records all declarations of the frame. -/
structure Level.Mirrors (store : Store) (l : Level) (f : Frame) : Prop where
  assertions : f.assertions = l.assertions.map (·.2)
  declarable : ∀ symbol ∈ l.symbols, ∃ d, store.declOf symbol = .ok d
  recorded : ∀ d ∈ f.declared, ∃ symbol ∈ l.symbols, store.declOf symbol = .ok d

/-- The frames of a session mirror the levels of a stack; what is asserted is boolean. -/
structure Mirrors (store : Store) (levels : Tower Level) (frames : Tower Frame) : Prop where
  base : frames.base.assertions = levels.base.assertions.map (·.2)
  upper : List.Forall₂ (Level.Mirrors store) levels.upper frames.upper
  boolean : ∀ f ∈ frames.toList, ∀ t ∈ f.assertions, store.sort? t = some .bool

namespace Mirrors

variable {store store' : Store} {levels : Tower Level} {frames : Tower Frame}

theorem new : Mirrors store default default :=
  ⟨rfl, .nil, fun f hf t ht => by
    rw [List.mem_singleton.1 hf] at ht
    cases ht⟩

theorem mono (h : Mirrors store levels frames) (hs : store'.Extends store) :
    Mirrors store' levels frames := by
  refine ⟨h.base, h.upper.imp fun l f hl => ?_, fun f hf t ht => hs.sort? (h.boolean f hf t ht)⟩
  refine ⟨hl.assertions, fun symbol hm => ?_, fun d hd => ?_⟩
  · obtain ⟨d, hd⟩ := hl.declarable symbol hm
    exact ⟨d, hs.declOf hd⟩
  · obtain ⟨symbol, hm, hd⟩ := hl.recorded d hd
    exact ⟨symbol, hm, hs.declOf hd⟩

theorem assertions (h : Mirrors store levels frames) :
    frames.toList.map (·.assertions) = levels.toList.map fun l => l.assertions.map (·.2) := by
  have hu : frames.upper.map (·.assertions) = levels.upper.map fun l => l.assertions.map (·.2) := by
    obtain ⟨_, hupper, _⟩ := h
    generalize levels.upper = ls at hupper
    generalize frames.upper = fs at hupper
    induction hupper with
    | nil => rfl
    | cons hl _ ih => rw [List.map_cons, List.map_cons, hl.assertions, ih]
  simp only [Tower.toList, List.map_cons, List.map_reverse, h.base, hu]

theorem mirrors_default : (default : Level).Mirrors store (default : Frame) :=
  ⟨rfl, fun _ h => (List.not_mem_nil h).elim, fun _ h => (List.not_mem_nil h).elim⟩

theorem push (h : Mirrors store levels frames) :
    Mirrors store (levels.push default) (frames.push default) := by
  refine ⟨h.base, .cons mirrors_default h.upper, fun f hf t ht => ?_⟩
  rw [Tower.toList_push] at hf
  obtain hf | hf := List.mem_append.1 hf
  · exact h.boolean f hf t ht
  · rw [List.mem_singleton.1 hf] at ht
    exact (List.not_mem_nil ht).elim

/-- The top of the levels and that of the frames go together. -/
theorem pop {level : Level} {below : Tower Level} (h : Mirrors store levels frames)
    (hp : levels.pop? = some (level, below)) :
    ∃ frame rest, frames.pop? = some (frame, rest) ∧ level.Mirrors store frame ∧
      Mirrors store below rest := by
  obtain ⟨base, upper⟩ := levels
  obtain ⟨fbase, fupper⟩ := frames
  obtain ⟨hbase, hupper, hbool⟩ := h
  cases hupper with
  | nil => cases hp
  | @cons l f ls fs hl hls =>
    cases hp
    refine ⟨f, ⟨fbase, fs⟩, rfl, hl, hbase, hls, fun g hg => hbool g ?_⟩
    simp only [Tower.toList, List.mem_cons, List.mem_reverse] at hg ⊢
    tauto

/-- Terms asserted by the frames after a change of the top. -/
theorem boolean_modifyTop (h : Mirrors store levels frames) {g : Frame → Frame}
    (hg : ∀ t ∈ (g frames.top).assertions, store.sort? t = some .bool) :
    ∀ f ∈ (frames.modifyTop g).toList, ∀ t ∈ f.assertions, store.sort? t = some .bool := by
  intro f hf t ht
  rw [Tower.toList_modifyTop] at hf
  obtain hf | hf := List.mem_append.1 hf
  · exact h.boolean f (List.dropLast_subset _ hf) t ht
  · rw [List.mem_singleton.1 hf] at ht
    exact hg t ht

theorem record (h : Mirrors store levels frames) {t : Term} (ht : store.sort? t = some .bool)
    (p : Option Nat) :
    Mirrors store (levels.modifyTop fun l => { l with assertions := l.assertions ++ [(p, t)] })
      (frames.modifyTop fun f => { f with assertions := f.assertions ++ [t] }) := by
  have hbool := h.boolean_modifyTop (g := fun f => { f with assertions := f.assertions ++ [t] })
    fun u hu => by
      obtain hu | hu := List.mem_append.1 hu
      · exact h.boolean _ frames.top_mem u hu
      · rw [List.mem_singleton.1 hu]
        exact ht
  obtain ⟨base, upper⟩ := levels
  obtain ⟨fbase, fupper⟩ := frames
  obtain ⟨hbase, hupper, -⟩ := h
  cases hupper with
  | nil => exact ⟨by simpa [Tower.modifyTop] using hbase, .nil, hbool⟩
  | @cons l f ls fs hl hls =>
    refine ⟨hbase, .cons ⟨?_, hl.declarable, hl.recorded⟩ hls, hbool⟩
    simp [hl.assertions]

/-- Symbols that are declared and recorded. -/
theorem note (h : Mirrors store levels frames) {symbols : List Symbol} {ds : List FuncDecl}
    (hd : List.Forall₂ (fun symbol d => store.declOf symbol = .ok d) symbols ds) :
    Mirrors store (levels.modifyUpper fun l => { l with symbols := l.symbols ++ symbols })
      (frames.modifyTop fun f =>
        { f with declared := ds.foldl (fun l d => l.insert d) f.declared }) := by
  have hbool := h.boolean_modifyTop (g := fun f =>
    { f with declared := ds.foldl (fun l d => l.insert d) f.declared })
    fun t ht => h.boolean _ frames.top_mem t ht
  obtain ⟨base, upper⟩ := levels
  obtain ⟨fbase, fupper⟩ := frames
  obtain ⟨hbase, hupper, -⟩ := h
  cases hupper with
  | nil => exact ⟨hbase, .nil, hbool⟩
  | @cons l f ls fs hl hls =>
    refine ⟨hbase, .cons ⟨hl.assertions, ?_, ?_⟩ hls, hbool⟩
    · intro symbol hm
      obtain hm | hm := List.mem_append.1 hm
      · exact hl.declarable symbol hm
      · obtain ⟨d, -, hsd⟩ := exists_related hd.flip symbol hm
        exact ⟨d, hsd⟩
    · intro d hmem
      obtain hmem | hmem := FoldingSolver.mem_foldl_insert.1 hmem
      · obtain ⟨symbol, hm, hsd⟩ := exists_related hd d hmem
        exact ⟨symbol, List.mem_append_right _ hm, hsd⟩
      · obtain ⟨symbol, hm, hsd⟩ := hl.recorded d hmem
        exact ⟨symbol, List.mem_append_left _ hm, hsd⟩

end Mirrors
end FormulaStack
