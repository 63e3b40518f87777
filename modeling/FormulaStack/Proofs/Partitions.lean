import FormulaStack.Proofs.Canonicity
import FormulaStack.Proofs.Recollections
import Mathlib.Algebra.BigOperators.Group.List.Basic

/-!
Interpolants of partitioned assertions: what a session is asked for each cut between the groups.
An assertion is on a side of a cut because of its partition only, whatever level it is on.
-/
namespace FormulaStack

/-- A formula wraps the term that it was made of. -/
theorem Environment.wrapBool_term (t : Term) (env : Environment) :
    (wrapBool t).Ensures env fun f _ => f.term = t := by
  refine .ask_bind fun type _ => ?_
  split
  · exact fun f env' hf => by cases hf; rfl
  · exact .throw_bind _

namespace Session

/-- A call of a session. -/
inductive Call where
  | declare (symbol : Symbol)
  | assert (t : Term)
  | push
  | pop
  | check
  | eval (complete : Bool) (t : Term)
  | assignments
  | interpolate (as bs : List Term) (answer : Except Fault Term)
  | abbreviate (ts : List Term)
  | shutdown
  | interrupt

/-- A session with the calls that were made of it. -/
structure Recorded (σ : Type) where
  session : σ
  calls : List Call

variable {σ α : Type}

def recording (call : Except Fault α → Call) (e : SessionM σ α) : SessionM (Recorded σ) α :=
  .of fun (store, r) =>
    let (out, store, session) := e.exec (store, r.session)
    (out, store, ⟨session, r.calls ++ [call out]⟩)

instance [Session σ] : Session (Recorded σ) where
  declare symbol := recording (fun _ => .declare symbol) (Session.declare symbol)
  assert t := recording (fun _ => .assert t) (Session.assert t)
  push := recording (fun _ => .push) Session.push
  pop := recording (fun _ => .pop) Session.pop
  check := recording (fun _ => .check) Session.check
  reasonUnknown r := Session.reasonUnknown r.session
  eval complete t := recording (fun _ => .eval complete t) (Session.eval complete t)
  assignments := recording (fun _ => .assignments) Session.assignments
  forgetsDeclarations r := Session.forgetsDeclarations r.session
  interpolate as bs := recording (.interpolate as bs) (Session.interpolate as bs)
  abbreviate ts := recording (fun _ => .abbreviate ts) (Session.abbreviate ts)
  shutdown := recording (fun _ => .shutdown) Session.shutdown
  interrupt r := ⟨Session.interrupt r.session, r.calls ++ [.interrupt]⟩

end Session

/-! Sides -/

/-- The partitions on the side of some groups; what has no partition is on every side. -/
def sidePartitions (groups : List (List Nat)) : List (Option Nat) := none :: groups.flatten.map some

/-- The assertions on the two sides of the cut behind the first `k` groups. One is there as often as
its partition is mentioned. -/
structure Splits (recorded : List (Option Nat × Term)) (groups : List (List Nat)) (k : Nat)
    (as bs : List (Option Nat × Term)) : Prop where
  left : ∀ a, a ∈ as ↔
    a ∈ recorded ∧ (a.1 = none ∨ ∃ group ∈ groups.take k, ∃ id ∈ group, a.1 = some id)
  right : ∀ a, a ∈ bs ↔
    a ∈ recorded ∧ (a.1 = none ∨ ∃ group ∈ groups.drop k, ∃ id ∈ group, a.1 = some id)
  count_left : ∀ a, as.count a = recorded.count a * (sidePartitions (groups.take k)).count a.1
  count_right : ∀ a, bs.count a = recorded.count a * (sidePartitions (groups.drop k)).count a.1
  shared : groups.Pairwise List.Disjoint → ∀ a ∈ as, a ∈ bs → a.1 = none
  complete : (∀ a ∈ recorded, ∀ id, a.1 = some id → ∃ group ∈ groups, id ∈ group) →
    ∀ a, a ∈ as ∨ a ∈ bs ↔ a ∈ recorded

namespace Site

/-- The assertions on the side of some groups, with their partitions. -/
def members (assertions : List (Option Nat × Term)) (groups : List (List Nat)) :
    List (Option Nat × Term) :=
  (sidePartitions groups).flatMap fun p => assertions.filter (·.1 == p)

theorem side_eq_members (assertions : List (Option Nat × Term)) (groups : List (List Nat)) :
    side assertions groups = (members assertions groups).map (·.2) := by
  simp only [side, members, sidePartitions, List.flatMap_cons, List.map_append, List.map_flatMap,
    List.flatMap_map]

variable {assertions : List (Option Nat × Term)} {groups : List (List Nat)}
  {a : Option Nat × Term}

theorem mem_sidePartitions {p : Option Nat} : p ∈ sidePartitions groups ↔
    p = none ∨ ∃ group ∈ groups, ∃ id ∈ group, p = some id := by
  rw [sidePartitions, List.mem_cons, List.mem_map]
  refine or_congr_right ⟨?_, ?_⟩
  · rintro ⟨id, hid, rfl⟩
    obtain ⟨group, hgroup, hid⟩ := List.mem_flatten.1 hid
    exact ⟨group, hgroup, id, hid, rfl⟩
  · rintro ⟨group, hgroup, id, hid, rfl⟩
    exact ⟨id, List.mem_flatten.2 ⟨group, hgroup, hid⟩, rfl⟩

theorem mem_members : a ∈ members assertions groups ↔
    a ∈ assertions ∧ (a.1 = none ∨ ∃ group ∈ groups, ∃ id ∈ group, a.1 = some id) := by
  rw [← mem_sidePartitions, members, List.mem_flatMap]
  constructor
  · rintro ⟨p, hp, ha⟩
    obtain ⟨hmem, rfl⟩ : a ∈ assertions ∧ a.1 = p := by simpa using ha
    exact ⟨hmem, hp⟩
  · rintro ⟨ha, hp⟩
    exact ⟨a.1, hp, by simpa using ha⟩

theorem count_members (assertions : List (Option Nat × Term)) (groups : List (List Nat))
    (a : Option Nat × Term) : (members assertions groups).count a =
      assertions.count a * (sidePartitions groups).count a.1 := by
  have hpart : ∀ p, (assertions.filter (·.1 == p)).count a =
      if p = a.1 then assertions.count a else 0 := by
    intro p
    split_ifs with h
    · exact List.count_filter (by simp [h])
    · rw [List.count_eq_zero, List.mem_filter]
      simp [Ne.symm h]
  unfold members
  induction sidePartitions groups with
  | nil => rfl
  | cons p ps ih =>
    rw [List.flatMap_cons, List.count_append, ih, hpart, List.count_cons, Nat.mul_add]
    by_cases h : p = a.1
    · simp [h, Nat.add_comm]
    · simp [h]

/-- Groups on the two sides of a cut have nothing in common if no two groups have. -/
theorem disjoint_cut (h : groups.Pairwise List.Disjoint) (k : Nat) :
    ∀ g ∈ groups.take k, ∀ g' ∈ groups.drop k, g.Disjoint g' := by
  rw [← List.take_append_drop k groups] at h
  exact (List.pairwise_append.1 h).2.2

theorem splits_members (assertions : List (Option Nat × Term)) (groups : List (List Nat))
    (k : Nat) : Splits assertions groups k (members assertions (groups.take k))
      (members assertions (groups.drop k)) where
  left _ := mem_members
  right _ := mem_members
  count_left := count_members _ _
  count_right := count_members _ _
  shared hdisjoint a ha hb := by
    obtain hnone | ⟨g, hg, id, hid, hida⟩ := (mem_members.1 ha).2
    · exact hnone
    obtain hnone | ⟨g', hg', id', hid', hida'⟩ := (mem_members.1 hb).2
    · exact hnone
    obtain rfl : id = id' := Option.some.inj (hida.symm.trans hida')
    exact absurd hid' (disjoint_cut hdisjoint k g hg g' hg' hid)
  complete hall a := by
    rw [mem_members, mem_members, ← and_or_left, and_iff_left_iff_imp]
    intro ha
    rcases hp : a.1 with _ | id
    · exact .inl (.inl rfl)
    · obtain ⟨g, hg, hid⟩ := hall a ha id hp
      rw [← List.take_append_drop k groups, List.mem_append] at hg
      exact hg.imp (fun hg => .inr ⟨g, hg, id, hid, rfl⟩) fun hg => .inr ⟨g, hg, id, hid, rfl⟩

/-! Runs -/

variable {σ : Type} {s t : Site σ}

/-- A site whose session records its calls, after some were made of it. -/
def recording (s : Site σ) (calls : List Session.Call) : Site (Session.Recorded σ) where
  env := s.env
  notifier := s.notifier
  queries := s.queries
  stack :=
    { id := s.stack.id, home := s.stack.home, session := ⟨s.stack.session, calls⟩
      levels := s.stack.levels, closed := s.stack.closed, replaying := s.stack.replaying
      interpolating := s.stack.interpolating, logging := s.stack.logging
      abbreviationAtoms := s.stack.abbreviationAtoms, listener := s.stack.listener
      last := s.stack.last }

/-- Work at a site, and the calls that it makes of the session. -/
structure Records {α : Type} (e : Effect (Site σ) α) (e' : Effect (Site (Session.Recorded σ)) α)
    (s : Site σ) (out : Except Fault α) (t : Site σ) (calls : List Session.Call) : Prop where
  exec : e.exec s = (out, t)
  exec_recording : ∀ before, e'.exec (s.recording before) = (out, t.recording (before ++ calls))

namespace Records

variable {α β : Type} {e : Effect (Site σ) α} {e' : Effect (Site (Session.Recorded σ)) α}
  {f : α → Effect (Site σ) β} {f' : α → Effect (Site (Session.Recorded σ)) β}
  {calls more : List Session.Call} {u : Site σ}

theorem pure (a : α) (s : Site σ) : Records (Pure.pure a) (Pure.pure a) s (.ok a) s [] :=
  ⟨rfl, fun before => by rw [List.append_nil]; rfl⟩

theorem bind_ok {a : α} {out : Except Fault β} (he : Records e e' s (.ok a) t calls)
    (hf : Records (f a) (f' a) t out u more) :
    Records (e >>= f) (e' >>= f') s out u (calls ++ more) where
  exec := (Effect.exec_bind_ok he.exec f).trans hf.exec
  exec_recording before := by
    rw [Effect.exec_bind_ok (he.exec_recording before), hf.exec_recording, List.append_assoc]

theorem bind_error {x : Fault} (he : Records e e' s (.error x) t calls) :
    Records (e >>= f) (e' >>= f') s (.error x) t calls where
  exec := Effect.exec_bind_error he.exec f
  exec_recording before := Effect.exec_bind_error (he.exec_recording before) f'

theorem undoing_ok {a : α} {cleanup : Site σ → Site σ}
    {cleanup' : Site (Session.Recorded σ) → Site (Session.Recorded σ)}
    (he : Records e e' s (.ok a) t calls) :
    Records (e.undoing cleanup) (e'.undoing cleanup') s (.ok a) t calls where
  exec := by rw [Effect.exec_undoing, he.exec]
  exec_recording before := by rw [Effect.exec_undoing, he.exec_recording]

theorem undoing_error {x : Fault} {cleanup : Site σ → Site σ}
    {cleanup' : Site (Session.Recorded σ) → Site (Session.Recorded σ)}
    (hc : ∀ s calls, cleanup' (recording s calls) = (cleanup s).recording calls)
    (he : Records e e' s (.error x) t calls) :
    Records (e.undoing cleanup) (e'.undoing cleanup') s (.error x) (cleanup t) calls where
  exec := by rw [Effect.exec_undoing, he.exec]
  exec_recording before := by rw [Effect.exec_undoing, he.exec_recording, ← hc]

theorem environment (e : Effect Environment α) (s : Site σ) :
    Records (inEnvironment e) (inEnvironment e) s (e.exec s.env).1
      { s with env := (e.exec s.env).2 } [] :=
  ⟨rfl, fun before => by rw [List.append_nil]; rfl⟩

theorem running (s : Site σ) :
    Records ensureRunning ensureRunning s
      (match s.notifier.reason with
        | some reason => .error (.interrupted reason)
        | none => .ok ()) s [] := by
  constructor
  · rw [exec_ensureRunning]
    cases s.notifier.reason <;> rfl
  · intro before
    rw [exec_ensureRunning, List.append_nil]
    change (match s.notifier.reason with
      | some reason => (Except.error (Fault.interrupted reason), s.recording before)
      | none => (.ok (), s.recording before)) = _
    cases s.notifier.reason <;> rfl

end Records

variable [Session σ]

theorem exists_records_interpolate (as bs : List Term) (s : Site σ) :
    ∃ answer t, Records (native (Session.interpolate as bs)) (native (Session.interpolate as bs)) s
      answer t [.interpolate as bs answer] :=
  ⟨_, _, rfl, fun _ => rfl⟩

/-- One interpolant, of the two sides of a cut. -/
def cut (as bs : List Term) : Effect (Site σ) BoolFormula := do
  ensureRunning
  let t ← native (Session.interpolate as bs)
  inEnvironment (Environment.wrapBool t)

theorem interpolantsFrom_cons (as : List (Option Nat × Term)) (before groups : List (List Nat))
    (group : List Nat) : (interpolantsFrom as before (group :: groups) : Effect (Site σ) _) = do
      let f ← cut (side as before) (side as (group :: groups))
      let fs ← (interpolantsFrom as (before ++ [group]) groups).undoing fun s =>
        { s with env := s.env.discard f.formula }
      return f :: fs := by
  simp only [interpolantsFrom, cut, bind_assoc]

/-- A cut asks the session once at most, and if it succeeds, the interpolant is the answer. -/
theorem exists_records_cut (as bs : List Term) (s : Site σ) :
    ∃ out t, ∃ answer : Option (Except Fault Term),
      Records (cut as bs) (cut as bs) s out t (answer.toList.map (.interpolate as bs)) ∧
        ∀ f, out = .ok f → answer = some (.ok f.term) := by
  have hrunning := Records.running s
  cases hr : s.notifier.reason with
  | some reason =>
    rw [hr] at hrunning
    exact ⟨_, s, none, hrunning.bind_error, nofun⟩
  | none =>
    rw [hr] at hrunning
    obtain ⟨answer, t, hasked⟩ := exists_records_interpolate as bs s
    cases answer with
    | error x => exact ⟨_, t, some (.error x), hrunning.bind_ok hasked.bind_error, nofun⟩
    | ok v =>
      have hwrap := Records.environment (Environment.wrapBool v) t
      refine ⟨_, _, some (.ok v), hrunning.bind_ok (hasked.bind_ok hwrap), fun f hf => ?_⟩
      rw [Environment.wrapBool_term v t.env f _ (Prod.ext hf rfl)]

/-- The calls for cuts one after the other, with the answers to them. -/
def cutCalls (assertions : List (Option Nat × Term)) (before groups : List (List Nat))
    (answers : List (Except Fault Term)) : List Session.Call :=
  answers.mapIdx fun i answer =>
    .interpolate (side assertions (before ++ groups.take i)) (side assertions (groups.drop i)) answer

theorem cutCalls_cons (assertions : List (Option Nat × Term)) (before groups : List (List Nat))
    (group : List Nat) (answer : Except Fault Term) (answers : List (Except Fault Term)) :
    cutCalls assertions before (group :: groups) (answer :: answers) =
      .interpolate (side assertions before) (side assertions (group :: groups)) answer ::
        cutCalls assertions (before ++ [group]) groups answers := by
  simp [cutCalls, List.mapIdx_cons]

theorem exists_records_interpolantsFrom (assertions : List (Option Nat × Term))
    (before groups : List (List Nat)) (s : Site σ) :
    ∃ out t answers,
      Records (interpolantsFrom assertions before groups) (interpolantsFrom assertions before groups)
        s out t (cutCalls assertions before groups answers) ∧
      answers.length ≤ groups.length ∧
      ∀ fs, out = .ok fs → fs.length = groups.length ∧
        answers = fs.map fun f : BoolFormula => .ok f.term := by
  induction groups generalizing before s with
  | nil => exact ⟨.ok [], s, [], .pure [] s, le_refl _, by rintro _ ⟨⟩; simp⟩
  | cons group groups ih =>
    rw [interpolantsFrom_cons, interpolantsFrom_cons]
    obtain ⟨out, t, answer, hcut, hanswer⟩ :=
      exists_records_cut (side assertions before) (side assertions (group :: groups)) s
    cases out with
    | error x =>
      have hcalls : answer.toList.map
          (Session.Call.interpolate (side assertions before) (side assertions (group :: groups))) =
          cutCalls assertions before (group :: groups) answer.toList := by
        cases answer <;> simp [cutCalls]
      refine ⟨.error x, t, answer.toList, hcalls ▸ hcut.bind_error, ?_, nofun⟩
      cases answer <;> simp
    | ok f =>
      obtain rfl := hanswer f rfl
      obtain ⟨out, u, answers, hrest, hlength, hok⟩ := ih (before ++ [group]) t
      cases out with
      | error x =>
        refine ⟨.error x, { u with env := u.env.discard f.formula }, .ok f.term :: answers, ?_,
          by simpa using hlength, nofun⟩
        rw [cutCalls_cons]
        exact hcut.bind_ok (hrest.undoing_error fun _ _ => rfl).bind_error
      | ok fs =>
        obtain ⟨hfs, rfl⟩ := hok fs rfl
        refine ⟨.ok (f :: fs), u, .ok f.term :: fs.map fun f => .ok f.term, ?_, by simpa using hlength,
          ?_⟩
        · rw [cutCalls_cons, ← List.append_nil (cutCalls ..)]
          exact hcut.bind_ok (hrest.undoing_ok.bind_ok (.pure (f :: fs) u))
        · rintro _ ⟨⟩
          simpa using hfs

/-- Where it is not refused, interpolation is that of the cuts behind the first group. -/
theorem interpolants_eq {groups : List (List Nat)} (ho : s.stack.closed = false)
    (hi : s.stack.interpolating = true) (hl : s.stack.last = some .unsat) (hne : groups ≠ [])
    (hgroups : ∀ group ∈ groups, group ≠ []) :
    (interpolants groups).exec s = (interpolantsFrom s.stack.levels.assertions (groups.take 1)
      (groups.drop 1)).exec s := by
  have hempty : (groups.isEmpty || groups.any (·.isEmpty)) = false := by
    simp only [Bool.or_eq_false_iff, List.any_eq_false, List.isEmpty_iff]
    exact ⟨by simpa using hne, by simpa using hgroups⟩
  unfold interpolants
  rw [Effect.exec_bind_ok (exec_ensureOpen ho), Effect.exec_bind_ok (Effect.exec_look _ _),
    if_pos hi, if_neg (not_not_intro hl), if_neg (by simp [hempty])]
  rfl

section

variable {β : Type} {frames : σ → β}

/-- What is left alone at a stack: all but the session, and of this what `frames` shows. -/
structure Spares (frames : σ → β) (s t : Site σ) : Prop where
  stack : t.stack = { s.stack with session := t.stack.session }
  session : frames t.stack.session = frames s.stack.session

instance : Std.Refl (Spares frames) := ⟨fun _ => ⟨rfl, rfl⟩⟩

instance : IsTrans (Site σ) (Spares frames) :=
  ⟨fun _ _ _ h g => ⟨by rw [g.stack, h.stack], g.session.trans h.session⟩⟩

variable (hframes : ∀ as bs store session,
  frames ((Session.interpolate as bs).exec (store, session)).2.2 = frames session)
include hframes

theorem cut_spares (as bs : List Term) : Effect.Within (Spares frames) (cut as bs) := by
  have hrunning : Effect.Within (Spares frames) ensureRunning := by
    refine .bind (.look _) fun reason => ?_
    split
    · exact .throw _
    · exact .pure _
  exact hrunning.bind fun _ =>
    .bind (fun s => ⟨rfl, hframes as bs s.env.terms s.stack.session⟩) fun t _ => ⟨rfl, rfl⟩

/-- Interpolation spares what it spares at one cut. -/
theorem interpolantsFrom_spares (assertions : List (Option Nat × Term))
    (before groups : List (List Nat)) :
    Effect.Within (Spares frames) (interpolantsFrom assertions before groups) := by
  induction groups generalizing before with
  | nil => exact .pure _
  | cons group groups ih =>
    rw [interpolantsFrom_cons]
    exact (cut_spares hframes _ _).bind fun f =>
      .bind (.undoing (ih _) fun _ => ⟨rfl, rfl⟩) fun fs => .pure _

end

/-- An open stack for interpolation whose last check found that the assertions cannot be true, asks
its session for interpolants of the cuts between groups, in order and once each, until one fails.
The sides of a cut are told by the partitions. If none fails, there is one formula for each cut, the
answer of the session. Nothing else is asked of the session, and levels stay as they are. -/
theorem interpolants_split (groups : List (List Nat)) (ho : s.stack.closed = false)
    (hi : s.stack.interpolating = true) (hl : s.stack.last = some .unsat) (hne : groups ≠ [])
    (hgroups : ∀ group ∈ groups, group ≠ []) :
    ∃ out t answers, ∃ A B : Nat → List (Option Nat × Term),
      (interpolants groups).exec s = (out, t) ∧
      (∀ before, (interpolants groups).exec (s.recording before) =
        (out, t.recording (before ++ answers.mapIdx fun i answer =>
          .interpolate ((A (i + 1)).map (·.2)) ((B (i + 1)).map (·.2)) answer))) ∧
      answers.length < groups.length ∧
      (∀ k, Splits s.stack.levels.assertions groups k (A k) (B k)) ∧
      (∀ fs, out = .ok fs → fs.length + 1 = groups.length ∧
        answers = fs.map fun f => .ok f.term) ∧
      t.stack = { s.stack with session := t.stack.session } ∧
      ∀ (β : Type) (frames : σ → β),
        (∀ as bs store session,
          frames ((Session.interpolate as bs).exec (store, session)).2.2 = frames session) →
        frames t.stack.session = frames s.stack.session := by
  obtain ⟨out, t, answers, hrecords, hlength, hok⟩ :=
    exists_records_interpolantsFrom s.stack.levels.assertions (groups.take 1) (groups.drop 1) s
  have hpos : 0 < groups.length := List.length_pos_iff.2 hne
  refine ⟨out, t, answers, fun k => members s.stack.levels.assertions (groups.take k),
    fun k => members s.stack.levels.assertions (groups.drop k), ?_, fun before => ?_, ?_,
    splits_members _ groups, fun fs hfs => ?_, ?_⟩
  · rw [interpolants_eq ho hi hl hne hgroups, hrecords.exec]
  · have hcalls : cutCalls s.stack.levels.assertions (groups.take 1) (groups.drop 1) answers =
        answers.mapIdx fun i answer => .interpolate
          ((members s.stack.levels.assertions (groups.take (i + 1))).map (·.2))
          ((members s.stack.levels.assertions (groups.drop (i + 1))).map (·.2)) answer := by
      unfold cutCalls
      simp only [side_eq_members, List.drop_drop, ← List.take_add, Nat.add_comm 1]
    rw [← hcalls, ← hrecords.exec_recording]
    exact interpolants_eq (s := s.recording before) ho hi hl hne hgroups
  · rw [List.length_drop] at hlength
    omega
  · obtain ⟨hfs, hanswers⟩ := hok fs hfs
    rw [List.length_drop] at hfs
    exact ⟨by omega, hanswers⟩
  · have hspares : ∀ {β : Type} (frames : σ → β), (∀ as bs store session,
        frames ((Session.interpolate as bs).exec (store, session)).2.2 = frames session) →
        Spares frames s t := by
      intro β frames hframes
      have h := interpolantsFrom_spares hframes s.stack.levels.assertions (groups.take 1)
        (groups.drop 1) s
      rwa [hrecords.exec] at h
    exact ⟨(hspares (fun _ => ()) fun _ _ _ _ => rfl).stack,
      fun β frames hframes => (hspares frames hframes).session⟩

end Site

namespace ScriptedSolver

/-- The solver is what it was, whatever is in the store. -/
def SameSolver (p q : Store × ScriptedSolver) : Prop := q.2 = p.2

instance : Std.Refl SameSolver := ⟨fun _ => rfl⟩

instance : IsTrans (Store × ScriptedSolver) SameSolver := ⟨fun _ _ _ h g => g.trans h⟩

theorem build_sameSolver {α : Type} (b : Build α) :
    Effect.Within SameSolver (SessionM.build b) := by
  rintro ⟨store, s⟩
  rw [SessionM.build, Effect.exec_of]
  dsimp only
  rcases b store with x | ⟨a, store'⟩ <;> rfl

theorem interpolate_sameSolver (as bs : List Term) :
    Effect.Within SameSolver (Session.interpolate as bs) := by
  refine .bind (.look _) fun s => ?_
  split
  · exact (build_sameSolver _).bind fun t => (build_sameSolver _).bind fun u => build_sameSolver _
  · exact .pure _
  · exact .throw _

end ScriptedSolver

namespace Site

/-- A stack with assertions on two levels, in the partitions 1 and 2 and without one, which its
session says cannot be true. -/
def divided : Site ScriptedSolver where
  env :=
    { Environment.new 0 .everything false false false with
      terms := Store.empty.serveAll
        [.construct (.constant "p" .bool), .construct (.constant "q" .bool),
          .construct (.constant "r" .bool)] }
  notifier := .new
  queries := []
  stack :=
    { id := 0, home := 0
      session := .new { (default : Script) with interpolant := some .implication }
      levels := ⟨⟨[], [(none, ⟨0⟩), (some 1, ⟨1⟩)]⟩, [⟨[], [(some 2, ⟨2⟩), (some 1, ⟨0⟩)]⟩]⟩
      closed := false, replaying := true, interpolating := true, logging := false
      abbreviationAtoms := 2, listener := 0, last := some .unsat }

/-- Two interpolants between three groups, of which one names a partition twice and the last one
names none that is used. -/
theorem interpolants_split_divided :
    ∃ fs t, ∃ A B : Nat → List (Option Nat × Term),
      (interpolants [[1], [2, 2], [5]]).exec divided = (.ok fs, t) ∧ fs.length = 2 ∧
      (interpolants [[1], [2, 2], [5]]).exec (divided.recording []) =
        (.ok fs, t.recording ((fs.map fun f => .ok f.term).mapIdx fun i answer =>
          .interpolate ((A (i + 1)).map (·.2)) ((B (i + 1)).map (·.2)) answer)) ∧
      (∀ k, Splits divided.stack.levels.assertions [[1], [2, 2], [5]] k (A k) (B k)) ∧
      t.stack.levels = divided.stack.levels ∧ t.stack.session = divided.stack.session := by
  obtain ⟨out, t, answers, A, B, hrun, hrecorded, -, hsplits, hok, hstack, hsession⟩ :=
    interpolants_split (s := divided) [[1], [2, 2], [5]] rfl rfl rfl (by simp) (by simp)
  have hlength : ((interpolants [[1], [2, 2], [5]]).exec divided).1.map (·.length) = .ok 2 := by
    decide +kernel
  rw [hrun] at hlength
  cases out with
  | error x => cases hlength
  | ok fs =>
    obtain ⟨-, rfl⟩ := hok fs rfl
    exact ⟨fs, t, A, B, hrun, Except.ok.inj hlength, hrecorded [], hsplits, by rw [hstack],
      hsession _ id fun as bs store session =>
        ScriptedSolver.interpolate_sameSolver as bs (store, session)⟩

end Site
end FormulaStack
