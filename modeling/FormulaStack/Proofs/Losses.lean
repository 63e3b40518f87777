import FormulaStack.Proofs.Events
import FormulaStack.ScriptedSolver

/-!
References that stacks keep, on sessions that may refuse anything. A backend counts what constants,
registrations and the levels of stacks have, and what was lost: the assertions of levels that went
although a symbol could not be declared again, and those of closed stacks.
-/
namespace FormulaStack

/-- The assertions of a context that went with levels whose symbols could not be declared again. -/
def abandoned (ctx : Nat) (told : List Incident) : List Term :=
  told.flatMap fun
    | .abandoned _ i terms => if i = ctx then terms else []
    | _ => []

/-- The assertions of a context that went with closed stacks. -/
def dropped (ctx : Nat) (told : List Incident) : List Term :=
  told.flatMap fun
    | .dropped _ i terms => if i = ctx then terms else []
    | _ => []

/-- The assertions of a context whose references are not given back. -/
def lost (ctx : Nat) (told : List Incident) : Multiset Term :=
  (abandoned ctx told : Multiset Term) + (dropped ctx told : Multiset Term)

theorem abandoned_append (ctx : Nat) (told more : List Incident) :
    abandoned ctx (told ++ more) = abandoned ctx told ++ abandoned ctx more :=
  List.flatMap_append

theorem lost_append (ctx : Nat) (told more : List Incident) :
    lost ctx (told ++ more) = lost ctx told + lost ctx more := by
  unfold lost abandoned dropped
  rw [List.flatMap_append, List.flatMap_append, ← Multiset.coe_add, ← Multiset.coe_add]
  exact add_add_add_comm _ _ _ _

theorem lost_nil (ctx : Nat) : lost ctx [] = 0 := rfl

theorem lost_abandoned (stack ctx i : Nat) (terms : List Term) :
    lost i [.abandoned stack ctx terms] = if i = ctx then (terms : Multiset Term) else 0 := by
  unfold lost abandoned dropped
  by_cases hi : i = ctx
  · simp [hi]
  · simp [hi, Ne.symm hi]

theorem lost_dropped (stack ctx i : Nat) (terms : List Term) :
    lost i [.dropped stack ctx terms] = if i = ctx then (terms : Multiset Term) else 0 := by
  unfold lost abandoned dropped
  by_cases hi : i = ctx
  · simp [hi]
  · simp [hi, Ne.symm hi]

namespace Session

/-- Declarations cannot fail, or are not forgotten. -/
def Retains (σ : Type) [Session σ] : Prop :=
  (∀ (symbol : Symbol) (p : Store × σ), ∃ q,
    (Session.declare symbol : SessionM σ Unit).exec p = (.ok (), q)) ∨
  ∀ session : σ, Session.forgetsDeclarations session = false

theorem exec_declareAll_ok {σ : Type} [Session σ]
    (h : ∀ (symbol : Symbol) (p : Store × σ), ∃ q,
      (Session.declare symbol : SessionM σ Unit).exec p = (.ok (), q))
    (symbols : List Symbol) (p : Store × σ) : ∃ q,
      (symbols.forM Session.declare : SessionM σ Unit).exec p = (.ok (), q) := by
  rw [List.forM_eq_forM]
  induction symbols generalizing p with
  | nil => exact ⟨p, rfl⟩
  | cons symbol symbols ih =>
    obtain ⟨q, hq⟩ := h symbol p
    rw [List.forM_cons, Effect.exec_bind_ok hq]
    exact ih q

end Session

/-! Turns of a stack -/

namespace Site

variable {σ : Type} [Session σ] {s t : Site σ} {others : Multiset Term} {told : List Incident}

omit [Session σ] in
theorem released_balanced {as : List (Option Nat × Term)}
    (h : s.env.handles.Balanced ((as.map (·.2) : List Term) + others)) :
    (s.released as).env.handles.Balanced others := by
  unfold released
  dsimp only
  generalize s.env.handles = handles at h
  induction as generalizing handles with
  | nil => simpa using h
  | cons a as ih =>
    rw [List.map_cons, ← Multiset.cons_coe, Multiset.cons_add] at h
    exact ih _ h.release

/-- The references of the levels, and of what is lost, stay balanced in every turn. -/
theorem Turn.balanced (h : Turn s told t)
    (hb : s.env.handles.Balanced ((s.stack.levels.terms : Multiset Term) + others)) :
    t.env.handles.Balanced
      ((t.stack.levels.terms : Multiset Term) + (lost s.stack.home told + others)) := by
  have hpop : ∀ {level : Level} {below : Tower Level},
      s.stack.levels.pop? = some (level, below) → s.env.handles.Balanced
        ((level.assertions.map (·.2) : List Term) + ((below.terms : Multiset Term) + others)) := by
    intro level below hl
    rwa [Tower.terms_pop hl, ← Multiset.coe_add, add_right_comm, add_comm] at hb
  cases h with
  | pause h =>
    rw [lost_nil, zero_add]
    cases h with
    | question _ he => exact hb
    | environment _ h => exact h.balanced _ hb
    | noted _ queries last => exact hb
  | refused he h =>
    rw [lost_nil, zero_add]
    exact hb
  | declared ho h =>
    change Handles.Balanced _ (((s.stack.levels.receive _).terms : Multiset Term) + (0 + others))
    rw [Tower.receive, Tower.terms_modifyUpper, zero_add]
    exact hb
  | pushed h =>
    change Handles.Balanced _ (((s.stack.levels.push default).terms : Multiset Term) + (0 + others))
    rw [Tower.terms_push, zero_add]
    exact hb
  | @asserted x p partition h =>
    have hterms : ((((s.answered p).entered x partition).stack.levels.terms : Multiset Term)) =
        x ::ₘ (s.stack.levels.terms : Multiset Term) := by
      rw [entered, Tower.terms_assert, ← Multiset.coe_add, add_comm]
      rfl
    rw [hterms, lost_nil, zero_add, Multiset.cons_add]
    exact hb.hold
  | popped h hl hr =>
    rw [lost_nil, zero_add]
    exact released_balanced (hpop hl)
  | @replayed p q level below h hl hr hd =>
    rw [lost_nil, zero_add]
    refine released_balanced ?_
    have hterms : (below.receive level.symbols).terms = below.terms := Tower.terms_modifyUpper _ _
    change Handles.Balanced _
      (_ + (((below.receive level.symbols).terms : Multiset Term) + others))
    rw [hterms]
    exact hpop hl
  | @abandoned p q x level below h hl hr hd =>
    -- The only turn that takes assertions without giving back their references.
    rw [lost_abandoned, if_pos rfl]
    have ha := hpop hl
    rwa [add_left_comm] at ha
  | bottomed h hl =>
    rw [lost_nil, zero_add]
    exact hb
  | detached ho =>
    rw [lost_nil, zero_add]
    exact hb
  | shutdown hc =>
    rw [lost_nil, zero_add]
    exact hb
  | emptied hc =>
    rw [lost_nil, zero_add]
    refine released_balanced ?_
    have hterms : (s.stack.levels.toList.flatMap (·.assertions)).map (·.2) =
        s.stack.levels.terms := List.map_flatMap
    rw [hterms]
    change Handles.Balanced _ (_ + (0 + others))
    rw [zero_add]
    exact hb

theorem balanced_of_trail (h : Trail Turn s told t)
    (hb : s.env.handles.Balanced ((s.stack.levels.terms : Multiset Term) + others)) :
    t.env.handles.Balanced
      ((t.stack.levels.terms : Multiset Term) + (lost s.stack.home told + others)) := by
  induction h with
  | refl =>
    rw [lost_nil, zero_add]
    exact hb
  | tail hrest hturn ih =>
    have hstep := hturn.balanced ih
    rwa [(remains_of_trail hrest).home, ← add_assoc (lost _ _), add_comm (lost _ _) (lost _ _),
      ← lost_append] at hstep

/-- A turn loses nothing of other contexts. -/
theorem Turn.lost_of_ne (h : Turn s told t) {i : Nat} (hi : i ≠ s.stack.home) :
    lost i told = 0 := by
  cases h with
  | abandoned h hl hr hd => rw [lost_abandoned, if_neg hi]
  | _ => rfl

theorem lost_of_ne (h : Trail Turn s told t) {i : Nat} (hi : i ≠ s.stack.home) :
    lost i told = 0 := by
  induction h with
  | refl => rfl
  | tail hrest hturn ih =>
    rw [lost_append, ih, hturn.lost_of_ne (by rwa [(remains_of_trail hrest).home]), add_zero]

/-- Nothing is abandoned where declarations cannot fail, or are not forgotten. -/
theorem Turn.abandoned_eq_nil (hsafe : Session.Retains σ) (h : Turn s told t) (i : Nat) :
    FormulaStack.abandoned i told = [] := by
  cases h with
  | @abandoned p q x level below h hl hr hd =>
    exfalso
    obtain hdeclare | hforgets := hsafe
    · obtain ⟨q', hq⟩ := Session.exec_declareAll_ok hdeclare level.symbols p
      rw [hq] at hd
      cases hd
    · rw [hforgets, Bool.and_false] at hr
      cases hr
  | _ => rfl

theorem abandoned_eq_nil (hsafe : Session.Retains σ) (h : Trail Turn s told t) (i : Nat) :
    FormulaStack.abandoned i told = [] := by
  induction h with
  | refl => rfl
  | tail _ hturn ih => rw [abandoned_append, ih, hturn.abandoned_eq_nil hsafe, List.append_nil]

end Site

/-! Moves of a world -/

/-- The terms that the levels of a stack have in a context. -/
def levelTerms {σ : Type} (ctx : Nat) : Option (AssertionStack σ) → Multiset Term
  | some s => if s.home = ctx then (s.levels.terms : Multiset Term) else 0
  | none => 0

namespace World

variable {σ : Type} {w w' : World σ} {told more : List Incident}

/-- The terms that the levels of all stacks have in a context. -/
def inLevels (w : World σ) (ctx : Nat) : Multiset Term := w.total (levelTerms ctx)

theorem inLevels_size (hw : w.Housed) : w.inLevels w.contexts.size = 0 := by
  refine List.sum_eq_zero fun m hm => ?_
  obtain ⟨place, hplace, rfl⟩ := List.mem_map.1 hm
  cases place with
  | none => rfl
  | some s =>
    obtain ⟨id, hid⟩ := List.mem_iff_getElem?.1 hplace
    rw [Array.getElem?_toList] at hid
    exact if_neg (hw id s (stack?_eq_some.2 hid)).ne

theorem inLevels_opened {s : AssertionStack σ} (hlevels : s.levels = default) (ctx i : Nat) :
    (w.opened ctx s).inLevels i = w.inLevels i := by
  have hnone : levelTerms i (some s) = 0 := by
    unfold levelTerms
    dsimp only
    rw [hlevels]
    split <;> rfl
  unfold inLevels total opened
  rw [Array.toList_push, List.map_append, List.sum_append, List.map_singleton, List.sum_singleton,
    hnone, add_zero]

/-- All references have owners: constants, registrations, levels, or what is lost. -/
structure Balances (w : World σ) (told : List Incident) : Prop where
  housed : w.Housed
  context : ∀ (i : Nat) c, w.contexts[i]? = some c →
    c.env.handles.Balanced (c.env.constantTerms + (w.inLevels i + lost i told))
  /-- Nothing is lost of a context that is not there yet. -/
  beyond : ∀ i, w.contexts.size ≤ i → lost i told = 0

/-- The references where nothing is recorded or lost. -/
theorem Balances.of_contexts (h : w.Balances told) (hhoused : w'.Housed)
    (hlevels : ∀ i, w'.inLevels i = w.inLevels i) (hsize : w.contexts.size ≤ w'.contexts.size)
    (hcontexts : ∀ (i : Nat) c', w'.contexts[i]? = some c' → ∃ c, w.contexts[i]? = some c ∧
      ∀ kept, c.env.handles.Balanced (c.env.constantTerms + kept) →
        c'.env.handles.Balanced (c'.env.constantTerms + kept)) :
    w'.Balances (told ++ []) := by
  rw [List.append_nil]
  refine ⟨hhoused, fun i c' hc' => ?_, fun i hi => h.beyond i (hsize.trans hi)⟩
  obtain ⟨c, hc, hkeeps⟩ := hcontexts i c' hc'
  rw [hlevels]
  exact hkeeps _ (h.context i c hc)

/-- What is right in one environment after a change is right in all. -/
theorem exists_of_setEnvironment {ctx : Nat} {c : Context} {env : Environment}
    {P : Context → Context → Prop} (hc : w.contexts[ctx]? = some c) (hrefl : ∀ c, P c c)
    (h : P c { c with env }) (i : Nat) (c' : Context)
    (hc' : (setEnvironment ctx env w).contexts[i]? = some c') :
    ∃ c, w.contexts[i]? = some c ∧ P c c' := by
  rw [context_setEnvironment hc] at hc'
  split at hc'
  · next hi =>
    cases hc'
    exact ⟨c, hi ▸ hc, h⟩
  · exact ⟨c', hc', hrefl c'⟩

theorem exists_of_opened {ctx : Nat} {s : AssertionStack σ} (i : Nat) (c' : Context)
    (hc' : (w.opened ctx s).contexts[i]? = some c') : ∃ c observers, w.contexts[i]? = some c ∧
      c' = { c with env := { c.env with observers } } := by
  obtain ⟨c, hc, rfl | rfl⟩ := Event.getElem?_modify_cases hc'
  · exact ⟨c', _, hc, rfl⟩
  · exact ⟨c, _, hc, rfl⟩

theorem Balances.dropped {id : Nat} {s : AssertionStack σ} (h : w.Balances told)
    (hs : w.stack? id = some s) :
    (w.withStack id none).Balances (told ++ [.dropped id s.home s.levels.terms]) := by
  refine ⟨fun j s hs => h.housed j s (stack?_of_withStack_none hs), fun i c hc => ?_,
    fun i hi => ?_⟩
  · have hb := h.context i c hc
    rw [inLevels, total_eq hs, levelTerms] at hb
    rw [inLevels, total_withStack (lt_of_stack? hs), levelTerms, zero_add, lost_append,
      lost_dropped]
    simp only [@eq_comm _ i]
    convert hb using 2
    abel
  · have hne : i ≠ s.home := ne_of_gt ((h.housed id s hs).trans_le hi)
    rw [lost_append, lost_dropped, if_neg hne, h.beyond i hi, add_zero]

theorem Balances.addContext (h : w.Balances told) {theories : Theories}
    {counting announced : Bool} {options : Options} {notifierOf : Option Nat}
    (hhoused : (w.addContext theories counting announced options notifierOf).Housed) :
    (w.addContext theories counting announced options notifierOf).Balances (told ++ []) := by
  obtain ⟨notifier, hcontexts⟩ :=
    contexts_addContext w theories counting announced options notifierOf
  have hlevels : ∀ i, (w.addContext theories counting announced options notifierOf).inLevels i =
      w.inLevels i := fun i => by rw [inLevels, total, stackTable_addContext]; rfl
  rw [List.append_nil]
  refine ⟨hhoused, fun i c hc => ?_, fun i hi => h.beyond i ?_⟩
  · rw [hcontexts, Array.getElem?_push] at hc
    rw [hlevels]
    split at hc
    · next hi =>
      subst hi
      cases hc
      rw [inLevels_size h.housed, h.beyond _ (le_refl _)]
      exact fun _ => ⟨fun _ _ => rfl, rfl⟩
    · exact h.context i c hc
  · rw [hcontexts, Array.size_push] at hi
    exact (Nat.le_succ _).trans hi

variable [Session σ] {g : Setting σ}

theorem inLevels_react (reason : String) (w : World σ) (r : Reaction) (i : Nat) :
    (react reason w r).inLevels i = w.inLevels i := by
  cases r with
  | note name => rfl
  | interrupt id =>
    refine congrArg List.sum (map_modify _ _ fun s => ?_)
    cases s <;> rfl

/-- The references of all contexts after turns at one stack. -/
theorem Balances.site {id : Nat} {s : AssertionStack σ} {c : Context} {t : Site σ}
    (h : w.Balances told) (hhoused : (w.put id s.home t).Housed) (hs : w.stack? id = some s)
    (hc : w.contexts[s.home]? = some c) (ht : Trail Site.Turn (w.site c s) more t) :
    (w.put id s.home t).Balances (told ++ more) := by
  have hhome : t.stack.home = s.home := (Site.remains_of_trail ht).home
  have hconstants : t.env.constantTerms = c.env.constantTerms := by
    rw [Environment.constantTerms, (Site.remains_of_trail ht).env]
    rfl
  have hother : ∀ i, i ≠ s.home → lost i (told ++ more) = lost i told := by
    intro i hi
    rw [lost_append, Site.lost_of_ne ht hi, add_zero]
  refine ⟨hhoused, fun i c' hc' => ?_, fun i hi => ?_⟩
  · rw [context_put hc] at hc'
    rw [inLevels, total_put hs]
    split at hc'
    · next hi =>
      subst hi
      cases hc'
      have hb := h.context _ c hc
      rw [inLevels, total_eq hs, levelTerms, if_pos rfl, add_left_comm, add_assoc] at hb
      have hb' := Site.balanced_of_trail ht hb
      change Handles.Balanced _ (t.env.constantTerms + _)
      rw [levelTerms, if_pos hhome, hconstants, lost_append]
      convert hb' using 1
      change _ = _ + (lost s.home more + _)
      abel
    · next hi =>
      have hb := h.context i c' hc'
      rw [inLevels, total_eq hs, levelTerms, if_neg (Ne.symm hi)] at hb
      rw [levelTerms, if_neg (by rw [hhome]; exact Ne.symm hi), hother i hi]
      exact hb
  · rw [contexts_put, Array.size_modify] at hi
    rw [hother i (ne_of_gt ((Array.getElem?_eq_some_iff.1 hc).1.trans_le hi)), h.beyond i hi]

theorem Move.balances (h : Move g w more w') (hb : w.Balances told) :
    w'.Balances (told ++ more) := by
  have hhoused := h.housed hb.housed
  cases h with
  | @environment _ c env hc h =>
    refine hb.of_contexts hhoused (fun _ => rfl) Array.size_modify.ge
      (exists_of_setEnvironment hc (fun _ _ hb => hb) fun kept hb => ?_)
    have hconstants : env.constantTerms = c.env.constantTerms := by
      rw [Environment.constantTerms, h.rest]
      rfl
    change env.handles.Balanced (env.constantTerms + kept)
    rw [hconstants]
    exact h.balanced _ hb
  | requested hg hc h =>
    exact hb.of_contexts hhoused (fun _ => rfl) Array.size_modify.ge
      (exists_of_setEnvironment hc (fun _ _ hb => hb) h.balanced)
  | site hg hs hc h => exact hb.site hhoused hs hc h
  | context theories counting announced options notifierOf => exact hb.addContext hhoused
  | @opened ctx c _ _ _ hc hg h interpolating =>
    refine hb.of_contexts hhoused (inLevels_opened rfl _) ?_ fun i c' hc' => ?_
    · rw [World.opened, Array.size_modify, setEnvironment, Array.size_modify]
    · obtain ⟨d, observers, hd, rfl⟩ := exists_of_opened i c' hc'
      refine exists_of_setEnvironment (P := fun c d => ∀ kept,
        c.env.handles.Balanced (c.env.constantTerms + kept) →
          d.env.handles.Balanced (d.env.constantTerms + kept)) hc (fun _ _ hb => hb) ?_ i d hd
      exact fun _ hb => hb
  | unopened hc hg h =>
    exact hb.of_contexts hhoused (fun _ => rfl) Array.size_modify.ge
      (exists_of_setEnvironment hc (fun _ _ hb => hb) fun _ hb => hb)
  | dropped hg hs hcl => exact hb.dropped hs
  | reacted reason r =>
    refine hb.of_contexts hhoused (inLevels_react reason w r) ?_ fun i c' hc' => ?_
    · rw [contexts_react]
    · rw [contexts_react] at hc'
      exact ⟨c', hc', fun _ hb => hb⟩
  | beside hcontexts hstacks haims =>
    refine hb.of_contexts hhoused (fun i => ?_) (by rw [hcontexts])
      fun i c' hc' => ⟨c', hcontexts ▸ hc', fun _ hb => hb⟩
    rw [inLevels, total, hstacks]
    rfl
  | watched hg hsize hstacks haims hcontexts =>
    refine hb.of_contexts hhoused (fun i => ?_) hsize.ge fun i c' hc' => ?_
    · rw [inLevels, total, hstacks]
      rfl
    · obtain ⟨c, observers, hc, rfl, -⟩ := hcontexts i c' hc'
      exact ⟨c, hc, fun _ hb => hb⟩

theorem balances_of_trail (h : Trail (Move g) empty told w) : w.Balances told := by
  induction h with
  | refl =>
    exact ⟨housed_empty, fun i c hc => by simp [empty] at hc, fun _ _ => rfl⟩
  | tail _ hmove ih => exact hmove.balances ih

theorem Move.abandoned_eq_nil (hsafe : Session.Retains σ) (h : Move g w more w') (i : Nat) :
    abandoned i more = [] := by
  cases h with
  | site hg hs hc h => exact Site.abandoned_eq_nil hsafe h i
  | _ => rfl

theorem abandoned_eq_nil (hsafe : Session.Retains σ) (h : Trail (Move g) w told w') (i : Nat) :
    abandoned i told = [] := by
  induction h with
  | refl => rfl
  | tail _ hmove ih => rw [abandoned_append, ih, hmove.abandoned_eq_nil hsafe, List.append_nil]

/-- A stack that is closed has no level left, however that ends. -/
theorem exec_close_emptied {id : Nat} {s : AssertionStack σ} (hw : w.Housed)
    (hs : w.stack? id = some s) (ho : s.closed = false) :
    ∃ s', ((atStack id Site.close).exec w).2.stack? id = some s' ∧ s'.closed = true ∧
      s'.levels = default := by
  obtain ⟨c, hc⟩ := hw.exists_context hs
  obtain ⟨u, -, hu, hx⟩ := Site.close_eq (s := w.site c s) ho
  rw [exec_atStack hs hc, stack?_put hs, if_pos rfl, hx]
  exact ⟨_, rfl, hu, rfl⟩

/-- Whatever sessions refuse, each reference is given back once, or a level has it, or it went with
a level whose symbols could not be declared again, or with a closed stack. Where declarations cannot
fail, or are not forgotten, no level goes like that; and closed stacks have no level left. -/
theorem references_accounted (hw : Reached g w) :
    (∃ told, Trail (Move g) empty told w) ∧
    (∀ told, Trail (Move g) empty told w →
      (∀ (i : Nat) c, w.contexts[i]? = some c → c.env.handles.tracking = true →
        c.env.handles.underflows = 0 ∧
        (c.env.handles.counting = true → ∀ t, c.env.handles.count t =
          c.env.constants.countP (·.2 = t) + c.env.handles.queue.countP (·.term = t) +
            (w.inLevels i).count t + (abandoned i told).count t + (dropped i told).count t)) ∧
      (Session.Retains σ → ∀ i, abandoned i told = [])) ∧
    ∀ id s, w.stack? id = some s → s.closed = false →
      ∃ s', ((atStack id Site.close).exec w).2.stack? id = some s' ∧ s'.closed = true ∧
        s'.levels = default := by
  refine ⟨hw.exists_trail, fun told htold => ⟨fun i c hc htracking => ?_, fun hsafe i => ?_⟩,
    fun id s hs ho => exec_close_emptied hw.housed hs ho⟩
  · have hcovers := (balances_of_trail htold).context i c hc htracking
    refine ⟨hcovers.underflows, fun hcounting t => ?_⟩
    have hcount : ∀ {α : Type} (l : List α) (f : α → Term),
        (l.map f).count t = l.countP (f · = t) := fun l f => List.countP_map
    rw [hcovers.count hcounting t, Handles.registered, Environment.constantTerms, lost,
      Multiset.count_add, Multiset.count_add, Multiset.count_add, Multiset.count_add,
      Multiset.coe_count, Multiset.coe_count, Multiset.coe_count, Multiset.coe_count, hcount,
      hcount]
    omega
  · exact abandoned_eq_nil hsafe htold i

/-- A stack whose session refuses to declare a symbol again, so that the level of an assertion goes
without its references. -/
def refused : World ScriptedSolver :=
  afterAll [
    .addContext .everything true true { (default : Options) with trackReferences := true } none,
    .constant 0 .boolean "x",
    .openStack 0 (.new { (default : Script) with failDeclare := some 2 }) false,
    .atStack 0 (.push 1), .constant 0 .boolean "y",
    .atStack 0 (.assert ⟨⟨⟨1⟩, .boolean, 0, some 1⟩, rfl⟩ none), .atStack 0 (.pop 1)]

/-- The reference of the assertion is neither given back nor in a level. -/
theorem references_accounted_refused :
    ∃ told, Trail (Move .free) empty told refused ∧
      (abandoned 0 told).count ⟨1⟩ + (dropped 0 told).count ⟨1⟩ = 1 ∧
      (refused.inLevels 0).count ⟨1⟩ = 0 := by
  have hshape : (refused.contexts[0]?).map (fun c => (c.env.handles.counting,
      c.env.handles.tracking, c.env.handles.count ⟨1⟩, c.env.constants.countP (·.2 = ⟨1⟩),
        c.env.handles.queue.countP (·.term = ⟨1⟩))) = some (true, true, 3, 1, 1) := by
    decide +kernel
  have hlevels : (refused.inLevels 0).count ⟨1⟩ = 0 := by decide +kernel
  have hreached : Reached .free refused :=
    reached_afterAll fun e _ => e.allowed_free
  obtain ⟨⟨told, htold⟩, hall, -⟩ := references_accounted hreached
  obtain ⟨c, hc, h⟩ := Option.map_eq_some_iff.1 hshape
  simp only [Prod.mk.injEq] at h
  obtain ⟨hcounting, htracking, hcount, hconstants, hqueue⟩ := h
  have howned := ((hall told htold).1 0 c hc htracking).2 hcounting ⟨1⟩
  rw [hcount, hconstants, hqueue, hlevels] at howned
  exact ⟨told, htold, by omega, hlevels⟩

end World
end FormulaStack
