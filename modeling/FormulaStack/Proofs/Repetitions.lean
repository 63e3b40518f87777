import FormulaStack.Proofs.Attendance
import FormulaStack.Proofs.Requests

/-!
How often a session declares a constant or a function, counted by frames. What is requested is
declared once; levels that are popped do not declare it twice. It is only where a client adds its
symbol again that several frames declare it.
-/
namespace FormulaStack

/-- The declarations of all frames, from the base on, each as often as frames make it. -/
def Tower.declarations (frames : Tower Frame) : List FuncDecl := frames.toList.flatMap (·.declared)

/-- How many of some symbols stand for a declaration. -/
def Store.announced (store : Store) (d : FuncDecl) (symbols : List Symbol) : Nat :=
  symbols.countP fun symbol => (store.declOf symbol).toOption == some d

/-- A symbol that was requested stands for a declaration. -/
def Environment.Covers (env : Environment) (d : FuncDecl) : Prop :=
  ∃ symbol ∈ env.declared, env.terms.declOf symbol = .ok d

namespace Tower

variable {frames below : Tower Frame} {frame : Frame}

theorem declarations_push (frames : Tower Frame) :
    (frames.push default).declarations = frames.declarations := by
  rw [declarations, toList_push, List.flatMap_append]
  exact List.append_nil _

theorem declarations_pop (h : frames.pop? = some (frame, below)) :
    frames.declarations = below.declarations ++ frame.declared := by
  rw [declarations, (pop?_eq_some h).1, List.flatMap_append, List.flatMap_singleton]
  rfl

theorem count_modifyTop (frames : Tower Frame) (f : Frame → Frame) (d : FuncDecl) :
    (frames.modifyTop f).declarations.count d + frames.top.declared.count d =
      frames.declarations.count d + (f frames.top).declared.count d := by
  rw [declarations, declarations, toList_modifyTop, frames.toList_eq]
  simp only [List.flatMap_append, List.flatMap_singleton, List.count_append, List.dropLast_concat]
  omega

end Tower

namespace Store

variable {store store' : Store} {d : FuncDecl} {symbols : List Symbol} {symbol : Symbol} {n : Nat}

theorem extends_empty (store : Store) : store.Extends .empty :=
  ⟨fun t n h => by simp [node?, empty] at h, fun d f h => by simp [decl?, empty] at h⟩

theorem announced_append (store : Store) (d : FuncDecl) (symbols more : List Symbol) :
    store.announced d (symbols ++ more) = store.announced d symbols + store.announced d more :=
  List.countP_append

theorem toOption_declOf_eq {symbol : Symbol} :
    ((store.declOf symbol).toOption == some d) = true ↔ store.declOf symbol = .ok d := by
  cases store.declOf symbol <;> simp [Except.toOption]

theorem announced_mono (h : store'.Extends store) (d : FuncDecl) (symbols : List Symbol) :
    store.announced d symbols ≤ store'.announced d symbols :=
  List.countP_mono_left fun _ _ hd =>
    toOption_declOf_eq.2 (h.declOf (toOption_declOf_eq.1 hd))

theorem announced_le (store : Store) (d : FuncDecl)
    (h : symbols.Sublist (List.replicate n symbol)) :
    store.announced d symbols ≤ if store.declOf symbol = .ok d then n else 0 := by
  split
  · exact List.countP_le_length.trans (h.length_le.trans_eq List.length_replicate)
  · next hd =>
    refine (List.countP_eq_zero.2 fun symbol' hm hd' => hd ?_).le
    rw [← List.eq_of_mem_replicate (h.subset hm)]
    exact toOption_declOf_eq.1 hd'

end Store

namespace FoldingSolver

variable {s t : FoldingSolver} {d : FuncDecl} {ds : List FuncDecl}

/-- How often frames have declared something. -/
def timesDeclared (s : FoldingSolver) (d : FuncDecl) : Nat := s.frames.declarations.count d

theorem isDeclared_iff_timesDeclared : s.isDeclared d = true ↔ 0 < s.timesDeclared d := by
  rw [isDeclared_iff, timesDeclared, List.count_pos_iff, Tower.declarations, List.mem_flatMap]

theorem timesDeclared_congr (h : t.frames = s.frames) (d : FuncDecl) :
    t.timesDeclared d = s.timesDeclared d := by
  rw [timesDeclared, h]
  rfl

theorem count_insert (d e : FuncDecl) (l : List FuncDecl) :
    (l.insert e).count d = if e = d then max (l.count d) 1 else l.count d := by
  by_cases hm : e ∈ l
  · rw [List.insert_of_mem hm]
    split
    · next he =>
      subst he
      exact (max_eq_left (List.count_pos_iff.2 hm)).symm
    · rfl
  · rw [List.insert_of_not_mem hm]
    split
    · next he =>
      subst he
      rw [List.count_cons_self, List.count_eq_zero_of_not_mem hm]
      rfl
    · next he => exact List.count_cons_of_ne he

/-- A frame declares nothing twice of what it learns. -/
theorem count_foldl_insert (d : FuncDecl) (ds l : List FuncDecl) :
    (ds.foldl (fun l d => l.insert d) l).count d =
      if d ∈ ds then max (l.count d) 1 else l.count d := by
  induction ds generalizing l with
  | nil => simp
  | cons e ds ih =>
    simp only [List.foldl_cons, ih, count_insert, List.mem_cons]
    rcases eq_or_ne e d with rfl | he
    · by_cases hd : e ∈ ds <;> simp [hd]
    · simp [he, he.symm]

theorem timesDeclared_note (s : FoldingSolver) (ds : List FuncDecl) (d : FuncDecl) :
    (s.note ds).timesDeclared d ≤ s.timesDeclared d + if d ∈ ds then 1 else 0 := by
  have hcount : (s.note ds).timesDeclared d + s.frames.top.declared.count d =
      s.timesDeclared d + (ds.foldl (fun l d => l.insert d) s.frames.top.declared).count d :=
    s.frames.count_modifyTop _ d
  rw [count_foldl_insert] at hcount
  by_cases hd : d ∈ ds
  · rw [if_pos hd] at hcount ⊢
    omega
  · rw [if_neg hd] at hcount ⊢
    omega

theorem timesDeclared_record (s : FoldingSolver) (t : Term) (d : FuncDecl) :
    (s.record t).timesDeclared d = s.timesDeclared d :=
  Nat.add_right_cancel (s.frames.count_modifyTop
    (fun f => { f with assertions := f.assertions ++ [t] }) d)

end FoldingSolver

namespace Site

variable {s t : Site FoldingSolver} {told more : List Incident} {store : Store}

/-- With a turn of an open stack, its session declares again at most what the stack receives. -/
theorem Turn.timesDeclared_le (h : Turn s more t) (ho : t.stack.closed = false)
    (hr : s.stack.Reflects s.env.terms told) (hs : store.Extends t.env.terms) (d : FuncDecl) :
    t.stack.session.timesDeclared d ≤
      s.stack.session.timesDeclared d + store.announced d (received s.stack.id more) := by
  have hsame : ∀ {session : FoldingSolver}, session.frames = s.stack.session.frames →
      session.timesDeclared d ≤
        s.stack.session.timesDeclared d + store.announced d (received s.stack.id more) :=
    fun hf => (FoldingSolver.timesDeclared_congr hf d).trans_le (Nat.le_add_right _ _)
  have hpop : ∀ {frame frames}, s.stack.session.frames.pop? = some (frame, frames) →
      s.stack.session.timesDeclared d = frames.declarations.count d + frame.declared.count d := by
    intro frame frames hf
    rw [FoldingSolver.timesDeclared, Tower.declarations_pop hf, List.count_append]
  cases h with
  | pause h =>
    cases h with
    | question _ he => exact hsame (FoldingSolver.quiet_question he s.desk).2
    | environment | noted => exact hsame rfl
  | refused he h =>
    rw [FoldingSolver.eq_of_refused he h]
    exact hsame rfl
  | @declared symbol p _ h =>
    obtain ⟨e, he, rfl⟩ := FoldingSolver.declare_eq_ok h
    refine (FoldingSolver.timesDeclared_note _ [e] d).trans (Nat.add_le_add_left ?_ _)
    split
    · next hd =>
      -- the store knows what the new symbol stands for
      rw [← List.mem_singleton.1 hd] at he
      exact List.countP_pos_iff.2
        ⟨symbol, by simp [received], Store.toOption_declOf_eq.2 (hs.declOf he)⟩
    · exact Nat.zero_le _
  | pushed h =>
    cases h
    rw [FoldingSolver.timesDeclared]
    exact (congrArg _ (Tower.declarations_push _)).trans_le (Nat.le_add_right _ _)
  | asserted partition h =>
    obtain ⟨-, rfl⟩ := FoldingSolver.assert_eq_ok h
    exact (FoldingSolver.timesDeclared_record _ _ d).trans_le (Nat.le_add_right _ _)
  | popped h hl _ =>
    obtain ⟨frame, frames, hf, rfl⟩ := FoldingSolver.pop_eq_ok h
    rw [hpop hf]
    exact (Nat.le_add_right _ _).trans (Nat.le_add_right _ _)
  | @replayed p q level below h hl _ hd =>
    obtain ⟨frame, frames, hf, rfl⟩ := FoldingSolver.pop_eq_ok h
    obtain ⟨ds, hds, rfl⟩ := FoldingSolver.declareAll_eq_ok hd
    have hknown := hr.known
    rw [Tower.upper_of_pop? hl,
      show s.stack.session.frames.upper = _ from Tower.upper_of_pop? hf] at hknown
    refine (FoldingSolver.timesDeclared_note _ ds d).trans ?_
    rw [hpop hf, Nat.add_assoc]
    refine Nat.add_le_add_left (le_trans ?_ (Nat.le_add_right _ _)) _
    split
    · next hm =>
      -- what is declared again was declared in the frame that is gone
      obtain ⟨symbol, hmem, hsd⟩ := exists_related hds d hm
      obtain ⟨e, he, hse⟩ := (List.forall₂_cons.1 hknown).1 symbol hmem
      cases hsd.symm.trans hse
      exact List.count_pos_iff.2 he
    · exact Nat.zero_le _
  | abandoned h hl _ hd => exact absurd hd (not_abandoned hr h hl _ _)
  | bottomed h hl => exact absurd hl (not_bottomed hr h)
  | detached => cases ho
  | shutdown hc | emptied hc => cases hc.symm.trans ho

theorem timesDeclared_of_trail (h : Trail Turn s more t) (ho : t.stack.closed = false)
    (hr : s.stack.Reflects s.env.terms told) (hs : store.Extends t.env.terms) (d : FuncDecl) :
    t.stack.session.timesDeclared d ≤
      s.stack.session.timesDeclared d + store.announced d (received s.stack.id more) := by
  induction h with
  | refl => exact Nat.le_add_right _ _
  | tail hfirst hturn ih =>
    have ho' := not_closed hturn.remains.closed ho
    have hfirst' := ih ho' (hs.trans hturn.grows.extension)
    have hlast := hturn.timesDeclared_le ho (reflects_of_trail hfirst ho' hr) hs d
    rw [(remains_of_trail hfirst).id] at hlast
    rw [received_append, Store.announced_append]
    omega

end Site

/-- Nothing is requested, and stacks are opened on new folding solvers, if at all. -/
def Setting.serving (opening : Prop) : Setting FoldingSolver :=
  ⟨fun session => opening ∧ session = .new, fun _ => True, False, True⟩

namespace World

variable {opening : Prop} {w w' w'' : World FoldingSolver} {told more : List Incident}
  {id home n : Nat} {s s' : AssertionStack FoldingSolver} {d : FuncDecl}

theorem Move.terms {g : Setting FoldingSolver} (h : Move g w told w') (i : Nat) :
    (w'.environmentOf i).terms.Extends (w.environmentOf i).terms := by
  cases hc : w.contexts[i]? with
  | none =>
    have hnone : (w.environmentOf i).terms = .empty := by
      rw [environmentOf, hc]
      rfl
    rw [hnone]
    exact Store.extends_empty _
  | some c =>
    obtain ⟨c', hc', hgrows, -⟩ := h.context_grows hc
    rw [environmentOf_eq hc, environmentOf_eq hc']
    exact hgrows.terms.extension

theorem terms_of_trail {g : Setting FoldingSolver} (h : Trail (Move g) w told w') (i : Nat) :
    (w'.environmentOf i).terms.Extends (w.environmentOf i).terms := by
  induction h with
  | refl => exact .refl _
  | tail _ hmove ih => exact (hmove.terms i).trans ih

theorem covers_of_trail (h : Trail (Move (.serving opening)) w told w') {i : Nat}
    (hd : (w.environmentOf i).Covers d) : (w'.environmentOf i).Covers d := by
  obtain ⟨symbol, hm, hd⟩ := hd
  refine ⟨symbol, ?_, (terms_of_trail h i).declOf hd⟩
  rw [(Reaches.unasked ⟨told, h⟩ id i).declared]
  exact hm

/-- A symbol that an environment has made is requested of it. -/
theorem covers_of_made {ctx : Nat} {c : Context} {env : Environment} {symbol : Symbol}
    {e : FuncDecl} (h : Trail (Move (.serving opening)) (setEnvironment ctx env w) told w')
    (hc : w.contexts[ctx]? = some c) (hdeclares : c.env.Declares symbol e env)
    (hd : env.terms.declOf symbol = .ok d) : (w'.environmentOf ctx).Covers d := by
  have henv := (environmentOf_setEnvironment hc env ctx).trans (if_pos rfl)
  refine covers_of_trail h ⟨symbol, ?_, ?_⟩ <;> rw [henv]
  · rw [hdeclares.declared]
    exact List.mem_append_right _ (List.mem_singleton_self symbol)
  · exact hd

/-- How often the session of an open stack had declared something at first: the stack was there, or
it was opened, and its session was told what its environment had declared. -/
def Starts (opening : Prop) (w w' : World FoldingSolver) (id home : Nat) (d : FuncDecl) (n : Nat) :
    Prop :=
  (∃ s, w.stack? id = some s ∧ s.closed = false ∧ s.home = home ∧
    n = s.session.timesDeclared d) ∨
  (opening ∧ n ≤ 1 ∧ (0 < n → (w'.environmentOf home).Covers d))

/-- A stack that a move leaves alone. -/
theorem starts_of_stays {terms : Store} {symbols : List Symbol} (hs : w.stack? id = some s)
    (hs' : ∃ session : FoldingSolver, session.frames = s.session.frames ∧ s' = { s with session })
    (ho : s'.closed = false) : ∃ n, w.Starts opening w' id s'.home d n ∧
      s'.session.timesDeclared d ≤ n + terms.announced d symbols := by
  obtain ⟨session, hf, rfl⟩ := hs'
  exact ⟨_, .inl ⟨s, hs, ho, rfl, rfl⟩,
    (FoldingSolver.timesDeclared_congr hf d).trans_le (Nat.le_add_right _ _)⟩

/-- A new session that was told of symbols has declared each once, and nothing else. -/
theorem covers_of_declareAll {symbols : List Symbol} {store terms : Store} {session : FoldingSolver}
    (h : (symbols.forM Session.declare : SessionM FoldingSolver Unit).exec (store, .new) =
      (.ok (), terms, session)) (d : FuncDecl) :
    session.timesDeclared d ≤ 1 ∧
      (0 < session.timesDeclared d → ∃ symbol ∈ symbols, terms.declOf symbol = .ok d) := by
  obtain ⟨ds, hds, hq⟩ := FoldingSolver.declareAll_eq_ok h
  cases hq
  have hnote := FoldingSolver.timesDeclared_note .new ds d
  rw [show FoldingSolver.new.timesDeclared d = 0 from rfl, Nat.zero_add] at hnote
  by_cases hd : d ∈ ds
  · rw [if_pos hd] at hnote
    exact ⟨hnote, fun _ => exists_related hds d hd⟩
  · rw [if_neg hd] at hnote
    exact ⟨hnote.trans zero_le_one, fun hn => absurd hn (Nat.not_lt.2 hnote)⟩

theorem Move.starts (h : Move (.serving opening) w more w') (hw : w.Mirrored told)
    (hs' : w'.stack? id = some s') (ho : s'.closed = false) (d : FuncDecl) :
    ∃ n, w.Starts opening w' id s'.home d n ∧ s'.session.timesDeclared d ≤
      n + (w'.environmentOf s'.home).terms.announced d (received id more) := by
  cases h with
  | environment | requested | unopened => exact starts_of_stays hs' ⟨_, rfl, rfl⟩ ho
  | @site j s c _ t _ hs hc h =>
    rw [stack?_put hs] at hs'
    split at hs'
    · next hj =>
      cases hs'
      subst hj
      obtain ⟨hplace, c', hc', -, hreflects⟩ := hw _ s hs
      cases hc.symm.trans hc'
      have hr := Site.remains_of_trail h
      have ho' := Site.not_closed hr.closed ho
      have hhome : t.stack.home = s.home := hr.home
      have henv : (w.put id s.home t).environmentOf s.home = t.env := by
        rw [environmentOf, context_put hc, if_pos rfl]
        rfl
      have hcount := Site.timesDeclared_of_trail h ho (hreflects ho') (.refl _) d
      rw [show (w.site c s).stack.id = id from hplace] at hcount
      rw [hhome, henv]
      exact ⟨_, .inl ⟨s, hs, ho', rfl, rfl⟩, hcount⟩
    · exact starts_of_stays hs' ⟨_, rfl, rfl⟩ ho
  | context theories counting announced options notifierOf =>
    rw [stack?, stackTable_addContext] at hs'
    exact starts_of_stays hs' ⟨_, rfl, rfl⟩ ho
  | @opened ctx c session session' terms hc hfresh h interpolating =>
    rw [stack?_opened] at hs'
    split at hs'
    · cases hs'
      obtain ⟨hopening, rfl⟩ := hfresh
      obtain ⟨hcount, hcovers⟩ := covers_of_declareAll h d
      have hset := (context_setEnvironment hc { c.env with terms } ctx).trans (if_pos rfl)
      have hctx := (context_opened hset (w.opening ctx c interpolating session') ctx).trans
        (if_pos rfl)
      refine ⟨_, .inr ⟨hopening, hcount, fun hn => ?_⟩, Nat.le_add_right _ _⟩
      obtain ⟨symbol, hm, hd⟩ := hcovers hn
      rw [show (w.opening ctx c interpolating session').home = ctx from rfl, environmentOf_eq hctx]
      exact ⟨symbol, hm, hd⟩
    · exact starts_of_stays hs' ⟨_, rfl, rfl⟩ ho
  | dropped => exact starts_of_stays (stack?_of_withStack_none hs') ⟨_, rfl, rfl⟩ ho
  | reacted reason r =>
    obtain ⟨s, hs, rfl | rfl⟩ := stack?_react hs'
    · exact starts_of_stays hs ⟨_, rfl, rfl⟩ ho
    · exact starts_of_stays hs ⟨Session.interrupt s.session, rfl, rfl⟩ ho
  | beside _ hstacks _ | watched _ _ hstacks _ _ =>
    rw [stack?, hstacks] at hs'
    exact starts_of_stays hs' ⟨_, rfl, rfl⟩ ho

/-- The session of an open stack has declared what it had at first, and what the stack received. -/
theorem starts_of_trail (h : Trail (Move (.serving opening)) w more w') (hw : w.Mirrored told)
    (hs' : w'.stack? id = some s') (ho : s'.closed = false) (d : FuncDecl) :
    ∃ n, w.Starts opening w' id s'.home d n ∧ s'.session.timesDeclared d ≤
      n + (w'.environmentOf s'.home).terms.announced d (received id more) := by
  induction h generalizing s' with
  | refl => exact starts_of_stays hs' ⟨_, rfl, rfl⟩ ho
  | @tail w₁ w₂ before last hfirst hmove ih =>
    have hmirrored := hw.trail (fun session (h : opening ∧ session = .new) => h.2) hfirst
    obtain ⟨n, ⟨s, hs, ho₁, hhome, rfl⟩ | hopened, hcount⟩ := hmove.starts hmirrored hs' ho d
    · obtain ⟨m, hstart, hcount₁⟩ := ih hs ho₁
      rw [hhome] at hstart hcount₁
      refine ⟨m, hstart.imp_right fun ⟨hopening, hm, hcovers⟩ =>
        ⟨hopening, hm, fun hpos => covers_of_trail (.single hmove) (hcovers hpos)⟩, ?_⟩
      have hmono := Store.announced_mono (hmove.terms s'.home) d (received id before)
      rw [received_append, Store.announced_append]
      omega
    · refine ⟨n, .inr hopened, hcount.trans (Nat.add_le_add_left ?_ n)⟩
      rw [received_append, Store.announced_append]
      exact Nat.le_add_left _ _

/-- Requests that were met stay so. -/
theorem Move.registered {g : Setting FoldingSolver} (h : Move g w told w') (hg : ¬ g.requesting)
    (hw : ∀ i, (w.environmentOf i).Registered) (i : Nat) : (w'.environmentOf i).Registered := by
  have hterms := h.terms i
  obtain ⟨terms, handles, observers, henv⟩ | ⟨-, id, theories, counting, announced, track, henv⟩ :=
    h.environmentOf_cases hg i <;> rw [henv] at hterms ⊢
  · exact (hw i).mono rfl rfl rfl rfl hterms
  · exact .new id theories counting announced track

theorem registered_afterAll (events : List (Event FoldingSolver)) (i : Nat) :
    ((afterAll events).environmentOf i).Registered := by
  refine induction_afterAll (Q := fun w => ∀ i, (w.environmentOf i).Registered) (fun i => ?_)
    (fun h hw => h.registered id hw) (fun {w ctx c r symbol env} hc hmakes hw i => ?_) events i
  · exact ⟨rfl, fun _ _ _ h => (List.not_mem_nil h).elim,
      fun _ _ _ _ h => (List.not_mem_nil h).elim⟩
  · rw [environmentOf_setEnvironment hc]
    split
    · exact hmakes.registered (environmentOf_eq hc ▸ hw ctx)
    · exact hw i

/-! Publications -/

theorem received_silent (id : Nat) (h : ∀ i ∈ told, i.Silent) : received id told = [] := by
  refine List.filterMap_eq_nil_iff.2 fun i hi => ?_
  cases i with
  | received => exact (h _ hi).elim
  | _ => rfl

theorem received_singleton (id j : Nat) (symbol : Symbol) :
    received id [.received j symbol] = if j = id then [symbol] else [] := by
  unfold received
  split <;> simp [*]

/-- Moves with which stacks receive nothing but a symbol, and each as often as it is told. -/
def Tells (opening : Prop) (symbol : Symbol) (os : List Observer) (w w' : World FoldingSolver) :
    Prop :=
  ∃ told, Trail (Move (.serving opening)) w told w' ∧
    ∀ id, (received id told).Sublist (List.replicate (os.count (.stack id)) symbol)

theorem tells_of_passes {symbol : Symbol} (h : w.Passes (.serving opening) w')
    (os : List Observer) : w.Tells opening symbol os w' := by
  obtain ⟨told, h, hsilent⟩ := h
  exact ⟨told, h, fun id => received_silent id hsilent ▸ List.nil_sublist _⟩

theorem Tells.trans {symbol : Symbol} {os os' : List Observer} (h : w.Tells opening symbol os w')
    (g : w'.Tells opening symbol os' w'') : w.Tells opening symbol (os ++ os') w'' := by
  obtain ⟨told, h, ht⟩ := h
  obtain ⟨more, g, hm⟩ := g
  refine ⟨told ++ more, h.trans g, fun id => ?_⟩
  rw [received_append, List.count_append, List.replicate_add]
  exact (ht id).append (hm id)

theorem Tells.placed {symbol : Symbol} {os : List Observer} (h : w.Tells opening symbol os w')
    (hw : w.Placed) : w'.Placed := by
  obtain ⟨told, h, -⟩ := h
  induction h with
  | refl => exact hw
  | tail _ hmove ih => exact hmove.placed ih

theorem tell_tells (symbol : Symbol) (o : Observer) (hw : w.Placed) :
    w.Tells opening symbol [o] ((tell symbol o).exec w).2 := by
  obtain h | ⟨id, s, rfl, hs, h⟩ := tell_receives (g := .serving opening) (w := w) symbol (o := o)
    (fun _ _ => trivial) fun _ _ => trivial
  · exact tells_of_passes h [o]
  · refine ⟨_, h, fun j => ?_⟩
    rw [received_singleton, hw id s hs, List.count_singleton]
    by_cases hj : id = j <;> simp [hj]

theorem tellAll_tells (symbol : Symbol) (os : List Observer) (hw : w.Placed) :
    w.Tells opening symbol os ((os.forM (tell symbol)).exec w).2 := by
  rw [List.forM_eq_forM]
  induction os generalizing w with
  | nil => exact tells_of_passes (Std.Refl.refl w) []
  | cons o os ih =>
    have hfirst : w.Tells opening symbol [o] ((tell symbol o).exec w).2 := tell_tells symbol o hw
    rw [List.forM_cons, Effect.exec_bind]
    rcases hx : (tell symbol o).exec w with ⟨x | _, u⟩ <;> rw [hx] at hfirst
    · exact hfirst.trans (tells_of_passes (Std.Refl.refl u) os)
    · exact hfirst.trans (ih (hfirst.placed hw))

theorem publish_tells (ctx : Nat) (symbol : Symbol) (hw : w.Placed) :
    w.Tells opening symbol (w.observersOf ctx) ((publish ctx symbol).exec w).2 := by
  unfold publish
  cases hc : w.contexts[ctx]? with
  | none =>
    rw [Effect.exec_bind_error (exec_context_none hc)]
    exact tells_of_passes (Std.Refl.refl w) _
  | some c =>
    rw [Effect.exec_bind_ok (exec_context hc), observersOf_eq hc]
    exact tellAll_tells symbol c.env.observers hw

end World

/-- With a request no stack receives anything, or it makes a symbol, and those who observe its
context are told. -/
theorem SymbolRequest.tells_event {w : World FoldingSolver} (r : SymbolRequest) (ctx : Nat)
    (hw : w.Placed) : w.Passes (.serving False) ((r.event ctx).after w) ∨
      ∃ c symbol env, w.contexts[ctx]? = some c ∧ c.env.Makes r symbol env ∧
        (World.setEnvironment ctx env w).Tells False symbol (w.observersOf ctx)
          ((r.event ctx).after w) := by
  have hlater : World.Passes (.serving False) _ _ := r.after_event ctx w
  obtain ⟨hsame, -⟩ | ⟨c, symbol, env, hc, hmakes, hmake⟩ := r.make_cases ctx w
  · rw [hsame] at hlater
    exact .inl hlater
  · obtain ⟨_, hdeclares⟩ := hmakes.declares
    have hobservers : (World.setEnvironment ctx env w).observersOf ctx = w.observersOf ctx := by
      rw [World.observersOf_setEnvironment hc, if_pos rfl, hdeclares.observers,
        World.observersOf_eq hc]
    have hpublish : World.Tells False symbol _ (World.setEnvironment ctx env w) _ :=
      World.publish_tells ctx symbol hw
    rw [hobservers] at hpublish
    rw [hmake] at hlater
    have htells := hpublish.trans (World.tells_of_passes hlater [])
    rw [List.append_nil] at htells
    exact .inr ⟨c, symbol, env, hc, hmakes, htells⟩

/-- An event is a request, or adds a symbol to a stack, or it announces nothing. -/
theorem Event.folding_cases {watching : Prop} {e : Event FoldingSolver}
    (ha : e.Allowed (.folding watching)) :
    (∃ (r : SymbolRequest) (ctx : Nat), e = r.event ctx) ∨
      (∃ j symbol, e = .atStack j (.addSymbol symbol)) ∨
        ¬ e.Spreads ∧ e.Allowed (.serving True) := by
  obtain hr | - := SymbolRequest.event_or_allowed e
  · exact .inl hr
  by_cases hs : e.Spreads
  · obtain ⟨ctx, type, name, rfl⟩ | ⟨ctx, name, result, arguments, rfl⟩ | hadds := hs
    · exact .inl ⟨.constant type name, ctx, rfl⟩
    · exact .inl ⟨.function name result arguments, ctx, rfl⟩
    · exact .inr (.inl hadds)
  · refine .inr (.inr ⟨hs, ?_⟩)
    cases e with
    | constant ctx type name => exact absurd (.inl ⟨ctx, type, name, rfl⟩) hs
    | function ctx name result arguments =>
      exact absurd (.inr (.inl ⟨ctx, name, result, arguments, rfl⟩)) hs
    | openStack | newStack => exact ⟨trivial, ha⟩
    | addWatch => exact ⟨trivial, fun _ _ => trivial⟩
    | aimWatch => exact ⟨trivial, trivial⟩
    | _ => trivial

/-- With an event no stack receives anything, or it makes a symbol, of which those who observe its
context are told, or it adds one to a stack. -/
theorem Event.announces {watching : Prop} {e : Event FoldingSolver} {w : World FoldingSolver}
    (ha : e.Allowed (.folding watching)) (hw : w.Placed) (hh : w.Housed) :
    (∃ opening, w.Passes (.serving opening) (e.after w)) ∨
      (∃ (r : SymbolRequest) (ctx : Nat) (c : Context) (symbol : Symbol) (env : Environment),
        e = r.event ctx ∧ w.contexts[ctx]? = some c ∧ c.env.Makes r symbol env ∧
          (World.setEnvironment ctx env w).Tells False symbol (w.observersOf ctx) (e.after w)) ∨
      ∃ j symbol s, e = .atStack j (.addSymbol symbol) ∧ w.stack? j = some s ∧
        Trail (World.Move (.serving False)) w [.received s.id symbol] (e.after w) := by
  obtain ⟨r, ctx, rfl⟩ | ⟨j, symbol, rfl⟩ | ⟨hspreads, ha⟩ := Event.folding_cases ha
  · obtain hpasses | ⟨c, symbol, env, hc, hmakes, htells⟩ := r.tells_event ctx hw
    · exact .inl ⟨False, hpasses⟩
    · exact .inr (.inl ⟨r, ctx, c, symbol, env, rfl, hc, hmakes, htells⟩)
  · obtain hpasses | ⟨s, hs, htrail⟩ := World.atStack_receives (Site.addSymbol_receives symbol)
      (show (Setting.serving False).working j from trivial) w
    · exact .inl ⟨False, hpasses⟩
    · exact .inr (.inr ⟨j, symbol, s, rfl, hs, htrail⟩)
  · exact .inl ⟨True, e.passes ha hh hspreads⟩

/-- A client adds a symbol to a stack, or requests it, when the session of the stack has declared
already what it stands for. -/
def Event.Repeats (e : Event FoldingSolver) (w : World FoldingSolver) (id : Nat) (d : FuncDecl) :
    Prop :=
  ∃ s, w.stack? id = some s ∧ s.session.isDeclared d = true ∧
    ((∃ symbol, e = .atStack id (.addSymbol symbol) ∧
        ((e.after w).environmentOf s.home).terms.declOf symbol = .ok d) ∨
      ¬ (w.environmentOf s.home).Covers d ∧ ((e.after w).environmentOf s.home).Covers d)

namespace World

variable {opening watching : Prop} {w w' : World FoldingSolver} {told more : List Incident}
  {events : List (Event FoldingSolver)} {id : Nat} {s : AssertionStack FoldingSolver}
  {d : FuncDecl}

/-- Nothing is declared twice while a stack receives nothing that stands for it. -/
theorem once_of_trail (h : Trail (Move (.serving opening)) w more w') (hw : w.Mirrored told)
    (hs : w'.stack? id = some s) (ho : s.closed = false)
    (hmore : (w'.environmentOf s.home).terms.announced d (received id more) = 0)
    (hold : ∀ s₀, w.stack? id = some s₀ → s₀.closed = false → s₀.home = s.home →
      s₀.session.timesDeclared d ≤ 1) : s.session.timesDeclared d ≤ 1 := by
  obtain ⟨n, hstart, hcount⟩ := starts_of_trail h hw hs ho d
  rw [hmore, Nat.add_zero] at hcount
  obtain ⟨s₀, hs₀, ho₀, hhome, rfl⟩ | ⟨-, hn, -⟩ := hstart
  · exact hcount.trans (hold s₀ hs₀ ho₀ hhome)
  · exact hcount.trans hn

/-- A symbol that a client adds is announced once to its stack. -/
theorem once_added {j : Nat} {symbol : Symbol}
    (h : Trail (Move (.serving False)) w [.received j symbol] w') (hw : w.Mirrored told)
    (hs : w'.stack? id = some s) (ho : s.closed = false)
    (hold : ∀ s₀, w.stack? id = some s₀ → s₀.closed = false → s₀.home = s.home →
      s₀.session.timesDeclared d ≤ 1)
    (hnew : ∀ s₀, w.stack? id = some s₀ → s₀.home = s.home → j = id →
      (w'.environmentOf s.home).terms.declOf symbol = .ok d → s₀.session.isDeclared d ≠ true) :
    s.session.timesDeclared d ≤ 1 := by
  obtain ⟨n, ⟨s₀, hs₀, ho₀, hhome, rfl⟩ | ⟨⟨⟩, -⟩, hcount⟩ := starts_of_trail h hw hs ho d
  have hbefore := hold s₀ hs₀ ho₀ hhome
  have hreceived : (received id [.received j symbol]).Sublist
      (List.replicate (if j = id then 1 else 0) symbol) := by
    rw [received_singleton]
    split <;> simp
  have hannounced := Store.announced_le (w'.environmentOf s.home).terms d hreceived
  by_cases hd : j = id ∧ (w'.environmentOf s.home).terms.declOf symbol = .ok d
  · have hzero := hnew s₀ hs₀ hhome hd.1 hd.2
    rw [Ne, FoldingSolver.isDeclared_iff_timesDeclared] at hzero
    rw [if_pos hd.2, if_pos hd.1] at hannounced
    omega
  · have hnone : (if (w'.environmentOf s.home).terms.declOf symbol = .ok d then
        if j = id then 1 else 0 else 0) = 0 := by
      split
      · next hsymbol => exact if_neg fun hj => hd ⟨hj, hsymbol⟩
      · rfl
    omega

/-- The symbol that a request makes is announced once to the stacks of its context. -/
theorem once_made {r : SymbolRequest} {ctx : Nat} {c : Context} {symbol : Symbol}
    {env : Environment} (hw : (afterAll events).Mirrored told)
    (hc : (afterAll events).contexts[ctx]? = some c) (hmakes : c.env.Makes r symbol env)
    (htells : (setEnvironment ctx env (afterAll events)).Tells False symbol
      ((afterAll events).observersOf ctx) w')
    (hs : w'.stack? id = some s) (ho : s.closed = false)
    (hold : ∀ s₀, (afterAll events).stack? id = some s₀ → s₀.closed = false → s₀.home = s.home →
      s₀.session.timesDeclared d ≤ 1)
    (hnew : ∀ s₀, (afterAll events).stack? id = some s₀ → s₀.session.isDeclared d = true →
      (w'.environmentOf s₀.home).Covers d → ((afterAll events).environmentOf s₀.home).Covers d) :
    s.session.timesDeclared d ≤ 1 := by
  obtain ⟨e, hdeclares⟩ := hmakes.declares
  obtain ⟨more, htrail, hheard⟩ := htells
  have hmirrored : (setEnvironment ctx env (afterAll events)).Mirrored (told ++ []) :=
    (Move.requested (g := .folding False) trivial hc hdeclares).mirrored (fun _ h => h) hw
  obtain ⟨n, ⟨s₀, hs₀, ho₀, hhome, rfl⟩ | ⟨⟨⟩, -⟩, hcount⟩ :=
    starts_of_trail htrail hmirrored hs ho d
  have hbefore := hold s₀ hs₀ ho₀ hhome
  have hannounced := Store.announced_le (w'.environmentOf s.home).terms d (hheard id)
  have hattended := attended_afterAll events
  have henv := environmentOf_setEnvironment hc env s.home
  by_cases hd : s.home = ctx ∧ env.terms.declOf symbol = .ok d
  · obtain ⟨hctx, hd⟩ := hd
    rw [if_pos hctx] at henv
    -- the symbol is new, so the session cannot have declared what it stands for
    have hzero : ¬ 0 < s₀.session.timesDeclared d := by
      intro hpos
      have hcovers : (w'.environmentOf s.home).Covers d :=
        hctx ▸ covers_of_made htrail hc hdeclares hd
      obtain ⟨symbol', hm, hd'⟩ := hnew s₀ hs₀ (FoldingSolver.isDeclared_iff_timesDeclared.2 hpos)
        (hhome ▸ hcovers)
      rw [hhome, hctx, environmentOf_eq hc] at hm hd'
      exact hmakes.unknown_decl (environmentOf_eq hc ▸ enrolled_afterAll events ctx)
        (environmentOf_eq hc ▸ registered_afterAll events ctx)
        (fun name result => environmentOf_eq hc ▸ symbolFor?_improper events ctx name result)
        hm hd' hd
    have honce := hattended.once ctx id
    split at hannounced <;> omega
  · have hnone : (w'.environmentOf s.home).terms.announced d (received id more) = 0 := by
      refine Nat.eq_zero_of_le_zero (hannounced.trans ?_)
      split
      · next hd' =>
        -- the stack is not told, as it was opened in another context
        have hctx : s.home ≠ ctx := by
          intro hctx
          rw [if_pos hctx] at henv
          have hdecl := (terms_of_trail htrail s.home).declOf (henv ▸ hdeclares.decl)
          cases hdecl.symm.trans hd'
          exact hd ⟨hctx, hdeclares.decl⟩
        refine (List.count_eq_zero_of_not_mem fun hm => hctx ?_).le
        rw [← hhome]
        exact (hattended.places ctx id hm).2 s₀ hs₀
      · exact le_refl 0
    omega

/-- Whatever happens, the session of an open stack has declared nothing twice, unless a client adds
or requests its symbol when it is declared already. -/
theorem declared_once (hx : ∀ e ∈ events, e.Allowed (.folding watching))
    (hs : (afterAll events).stack? id = some s) (ho : s.closed = false)
    (hno : ¬ Happens (·.Repeats · id d) [] events) : s.session.timesDeclared d ≤ 1 := by
  induction events using List.reverseRecOn generalizing s with
  | nil =>
    rw [stack?_eq_some] at hs
    cases hs
  | append_singleton events e ih =>
    have hx' : ∀ e ∈ events, e.Allowed (.folding watching) :=
      fun e he => hx e (List.mem_append_left _ he)
    have ha := hx e (List.mem_append_right _ (List.mem_singleton_self e))
    rw [happens_concat, not_or] at hno
    obtain ⟨hno, hlast⟩ := hno
    obtain ⟨told, htold⟩ := (reached_afterAll hx').exists_trail
    have hmirrored := mirrored_of_trail (fun _ h => h) htold
    rw [afterAll_concat] at hs
    have hold : ∀ s₀, (afterAll events).stack? id = some s₀ → s₀.closed = false →
        s₀.home = s.home → s₀.session.timesDeclared d ≤ 1 := fun s₀ hs₀ ho₀ _ => ih hx' hs₀ ho₀ hno
    obtain ⟨opening, told, h, hsilent⟩ | ⟨r, ctx, c, symbol, env, rfl, hc, hmakes, htells⟩ |
        ⟨j, symbol, s₁, rfl, hs₁, h⟩ :=
      Event.announces ha (reached_afterAll hx').placed (housed_afterAll events)
    · exact once_of_trail h hmirrored hs ho (by rw [received_silent id hsilent]; rfl) hold
    · refine once_made hmirrored hc hmakes htells hs ho hold fun s₀ hs₀ hdeclared hcovers => ?_
      by_contra hnew
      exact hlast ⟨s₀, hs₀, hdeclared, .inr ⟨hnew, hcovers⟩⟩
    · rw [(hmirrored j s₁ hs₁).place] at h
      refine once_added h hmirrored hs ho hold fun s₀ hs₀ hhome hj hd hdeclared => ?_
      exact hlast ⟨s₀, hs₀, hdeclared, .inl ⟨symbol, by rw [hj], by rwa [hhome]⟩⟩

end World

end FormulaStack
