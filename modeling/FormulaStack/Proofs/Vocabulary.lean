import FormulaStack.Proofs.Repetitions

/-!
What sessions can name. Whatever the session of an open stack has declared was requested of its
context, or a client has added it; so the context has its signature, unless a client has added a
function that the context does not have.
-/
namespace FormulaStack

namespace Environment

variable {env : Environment} {d : FuncDecl}

/-- What was requested has a signature. -/
theorem Covers.exists_signature (h : env.Covers d) (henrolled : env.Enrolled)
    (hregistered : env.Registered) : ∃ f, env.terms.decl? d = some f := by
  obtain ⟨symbol, hm, hd⟩ := h
  obtain ⟨r, hr⟩ := (henrolled symbol).1 hm
  exact hregistered.exists_signature hr hd

end Environment

/-- What a constant stands for has a signature. -/
theorem Store.WellFormed.exists_signature {s : Store} {symbol : Symbol} {d : FuncDecl}
    (hs : s.WellFormed) (h : s.declOf symbol = .ok d) :
    symbol = .function d ∨ ∃ f, s.decl? d = some f := by
  have hconstant : ∀ {t : Term} {n : Node}, s.node? t = some n → n.decl? = some d →
      ∃ f, s.decl? d = some f := by
    intro t n ht hd
    obtain ⟨ks, -, hfits⟩ := hs.fits ht
    obtain ⟨op, args, k⟩ := n
    cases op with
    | apply e =>
      cases hd
      obtain ⟨name, hf⟩ := hfits
      exact ⟨_, hf⟩
    | _ => cases hd
  cases symbol with
  | function e =>
    cases h
    exact .inl rfl
  | boolean t | numeric t =>
    unfold declOf at h
    dsimp only at h
    split at h
    · cases h
    · next n hn =>
      split at h
      · next e he =>
        cases h
        exact .inr (hconstant (node_eq_ok.1 hn) he)
      · cases h

namespace World

variable {opening watching : Prop} {w w' : World FoldingSolver} {told more : List Incident}
  {events : List (Event FoldingSolver)} {id : Nat} {s : AssertionStack FoldingSolver}
  {d : FuncDecl}

/-- The session of an open stack had declared something before, or it was requested, or the stack
has received its symbol. -/
theorem declared_of_trail (h : Trail (Move (.serving opening)) w more w') (hw : w.Mirrored told)
    (hs : w'.stack? id = some s) (ho : s.closed = false) (hd : s.session.isDeclared d = true) :
    (∃ s₀, w.stack? id = some s₀ ∧ s₀.closed = false ∧ s₀.home = s.home ∧
      s₀.session.isDeclared d = true) ∨ (w'.environmentOf s.home).Covers d ∨
    ∃ symbol ∈ received id more, (w'.environmentOf s.home).terms.declOf symbol = .ok d := by
  obtain ⟨n, hstart, hcount⟩ := starts_of_trail h hw hs ho d
  have hpos := hcount.trans_lt' (FoldingSolver.isDeclared_iff_timesDeclared.1 hd)
  obtain hannounced | hn : 0 < (w'.environmentOf s.home).terms.announced d (received id more) ∨
      0 < n := by omega
  · obtain ⟨symbol, hm, hsymbol⟩ := List.countP_pos_iff.1 hannounced
    exact .inr (.inr ⟨symbol, hm, Store.toOption_declOf_eq.1 hsymbol⟩)
  · obtain ⟨s₀, hs₀, ho₀, hhome, rfl⟩ | ⟨-, -, hcovers⟩ := hstart
    · exact .inl ⟨s₀, hs₀, ho₀, hhome, FoldingSolver.isDeclared_iff_timesDeclared.2 hn⟩
    · exact .inr (.inl (hcovers hn))

/-- Something was requested of a context, or one of some events has added it to a stack. -/
def Introduced (w : World FoldingSolver) (events : List (Event FoldingSolver)) (id home : Nat)
    (d : FuncDecl) : Prop :=
  (w.environmentOf home).Covers d ∨ ∃ symbol, .atStack id (.addSymbol symbol) ∈ events ∧
    (w.environmentOf home).terms.declOf symbol = .ok d

theorem introduced_of_trail (h : Trail (Move (.serving opening)) w more w') (hw : w.Mirrored told)
    (hs : w'.stack? id = some s) (ho : s.closed = false) (hd : s.session.isDeclared d = true)
    (hold : ∀ s₀, w.stack? id = some s₀ → s₀.closed = false → s₀.session.isDeclared d = true →
      w.Introduced events id s₀.home d)
    (hnew : ∀ symbol ∈ received id more, (w'.environmentOf s.home).terms.declOf symbol = .ok d →
      w'.Introduced events id s.home d) : w'.Introduced events id s.home d := by
  obtain ⟨s₀, hs₀, ho₀, hhome, hd₀⟩ | hcovers | ⟨symbol, hm, hsymbol⟩ :=
    declared_of_trail h hw hs ho hd
  · obtain hcovers | ⟨symbol, hm, hsymbol⟩ := hold s₀ hs₀ ho₀ hd₀ <;> rw [hhome] at *
    · exact .inl (covers_of_trail h hcovers)
    · exact .inr ⟨symbol, hm, (terms_of_trail h s.home).declOf hsymbol⟩
  · exact .inl hcovers
  · exact hnew symbol hm hsymbol

theorem Introduced.made {ctx home : Nat} {c : Context} {env : Environment} {symbol : Symbol}
    {e : FuncDecl} (h : w.Introduced events id home d) (hc : w.contexts[ctx]? = some c)
    (hdeclares : c.env.Declares symbol e env) :
    (setEnvironment ctx env w).Introduced events id home d := by
  have henv := environmentOf_setEnvironment hc env home
  by_cases hhome : home = ctx
  · rw [if_pos hhome] at henv
    rw [Introduced, hhome, environmentOf_eq hc] at h
    rw [Introduced, henv]
    obtain ⟨symbol', hm, hd⟩ | ⟨symbol', hm, hd⟩ := h
    · refine .inl ⟨symbol', ?_, hdeclares.terms.extension.declOf hd⟩
      rw [hdeclares.declared]
      exact List.mem_append_left _ hm
    · exact .inr ⟨symbol', hm, hdeclares.terms.extension.declOf hd⟩
  · rw [if_neg hhome] at henv
    rwa [Introduced, henv]

/-- A symbol that a request makes is introduced to the stacks that are told of it, as they were
opened in its context. -/
theorem introduced_of_made {ctx : Nat} {c : Context} {env : Environment} {symbol : Symbol}
    {e : FuncDecl} (hw : w.Mirrored told) (hattended : w.Attended watching)
    (hc : w.contexts[ctx]? = some c) (hdeclares : c.env.Declares symbol e env)
    (h : Trail (Move (.serving False)) (setEnvironment ctx env w) more w')
    (hheard : received id more ⊆ List.replicate ((w.observersOf ctx).count (.stack id)) symbol)
    (hs : w'.stack? id = some s) (ho : s.closed = false) (hd : s.session.isDeclared d = true)
    (hold : ∀ s₀, w.stack? id = some s₀ → s₀.closed = false → s₀.session.isDeclared d = true →
      w.Introduced events id s₀.home d) : w'.Introduced events id s.home d := by
  have hmirrored : (setEnvironment ctx env w).Mirrored (told ++ []) :=
    (Move.requested (g := .folding False) trivial hc hdeclares).mirrored (fun _ h => h) hw
  refine introduced_of_trail h hmirrored hs ho hd
    (fun s₀ hs₀ ho₀ hd₀ => (hold s₀ hs₀ ho₀ hd₀).made hc hdeclares) fun symbol' hm hsymbol => ?_
  obtain ⟨hcount, rfl⟩ := List.mem_replicate.1 (hheard hm)
  obtain ⟨n, ⟨s₀, hs₀, -, hhome, -⟩ | ⟨⟨⟩, -⟩, -⟩ := starts_of_trail h hmirrored hs ho d
  have hctx := (hattended.places ctx id
    (List.count_pos_iff.1 (Nat.pos_of_ne_zero hcount))).2 s₀ hs₀
  have henv := (environmentOf_setEnvironment hc env ctx).trans (if_pos rfl)
  have hdecl := (terms_of_trail h ctx).declOf (henv ▸ hdeclares.decl)
  rw [← hhome, hctx] at hsymbol ⊢
  cases hdecl.symm.trans hsymbol
  exact .inl (covers_of_made h hc hdeclares hdeclares.decl)

/-- What the session of an open stack has declared was requested of its context, or a client has
added it to the stack. -/
theorem introduced_afterAll (hx : ∀ e ∈ events, e.Allowed (.folding watching))
    (hs : (afterAll events).stack? id = some s) (ho : s.closed = false)
    (hd : s.session.isDeclared d = true) :
    (afterAll events).Introduced events id s.home d := by
  induction events using List.reverseRecOn generalizing s with
  | nil =>
    rw [stack?_eq_some] at hs
    cases hs
  | append_singleton events e ih =>
    have hx' : ∀ e ∈ events, e.Allowed (.folding watching) :=
      fun e he => hx e (List.mem_append_left _ he)
    have ha := hx e (List.mem_append_right _ (List.mem_singleton_self e))
    obtain ⟨told, htold⟩ := (reached_afterAll hx').exists_trail
    have hmirrored := mirrored_of_trail (fun _ h => h) htold
    have hold : ∀ s₀, (afterAll events).stack? id = some s₀ → s₀.closed = false →
        s₀.session.isDeclared d = true →
          (afterAll events).Introduced (events ++ [e]) id s₀.home d := fun s₀ hs₀ ho₀ hd₀ =>
      (ih hx' hs₀ ho₀ hd₀).imp_right fun ⟨symbol, hm, hsymbol⟩ =>
        ⟨symbol, List.mem_append_left _ hm, hsymbol⟩
    rw [afterAll_concat] at hs ⊢
    obtain ⟨opening, told, h, hsilent⟩ |
        ⟨r, ctx, c, symbol, env, rfl, hc, hmakes, more, htrail, hheard⟩ |
        ⟨j, symbol, s₁, rfl, hs₁, h⟩ :=
      Event.announces ha (reached_afterAll hx').placed (housed_afterAll events)
    · refine introduced_of_trail h hmirrored hs ho hd hold fun symbol hm => ?_
      rw [received_silent id hsilent] at hm
      cases hm
    · obtain ⟨_, hdeclares⟩ := hmakes.declares
      exact introduced_of_made hmirrored (attended_afterAll events) hc hdeclares htrail
        (hheard id).subset hs ho hd hold
    · rw [(hmirrored j s₁ hs₁).place] at h
      refine introduced_of_trail h hmirrored hs ho hd hold fun symbol' hm hsymbol => ?_
      rw [received_singleton] at hm
      split at hm
      · next hj =>
        subst hj
        rw [List.mem_singleton.1 hm] at hsymbol
        exact .inr ⟨symbol, List.mem_append_right _ (List.mem_singleton_self _), hsymbol⟩
      · cases hm

end World

end FormulaStack
