import FormulaStack.Effect
import Mathlib.Algebra.Order.Group.Multiset

/-!
Laws of effects. `exec` of a composed effect is that of its parts, one after the other. Judgements
follow that shape: a preorder that every part respects, the whole respects, whether it succeeds or
fails; what success ensures; what an effect does to a part of the state; and the resources that it
consumes and leaves.
-/
namespace FormulaStack.Effect

variable {S T ρ α β : Type}

@[simp] theorem exec_pure (a : α) (s : S) : (pure a : Effect S α).exec s = (.ok a, s) := rfl

@[simp] theorem exec_throw (f : Fault) (s : S) :
    (throw f : Effect S α).exec s = (.error f, s) := rfl

@[simp] theorem exec_get (s : S) : (get : Effect S S).exec s = (.ok s, s) := rfl

@[simp] theorem exec_of (f : S → Except Fault α × S) (s : S) : (of f).exec s = f s := rfl

@[simp] theorem exec_ask (f : S → Except Fault α) (s : S) : (ask f).exec s = (f s, s) := rfl

@[simp] theorem exec_look (f : S → α) (s : S) : (look f).exec s = (.ok (f s), s) := rfl

@[simp] theorem exec_update (f : S → S) (s : S) : (update f).exec s = (.ok (), f s) := rfl

@[simp] theorem exec_on (get : S → T) (set : T → S → S) (e : Effect T α) (s : S) :
    (on get set e).exec s = ((e.exec (get s)).1, set (e.exec (get s)).2 s) := rfl

@[simp] theorem exec_andThen (e : Effect S α) (cleanup : S → S) (s : S) :
    (e.andThen cleanup).exec s = ((e.exec s).1, cleanup (e.exec s).2) := rfl

@[simp] theorem exec_attempt (e : Effect S α) (s : S) :
    (attempt e).exec s = (.ok (e.exec s).1, (e.exec s).2) := rfl

theorem exec_undoing (e : Effect S α) (cleanup : S → S) (s : S) :
    (e.undoing cleanup).exec s =
      match e.exec s with
      | (.ok a, s) => (.ok a, s)
      | (.error f, s) => (.error f, cleanup s) := by
  unfold undoing
  rw [exec_of]
  rcases e.exec s with ⟨_ | _, _⟩ <;> rfl

theorem exec_bind (e : Effect S α) (f : α → Effect S β) (s : S) :
    (e >>= f).exec s =
      match e.exec s with
      | (.ok a, s) => (f a).exec s
      | (.error x, s) => (.error x, s) := by
  simp only [exec, ExceptT.run, bind, ExceptT.bind, ExceptT.mk, StateT.bind]
  rcases e s with ⟨_ | _, _⟩ <;> rfl

theorem exec_bind_ok {e : Effect S α} {s t : S} {a : α} (h : e.exec s = (.ok a, t))
    (f : α → Effect S β) : (e >>= f).exec s = (f a).exec t := by
  rw [exec_bind, h]

theorem exec_bind_error {e : Effect S α} {s t : S} {x : Fault} (h : e.exec s = (.error x, t))
    (f : α → Effect S β) : (e >>= f).exec s = (.error x, t) := by
  rw [exec_bind, h]

theorem exec_ask_bind_ok {g : S → Except Fault α} {s : S} {a : α} (h : g s = .ok a)
    (f : α → Effect S β) : (Effect.ask g >>= f).exec s = (f a).exec s :=
  exec_bind_ok (by rw [exec_ask, h]) f

theorem exec_ask_bind_error {g : S → Except Fault α} {s : S} {x : Fault} (h : g s = .error x)
    (f : α → Effect S β) : (Effect.ask g >>= f).exec s = (.error x, s) :=
  exec_bind_error (by rw [exec_ask, h]) f

theorem exec_bind_pure (e : Effect S α) (f : α → β) (s : S) :
    (e >>= fun a => pure (f a)).exec s = ((e.exec s).1.map f, (e.exec s).2) := by
  rw [exec_bind]
  rcases e.exec s with ⟨_ | _, _⟩ <;> rfl

/-- Reading several things is one look at the state. -/
theorem exec_mapM_ask (f : α → S → Except Fault β) (as : List α) (s : S) :
    (as.mapM fun a => ask (f a)).exec s = (as.mapM fun a => f a s, s) := by
  induction as with
  | nil => rfl
  | cons a as ih =>
    rw [List.mapM_cons, List.mapM_cons, exec_bind, exec_ask]
    cases f a s with
    | error x => rfl
    | ok b =>
      dsimp only
      rw [exec_bind_pure, ih]
      rfl

/-- Whatever the outcome, the state moves along `R`. -/
def Within (R : S → S → Prop) (e : Effect S α) : Prop := ∀ s, R s (e.exec s).2

namespace Within

variable {R : S → S → Prop}

theorem pure [Std.Refl R] (a : α) : Within R (Pure.pure a) := fun s => Std.Refl.refl s

theorem throw [Std.Refl R] (f : Fault) : Within R (MonadExcept.throw f : Effect S α) :=
  fun s => Std.Refl.refl s

theorem ask [Std.Refl R] (f : S → Except Fault α) : Within R (ask f) := fun s => Std.Refl.refl s

theorem look [Std.Refl R] (f : S → α) : Within R (look f) := fun s => Std.Refl.refl s

theorem bind [IsTrans S R] {e : Effect S α} {f : α → Effect S β} (he : Within R e)
    (hf : ∀ a, Within R (f a)) : Within R (e >>= f) := by
  intro s
  have hs := he s
  rw [exec_bind]
  rcases h : e.exec s with ⟨x | a, t⟩
  · simpa [h] using hs
  · rw [h] at hs
    exact Trans.trans hs (hf a t)

theorem mapM [Std.Refl R] [IsTrans S R] {f : α → Effect S β} (hf : ∀ a, Within R (f a)) :
    ∀ as : List α, Within R (as.mapM f)
  | [] => by
    rw [List.mapM_nil]
    exact .pure []
  | a :: as => by
    rw [List.mapM_cons]
    exact (hf a).bind fun b => (mapM hf as).bind fun bs => .pure (b :: bs)

theorem forM [Std.Refl R] [IsTrans S R] {f : α → Effect S Unit} (hf : ∀ a, Within R (f a)) :
    ∀ as : List α, Within R (as.forM f)
  | [] => .pure ()
  | a :: as => (hf a).bind fun _ => forM hf as

theorem update {f : S → S} (h : ∀ s, R s (f s)) : Within R (update f) := h

theorem attempt {e : Effect S α} (he : Within R e) : Within R (attempt e) := he

theorem undoing [IsTrans S R] {e : Effect S α} {cleanup : S → S} (he : Within R e)
    (hc : ∀ s, R s (cleanup s)) : Within R (e.undoing cleanup) := by
  intro s
  have hs := he s
  rw [exec_undoing]
  rcases h : e.exec s with ⟨x | a, t⟩ <;> rw [h] at hs
  · exact Trans.trans hs (hc t)
  · exact hs

theorem andThen [IsTrans S R] {e : Effect S α} {cleanup : S → S} (he : Within R e)
    (hc : ∀ s, R s (cleanup s)) : Within R (e.andThen cleanup) :=
  fun s => Trans.trans (he s) (hc _)

/-- Work on a part of the state. -/
theorem on {P : T → T → Prop} {get : S → T} {set : T → S → S} {e : Effect T α} (he : Within P e)
    (h : ∀ s t, P (get s) t → R s (set t s)) : Within R (on get set e) :=
  fun s => h s _ (he (get s))

end Within

/-- If the work succeeds, `Q` holds of what it gives and of the state that it leaves. -/
def Ensures (e : Effect S α) (s : S) (Q : α → S → Prop) : Prop :=
  ∀ a t, e.exec s = (.ok a, t) → Q a t

namespace Ensures

variable {e : Effect S α} {f : α → Effect S β} {s : S} {P Q : α → S → Prop}

theorem mono (h : e.Ensures s P) (hQ : ∀ a t, P a t → Q a t) : e.Ensures s Q :=
  fun a t hx => hQ a t (h a t hx)

theorem and (h : e.Ensures s P) (g : e.Ensures s Q) : e.Ensures s fun a t => P a t ∧ Q a t :=
  fun a t hx => ⟨h a t hx, g a t hx⟩

theorem pure {a : α} (h : Q a s) : (Pure.pure a : Effect S α).Ensures s Q := by
  rintro _ _ ⟨⟩
  exact h

theorem throw (x : Fault) : (MonadExcept.throw x : Effect S α).Ensures s Q := nofun

theorem ask {g : S → Except Fault α} (h : ∀ a, g s = .ok a → Q a s) : (ask g).Ensures s Q := by
  intro a t hx
  rw [exec_ask, Prod.mk.injEq] at hx
  exact hx.2 ▸ h a hx.1

theorem look {g : S → α} (h : Q (g s) s) : (look g).Ensures s Q := by
  rintro _ _ ⟨⟩
  exact h

theorem update {g : S → S} {R : Unit → S → Prop} (h : R () (g s)) : (update g).Ensures s R := by
  rintro _ _ ⟨⟩
  exact h

theorem bind {R : β → S → Prop} (he : e.Ensures s P) (hf : ∀ a t, P a t → (f a).Ensures t R) :
    (e >>= f).Ensures s R := by
  intro b u hx
  rw [exec_bind] at hx
  rcases h : e.exec s with ⟨x | a, t⟩ <;> rw [h] at hx
  · cases hx
  · exact hf a t (he a t h) b u hx

theorem ask_bind {g : S → Except Fault α} {R : β → S → Prop}
    (h : ∀ a, g s = .ok a → (f a).Ensures s R) : (Effect.ask g >>= f).Ensures s R := by
  refine .bind (.ask (Q := fun a t => t = s ∧ g s = .ok a) fun a ha => ⟨rfl, ha⟩) fun a t ht => ?_
  obtain ⟨rfl, ha⟩ := ht
  exact h a ha

theorem look_bind {g : S → α} {R : β → S → Prop} (h : (f (g s)).Ensures s R) :
    (Effect.look g >>= f).Ensures s R := by
  refine .bind (.look (Q := fun a t => t = s ∧ a = g s) ⟨rfl, rfl⟩) fun a t ht => ?_
  obtain ⟨rfl, rfl⟩ := ht
  exact h

/-- What the last work ensures, whatever came before. -/
theorem later {R : β → S → Prop} (hf : ∀ a t, (f a).Ensures t R) : (e >>= f).Ensures s R :=
  .bind (P := fun _ _ => True) (fun _ _ _ => trivial) fun a t _ => hf a t

theorem throw_bind {R : β → S → Prop} (x : Fault) :
    ((MonadExcept.throw x : Effect S α) >>= f).Ensures s R :=
  .bind (P := fun _ _ => False) (.throw x) fun _ _ h => h.elim

theorem on {get : S → T} {set : T → S → S} {e : Effect T α}
    (h : e.Ensures (get s) fun a t => Q a (set t s)) : (on get set e).Ensures s Q := by
  intro a t hx
  rw [exec_on, Prod.mk.injEq] at hx
  exact hx.2 ▸ h a _ (Prod.ext hx.1 rfl)

theorem undoing {cleanup : S → S} (h : e.Ensures s Q) : (e.undoing cleanup).Ensures s Q := by
  intro a t hx
  rw [exec_undoing] at hx
  rcases hy : e.exec s with ⟨x | b, u⟩ <;> rw [hy] at hx <;> cases hx
  exact h a t hy

theorem andThen {cleanup : S → S} (h : e.Ensures s fun a t => Q a (cleanup t)) :
    (e.andThen cleanup).Ensures s Q := by
  intro a t hx
  rw [exec_andThen, Prod.mk.injEq] at hx
  exact hx.2 ▸ h a _ (Prod.ext hx.1 rfl)

theorem attempt (h : e.Ensures s Q) :
    (attempt e).Ensures s fun out t => ∀ a, out = .ok a → Q a t := by
  rintro _ _ ⟨⟩ a hx
  exact h a _ (Prod.ext hx rfl)

end Ensures

theorem Within.ensures {R : S → S → Prop} {e : Effect S α} (h : Within R e) (s : S) :
    e.Ensures s fun _ t => R s t := by
  intro a t hx
  have hs := h s
  rwa [hx] at hs

/-- The work succeeds, and `Q` holds of what it gives and of the state that it leaves. -/
def Succeeds (e : Effect S α) (s : S) (Q : α → S → Prop) : Prop :=
  ∃ a t, e.exec s = (.ok a, t) ∧ Q a t

namespace Succeeds

variable {e : Effect S α} {f : α → Effect S β} {s : S} {P Q : α → S → Prop}

theorem mono (h : e.Succeeds s P) (hQ : ∀ a t, P a t → Q a t) : e.Succeeds s Q := by
  obtain ⟨a, t, hx, ha⟩ := h
  exact ⟨a, t, hx, hQ a t ha⟩

/-- Work that succeeds gives what it ensures. -/
theorem and (h : e.Succeeds s P) (g : e.Ensures s Q) : e.Succeeds s fun a t => P a t ∧ Q a t := by
  obtain ⟨a, t, hx, ha⟩ := h
  exact ⟨a, t, hx, ha, g a t hx⟩

theorem pure {a : α} (h : Q a s) : (Pure.pure a : Effect S α).Succeeds s Q := ⟨a, s, rfl, h⟩

theorem ask {g : S → Except Fault α} {a : α} (hg : g s = .ok a) (h : Q a s) :
    (ask g).Succeeds s Q := by
  refine ⟨a, s, ?_, h⟩
  rw [exec_ask, hg]

theorem look {g : S → α} (h : Q (g s) s) : (look g).Succeeds s Q := ⟨g s, s, rfl, h⟩

theorem bind {R : β → S → Prop} (he : e.Succeeds s P) (hf : ∀ a t, P a t → (f a).Succeeds t R) :
    (e >>= f).Succeeds s R := by
  obtain ⟨a, t, hx, ha⟩ := he
  obtain ⟨b, u, hy, hb⟩ := hf a t ha
  exact ⟨b, u, (exec_bind_ok hx f).trans hy, hb⟩

theorem ask_bind {g : S → Except Fault α} {a : α} {R : β → S → Prop} (hg : g s = .ok a)
    (h : (f a).Succeeds s R) : (Effect.ask g >>= f).Succeeds s R := by
  refine .bind (.ask (Q := fun b t => t = s ∧ b = a) hg ⟨rfl, rfl⟩) fun b t ht => ?_
  obtain ⟨rfl, rfl⟩ := ht
  exact h

theorem look_bind {g : S → α} {R : β → S → Prop} (h : (f (g s)).Succeeds s R) :
    (Effect.look g >>= f).Succeeds s R :=
  .ask_bind (g := fun s => .ok (g s)) rfl h

theorem on {get : S → T} {set : T → S → S} {e : Effect T α}
    (h : e.Succeeds (get s) fun a t => Q a (set t s)) : (on get set e).Succeeds s Q := by
  obtain ⟨a, t, hx, ha⟩ := h
  refine ⟨a, set t s, ?_, ha⟩
  rw [exec_on, hx]

theorem undoing {cleanup : S → S} (h : e.Succeeds s Q) : (e.undoing cleanup).Succeeds s Q := by
  obtain ⟨a, t, hx, ha⟩ := h
  refine ⟨a, t, ?_, ha⟩
  rw [exec_undoing, hx]

end Succeeds

/-- What the one effect does is what the other does to what `φ` shows of the state. -/
def Along (φ : S → T) (e : Effect S α) (e' : Effect T α) : Prop :=
  ∀ s, e'.exec (φ s) = ((e.exec s).1, φ (e.exec s).2)

namespace Along

variable {φ : S → T} {e : Effect S α} {e' : Effect T α}

theorem bind {f : α → Effect S β} {f' : α → Effect T β} (he : Along φ e e')
    (hf : ∀ a, Along φ (f a) (f' a)) : Along φ (e >>= f) (e' >>= f') := by
  intro s
  rw [exec_bind, exec_bind, he s]
  rcases e.exec s with ⟨x | a, t⟩
  · rfl
  · exact hf a t

theorem andThen {cleanup : S → S} {cleanup' : T → T} (he : Along φ e e')
    (hc : ∀ s, cleanup' (φ s) = φ (cleanup s)) :
    Along φ (e.andThen cleanup) (e'.andThen cleanup') := by
  intro s
  rw [exec_andThen, exec_andThen, he s, hc]

theorem attempt (he : Along φ e e') : Along φ (attempt e) (attempt e') := by
  intro s
  rw [exec_attempt, exec_attempt, he s]

end Along

/-- Work that starts with `pre` at hand leaves `post` where it succeeds, and nothing of `pre` where
it fails. What else is at hand stays so. `At` says of a state that resources are at hand in it. -/
def Owns (At : S → Multiset ρ → Prop) (pre : Multiset ρ) (e : Effect S α)
    (post : α → Multiset ρ) : Prop :=
  ∀ s held, At s (pre + held) →
    match e.exec s with
    | (.ok a, t) => At t (post a + held)
    | (.error _, t) => At t held

namespace Owns

variable {At : S → Multiset ρ → Prop} {pre : Multiset ρ} {post : α → Multiset ρ}

theorem pure (a : α) : Owns At (post a) (Pure.pure a) post := fun _ _ h => h

theorem pure_of {a : α} (h : pre = post a) : Owns At pre (Pure.pure a) post := h ▸ pure a

theorem throw (f : Fault) : Owns At 0 (MonadExcept.throw f) post := by
  intro s held h
  simpa using h

theorem ask (f : S → Except Fault α) : Owns At 0 (ask f) (fun _ => 0) := by
  intro s held h
  rw [exec_ask]
  cases f s <;> simpa using h

theorem look (f : S → α) : Owns At 0 (look f) (fun _ => 0) := fun _ _ h => h

theorem bind {mid : α → Multiset ρ} {out : β → Multiset ρ} {e : Effect S α}
    {f : α → Effect S β} (he : Owns At pre e mid) (hf : ∀ a, Owns At (mid a) (f a) out) :
    Owns At pre (e >>= f) out := by
  intro s held h
  have hs := he s held h
  rw [exec_bind]
  rcases hx : e.exec s with ⟨x | a, t⟩ <;> rw [hx] at hs
  · exact hs
  · exact hf a t held hs

theorem throw_bind (f : Fault) (g : α → Effect S β) {out : β → Multiset ρ} :
    Owns At 0 (MonadExcept.throw f >>= g) out := by
  intro s held h
  rwa [zero_add] at h

/-- Resources that nobody uses are given back by the cleanup of a failure. -/
theorem undoing {e : Effect S α} {cleanup : S → S} (he : Owns At 0 e post)
    (hc : ∀ s held, At s (pre + held) → At (cleanup s) held) :
    Owns At pre (e.undoing cleanup) (fun a => post a + pre) := by
  intro s held h
  have hs := he s (pre + held) (by simpa using h)
  rw [exec_undoing]
  rcases hx : e.exec s with ⟨x | a, t⟩ <;> rw [hx] at hs
  · exact hc t held hs
  · simpa only [add_assoc] using hs

/-- Work on a part of the state. What is at hand in the whole is at hand in the part, and back. -/
theorem on {get : S → T} {set : T → S → S} {e : Effect T α}
    (h : ∀ s held, At s (pre + held) → ∃ Part : T → Multiset ρ → Prop,
      Part (get s) (pre + held) ∧ Owns Part pre e post ∧
        ∀ t held, Part t held → At (set t s) held) :
    Owns At pre (on get set e) post := by
  intro s held hs
  obtain ⟨Part, hget, he, hset⟩ := h s held hs
  have hr := he (get s) held hget
  rw [exec_on]
  rcases hx : e.exec (get s) with ⟨x | a, t⟩ <;> rw [hx] at hr <;> exact hset t _ hr

end Owns
end FormulaStack.Effect
