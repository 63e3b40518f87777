import FormulaStack.Proofs.Constructors
import FormulaStack.Proofs.Effects
import FormulaStack.Proofs.Rebuilding
import FormulaStack.View

/-!
Work in an environment beside work on trees. An effect computes what a function of trees says if it
has the same outcome, up to the names of terms, and does nothing to the environment but add to it.
-/
namespace FormulaStack

/-- Two outcomes that fail alike or succeed with related values. -/
inductive Agree {α β : Type} (R : α → β → Prop) : Except Fault α → Except Fault β → Prop where
  | ok {a : α} {b : β} (h : R a b) : Agree R (.ok a) (.ok b)
  | error (e : Fault) : Agree R (.error e) (.error e)

/-- The junction of what was gathered. -/
def Boolean.settle (j : Junction) : Boolean.Gathered → Effect Environment BoolFormula
  | .absorbed f => f.copy
  | .terms [] => Boolean.constant (j == .and)
  | .terms [t] => Environment.wrapBool t
  | .terms [t, u] => Boolean.binary j t u
  | .terms ts => do Environment.wrapBool (← Environment.build (j.build ts))

theorem Boolean.nary_eq (j : Junction) (fs : List BoolFormula) :
    Boolean.nary j fs = Boolean.gather j [] fs >>= Boolean.settle j :=
  rfl

namespace Environment

variable {α β γ δ : Type} {env env₁ env₂ : Environment}

/-- An environment whose backend reports what its terms are. -/
structure Proper (env : Environment) : Prop where
  wellFormed : env.terms.WellFormed
  candid : env.reported = []

structure Advances (env env' : Environment) : Prop where
  id : env'.id = env.id
  reported : env'.reported = env.reported
  terms : env.terms.Grows env'.terms

theorem Advances.refl (env : Environment) : env.Advances env := ⟨rfl, rfl, .refl _⟩

theorem Advances.trans (h : env.Advances env₁) (g : env₁.Advances env₂) : env.Advances env₂ :=
  ⟨g.id.trans h.id, g.reported.trans h.reported, h.terms.trans g.terms⟩

theorem Advances.proper (h : env.Advances env₁) (henv : env.Proper) : env₁.Proper :=
  ⟨h.terms.wellFormed henv.wellFormed, h.reported.trans henv.candid⟩

theorem Advances.handles (h : env.Advances env₁) (handles : Handles) :
    env.Advances { env₁ with handles } :=
  ⟨h.id, h.reported, h.terms⟩

theorem unwrap_foreign {f : Formula} (h : f.owner ≠ env.id) : env.unwrap f = .error .foreign :=
  if_neg h

theorem advances_retain (env : Environment) (f : Formula) : env.Advances (env.retain f) := by
  unfold retain
  split
  · exact (Advances.refl env).handles _
  · exact .refl env

theorem advances_discard (env : Environment) (f : Formula) : env.Advances (env.discard f) := by
  unfold discard
  split
  · exact (Advances.refl env).handles _
  · exact .refl env

theorem advances_discardAll (env : Environment) (fs : List Formula) :
    env.Advances (discardAll fs env) := by
  induction fs generalizing env with
  | nil => exact .refl env
  | cons f fs ih => exact (env.advances_discard f).trans (ih _)

theorem kind_of_node? {t : Term} {n : Node} (henv : env.Proper)
    (hn : env.terms.node? t = some n) : env.kind t = .ok n.kind := by
  rw [Environment.kind, henv.candid, Store.node, hn]
  rfl

/-- A term with its tree. -/
def Shows (env : Environment) (t : Term) (x : Tree) : Prop := env.terms.tree? t = some x

def ShowsAll (env : Environment) (ts : List Term) (xs : List Tree) : Prop := env.terms.Unfolds ts xs

/-- A formula with what the environment makes of it. -/
def Reads (env : Environment) (f : BoolFormula) : Reading → Prop
  | .own x => f.formula.owner = env.id ∧ env.Shows f.term x ∧ x.sort = .bool
  | .foreign owner t => f.formula.owner = owner ∧ owner ≠ env.id ∧ f.term = t

theorem Shows.advance {t : Term} {x : Tree} (h : env.Shows t x) (henv : env.Proper)
    (ha : env.Advances env₁) : env₁.Shows t x :=
  henv.wellFormed.tree?_extends (ha.proper henv).wellFormed ha.terms.extension h

theorem ShowsAll.advance {ts : List Term} {xs : List Tree} (h : env.ShowsAll ts xs)
    (henv : env.Proper) (ha : env.Advances env₁) : env₁.ShowsAll ts xs :=
  List.Forall₂.imp (fun _ _ ht => Shows.advance ht henv ha) h

theorem Reads.advance {f : BoolFormula} {r : Reading} (h : env.Reads f r) (henv : env.Proper)
    (ha : env.Advances env₁) : env₁.Reads f r := by
  cases r with
  | own x => exact ⟨h.1.trans ha.id.symm, h.2.1.advance henv ha, h.2.2⟩
  | foreign owner t => exact ⟨h.1, by rw [ha.id]; exact h.2.1, h.2.2⟩

theorem Reads.proposition {f : BoolFormula} {x : Tree} (h : env.Reads f (.own x))
    (henv : env.Proper) : x.Proposition :=
  ⟨henv.wellFormed.wellSorted_of_tree? h.2.1, h.2.2⟩

/-- An effect has the outcome `r`, up to the names of terms, and only adds to the environment. -/
structure Computes (env : Environment) (R : Environment → α → β → Prop) (e : Effect Environment α)
    (r : Except Fault β) : Prop where
  advances : env.Advances (e.exec env).2
  agrees : Agree (R (e.exec env).2) (e.exec env).1 r

namespace Computes

variable {R : Environment → α → β → Prop} {S : Environment → γ → δ → Prop}
  {e : Effect Environment α} {f : α → Effect Environment γ}

theorem of_exec {a : α} {b : β} (h : e.exec env = (.ok a, env₁)) (ha : env.Advances env₁)
    (hab : R env₁ a b) : Computes env R e (.ok b) := by
  constructor
  · rwa [h]
  · rw [h]
    exact .ok hab

theorem pure {a : α} {b : β} (h : R env a b) : Computes env R (Pure.pure a) (.ok b) :=
  of_exec rfl (.refl env) h

theorem throw (x : Fault) :
    Computes env R (MonadExcept.throw x : Effect Environment α) (.error x) :=
  ⟨.refl env, .error x⟩

theorem mono {R' : Environment → α → β → Prop} {b : β} (h : Computes env R e (.ok b))
    (hR : ∀ env₁ a, R env₁ a b → R' env₁ a b) : Computes env R' e (.ok b) := by
  obtain ⟨ha, hr⟩ := h
  refine ⟨ha, ?_⟩
  cases hout : (e.exec env).1 with
  | ok a =>
    rw [hout] at hr
    cases hr with
    | ok hab => exact .ok (hR _ a hab)
  | error x =>
    rw [hout] at hr
    cases hr

theorem exists_ok {b : β} (h : Computes env R e (.ok b)) :
    ∃ a env₁, e.exec env = (.ok a, env₁) ∧ env.Advances env₁ ∧ R env₁ a b := by
  obtain ⟨ha, hr⟩ := h
  rcases hx : e.exec env with ⟨out, env₁⟩
  rw [hx] at ha hr
  cases hr with
  | ok hab => exact ⟨_, env₁, rfl, ha, hab⟩

theorem exists_error {x : Fault} (h : Computes env R e (.error x)) :
    ∃ env₁, e.exec env = (.error x, env₁) ∧ env.Advances env₁ := by
  obtain ⟨ha, hr⟩ := h
  rcases hx : e.exec env with ⟨out, env₁⟩
  rw [hx] at ha hr
  cases hr
  exact ⟨env₁, rfl, ha⟩

theorem ensures {b : β} (h : Computes env R e (.ok b)) :
    e.Ensures env fun a env₁ => env.Advances env₁ ∧ R env₁ a b := by
  obtain ⟨a, env₁, hx, ha, hab⟩ := h.exists_ok
  intro a' env₂ hx'
  rw [hx] at hx'
  cases hx'
  exact ⟨ha, hab⟩

theorem bind_ok {b : β} {r : Except Fault δ} (he : Computes env R e (.ok b))
    (hf : ∀ a env₁, env.Advances env₁ → R env₁ a b → Computes env₁ S (f a) r) :
    Computes env S (e >>= f) r := by
  obtain ⟨a, env₁, hx, ha, hab⟩ := he.exists_ok
  have hfa := hf a env₁ ha hab
  constructor
  · rw [Effect.exec_bind_ok hx]
    exact ha.trans hfa.advances
  · rw [Effect.exec_bind_ok hx]
    exact hfa.agrees

theorem bind {r : Except Fault β} {k : β → Except Fault δ} (he : Computes env R e r)
    (hf : ∀ a b env₁, env.Advances env₁ → R env₁ a b → Computes env₁ S (f a) (k b)) :
    Computes env S (e >>= f) (r >>= k) := by
  cases r with
  | ok b => exact he.bind_ok fun a env₁ => hf a b env₁
  | error x =>
    obtain ⟨env₁, hx, ha⟩ := he.exists_error
    constructor
    · rwa [Effect.exec_bind_error hx]
    · rw [Effect.exec_bind_error hx]
      exact .error x

theorem ask_bind {g : Environment → Except Fault α} {a : α} {r : Except Fault δ}
    (h : g env = .ok a) (hf : Computes env S (f a) r) : Computes env S (.ask g >>= f) r := by
  constructor
  · rw [Effect.exec_ask_bind_ok h]
    exact hf.advances
  · rw [Effect.exec_ask_bind_ok h]
    exact hf.agrees

theorem look_bind {g : Environment → α} {r : Except Fault δ}
    (hf : Computes env S (f (g env)) r) : Computes env S (.look g >>= f) r := by
  constructor
  · rw [Effect.exec_bind_ok (Effect.exec_look g env)]
    exact hf.advances
  · rw [Effect.exec_bind_ok (Effect.exec_look g env)]
    exact hf.agrees

end Computes

variable {t u : Term} {x y : Tree} {r q : Reading} {f g : BoolFormula}

theorem Shows.node (h : env.Shows t x) (henv : env.Proper) :
    ∃ n, env.terms.node? t = some n ∧ env.terms.label n.op = x.label ∧ n.sort = x.sort ∧
      env.ShowsAll n.args x.args := by
  obtain ⟨l, k, xs⟩ := x
  exact henv.wellFormed.node_of_tree? h

theorem Store.kind_eq {s : Store} {n : Node} {ks : List TermSort}
    (hop : n.op.Fits s.decl? ks n.sort) {x : Tree} (hl : s.label n.op = x.label)
    (hargs : n.args.isEmpty = x.args.isEmpty) : n.kind = x.kind := by
  obtain ⟨op, args, k⟩ := n
  cases op with
  | apply d =>
    obtain ⟨name, hd⟩ := hop
    simp only [Store.label, hd] at hl
    simp only [Node.kind, Tree.kind, ← hl]
    rw [← hargs]
  | _ =>
    simp only [Store.label] at hl
    simp [Node.kind, Tree.kind, ← hl]

theorem Shows.kind (h : env.Shows t x) (henv : env.Proper) : env.kind t = .ok x.kind := by
  obtain ⟨n, hn, hl, -, hargs⟩ := h.node henv
  obtain ⟨ks, -, hop⟩ := henv.wellFormed.fits hn
  have hempty : n.args.isEmpty = x.args.isEmpty := by
    rw [Bool.eq_iff_iff, List.isEmpty_iff_length_eq_zero, List.isEmpty_iff_length_eq_zero,
      List.Forall₂.length_eq hargs]
  rw [Environment.kind, henv.candid, ← Store.kind_eq hop hl hempty]
  simp [Store.node, hn, Except.map]

theorem Shows.children (h : env.Shows t x) (henv : env.Proper) :
    ∃ ts, env.children t = .ok ts ∧ env.ShowsAll ts x.args := by
  obtain ⟨n, hn, -, -, hargs⟩ := h.node henv
  exact ⟨n.args, by simp [Environment.children, Store.node, hn, Except.map], hargs⟩

theorem Shows.typeOf (h : env.Shows t x) (henv : env.Proper) :
    env.typeOf t = .ok x.sort.type := by
  rw [Environment.typeOf, Store.sort_eq_ok.2 (henv.wellFormed.sort?_of_tree? h)]
  rfl

theorem Reads.bind_unwrap {S : Environment → γ → δ → Prop} {e : Term → Effect Environment γ}
    {k : Tree → Except Fault δ} (h : env.Reads f r)
    (hown : ∀ x, env.Reads f (.own x) → Computes env S (e f.term) (k x)) :
    Computes env S (f.unwrap >>= e) (r.unwrap >>= k) := by
  cases r with
  | own x => exact .ask_bind (if_pos h.1) (hown x h)
  | foreign owner t =>
    have hne : f.formula.owner ≠ env.id := by
      rw [h.1]
      exact h.2.1
    have hx : (f.unwrap >>= e).exec env = (.error .foreign, env) := by
      refine Effect.exec_ask_bind_error ?_ e
      exact unwrap_foreign hne
    constructor
    · rw [hx]
      exact .refl env
    · rw [hx]
      exact .error _

theorem computes_copy (h : env.Reads f r) (henv : env.Proper) :
    Computes env Reads f.copy (.ok r) :=
  have ha := env.advances_retain f.formula
  .of_exec rfl ha (h.advance henv ha)

theorem computes_wrapBool (henv : env.Proper) (h : env.Shows t x) (hx : x.sort = .bool) :
    Computes env Reads (wrapBool t) (.ok (.own x)) := by
  have htype : env.typeOf t = .ok .boolean := by rw [h.typeOf henv, hx]; rfl
  have ha : env.Advances { env with handles := (env.handles.register t).2 } :=
    (Advances.refl env).handles _
  exact .ask_bind htype (.of_exec rfl ha ⟨rfl, h.advance henv ha, hx⟩)

/-- A node is added over terms whose trees are known. -/
theorem computes_build {b : Build Term} {n : Node} {xs : List Tree} (henv : env.Proper)
    (hb : b env.terms = .ok (env.terms.intern n)) (hgrows : b.Grows) (hxs : env.ShowsAll n.args xs)
    (hop : ∀ d, n.op ≠ .apply d) :
    Computes env Shows (build b) (.ok (.node (.op n.op) n.sort xs)) := by
  have ha : env.Advances { env with terms := (env.terms.intern n).2 } :=
    ⟨rfl, rfl, hgrows env.terms _ _ hb⟩
  have hproper := ha.proper henv
  refine .of_exec (by rw [build, Effect.exec_of, hb]) ha ?_
  obtain ⟨ys, hys, hy⟩ := hproper.wellFormed.tree? (env.terms.node?_intern n)
  have hsame : ys = xs := by
    have hxs' : Store.Results _ _ n.args xs := hxs.advance henv ha
    rw [← Store.Results.filterMap hxs', ← Store.Results.filterMap hys]
  rw [hsame] at hy
  have hlabel : (env.terms.intern n).2.label n.op = .op n.op := by
    cases h : n.op with
    | apply d => exact absurd h (hop d)
    | _ => rfl
  rw [hlabel] at hy
  exact hy

theorem ShowsAll.sorts {ts : List Term} {xs : List Tree} (h : env.ShowsAll ts xs)
    (henv : env.Proper) (hxs : ∀ x ∈ xs, x.sort = .bool) :
    ∀ t ∈ ts, env.terms.sort? t = some .bool := by
  intro t ht
  obtain ⟨x, hx, htx⟩ := exists_related h.flip t ht
  rw [henv.wellFormed.sort?_of_tree? htx, hxs x hx]

theorem computes_connective {o : Operator} {ts : List Term} {xs : List Tree} (henv : env.Proper)
    (hts : env.ShowsAll ts xs) (hxs : ∀ x ∈ xs, x.sort = .bool)
    (hgrows : (Build.connective o ts).Grows) (hop : ∀ d, o ≠ .apply d) :
    Computes env Shows (build (Build.connective o ts)) (.ok (.connective o xs)) := by
  have hb : Build.connective o ts env.terms = .ok (env.terms.intern ⟨o, ts, .bool⟩) :=
    Build.connective_of_sorts (hts.sorts henv hxs)
  exact computes_build henv hb hgrows hts hop

theorem computes_truth (henv : env.Proper) (b : Bool) :
    Computes env Shows (build (Build.truth b)) (.ok (.constant b)) :=
  computes_build (n := ⟨if b then .true else .false, [], .bool⟩) henv rfl (.truth b)
    List.Forall₂.nil (by cases b <;> simp)

theorem computes_constant (henv : env.Proper) (b : Bool) :
    Computes env Reads (Boolean.constant b) (.ok (.own (.constant b))) :=
  (computes_truth henv b).bind_ok fun _ _ ha ht => computes_wrapBool (ha.proper henv) ht rfl

theorem ShowsAll.singleton (h : env.Shows t x) : env.ShowsAll [t] [x] := .cons h .nil

theorem ShowsAll.pair (ht : env.Shows t x) (hu : env.Shows u y) : env.ShowsAll [t, u] [x, y] :=
  .cons ht (.cons hu .nil)

theorem Shows.proposition (h : env.Shows t x) (henv : env.Proper) (hx : x.sort = .bool) :
    x.Proposition :=
  ⟨henv.wellFormed.wellSorted_of_tree? h, hx⟩

theorem computes_negation (henv : env.Proper) (ht : env.Shows t x) (hx : x.sort = .bool) :
    Computes env Shows (build (Build.not t)) (.ok (.connective .not [x])) :=
  computes_connective henv (.singleton ht) (by simpa) (.not t) nofun

theorem computes_not (henv : env.Proper) (h : env.Reads f r) :
    Computes env Reads (Boolean.not f) (do return .own (← r.unwrap).negation) := by
  refine h.bind_unwrap fun x ⟨_, ht, hx⟩ => ?_
  obtain ⟨ts, hts, hargs⟩ := ht.children henv
  refine .ask_bind (ht.kind henv) (.ask_bind hts ?_)
  split
  · next a as hk =>
    obtain ⟨y, ys, hy, -, hxs⟩ := List.forall₂_cons_left_iff.1 hargs
    obtain ⟨z, rfl, hz⟩ := (ht.proposition henv hx).not_arg (Tree.label_of_kind (by rw [hk]; rfl))
    cases hxs
    exact computes_wrapBool henv hy hz.boolean
  · next hno =>
    have hneg : x.negation = .connective .not [x] := by
      apply Tree.negation_of_ne
      intro y ys hk hxs
      rw [hxs] at hargs
      obtain ⟨a, as, -, -, rfl⟩ := List.forall₂_cons_right_iff.1 hargs
      exact hno a as hk rfl
    rw [hneg]
    exact (computes_negation henv ht hx).bind_ok fun u env₁ ha hu =>
      computes_wrapBool (ha.proper henv) hu rfl

theorem sharedOperand?_shows {a b c d : Term} {w x y z : Tree} (henv : env.Proper)
    (ha : env.Shows a w) (hb : env.Shows b x) (hc : env.Shows c y) (hd : env.Shows d z) :
    Option.Rel (fun p q => env.Shows p.1 q.1 ∧ env.Shows p.2.1 q.2.1 ∧ env.Shows p.2.2 q.2.2)
      (Boolean.sharedOperand? a b c d) (Tree.sharedOperand? w x y z) := by
  have same : ∀ {t u : Term} {x y : Tree}, env.Shows t x → env.Shows u y →
      (t == u) = decide (x = y) := by
    intro t u x y ht hu
    rw [Bool.eq_iff_iff, beq_iff_eq, decide_eq_true_iff]
    constructor
    · rintro rfl
      exact Option.some.inj (ht.symm.trans hu)
    · rintro rfl
      exact henv.wellFormed.tree?_injective ht hu
  unfold Boolean.sharedOperand? Tree.sharedOperand?
  simp only [List.filter, same ha hc, same ha hd, same hb hc, same hb hd]
  cases decide (w = y) <;> cases decide (w = z) <;> cases decide (x = y) <;>
    cases decide (x = z) <;> constructor <;> simp [ha, hb, hc, hd]

theorem build_junction (j : Junction) {ts : List Term} (h : 2 ≤ ts.length) :
    j.build ts = Build.connective j.op ts := by
  match ts, h with
  | _ :: _ :: _, _ => cases j <;> rfl

theorem computes_junction (j : Junction) {ts : List Term} {xs : List Tree} (henv : env.Proper)
    (hts : env.ShowsAll ts xs) (hxs : ∀ x ∈ xs, x.sort = .bool) (h : 2 ≤ ts.length) :
    Computes env Shows (build (j.build ts)) (.ok (.connective j.op xs)) := by
  have hgrows : (j.build ts).Grows := by
    cases j with
    | and => exact .and ts
    | or => exact .or ts
  rw [build_junction j h] at hgrows ⊢
  exact computes_connective henv hts hxs hgrows (by cases j <;> simp [Junction.op])

theorem computes_pair (j : Junction) (henv : env.Proper) (ht : env.Shows t x)
    (hu : env.Shows u y) (hx : x.sort = .bool) (hy : y.sort = .bool) :
    Computes env Shows (build (j.build [t, u])) (.ok (.connective j.op [x, y])) :=
  computes_junction j henv (.pair ht hu) (by simp [hx, hy]) (by simp)

/-- A term of a proposition. -/
def ShowsBool (env : Environment) (t : Term) (x : Tree) : Prop := env.Shows t x ∧ x.sort = .bool

def ShowsOption (env : Environment) : Option Term → Option Tree → Prop := Option.Rel env.ShowsBool

theorem ShowsAll.left_pair {a b : Term} {xs : List Tree} (h : env.ShowsAll [a, b] xs) :
    ∃ x y, xs = [x, y] ∧ env.Shows a x ∧ env.Shows b y := by
  obtain ⟨x, zs, ha, hzs, rfl⟩ := List.forall₂_cons_left_iff.1 h
  obtain ⟨y, ws, hb, hws, rfl⟩ := List.forall₂_cons_left_iff.1 hzs
  cases hws
  exact ⟨x, y, rfl, ha, hb⟩

theorem ShowsAll.right_pair {ts : List Term} (h : env.ShowsAll ts [x, y]) :
    ∃ a b, ts = [a, b] := by
  have hlen : ts.length = 2 := List.Forall₂.length_eq h
  exact List.length_eq_two.1 hlen

/-- A junction of what is shared with the junction of the rest. -/
theorem computes_distributed (i j : Junction) {a b c : Term} {w : Tree} (henv : env.Proper)
    (ha : env.ShowsBool a w) (hb : env.ShowsBool b x) (hc : env.ShowsBool c y) :
    Computes env ShowsOption (do
        let rest ← build (j.build [b, c])
        return some (← build (i.build [a, rest])))
      (.ok (some (.connective i.op [w, .connective j.op [x, y]]))) := by
  refine (computes_pair j henv hb.1 hc.1 hb.2 hc.2).bind_ok fun v env₁ ha₁ hv => ?_
  refine (computes_pair i (ha₁.proper henv) (ha.1.advance henv ha₁) hv ha.2 rfl).bind_ok
    fun v' env₂ _ hv' => .pure (.some ⟨hv', rfl⟩)

theorem computes_factored? (j : Junction) (henv : env.Proper) (ht : env.Shows t x)
    (hu : env.Shows u y) (hx : x.sort = .bool) (hy : y.sort = .bool) :
    Computes env ShowsOption (Boolean.factored? j t u) (.ok (Tree.factored? j x y)) := by
  have hnone : Computes env ShowsOption (pure none) (.ok none) := .pure .none
  refine .ask_bind (ht.kind henv) (.ask_bind (hu.kind henv) ?_)
  unfold Tree.factored?
  cases hi : Junction.ofKind? x.kind with
  | none => exact hnone
  | some i =>
    cases hi' : Junction.ofKind? y.kind with
    | none => exact hnone
    | some i' =>
      by_cases hne : i ≠ i'
      · simp only [if_pos hne]
        exact hnone
      · obtain rfl : i = i' := not_not.1 hne
        simp only [if_neg hne]
        obtain ⟨-, hxs⟩ := (ht.proposition henv hx).junction_args (Tree.label_of_ofKind? hi)
        obtain ⟨-, hys⟩ := (hu.proposition henv hy).junction_args (Tree.label_of_ofKind? hi')
        obtain ⟨ts, hts, hargs⟩ := ht.children henv
        obtain ⟨us, hus, hargs'⟩ := hu.children henv
        refine .ask_bind hts (.ask_bind hus ?_)
        split
        · next a b c d =>
          obtain ⟨w, x', hw, ha, hb⟩ := hargs.left_pair
          obtain ⟨y', z, hz, hc, hd⟩ := hargs'.left_pair
          rw [hw] at hxs ⊢
          rw [hz] at hys ⊢
          have hshared := sharedOperand?_shows henv ha hb hc hd
          dsimp only
          generalize Boolean.sharedOperand? a b c d = p at hshared ⊢
          generalize hq : Tree.sharedOperand? w x' y' z = q at hshared ⊢
          cases hshared with
          | none => exact hnone
          | @some p q h =>
            obtain ⟨hs, hrest, hrest'⟩ := h
            obtain ⟨hl, hr⟩ := Tree.sharedOperand?_eq_some hq
            have hsb : q.1.Proposition := hxs _ (by obtain h | h := hl <;> simp [h])
            have hrb : q.2.1.Proposition := hxs _ (by obtain h | h := hl <;> simp [h])
            have hrb' : q.2.2.Proposition := hys _ (by obtain h | h := hr <;> simp [h])
            exact computes_distributed i j henv ⟨hs, hsb.boolean⟩ ⟨hrest, hrb.boolean⟩
              ⟨hrest', hrb'.boolean⟩
        · next hno =>
          -- There are as many operands as terms, so here the trees are no pairs either.
          split
          · next a b c d hab hcd =>
            rw [hab] at hargs
            rw [hcd] at hargs'
            obtain ⟨t₁, t₂, rfl⟩ := hargs.right_pair
            obtain ⟨u₁, u₂, rfl⟩ := hargs'.right_pair
            exact absurd rfl (hno t₁ t₂ u₁ u₂ rfl)
          · exact hnone

theorem computes_binary (j : Junction) (henv : env.Proper) (ht : env.Shows t x)
    (hu : env.Shows u y) (hx : x.sort = .bool) (hy : y.sort = .bool) :
    Computes env Reads (Boolean.binary j t u) (.ok (.own (Tree.binary j x y))) := by
  refine (computes_factored? j henv ht hu hx hy).bind_ok fun v env₁ ha hv => ?_
  have henv₁ := ha.proper henv
  unfold Tree.binary
  generalize Tree.factored? j x y = z at hv ⊢
  cases hv with
  | some h => exact computes_wrapBool henv₁ h.1 h.2
  | none =>
    refine (computes_pair j henv₁ (ht.advance henv ha) (hu.advance henv ha) hx hy).bind_ok
      fun v env₂ ha₂ hv => computes_wrapBool (ha₂.proper henv₁) hv rfl

theorem computes_joined (j : Junction) (henv : env.Proper) (hf : env.Reads f (.own x))
    (hg : env.Reads g (.own y)) :
    Computes env Reads (Boolean.junction j f g) (.ok (.own (Tree.junction j x y))) := by
  obtain ⟨hfo, ht, hx⟩ := hf
  obtain ⟨hgo, hu, hy⟩ := hg
  have hsame : f.formula.term = g.formula.term ↔ x = y := by
    constructor
    · exact fun h => Option.some.inj (ht.symm.trans ((congrArg _ h).trans hu))
    · rintro rfl
      exact henv.wellFormed.tree?_injective ht hu
  refine .ask_bind (if_pos hfo) (.ask_bind (if_pos hgo) ?_)
  unfold Tree.junction
  by_cases heq : f.formula.term = g.formula.term
  · rw [if_pos (hsame.1 heq), if_pos heq]
    exact computes_copy ⟨hfo, ht, hx⟩ henv
  · rw [if_neg fun h => heq (hsame.2 h), if_neg heq]
    refine .ask_bind (hu.kind henv) ?_
    split
    · exact computes_copy ⟨hfo, ht, hx⟩ henv
    · refine .ask_bind (ht.kind henv) ?_
      split
      · exact computes_copy ⟨hgo, hu, hy⟩ henv
      · exact computes_binary j henv ht hu hx hy

/-- What was gathered, from terms and from trees. -/
def ReadsGathered (env : Environment) : Boolean.Gathered → Tree ⊕ List Tree → Prop
  | .absorbed f, .inl x => env.Reads f (.own x)
  | .terms ts, .inr xs => env.ShowsAll ts xs ∧ ∀ x ∈ xs, x.sort = .bool
  | _, _ => False

def ReadsAll (env : Environment) (fs : List BoolFormula) (rs : List Reading) : Prop :=
  List.Forall₂ env.Reads fs rs

theorem ReadsAll.advance {fs : List BoolFormula} {rs : List Reading} (h : env.ReadsAll fs rs)
    (henv : env.Proper) (ha : env.Advances env₁) : env₁.ReadsAll fs rs :=
  List.Forall₂.imp (fun _ _ hf => Reads.advance hf henv ha) h

theorem ShowsAll.mem_iff {ts : List Term} {xs : List Tree} (h : env.ShowsAll ts xs)
    (henv : env.Proper) (ht : env.Shows t x) : t ∈ ts ↔ x ∈ xs := by
  induction h with
  | nil => simp
  | @cons u y us ys hu _ ih =>
    have hsame : t = u ↔ x = y := by
      constructor
      · rintro rfl
        exact Option.some.inj (ht.symm.trans hu)
      · rintro rfl
        exact henv.wellFormed.tree?_injective ht hu
    simp [hsame, ih]

theorem computes_gather (j : Junction) (henv : env.Proper) {fs : List BoolFormula}
    {rs : List Reading} (h : env.ReadsAll fs rs) {seen : List Term} {xs : List Tree}
    (hseen : env.ShowsAll seen xs) (hxs : ∀ x ∈ xs, x.sort = .bool) :
    Computes env ReadsGathered (Boolean.gather j seen fs) (Tree.gather j xs rs) := by
  induction h generalizing seen xs with
  | nil =>
    refine .pure ⟨?_, by simpa using hxs⟩
    exact List.forall₂_reverse_iff.2 hseen
  | @cons f r fs rs hf _ ih =>
    unfold Boolean.gather Tree.gather
    refine hf.bind_unwrap fun x hx => ?_
    have ht : env.Shows f.term x := hx.2.1
    refine .ask_bind (ht.kind henv) ?_
    by_cases habs : x.kind = j.absorbing
    · simp only [if_pos habs]
      exact .pure hx
    · simp only [if_neg habs]
      by_cases hdrop : x.kind = j.neutral ∨ x ∈ xs
      · rw [if_pos (hdrop.imp_right (hseen.mem_iff henv ht).2), if_pos hdrop]
        exact ih hseen hxs
      · rw [if_neg fun h => hdrop (h.imp_right (hseen.mem_iff henv ht).1), if_neg hdrop]
        exact ih (.cons ht hseen) (by simpa [hx.2.2] using hxs)

theorem computes_settle (j : Junction) (henv : env.Proper) {out : Boolean.Gathered}
    {out' : Tree ⊕ List Tree} (hout : env.ReadsGathered out out') :
    Computes env Reads (Boolean.settle j out) (.ok (.own (Tree.join j out'))) := by
  match out, out', hout with
  | .absorbed f, .inl x, hf => exact computes_copy hf henv
  | .terms ts, .inr xs, ⟨hts, hxs⟩ =>
    match ts, xs, hts with
    | [], [], _ => exact computes_constant henv _
    | [t], [x], .cons ht .nil => exact computes_wrapBool henv ht (hxs x (by simp))
    | [t, u], [x, y], .cons ht (.cons hu .nil) =>
      exact computes_binary j henv ht hu (hxs x (by simp)) (hxs y (by simp))
    | t :: u :: v :: ts, x :: y :: z :: xs, hts =>
      exact (computes_junction j henv hts hxs (by simp)).bind_ok fun w env₁ ha hw =>
        computes_wrapBool (ha.proper henv) hw rfl

theorem computes_nary (j : Junction) (henv : env.Proper) {fs : List BoolFormula}
    {rs : List Reading} (h : env.ReadsAll fs rs) :
    Computes env Reads (Boolean.nary j fs) (do return .own (← Tree.nary j rs)) := by
  have hmap : (do return .own (← Tree.nary j rs) : Except Fault Reading) =
      do return .own (Tree.join j (← Tree.gather j [] rs)) := by
    unfold Tree.nary
    cases Tree.gather j [] rs <;> rfl
  rw [hmap, Boolean.nary_eq]
  exact (computes_gather j henv h .nil (by simp)).bind fun _ _ _ ha hout =>
    computes_settle j (ha.proper henv) hout

theorem computes_iff (henv : env.Proper) (hf : env.Reads f r) (hg : env.Reads g q) :
    Computes env Reads (Boolean.iff f g)
      (do return .own (.connective .iff [← r.unwrap, ← q.unwrap])) := by
  refine hf.bind_unwrap fun x ⟨_, ht, hx⟩ => hg.bind_unwrap fun y ⟨_, hu, hy⟩ => ?_
  refine (computes_connective henv (.pair ht hu) (by simp [hx, hy]) (.iff _ _) (by simp)).bind_ok
    fun v env₁ ha hv => computes_wrapBool (ha.proper henv) hv rfl

theorem computes_xor (henv : env.Proper) (hf : env.Reads f (.own x))
    (hg : env.Reads g (.own y)) :
    Computes env Reads (Boolean.xor f g)
      (.ok (.own (.connective .not [.connective .iff [x, y]]))) := by
  obtain ⟨hfo, ht, hx⟩ := hf
  obtain ⟨hgo, hu, hy⟩ := hg
  refine .ask_bind (if_pos hfo) (.ask_bind (if_pos hgo) ?_)
  refine (computes_connective henv (.pair ht hu) (by simp [hx, hy]) (.iff _ _) (by simp)).bind_ok
    fun v env₁ ha hv => ?_
  have henv₁ := ha.proper henv
  exact (computes_negation henv₁ hv rfl).bind_ok fun w env₂ ha₂ hw =>
    computes_wrapBool (ha₂.proper henv₁) hw rfl

theorem computes_implies (henv : env.Proper) (hf : env.Reads f r) (hg : env.Reads g q) :
    Computes env Reads (Boolean.implies f g)
      (do return .own (.connective .implies [← r.unwrap, ← q.unwrap])) := by
  refine hf.bind_unwrap fun x ⟨_, ht, hx⟩ => hg.bind_unwrap fun y ⟨_, hu, hy⟩ => ?_
  refine (computes_connective henv (.pair ht hu) (by simp [hx, hy]) (.implies _ _)
    (by simp)).bind_ok fun v env₁ ha hv => computes_wrapBool (ha.proper henv) hv rfl

theorem Shows.sort? (h : env.Shows t x) (henv : env.Proper) (hx : x.sort = .bool) :
    env.terms.sort? t = some .bool := by
  rw [henv.wellFormed.sort?_of_tree? h, hx]

theorem computes_choice {c : BoolFormula} {p : Reading} (henv : env.Proper) (hc : env.Reads c p)
    (hf : env.Reads f r) (hg : env.Reads g q) :
    Computes env ShowsBool (Boolean.choice c f.formula g.formula)
      (do return .connective .ite [← p.unwrap, ← r.unwrap, ← q.unwrap]) := by
  unfold Boolean.choice
  have htype : ¬f.formula.type ≠ g.formula.type := by simp [f.isBoolean, g.isBoolean]
  simp only [if_neg htype]
  refine hc.bind_unwrap fun x ⟨_, ht, hx⟩ => hf.bind_unwrap fun y ⟨_, hu, hy⟩ =>
    hg.bind_unwrap fun z ⟨_, hv, hz⟩ => ?_
  have hsorts : ∀ s ∈ [f.term, g.term], env.terms.sort? s = some .bool := by
    simp [hu.sort? henv hy, hv.sort? henv hz]
  have hb := Build.ite_of_sorts (ht.sort? henv hx) hsorts
  have hargs : env.ShowsAll [c.term, f.term, g.term] [x, y, z] :=
    .cons ht (.cons hu (.cons hv .nil))
  exact (computes_build henv hb (.ite _ _ _) hargs (by simp)).mono fun _ _ h => ⟨h, rfl⟩

theorem computes_ite {c : BoolFormula} {p : Reading} (henv : env.Proper) (hc : env.Reads c p)
    (hf : env.Reads f r) (hg : env.Reads g q) :
    Computes env Reads (Boolean.iteBool c f g)
      (do return .own (.connective .ite [← p.unwrap, ← r.unwrap, ← q.unwrap])) := by
  have hsplit : (do return .own (.connective .ite [← p.unwrap, ← r.unwrap, ← q.unwrap]) :
      Except Fault Reading) =
      (do return .connective .ite [← p.unwrap, ← r.unwrap, ← q.unwrap]) >>= fun x =>
        pure (.own x) := by
    cases p.unwrap <;> cases r.unwrap <;> cases q.unwrap <;> rfl
  rw [hsplit]
  exact (computes_choice henv hc hf hg).bind fun t x env₁ ha ht =>
    computes_wrapBool (ha.proper henv) ht.1 ht.2

/-- The same quantifier over another body. -/
theorem computes_rebuild {qu : Quantifier} {vars : List (String × TermSort)} {x : Tree}
    (henv : env.Proper) (hf : env.Reads f (.own x)) (hx : x.label = .op (.quantifier qu vars))
    (hg : env.Reads g q) :
    Computes env Reads (f.rebuildQuantifier g)
      (do return .own (.connective (.quantifier qu vars) [← q.unwrap])) := by
  refine .ask_bind (if_pos hf.1) ?_
  refine hg.bind_unwrap fun y ⟨_, hu, hy⟩ => ?_
  obtain ⟨n, hn, hl, hk, hargs⟩ := hf.2.1.node henv
  obtain ⟨ks, hks, hop⟩ := henv.wellFormed.fits hn
  have hnop : n.op = .quantifier qu vars := (Store.label_eq_op hop (hl.trans hx)).symm
  rw [hnop] at hop
  obtain ⟨a, ha⟩ : ∃ a, n.args = [a] := List.length_eq_one_iff.1 (by
    rw [List.Forall₂.length_eq hks, hop.2.1]
    rfl)
  have hab : env.terms.sort? a = some .bool := by
    rw [ha, hop.2.1] at hks
    cases hks with
    | cons h _ => exact h
  have hb : Build.replaceChildren f.term [g.term] env.terms =
      .ok (env.terms.intern { n with args := [g.term] }) := by
    apply Build.replaceChildren_eq_ok hn
    rw [ha]
    exact .cons ⟨.bool, hab, hu.sort? henv hy⟩ .nil
  refine (computes_build henv hb (.replaceChildren _ _) (.singleton hu) (by simp [hnop])).bind_ok
    fun t env₁ ha₁ ht => ?_
  have hsame : Tree.node (.op n.op) n.sort [y] = .connective (.quantifier qu vars) [y] := by
    rw [hnop, hk, hf.2.2]
    rfl
  simp only [hsame] at ht
  exact computes_wrapBool (ha₁.proper henv) ht rfl

end Environment
end FormulaStack
