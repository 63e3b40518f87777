import FormulaStack.Proofs.Canonicity
import FormulaStack.Proofs.Exactness
import FormulaStack.Proofs.Feasibility

/-!
Sorts of values. Nodes fit their operators, however a store came about, so folding looks for no
operand that is not there, and a value that it finds is of the sort of the term.
-/
namespace FormulaStack

namespace Value

/-- The values of a sort. An array sort has none. -/
inductive Belongs : TermSort → Value → Prop
  | truth (b : Bool) : Belongs .bool (.truth b)
  | integer (z : Int) : Belongs .int (.number z)
  | rational (q : Rat) : Belongs .real (.number q)
  | bits {w n : Nat} (h : n < 2 ^ w) : Belongs (.bitvec w) (.bits n)

/-- What may be known of a term of a sort. -/
def Fits (k : TermSort) (v? : Option Value) : Prop := ∀ v, v? = some v → Belongs k v

variable {k : TermSort} {ks : List TermSort} {v : Value} {q : Rat} {vs : List (Option Value)}

theorem fits_none : Fits k none := nofun

theorem belongs_number : Belongs k (.number q) ↔ Of k (.number q) := by
  constructor
  · intro h
    cases h with
    | integer z => exact .integer z
    | rational q => exact .rational q
  · intro h
    cases h with
    | integer z => exact .integer z
    | rational q => exact .rational q

theorem Of.belongs (h : Of k v) : Belongs k v := by
  cases h with
  | truth b => exact .truth b
  | integer z => exact .integer z
  | rational q => exact .rational q

theorem fits_map_truth {α : Type} {x : Option α} {f : α → Bool} :
    Fits .bool (x.map fun a => .truth (f a)) := by
  intro v hv
  obtain ⟨a, -, rfl⟩ := Option.map_eq_some_iff.1 hv
  exact .truth (f a)

/-- A value has a literal of its sort, unless that is the sort of vectors of no bits. -/
theorem Belongs.exists_literal (h : v.Belongs k) (hk : k ≠ .bitvec 0) (s : Store) :
    ∃ t u, v.literal k s = .ok (t, u) ∧ u.sort? t = some k := by
  cases h with
  | truth b => exact ⟨_, _, rfl, s.sort?_intern _⟩
  | integer z =>
    refine ⟨_, _, ?_, s.sort?_intern ⟨.int z, [], .int⟩⟩
    rw [literal, Build.numeral, if_pos (Rat.den_intCast z), Rat.num_intCast]
    rfl
  | rational q => exact ⟨_, _, rfl, s.sort?_intern _⟩
  | @bits w n hn =>
    have hw : w ≠ 0 := fun hw => hk (by rw [hw])
    refine ⟨_, _, ?_, s.sort?_intern ⟨.bits ((n : Int) % Int.pow 2 w).toNat w, [], .bitvec w⟩⟩
    rw [literal, Build.bits, if_neg hw]
    rfl

theorem fits_default : Fits k (default? k) := by
  intro v hv
  cases k with
  | bool => cases hv; exact .truth false
  | int => cases hv; exact .integer 0
  | real => cases hv; exact .rational 0
  | bitvec w => cases hv; exact .bits (Nat.two_pow_pos w)
  | array => cases hv

theorem fits_all : Fits .bool (all vs) := by
  intro v hv
  unfold all at hv
  split at hv
  · cases hv; exact .truth false
  · split at hv
    · cases hv; exact .truth true
    · cases hv

theorem fits_any : Fits .bool (any vs) := by
  intro v hv
  unfold any at hv
  split at hv
  · cases hv; exact .truth true
  · split at hv
    · cases hv; exact .truth false
    · cases hv

theorem fits_implies {a b : Option Value} : Fits .bool (implies a b) := by
  intro v hv
  unfold implies at hv
  split at hv
  · cases hv; exact .truth true
  · cases hv; exact .truth true
  · cases hv; exact .truth false
  · cases hv

theorem fits_equal {a b : Term} {v w : Option Value} :
    Fits .bool
      (if a = b then some (.truth true) else do some (.truth (decide ((← v) = (← w))))) := by
  split
  · exact fun _ h => Option.some.inj h ▸ .truth true
  · intro x hx
    obtain ⟨y, -, hx⟩ := Option.bind_eq_some_iff.1 hx
    obtain ⟨z, -, hx⟩ := Option.bind_eq_some_iff.1 hx
    cases hx
    exact .truth _

theorem fits_choice {a b : Term} {c v w : Option Value} (hv : Fits k v) (hw : Fits k w) :
    Fits k (match truth? c with
      | some true => v
      | some false => w
      | none => if a = b then v else none) := by
  split
  · exact hv
  · exact hw
  · split
    · exact hv
    · exact fits_none

theorem eq_pair_of_fits {l : TermSort} (h : List.Forall₂ Fits [k, l] vs) :
    ∃ v w, vs = [v, w] ∧ Fits k v ∧ Fits l w := by
  obtain ⟨v, _, hv, hrest, rfl⟩ := List.forall₂_cons_left_iff.1 h
  obtain ⟨w, _, hw, hnil, rfl⟩ := List.forall₂_cons_left_iff.1 hrest
  cases hnil
  exact ⟨v, w, rfl, hv, hw⟩

/-- The numbers that are known of operands. -/
theorem numbers_of_fits {qs : List Rat} (h : List.Forall₂ Fits ks vs)
    (hq : vs.mapM number? = some qs) : List.Forall₂ (fun k q => Of k (.number q)) ks qs := by
  refine (forall₂_comp h.flip (mapM_eq_some.1 hq)).imp fun k q ⟨v?, hv, hnumber⟩ => ?_
  match v?, hnumber with
  | some (.number p), rfl => exact belongs_number.1 (hv _ rfl)

/-- What is known of a node fits its sort, if that is so for its operands. -/
theorem fits_ofNode {decl? : FuncDecl → Option Signature} {complete : Bool} {t : Term} {n : Node}
    (hn : n.op.Fits decl? ks n.sort) (hvs : List.Forall₂ Fits ks vs) :
    Fits n.sort (ofNode complete t n vs) := by
  obtain ⟨op, args, k⟩ := n
  cases op with
  | true | false =>
    obtain ⟨-, rfl⟩ := hn
    intro v hv
    cases hv
    exact .truth _
  | int z =>
    obtain ⟨-, rfl⟩ := hn
    intro v hv
    cases hv
    exact .integer z
  | real q =>
    obtain ⟨-, rfl⟩ := hn
    intro v hv
    cases hv
    exact .rational q
  | bits value width =>
    obtain ⟨-, -, hlt, rfl⟩ := hn
    intro v hv
    cases hv
    exact .bits hlt
  | apply d =>
    cases args with
    | nil =>
      cases complete with
      | false => exact fits_none
      | true => exact fits_default
    | cons => exact fits_none
  | not =>
    obtain ⟨rfl, rfl⟩ := hn
    obtain ⟨v, _, -, hnil, rfl⟩ := List.forall₂_cons_left_iff.1 hvs
    cases hnil
    exact fits_map_truth
  | and =>
    obtain ⟨-, -, rfl⟩ := hn
    exact fits_all
  | or =>
    obtain ⟨-, -, rfl⟩ := hn
    exact fits_any
  | implies =>
    obtain ⟨rfl, rfl⟩ := hn
    obtain ⟨v, w, rfl, -⟩ := eq_pair_of_fits hvs
    exact fits_implies
  | iff =>
    obtain ⟨rfl, rfl⟩ := hn
    obtain ⟨v, w, rfl, -⟩ := eq_pair_of_fits hvs
    match args with
    | [a, b] => exact fits_equal
    | [] | [_] | _ :: _ :: _ :: _ => exact fits_none
  | eq =>
    obtain ⟨⟨l, rfl⟩, rfl⟩ := hn
    obtain ⟨v, w, rfl, -⟩ := eq_pair_of_fits hvs
    match args with
    | [a, b] => exact fits_equal
    | [] | [_] | _ :: _ :: _ :: _ => exact fits_none
  | distinct =>
    obtain ⟨-, -, rfl⟩ := hn
    exact fits_map_truth
  | ite =>
    obtain rfl : ks = [.bool, k, k] := hn
    obtain ⟨c, _, -, hrest, rfl⟩ := List.forall₂_cons_left_iff.1 hvs
    obtain ⟨v, w, rfl, hv, hw⟩ := eq_pair_of_fits hrest
    match args with
    | [_, a, b] => exact fits_choice hv hw
    | [] | [_] | [_, _] | _ :: _ :: _ :: _ :: _ => exact fits_none
  | arith op =>
    intro v hv
    obtain ⟨qs, hqs, hv⟩ := Option.bind_eq_some_iff.1 hv
    exact (op.of_arith hn (numbers_of_fits hvs hqs) hv).belongs
  | bound _ | quantifier _ _ | bitwise _ | extract _ _ | select | store | constArray =>
    exact fits_none

/-- The value of a node from those of its operands, where the operator looks operands up by their
places. There is no answer if it looks past the last one. -/
def ofPlaces? (complete : Bool) (t : Term) (n : Node) (vs : List (Option Value)) :
    Option (Option Value) :=
  match n.op with
  | .not => do
    let v ← vs[0]?
    return (truth? v).map fun b => .truth !b
  | .ite => do
    let c ← vs[0]?
    match truth? c with
    | some true => vs[1]?
    | some false => vs[2]?
    | none => if (← n.args[1]?) = (← n.args[2]?) then vs[1]? else return none
  | _ => some (ofNode complete t n vs)

/-- A node that fits its operator has all operands that are looked up. -/
theorem ofPlaces?_eq {decl? : FuncDecl → Option Signature} {complete : Bool} {t : Term} {n : Node}
    (hn : n.op.Fits decl? ks n.sort) (hargs : n.args.length = ks.length)
    (hvs : vs.length = ks.length) :
    ofPlaces? complete t n vs = some (ofNode complete t n vs) := by
  obtain ⟨op, args, k⟩ := n
  cases op with
  | not =>
    obtain ⟨rfl, -⟩ := hn
    obtain ⟨v, rfl⟩ := List.length_eq_one_iff.1 hvs
    rfl
  | ite =>
    obtain rfl : ks = [.bool, k, k] := hn
    obtain ⟨x, a, b, rfl⟩ := List.length_eq_three.1 hargs
    obtain ⟨c, v, w, rfl⟩ := List.length_eq_three.1 hvs
    change (match truth? c with
      | some true => some v
      | some false => some w
      | none => if a = b then some v else some none) = some (match truth? c with
      | some true => v
      | some false => w
      | none => if a = b then v else none)
    rcases truth? c with _ | _ | _
    · exact (apply_ite some (a = b) v none).symm
    · rfl
    · rfl
  | _ => rfl

end Value

namespace Store

variable {s : Store} {t : Term} {n : Node} {complete : Bool}

/-- Folding that looks operands up by their places; none if there is no such operand or term. -/
def foldByPlaces? (s : Store) (complete : Bool) (t : Term) : Option (Option Value) :=
  (s.bottomUp? (fun t n vs => do Value.ofPlaces? complete t n (← vs.mapM id)) t).join

/-- A value that folding finds is of the sort of the term. -/
theorem WellFormed.fits_fold (hs : s.WellFormed) (ht : s.node? t = some n) :
    Value.Fits n.sort (s.fold complete t) := by
  refine hs.induction ht fun t n ht ih => ?_
  obtain ⟨ks, hks, hfit⟩ := hs.fits ht
  have hargs : ∀ a ∈ n.args, ∀ k, s.sort? a = some k → Value.Fits k (s.fold complete a) := by
    intro a ha k hk
    obtain ⟨m, hm, rfl⟩ := Option.map_eq_some_iff.1 hk
    exact ih a ha m hm
  have hvalues : List.Forall₂ (fun a k => Value.Fits k (s.fold complete a)) n.args ks :=
    ((List.forall₂_and_left n.args ks).2 ⟨hargs, hks⟩).imp fun _ k h => h.1 k h.2
  rw [hs.fold_eq complete ht]
  exact Value.fits_ofNode hfit (List.forall₂_map_right_iff.2 hvalues.flip)

/-- Folding looks for no operand that is not there. -/
theorem WellFormed.foldByPlaces?_eq (hs : s.WellFormed) (ht : s.node? t = some n) :
    s.foldByPlaces? complete t = some (s.fold complete t) := by
  refine hs.induction ht fun t n ht ih => ?_
  obtain ⟨vs, hvs, hv⟩ := hs.bottomUp?
    (fun t n vs => do Value.ofPlaces? complete t n (← vs.mapM id)) ht
  obtain ⟨ks, hks, hfit⟩ := hs.fits ht
  obtain rfl : vs = n.args.map (s.foldByPlaces? complete) := hvs.eq_map fun a v ha => by
    rw [foldByPlaces?, ha, Option.join_some]
  have hargs : (n.args.map (s.foldByPlaces? complete)).mapM id =
      some (n.args.map (s.fold complete)) := by
    have hfold : ∀ a ∈ n.args, s.foldByPlaces? complete a = some (s.fold complete a) := by
      intro a ha
      obtain ⟨m, hm⟩ := hks.node? a ha
      exact ih a ha m hm
    rw [List.map_congr_left hfold, List.mapM_map]
    exact List.mapM_pure
  have hlength : n.args.length = ks.length := hks.length_eq
  rw [foldByPlaces?, hv, Option.join_some, hs.fold_eq complete ht, hargs]
  exact Value.ofPlaces?_eq hfit hlength ((List.length_map _).trans hlength)

/-- Terms are sorted: every node fits its operator, and folding finds the operands that it looks
for and, if any, a value of the sort of the term. -/
structure Sorted (s : Store) : Prop where
  fits : ∀ t n, s.node? t = some n →
    ∃ sorts, s.Sorts n.args sorts ∧ n.op.Fits s.decl? sorts n.sort
  found : ∀ complete t n, s.node? t = some n →
    s.foldByPlaces? complete t = some (s.fold complete t)
  values : ∀ complete t n v, s.node? t = some n → s.fold complete t = some v → v.Belongs n.sort

theorem WellFormed.sorted (hs : s.WellFormed) : s.Sorted :=
  ⟨fun _ _ ht => hs.fits ht, fun _ _ _ ht => hs.foldByPlaces?_eq ht,
    fun _ _ _ v ht hv => hs.fits_fold ht v hv⟩

end Store

namespace Client

variable {c : Client} {i j : Nat} {x : Context}

/-- Whatever expressions a client has its managers build, and whatever it then asks of a store, the
terms are sorted. -/
theorem terms_sorted (hc : Reachable c) (i : Nat) (es : List Expression) (j : Nat)
    (hx : ((Expression.buildAll i es).exec c.world).2.contexts[j]? = some x)
    (requests : List Store.Request) : (x.env.terms.serveAll requests).Sorted := by
  obtain ⟨d, hrun, hd, -⟩ := @Expression.buildAll_feasible i [] es c hc
    fun _ hf => (List.not_mem_nil hf).elim
  rw [← hd] at hx
  have hreachable : Reachable d := hc.trans hrun
  have hterms := (hreachable.valid.sound.context j x hx).wellFormed
  exact ((Store.grows_serveAll _ requests).wellFormed hterms).sorted

/-- A client with a vector of bits. -/
def equipped : Client :=
  start.afterAll [.addContext .everything false false default none,
    .constant 0 (.bitvector 8) "v"]

/-- A choice between that vector and a literal, by a comparison that folding decides. The value of
the literal is reduced to its width. -/
theorem terms_sorted_chosen :
    let zeroIsLess : Expression := .binary (.comparison .rationals .lt)
      (.literal (.number .integers 0)) (.literal (.number .rationals (1 / 2)))
    let chosen : List Store.Request := [.construct (.bits 300 8), .construct (.ite ⟨4⟩ ⟨5⟩ ⟨0⟩)]
    ∃ x, ((Expression.buildAll 0 [zeroIsLess]).exec equipped.world).2.contexts[0]? = some x ∧
      (x.env.terms.serveAll chosen).foldByPlaces? false ⟨6⟩ = some (some (.bits 44)) ∧
      Value.Belongs (.bitvec 8) (.bits 44) := by
  intro zeroIsLess chosen
  have hcontext : (((Expression.buildAll 0 [zeroIsLess]).exec equipped.world).2.contexts[0]?).map
      (fun x => (((x.env.terms.serveAll chosen).node? ⟨6⟩).map fun n => n.sort,
        (x.env.terms.serveAll chosen).fold false ⟨6⟩)) =
      some (some (.bitvec 8), some (.bits 44)) := by
    decide +kernel
  obtain ⟨x, hx, h⟩ := Option.map_eq_some_iff.1 hcontext
  simp only [Prod.mk.injEq] at h
  obtain ⟨hsort, hfold⟩ := h
  obtain ⟨n, hn, hsort⟩ := Option.map_eq_some_iff.1 hsort
  have hreachable : Reachable equipped := run_afterAll start _
  have hsorted := terms_sorted hreachable 0 [zeroIsLess] 0 hx chosen
  refine ⟨x, hx, ?_, ?_⟩
  · rw [hsorted.found false ⟨6⟩ n hn, hfold]
  · rw [← hsort]
    exact hsorted.values false ⟨6⟩ n _ hn hfold

end Client
end FormulaStack
