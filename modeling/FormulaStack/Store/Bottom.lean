import FormulaStack.Store

/-!
Recursion over shared terms. A table holds one delayed result for each node, computed from the
results for its arguments, so no node is worked on twice and none that is not asked for.
-/
namespace FormulaStack.Store

/-- One more row of a table. -/
def addRow (step : Term → Node → List β → β) (rows : Array (Thunk β)) (n : Node) :
    Array (Thunk β) :=
  let t : Term := ⟨rows.size⟩
  let args := n.args.filterMap fun a => rows[a.index]?
  rows.push (Thunk.mk fun _ => step t n (args.map Thunk.get))

/-- The results for the first `count` nodes. -/
def rows (s : Store) (step : Term → Node → List β → β) (count : Nat) : Array (Thunk β) :=
  (s.nodes.toList.take count).foldl (addRow step) #[]

/-- The result for a term, from those for its arguments. -/
def bottomUp? (s : Store) (step : Term → Node → List β → β) (t : Term) : Option β :=
  (s.rows step (t.index + 1))[t.index]?.map Thunk.get

@[simp] theorem size_addRow (step : Term → Node → List β → β) (rows : Array (Thunk β)) (n : Node) :
    (addRow step rows n).size = rows.size + 1 := by
  simp [addRow]

theorem rows_succ {s : Store} {step : Term → Node → List β → β} {i : Nat} {n : Node}
    (h : s.nodes[i]? = some n) : s.rows step (i + 1) = addRow step (s.rows step i) n := by
  have hn : s.nodes.toList[i]? = some n := by simpa using h
  simp [rows, List.take_add_one, hn]

theorem size_rows {s : Store} {step : Term → Node → List β → β} {count : Nat}
    (h : count ≤ s.nodes.size) : (s.rows step count).size = count := by
  induction count with
  | zero => simp [rows]
  | succ i ih =>
    rw [rows_succ (Array.getElem?_eq_getElem h), size_addRow, ih (by omega)]

theorem getElem?_rows_of_le {s : Store} {step : Term → Node → List β → β} {i j k : Nat}
    (hi : i < j) (hj : j ≤ k) (hk : k ≤ s.nodes.size) :
    (s.rows step k)[i]? = (s.rows step j)[i]? := by
  induction k with
  | zero => omega
  | succ k ih =>
    obtain rfl | hjk := Nat.eq_or_lt_of_le hj
    · rfl
    · rw [rows_succ (Array.getElem?_eq_getElem hk), addRow,
        Array.getElem?_push_lt (by rw [size_rows (by omega)]; omega), ← ih (by omega) (by omega),
        Array.getElem?_eq_getElem]

/-- A row holds the step applied to the rows of the arguments, as far as these are older. -/
theorem bottomUp?_eq {s : Store} {step : Term → Node → List β → β} {t : Term} {n : Node}
    (h : s.node? t = some n) (older : ∀ a ∈ n.args, a.index < t.index) :
    s.bottomUp? step t = some (step t n (n.args.filterMap (s.bottomUp? step))) := by
  have hs : t.index < s.nodes.size := (Array.getElem?_eq_some_iff.1 h).1
  have hr : s.rows step (t.index + 1) = addRow step (s.rows step t.index) n := rows_succ h
  have size : (s.rows step t.index).size = t.index := size_rows (by omega)
  have args : ∀ ts : List Term, (∀ a ∈ ts, a.index < t.index) →
      (ts.filterMap fun a => (s.rows step t.index)[a.index]?).map Thunk.get =
        ts.filterMap (s.bottomUp? step) := by
    intro ts hts
    induction ts with
    | nil => rfl
    | cons a ts ih =>
      have ha : s.bottomUp? step a = (s.rows step t.index)[a.index]?.map Thunk.get := by
        rw [bottomUp?, ← getElem?_rows_of_le (Nat.lt_succ_self _) (hts a (by simp)) (by omega)]
      have ih := ih fun b hb => hts b (by simp [hb])
      cases hr : (s.rows step t.index)[a.index]? <;> simp_all
  have row : ∀ x : Thunk β, ((s.rows step t.index).push x)[t.index]? = some x := by
    intro x
    rw [Array.getElem?_push, if_pos size.symm]
  rw [bottomUp?, hr, addRow, row, args _ older, size]
  rfl

end FormulaStack.Store
