import FormulaStack.Numeral
import FormulaStack.Proofs.Traversals
import Mathlib.Data.List.Induction
import Mathlib.Data.List.TakeWhile
import Mathlib.Data.Nat.Digits.Defs
import Mathlib.Data.Rat.Defs
import Mathlib.Tactic.FieldSimp
import Mathlib.Tactic.Ring

/-!
Which texts are numbers. A text should be an integer, a fraction or a decimal with white space
around it. The reader takes all of these, with the numbers that they write; but it also takes
underscores behind the first digit of an integer, and decimals with too many signs, since it removes
every minus sign in front of a decimal and the point before it looks for a sign.
-/
namespace FormulaStack

namespace Text

def digitValue (c : Char) : Nat := c.toNat - '0'.toNat

/-- The number that digits write, the most significant first. -/
def worth (ds : List Char) : Nat := Nat.ofDigits 10 (ds.reverse.map digitValue)

theorem worth_append (cs ds : List Char) :
    worth (cs ++ ds) = worth cs * 10 ^ ds.length + worth ds := by
  simp [worth, Nat.ofDigits_append]
  ring

theorem ofDigits_eq_worth (ds : List Char) : ofDigits 10 (ds.map digitValue) = worth ds := by
  induction ds using List.reverseRecOn with
  | nil => rfl
  | append_singleton ds d ih =>
    rw [List.map_append, List.map_singleton, ofDigits_append_singleton, ih, worth_append]
    simp [worth]

/-! The numbers that texts write -/

/-- A sign that may be left out, and its factor. -/
inductive Sign : List Char → Int → Prop
  | none : Sign [] 1
  | plus : Sign ['+'] 1
  | minus : Sign ['-'] (-1)

/-- A number after a sign. `D` says how the number is written. -/
inductive Signed (D : List Char → Nat → Prop) : List Char → Int → Prop
  | intro {sign ds : List Char} {σ : Int} {n : Nat} (hsign : Sign sign σ) (hds : D ds n) :
    Signed D (sign ++ ds) (σ * n)

/-- An integer, a fraction of integers, or two texts with a point between them. -/
inductive Number (D : List Char → Nat → Prop) (P : List Char → List Char → Rat → Prop) :
    List Char → Rat → Prop
  | integer {cs : List Char} {z : Int} (h : Signed D cs z) : Number D P cs z
  | fraction {ns ds : List Char} {n d : Int} (hn : Signed D ns n) (hd : Signed D ds d)
    (hne : d ≠ 0) : Number D P (ns ++ '/' :: ds) (n / d)
  | decimal {whole decimals : List Char} {q : Rat} (h : P whole decimals q) :
    Number D P (whole ++ '.' :: decimals) q

/-- One digit or more. -/
structure Digits (ds : List Char) (n : Nat) : Prop where
  nonempty : ds ≠ []
  digits : ∀ c ∈ ds, c.isDigit = true
  value : n = worth ds

/-- At most one sign, and digits before the point or behind it. -/
inductive Decimal : List Char → List Char → Rat → Prop
  | intro {sign whole decimals : List Char} {σ : Int} (hsign : Sign sign σ)
    (hwhole : ∀ c ∈ whole, c.isDigit = true) (hdecimals : ∀ c ∈ decimals, c.isDigit = true)
    (hne : whole ++ decimals ≠ []) :
    Decimal (sign ++ whole) decimals (σ * (worth whole + worth decimals / 10 ^ decimals.length))

/-- A text writes a number. -/
abbrev Writes : List Char → Rat → Prop := Number Digits Decimal

/-! The numbers that are read -/

/-- Digits, with underscores behind the first. -/
structure Spaced (ds : List Char) (n : Nat) : Prop where
  head : ∃ c ∈ ds.head?, c.isDigit = true
  digits : ∀ c ∈ ds, c.isDigit = true ∨ c = '_'
  value : n = worth (ds.filter (· ≠ '_'))

/-- Minus signs before what would be an integer if the point were left out. -/
inductive Spliced : List Char → List Char → Rat → Prop
  | intro {minuses whole decimals : List Char} {z : Int} (hminuses : ∀ c ∈ minuses, c = '-')
    (hwhole : whole.head? ≠ some '-') (hz : Signed Spaced (whole ++ decimals) z) :
    Spliced (minuses ++ whole) decimals
      ((if minuses = [] then 1 else -1) * z / 10 ^ decimals.length)

abbrev Reads : List Char → Rat → Prop := Number Spaced Spliced

section

variable {cs ds ns whole decimals : List Char} {c : Char} {n : Nat} {z : Int} {q : Rat}

theorem dropWhile_eq_self {p : Char → Bool} (h : ∀ c ∈ cs.head?, p c = false) :
    cs.dropWhile p = cs := by
  cases cs with
  | nil => rfl
  | cons c cs => exact List.dropWhile_cons_of_neg (by simp [h c rfl])

theorem head_dropWhile (p : Char → Bool) (cs : List Char) :
    ∀ c ∈ (cs.dropWhile p).head?, p c = false := by
  intro c hc
  have hstop := List.head?_dropWhile_not p cs
  rwa [Option.mem_def.1 hc] at hstop

theorem digit?_eq_some : digit? c = some n ↔ c.isDigit = true ∧ digitValue c = n := by
  simp [digit?, digitValue]

theorem mapM_digit?_eq_some {ns : List Nat} :
    cs.mapM digit? = some ns ↔ (∀ c ∈ cs, c.isDigit = true) ∧ cs.map digitValue = ns := by
  simp only [mapM_eq_some, digit?_eq_some, List.forall₂_and_left]
  rw [← List.forall₂_map_left_iff, List.forall₂_eq_eq_eq]

theorem separated?_eq_some : separated? cs = some n ↔ Spaced cs n := by
  have hread : ((cs.filter (· ≠ '_')).mapM digit?).map (ofDigits 10) = some n ↔
      (∀ c ∈ cs, c.isDigit = true ∨ c = '_') ∧ worth (cs.filter (· ≠ '_')) = n := by
    simp only [Option.map_eq_some_iff, mapM_digit?_eq_some, List.mem_filter, decide_eq_true_eq,
      and_imp]
    constructor
    · rintro ⟨_, ⟨hcs, rfl⟩, hn⟩
      refine ⟨fun c hc => ?_, (ofDigits_eq_worth _).symm.trans hn⟩
      by_cases hunderscore : c = '_'
      · exact .inr hunderscore
      · exact .inl (hcs c hc hunderscore)
    · rintro ⟨hcs, hn⟩
      exact ⟨_, ⟨fun c hc hne => (hcs c hc).resolve_right hne, rfl⟩,
        (ofDigits_eq_worth _).trans hn⟩
  unfold separated?
  split
  · exact ⟨nofun, fun h => by simpa using h.head⟩
  · exact ⟨nofun, fun h => by simpa using h.head⟩
  · next hnil hunderscore =>
    refine hread.trans ⟨fun h => ⟨?_, h.1, h.2.symm⟩, fun h => ⟨h.digits, h.value.symm⟩⟩
    cases cs with
    | nil => exact (hnil rfl).elim
    | cons c cs =>
      have hc : c ≠ '_' := fun hc => hunderscore cs (hc ▸ rfl)
      exact ⟨c, rfl, (h.1 c List.mem_cons_self).resolve_right hc⟩

theorem integer?_eq_some : integer? cs = some z ↔ Signed Spaced cs z := by
  constructor
  · intro h
    unfold integer? at h
    split at h
    all_goals
      simp only [Option.map_eq_some_iff, Option.bind_eq_bind, Option.bind_eq_some_iff,
        Option.pure_def, Option.some.injEq] at h
      obtain ⟨_, ⟨n, hn, rfl⟩, rfl⟩ := h
      have hspaced := separated?_eq_some.1 hn
    · simpa using Signed.intro .minus hspaced
    · simpa using Signed.intro .plus hspaced
    · simpa using Signed.intro .none hspaced
  · rintro ⟨hsign, hds⟩
    have hn := separated?_eq_some.2 hds
    cases hsign with
    | plus => simp [integer?, hn]
    | minus => simp [integer?, hn]
    | none =>
      obtain ⟨c, hc, hdigit⟩ := hds.head
      rw [List.nil_append]
      unfold integer?
      split
      · cases hc
        cases hdigit
      · cases hc
        cases hdigit
      · simp [hn]

/-- The first occurrence of a character. -/
theorem splitAt?_append (hns : c ∉ ns) (ds : List Char) :
    splitAt? c (ns ++ c :: ds) = some (ns, ds) := by
  have hbefore : ∀ x ∈ ns, decide (x ≠ c) = true := fun x hx =>
    decide_eq_true fun hxc => hns (hxc ▸ hx)
  unfold splitAt?
  rw [List.dropWhile_append_of_pos hbefore, List.takeWhile_append_of_pos hbefore]
  simp

theorem splitAt?_eq_none : splitAt? c cs = none ↔ c ∉ cs := by
  unfold splitAt?
  split
  · next h =>
    have hbefore := List.dropWhile_eq_nil_iff.1 h
    refine ⟨fun _ hc => ?_, fun _ => rfl⟩
    simpa using hbefore c hc
  · next x rest h =>
    refine ⟨nofun, fun hc => ?_⟩
    have hall : ∀ x ∈ cs, decide (x ≠ c) = true := fun x hx =>
      decide_eq_true fun hxc => hc (hxc ▸ hx)
    cases h.symm.trans (List.dropWhile_eq_nil_iff.2 hall)

theorem eq_append_of_splitAt? (h : splitAt? c cs = some (ns, ds)) :
    cs = ns ++ c :: ds ∧ c ∉ ns := by
  unfold splitAt? at h
  split at h
  · cases h
  · next x rest hrest =>
    cases h
    have hx : x = c := by
      simpa using head_dropWhile (· ≠ c) cs x (by rw [hrest]; rfl)
    subst hx
    refine ⟨?_, fun hc => ?_⟩
    · rw [← hrest, List.takeWhile_append_dropWhile]
    · simpa using List.mem_takeWhile_imp hc

theorem fraction?_eq_some :
    fraction? ns ds = some q ↔
      ∃ n d : Int, Signed Spaced ns n ∧ Signed Spaced ds d ∧ d ≠ 0 ∧ q = n / d := by
  simp only [fraction?, Option.bind_eq_bind, Option.bind_eq_some_iff, integer?_eq_some]
  constructor
  · rintro ⟨n, hn, d, hd, h⟩
    split at h
    · cases h
    · next hne => exact ⟨n, d, hn, hd, hne, (Option.some.inj h).symm⟩
  · rintro ⟨n, d, hn, hd, hne, rfl⟩
    exact ⟨n, hn, d, hd, if_neg hne⟩

theorem exists_minuses (whole : List Char) : ∃ minuses rest, whole = minuses ++ rest ∧
    (∀ c ∈ minuses, c = '-') ∧ rest.head? ≠ some '-' := by
  refine ⟨whole.takeWhile (· == '-'), whole.dropWhile (· == '-'),
    List.takeWhile_append_dropWhile.symm, fun c hc => ?_, fun hhead => ?_⟩
  · simpa using List.mem_takeWhile_imp hc
  · cases head_dropWhile (· == '-') whole '-' hhead

theorem decimal?_append {minuses : List Char} (hminuses : ∀ c ∈ minuses, c = '-')
    (hwhole : whole.head? ≠ some '-') :
    decimal? (minuses ++ whole) decimals = (integer? (whole ++ decimals)).map fun z : Int =>
      (if minuses = [] then 1 else -1) * (z : Rat) / 10 ^ decimals.length := by
  have hdrop : (minuses ++ whole).dropWhile (· == '-') = whole := by
    rw [List.dropWhile_append_of_pos fun c hc => beq_iff_eq.2 (hminuses c hc)]
    cases whole with
    | nil => rfl
    | cons c whole => exact List.dropWhile_cons_of_neg (by simpa using hwhole)
  have hhead : (minuses ++ whole).head? = some '-' ↔ minuses ≠ [] := by
    cases minuses with
    | nil => simpa using hwhole
    | cons c minuses => simp [hminuses c]
  unfold decimal?
  simp only [hdrop, hhead]
  cases integer? (whole ++ decimals) with
  | none => rfl
  | some z => by_cases hne : minuses = [] <;> simp [hne, neg_div]

theorem decimal?_eq_some : decimal? whole decimals = some q ↔ Spliced whole decimals q := by
  constructor
  · intro h
    obtain ⟨minuses, rest, rfl, hminuses, hrest⟩ := exists_minuses whole
    rw [decimal?_append hminuses hrest] at h
    obtain ⟨z, hz, rfl⟩ := Option.map_eq_some_iff.1 h
    exact .intro hminuses hrest (integer?_eq_some.1 hz)
  · rintro ⟨hminuses, hwhole, hz⟩
    rw [decimal?_append hminuses hwhole, integer?_eq_some.2 hz]
    rfl

/-! White space -/

/-- What is left of a text without the white space around it. -/
structure Trims (text : String) (cs : List Char) : Prop where
  around : ∃ before behind, text.toList = before ++ cs ++ behind ∧
    (∀ c ∈ before, isBlank c = true) ∧ ∀ c ∈ behind, isBlank c = true
  head : ∀ c ∈ cs.head?, isBlank c = false
  last : ∀ c ∈ cs.getLast?, isBlank c = false

theorem trimBlank_append {before behind : List Char} (hbefore : ∀ c ∈ before, isBlank c = true)
    (hbehind : ∀ c ∈ behind, isBlank c = true) (hhead : ∀ c ∈ cs.head?, isBlank c = false)
    (hlast : ∀ c ∈ cs.getLast?, isBlank c = false) :
    trimBlank (before ++ cs ++ behind) = cs := by
  unfold trimBlank
  rw [List.append_assoc, List.dropWhile_append_of_pos hbefore]
  cases cs with
  | nil =>
    rw [List.nil_append, List.dropWhile_eq_nil_iff.2 hbehind]
    rfl
  | cons c cs =>
    have hkept : (c :: cs ++ behind).dropWhile isBlank = c :: cs ++ behind :=
      dropWhile_eq_self hhead
    rw [hkept, List.reverse_append, List.dropWhile_append_of_pos (by simpa using hbehind),
      dropWhile_eq_self, List.reverse_reverse]
    rwa [List.head?_reverse]

theorem trims_iff {text : String} : Trims text cs ↔ trimBlank text.toList = cs := by
  constructor
  · rintro ⟨⟨before, behind, htext, hbefore, hbehind⟩, hhead, hlast⟩
    rw [htext]
    exact trimBlank_append hbefore hbehind hhead hlast
  · rintro rfl
    -- White space is taken off in front first, and then from the end of what is left.
    set rest := text.toList.dropWhile isBlank with hrest
    have hsplit : trimBlank text.toList ++ (rest.reverse.takeWhile isBlank).reverse = rest := by
      rw [trimBlank, ← hrest, ← List.reverse_append, List.takeWhile_append_dropWhile,
        List.reverse_reverse]
    refine ⟨⟨text.toList.takeWhile isBlank, (rest.reverse.takeWhile isBlank).reverse, ?_,
      fun c hc => List.mem_takeWhile_imp hc,
      fun c hc => List.mem_takeWhile_imp (List.mem_reverse.1 hc)⟩, fun c hc => ?_, ?_⟩
    · rw [List.append_assoc, hsplit, List.takeWhile_append_dropWhile]
    · refine head_dropWhile isBlank text.toList c ?_
      rw [← hrest, ← hsplit, List.head?_append]
      simp [Option.mem_def.1 hc]
    · rw [trimBlank, List.getLast?_reverse]
      exact head_dropWhile isBlank _

/-! What is read -/

theorem Signed.forall_mem {D : List Char → Nat → Prop} {P : Char → Prop} (h : Signed D cs z)
    (hplus : P '+') (hminus : P '-') (hD : ∀ ds n, D ds n → ∀ c ∈ ds, P c) : ∀ c ∈ cs, P c := by
  obtain ⟨hsign, hds⟩ := h
  rw [List.forall_mem_append]
  refine ⟨?_, hD _ _ hds⟩
  cases hsign <;> simp [hplus, hminus]

theorem Signed.plain (h : Signed Spaced cs z) :
    ∀ c ∈ cs, c.isDigit = true ∨ c ∈ ['_', '+', '-'] :=
  h.forall_mem (by decide) (by decide) fun _ _ hds c hc => (hds.digits c hc).imp_right (by simp_all)

theorem Spliced.plain (h : Spliced whole decimals q) :
    ∀ c ∈ whole ++ decimals, c.isDigit = true ∨ c ∈ ['_', '+', '-'] := by
  obtain ⟨hminuses, -, hz⟩ := h
  intro c hc
  rw [List.append_assoc] at hc
  obtain hc | hc := List.mem_append.1 hc
  · exact .inr (by simp [hminuses c hc])
  · exact hz.plain c hc

theorem notMem_of_plain (h : ∀ c ∈ cs, c.isDigit = true ∨ c ∈ ['_', '+', '-']) :
    '/' ∉ cs ∧ '.' ∉ cs := by
  constructor
  all_goals
    intro hc
    exact absurd (h _ hc) (by decide)

theorem number?_of_reads {text : String} (hcs : trimBlank text.toList = cs) (h : Reads cs q) :
    number? text = some q := by
  unfold number?
  rw [hcs]
  cases h with
  | integer h =>
    obtain ⟨hslash, hpoint⟩ := notMem_of_plain h.plain
    simp [splitAt?_eq_none.2 hslash, splitAt?_eq_none.2 hpoint, integer?_eq_some.2 h]
  | fraction hn hd hne =>
    simp only [splitAt?_append (notMem_of_plain hn.plain).1]
    exact fraction?_eq_some.2 ⟨_, _, hn, hd, hne, rfl⟩
  | @decimal whole decimals _ h =>
    obtain ⟨hslash, hpoint⟩ := notMem_of_plain h.plain
    have hnone : splitAt? '/' (whole ++ '.' :: decimals) = none :=
      splitAt?_eq_none.2 (by simpa using hslash)
    simp only [hnone, splitAt?_append fun hc => hpoint (List.mem_append_left _ hc)]
    exact decimal?_eq_some.2 h

theorem reads_of_number? {text : String} (hcs : trimBlank text.toList = cs)
    (h : number? text = some q) : Reads cs q := by
  unfold number? at h
  rw [hcs] at h
  simp only at h
  split at h
  · next ns ds hsplit =>
    obtain ⟨n, d, hn, hd, hne, rfl⟩ := fraction?_eq_some.1 h
    rw [(eq_append_of_splitAt? hsplit).1]
    exact .fraction hn hd hne
  · split at h
    · next whole decimals hsplit =>
      rw [(eq_append_of_splitAt? hsplit).1]
      exact .decimal (decimal?_eq_some.1 h)
    · simp only [Option.map_eq_some_iff, Option.bind_eq_bind, Option.bind_eq_some_iff,
        Option.pure_def, Option.some.injEq] at h
      obtain ⟨_, ⟨z, hz, rfl⟩, rfl⟩ := h
      exact .integer (integer?_eq_some.1 hz)

/-! What is written -/

/-- No underscores, and no signs behind the first character of a decimal. -/
def Regular (cs : List Char) : Prop :=
  '_' ∉ cs ∧ ('.' ∈ cs → ∀ c ∈ cs.tail, c ≠ '+' ∧ c ≠ '-')

theorem digit_notMem (hc : c.isDigit = true) : c ∉ ['_', '+', '-'] := by
  simp only [List.mem_cons, List.not_mem_nil, or_false]
  rintro (rfl | rfl | rfl) <;> cases hc

theorem Digits.spaced (h : Digits cs n) : Spaced cs n := by
  have hne : ∀ c ∈ cs, c ≠ '_' := fun c hc hunderscore =>
    digit_notMem (h.digits c hc) (by simp [hunderscore])
  obtain ⟨c, rest, rfl⟩ := List.exists_cons_of_ne_nil h.nonempty
  refine ⟨⟨c, rfl, h.digits c List.mem_cons_self⟩, fun c hc => .inl (h.digits c hc), ?_⟩
  rw [List.filter_eq_self.2 fun c hc => decide_eq_true (hne c hc)]
  exact h.value

theorem Spaced.digits_of_notMem (h : Spaced cs n) (hcs : '_' ∉ cs) : Digits cs n := by
  have hne : ∀ c ∈ cs, c ≠ '_' := fun c hc hunderscore => hcs (hunderscore ▸ hc)
  refine ⟨?_, fun c hc => (h.digits c hc).resolve_right (hne c hc), ?_⟩
  · rintro rfl
    obtain ⟨_, hhead, -⟩ := h.head
    cases hhead
  · rw [h.value, List.filter_eq_self.2 fun c hc => decide_eq_true (hne c hc)]

theorem Signed.spaced (h : Signed Digits cs z) : Signed Spaced cs z := by
  obtain ⟨hsign, hds⟩ := h
  exact .intro hsign hds.spaced

theorem Signed.digits_of_notMem (h : Signed Spaced cs z) (hcs : '_' ∉ cs) :
    Signed Digits cs z := by
  obtain ⟨hsign, hds⟩ := h
  exact .intro hsign (hds.digits_of_notMem fun hmem => hcs (List.mem_append_right _ hmem))

/-- The digits on both sides of a point, as one number. -/
theorem worth_decimal (whole decimals : List Char) :
    (worth whole + worth decimals / 10 ^ decimals.length : Rat) =
      worth (whole ++ decimals) / 10 ^ decimals.length := by
  rw [worth_append]
  push_cast
  field_simp

theorem Decimal.spliced (h : Decimal whole decimals q) : Spliced whole decimals q := by
  obtain @⟨sign, whole, decimals, σ, hsign, hwhole, hdecimals, hne⟩ := h
  have hds : Spaced (whole ++ decimals) (worth (whole ++ decimals)) :=
    Digits.spaced ⟨hne, List.forall_mem_append.2 ⟨hwhole, hdecimals⟩, rfl⟩
  have hunsigned : Signed Spaced ([] ++ (whole ++ decimals)) _ := .intro .none hds
  have hhead : whole.head? ≠ some '-' := fun hhead => by
    cases hwhole _ (List.mem_of_head? hhead)
  rw [worth_decimal]
  cases hsign with
  | none =>
    have h : Spliced ([] ++ whole) decimals _ := .intro nofun hhead hunsigned
    simpa using h
  | plus =>
    have hsigned : Signed Spaced (['+'] ++ (whole ++ decimals)) _ := .intro .plus hds
    have h : Spliced ([] ++ '+' :: whole) decimals _ := .intro nofun (by simp) hsigned
    simpa using h
  | minus =>
    have h : Spliced (['-'] ++ whole) decimals _ := .intro (by simp) hhead hunsigned
    simpa [neg_div] using h

theorem Decimal.of_digits {sign : List Char} {σ : Int} (hsign : Sign sign σ)
    (hds : Digits (whole ++ decimals) n) :
    Decimal (sign ++ whole) decimals (σ * (n / 10 ^ decimals.length)) := by
  obtain ⟨hwhole, hdecimals⟩ := List.forall_mem_append.1 hds.digits
  rw [hds.value, ← worth_decimal]
  exact .intro hsign hwhole hdecimals hds.nonempty

theorem Signed.unsigned (h : Signed Digits cs z) (hcs : ∀ c ∈ cs, c ≠ '+' ∧ c ≠ '-') :
    ∃ n : Nat, Digits cs n ∧ z = n := by
  obtain ⟨hsign, hds⟩ := h
  cases hsign with
  | none => exact ⟨_, hds, one_mul _⟩
  | plus => exact absurd rfl (hcs '+' (by simp)).1
  | minus => exact absurd rfl (hcs '-' (by simp)).2

/-- An integer with a point in it that is not before its sign. -/
theorem Signed.decimal (h : Signed Digits (whole ++ decimals) z)
    (hdecimals : ∀ c ∈ decimals, c ≠ '+' ∧ c ≠ '-') :
    Decimal whole decimals (z / 10 ^ decimals.length) := by
  generalize hcs : whole ++ decimals = cs at h
  obtain @⟨sign, ds, σ, n, hsign, hds⟩ := h
  cases hsign with
  | none =>
    have hwritten : Digits (whole ++ decimals) n := hcs ▸ hds
    simpa using Decimal.of_digits .none hwritten
  | plus =>
    obtain ⟨rfl, rfl⟩ | ⟨whole, rfl, rfl⟩ := List.append_eq_cons_iff.1 hcs
    · exact absurd rfl (hdecimals '+' (by simp)).1
    · simpa using Decimal.of_digits .plus hds
  | minus =>
    obtain ⟨rfl, rfl⟩ | ⟨whole, rfl, rfl⟩ := List.append_eq_cons_iff.1 hcs
    · exact absurd rfl (hdecimals '-' (by simp)).2
    · simpa [neg_div] using Decimal.of_digits .minus hds

theorem Spliced.decimal_of_regular (h : Spliced whole decimals q)
    (hregular : Regular (whole ++ '.' :: decimals)) : Decimal whole decimals q := by
  obtain @⟨minuses, whole, decimals, z, hminuses, hwhole, hz⟩ := h
  obtain ⟨hunderscore, htail⟩ := hregular
  specialize htail (by simp)
  replace hz : Signed Digits (whole ++ decimals) z := by
    refine hz.digits_of_notMem fun hmem => hunderscore ?_
    obtain hmem | hmem := List.mem_append.1 hmem <;> simp [hmem]
  -- Without minus signs in front, the integer may have a sign of its own, but not behind the point.
  -- Behind a minus sign it has none, and there is no second one.
  cases minuses with
  | nil =>
    have hdecimals : ∀ c ∈ decimals, c ≠ '+' ∧ c ≠ '-' := fun c hc => htail c (by
      cases whole <;> simp [hc])
    simpa using hz.decimal hdecimals
  | cons m minuses =>
    obtain ⟨rfl, hmore⟩ := List.forall_mem_cons.1 hminuses
    obtain rfl : minuses = [] := by
      by_contra hne
      obtain ⟨m, minuses, rfl⟩ := List.exists_cons_of_ne_nil hne
      exact (htail m (by simp)).2 (hmore m List.mem_cons_self)
    obtain ⟨n, hn, rfl⟩ := hz.unsigned fun c hc => htail c (by
      obtain hc | hc := List.mem_append.1 hc <;> simp [hc])
    simpa [neg_div] using Decimal.of_digits .minus hn

theorem Signed.plain_of_digits (h : Signed Digits cs z) :
    ∀ c ∈ cs, c.isDigit = true ∨ c ∈ ['+', '-', '/'] :=
  h.forall_mem (by decide) (by decide) fun _ _ hds c hc => .inl (hds.digits c hc)

theorem Decimal.regular (h : Decimal whole decimals q) : Regular (whole ++ '.' :: decimals) := by
  obtain @⟨sign, whole, decimals, σ, hsign, hwhole, hdecimals, hne⟩ := h
  have hrest : ∀ c ∈ whole ++ '.' :: decimals, c ∉ ['_', '+', '-'] := by
    simp only [List.forall_mem_append, List.forall_mem_cons]
    exact ⟨fun c hc => digit_notMem (hwhole c hc), by decide,
      fun c hc => digit_notMem (hdecimals c hc)⟩
  have hsigns : ∀ c ∈ whole ++ '.' :: decimals, c ≠ '+' ∧ c ≠ '-' := fun c hc => by
    simpa using fun h => hrest c hc (List.mem_cons_of_mem _ h)
  rw [List.append_assoc]
  cases hsign with
  | none =>
    exact ⟨fun hc => hrest '_' hc (by decide), fun _ c hc => hsigns c (List.mem_of_mem_tail hc)⟩
  | plus => exact ⟨fun hc => hrest '_' (by simpa using hc) (by decide), fun _ => hsigns⟩
  | minus => exact ⟨fun hc => hrest '_' (by simpa using hc) (by decide), fun _ => hsigns⟩

theorem regular_of_plain (h : ∀ c ∈ cs, c.isDigit = true ∨ c ∈ ['+', '-', '/']) : Regular cs :=
  ⟨fun hc => absurd (h _ hc) (by decide), fun hc => absurd (h _ hc) (by decide)⟩

theorem writes_iff : Writes cs q ↔ Reads cs q ∧ Regular cs := by
  constructor
  · intro h
    cases h with
    | integer h =>
      exact ⟨.integer h.spaced, regular_of_plain h.plain_of_digits⟩
    | fraction hn hd hne =>
      refine ⟨.fraction hn.spaced hd.spaced hne, regular_of_plain ?_⟩
      rw [List.forall_mem_append, List.forall_mem_cons]
      exact ⟨hn.plain_of_digits, .inr (by decide), hd.plain_of_digits⟩
    | decimal h => exact ⟨.decimal h.spliced, h.regular⟩
  · rintro ⟨h, hregular⟩
    have hunderscore := hregular.1
    cases h with
    | integer h => exact .integer (h.digits_of_notMem hunderscore)
    | fraction hn hd hne =>
      rw [List.mem_append, List.mem_cons, not_or, not_or] at hunderscore
      exact .fraction (hn.digits_of_notMem hunderscore.1) (hd.digits_of_notMem hunderscore.2.2) hne
    | decimal h => exact .decimal (h.decimal_of_regular hregular)

end
end Text

namespace Numeral

open Text

/-- What a manager of numbers makes of a text, given what is left of the text without the white
space around it. It has a number for every text that writes one. It has one for other texts too, but
these have an underscore, or a sign behind the first character of a decimal. -/
theorem read_exact (d : NumberDomain) (text : String) (cs : List Char) (htext : Trims text cs) :
    (∀ q, number? text = some q ↔ Reads cs q) ∧
    (∀ q, Reads cs q → read d text = constant d q) ∧
    ((∀ q, ¬Reads cs q) → read d text = throw (.badArgument (.notNumber text))) ∧
    ∀ q, Writes cs q ↔ Reads cs q ∧ Regular cs := by
  have hcs := trims_iff.1 htext
  have hreads : ∀ q, number? text = some q ↔ Reads cs q := fun q =>
    ⟨reads_of_number? hcs, number?_of_reads hcs⟩
  refine ⟨hreads, fun q hq => ?_, fun hnone => ?_, fun q => writes_iff⟩
  · rw [read, (hreads q).2 hq]
  · have hrefused : number? text = none :=
      Option.eq_none_iff_forall_ne_some.2 fun q hq => hnone q ((hreads q).1 hq)
    rw [read, hrefused]

/-- A decimal, another one with a sign too many, and a text that is no number. -/
theorem read_exact_signs :
    (read .rationals " -2.25 " = constant .rationals (-9 / 4) ∧
      Writes ['-', '2', '.', '2', '5'] (-9 / 4)) ∧
    (read .rationals "--1.5" = constant .rationals (-3 / 2) ∧
      ∀ q, ¬Writes ['-', '-', '1', '.', '5'] q) ∧
    read .rationals "two" = throw (.badArgument (.notNumber "two")) := by
  obtain ⟨hreads, hread, -, hwrites⟩ :=
    read_exact .rationals " -2.25 " ['-', '2', '.', '2', '5'] (trims_iff.2 (by decide +kernel))
  obtain ⟨hreads', hread', -, hwrites'⟩ :=
    read_exact .rationals "--1.5" ['-', '-', '1', '.', '5'] (trims_iff.2 (by decide +kernel))
  obtain ⟨htwo, -, hrefused, -⟩ :=
    read_exact .rationals "two" ['t', 'w', 'o'] (trims_iff.2 (by decide +kernel))
  have hdecimal : Reads ['-', '2', '.', '2', '5'] (-9 / 4) := (hreads _).1 (by decide +kernel)
  have hsigns : Reads ['-', '-', '1', '.', '5'] (-3 / 2) := (hreads' _).1 (by decide +kernel)
  have hnone : number? "two" = none := by decide +kernel
  have hregular : Regular ['-', '2', '.', '2', '5'] := by simp [Regular]
  refine ⟨⟨hread _ hdecimal, (hwrites _).2 ⟨hdecimal, hregular⟩⟩,
    ⟨hread' _ hsigns, fun q hq => ?_⟩, hrefused fun q hq => ?_⟩
  · exact absurd ((hwrites' q).1 hq).2 fun h => by simpa using h.2
  · cases hnone.symm.trans ((htwo q).2 hq)

end Numeral
end FormulaStack
