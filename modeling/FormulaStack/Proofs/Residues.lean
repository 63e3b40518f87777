import FormulaStack.Bitvector
import FormulaStack.Proofs.Models
import FormulaStack.Proofs.Readings
import Mathlib.Data.Int.ModEq

/-!
Bit-vector literals. A literal stands for a class of numbers that are congruent modulo the number
of values of its width. It shows the one of them that the width has room for, and that number has
just so many binary digits, zeros in front.
-/
namespace FormulaStack

namespace Text

/-- Binary digits, as many as a width has places, with the number that they write. -/
structure BinaryDigits (width : Nat) (cs : List Char) (n : Nat) : Prop where
  length : cs.length = width
  digits : ∀ c ∈ cs, c = '0' ∨ c = '1'
  value : Nat.ofDigitChars 2 cs 0 = n

theorem zero_or_one_of_mem_binary {n : Nat} {c : Char} (h : c ∈ binary n) : c = '0' ∨ c = '1' := by
  induction n using Nat.strongRecOn with
  | ind n ih =>
    rw [binary, Nat.toDigits_eq_if (by decide)] at h
    split at h
    · have hn : n = 0 ∨ n = 1 := by omega
      obtain rfl | rfl := hn <;> simp_all [Nat.digitChar]
    · next hn =>
      obtain h | h := List.mem_append.1 h
      · exact ih (n / 2) (by omega) h
      · obtain hr | hr : n % 2 = 0 ∨ n % 2 = 1 := by omega
        all_goals simp_all [Nat.digitChar]

/-- The padding has the right length as the number is below the number of values. -/
theorem binary_zeroPadded {width n : Nat} (hw : 0 < width) (hn : n < 2 ^ width) :
    BinaryDigits width (zeroPadded width (binary n)) n where
  length := by
    have := (Nat.length_toDigits_le_iff (by decide) hw).2 hn
    rw [length_zeroPadded, binary, Nat.max_eq_left this]
  digits c hc := by
    obtain hc | hc := List.mem_append.1 hc
    · exact .inl (List.eq_of_mem_replicate hc)
    · exact zero_or_one_of_mem_binary hc
  value := by
    rw [zeroPadded, Nat.ofDigitChars_append, Nat.ofDigitChars_replicate_zero, binary, Nat.mul_zero,
      Nat.ofDigitChars_toDigits (by decide) (by decide)]

end Text

namespace Bitvector

variable {width : Nat} {u v : Int} {env : Environment}

/-- The residue of a number, by remainders that have the sign of what is divided. -/
def residue (width : Nat) (value : Int) : Int :=
  (value.tmod (2 ^ width) + 2 ^ width).tmod (2 ^ width)

theorem residue_eq (width : Nat) (value : Int) : residue width value = value % 2 ^ width := by
  have hpos : (0 : Int) < 2 ^ width := by positivity
  have hlow := Int.lt_tmod_of_pos value hpos
  have hsplit := Int.mul_tdiv_add_tmod value (2 ^ width)
  calc residue width value
      = (value.tmod (2 ^ width) + 2 ^ width) % 2 ^ width :=
        Int.tmod_eq_emod_of_nonneg (by omega)
    _ = value.tmod (2 ^ width) % 2 ^ width := Int.add_emod_right _ _
    _ = (2 ^ width * value.tdiv (2 ^ width) + value.tmod (2 ^ width)) % 2 ^ width :=
        (Int.mul_add_emod_self_left _ _ _).symm
    _ = value % 2 ^ width := by rw [hsplit]

/-- The node of a literal. -/
def literal (width : Nat) (value : Int) : Node :=
  ⟨.bits (value % 2 ^ width).toNat width, [], .bitvec width⟩

theorem toNat_residue (width : Nat) (value : Int) :
    ((value % 2 ^ width).toNat : Int) = value % 2 ^ width :=
  Int.toNat_of_nonneg (Int.emod_nonneg value (by positivity))

theorem literal_inj : literal width u = literal width v ↔ u ≡ v [ZMOD 2 ^ width] := by
  simp only [literal, Node.mk.injEq, Operator.bits.injEq, and_true]
  rw [← Nat.cast_inj (R := Int), toNat_residue, toNat_residue]
  rfl

theorem constantValue_literal {s : Store} {t : Term} (h : s.node? t = some (literal width v)) :
    s.constantValue t = .ok (some (.bitvector (v % 2 ^ width) width)) := by
  unfold Store.constantValue Store.node
  rw [h]
  simp only [Except.map, ConstantValue.ofNode?, literal, toNat_residue]

theorem text_literal (hw : 0 < width) (value : Int) :
    ∃ cs, (ConstantValue.bitvector (value % 2 ^ width) width).text = "#b" ++ String.ofList cs ∧
      Text.BinaryDigits width cs (value % 2 ^ width).toNat := by
  have hpos : (0 : Int) < 2 ^ width := by positivity
  have hge := Int.emod_nonneg value hpos.ne'
  have hlt : (value % 2 ^ width).toNat < 2 ^ width := by
    zify
    rw [toNat_residue]
    exact Int.emod_lt_of_pos value hpos
  have habs : (value % 2 ^ width).natAbs = (value % 2 ^ width).toNat := by omega
  refine ⟨_, ?_, Text.binary_zeroPadded hw hlt⟩
  rw [ConstantValue.text, ConstantValue.binaryText, if_neg (Int.not_lt.2 hge), habs]

/-- Whatever the number, there is a literal of it. -/
theorem exec_constant (hw : 0 < width) (value : Int) (env : Environment) :
    ∃ f env₁, (constant width value).exec env = (.ok f, env₁) ∧ env.Advances env₁ ∧
      f.owner = env.id ∧ f.type = .bitvector width ∧
      env₁.terms.node? f.term = some (literal width value) := by
  have hb : Build.bits value width env.terms =
      .ok (env.terms.intern (literal width value)) := by
    unfold Build.bits
    rw [if_neg hw.ne']
    rfl
  have hbuild : (Environment.build (Build.bits value width)).exec env =
      (.ok (env.terms.intern (literal width value)).1,
        { env with terms := (env.terms.intern (literal width value)).2 }) := by
    rw [Environment.exec_build, hb]
  let env' : Environment := { env with terms := (env.terms.intern (literal width value)).2 }
  have hsort : env'.terms.sort? (env.terms.intern (literal width value)).1 = some (.bitvec width) :=
    Store.sort?_intern env.terms (literal width value)
  obtain ⟨ticket, handles, hwrap⟩ :=
    Environment.exec_wrap hsort (FormulaType.accepts_self (.bitvector width))
  have hgrows : env.terms.Grows (env.terms.intern (literal width value)).2 :=
    Build.Grows.bits value width env.terms _ _ hb
  refine ⟨_, _, (Effect.exec_bind_ok hbuild _).trans hwrap, ?_, rfl, rfl,
    Store.node?_intern env.terms _⟩
  exact ⟨rfl, rfl, hgrows⟩

/-- Literals of one width are the same exactly for congruent numbers, whenever they are made. Each
reads as the residue of its number and is written by as many binary digits as it is wide. -/
theorem constant_exact (henv : env.terms.WellFormed) (hw : 0 < width) (u v : Int) :
    ∃ f env₁, (constant width u).exec env = (.ok f, env₁) ∧ env.Advances env₁ ∧
      f.owner = env.id ∧ f.type = .bitvector width ∧
      ∀ env₂, env₁.Advances env₂ →
        (∃ r cs, env₂.terms.constantValue f.term = .ok (some (.bitvector r width)) ∧
          r = residue width u ∧ r ≡ u [ZMOD 2 ^ width] ∧ 0 ≤ r ∧ r < 2 ^ width ∧
          (ConstantValue.bitvector r width).text = "#b" ++ String.ofList cs ∧
          Text.BinaryDigits width cs r.toNat) ∧
        ∃ g env₃, (constant width v).exec env₂ = (.ok g, env₃) ∧ g.owner = f.owner ∧
          (g.term = f.term ↔ u ≡ v [ZMOD 2 ^ width]) := by
  have hpos : (0 : Int) < 2 ^ width := by positivity
  obtain ⟨f, env₁, hf, ha₁, howner, htype, hnode⟩ := exec_constant hw u env
  refine ⟨f, env₁, hf, ha₁, howner, htype, fun env₂ ha₂ => ⟨?_, ?_⟩⟩
  · obtain ⟨cs, htext, hcs⟩ := text_literal hw u
    refine ⟨u % 2 ^ width, cs, constantValue_literal (ha₂.terms.extension.node? _ _ hnode),
      (residue_eq width u).symm, Int.mod_modEq u _, Int.emod_nonneg u hpos.ne',
      Int.emod_lt_of_pos u hpos, htext, hcs⟩
  · obtain ⟨g, env₃, hg, ha₃, hgowner, -, hgnode⟩ := exec_constant hw v env₂
    have hfnode : env₃.terms.node? f.term = some (literal width u) :=
      ha₃.terms.extension.node? _ _ (ha₂.terms.extension.node? _ _ hnode)
    have hwf : env₃.terms.WellFormed :=
      ((ha₁.trans ha₂).trans ha₃).terms.wellFormed henv
    refine ⟨g, env₃, hg, hgowner.trans ((ha₁.trans ha₂).id.trans howner.symm), ?_⟩
    rw [← literal_inj]
    constructor
    · intro hsame
      rw [hsame, hfnode] at hgnode
      exact Option.some.inj hgnode
    · intro hsame
      exact hwf.once hgnode (hsame ▸ hfnode)

/-- Minus three and thirteen are one literal of four bits, written `#b1101`. -/
theorem constant_exact_wrapped :
    let env := Environment.new 0 .everything false false false
    env.terms.WellFormed ∧ 0 < 4 ∧
      ∃ f env₁, (constant 4 (-3)).exec env = (.ok f, env₁) ∧
        (∃ r, env₁.terms.constantValue f.term = .ok (some (.bitvector r 4)) ∧ r = 13) ∧
        ∃ g env₂, (constant 4 13).exec env₁ = (.ok g, env₂) ∧ g.term = f.term := by
  intro env
  have henv : env.terms.WellFormed := Store.wellFormed_empty
  obtain ⟨f, env₁, hf, -, -, -, hlater⟩ := constant_exact henv (show 0 < 4 by decide) (-3) 13
  obtain ⟨⟨r, cs, hr, hvalue, -⟩, g, env₂, hg, -, hsame⟩ := hlater env₁ (.refl env₁)
  exact ⟨henv, by decide, f, env₁, hf, ⟨r, hr, hvalue.trans (by decide)⟩, g, env₂,
    hg, hsame.2 (by decide)⟩

end Bitvector
end FormulaStack
