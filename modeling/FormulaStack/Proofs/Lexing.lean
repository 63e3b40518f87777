import Mathlib.Data.List.Basic

/-!
Expressions of nested lists of words: their texts, the tokens of a text, and how an expression is
read. An expression is read back from its text if its words are made of characters of words.
-/
namespace FormulaStack

/-- A word or a list of expressions. -/
inductive SExpr where
  | word (w : String)
  | list (es : List SExpr)

inductive Token where
  | open
  | close
  | word (w : String)
  deriving DecidableEq

namespace SExpr

variable {β : Type}

theorem induction {motive : SExpr → Prop} (word : ∀ w, motive (word w))
    (list : ∀ es, (∀ e ∈ es, motive e) → motive (list es)) : ∀ e, motive e
  | .word w => word w
  | .list es => list es fun e _ => induction word list e

mutual
/-- The result for an expression, from those for its parts. -/
def fold (leaf : String → β) (step : List β → β) : SExpr → β
  | word w => leaf w
  | list es => step (foldAll leaf step es)

def foldAll (leaf : String → β) (step : List β → β) : List SExpr → List β
  | [] => []
  | e :: es => fold leaf step e :: foldAll leaf step es
end

theorem fold_list (leaf : String → β) (step : List β → β) (es : List SExpr) :
    (list es).fold leaf step = step (es.map (fold leaf step)) := by
  have hall : ∀ es, foldAll leaf step es = es.map (fold leaf step) := by
    intro es
    induction es with
    | nil => rfl
    | cons e es ih => simp [foldAll, ih]
  rw [fold, hall]

def text : SExpr → String := fold id fun ts => "(" ++ " ".intercalate ts ++ ")"

def words : SExpr → List String := fold ([·]) List.flatten

def tokens : SExpr → List Token := fold ([.word ·]) fun ts => .open :: ts.flatten ++ [.close]

@[simp] theorem text_word (w : String) : (word w).text = w := rfl

@[simp] theorem words_word (w : String) : (word w).words = [w] := rfl

@[simp] theorem tokens_word (w : String) : (word w).tokens = [.word w] := rfl

theorem text_list (es : List SExpr) :
    (list es).text = "(" ++ " ".intercalate (es.map text) ++ ")" := fold_list _ _ es

@[simp] theorem words_list (es : List SExpr) : (list es).words = es.flatMap words := by
  rw [words, fold_list, List.flatMap_def]

@[simp] theorem tokens_list (es : List SExpr) :
    (list es).tokens = .open :: es.flatMap tokens ++ [.close] := by
  rw [tokens, fold_list, List.flatMap_def]

end SExpr

/-! Tokens of a text -/

namespace Token

/-- The characters that stand between words. -/
def isBlank (c : Char) : Bool := c ∈ [' ', '\t', '\n', '\r']

/-- The characters that words are made of. -/
def isWordChar (c : Char) : Bool := !isBlank c && c ≠ '(' && c ≠ ')'

/-- A word ahead of other tokens, if there is one. -/
def ahead (w : List Char) (ts : List Token) : List Token :=
  if w.isEmpty then ts else .word (String.ofList w) :: ts

/-- The rest of the word that a text goes on with, and the tokens behind it. -/
def scan : List Char → List Char × List Token
  | [] => ([], [])
  | c :: cs =>
    let (w, ts) := scan cs
    if c = '(' then ([], .open :: ahead w ts)
    else if c = ')' then ([], .close :: ahead w ts)
    else if isBlank c then ([], ahead w ts)
    else (c :: w, ts)

/-- The tokens of a text. -/
def lex (cs : List Char) : List Token := ahead (scan cs).1 (scan cs).2

/-- A text that goes on with no word. -/
def Ends (cs : List Char) : Prop := (scan cs).1 = []

@[simp] theorem ends_nil : Ends [] := rfl

@[simp] theorem lex_open (cs : List Char) : lex ('(' :: cs) = .open :: lex cs := rfl

@[simp] theorem lex_close (cs : List Char) : lex (')' :: cs) = .close :: lex cs := rfl

@[simp] theorem lex_space (cs : List Char) : lex (' ' :: cs) = lex cs := rfl

@[simp] theorem ends_close (cs : List Char) : Ends (')' :: cs) := rfl

@[simp] theorem ends_space (cs : List Char) : Ends (' ' :: cs) := rfl

theorem scan_append {w : List Char} (hw : ∀ c ∈ w, isWordChar c = true) (cs : List Char) :
    scan (w ++ cs) = (w ++ (scan cs).1, (scan cs).2) := by
  induction w with
  | nil => rfl
  | cons c w ih =>
    obtain ⟨hc, hw⟩ := List.forall_mem_cons.1 hw
    simp only [isWordChar, Bool.and_eq_true, Bool.not_eq_true', decide_eq_true_eq] at hc
    rw [List.cons_append, scan, ih hw]
    simp [hc]

/-- A word ends where none goes on. -/
theorem lex_word {w : List Char} (hne : w ≠ []) (hw : ∀ c ∈ w, isWordChar c = true) {cs : List Char}
    (hcs : Ends cs) : lex (w ++ cs) = .word (String.ofList w) :: lex cs := by
  rw [Ends] at hcs
  simp [lex, scan_append hw, hcs, ahead, hne]

end Token

namespace SExpr

open Token

/-- A word that can be told from what stands around it. -/
def IsWord (w : String) : Prop := w.toList ≠ [] ∧ ∀ c ∈ w.toList, isWordChar c = true

/-- Every element but the last is followed by a blank, and the last by a parenthesis. -/
theorem lex_texts {es : List SExpr}
    (h : ∀ e ∈ es, ∀ cs, Ends cs → lex (e.text.toList ++ cs) = e.tokens ++ lex cs)
    (cs : List Char) : lex ([' '].intercalate (es.map (String.toList ∘ text)) ++ ')' :: cs) =
      es.flatMap tokens ++ .close :: lex cs := by
  induction es with
  | nil => simp
  | cons e es ih =>
    obtain ⟨he, hes⟩ := List.forall_mem_cons.1 h
    have hrest := ih hes
    cases es with
    | nil => simpa using he _ (ends_close cs)
    | cons e' es =>
      rw [List.map_cons, List.map_cons, List.intercalate_cons_cons, ← List.map_cons,
        List.append_assoc, List.append_assoc]
      have hfirst := he _ (ends_space
        ([' '].intercalate ((e' :: es).map (String.toList ∘ text)) ++ ')' :: cs))
      rw [lex_space, hrest] at hfirst
      rw [List.flatMap_cons, List.append_assoc]
      exact hfirst

/-- The tokens of a text are those of the expression. -/
theorem lex_text {e : SExpr} (h : ∀ w ∈ e.words, IsWord w) :
    ∀ cs, Ends cs → lex (e.text.toList ++ cs) = e.tokens ++ lex cs := by
  induction e using induction with
  | word w =>
    obtain ⟨hne, hchars⟩ := h w (by simp)
    intro cs hcs
    simpa using lex_word hne hchars hcs
  | list es ih =>
    intro cs _
    have hes : ∀ e ∈ es, ∀ cs, Ends cs → lex (e.text.toList ++ cs) = e.tokens ++ lex cs :=
      fun e he => ih e he fun w hw => h w (by simpa using ⟨e, he, hw⟩)
    simp [text_list, lex_texts hes]

/-! Expressions of tokens -/

/-- Puts one more token in front of the lists that are still open, of which the innermost comes
first. A text is read from its end: a closing parenthesis opens a list. -/
def extend : Token → List (List SExpr) → Option (List (List SExpr))
  | .close, fs => some ([] :: fs)
  | .word w, f :: fs => some ((.word w :: f) :: fs)
  | .open, f :: g :: fs => some ((.list f :: g) :: fs)
  | _, _ => none

def parse? (ts : List Token) : Option SExpr :=
  match ts.foldrM extend [[]] with
  | some [[e]] => some e
  | _ => none

/-- The expression that a text is. -/
def read? (text : String) : Option SExpr := parse? (lex text.toList)

theorem foldrM_tokens (e : SExpr) (f : List SExpr) (fs : List (List SExpr)) :
    e.tokens.foldrM extend (f :: fs) = some ((e :: f) :: fs) := by
  induction e using induction generalizing f fs with
  | word w => rfl
  | list es ih =>
    have hes : ∀ fs, (es.flatMap tokens).foldrM extend ([] :: fs) = some (es :: fs) := by
      intro fs
      induction es with
      | nil => rfl
      | cons e es ihs =>
        rw [List.flatMap_cons, List.foldrM_append, ihs fun e he => ih e (by simp [he])]
        exact ih e (by simp) es fs
    rw [tokens_list, List.cons_append, List.foldrM_cons, List.foldrM_append]
    simp [extend, hes]

theorem read?_text {e : SExpr} (h : ∀ w ∈ e.words, IsWord w) : read? e.text = some e := by
  have hlex := lex_text h [] ends_nil
  rw [List.append_nil, show lex [] = [] from rfl, List.append_nil] at hlex
  rw [read?, hlex, parse?, foldrM_tokens]

end SExpr
end FormulaStack
