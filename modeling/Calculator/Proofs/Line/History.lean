import Mathlib.Data.List.Chain
import Mathlib.Data.List.Induction
import Calculator.Line.Scan

/-!
# What a line says

A reading of a line that looks back where the scan keeps a state. The history of a place is the
pieces of the line before it: whole literals, and single lexemes else. What a piece adds to the
expression, and whether it may stand where it does, depends on its history alone.

* `History.tokens`: the tokens of a history. An operator after an operand is binary, and every other
  one is a sign, which writes nothing. A product stands between an operand and an operand that
  follows it directly. An operand is negated if a minus sign stands between the operand before and
  itself (`History.negated`).
* `History.Admits`: which lexemes may follow a history.
* `History.accepts_concat`: a line is acceptable if each of its lexemes may follow those before it.
-/

namespace Calculator

/-- A unit of a line: a whole literal, or one other lexeme. -/
inductive Piece where
  | literal (digits : List (Fin 10))
  | letter (name : Char)
  | operator (op : Operator)
  | openParen
  | closeParen
  deriving DecidableEq

/-- Whether a piece is a number. -/
def Piece.isLiteral : Piece → Bool
  | literal _ => true
  | letter _ | operator _ | openParen | closeParen => false

/-- All digits in a row belong to one literal. -/
structure Grouped (pieces : List Piece) : Prop where
  ne_nil : .literal [] ∉ pieces
  maximal : pieces.IsChain fun left right => ¬ (left.isLiteral = true ∧ right.isLiteral = true)

/-- The pieces before a place of a line, the last one first. -/
abbrev History := List Piece

namespace History

/-- The history after one more lexeme. A digit that follows a digit belongs to the same literal. -/
def add (h : History) : Lexeme → History
  | .digit digit =>
    match h with
    | .literal digits :: before => .literal (digits ++ [digit]) :: before
    | _ => .literal [digit] :: h
  | .letter name => .letter name :: h
  | .operator op => .operator op :: h
  | .openParen => .openParen :: h
  | .closeParen => .closeParen :: h

/-- The history at the end of some lexemes. -/
def ofLexemes (lexemes : List Lexeme) : History := lexemes.foldl add []

/-- Whether an operand ends here. -/
def endsOperand : History → Bool
  | .literal _ :: _ | .letter _ :: _ | .closeParen :: _ => true
  | .operator _ :: _ | .openParen :: _ | [] => false

/-- Whether an operand that starts here is negated: a minus sign stands between the number or
variable before and this place. A minus after an operand is no sign. -/
def negated : History → Bool
  | [] | .literal _ :: _ | .letter _ :: _ => false
  | .operator .sub :: before => !endsOperand before || negated before
  | .operator _ :: before | .openParen :: before | .closeParen :: before => negated before

/-- The multiplication in front of an operand that follows an operand directly. -/
def product (before : History) : List Token :=
  if endsOperand before then [.operator .mul] else []

/-- The tokens that a piece adds. -/
def tokensOf (before : History) : Piece → List Token
  | .literal digits =>
    let value := Literal.toFloat (Literal.ofDigits digits)
    product before ++ [.number (if negated before then -value else value)]
  | .letter name =>
    let sign := if negated before then [.number (-1), .operator .mul] else []
    product before ++ sign ++ [.var name]
  | .operator op => if endsOperand before then [.operator op] else []
  | .openParen => product before ++ [.openParen]
  | .closeParen => [.closeParen]

/-- The tokens of all pieces, in their order. -/
def tokens : History → List Token
  | [] => []
  | piece :: before => tokens before ++ tokensOf before piece

/-- The number of groups that are open. -/
def openGroups (h : History) : Nat := h.count .openParen - h.count .closeParen

/-- The number of operator characters in a row, an opening parenthesis before them included. -/
def run : History → Nat
  | .operator _ :: before => run before + 1
  | .openParen :: _ => 1
  | _ => 0

/-- The literal that ends here, if there is one, has a finite value. -/
def Finite : History → Prop
  | .literal digits :: _ => Literal.IsFinite (Literal.ofDigits digits)
  | _ => True

/-- Whether a lexeme may follow. Any but a digit ends the literal before it. -/
def Admits (vars : Variables) (h : History) : Lexeme → Prop
  | .digit _ => True
  | .letter name => vars.contains name = true ∧ h.Finite
  | .openParen => h.Finite
  | .closeParen =>
    h.Finite ∧ h.count .closeParen < h.count .openParen ∧ endsOperand h = true
  | .operator op =>
    h.Finite ∧ (endsOperand h = true ∨ (op = .add ∨ op = .sub) ∧ run h < Scan.maxRun)

/-- Whether each lexeme may follow those before it. -/
def Accepts (vars : Variables) (lexemes : List Lexeme) : Prop :=
  ∀ before lexeme after, lexemes = before ++ lexeme :: after →
    Admits vars (ofLexemes before) lexeme

section Lemmas

variable {vars : Variables} {lexemes : List Lexeme} {lexeme : Lexeme} {h : History}

theorem ofLexemes_concat (lexemes : List Lexeme) (lexeme : Lexeme) :
    ofLexemes (lexemes ++ [lexeme]) = (ofLexemes lexemes).add lexeme := by
  rw [ofLexemes, List.foldl_append]
  rfl

/-- Closing a group leaves one group less open. -/
theorem openGroups_closeParen (hlt : h.count .closeParen < h.count .openParen) :
    h.openGroups = openGroups (.closeParen :: h) + 1 := by
  have hclose : (Piece.closeParen :: h).count .closeParen = h.count .closeParen + 1 :=
    List.count_cons_self
  have hopen : (Piece.closeParen :: h).count .openParen = h.count .openParen :=
    List.count_cons_of_ne Piece.noConfusion
  rw [openGroups, openGroups, hclose, hopen]
  omega

/-- Only a digit makes a literal. -/
theorem add_ne_literal (hl : ∀ digit, lexeme ≠ .digit digit) (h : History)
    (digits : List (Fin 10)) (before : History) : h.add lexeme ≠ .literal digits :: before := by
  cases lexeme with
  | digit digit => exact absurd rfl (hl digit)
  | _ => simp [add]

/-- A digit extends the literal that ends here, or else it starts one. -/
theorem add_digit_cases (h : History) (digit : Fin 10) :
    (∃ digits before, h = .literal digits :: before ∧
      h.add (.digit digit) = .literal (digits ++ [digit]) :: before) ∨
    (∀ digits before, h ≠ .literal digits :: before) ∧
      h.add (.digit digit) = .literal [digit] :: h := by
  match h with
  | .literal digits :: before => exact .inl ⟨digits, before, rfl, rfl⟩
  | [] | .letter _ :: _ | .operator _ :: _ | .openParen :: _ | .closeParen :: _ =>
    exact .inr ⟨by simp, rfl⟩

theorem add_digit_of_ne (hd : ∀ digits before, h ≠ .literal digits :: before) (digit : Fin 10) :
    h.add (.digit digit) = .literal [digit] :: h := by
  rcases add_digit_cases h digit with ⟨digits, before, he, -⟩ | ⟨-, he⟩
  · exact absurd he (hd digits before)
  · exact he

/-- The digits of one literal make one piece. -/
theorem foldl_add_digits (hh : ∀ digits before, h ≠ .literal digits :: before)
    {digits : List (Fin 10)} (hn : digits ≠ []) :
    (digits.map Lexeme.digit).foldl add h = .literal digits :: h := by
  induction digits using List.reverseRecOn with
  | nil => exact absurd rfl hn
  | append_singleton digits digit ih =>
    rw [List.map_append, List.foldl_append]
    by_cases hd : digits = []
    · subst hd
      exact add_digit_of_ne hh digit
    · rw [ih hd]
      rfl

theorem ofLexemes_append_digits
    (hh : ∀ digits before, ofLexemes lexemes ≠ .literal digits :: before)
    {digits : List (Fin 10)} (hn : digits ≠ []) :
    ofLexemes (lexemes ++ digits.map .digit) = .literal digits :: ofLexemes lexemes := by
  rw [ofLexemes, List.foldl_append]
  exact foldl_add_digits hh hn

theorem accepts_nil : Accepts vars [] := by
  intro before lexeme after h
  simp at h

theorem accepts_concat : Accepts vars (lexemes ++ [lexeme]) ↔
    Accepts vars lexemes ∧ Admits vars (ofLexemes lexemes) lexeme := by
  constructor
  · intro h
    refine ⟨fun before l after hl => h before l (after ++ [lexeme]) ?_, h lexemes lexeme [] rfl⟩
    rw [hl, List.append_assoc, List.cons_append]
  · rintro ⟨h, hl⟩ before l after he
    rcases List.eq_nil_or_concat after with rfl | ⟨after, last, rfl⟩
    · obtain ⟨rfl, hlast⟩ := List.append_inj' he rfl
      cases hlast
      exact hl
    · rw [List.concat_eq_append, ← List.cons_append, ← List.append_assoc] at he
      obtain ⟨rfl, -⟩ := List.append_inj' he rfl
      exact h before l after rfl

/-- A digit may follow anything. -/
theorem accepts_append_digits (h : Accepts vars lexemes) (digits : List (Fin 10)) :
    Accepts vars (lexemes ++ digits.map .digit) := by
  induction digits using List.reverseRecOn with
  | nil => rwa [List.map_nil, List.append_nil]
  | append_singleton digits digit ih =>
    rw [List.map_append, ← List.append_assoc]
    exact accepts_concat.2 ⟨ih, trivial⟩

theorem grouped_cons {piece : Piece} : Grouped (piece :: h) ↔
    piece ≠ .literal [] ∧
      (∀ digits before, h = .literal digits :: before → piece.isLiteral = false) ∧ Grouped h := by
  have hhead : (∀ y ∈ h.head?, ¬ (piece.isLiteral = true ∧ y.isLiteral = true)) ↔
      ∀ digits before, h = .literal digits :: before → piece.isLiteral = false := by
    match h with
    | .literal digits :: before => simp [Piece.isLiteral]
    | [] | .letter _ :: _ | .operator _ :: _ | .openParen :: _ | .closeParen :: _ =>
      simp [Piece.isLiteral]
  constructor
  · rintro ⟨hn, hm⟩
    obtain ⟨h₁, h₂⟩ := List.isChain_cons.1 hm
    refine ⟨fun he => hn (he ▸ List.mem_cons_self), hhead.1 h₁, ?_, h₂⟩
    exact fun hmem => hn (List.mem_cons_of_mem _ hmem)
  · rintro ⟨hn, hh, hg⟩
    refine ⟨fun hmem => ?_, List.isChain_cons.2 ⟨hhead.2 hh, hg.maximal⟩⟩
    rcases List.mem_cons.1 hmem with he | hmem
    · exact hn he.symm
    · exact hg.ne_nil hmem

theorem grouped_add (hg : Grouped h) (lexeme : Lexeme) : Grouped (h.add lexeme) := by
  cases lexeme with
  | digit digit =>
    rcases add_digit_cases h digit with ⟨digits, before, rfl, he⟩ | ⟨hd, he⟩
    · obtain ⟨-, hh, hg⟩ := grouped_cons.1 hg
      rw [he]
      exact grouped_cons.2 ⟨by simp, hh, hg⟩
    · rw [he]
      exact grouped_cons.2 ⟨by simp, fun digits before hb => absurd hb (hd digits before), hg⟩
  | _ => exact grouped_cons.2 ⟨by simp, fun _ _ _ => rfl, hg⟩

theorem grouped_ofLexemes (lexemes : List Lexeme) : Grouped (ofLexemes lexemes) := by
  induction lexemes using List.reverseRecOn with
  | nil => exact ⟨List.not_mem_nil, .nil⟩
  | append_singleton lexemes lexeme ih =>
    rw [ofLexemes_concat]
    exact grouped_add ih lexeme

/-- What holds of the history of every acceptable line: digits in a row are one literal, and no sign
waits after an operand. -/
structure Regular (h : History) : Prop where
  grouped : Grouped h
  sign : negated h = true → endsOperand h = false

theorem regular_nil : Regular [] := ⟨⟨List.not_mem_nil, .nil⟩, fun _ => rfl⟩

theorem Regular.add (hr : Regular h) (ha : Admits vars h lexeme) : Regular (h.add lexeme) := by
  refine ⟨grouped_add hr.grouped lexeme, fun hn => ?_⟩
  cases lexeme with
  | digit digit =>
    rcases add_digit_cases h digit with ⟨digits, before, rfl, he⟩ | ⟨-, he⟩
    · rw [he] at hn; cases hn
    · rw [he] at hn; cases hn
  | letter name => cases hn
  | operator op => rfl
  | openParen => rfl
  | closeParen =>
    have := hr.sign hn
    rw [ha.2.2] at this
    cases this

theorem regular_of_accepts (ha : Accepts vars lexemes) : Regular (ofLexemes lexemes) := by
  induction lexemes using List.reverseRecOn with
  | nil => exact regular_nil
  | append_singleton lexemes lexeme ih =>
    obtain ⟨ha, hl⟩ := accepts_concat.1 ha
    rw [ofLexemes_concat]
    exact (ih ha).add hl

/-- The last token ends an operand exactly where the history does. -/
theorem any_endsOperand_getLast?_tokens (h : History) :
    (tokens h).getLast?.any Token.endsOperand = endsOperand h := by
  induction h with
  | nil => rfl
  | cons piece before ih =>
    cases piece with
    | operator op =>
      rw [tokens, tokensOf]
      split
      · rw [List.getLast?_append]; rfl
      · rename_i hb
        rw [List.append_nil, ih, endsOperand]
        simpa using hb
    | _ =>
      rw [tokens, tokensOf]
      simp [List.getLast?_append, endsOperand, Token.endsOperand]

/-- The last token is a number only after a literal. -/
theorem exists_literal_of_getLast?_tokens {x : Float}
    (hx : (tokens h).getLast? = some (.number x)) :
    ∃ digits before, h = .literal digits :: before := by
  cases h with
  | nil => cases hx
  | cons piece before =>
    cases piece with
    | literal digits => exact ⟨digits, before, rfl⟩
    | operator op =>
      rw [tokens, tokensOf] at hx
      split at hx
      · simp at hx
      · rename_i hb
        rw [List.append_nil] at hx
        have := any_endsOperand_getLast?_tokens before
        rw [hx] at this
        exact absurd this.symm hb
    | _ => simp [tokens, tokensOf] at hx

end Lemmas

end History

end Calculator
