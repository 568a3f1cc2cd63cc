import Calculator.Proofs.Line.Reading

/-!
# The history of some characters

What the last characters say about the history of a text whose characters all are lexemes.

* `History.endsOperand_ofChars`: the last character ends an operand.
* `History.ofChars_append_digits`: the digits at the end are one literal.
* `History.run_ofChars_append`: the operator characters at the end count.
* `History.count_ofChars`: the parentheses.
-/

namespace Calculator

/-- Whether an operand can end with a character. -/
def isOperandEnd (c : Char) : Bool := c.isDigit || c.isAlpha || c = ')'

/-- Whether a character is an operator or a sign. -/
def isOperator (c : Char) : Bool := c = '+' || c = '-' || c = '*' || c = '/' || c = '^'

/-- Whether a character is a sign. -/
def isSign (c : Char) : Bool := c = '+' || c = '-'

namespace Lexeme

/-- Whether an operand can end with a lexeme. -/
def endsOperand : Lexeme → Bool
  | digit _ | letter _ | closeParen => true
  | operator _ | openParen => false

/-- The piece that a lexeme starts. -/
def piece : Lexeme → Piece
  | digit value => .literal [value]
  | letter name => .letter name
  | operator op => .operator op
  | openParen => .openParen
  | closeParen => .closeParen

end Lexeme

/-- Whether each character is a lexeme. -/
def AllLexemes (cs : List Char) : Prop := ∀ c ∈ cs, (Lexeme.ofChar? c).isSome

section Characters

variable {c : Char} {cs cs' : List Char} {op : Operator}

theorem AllLexemes.left (h : AllLexemes (cs ++ cs')) : AllLexemes cs :=
  fun c hc => h c (List.mem_append_left _ hc)

theorem AllLexemes.right (h : AllLexemes (cs ++ cs')) : AllLexemes cs' :=
  fun c hc => h c (List.mem_append_right _ hc)

theorem AllLexemes.last (h : AllLexemes (cs ++ [c])) : ∃ lexeme, Lexeme.ofChar? c = some lexeme :=
  Option.isSome_iff_exists.1 (h c (by simp))

theorem isOperator_iff : isOperator c = true ↔ ∃ op, Lexeme.ofChar? c = some (.operator op) := by
  constructor
  · intro h
    simp only [isOperator, Bool.or_eq_true, decide_eq_true_eq] at h
    rcases h with (((rfl | rfl) | rfl) | rfl) | rfl
    exacts [⟨.add, rfl⟩, ⟨.sub, rfl⟩, ⟨.mul, rfl⟩, ⟨.div, rfl⟩, ⟨.pow, rfl⟩]
  · rintro ⟨op, h⟩
    rw [← Lexeme.char_of_ofChar? h]
    cases op <;> rfl

theorem isSign_iff (h : Lexeme.ofChar? c = some (.operator op)) :
    isSign c = true ↔ op = .add ∨ op = .sub := by
  rw [← Lexeme.char_of_ofChar? h]
  cases op <;> decide

theorem isDigit_iff : c.isDigit = true ↔ ∃ value, Lexeme.ofChar? c = some (.digit value) := by
  constructor
  · exact fun h => ⟨_, Lexeme.ofChar?_of_isDigit h⟩
  · rintro ⟨value, h⟩
    rw [← Lexeme.char_of_ofChar? h]
    exact Lexeme.isDigit_digitChar value

theorem head?_of_lexemes {lexeme : Lexeme} (hall : AllLexemes cs)
    (hl : (lexemes cs).head? = some lexeme) :
    ∃ c, cs.head? = some c ∧ Lexeme.ofChar? c = some lexeme := by
  cases cs with
  | nil => cases hl
  | cons c cs =>
    obtain ⟨first, hfirst⟩ := Option.isSome_iff_exists.1 (hall c List.mem_cons_self)
    rw [lexemes_cons hfirst] at hl
    cases hl
    exact ⟨c, rfl, hfirst⟩

/-- Only a digit is read as one. -/
theorem lexemes_ne_digit (hall : AllLexemes cs) (hd : ∀ c ∈ cs.head?, c.isDigit = false)
    (digit : Fin 10) (rest : List Lexeme) : lexemes cs ≠ .digit digit :: rest := by
  intro he
  obtain ⟨c, hc, hl⟩ := head?_of_lexemes hall (congrArg List.head? he)
  have hdigit := hd c hc
  rw [isDigit_iff.2 ⟨digit, hl⟩] at hdigit
  cases hdigit

/-- The characters that end an operand are those of the lexemes that do. -/
theorem isOperandEnd_eq {lexeme : Lexeme} (h : Lexeme.ofChar? c = some lexeme) :
    isOperandEnd c = lexeme.endsOperand := by
  obtain ⟨rfl, hl⟩ := Lexeme.ofChar?_eq_some.1 h
  cases lexeme with
  | digit value => rw [isOperandEnd, Lexeme.char, Lexeme.isDigit_digitChar]; rfl
  | letter name => rw [isOperandEnd, Lexeme.char, hl name rfl, Bool.or_true]; rfl
  | operator op => cases op <;> rfl
  | openParen => rfl
  | closeParen => rfl

end Characters

namespace History

variable {c : Char} {cs run : List Char} {h : History}

theorem ofChars_concat {lexeme : Lexeme} (hl : Lexeme.ofChar? c = some lexeme) :
    ofChars (cs ++ [c]) = (ofChars cs).add lexeme := by
  rw [ofChars, lexemes_append, lexemes_cons hl]
  exact ofLexemes_concat (lexemes cs) lexeme

theorem endsOperand_add (h : History) (lexeme : Lexeme) :
    (h.add lexeme).endsOperand = lexeme.endsOperand := by
  cases lexeme with
  | digit digit =>
    rcases add_digit_cases h digit with ⟨digits, before, rfl, he⟩ | ⟨-, he⟩
    · rw [he]; rfl
    · rw [he]; rfl
  | _ => rfl

/-- An operand ends with its last character. -/
theorem endsOperand_ofChars (h : AllLexemes cs) :
    (ofChars cs).endsOperand = true ↔ ∃ c, cs.getLast? = some c ∧ isOperandEnd c = true := by
  rcases List.eq_nil_or_concat cs with rfl | ⟨cs, c, rfl⟩
  · simp [ofChars, ofLexemes, lexemes, endsOperand]
  · rw [List.concat_eq_append] at h ⊢
    obtain ⟨lexeme, hl⟩ := h.last
    rw [ofChars_concat hl, endsOperand_add, ← isOperandEnd_eq hl]
    simp

/-! ## Literals -/

/-- A history ends with a literal only if its last character is a digit. -/
theorem ofChars_ne_literal (h : AllLexemes cs) (hlast : ∀ c ∈ cs.getLast?, c.isDigit = false)
    (digits : List (Fin 10)) (before : History) : ofChars cs ≠ .literal digits :: before := by
  rcases List.eq_nil_or_concat cs with rfl | ⟨cs, c, rfl⟩
  · simp [ofChars, ofLexemes, lexemes]
  · rw [List.concat_eq_append] at h hlast ⊢
    obtain ⟨lexeme, hl⟩ := h.last
    have hc : c.isDigit = false := hlast c (by simp)
    rw [ofChars_concat hl]
    cases lexeme with
    | digit value => rw [isDigit_iff.2 ⟨value, hl⟩] at hc; cases hc
    | _ => exact add_ne_literal (by simp) _ digits before

theorem lexemes_digits (hrun : ∀ c ∈ run, c.isDigit = true) :
    lexemes run = (run.map Lexeme.digitValue).map .digit := by
  induction run with
  | nil => rfl
  | cons c run ih =>
    obtain ⟨hc, hrun⟩ := List.forall_mem_cons.1 hrun
    rw [lexemes_cons (Lexeme.ofChar?_of_isDigit hc), ih hrun]
    rfl

/-- The digits at the end are one literal. -/
theorem ofChars_append_digits (h : AllLexemes cs)
    (hlast : ∀ c ∈ cs.getLast?, c.isDigit = false) (hne : run ≠ [])
    (hrun : ∀ c ∈ run, c.isDigit = true) :
    ofChars (cs ++ run) = .literal (run.map Lexeme.digitValue) :: ofChars cs := by
  rw [ofChars, lexemes_append, lexemes_digits hrun]
  exact ofLexemes_append_digits (ofChars_ne_literal h hlast) (by simpa using hne)

theorem finite_of_ne_literal (hd : ∀ digits before, h ≠ .literal digits :: before) :
    h.Finite := by
  match h with
  | .literal digits :: before => exact absurd rfl (hd digits before)
  | [] | .letter _ :: _ | .operator _ :: _ | .openParen :: _ | .closeParen :: _ => trivial

/-! ## Operator characters -/

theorem run_eq_zero (hb : h.endsOperand = true) : h.run = 0 := by
  match h with
  | [] | .literal _ :: _ | .letter _ :: _ | .closeParen :: _ => rfl
  | .operator _ :: _ | .openParen :: _ => cases hb

/-- Each operator character at the end adds to the run. -/
theorem run_ofChars_append (hrun : ∀ c ∈ run, isOperator c = true) :
    (ofChars (cs ++ run)).run = (ofChars cs).run + run.length := by
  induction run using List.reverseRecOn with
  | nil => simp
  | append_singleton run c ih =>
    obtain ⟨op, hop⟩ := isOperator_iff.1 (hrun c (by simp))
    rw [← List.append_assoc, ofChars_concat hop, List.length_append, ← Nat.add_assoc,
      ← ih fun c hc => hrun c (List.mem_append_left _ hc)]
    rfl

/-! ## Parentheses -/

theorem count_add {lexeme : Lexeme} (hd : ∀ value, lexeme ≠ .digit value) (h : History)
    (lexeme' : Lexeme) :
    (h.add lexeme').count lexeme.piece = h.count lexeme.piece + [lexeme'].count lexeme := by
  cases lexeme with
  | digit value => exact absurd rfl (hd value)
  | _ =>
    cases lexeme' with
    | digit value =>
      rcases add_digit_cases h value with ⟨digits, before, rfl, he⟩ | ⟨-, he⟩
      · simp [he, Lexeme.piece]
      · simp [he, Lexeme.piece]
    | _ => simp [add, Lexeme.piece, List.count_cons]

/-- A lexeme other than a digit stands in the history as often as its character in the text. -/
theorem count_ofChars {lexeme : Lexeme} (hd : ∀ value, lexeme ≠ .digit value)
    (hl : Lexeme.ofChar? lexeme.char = some lexeme) (cs : List Char) :
    (ofChars cs).count lexeme.piece = cs.count lexeme.char := by
  induction cs using List.reverseRecOn with
  | nil => rfl
  | append_singleton cs c ih =>
    rw [List.count_append, ← ih]
    cases hc : Lexeme.ofChar? c with
    | none =>
      have hne : c ≠ lexeme.char := fun he => by rw [he, hl] at hc; cases hc
      rw [ofChars, lexemes_append, List.count_singleton, if_neg (by simpa using hne)]
      simp [lexemes, hc, ofChars]
    | some lexeme' =>
      rw [ofChars_concat hc, count_add hd, List.count_singleton, List.count_singleton]
      have : lexeme' = lexeme ↔ c = lexeme.char := by
        constructor
        · rintro rfl; exact (Lexeme.char_of_ofChar? hc).symm
        · rintro rfl; rw [hl] at hc; exact (Option.some.inj hc).symm
      simp [this]

theorem count_openParen_ofChars (cs : List Char) :
    (ofChars cs).count .openParen = cs.count '(' :=
  @count_ofChars .openParen (by simp) rfl cs

theorem count_closeParen_ofChars (cs : List Char) :
    (ofChars cs).count .closeParen = cs.count ')' :=
  @count_ofChars .closeParen (by simp) rfl cs

end History

end Calculator
