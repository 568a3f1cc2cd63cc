import Calculator.Proofs.Expression.Sign
import Calculator.Proofs.Line.Characters
import Calculator.Proofs.Line.Continuation
import Calculator.Proofs.Line.Formula

/-!
# A signed operand on a line

A minus sign with its operand, a whole number or one variable, may be put in parentheses: the line
is read all the same, and its tokens are those of the line before with parentheses around what the
sign and its operand have become. In front of a variable, the sign may also be written as a factor.

* `History.alike_grouped`, `History.alike_factored`: behind it the line goes on as before.
* `History.accepts_grouped`, `History.accepts_factored`: nothing inside of it is refused.
* `SignAt`: a sign with its operand on a line.
* `standsAlone_of_undivided`: the operators beside them are the same on the line and among the
  tokens.
* `exists_tokenize_group`: the line with parentheses.
* `tokenize_factor`: the line with a factor.
-/

namespace Calculator

namespace History

variable {vars : Variables} {h : History} {piece : Piece} {left operand right : List Lexeme}

/-- The lexemes of a whole number or of one variable, and the piece that they make. -/
inductive IsOperand : List Lexeme → Piece → Prop
  | digits {digits : List (Fin 10)} (hn : digits ≠ []) :
    IsOperand (digits.map .digit) (.literal digits)
  | letter (name : Char) : IsOperand [.letter name] (.letter name)

/-- A sign and its operand after a history. -/
def signed (piece : Piece) (h : History) : History := piece :: .operator .sub :: h

/-- A sign and its operand in parentheses after a history. -/
def grouped (piece : Piece) (h : History) : History :=
  .closeParen :: signed piece (.openParen :: h)

/-- The digit one. -/
def one : Fin 10 := ⟨1, by decide⟩

/-- A sign with the factor one and a variable after a history. -/
def factored (name : Char) (h : History) : History :=
  .letter name :: .operator .mul :: .literal [one] :: .operator .sub :: h

theorem IsOperand.foldl_add (hp : IsOperand operand piece)
    (hh : ∀ digits before, h ≠ .literal digits :: before) : operand.foldl add h = piece :: h := by
  cases hp with
  | digits hn => exact foldl_add_digits hh hn
  | letter name => rfl

theorem IsOperand.endsOperand (hp : IsOperand operand piece) (h : History) :
    (signed piece h).endsOperand = true := by
  cases hp with
  | digits hn => rfl
  | letter name => rfl

theorem ofLexemes_signed (hp : IsOperand operand piece) (left : List Lexeme) :
    ofLexemes (left ++ Lexeme.operator .sub :: operand) = signed piece (ofLexemes left) := by
  rw [ofLexemes_append, List.foldl_cons]
  exact hp.foldl_add (by simp [add])

theorem ofLexemes_opened (hp : IsOperand operand piece) (left : List Lexeme) :
    ofLexemes (left ++ Lexeme.openParen :: .operator .sub :: operand) =
      signed piece (.openParen :: ofLexemes left) := by
  rw [ofLexemes_append, List.foldl_cons, List.foldl_cons]
  exact hp.foldl_add (by simp [add])

theorem ofLexemes_grouped (hp : IsOperand operand piece) (left : List Lexeme) :
    ofLexemes (left ++ Lexeme.openParen :: .operator .sub :: operand ++ [Lexeme.closeParen]) =
      grouped piece (ofLexemes left) := by
  rw [ofLexemes_concat, ofLexemes_opened hp]
  rfl

theorem ofLexemes_factored (name : Char) (left : List Lexeme) :
    ofLexemes (left ++ [Lexeme.operator .sub, .digit one, .operator .mul, .letter name]) =
      factored name (ofLexemes left) := by
  rw [ofLexemes_append]
  rfl

/-- Behind the parentheses the line goes on as without them. -/
theorem alike_grouped (hp : IsOperand operand piece) (h : History) :
    Alike (signed piece h) (grouped piece h) := by
  cases hp with
  | digits hn => exact ⟨rfl, rfl, rfl, fun _ => trivial, by simp [signed, grouped]; omega⟩
  | letter name => exact ⟨rfl, rfl, rfl, fun _ => trivial, by simp [signed, grouped]; omega⟩

/-- Behind the factor the line goes on as without it. -/
theorem alike_factored (name : Char) (h : History) :
    Alike (signed (.letter name) h) (factored name h) :=
  ⟨rfl, rfl, rfl, fun _ => trivial, by simp [signed, factored]⟩

/-- A minus sign where an operand is expected writes nothing. -/
theorem tokens_sign (hh : h.endsOperand = false) : tokens (.operator .sub :: h) = h.tokens := by
  rw [tokens, tokensOf, hh]
  exact List.append_nil _

theorem negated_sign (hh : h.endsOperand = false) : negated (.operator .sub :: h) = true := by
  rw [negated, hh]
  rfl

/-- The tokens of a sign and its operand, which do not depend on what stands before. -/
theorem exists_tokens_signed (hp : IsOperand operand piece) : ∃ u : Tree, u.Signed ∧
    (∀ digits, piece = .literal digits → u.rank = 0) ∧
    ∀ h : History, h.endsOperand = false → (signed piece h).tokens = h.tokens ++ u.tokens := by
  cases hp with
  | @digits digits hn =>
    refine ⟨.number (-Literal.toFloat (Literal.ofDigits digits)), .number _, fun _ _ => rfl,
      fun h hh => ?_⟩
    rw [signed, tokens, tokens_sign hh, tokensOf, negated_sign hh]
    rfl
  | letter name =>
    refine ⟨.binary (.number (-1)) .mul (.var name), .var name, fun _ he => ?_, fun h hh => ?_⟩
    · cases he
    · rw [signed, tokens, tokens_sign hh, tokensOf, negated_sign hh]
      rfl

theorem tokens_grouped {u : Tree} (hh : h.endsOperand = false)
    (hu : ∀ h : History, h.endsOperand = false → (signed piece h).tokens = h.tokens ++ u.tokens) :
    (grouped piece h).tokens = h.tokens ++ u.group.tokens := by
  have hopen : tokens (.openParen :: h) = h.tokens ++ [Token.openParen] := by
    rw [tokens, tokensOf, product, hh]
    rfl
  rw [grouped, tokens, hu _ rfl, hopen]
  simp [tokensOf, Tree.tokens]

/-- The factor is what a sign in front of a variable becomes. -/
theorem tokens_factored (name : Char) (hh : h.endsOperand = false) :
    (factored name h).tokens = (signed (.letter name) h).tokens := by
  have hnumber : tokensOf (.operator .sub :: h) (.literal [one]) = [.number (-1)] := by
    rw [tokensOf, negated_sign hh]
    rfl
  have hletter : tokensOf (.operator .sub :: h) (.letter name) =
      [.number (-1), .operator .mul, .var name] := by
    rw [tokensOf, negated_sign hh]
    rfl
  calc (factored name h).tokens
      = tokens (.operator .sub :: h) ++ tokensOf (.operator .sub :: h) (.literal [one]) ++
          [Token.operator .mul] ++ [Token.var name] := rfl
    _ = tokens (.operator .sub :: h) ++ tokensOf (.operator .sub :: h) (.letter name) := by
      simp [hnumber, hletter]

/-- Inside of the parentheses nothing is refused. -/
theorem accepts_grouped (hp : IsOperand operand piece)
    (ha : Accepts vars (left ++ Lexeme.operator .sub :: operand))
    (hf : (signed piece (ofLexemes left)).Finite) :
    Accepts vars
      (left ++ Lexeme.openParen :: .operator .sub :: operand ++ [Lexeme.closeParen]) := by
  obtain ⟨hleft, hrest⟩ := accepts_append.1 ha
  have hsub : Admits vars (ofLexemes left) (.operator .sub) := hrest [] _ operand rfl
  have hopen : Accepts vars (left ++ [Lexeme.openParen]) := accepts_concat.2 ⟨hleft, hsub.1⟩
  have hsign : Accepts vars (left ++ [Lexeme.openParen] ++ [Lexeme.operator .sub]) := by
    refine accepts_concat.2 ⟨hopen, ?_⟩
    rw [ofLexemes_concat]
    exact ⟨trivial, .inr ⟨.inr rfl, (by decide : 1 < Scan.maxRun)⟩⟩
  have hoperand : Accepts vars (left ++ Lexeme.openParen :: .operator .sub :: operand) := by
    have hsplit : left ++ Lexeme.openParen :: .operator .sub :: operand =
        left ++ [Lexeme.openParen] ++ [Lexeme.operator .sub] ++ operand := by simp
    rw [hsplit]
    cases hp with
    | digits hn => exact accepts_append_digits hsign _
    | letter name =>
      refine accepts_concat.2 ⟨hsign, ?_, ?_⟩
      · exact (hrest [.operator .sub] (.letter name) [] rfl).1
      · rw [ofLexemes_concat]
        trivial
  have hle := count_le_of_scoped (scoped_of_accepts hleft)
  refine accepts_concat.2 ⟨hoperand, ?_⟩
  rw [ofLexemes_opened hp]
  cases hp with
  | digits hn => exact ⟨hf, by simp [signed]; omega, rfl⟩
  | letter name => exact ⟨trivial, by simp [signed]; omega, rfl⟩

/-- Nothing of the factor is refused. -/
theorem accepts_factored {name : Char}
    (ha : Accepts vars (left ++ [Lexeme.operator .sub, .letter name])) :
    Accepts vars (left ++ [Lexeme.operator .sub, .digit one, .operator .mul, .letter name]) := by
  obtain ⟨hleft, hrest⟩ := accepts_append.1 ha
  have hsign : Accepts vars (left ++ [Lexeme.operator .sub]) :=
    accepts_concat.2 ⟨hleft, hrest [] _ [.letter name] rfl⟩
  have hone : Accepts vars (left ++ [Lexeme.operator .sub] ++ [Lexeme.digit one]) :=
    accepts_append_digits hsign [one]
  have hmul : Accepts vars
      (left ++ [Lexeme.operator .sub] ++ [Lexeme.digit one] ++ [Lexeme.operator .mul]) := by
    refine accepts_concat.2 ⟨hone, ?_⟩
    rw [ofLexemes_concat, ofLexemes_concat]
    exact ⟨(by decide +kernel : Literal.IsFinite (Literal.ofDigits [one])), .inl rfl⟩
  have hsplit : left ++ [Lexeme.operator .sub, .digit one, .operator .mul, .letter name] =
      left ++ [Lexeme.operator .sub] ++ [Lexeme.digit one] ++ [Lexeme.operator .mul] ++
        [Lexeme.letter name] := by simp
  rw [hsplit]
  refine accepts_concat.2 ⟨hmul, (hrest [.operator .sub] (.letter name) [] rfl).1, ?_⟩
  rw [ofLexemes_concat]
  trivial

/-- A sign stands only after an operator that is binary, so the last token is its. -/
theorem exists_eq_cons_of_tokens {op : Operator} {ts : List Token} (hr : h.run < Scan.maxRun)
    (hh : h.endsOperand = false) (ht : h.tokens = ts ++ [Token.operator op]) :
    ∃ before, h = .operator op :: before := by
  cases h with
  | nil => simp [tokens] at ht
  | cons piece before =>
    cases piece with
    | openParen =>
      rw [tokens, tokensOf, ← List.append_assoc] at ht
      cases (List.append_inj' ht rfl).2
    | operator op' =>
      cases hb : endsOperand before with
      | true =>
        rw [tokens, tokensOf, if_pos hb] at ht
        cases (List.append_inj' ht rfl).2
        exact ⟨before, rfl⟩
      | false =>
        -- Two operators in a row leave no place for a sign.
        have hrun : run before + 1 < 2 := hr
        cases before with
        | nil => simp [tokens, tokensOf, endsOperand] at ht
        | cons piece before =>
          cases piece with
          | openParen => exact absurd hrun (by simp [run])
          | operator _ =>
            simp only [run] at hrun
            omega
          | _ => cases hb
    | _ => cases hh

/-- A sign follows at most one operator. -/
theorem run_lt_of_accepts (hh : (ofLexemes left).endsOperand = false)
    (ha : Accepts vars (left ++ Lexeme.operator .sub :: operand)) :
    (ofLexemes left).run < Scan.maxRun := by
  have hsub : Admits vars (ofLexemes left) (.operator .sub) := (accepts_append.1 ha).2 [] _ _ rfl
  exact (hsub.2.resolve_left (by rw [hh]; exact Bool.false_ne_true)).2

end History

section Line

variable {vars : Variables} {u d w : String} {e : Expression} {before operand after : List Char}
  {piece : Piece} {c : Char}

/-- An operand that a sign can stand directly before: all digits in a row, or one letter. -/
def IsOperandText (operand after : List Char) : Prop :=
  (operand ≠ [] ∧ (∀ c ∈ operand, c.isDigit = true) ∧ ∀ c ∈ after.head?, c.isDigit = false) ∨
    ∃ name, operand = [name] ∧ name.isAlpha = true

/-- No operator beside a sign and its operand binds to only one of them: the operand is a number, or
there is no division or power directly before the sign and no power directly after the operand. -/
def Undivided (before operand after : List Char) : Prop :=
  (∀ c ∈ operand, c.isDigit = true) ∨
    (∀ c ∈ before.getLast?, c ≠ '/' ∧ c ≠ '^') ∧ ∀ c ∈ after.head?, c ≠ '^'

/-- The operand is one piece, a literal if it is a number. -/
theorem IsOperandText.exists_isOperand (h : IsOperandText operand after) :
    ∃ piece, History.IsOperand (lexemes operand) piece ∧
      ((∀ c ∈ operand, c.isDigit = true) → ∃ digits, piece = .literal digits) ∧
      ∀ digits, piece = .literal digits → ∀ c ∈ after.head?, c.isDigit = false := by
  rcases h with ⟨hn, hd, ha⟩ | ⟨name, rfl, hname⟩
  · rw [History.lexemes_digits hd]
    exact ⟨_, .digits (by simpa using hn), fun _ => ⟨_, rfl⟩, fun _ _ => ha⟩
  · rw [lexemes_cons (Lexeme.ofChar?_of_isAlpha hname)]
    refine ⟨_, .letter name, fun hd => ?_, fun _ he => by cases he⟩
    have := hd name List.mem_cons_self
    rw [Lexeme.isDigit_eq_false_of_isAlpha hname] at this
    cases this

/-- No operand ends with an operator or an opening parenthesis. -/
theorem isOperandEnd_eq_false (h : isOperator c = true ∨ c = '(') : isOperandEnd c = false := by
  rcases h with h | rfl
  · obtain ⟨op, hop⟩ := isOperator_iff.1 h
    rw [isOperandEnd_eq hop]
    rfl
  · rfl

/-- An operator is the last character if it is the last piece. -/
theorem getLast?_of_ofChars {cs : List Char} {op : Operator} {h : History} (hall : AllLexemes cs)
    (ho : History.ofChars cs = .operator op :: h) : cs.getLast? = some op.symbol := by
  rcases List.eq_nil_or_concat cs with rfl | ⟨cs, c, rfl⟩
  · cases ho
  · rw [List.concat_eq_append] at hall ho ⊢
    obtain ⟨lexeme, hl⟩ := hall.last
    rw [History.ofChars_concat hl] at ho
    obtain rfl : lexeme = .operator op := by
      cases lexeme with
      | digit digit =>
        obtain ⟨digits, before, -, he⟩ | ⟨-, he⟩ := History.add_digit_cases (.ofChars cs) digit
        · rw [he] at ho; cases ho
        · rw [he] at ho; cases ho
      | operator op' => cases ho; rfl
      | _ => cases ho
    rw [List.getLast?_concat, ← Lexeme.char_of_ofChar? hl]
    rfl

/-- Where a line ends with an operator or an opening parenthesis, it waits for an operand. -/
theorem endsOperand_eq_false (hall : AllLexemes before)
    (h : ∀ c ∈ before.getLast?, isOperator c = true ∨ c = '(') :
    (History.ofChars before).endsOperand = false := by
  rw [← Bool.not_eq_true, History.endsOperand_ofChars hall]
  rintro ⟨c, hc, hend⟩
  rw [isOperandEnd_eq_false (h c hc)] at hend
  cases hend

/-! ## The line -/

theorem significant_signed (u d w : String) : significant (u ++ "-" ++ d ++ w) =
    significant u ++ '-' :: significant d ++ significant w := by
  simp only [significant_append, show significant "-" = ['-'] from rfl]
  simp

theorem significant_grouped (u d w : String) : significant (u ++ "(-" ++ d ++ ")" ++ w) =
    significant u ++ '(' :: '-' :: significant d ++ [')'] ++ significant w := by
  simp only [significant_append, show significant "(-" = ['(', '-'] from rfl,
    show significant ")" = [')'] from rfl]
  simp

theorem significant_factored (u d w : String) : significant (u ++ "-1*" ++ d ++ w) =
    significant u ++ '-' :: '1' :: '*' :: significant d ++ significant w := by
  simp only [significant_append, show significant "-1*" = ['-', '1', '*'] from rfl]
  simp

theorem lexemes_signed (before operand : List Char) : lexemes (before ++ '-' :: operand) =
    lexemes before ++ Lexeme.operator .sub :: lexemes operand := by
  rw [lexemes_append, lexemes_cons (show Lexeme.ofChar? '-' = _ from rfl)]

theorem lexemes_grouped (before operand : List Char) :
    lexemes (before ++ '(' :: '-' :: operand ++ [')']) =
      lexemes before ++ Lexeme.openParen :: .operator .sub :: lexemes operand ++
        [Lexeme.closeParen] := by
  rw [lexemes_append, lexemes_append, lexemes_cons (show Lexeme.ofChar? '(' = _ from rfl),
    lexemes_cons (show Lexeme.ofChar? '-' = _ from rfl),
    lexemes_cons (show Lexeme.ofChar? ')' = _ from rfl)]
  rfl

theorem lexemes_factored (before operand : List Char) :
    lexemes (before ++ '-' :: '1' :: '*' :: operand) =
      lexemes before ++
        Lexeme.operator .sub :: .digit History.one :: .operator .mul :: lexemes operand := by
  rw [lexemes_append, lexemes_cons (show Lexeme.ofChar? '-' = _ from rfl),
    lexemes_cons (show Lexeme.ofChar? '1' = _ from rfl),
    lexemes_cons (show Lexeme.ofChar? '*' = _ from rfl)]
  rfl

theorem ofChars_signed (hp : History.IsOperand (lexemes operand) piece) (before : List Char) :
    History.ofChars (before ++ '-' :: operand) = .signed piece (.ofChars before) := by
  rw [History.ofChars, lexemes_signed]
  exact History.ofLexemes_signed hp _

theorem ofChars_grouped (hp : History.IsOperand (lexemes operand) piece) (before : List Char) :
    History.ofChars (before ++ '(' :: '-' :: operand ++ [')']) =
      .grouped piece (.ofChars before) := by
  rw [History.ofChars, lexemes_grouped]
  exact History.ofLexemes_grouped hp _

theorem ofChars_factored {name : Char} (hl : lexemes operand = [.letter name])
    (before : List Char) :
    History.ofChars (before ++ '-' :: '1' :: '*' :: operand) =
      .factored name (.ofChars before) := by
  rw [History.ofChars, lexemes_factored, hl]
  exact History.ofLexemes_factored name _

/-- A sign with its operand, which is one piece, and the rest of a line that can be read. -/
structure SignAt (vars : Variables) (before operand after : List Char) (piece : Piece) : Prop where
  isOperand : History.IsOperand (lexemes operand) piece
  allLexemes : AllLexemes (before ++ '-' :: operand ++ after)
  endsOperand : (History.ofChars before).endsOperand = false
  accepts : History.Accepts vars (lexemes (before ++ '-' :: operand))
  finite : (History.signed piece (.ofChars before)).Finite
  detached : History.Detached (.signed piece (.ofChars before)) (lexemes after)

theorem signAt_of_tokenize (hp : History.IsOperand (lexemes (significant d)) piece)
    (hafter : ∀ digits, piece = .literal digits → ∀ c ∈ (significant w).head?, c.isDigit = false)
    (hu : ∀ c ∈ (significant u).getLast?, isOperator c = true ∨ c = '(')
    (he : tokenize vars (u ++ "-" ++ d ++ w) = .ok e) :
    SignAt vars (significant u) (significant d) (significant w) piece := by
  obtain ⟨hall, ha, hf, -, -⟩ := tokenize_eq_ok.1 he
  rw [significant_signed] at hall
  rw [significant_signed, lexemes_append] at ha
  rw [significant_signed, History.ofChars, lexemes_append] at hf
  have hdetached : History.Detached (.signed piece (.ofChars (significant u)))
      (lexemes (significant w)) := by
    intro digit rest hrest digits before hb
    have hhead := hafter digits (List.cons_eq_cons.1 hb).1
    exact lexemes_ne_digit (AllLexemes.right hall) hhead digit rest hrest
  have hbefore : AllLexemes (significant u) := AllLexemes.left (AllLexemes.left hall)
  refine ⟨hp, hall, endsOperand_eq_false hbefore hu, (History.accepts_append.1 ha).1, ?_,
    hdetached⟩
  rw [← ofChars_signed hp] at hdetached ⊢
  exact History.finite_of_accepts_append hdetached ha hf

namespace SignAt

theorem allLexemes_grouped (h : SignAt vars before operand after piece) :
    AllLexemes (before ++ '(' :: '-' :: operand ++ [')']) := by
  intro c hc
  simp only [List.mem_append, List.mem_cons, List.not_mem_nil, or_false] at hc
  rcases hc with (hc | rfl | rfl | hc) | rfl
  · exact h.allLexemes c (by simp [hc])
  · rfl
  · rfl
  · exact h.allLexemes c (by simp [hc])
  · rfl

theorem allLexemes_factored (h : SignAt vars before operand after piece) :
    AllLexemes (before ++ '-' :: '1' :: '*' :: operand) := by
  intro c hc
  simp only [List.mem_append, List.mem_cons] at hc
  rcases hc with hc | rfl | rfl | rfl | hc
  · exact h.allLexemes c (by simp [hc])
  · rfl
  · rfl
  · rfl
  · exact h.allLexemes c (by simp [hc])

theorem run_lt (h : SignAt vars before operand after piece) :
    (History.ofChars before).run < Scan.maxRun := by
  have ha := h.accepts
  rw [lexemes_signed] at ha
  exact History.run_lt_of_accepts h.endsOperand ha

/-- The operators beside a sign and its operand are the same on the line and among the tokens. -/
theorem standsAlone (h : SignAt vars before operand after piece) {t : Tree} {ts : List Token}
    (hts : (History.ofChars after ++ History.signed piece (.ofChars before)).tokens =
      (History.signed piece (.ofChars before)).tokens ++ ts)
    (hrank : ∀ digits, piece = .literal digits → t.rank = 0)
    (hpiece : (∀ c ∈ operand, c.isDigit = true) → ∃ digits, piece = .literal digits)
    (hu : Undivided before operand after) (n : Nat) :
    t.StandsAlone (History.ofChars before).tokens (ts ++ List.replicate n Token.closeParen) := by
  have hlast : ∀ op us, (History.ofChars before).tokens = us ++ [Token.operator op] →
      before.getLast? = some op.symbol := by
    intro op us hus
    obtain ⟨b, hb⟩ := History.exists_eq_cons_of_tokens h.run_lt h.endsOperand hus
    exact getLast?_of_ofChars h.allLexemes.left.left hb
  have hnumber : (∀ c ∈ operand, c.isDigit = true) → t.rank = 0 := by
    intro hd
    obtain ⟨digits, hp⟩ := hpiece hd
    exact hrank digits hp
  refine hu.imp hnumber fun ⟨hl, hr⟩ => ⟨fun us hus => ?_, fun us hus => ?_, fun us hus => ?_⟩
  · exact (hl _ (hlast .div us hus)).1 rfl
  · exact (hl _ (hlast .pow us hus)).2 rfl
  · cases ts with
    | nil => cases n <;> cases hus
    | cons token ts =>
      obtain ⟨rfl, -⟩ := List.cons_eq_cons.1 hus
      have hfirst := History.head?_of_getLast?_ofLexemes
        (History.getLast?_of_tokens_append (h.isOperand.endsOperand _) (by decide) hts)
      obtain ⟨c, hc, hop⟩ := head?_of_lexemes h.allLexemes.right hfirst
      exact hr c hc (Lexeme.char_of_ofChar? hop).symm

end SignAt

/-- A sign with its operand may be put in parentheses. -/
theorem exists_tokenize_group
    (hu : ∀ c ∈ (significant u).getLast?, isOperator c = true ∨ c = '(')
    (hd : IsOperandText (significant d) (significant w))
    (he : tokenize vars (u ++ "-" ++ d ++ w) = .ok e) :
    ∃ e' t before after, tokenize vars (u ++ "(-" ++ d ++ ")" ++ w) = .ok e' ∧ Tree.Signed t ∧
      e.tokens = before ++ t.tokens ++ after ∧ e'.tokens = before ++ t.group.tokens ++ after ∧
      (Undivided (significant u) (significant d) (significant w) → t.StandsAlone before after) := by
  obtain ⟨piece, hp, hpiece, hafter⟩ := hd.exists_isOperand
  have hs := signAt_of_tokenize hp hafter hu he
  obtain ⟨t, ht, hrank, htokens⟩ := History.exists_tokens_signed hp
  have haccepts : History.Accepts vars
      (lexemes (significant u ++ '(' :: '-' :: significant d ++ [')'])) := by
    have ha := hs.accepts
    rw [lexemes_signed] at ha
    rw [lexemes_grouped]
    exact History.accepts_grouped hp ha hs.finite
  obtain ⟨ts, n, hts, hline, hline'⟩ := exists_tokenize_of_alike (significant_signed u d w)
    (significant_grouped u d w) hs.allLexemes_grouped haccepts
    (by rw [ofChars_signed hp, ofChars_grouped hp]; exact History.alike_grouped hp _)
    (by rw [ofChars_signed hp]; exact hs.detached)
    (by rw [ofChars_grouped hp]; exact History.detached_cons rfl) he
  rw [ofChars_signed hp] at hts hline
  rw [ofChars_grouped hp] at hline'
  refine ⟨_, t, (History.ofChars (significant u)).tokens,
    ts ++ List.replicate n Token.closeParen, hline', ht, ?_, ?_,
    fun hundivided => hs.standsAlone hts hrank hpiece hundivided n⟩
  · rw [hline, htokens _ hs.endsOperand]
  · rw [← History.tokens_grouped hs.endsOperand htokens]

/-- A sign in front of a variable may be written as the factor minus one. -/
theorem tokenize_factor {name : Char}
    (hu : ∀ c ∈ (significant u).getLast?, isOperator c = true ∨ c = '(')
    (hd : significant d = [name]) (hname : name.isAlpha = true)
    (he : tokenize vars (u ++ "-" ++ d ++ w) = .ok e) :
    tokenize vars (u ++ "-1*" ++ d ++ w) = .ok e := by
  have hletter : lexemes (significant d) = [.letter name] := by
    rw [hd, lexemes_cons (Lexeme.ofChar?_of_isAlpha hname)]
    rfl
  have hp : History.IsOperand (lexemes (significant d)) (.letter name) := by
    rw [hletter]
    exact .letter name
  have hs := signAt_of_tokenize hp (fun _ he => by cases he) hu he
  have haccepts : History.Accepts vars
      (lexemes (significant u ++ '-' :: '1' :: '*' :: significant d)) := by
    have ha := hs.accepts
    rw [lexemes_signed, hletter] at ha
    rw [lexemes_factored, hletter]
    exact History.accepts_factored ha
  obtain ⟨ts, n, -, hline, hline'⟩ := exists_tokenize_of_alike (significant_signed u d w)
    (significant_factored u d w) hs.allLexemes_factored haccepts
    (by rw [ofChars_signed hp, ofChars_factored hletter]; exact History.alike_factored name _)
    (by rw [ofChars_signed hp]; exact hs.detached)
    (by rw [ofChars_factored hletter]; exact History.detached_cons rfl) he
  rw [ofChars_factored hletter, History.tokens_factored name hs.endsOperand, ← ofChars_signed hp,
    ← hline] at hline'
  exact hline'

end Line

end Calculator
