import Calculator.Proofs.Line.Acceptance
import Calculator.Proofs.Line.Continuation
import Calculator.Proofs.Line.Output
import Calculator.Proofs.Number.Exact

/-!
# The numbers of a line

All digits in a row are one literal, and the literal becomes one number, wherever it ends. Up to
`2 ^ 53` this number is the one that the digits write, or its negative if a sign waits for it.

* `Literal.ofDigits_digitValue`: nothing is rounded while such digits are read.
* `Scan.step_of_endNumber`: each lexeme but a digit ends a literal the same way.
* `countP_isNumber_tokens`: how many numbers there are among the tokens.
* `WritesNumber`, `exists_writesNumber`: the token of a literal among the tokens of a line.
* `tokenize_literal`: each literal of a line becomes its number, once.
-/

namespace Calculator

/-! ## Digits in a row -/

/-- A run of digits that writes a number up to `2 ^ 53` has this value, whatever zeros it starts
with. -/
theorem Literal.ofDigits_digitValue {run : List Char} (hrun : ∀ c ∈ run, c.isDigit = true)
    (hle : Nat.ofDigitChars 10 run 0 ≤ 2 ^ 53) :
    Literal.ofDigits (run.map Lexeme.digitValue) = Nat.ofDigitChars 10 run 0 := by
  induction run using List.reverseRecOn with
  | nil => rfl
  | append_singleton run c ih =>
    have hc := Lexeme.toNat_of_isDigit (hrun c (by simp))
    have hvalue : (Lexeme.digitValue c : Nat) = c.toNat - '0'.toNat :=
      Nat.mod_eq_of_lt (by change c.toNat - 48 < 10; omega)
    rw [Nat.ofDigitChars_append, Nat.ofDigitChars_cons, Nat.ofDigitChars_nil, ← hvalue] at hle ⊢
    -- The number of a first part is not larger, so it is not rounded either.
    have hfirst := ih (fun d hd => hrun d (List.mem_append_left _ hd)) (by omega)
    rw [List.map_append, List.map_singleton, Literal.ofDigits_concat, hfirst]
    exact Literal.push_of_le hle

/-- The number of a literal, with the sign that waits for it. -/
def Literal.signed (minus : Bool) (n : Nat) : Float :=
  if minus then -Float.ofNat n else Float.ofNat n

theorem rational?_signed {n : Nat} (hn : n ≤ 2 ^ 53) (minus : Bool) :
    rational? (Literal.signed minus n) = some (if minus then -(n : ℚ) else n) := by
  cases minus with
  | true => rw [Literal.signed, if_pos rfl, rational?_neg, rational?_ofNat hn]; rfl
  | false => exact rational?_ofNat hn

namespace Scan

variable {vars : Variables} {s t : Scan} {n : Nat} {digits : List (Fin 10)} {lexeme : Lexeme}
  {ls : List Lexeme}

/-- Digits in a row add up. -/
theorem foldlM_digits (hl : s.literal = none) (hn : digits ≠ []) :
    (digits.map Lexeme.digit).foldlM (Scan.step vars) s =
      .ok { s with literal := some (Literal.ofDigits digits), run := 0 } := by
  induction digits using List.reverseRecOn with
  | nil => exact absurd rfl hn
  | append_singleton digits digit ih =>
    rw [List.map_append, List.foldlM_append, Literal.ofDigits_concat]
    by_cases hd : digits = []
    · subst hd
      simp [pure, Except.pure, step, readDigit, hl, Literal.ofDigits]
    · rw [ih hd]
      rfl

/-- The state after a number has been read and has become a token. -/
def ended (s : Scan) (x : Float) : Scan :=
  { s with literal := none, minus := false, run := 0 }.emit (.number x)

theorem endNumber_of_le (hn : n ≤ 2 ^ 53) :
    ({ s with literal := some n, run := 0 } : Scan).endNumber =
      .ok (s.ended (Literal.signed s.minus n)) := by
  rw [endNumber]
  exact if_pos (Literal.isFinite_of_le hn)

theorem endNumber_of_none (hl : s.literal = none) : s.endNumber = .ok s := by
  rw [endNumber, hl]

/-- Every lexeme but a digit ends a literal first. -/
theorem step_of_endNumber (h : s.endNumber = .ok t) (ht : t.endNumber = .ok t)
    (hl : ∀ digit, lexeme ≠ .digit digit) : s.step vars lexeme = t.step vars lexeme := by
  cases lexeme with
  | digit digit => exact absurd rfl (hl digit)
  | letter name => simp only [step, readLetter, h, ht]
  | operator op => simp only [step, readOperator, h, ht]
  | openParen => simp only [step, readOpenParen, h, ht]
  | closeParen => simp only [step, readCloseParen, h, ht]

/-- So does the end of the line. -/
theorem finish_of_endNumber (h : s.endNumber = .ok t) (ht : t.endNumber = .ok t) :
    s.finish = t.finish := by
  simp only [finish, h, ht]

/-- What follows a literal is read as if the literal had become a token at once. -/
theorem foldlM_of_endNumber (h : s.endNumber = .ok t) (ht : t.endNumber = .ok t)
    (hd : ∀ digit rest, ls ≠ .digit digit :: rest) :
    ls.foldlM (Scan.step vars) s >>= finish = ls.foldlM (Scan.step vars) t >>= finish := by
  cases ls with
  | nil => exact finish_of_endNumber h ht
  | cons lexeme rest =>
    rw [List.foldlM_cons, List.foldlM_cons, step_of_endNumber h ht]
    rintro digit rfl
    exact hd digit rest rfl

end Scan

/-! ## Numbers among the tokens -/

/-- Whether a token is a number. -/
def Token.isNumber : Token → Bool
  | number _ => true
  | operator _ | openParen | closeParen | var _ => false

namespace History

/-- The number of variables that are negated. -/
def negatedLetters : History → Nat
  | [] => 0
  | .letter _ :: before => negatedLetters before + if negated before then 1 else 0
  | .literal _ :: before | .operator _ :: before | .openParen :: before | .closeParen :: before =>
    negatedLetters before

/-- There is a number for each literal, and a factor minus one for each negated variable. -/
theorem countP_isNumber_tokens (h : History) :
    h.tokens.countP Token.isNumber = h.countP Piece.isLiteral + h.negatedLetters := by
  have hproduct : ∀ before, (product before).countP Token.isNumber = 0 := by
    intro before
    unfold product
    split <;> rfl
  induction h with
  | nil => rfl
  | cons piece before ih =>
    rw [tokens, List.countP_append, ih, List.countP_cons]
    cases piece with
    | literal digits =>
      simp only [tokensOf, List.countP_append, hproduct, negatedLetters]
      simp [Token.isNumber, Piece.isLiteral, Nat.add_right_comm]
    | letter name =>
      simp only [tokensOf, List.countP_append, hproduct, negatedLetters]
      cases negated before <;>
        simp [List.countP_cons, Token.isNumber, Piece.isLiteral, Nat.add_assoc]
    | operator op =>
      rw [tokensOf]
      split <;> simp [negatedLetters, Token.isNumber, Piece.isLiteral]
    | openParen => simp [tokensOf, hproduct, negatedLetters, Token.isNumber, Piece.isLiteral]
    | closeParen => simp [tokensOf, negatedLetters, Token.isNumber, Piece.isLiteral]

end History

/-! ## Lines -/

/-- A literal stands between the characters `before` and `after` of a line and becomes the number
`x`. The scan of what stands before is `s`. -/
structure WritesNumber (vars : Variables) (before after : List Char) (s : Scan) (x : Float)
    (e : Expression) : Prop where
  reads : (lexemes before).foldlM (Scan.step vars) {} = .ok s
  /-- No literal from before goes on. -/
  literal : s.literal = none
  /-- The number comes next after the tokens from before, and the product if one is understood. -/
  tokens : ∃ rest, e.tokens = s.emitted.reverse ++
    (if s.afterOperand then [.operator .mul] else []) ++ .number x :: rest
  /-- What stands after it is read without the literal and its sign. -/
  rest : (lexemes after).foldlM (Scan.step vars) (s.ended x) >>= Scan.finish = .ok e

section Line

variable {vars : Variables} {line : String} {e : Expression} {before run after : List Char}

theorem foldlM_lexemes (h : tokenize vars line = .ok e) :
    (lexemes (significant line)).foldlM (Scan.step vars) {} >>= Scan.finish = .ok e := by
  obtain ⟨-, ha, hend⟩ := tokenize_eq_ok.1 h
  obtain ⟨s, hs, hr⟩ := Scan.foldlM_step ha
  rw [hs]
  exact (hr.finish_eq_ok (History.regular_of_accepts ha)).2 hend

/-- A run of digits is one piece between those of the other characters. -/
theorem ofChars_maximalRun {cs : List Char} (hall : AllLexemes cs)
    (hm : MaximalRun Char.isDigit cs before run after) : History.ofChars cs =
      History.ofChars after ++ .literal (run.map Lexeme.digitValue) :: History.ofChars before := by
  rw [hm.eq] at hall ⊢
  have hdigits := History.ofChars_append_digits hall.left.left hm.left hm.ne_nil hm.all
  have hafter := lexemes_ne_digit hall.right hm.right
  rw [History.ofChars, lexemes_append, History.ofLexemes_append, ← hdigits]
  exact History.foldl_add_eq fun digit rest he => absurd he (hafter digit rest)

/-- A literal up to `2 ^ 53` becomes its number. -/
theorem exists_writesNumber (h : tokenize vars line = .ok e)
    (hm : MaximalRun Char.isDigit (significant line) before run after)
    (hn : Nat.ofDigitChars 10 run 0 ≤ 2 ^ 53) :
    ∃ s, WritesNumber vars before after s (Literal.signed s.minus (Nat.ofDigitChars 10 run 0)) e := by
  have hread := foldlM_lexemes h
  obtain ⟨hall, ha, -, -, htokens⟩ := tokenize_eq_ok.1 h
  have hpieces := ofChars_maximalRun hall hm
  have hvalue := Literal.ofDigits_digitValue hm.all hn
  rw [hm.eq] at hall ha hread
  have hbefore : AllLexemes before := AllLexemes.left (AllLexemes.left hall)
  rw [List.append_assoc, lexemes_append] at ha
  obtain ⟨s, hs, hr⟩ := Scan.foldlM_step (History.accepts_append.1 ha).1
  have hset : Scan.Settled (.ofChars before) s :=
    hr.settled_of_ne_literal (History.ofChars_ne_literal hbefore hm.left)
  refine ⟨s, hs, hset.literal, ?_, ?_⟩
  · -- What follows adds its tokens behind those of the literal.
    obtain ⟨ts, hts, -⟩ :=
      (History.Alike.refl (.literal (run.map Lexeme.digitValue) :: History.ofChars before)).tokens
        (.ofChars after)
    rw [hpieces, hts, History.tokens, History.tokensOf, hvalue, List.append_assoc] at htokens
    generalize List.replicate _ Token.closeParen = closers at htokens
    refine ⟨ts ++ closers, htokens.trans ?_⟩
    rw [hset.emitted, hset.minus, Scan.afterOperand_eq_endsOperand hset.emitted]
    simp [History.product, Literal.signed, Literal.toFloat]
  · rw [← hread, lexemes_append, lexemes_append, History.lexemes_digits hm.all, List.foldlM_append,
      List.foldlM_append, hs, Except.ok_bind,
      Scan.foldlM_digits hset.literal (by simpa using hm.ne_nil), hvalue, Except.ok_bind]
    have hended : (s.ended (Literal.signed s.minus (Nat.ofDigitChars 10 run 0))).endNumber =
        .ok (s.ended (Literal.signed s.minus (Nat.ofDigitChars 10 run 0))) :=
      Scan.endNumber_of_none (by simp [Scan.ended])
    have hafter := lexemes_ne_digit (AllLexemes.right hall) hm.right
    exact (Scan.foldlM_of_endNumber (Scan.endNumber_of_le hn) hended hafter).symm

/-- Every literal of a line that writes a number up to `2 ^ 53` becomes this number, or its negative
if a sign waits for it, and does so once. There are as many numbers on the line as literals, and
one more for each negated variable. -/
theorem tokenize_literal (h : tokenize vars line = .ok e) :
    (∀ before run after, MaximalRun Char.isDigit (significant line) before run after →
      Nat.ofDigitChars 10 run 0 ≤ 2 ^ 53 → ∃ s x, WritesNumber vars before after s x e ∧
        x = Literal.signed s.minus (Nat.ofDigitChars 10 run 0) ∧
        rational? x = some (if s.minus then -(Nat.ofDigitChars 10 run 0 : ℚ)
          else Nat.ofDigitChars 10 run 0)) ∧
    ∃ pieces, Splits pieces (significant line) ∧
      e.tokens.countP Token.isNumber =
        pieces.countP Piece.isLiteral + History.negatedLetters pieces.reverse := by
  refine ⟨fun before run after hm hn => ?_, ?_⟩
  · obtain ⟨s, hs⟩ := exists_writesNumber h hm hn
    exact ⟨s, _, hs, rfl, rational?_signed hn s.minus⟩
  · obtain ⟨hchars, -, -, -, htokens⟩ := tokenize_eq_ok.1 h
    refine ⟨(History.ofChars (significant line)).reverse, ?_, ?_⟩
    · rw [splits_iff, List.reverse_reverse]
      exact ⟨hchars, rfl⟩
    · rw [htokens, List.countP_append, History.countP_isNumber_tokens, List.reverse_reverse,
        List.countP_reverse, List.countP_replicate]
      rfl

/-- A sign in front of a group, zeros at the start and spaces between the digits. -/
theorem tokenize_literal_bound :
    let e : Expression := ⟨[.number 1, .operator .sub, .openParen, .number (-9007199254740992),
      .closeParen]⟩
    let line := "1 - -(00 9 007199254740992"
    let run := ['0', '0', '9', '0', '0', '7', '1', '9', '9', '2', '5', '4', '7', '4', '0', '9',
      '9', '2']
    tokenize ∅ line = .ok e ∧
      MaximalRun Char.isDigit (significant line) ['1', '-', '-', '('] run [] ∧
      Nat.ofDigitChars 10 run 0 = 2 ^ 53 ∧
      (∃ s x, WritesNumber ∅ ['1', '-', '-', '('] [] s x e ∧ x = Literal.signed s.minus (2 ^ 53) ∧
        rational? x = some (if s.minus then -((2 ^ 53 : Nat) : ℚ) else (2 ^ 53 : Nat))) ∧
      ∃ pieces, Splits pieces (significant line) ∧ e.tokens.countP Token.isNumber =
        pieces.countP Piece.isLiteral + History.negatedLetters pieces.reverse := by
  intro e line run
  have he : tokenize ∅ line = .ok e := by decide +kernel
  have hm : MaximalRun Char.isDigit (significant line) ['1', '-', '-', '('] run [] :=
    ⟨by decide +kernel, List.cons_ne_nil _ _, by simp [run], by simp, by simp⟩
  have hn : Nat.ofDigitChars 10 run 0 = 2 ^ 53 := by decide +kernel
  obtain ⟨hnumber, hcount⟩ := tokenize_literal he
  have hrun := hnumber _ run _ hm hn.le
  rw [hn] at hrun
  exact ⟨he, hm, hn, hrun, hcount⟩

end Line

end Calculator
