import Calculator.Proofs.Expression.Legal
import Calculator.Proofs.Line.Reading

/-!
# A line is read as a formula

The tokens of an acceptable line are at each place the beginning of a formula, and an operand ends
there where one ends on the line.

* `History.prefix_tokens`: the tokens of a history.
* `exists_formula_of_tokenize`: the tokens of a line are a formula, and its variables have values.
* `legal_of_tokenize`: the tokens of a line obey all rules for the tokens of an expression.
-/

namespace Calculator

namespace History

variable {vars : Variables} {h : History} {lexemes : List Lexeme}

/-- Letters are variables with a value, and each closing parenthesis ends an operand of a group that
is open. -/
def Scoped (vars : Variables) : History → Prop
  | .letter name :: before => vars.contains name = true ∧ Scoped vars before
  | .closeParen :: before =>
    before.count .closeParen < before.count .openParen ∧ endsOperand before = true ∧
      Scoped vars before
  | .literal _ :: before | .operator _ :: before | .openParen :: before => Scoped vars before
  | [] => True

theorem Scoped.add {lexeme : Lexeme} (hs : Scoped vars h) (ha : Admits vars h lexeme) :
    Scoped vars (h.add lexeme) := by
  cases lexeme with
  | digit digit =>
    rcases add_digit_cases h digit with ⟨digits, before, rfl, he⟩ | ⟨-, he⟩
    · rw [he]; exact hs
    · rw [he]; exact hs
  | letter name => exact ⟨ha.1, hs⟩
  | operator op => exact hs
  | openParen => exact hs
  | closeParen => exact ⟨ha.2.1, ha.2.2, hs⟩

theorem scoped_of_accepts (ha : Accepts vars lexemes) : Scoped vars (ofLexemes lexemes) := by
  induction lexemes using List.reverseRecOn with
  | nil => trivial
  | append_singleton lexemes lexeme ih =>
    obtain ⟨ha, hl⟩ := accepts_concat.1 ha
    rw [ofLexemes_concat]
    exact (ih ha).add hl

theorem count_le_of_scoped (hs : Scoped vars h) : h.count .closeParen ≤ h.count .openParen := by
  induction h with
  | nil => exact Nat.le_refl _
  | cons piece before ih =>
    cases piece with
    | letter name => simpa using ih hs.2
    | closeParen => simpa using Nat.succ_le_of_lt hs.1
    | openParen =>
      rw [List.count_cons_self, List.count_cons_of_ne (by simp)]
      exact Nat.le_succ_of_le (ih hs)
    | _ => simpa using ih hs

/-- A product is all that a complete beginning lacks before the next operand. -/
theorem prefix_product {n : Nat} {ts : List Token} (hp : Prefix (endsOperand h) n ts) :
    Prefix false n (ts ++ product h) := by
  rw [product]
  cases hb : endsOperand h with
  | true => rw [hb] at hp; exact hp.operator .mul
  | false => rw [hb] at hp; simpa using hp

/-- The tokens of a history are the beginning of a formula. -/
theorem prefix_tokens (hs : Scoped vars h) : Prefix (endsOperand h) h.openGroups h.tokens := by
  induction h with
  | nil => exact .nil
  | cons piece before ih =>
    rw [tokens]
    cases piece with
    | literal digits =>
      let value := Literal.toFloat (Literal.ofDigits digits)
      have hp := (prefix_product (ih hs)).operand
        (.number (if negated before then -value else value))
      simpa [tokensOf, openGroups, Operand.tokens, endsOperand] using hp
    | letter name =>
      have hp := prefix_product (ih hs.2)
      have hsign : Prefix false (openGroups before) (tokens before ++ product before ++
          if negated before then [.number (-1), .operator .mul] else []) := by
        split
        · have := (hp.operand (.number (-1))).operator .mul
          simpa [Operand.tokens] using this
        · simpa using hp
      simpa [tokensOf, openGroups, Operand.tokens, endsOperand] using hsign.operand (.var name)
    | operator op =>
      have hp := ih hs
      rw [tokensOf]
      cases hb : endsOperand before with
      | true => rw [hb] at hp; simpa [openGroups, endsOperand] using hp.operator op
      | false => rw [hb] at hp; simpa [openGroups, endsOperand] using hp
    | openParen =>
      have hle := count_le_of_scoped (h := before) hs
      have hn : openGroups (.openParen :: before) = openGroups before + 1 := by
        simp [openGroups]
        omega
      have hp := (prefix_product (ih hs)).openParen
      rw [hn]
      simpa [tokensOf, endsOperand] using hp
    | closeParen =>
      obtain ⟨hlt, hb, hs⟩ := hs
      have hp := ih hs
      rw [hb, openGroups_closeParen hlt] at hp
      exact hp.closeParen

/-- The letters of a history have values. -/
theorem contains_of_letter_mem {name : Char} (hs : Scoped vars h) (hm : .letter name ∈ h) :
    vars.contains name = true := by
  induction h with
  | nil => cases hm
  | cons piece before ih =>
    rcases List.mem_cons.1 hm with rfl | hb
    · exact hs.1
    · cases piece with
      | letter name' => exact ih hs.2 hb
      | closeParen => exact ih hs.2.2 hb
      | _ => exact ih hs hb

/-- The variables of the tokens are letters. -/
theorem letter_mem_of_var_mem {name : Char} (hm : Token.var name ∈ h.tokens) :
    .letter name ∈ h := by
  induction h with
  | nil => cases hm
  | cons piece before ih =>
    rw [tokens, List.mem_append] at hm
    rcases hm with hm | hm
    · exact List.mem_cons_of_mem _ (ih hm)
    · cases piece with
      | letter name' =>
        have : name = name' := by
          simp only [tokensOf, product] at hm
          split at hm <;> split at hm <;> simpa using hm
        exact this ▸ List.mem_cons_self
      | _ => simp [tokensOf, product] at hm

end History

section Line

variable {vars : Variables} {line : String} {e : Expression}

/-- The tokens of a line are those of a formula, and its variables have values. -/
theorem exists_formula_of_tokenize (h : tokenize vars line = .ok e) :
    ∃ f : Formula, f.tokens = e.tokens ∧
      ∀ name, Token.var name ∈ f.tokens → vars.contains name = true := by
  obtain ⟨-, ha, -, hb, he⟩ := tokenize_eq_ok.1 h
  have hs := History.scoped_of_accepts ha
  have hp := History.prefix_tokens hs
  change Prefix (History.ofChars _).endsOperand _ _ at hp
  rw [hb] at hp
  obtain ⟨f, hf⟩ := hp.exists_formula
  refine ⟨f, hf.trans he.symm, fun name hm => ?_⟩
  rw [hf, List.mem_append] at hm
  have hletter := History.letter_mem_of_var_mem (hm.resolve_right (by simp))
  exact History.contains_of_letter_mem hs hletter

/-- The tokens of a line obey the rules for the tokens of an expression, and its variables have
values. -/
theorem legal_of_tokenize (h : tokenize vars line = .ok e) :
    Legal e.tokens ∧ ∀ name, Token.var name ∈ e.tokens → vars.contains name = true := by
  obtain ⟨f, hf, hvars⟩ := exists_formula_of_tokenize h
  exact ⟨legal_iff_exists_formula.2 ⟨f, hf⟩, hf ▸ hvars⟩

/-- Signs, products and the groups that are open at the end of the line leave the rules in force. -/
theorem legal_of_tokenize_signs :
    let vars := Variables.set ∅ 'x' 3
    let e : Expression := ⟨[.number (-2), .operator .mul, .openParen, .var 'x', .operator .sub,
      .openParen, .number (-3), .operator .div, .number (-1), .operator .mul, .var 'x',
      .closeParen, .closeParen]⟩
    tokenize vars "-2(x--(3/-x" = .ok e ∧
      Legal e.tokens ∧ ∀ name, Token.var name ∈ e.tokens → vars.contains name = true := by
  intro vars e
  have h : tokenize vars "-2(x--(3/-x" = .ok e := by decide +kernel
  exact ⟨h, legal_of_tokenize h⟩

end Line

end Calculator
