import Calculator.Line.Scan
import Calculator.Proofs.Except

/-!
# Tokens and lexemes of the scan

What the scan does when it adds a token, and what it does with one lexeme: when the lexeme can be
read, and which state is left. Every lexeme but a digit ends the literal before it, so the state
after the lexeme is a change of the state after that literal.

* `Scan.emit_eq`, `Scan.reverse_emitted_emit`, `Scan.filter_emitted_emit`: one token.
* `Scan.endNumber_eq_ok`: the end of a literal.
* `Scan.readLetter_eq_ok`, `Scan.readOpenParen_eq_ok`, `Scan.readCloseParen_eq_ok`,
  `Scan.readOperator_eq_ok`: one lexeme.
-/

namespace Calculator

namespace Scan

variable {vars : Variables} {s s' : Scan} {token : Token} {op : Operator} {name : Char}

/-! ## One token -/

/-- The products that are understood are those between two operands. -/
theorem impliesProduct_eq {left right : Token}
    (hn : ∀ x y, left = .number x → right ≠ .number y) :
    impliesProduct left right = (left.endsOperand && right.startsOperand) := by
  cases left with
  | number x =>
    cases right with
    | number y => exact absurd rfl (hn x y rfl)
    | _ => rfl
  | _ => rfl

theorem afterOperand_eq (s : Scan) :
    s.afterOperand = s.emitted.reverse.getLast?.any Token.endsOperand := by
  rw [afterOperand, List.getLast?_reverse]

/-- A token is added at the end, after a multiplication if an operand follows an operand. Only
between two numbers there is none. -/
theorem reverse_emitted_emit
    (hn : ∀ x y, s.emitted.head? = some (.number x) → token ≠ .number y) :
    (s.emit token).emitted.reverse = s.emitted.reverse ++
      (if s.afterOperand && token.startsOperand then [.operator .mul] else []) ++ [token] := by
  obtain ⟨emitted, literal, minus, openGroups, run⟩ := s
  cases emitted with
  | nil => rfl
  | cons last rest =>
    have himplies := impliesProduct_eq fun x y hx => hn x y (congrArg some hx)
    have hafter : (Scan.mk (last :: rest) literal minus openGroups run).afterOperand =
        last.endsOperand := rfl
    rw [hafter]
    cases hb : last.endsOperand && token.startsOperand with
    | true => simp [emit, himplies, hb]
    | false => simp [emit, himplies, hb]

/-- Adding a token changes nothing but the tokens. -/
theorem emit_eq (s : Scan) (token : Token) :
    s.emit token = { s with emitted := (s.emit token).emitted } := by
  unfold emit
  split
  · split <;> rfl
  · rfl

@[simp]
theorem emit_literal (s : Scan) (token : Token) : (s.emit token).literal = s.literal := by
  rw [emit_eq]

@[simp]
theorem emit_minus (s : Scan) (token : Token) : (s.emit token).minus = s.minus := by
  rw [emit_eq]

@[simp]
theorem emit_openGroups (s : Scan) (token : Token) :
    (s.emit token).openGroups = s.openGroups := by
  rw [emit_eq]

@[simp]
theorem emit_run (s : Scan) (token : Token) : (s.emit token).run = s.run := by
  rw [emit_eq]

theorem head?_emitted_emit (s : Scan) (token : Token) :
    (s.emit token).emitted.head? = some token := by
  unfold emit; split <;> (try split) <;> rfl

theorem afterOperand_emit (s : Scan) (token : Token) :
    (s.emit token).afterOperand = token.endsOperand := by
  rw [afterOperand, head?_emitted_emit]
  rfl

/-- Only a multiplication may come with a token. -/
theorem filter_emitted_emit {p : Token → Bool} (hp : p (.operator .mul) = false) (s : Scan)
    (token : Token) : (s.emit token).emitted.filter p = (token :: s.emitted).filter p := by
  unfold emit
  split
  · split
    · by_cases ht : p token = true
      · rw [List.filter_cons_of_pos ht, List.filter_cons_of_pos ht,
          List.filter_cons_of_neg (by simp [hp])]
      · rw [List.filter_cons_of_neg ht, List.filter_cons_of_neg ht,
          List.filter_cons_of_neg (by simp [hp])]
    · rfl
  · rename_i he
    rw [he]

theorem count_emitted_emit {t : Token} (ht : t ≠ .operator .mul) (s : Scan) (token : Token) :
    (s.emit token).emitted.count t = (token :: s.emitted).count t := by
  have hp : (Token.operator .mul == t) = false := by simpa using ht.symm
  rw [List.count_eq_countP, List.count_eq_countP, List.countP_eq_length_filter,
    List.countP_eq_length_filter, filter_emitted_emit hp]

theorem count_emitted_emit_self (ht : token ≠ .operator .mul) (s : Scan) :
    (s.emit token).emitted.count token = s.emitted.count token + 1 := by
  rw [count_emitted_emit ht, List.count_cons_self]

theorem count_emitted_emit_of_ne {t : Token} (ht : t ≠ .operator .mul) (hne : token ≠ t)
    (s : Scan) : (s.emit token).emitted.count t = s.emitted.count t := by
  rw [count_emitted_emit ht, List.count_cons_of_ne hne]

/-! ## One lexeme -/

/-- A finite literal becomes a token with the sign that waits, and no sign is left. -/
theorem endNumber_eq_ok : s.endNumber = .ok s' ↔
    s.literal = none ∧ s' = s ∨
      ∃ value, s.literal = some value ∧ Literal.IsFinite value ∧
        s' = { s with literal := none, minus := false }.emit
          (.number (if s.minus then -Literal.toFloat value else Literal.toFloat value)) := by
  unfold endNumber
  cases hl : s.literal with
  | none => simp [@eq_comm _ s']
  | some value =>
    by_cases hf : Literal.IsFinite value
    · simp [hf, @eq_comm _ s']
    · simp [hf]

@[simp]
theorem emitSign_literal (s : Scan) : s.emitSign.literal = s.literal := by
  unfold emitSign
  split
  · simp
  · rfl

@[simp]
theorem emitSign_minus (s : Scan) : s.emitSign.minus = false := by
  unfold emitSign
  split
  · simp
  · rename_i hm
    simpa using hm

@[simp]
theorem emitSign_openGroups (s : Scan) : s.emitSign.openGroups = s.openGroups := by
  unfold emitSign
  split
  · simp
  · rfl

theorem readLetter_eq_ok : s.readLetter vars name = .ok s' ↔
    vars.contains name = true ∧ ∃ s₁, s.endNumber = .ok s₁ ∧
      s' = { s₁.emitSign.emit (.var name) with run := 0 } := by
  unfold readLetter
  by_cases hn : vars.contains name = true
  · rw [if_pos hn, Except.bind_eq_ok]
    simp [hn, @eq_comm _ s']
  · rw [if_neg hn]
    simp [hn]

theorem readOpenParen_eq_ok : s.readOpenParen = .ok s' ↔
    ∃ s₁, s.endNumber = .ok s₁ ∧
      s' = { s₁.emit .openParen with openGroups := s₁.openGroups + 1, run := 1 } := by
  unfold readOpenParen
  rw [Except.bind_eq_ok]
  simp [@eq_comm _ s']

/-- A group that is open can be closed behind an operand. -/
theorem readCloseParen_eq_ok : s.readCloseParen = .ok s' ↔
    ∃ s₁, s.endNumber = .ok s₁ ∧ 0 < s₁.openGroups ∧ s₁.afterOperand = true ∧
      s' = { s₁.emit .closeParen with openGroups := s₁.openGroups - 1, run := 0 } := by
  unfold readCloseParen
  rw [Except.bind_eq_ok]
  refine exists_congr fun s₁ => and_congr_right fun _ => ?_
  by_cases hg : s₁.openGroups = 0
  · simp [hg]
  · rw [if_neg hg, afterOperand]
    match s₁.emitted with
    | [] | .openParen :: _ | .operator _ :: _ => simp [Token.endsOperand]
    | .number _ :: _ | .var _ :: _ | .closeParen :: _ =>
      simp [Token.endsOperand, Nat.pos_of_ne_zero hg, @eq_comm _ s']

/-- An operator character is binary behind an operand. Anywhere else it is a sign, in a run that is
not too long. -/
theorem readOperator_eq_ok : s.readOperator op = .ok s' ↔
    ∃ s₁, s.endNumber = .ok s₁ ∧
      (s₁.afterOperand = true ∧ s' = { s₁ with run := s₁.run + 1 }.emit (.operator op) ∨
        s₁.afterOperand = false ∧ s₁.run < maxRun ∧
          (op = .add ∧ s' = { s₁ with run := s₁.run + 1 } ∨
            op = .sub ∧ s' = { s₁ with run := s₁.run + 1, minus := true })) := by
  unfold readOperator
  rw [Except.bind_eq_ok]
  refine exists_congr fun s₁ => and_congr_right fun _ => ?_
  change (if s₁.afterOperand then _ else _) = _ ↔ _
  cases ha : s₁.afterOperand with
  | true => simp [@eq_comm _ s']
  | false =>
    by_cases hrun : s₁.run < maxRun
    · have hle : ¬ maxRun < s₁.run + 1 := by omega
      cases op <;> simp [hle, hrun, @eq_comm _ s']
    · have hlt : maxRun < s₁.run + 1 := by omega
      simp [hlt, hrun]

end Scan

end Calculator
