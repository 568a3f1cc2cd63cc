import Calculator.Proofs.Line.History
import Calculator.Proofs.Line.Lexeme
import Calculator.Proofs.Line.Step

/-!
# The scan reads a history

The state of the scan after some lexemes is a function of their history, and the scan goes on
exactly where the history admits the next lexeme.

* `Scan.Reads`: the state that belongs to a history. A literal at the end of the history is not
  among the tokens yet; `Scan.Settled` is the state after it has become one.
* `Scan.Reads.step`, `Scan.Reads.admits`: one lexeme.
* `Scan.foldlM_step`, `Scan.accepts_of_foldlM_step`: all lexemes.
* `tokenize_eq_ok`: the lines that are expressions, and what they are read as.
-/

namespace Calculator

namespace Scan

variable {vars : Variables} {s s' : Scan} {h : History} {token : Token}

/-! ## The state of a history -/

/-- The state after a history whose literals have all become tokens. -/
structure Settled (h : History) (s : Scan) : Prop where
  literal : s.literal = none
  emitted : s.emitted.reverse = h.tokens
  minus : s.minus = h.negated
  opened : s.openGroups + h.count .closeParen = h.count .openParen

/-- The state after a history. A literal at its end has not become a token yet. -/
inductive Reads : History → Scan → Prop
  | literal {digits : List (Fin 10)} {before : History} {s : Scan}
    (hl : s.literal = some (Literal.ofDigits digits)) (hr : s.run = 0)
    (hs : Settled before { s with literal := none }) :
    Reads (.literal digits :: before) s
  | settled {h : History} {s : Scan} (hd : ∀ digits before, h ≠ .literal digits :: before)
    (hr : s.run = h.run) (hs : Settled h s) : Reads h s

theorem Reads.settled_of_ne_literal (hr : Reads h s)
    (hd : ∀ digits before, h ≠ .literal digits :: before) : Settled h s := by
  cases hr with
  | literal => exact absurd rfl (hd _ _)
  | settled _ _ hs => exact hs

theorem reads_nil : Reads [] {} :=
  .settled (by simp) rfl ⟨rfl, rfl, rfl, rfl⟩

theorem afterOperand_eq_endsOperand (hs : s.emitted.reverse = h.tokens) :
    s.afterOperand = h.endsOperand := by
  rw [afterOperand_eq, hs, History.any_endsOperand_getLast?_tokens]

/-- Unless a number follows a literal, a token comes after the product that the history implies. -/
theorem reverse_emitted_emit_of_tokens (hs : s.emitted.reverse = h.tokens)
    (hn : ∀ digits before x, h = .literal digits :: before → token ≠ .number x) :
    (s.emit token).emitted.reverse =
      h.tokens ++ (if token.startsOperand then h.product else []) ++ [token] := by
  rw [reverse_emitted_emit, hs, afterOperand_eq_endsOperand hs, History.product]
  · cases h.endsOperand <;> cases token.startsOperand <;> rfl
  · intro x y hx
    rw [← List.getLast?_reverse, hs] at hx
    obtain ⟨digits, before, rfl⟩ := History.exists_literal_of_getLast?_tokens hx
    exact hn digits before y rfl

/-! ## Ending a literal -/

/-- A finite literal becomes a token, with the sign that waits for it. -/
theorem Reads.endNumber (hr : Reads h s) (hg : h.Regular) (hf : h.Finite) :
    ∃ s', s.endNumber = .ok s' ∧ Settled h s' ∧ s'.run = h.run := by
  cases hr with
  | @literal digits before s hl hr hs =>
    rw [Scan.endNumber, hl]
    simp only [if_pos (show Literal.IsFinite (Literal.ofDigits digits) from hf)]
    refine ⟨_, rfl, ⟨by simp, ?_, by simp [History.negated], ?_⟩, ?_⟩
    · have htokens : ({ s with literal := none, minus := false } : Scan).emitted.reverse =
          before.tokens := hs.emitted
      have hminus : s.minus = before.negated := hs.minus
      rw [reverse_emitted_emit_of_tokens htokens, hminus]
      · simp [History.tokens, History.tokensOf, Token.startsOperand]
      · intro digits' rest _ he
        exact Bool.noConfusion ((History.grouped_cons.1 hg.grouped).2.1 digits' rest he)
    · have := hs.opened
      simpa using this
    · simpa [History.run] using hr
  | settled hd hr hs =>
    rw [Scan.endNumber, hs.literal]
    exact ⟨s, rfl, hs, hr⟩

theorem Reads.endNumber_eq_error (hr : Reads h s) (hf : ¬ h.Finite) :
    s.endNumber = .error .literalTooLarge := by
  cases hr with
  | literal hl _ _ =>
    rw [Scan.endNumber, hl]
    exact if_neg hf
  | @settled h s hd _ _ =>
    refine absurd ?_ hf
    cases h with
    | nil => trivial
    | cons piece before =>
      cases piece with
      | literal digits => exact absurd rfl (hd digits before)
      | _ => trivial

/-- Only a finite literal ends. -/
theorem Reads.finite_of_endNumber (hr : Reads h s) (hg : h.Regular) (hs : s.endNumber = .ok s') :
    h.Finite ∧ Settled h s' ∧ s'.run = h.run := by
  by_cases hf : h.Finite
  · obtain ⟨s₁, hs₁, hset, hrun⟩ := hr.endNumber hg hf
    rw [hs] at hs₁
    cases hs₁
    exact ⟨hf, hset, hrun⟩
  · rw [hr.endNumber_eq_error hf] at hs
    cases hs

/-! ## One lexeme -/

theorem Reads.readDigit (hr : Reads h s) (digit : Fin 10) :
    Reads (h.add (.digit digit)) (s.readDigit digit) := by
  cases hr with
  | @literal digits before s hl hr hs =>
    refine .literal ?_ rfl ⟨rfl, hs.emitted, hs.minus, hs.opened⟩
    simp [Scan.readDigit, hl, Literal.ofDigits]
  | settled hd hr hs =>
    rw [History.add_digit_of_ne hd]
    refine .literal ?_ rfl ⟨rfl, hs.emitted, hs.minus, hs.opened⟩
    simp [Scan.readDigit, hs.literal, Literal.ofDigits]

/-- The sign of a variable comes after an operator or an opening parenthesis, if anywhere. -/
theorem Settled.emitSign (hs : Settled h s) (hg : h.Regular) (name : Char) :
    (s.emitSign.emit (.var name)).emitted.reverse = h.tokens ++ h.tokensOf (.letter name) := by
  have hvar : ∀ digits before x, h = .literal digits :: before → Token.var name ≠ .number x :=
    fun _ _ _ _ => by simp
  rw [Scan.emitSign, hs.minus]
  cases hn : h.negated with
  | false =>
    rw [if_neg Bool.false_ne_true, reverse_emitted_emit_of_tokens hs.emitted hvar]
    simp [History.tokensOf, hn, Token.startsOperand]
  | true =>
    have hb := hg.sign hn
    have htokens : ({ s with minus := false } : Scan).emitted.reverse = h.tokens := hs.emitted
    have hone : ∀ digits before x, h = .literal digits :: before → Token.number (-1) ≠ .number x :=
      fun digits before x he => by rw [he] at hn; cases hn
    rw [if_pos rfl, reverse_emitted_emit (by simp), reverse_emitted_emit (by simp),
      reverse_emitted_emit_of_tokens htokens hone, afterOperand_emit, afterOperand_emit]
    simp [History.tokensOf, History.product, hn, hb, Token.startsOperand, Token.endsOperand]

theorem Reads.readLetter {name : Char} (hr : Reads h s) (hg : h.Regular)
    (ha : h.Admits vars (.letter name)) :
    ∃ s', s.readLetter vars name = .ok s' ∧ Reads (h.add (.letter name)) s' := by
  obtain ⟨s₁, hs₁, hs, -⟩ := hr.endNumber hg ha.2
  refine ⟨_, readLetter_eq_ok.2 ⟨ha.1, s₁, hs₁, rfl⟩, .settled
    (History.add_ne_literal (by simp) h) rfl ⟨?_, hs.emitSign hg name, ?_, ?_⟩⟩
  · simp [hs.literal]
  · simp [History.add, History.negated]
  · simpa [History.add] using hs.opened

theorem Reads.readOpenParen (hr : Reads h s) (hg : h.Regular) (hf : h.Finite) :
    ∃ s', s.readOpenParen = .ok s' ∧ Reads (h.add .openParen) s' := by
  obtain ⟨s₁, hs₁, hs, -⟩ := hr.endNumber hg hf
  refine ⟨_, readOpenParen_eq_ok.2 ⟨s₁, hs₁, rfl⟩, .settled
    (History.add_ne_literal (by simp) h) rfl ⟨?_, ?_, ?_, ?_⟩⟩
  · simp [hs.literal]
  · simp [reverse_emitted_emit_of_tokens hs.emitted, History.add, History.tokens,
      History.tokensOf, Token.startsOperand]
  · simp [hs.minus, History.add, History.negated]
  · have := hs.opened
    simp only [History.add, List.count_cons]
    simp only [beq_iff_eq, reduceCtorEq, if_false, if_true]
    omega

theorem Reads.readCloseParen (hr : Reads h s) (hg : h.Regular)
    (ha : h.Admits vars .closeParen) :
    ∃ s', s.readCloseParen = .ok s' ∧ Reads (h.add .closeParen) s' := by
  obtain ⟨hf, hcount, hb⟩ := ha
  obtain ⟨s₁, hs₁, hs, -⟩ := hr.endNumber hg hf
  have hopened := hs.opened
  have hafter : s₁.afterOperand = true := by rw [afterOperand_eq_endsOperand hs.emitted, hb]
  refine ⟨_, readCloseParen_eq_ok.2 ⟨s₁, hs₁, by omega, hafter, rfl⟩, .settled
    (History.add_ne_literal (by simp) h) rfl ⟨?_, ?_, ?_, ?_⟩⟩
  · simp [hs.literal]
  · simp [reverse_emitted_emit_of_tokens hs.emitted, History.add, History.tokens,
      History.tokensOf, Token.startsOperand]
  · simp [hs.minus, History.add, History.negated]
  · simp only [History.add, List.count_cons]
    simp only [beq_iff_eq, reduceCtorEq, if_false, if_true]
    omega

theorem Reads.readOperator {op : Operator} (hr : Reads h s) (hg : h.Regular)
    (ha : h.Admits vars (.operator op)) :
    ∃ s', s.readOperator op = .ok s' ∧ Reads (h.add (.operator op)) s' := by
  obtain ⟨hf, ha⟩ := ha
  obtain ⟨s₁, hs₁, hs, hrun⟩ := hr.endNumber hg hf
  have hafter := afterOperand_eq_endsOperand hs.emitted
  have hopened : s₁.openGroups + (h.add (.operator op)).count .closeParen =
      (h.add (.operator op)).count .openParen := by
    simpa [History.add] using hs.opened
  cases hb : h.endsOperand with
  | true =>
    refine ⟨_, readOperator_eq_ok.2 ⟨s₁, hs₁, .inl ⟨hafter.trans hb, rfl⟩⟩, .settled
      (History.add_ne_literal (by simp) h) ?_ ⟨?_, ?_, ?_, ?_⟩⟩
    · simp [hrun, History.add, History.run]
    · simp [hs.literal]
    · have htokens : ({ s₁ with run := s₁.run + 1 } : Scan).emitted.reverse = h.tokens := hs.emitted
      rw [reverse_emitted_emit_of_tokens htokens (by simp)]
      simp [History.add, History.tokens, History.tokensOf, hb, Token.startsOperand]
    · cases op <;> simp [hs.minus, History.add, History.negated, hb]
    · simpa using hopened
  | false =>
    obtain ⟨hop, hlt⟩ := ha.resolve_left (by rw [hb]; exact Bool.false_ne_true)
    have htokens : s₁.emitted.reverse = (h.add (.operator op)).tokens := by
      simp [hs.emitted, History.add, History.tokens, History.tokensOf, hb]
    have hlt₁ : s₁.run < maxRun := by omega
    have hrun₁ (op : Operator) : s₁.run + 1 = (h.add (.operator op)).run := by rw [hrun]; rfl
    rcases hop with rfl | rfl
    · refine ⟨_, readOperator_eq_ok.2 ⟨s₁, hs₁, .inr ⟨hafter.trans hb, hlt₁, .inl ⟨rfl, rfl⟩⟩⟩,
        .settled (History.add_ne_literal (by simp) h) (hrun₁ _) ⟨hs.literal, htokens, ?_, hopened⟩⟩
      simp [hs.minus, History.add, History.negated]
    · refine ⟨_, readOperator_eq_ok.2 ⟨s₁, hs₁, .inr ⟨hafter.trans hb, hlt₁, .inr ⟨rfl, rfl⟩⟩⟩,
        .settled (History.add_ne_literal (by simp) h) (hrun₁ _) ⟨hs.literal, htokens, ?_, hopened⟩⟩
      simp [History.add, History.negated, hb]

/-- The scan goes on where the history admits the next lexeme. -/
theorem Reads.step {lexeme : Lexeme} (hr : Reads h s) (hg : h.Regular)
    (ha : h.Admits vars lexeme) : ∃ s', s.step vars lexeme = .ok s' ∧ Reads (h.add lexeme) s' := by
  cases lexeme with
  | digit digit => exact ⟨_, rfl, hr.readDigit digit⟩
  | letter name => exact hr.readLetter hg ha
  | operator op => exact hr.readOperator hg ha
  | openParen => exact hr.readOpenParen hg ha
  | closeParen => exact hr.readCloseParen hg ha

/-- The scan stops where it does not. -/
theorem Reads.admits {lexeme : Lexeme} (hr : Reads h s) (hg : h.Regular)
    (hs : s.step vars lexeme = .ok s') : h.Admits vars lexeme := by
  cases lexeme with
  | digit digit => trivial
  | letter name =>
    obtain ⟨hname, s₁, h₁, -⟩ := readLetter_eq_ok.1 hs
    exact ⟨hname, (hr.finite_of_endNumber hg h₁).1⟩
  | openParen =>
    obtain ⟨s₁, h₁, -⟩ := readOpenParen_eq_ok.1 hs
    exact (hr.finite_of_endNumber hg h₁).1
  | closeParen =>
    obtain ⟨s₁, h₁, hpos, hafter, -⟩ := readCloseParen_eq_ok.1 hs
    obtain ⟨hf, hset, -⟩ := hr.finite_of_endNumber hg h₁
    have hopened := hset.opened
    exact ⟨hf, by omega, (afterOperand_eq_endsOperand hset.emitted).symm.trans hafter⟩
  | operator op =>
    obtain ⟨s₁, h₁, hcases⟩ := readOperator_eq_ok.1 hs
    obtain ⟨hf, hset, hrun⟩ := hr.finite_of_endNumber hg h₁
    refine ⟨hf, ?_⟩
    rcases hcases with ⟨hafter, -⟩ | ⟨-, hlt, hop⟩
    · exact .inl ((afterOperand_eq_endsOperand hset.emitted).symm.trans hafter)
    · exact .inr ⟨hop.imp And.left And.left, by omega⟩

/-! ## All lexemes -/

theorem foldlM_step {lexemes : List Lexeme} (ha : History.Accepts vars lexemes) :
    ∃ s, lexemes.foldlM (Scan.step vars) {} = .ok s ∧ Reads (.ofLexemes lexemes) s := by
  induction lexemes using List.reverseRecOn with
  | nil => exact ⟨{}, rfl, reads_nil⟩
  | append_singleton lexemes lexeme ih =>
    obtain ⟨ha, hl⟩ := History.accepts_concat.1 ha
    obtain ⟨s, hs, hr⟩ := ih ha
    obtain ⟨s', hs', hr'⟩ := hr.step (History.regular_of_accepts ha) hl
    refine ⟨s', ?_, History.ofLexemes_concat lexemes lexeme ▸ hr'⟩
    rw [List.foldlM_append, hs, Except.ok_bind, List.foldlM_cons, hs']
    rfl

theorem accepts_of_foldlM_step {lexemes : List Lexeme}
    (hs : lexemes.foldlM (Scan.step vars) {} = .ok s) : History.Accepts vars lexemes := by
  induction lexemes using List.reverseRecOn generalizing s with
  | nil => exact History.accepts_nil
  | append_singleton lexemes lexeme ih =>
    rw [List.foldlM_append] at hs
    obtain ⟨s₁, hs₁, hs⟩ := Except.bind_eq_ok.1 hs
    rw [List.foldlM_cons] at hs
    obtain ⟨s₂, hs₂, -⟩ := Except.bind_eq_ok.1 hs
    have ha := ih hs₁
    obtain ⟨s₁', hs₁', hr⟩ := foldlM_step ha
    rw [hs₁] at hs₁'
    cases hs₁'
    exact History.accepts_concat.2 ⟨ha, hr.admits (History.regular_of_accepts ha) hs₂⟩

/-- At the end of the line an operand has to have ended, and the groups that are open are closed. -/
theorem Reads.finish_eq_ok {e : Expression} (hr : Reads h s) (hg : h.Regular) :
    s.finish = .ok e ↔ h.Finite ∧ h.endsOperand = true ∧
      e.tokens = h.tokens ++ List.replicate h.openGroups .closeParen := by
  constructor
  · intro he
    obtain ⟨s₁, h₁, he⟩ := Except.bind_eq_ok.1 he
    obtain ⟨hf, hset, -⟩ := hr.finite_of_endNumber hg h₁
    have hopened := hset.opened
    rw [afterOperand_eq_endsOperand hset.emitted, hset.emitted] at he
    split at he
    · rename_i hb
      cases he
      refine ⟨hf, hb, ?_⟩
      rw [show s₁.openGroups = h.openGroups by rw [History.openGroups]; omega]
    · cases he
  · rintro ⟨hf, hb, he⟩
    obtain ⟨s₁, h₁, hset, -⟩ := hr.endNumber hg hf
    have hopened := hset.opened
    rw [Scan.finish, h₁, Except.ok_bind, afterOperand_eq_endsOperand hset.emitted, hb, if_pos rfl,
      hset.emitted, show s₁.openGroups = h.openGroups by rw [History.openGroups]; omega, ← he]

end Scan

/-! ## The line -/

/-- The history at the end of some characters. -/
def History.ofChars (cs : List Char) : History := .ofLexemes (lexemes cs)

section Line

variable {vars : Variables} {line : String}

/-- Reading the places of a line is reading the lexemes of its characters, if each character that
is not skipped is one. -/
theorem foldlM_stepAt {cs : List Char} {s s' : Scan} (start : Nat) :
    (Lexeme.occurrencesFrom start cs).foldlM (Scan.stepAt vars) s = .ok s' ↔
      (∀ c ∈ cs.filter fun c => !Lexeme.isSkipped c, (Lexeme.ofChar? c).isSome) ∧
        (lexemes (cs.filter fun c => !Lexeme.isSkipped c)).foldlM (Scan.step vars) s = .ok s' := by
  induction cs generalizing start s with
  | nil => simp [Lexeme.occurrencesFrom, lexemes]
  | cons c cs ih =>
    rw [Lexeme.occurrencesFrom]
    cases hc : Lexeme.isSkipped c with
    | true => simpa [hc] using ih (start + c.utf8Size)
    | false =>
      rw [if_neg Bool.false_ne_true, List.foldlM_cons, List.filter_cons_of_pos (by simp [hc])]
      cases hl : Lexeme.ofChar? c with
      | none => simp [Scan.stepAt, hl]
      | some lexeme =>
        simp only [Scan.stepAt, List.forall_mem_cons, hl, Option.isSome_some, true_and, lexemes,
          List.filterMap_cons, List.foldlM_cons, Except.bind_eq_ok]
        simp only [ih, lexemes]
        constructor
        · rintro ⟨s₁, h₁, h₂, h₃⟩
          exact ⟨h₂, s₁, h₁, h₃⟩
        · rintro ⟨h₂, s₁, h₁, h₃⟩
          exact ⟨s₁, h₁, h₂, h₃⟩

/-- The state after all places of a line is that of the history of its characters. -/
theorem reads_of_foldlM {s : Scan}
    (h : (Lexeme.occurrences line).foldlM (Scan.stepAt vars) {} = .ok s) :
    (∀ c ∈ significant line, (Lexeme.ofChar? c).isSome) ∧
      History.Accepts vars (lexemes (significant line)) ∧
      Scan.Reads (.ofChars (significant line)) s := by
  obtain ⟨hchars, hs⟩ := (foldlM_stepAt 0).1 h
  have ha := Scan.accepts_of_foldlM_step hs
  obtain ⟨s', hs', hr⟩ := Scan.foldlM_step ha
  have he : s' = s := Except.ok.inj (hs'.symm.trans hs)
  exact ⟨hchars, ha, he ▸ hr⟩

/-- The lines that are expressions, and what they are read as. -/
theorem tokenize_eq_ok {e : Expression} : tokenize vars line = .ok e ↔
    (∀ c ∈ significant line, (Lexeme.ofChar? c).isSome) ∧
    History.Accepts vars (lexemes (significant line)) ∧
    (History.ofChars (significant line)).Finite ∧
    (History.ofChars (significant line)).endsOperand = true ∧
    e.tokens = (History.ofChars (significant line)).tokens ++
      List.replicate (History.ofChars (significant line)).openGroups .closeParen := by
  constructor
  · intro h
    rw [tokenize] at h
    split at h
    · cases h
    · obtain ⟨s, hs, he⟩ := Except.bind_eq_ok.1 h
      obtain ⟨hchars, ha, hr⟩ := reads_of_foldlM hs
      exact ⟨hchars, ha, (hr.finish_eq_ok (History.regular_of_accepts ha)).1 he⟩
  · rintro ⟨hchars, ha, hend⟩
    obtain ⟨s, hs, hr⟩ := Scan.foldlM_step ha
    have hread : (Lexeme.occurrences line).foldlM (Scan.stepAt vars) {} = .ok s :=
      (foldlM_stepAt 0).2 ⟨hchars, hs⟩
    have hblank : isBlank line = false := by
      cases hline : significant line with
      | nil => rw [hline] at hend; exact absurd hend.2.1 Bool.false_ne_true
      | cons c cs =>
        have hc : c ∈ significant line := by rw [hline]; exact List.mem_cons_self
        obtain ⟨lexeme, hl⟩ := Option.isSome_iff_exists.1 (hchars c hc)
        exact isBlank_eq_false hc hl
    rw [tokenize, hblank, if_neg Bool.false_ne_true, hread, Except.ok_bind]
    exact (hr.finish_eq_ok (History.regular_of_accepts ha)).2 hend

end Line

end Calculator
