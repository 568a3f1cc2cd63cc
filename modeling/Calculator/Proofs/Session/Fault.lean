import Calculator.Proofs.Evaluation.Value
import Calculator.Proofs.Line.Letters
import Calculator.Session

/-!
# No line meets an internal fault

What is read from a line is a formula, and a formula whose variables have values fails for an
arithmetic reason only, or because its groups nest too deep.

* `not_isInternal_of_evaluate`: the tokens of a line.
* `not_isInternal_of_line`: every way to give a line to a session.
-/

namespace Calculator

/-- The errors of an evaluation that no line can meet. -/
def LineError.IsInternal : LineError → Prop
  | .evaluation e => e.IsInternal
  | .expression _ | .assignment _ => False

section Fault

variable {vars : Variables} {line : String} {expression : Expression}

/-- The tokens of a line have a value, or they have none for an arithmetic reason or because their
groups nest too deep. -/
theorem not_isInternal_of_evaluate {limit : Nat} {e : EvalError}
    (hline : tokenize vars line = .ok expression)
    (he : evaluate limit vars expression.tokens = .error e) : ¬ e.IsInternal := by
  obtain ⟨f, hf, hvars⟩ := exists_formula_of_tokenize hline
  have hresult : f.tree.Result vars (limit + 1) (evaluate limit vars f.tokens) :=
    evaluate_formula f hvars
  rw [hf, he] at hresult
  exact hresult.1

namespace Session

variable {s : Session} {e : LineError}

theorem not_isInternal_of_evaluate (h : s.evaluate line = .error e) : ¬ e.IsInternal := by
  unfold evaluate at h
  split at h
  · cases h
    exact id
  · rename_i hline
    split at h
    · rename_i he
      cases h
      exact Calculator.not_isInternal_of_evaluate hline he
    · cases h

theorem not_isInternal_of_assign (h : (s.assign line).1 = .error e) : ¬ e.IsInternal := by
  unfold assign at h
  split at h
  · cases h
    exact id
  · rename_i hline
    split at h
    · rename_i he
      cases h
      exact Calculator.not_isInternal_of_evaluate (Assignment.tokenize_of_ofLine hline) he
    · cases h

/-- A line fails as the assignment or the expression that it is. -/
theorem not_isInternal_of_answer (h : (s.answer line).1 = .error e) : ¬ e.IsInternal := by
  unfold answer at h
  split at h
  · cases h
  · split at h
    · cases ha : (s.assign line).1 with
      | ok outcome => simp [ha, Except.map] at h
      | error e' =>
        have : e' = e := by simpa [ha, Except.map] using h
        exact this ▸ not_isInternal_of_assign ha
    · cases he : s.evaluate line with
      | ok value => simp [he, Except.map] at h
      | error e' =>
        have : e' = e := by simpa [he, Except.map] using h
        exact this ▸ not_isInternal_of_evaluate he

end Session

/-- Whatever a line holds, and whatever the variables and the limit are, no internal fault is the
answer. -/
theorem not_isInternal_of_line :
    (∀ limit vars line expression e, tokenize vars line = .ok expression →
      evaluate limit vars expression.tokens = .error e → ¬ e.IsInternal) ∧
    (∀ (s : Session) line e, s.evaluate line = .error e → ¬ e.IsInternal) ∧
    (∀ (s : Session) line e, (s.assign line).1 = .error e → ¬ e.IsInternal) ∧
    (∀ (s : Session) line e, (s.answer line).1 = .error e → ¬ e.IsInternal) ∧
    (∀ line e, calculate line = .error e → ¬ e.IsInternal) :=
  ⟨fun _ _ _ _ _ => not_isInternal_of_evaluate,
    fun _ _ _ => Session.not_isInternal_of_evaluate,
    fun _ _ _ => Session.not_isInternal_of_assign,
    fun _ _ _ => Session.not_isInternal_of_answer,
    fun line _ => @Session.not_isInternal_of_evaluate line {} _⟩

/-- A division by zero is reported as such in every way. -/
theorem not_isInternal_of_line_division :
    let s : Session := { vars := Variables.set ∅ 'x' 0 }
    let expression : Expression := ⟨[.number 1, .operator .div, .openParen, .number (-1),
      .operator .mul, .var 'x', .closeParen]⟩
    let e : LineError := .evaluation .divisionByZero
    (tokenize s.vars "1/(-x" = .ok expression ∧
      evaluate 1 s.vars expression.tokens = .error .divisionByZero ∧
      ¬ EvalError.divisionByZero.IsInternal) ∧
    (s.evaluate "1/(-x" = .error e ∧ ¬ e.IsInternal) ∧
    ((s.assign "y = 1/(-x").1 = .error e ∧ ¬ e.IsInternal) ∧
    ((s.answer "y = 1/(-x").1 = .error e ∧ ¬ e.IsInternal) ∧
    calculate "1/0" = .error e ∧ ¬ e.IsInternal := by
  intro s expression e
  have htokens : tokenize s.vars "1/(-x" = .ok expression := by decide +kernel
  have hvalue : evaluate 1 s.vars expression.tokens = .error .divisionByZero := by decide +kernel
  have hevaluate : s.evaluate "1/(-x" = .error e := by decide +kernel
  have hassign : (s.assign "y = 1/(-x").1 = .error e := by decide +kernel
  have hanswer : (s.answer "y = 1/(-x").1 = .error e := by decide +kernel
  have hcalculate : calculate "1/0" = .error e := by decide +kernel
  obtain ⟨h₁, h₂, h₃, h₄, h₅⟩ := not_isInternal_of_line
  exact ⟨⟨htokens, hvalue, h₁ 1 s.vars "1/(-x" expression _ htokens hvalue⟩,
    ⟨hevaluate, h₂ s _ e hevaluate⟩, ⟨hassign, h₃ s _ e hassign⟩, ⟨hanswer, h₄ s _ e hanswer⟩,
    hcalculate, h₅ _ e hcalculate⟩

end Fault

end Calculator
