import Calculator.Proofs.Evaluation.Limit
import Calculator.Proofs.Line.Sign
import Calculator.Session

/-!
# A sign acts on its operand

A minus sign in front of a number negates it wherever it stands. In front of a variable it becomes a
factor minus one, and beside a division or a power that is not the same: six divided by a negated
variable is six divided by minus one, and then multiplied by the variable.

* `Session.evaluate_factor`: a sign in front of a variable is a factor.
* `Session.evaluate_group`: where no division or power stands beside it, the sign and its operand
  may be put in parentheses.
-/

namespace Calculator

namespace Session

variable {s : Session} {u d w : String} {e : Expression} {v : Float}

theorem evaluate_eq_ok {line : String} : s.evaluate line = .ok v ↔
    ∃ e, tokenize s.vars line = .ok e ∧
      Calculator.evaluate s.maxDepth s.vars e.tokens = .ok v := by
  rw [evaluate]
  cases tokenize s.vars line with
  | error e => simp
  | ok e =>
    simp only [Except.ok.injEq, exists_eq_left']
    cases Calculator.evaluate s.maxDepth s.vars e.tokens <;> simp

/-- A sign in front of a variable may be written as a factor minus one. -/
theorem evaluate_factor (hu : ∀ c ∈ (significant u).getLast?, isOperator c = true ∨ c = '(')
    (hd : IsOperandText (significant d) (significant w))
    (hletter : ∀ c ∈ significant d, c.isAlpha = true)
    (he : tokenize s.vars (u ++ "-" ++ d ++ w) = .ok e) :
    s.evaluate (u ++ "-1*" ++ d ++ w) = s.evaluate (u ++ "-" ++ d ++ w) := by
  obtain ⟨hn, hdigits, -⟩ | ⟨name, hname, halpha⟩ := hd
  · obtain ⟨c, hc⟩ := List.exists_mem_of_ne_nil _ hn
    have hdigit := hdigits c hc
    rw [Lexeme.isDigit_eq_false_of_isAlpha (hletter c hc)] at hdigit
    cases hdigit
  · rw [evaluate, evaluate, tokenize_factor hu hname halpha he, he]

/-- A minus sign in front of a whole number or of one variable may be put in parentheses together
with its operand. The line is read all the same; and unless the operand is a variable and there is a
division or a power directly before the sign or a power directly after the variable, the line keeps
its value, if its groups do not nest too deep then. In front of a variable the sign is a factor
minus one wherever it stands. -/
theorem evaluate_group (hu : ∀ c ∈ (significant u).getLast?, isOperator c = true ∨ c = '(')
    (hd : IsOperandText (significant d) (significant w))
    (he : tokenize s.vars (u ++ "-" ++ d ++ w) = .ok e) :
    (∃ e', tokenize s.vars (u ++ "(-" ++ d ++ ")" ++ w) = .ok e') ∧
    (Undivided (significant u) (significant d) (significant w) →
      ∀ v, s.evaluate (u ++ "-" ++ d ++ w) = .ok v →
        (∀ l, s.evaluate (u ++ "(-" ++ d ++ ")" ++ w) ≠ .error (.evaluation (.tooDeep l))) →
        s.evaluate (u ++ "(-" ++ d ++ ")" ++ w) = .ok v) ∧
    ((∀ c ∈ significant d, c.isAlpha = true) →
      s.evaluate (u ++ "-1*" ++ d ++ w) = s.evaluate (u ++ "-" ++ d ++ w)) := by
  obtain ⟨e', t, before, after, he', ht, htokens, htokens', halone⟩ :=
    exists_tokenize_group hu hd he
  refine ⟨⟨e', he'⟩, fun hundivided v hv hne => ?_, fun hl => evaluate_factor hu hd hl he⟩
  obtain ⟨e₁, he₁, hv⟩ := evaluate_eq_ok.1 hv
  obtain rfl := Except.ok.inj (he.symm.trans he₁)
  obtain ⟨terms, hterms, hv⟩ := Except.bind_eq_ok.1 hv
  obtain ⟨tree, htree, ho, -, heval⟩ := exists_tree_of_valueOfTerms hterms hv
  obtain ⟨tree', htree', hr⟩ :=
    Tree.exists_group ht ho (htree.trans htokens) (halone hundivided)
  rw [← htokens'] at htree'
  obtain ⟨f, hf, hvars⟩ := exists_formula_of_tokenize he'
  rw [hf, ← htree'] at hvars
  refine evaluate_eq_ok.2 ⟨e', he', ?_⟩
  rw [← htree']
  refine evaluate_tree hr.ordered (hr.eval_eq.trans heval) hvars fun l hl => hne l ?_
  rw [evaluate, he']
  simp only [← htree', hl]

/-- A sign in front of a variable, the same with parentheses and with a factor, also where the line
closes a group and leaves another one open. -/
theorem evaluate_group_product :
    let s : Session := { vars := Variables.set ∅ 'x' 2 }
    s.evaluate "(3*-x+1)(6" = .ok (-30) ∧ s.evaluate "(3*(-x)+1)(6" = .ok (-30) ∧
      s.evaluate "(3*-1*x+1)(6" = .ok (-30) := by
  intro s
  have hline : tokenize s.vars ("(3*" ++ "-" ++ "x" ++ "+1)(6") = .ok ⟨[.openParen, .number 3,
      .operator .mul, .number (-1), .operator .mul, .var 'x', .operator .add, .number 1,
      .closeParen, .operator .mul, .openParen, .number 6, .closeParen]⟩ := by decide +kernel
  have hvalue : s.evaluate ("(3*" ++ "-" ++ "x" ++ "+1)(6") = .ok (-30) := by decide +kernel
  have hlast : (significant "(3*").getLast? = some '*' := rfl
  have hsign : ∀ c ∈ (significant "(3*").getLast?, isOperator c = true ∨ c = '(' := by
    simp [hlast, isOperator]
  have hoperand : IsOperandText (significant "x") (significant "+1)(6") := .inr ⟨'x', rfl, rfl⟩
  have hundivided : Undivided (significant "(3*") (significant "x") (significant "+1)(6") :=
    .inr ⟨by simp [hlast], by simp [show (significant "+1)(6").head? = some '+' from rfl]⟩
  have hletter : ∀ c ∈ significant "x", c.isAlpha = true :=
    List.forall_mem_singleton.2 (by decide : 'x'.isAlpha = true)
  have hdepth : ∀ l, s.evaluate ("(3*" ++ "(-" ++ "x" ++ ")" ++ "+1)(6") ≠
      .error (.evaluation (.tooDeep l)) := by
    intro l h
    have hok : (s.evaluate ("(3*" ++ "(-" ++ "x" ++ ")" ++ "+1)(6")).toOption.isSome = true := by
      decide +kernel
    rw [h] at hok
    cases hok
  obtain ⟨-, hgroup, hfactor⟩ := evaluate_group hsign hoperand hline
  exact ⟨hvalue, hgroup hundivided (-30) hvalue hdepth, (hfactor hletter).trans hvalue⟩

/-- Next to a division the parentheses around a negated variable matter. -/
theorem not_forall_evaluate_group : ¬ ∀ (s : Session) (u d w : String) (e : Expression) (v : Float),
    (∀ c ∈ (significant u).getLast?, isOperator c = true ∨ c = '(') →
    IsOperandText (significant d) (significant w) →
    tokenize s.vars (u ++ "-" ++ d ++ w) = .ok e → s.evaluate (u ++ "-" ++ d ++ w) = .ok v →
    (∀ l, s.evaluate (u ++ "(-" ++ d ++ ")" ++ w) ≠ .error (.evaluation (.tooDeep l))) →
    s.evaluate (u ++ "(-" ++ d ++ ")" ++ w) = .ok v := by
  intro h
  let s : Session := { vars := Variables.set ∅ 'x' 2 }
  have hline : tokenize s.vars ("6/" ++ "-" ++ "x" ++ "") = .ok ⟨[.number 6, .operator .div,
      .number (-1), .operator .mul, .var 'x']⟩ := by decide +kernel
  have hvalue : s.evaluate ("6/" ++ "-" ++ "x" ++ "") = .ok (-12) := by decide +kernel
  have hgroup : s.evaluate ("6/" ++ "(-" ++ "x" ++ ")" ++ "") = .ok (-3) := by decide +kernel
  have hsign : ∀ c ∈ (significant "6/").getLast?, isOperator c = true ∨ c = '(' := by
    simp [show (significant "6/").getLast? = some '/' from rfl, isOperator]
  have hoperand : IsOperandText (significant "x") (significant "") := .inr ⟨'x', rfl, rfl⟩
  have hdepth : ∀ l, s.evaluate ("6/" ++ "(-" ++ "x" ++ ")" ++ "") ≠
      .error (.evaluation (.tooDeep l)) := by
    intro l hl
    rw [hgroup] at hl
    cases hl
  have heq := h s "6/" "x" "" _ (-12) hsign hoperand hline hvalue hdepth
  rw [hgroup] at heq
  exact absurd (Except.ok.inj heq) (by decide +kernel)

end Session

end Calculator
