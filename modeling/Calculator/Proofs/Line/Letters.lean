import Calculator.Line.Assignment
import Calculator.Proofs.Line.Acceptance
import Calculator.Proofs.Line.Formula
import Calculator.Proofs.Line.Output
import Calculator.Proofs.Separator

/-!
# The letters of a line

A table of variables is asked for the letters of a line only, and only for whether they have values.

* `tokenize_congr`: two tables that define the same letters of a line.
* `mem_of_tokenize`: the variables of an expression are letters of its line.
* `contains_of_tokenize`: the letters of a line that is an expression have values.
* `expressionPart`: the part of any line that is read as an expression.
-/

namespace Calculator

variable {vars vars' : Variables} {line : String} {e : Expression} {c : Char}

/-! ## Expressions -/

/-- Reading a lexeme asks for the letter that it is. -/
theorem Scan.step_congr {lexeme : Lexeme}
    (h : ∀ name, lexeme = .letter name → vars.contains name = vars'.contains name) (s : Scan) :
    s.step vars lexeme = s.step vars' lexeme := by
  cases lexeme with
  | letter name => rw [step, step, readLetter, readLetter, h name rfl]
  | _ => rfl

theorem foldlM_stepAt_congr {cs : List Char}
    (h : ∀ c ∈ cs, c.isAlpha = true → vars.contains c = vars'.contains c) (start : Nat) (s : Scan) :
    (Lexeme.occurrencesFrom start cs).foldlM (Scan.stepAt vars) s =
      (Lexeme.occurrencesFrom start cs).foldlM (Scan.stepAt vars') s := by
  induction cs generalizing start s with
  | nil => rfl
  | cons c cs ih =>
    obtain ⟨hc, hcs⟩ := List.forall_mem_cons.1 h
    rw [Lexeme.occurrencesFrom]
    split
    · exact ih hcs _ s
    · rw [List.foldlM_cons, List.foldlM_cons]
      cases hl : Lexeme.ofChar? c with
      | none => rfl
      | some lexeme =>
        have hstep : s.step vars lexeme = s.step vars' lexeme := by
          refine Scan.step_congr (fun name he => ?_) s
          obtain ⟨rfl, ha⟩ := Lexeme.ofChar?_eq_some.1 hl
          subst he
          exact hc (ha name rfl)
        simp only [Scan.stepAt, hstep, ih hcs]

/-- Tables that define the same letters of a line read the same on it. -/
theorem tokenize_congr
    (h : ∀ c ∈ line.toList, c.isAlpha = true → vars.contains c = vars'.contains c) :
    tokenize vars line = tokenize vars' line := by
  rw [tokenize, tokenize, Lexeme.occurrences, foldlM_stepAt_congr h]

/-- The variables of an expression are letters of its line. -/
theorem mem_of_tokenize {name : Char} (h : tokenize vars line = .ok e)
    (hm : Token.var name ∈ e.tokens) : name ∈ line.toList ∧ name.isAlpha = true := by
  obtain ⟨-, -, -, -, he⟩ := tokenize_eq_ok.1 h
  rw [he, List.mem_append] at hm
  have hpiece := History.letter_mem_of_var_mem (hm.resolve_right (by simp))
  have hlexeme : .letter name ∈ lexemes (significant line) := by
    rw [← History.flatMap_ofLexemes (lexemes (significant line)), letter_mem_flatMap_lexemes,
      List.mem_reverse]
    exact hpiece
  obtain ⟨c, hc, hl⟩ := List.mem_filterMap.1 hlexeme
  obtain ⟨rfl, ha⟩ := Lexeme.ofChar?_eq_some.1 hl
  exact ⟨(List.mem_filter.1 hc).1, ha name rfl⟩

/-- The letters of a line that is an expression have values. -/
theorem contains_of_tokenize (h : tokenize vars line = .ok e) (hc : c ∈ line.toList)
    (ha : c.isAlpha = true) : vars.contains c = true := by
  have hl := Lexeme.ofChar?_of_isAlpha ha
  have hmem : c ∈ significant line :=
    List.mem_filter.2 ⟨hc, by rw [Lexeme.isSkipped_eq_false hl]; rfl⟩
  obtain ⟨before, after, he⟩ := List.append_of_mem hmem
  exact ((exists_tokenize_iff_readable.1 ⟨e, h⟩).admits before c after _ he hl).1

/-! ## Assignments -/

/-- The part of a line that is read as an expression: what follows the first equals sign, or the
whole line if it has none. -/
def expressionPart (line : String) : String :=
  match line.toList.dropWhile (· ≠ '=') with
  | [] => line
  | _ :: source => String.ofList source

theorem expressionPart_of_not_mem (h : '=' ∉ line.toList) : expressionPart line = line := by
  rw [expressionPart, List.dropWhile_ne_of_not_mem h]

namespace Assignment

/-- An assignment holds what the expression part of its line is read as. -/
theorem tokenize_of_ofLine {a : Assignment} (h : ofLine vars line = .ok a) :
    tokenize vars (expressionPart line) = .ok a.expression := by
  unfold ofLine at h
  split at h
  · cases h
  · rename_i source hs
    have hpart : expressionPart line = String.ofList source := by rw [expressionPart, hs]
    rw [hpart]
    split at h
    · cases h
    · split at h
      · cases h
      · split at h
        · rename_i hline
          cases h
          exact hline
        · cases h

/-- Only the expression part of an assignment is read with the variables. -/
theorem ofLine_congr
    (h : tokenize vars (expressionPart line) = tokenize vars' (expressionPart line)) :
    ofLine vars line = ofLine vars' line := by
  rw [expressionPart] at h
  rw [ofLine, ofLine]
  split
  · rfl
  · rename_i hs
    rw [hs] at h
    rw [h]

end Assignment

end Calculator
