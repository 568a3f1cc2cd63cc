import Mathlib.Data.List.Infix
import Calculator.Proofs.Except
import Calculator.Proofs.Line.Occurrences
import Calculator.Line.Scan

/-!
# Errors that nothing repairs

A line is read from left to right. An error that is met on the way is the error of every longer
line; only what is met at the end of a line may change when the line goes on.

* `SyntaxError.IsFinal`: the errors that are never met at the end of a line.
* `tokenize_append`: a line is read as a first part and then the rest.
* `tokenize_append_of_isFinal`: what follows a final error does not matter.
* `tokenize_isFinal`: so a final error is that of the shortest first part that has one.
-/

namespace Calculator

/-- Whether an error can only be met before the end of a line. A literal and an operator may also be
the last on the line, and a line may be blank only so far. -/
def SyntaxError.IsFinal : SyntaxError → Prop
  | tooManyOperators | leadingOperator _ | unsupported _ | unmatchedClose | emptyGroup => True
  | empty | trailingOperator | literalTooLarge => False

variable {vars : Variables} {s : Scan} {line rest : String} {e : SyntaxError}

namespace Scan

theorem endNumber_eq_error (h : s.endNumber = .error e) : e = .literalTooLarge := by
  unfold endNumber at h
  split at h
  · cases h
  · split at h <;> cases h
    rfl

/-- No final error is met at the end. -/
theorem not_isFinal_of_finish (h : s.finish = .error e) : ¬ e.IsFinal := by
  obtain h | ⟨s', -, h⟩ := Except.bind_eq_error.1 h
  · rw [endNumber_eq_error h]
    exact id
  · split at h <;> cases h
    exact id

end Scan

theorem isBlank_append (line rest : String) :
    isBlank (line ++ rest) = (isBlank line && isBlank rest) := by
  rw [isBlank, String.toList_append, List.all_append]
  rfl

/-- The rest of a line is read in the state after its first part. -/
theorem tokenize_append (h : isBlank line = false) (rest : String) :
    tokenize vars (line ++ rest) =
      (Lexeme.occurrences line).foldlM (Scan.stepAt vars) {} >>= fun s =>
        (Lexeme.occurrencesFrom line.utf8ByteSize rest.toList).foldlM (Scan.stepAt vars) s >>=
          Scan.finish := by
  rw [tokenize, isBlank_append, h, Bool.false_and, if_neg Bool.false_ne_true, Lexeme.occurrences,
    String.toList_append, Lexeme.occurrencesFrom_append, List.foldlM_append, String.ofList_toList,
    Nat.zero_add]
  exact bind_assoc ..

/-- A final error is met at a place of the line. -/
theorem foldlM_of_isFinal (hf : e.IsFinal) (h : tokenize vars line = .error e) :
    isBlank line = false ∧
      (Lexeme.occurrences line).foldlM (Scan.stepAt vars) {} = .error e := by
  rw [tokenize] at h
  split at h
  · cases h
    exact hf.elim
  · rename_i hblank
    refine ⟨by simpa using hblank, ?_⟩
    obtain h | ⟨s, -, h⟩ := Except.bind_eq_error.1 h
    · exact h
    · exact absurd hf (Scan.not_isFinal_of_finish h)

/-- What follows a final error does not matter. -/
theorem tokenize_append_of_isFinal (hf : e.IsFinal) (h : tokenize vars line = .error e)
    (rest : String) : tokenize vars (line ++ rest) = .error e := by
  obtain ⟨hblank, hfold⟩ := foldlM_of_isFinal hf h
  rw [tokenize_append hblank, hfold]
  rfl

/-- A final error of a line is that of every longer line. It is the error of the shortest first part
of the line that has a final error. -/
theorem tokenize_isFinal (hf : e.IsFinal) (h : tokenize vars line = .error e) :
    (∀ rest, tokenize vars (line ++ rest) = .error e) ∧
    ∃ first rest, line = first ++ rest ∧ tokenize vars first = .error e ∧
      ∀ shorter more e', first = shorter ++ more → more ≠ "" →
        tokenize vars shorter = .error e' → ¬ e'.IsFinal := by
  refine ⟨tokenize_append_of_isFinal hf h, ?_⟩
  induction hn : line.toList.length using Nat.strong_induction_on generalizing line with
  | _ n ih =>
    by_cases hshort : ∃ shorter more e', line = shorter ++ more ∧ more ≠ "" ∧
        tokenize vars shorter = .error e' ∧ e'.IsFinal
    · obtain ⟨shorter, more, e', rfl, hmore, hs, hf'⟩ := hshort
      -- The shorter part has the error of the line, so it takes the place of the line.
      have he : e' = e := by
        have := tokenize_append_of_isFinal hf' hs more
        rw [h] at this
        cases this
        rfl
      subst he
      have hlt : shorter.toList.length < n := by
        have hpos : 0 < more.toList.length :=
          List.length_pos_iff.2 fun h => hmore (String.toList_inj.1 h)
        rw [← hn, String.toList_append, List.length_append]
        omega
      obtain ⟨first, rest, rfl, hfirst, hleast⟩ := ih _ hlt hs rfl
      exact ⟨first, rest ++ more, String.append_assoc, hfirst, hleast⟩
    · refine ⟨line, "", String.append_empty.symm, h, fun shorter more e' hl hmore hs hf' => ?_⟩
      exact hshort ⟨shorter, more, e', hl, hmore, hs, hf'⟩

/-- The product after the sum in `1 2+*)` is one operator too many, whatever follows. -/
theorem tokenize_isFinal_product :
    SyntaxError.tooManyOperators.IsFinal ∧
    tokenize ∅ "1 2+*)" = .error .tooManyOperators ∧
    (∀ rest, tokenize ∅ ("1 2+*)" ++ rest) = .error .tooManyOperators) ∧
    ∃ first rest, "1 2+*)" = first ++ rest ∧ tokenize ∅ first = .error .tooManyOperators ∧
      ∀ shorter more e', first = shorter ++ more → more ≠ "" →
        tokenize ∅ shorter = .error e' → ¬ e'.IsFinal := by
  have hf : SyntaxError.tooManyOperators.IsFinal := trivial
  have h : tokenize ∅ "1 2+*)" = .error .tooManyOperators := by decide +kernel
  exact ⟨hf, h, tokenize_isFinal hf h⟩

end Calculator
