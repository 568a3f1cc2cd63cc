import Calculator.Proofs.Line.Lexeme
import Calculator.Session

/-!
# Spaces on a line

The characters that are skipped between lexemes are skipped in all that is done with a line, so a
line may be written with any of them or with none. They are white space, so a line without them is
blank if and only if the whole line is.

* `strip`, `strip_eq`: a line without the characters that are skipped.
* `isBlank_strip`, `tokenize_strip`, `Assignment.ofLine_strip`: what is read from a line.
* `Session.answer_strip`: the answer to a line and the session after it.
* `Session.answer_tokenize_strip`: both for all lines.
-/

namespace Calculator

/-- A line without its spaces, tabs, carriage returns, line feeds and form feeds. -/
def strip (line : String) : String :=
  String.ofList (line.toList.filter fun c => c ∉ [' ', '\t', '\r', '\n', '\x0c'])

section Lines

variable {vars : Variables} {line : String} {cs : List Char}

/-- The characters that are skipped are those five. -/
theorem strip_eq (line : String) : strip line = String.ofList (significant line) := by
  rw [strip, significant]
  congr 2
  funext c
  simp [Lexeme.isSkipped, Bool.and_assoc]

theorem toList_strip (line : String) :
    (strip line).toList = line.toList.filter fun c => !Lexeme.isSkipped c := by
  rw [strip_eq, String.toList_ofList, significant]

theorem Lexeme.isWhiteSpace_of_isSkipped {c : Char} (h : isSkipped c = true) :
    isWhiteSpace c = true := by
  simp only [isSkipped, Bool.or_eq_true, decide_eq_true_eq] at h
  rcases h with (((rfl | rfl) | rfl) | rfl) | rfl <;> rfl

/-- White space of other kinds is kept, and so is all that is not white space. -/
theorem isBlank_strip (line : String) : isBlank (strip line) = isBlank line := by
  rw [isBlank, isBlank, toList_strip, List.all_filter]
  congr 1
  funext c
  cases hc : Lexeme.isSkipped c with
  | true => rw [Lexeme.isWhiteSpace_of_isSkipped hc]; rfl
  | false => rfl

/-- The places of the lexemes do not matter. -/
theorem foldlM_stepAt_filter (start start' : Nat) (s : Scan) :
    (Lexeme.occurrencesFrom start' (cs.filter fun c => !Lexeme.isSkipped c)).foldlM
        (Scan.stepAt vars) s =
      (Lexeme.occurrencesFrom start cs).foldlM (Scan.stepAt vars) s := by
  induction cs generalizing start start' s with
  | nil => rfl
  | cons c cs ih =>
    cases hc : Lexeme.isSkipped c with
    | true =>
      rw [List.filter_cons_of_neg (by simp [hc]), Lexeme.occurrencesFrom, if_pos hc]
      exact ih _ _ s
    | false =>
      rw [List.filter_cons_of_pos (by simp [hc])]
      simp only [Lexeme.occurrencesFrom, hc, Bool.false_eq_true, if_false, List.foldlM_cons]
      exact bind_congr fun s' => ih _ _ s'

theorem tokenize_strip (vars : Variables) (line : String) :
    tokenize vars (strip line) = tokenize vars line := by
  rw [tokenize, tokenize, isBlank_strip, Lexeme.occurrences, Lexeme.occurrences, toList_strip,
    foldlM_stepAt_filter 0]

/-! ## Assignments -/

theorem contains_filter_equals (cs : List Char) :
    (cs.filter fun c => !Lexeme.isSkipped c).contains '=' = cs.contains '=' := by
  rw [Bool.eq_iff_iff, List.contains_iff_mem, List.contains_iff_mem, List.mem_filter]
  exact and_iff_left rfl

/-- A character that is skipped is no equals sign. -/
theorem not_equals_of_isSkipped :
    (fun c => !!Lexeme.isSkipped c || decide (c ≠ '=')) = fun c => decide (c ≠ '=') := by
  funext c
  cases hc : Lexeme.isSkipped c with
  | false => rfl
  | true =>
    have hne : c ≠ '=' := by rintro rfl; cases hc
    rw [decide_eq_true hne]
    rfl

theorem takeWhile_filter_equals (cs : List Char) :
    (cs.filter fun c => !Lexeme.isSkipped c).takeWhile (· ≠ '=') =
      (cs.takeWhile (· ≠ '=')).filter fun c => !Lexeme.isSkipped c := by
  rw [List.takeWhile_filter, not_equals_of_isSkipped]

theorem dropWhile_filter_equals (cs : List Char) :
    (cs.filter fun c => !Lexeme.isSkipped c).dropWhile (· ≠ '=') =
      (cs.dropWhile (· ≠ '=')).filter fun c => !Lexeme.isSkipped c := by
  rw [List.dropWhile_filter, not_equals_of_isSkipped]

namespace Assignment

/-- A letter is not skipped. -/
theorem name?_filter (target : List Char) :
    name? (target.filter fun c => !Lexeme.isSkipped c) = name? target := by
  rw [name?, name?, List.find?_filter]
  congr 1
  funext c
  cases ha : c.isAlpha with
  | false => simp
  | true => simp [Lexeme.isSkipped_eq_false (Lexeme.ofChar?_of_isAlpha ha)]

/-- The name and the expression of an assignment are read alike with and without the characters that
are skipped. -/
theorem ofLine_strip (vars : Variables) (line : String) :
    ofLine vars (strip line) = ofLine vars line := by
  rw [ofLine, ofLine, toList_strip, takeWhile_filter_equals, dropWhile_filter_equals, name?_filter]
  cases hs : line.toList.dropWhile (· ≠ '=') with
  | nil => rfl
  | cons c source =>
    have hc : c = '=' := by
      have hhead := List.head?_dropWhile_not (· ≠ '=') line.toList
      rw [hs] at hhead
      simpa using hhead
    have hsource : String.ofList (source.filter fun c => !Lexeme.isSkipped c) =
        strip (String.ofList source) := by
      rw [strip_eq, significant, String.toList_ofList]
    rw [List.filter_cons_of_pos (by rw [hc]; rfl)]
    simp only [contains_filter_equals, hsource, tokenize_strip]

end Assignment

end Lines

namespace Session

variable {s : Session} {line : String}

theorem evaluate_strip (s : Session) (line : String) :
    s.evaluate (strip line) = s.evaluate line := by
  rw [evaluate, evaluate, tokenize_strip]

theorem assign_strip (s : Session) (line : String) : s.assign (strip line) = s.assign line := by
  rw [assign, assign, Assignment.ofLine_strip]

/-- A line is answered as the line without the characters that are skipped. -/
theorem answer_strip (s : Session) (line : String) : s.answer (strip line) = s.answer line := by
  rw [answer, answer, isBlank_strip, toList_strip, contains_filter_equals, assign_strip,
    evaluate_strip]

/-- The characters that are skipped between lexemes do not matter for the answer to a line, a value
or an error, and for the session after it, nor for the expression that a line is read as. -/
theorem answer_tokenize_strip :
    (∀ (s : Session) (line : String), s.answer (strip line) = s.answer line) ∧
    ∀ (vars : Variables) (line : String), tokenize vars (strip line) = tokenize vars line :=
  ⟨answer_strip, tokenize_strip⟩

end Session

end Calculator
