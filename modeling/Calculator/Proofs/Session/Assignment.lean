import Calculator.Proofs.Separator
import Calculator.Session

/-!
# Assignments and expressions

The right side of an assignment has the value that it has as a line of its own, and its errors are
the same up to where they are reported. Errors to the left of the equals sign come first.

* `Assignment.ofLine_append`, `Assignment.ofLine_eq_manyEquals`: what is read from a line with one
  equals sign, and from one with more.
* `Session.answer_of_mem_equals`, `Session.answer_of_not_mem_equals`: the two kinds of lines.
* `Session.answer_append`: the answer to an assignment, from the value of its right side.
* `Session.answer_equals`: how all ways to give a line to a session agree.
-/

namespace Calculator

namespace Assignment

variable {vars : Variables} {target source line : String}

theorem toList_append_equals (target source : String) :
    (target ++ "=" ++ source).toList = target.toList ++ '=' :: source.toList := by
  rw [String.toList_append, String.toList_append, List.append_assoc]
  rfl

/-- A line with one equals sign: first the name is looked for, then the right side is read. -/
theorem ofLine_append (htarget : '=' ∉ target.toList) (hsource : '=' ∉ source.toList) :
    ofLine vars (target ++ "=" ++ source) =
      match target.toList.find? Char.isAlpha, tokenize vars source with
      | none, _ => .error .noName
      | some name, .ok expression => .ok ⟨name, expression⟩
      | some _, .error e => .error (.expression e) := by
  rw [ofLine, toList_append_equals, List.dropWhile_ne_append htarget,
    List.takeWhile_ne_append htarget]
  have hone : source.toList.contains '=' = false := by simpa using hsource
  simp only [hone, Bool.false_eq_true, if_false, String.ofList_toList, name?]
  cases target.toList.find? Char.isAlpha with
  | none => rfl
  | some name => cases tokenize vars source <;> rfl

/-- A second equals sign is refused whatever else the line holds. -/
theorem ofLine_eq_manyEquals (h : 2 ≤ line.toList.count '=') :
    ofLine vars line = .error .manyEquals := by
  have hmem : '=' ∈ line.toList := List.count_pos_iff.1 (by omega)
  obtain ⟨target, source, hline, htarget⟩ := List.eq_append_cons_of_mem hmem
  have hsource : '=' ∈ source := by
    rw [hline, List.count_append, List.count_eq_zero.2 htarget, List.count_cons_self] at h
    exact List.count_pos_iff.1 (by omega)
  rw [ofLine, hline, List.dropWhile_ne_append htarget]
  exact if_pos (by simpa using hsource)

theorem ofLine_ne_noEquals (h : '=' ∈ line.toList) : ofLine vars line ≠ .error .noEquals := by
  obtain ⟨target, source, hline, htarget⟩ := List.eq_append_cons_of_mem h
  rw [ofLine, hline, List.dropWhile_ne_append htarget]
  intro he
  split at he
  · rename_i hnil
    cases hnil
  · split at he
    · cases he
    · split at he
      · cases he
      · split at he <;> cases he

end Assignment

/-- Where the error of an expression is reported if the expression is the right side of an
assignment. -/
def LineError.onRight : LineError → LineError
  | expression e => assignment (.expression e)
  | e => e

namespace Session

variable {s : Session} {target source line : String}

/-- An equals sign makes a line an assignment. -/
theorem answer_of_mem_equals (h : '=' ∈ line.toList) :
    (s.answer line).1 = (s.assign line).1.map some := by
  have hblank : isBlank line = false := by
    rw [← Bool.not_eq_true, isBlank, List.all_eq_true]
    exact fun hall => Bool.false_ne_true (hall '=' h)
  rw [answer, hblank, if_neg Bool.false_ne_true, if_pos (by simpa using h)]

/-- A line without an equals sign is an expression, unless it is blank. -/
theorem answer_of_not_mem_equals (hblank : isBlank line = false) (h : '=' ∉ line.toList) :
    (s.answer line).1 = (s.evaluate line).map (some ∘ .value) := by
  rw [answer, hblank, if_neg Bool.false_ne_true, if_neg (by simpa using h)]

theorem assign_of_error {e : AssignmentError} (h : Assignment.ofLine s.vars line = .error e) :
    (s.assign line).1 = .error (.assignment e) := by
  rw [assign, h]

/-- An assignment gives its name the value of its right side. -/
theorem answer_append (s : Session) (htarget : '=' ∉ target.toList)
    (hsource : '=' ∉ source.toList) :
    (s.answer (target ++ "=" ++ source)).1 =
      match target.toList.find? Char.isAlpha with
      | none => .error (.assignment .noName)
      | some name => ((s.evaluate source).map (some ∘ .assigned name)).mapError .onRight := by
  have hline : Assignment.ofLine s.vars (target ++ "=" ++ source) = _ :=
    Assignment.ofLine_append htarget hsource
  rw [answer_of_mem_equals (by simp), assign, hline, evaluate]
  cases target.toList.find? Char.isAlpha with
  | none => rfl
  | some name =>
    cases tokenize s.vars source with
    | error e => rfl
    | ok expression =>
      cases he : Calculator.evaluate s.maxDepth s.vars expression.tokens with
      | error e => simp only [he]; rfl
      | ok value => simp only [he]; rfl

/-- The errors of an expression are those of reading it and those of computing it. -/
theorem evaluate_ne_assignment (s : Session) (line : String) (e : AssignmentError) :
    s.evaluate line ≠ .error (.assignment e) := by
  intro h
  rw [evaluate] at h
  split at h
  · cases h
  · split at h <;> cases h

theorem answer_ne_noEquals (s : Session) (line : String) :
    (s.answer line).1 ≠ .error (.assignment .noEquals) := by
  intro h
  by_cases hmem : '=' ∈ line.toList
  · rw [answer_of_mem_equals hmem, assign] at h
    split at h
    · rename_i he
      cases h
      exact Assignment.ofLine_ne_noEquals hmem he
    · split at h <;> cases h
  · cases hblank : isBlank line with
    | true =>
      rw [answer, if_pos hblank] at h
      cases h
    | false =>
      rw [answer_of_not_mem_equals hblank hmem] at h
      cases he : s.evaluate line with
      | ok v =>
        rw [he] at h
        cases h
      | error e =>
        rw [he] at h
        cases h
        exact evaluate_ne_assignment s line _ he

/-- An assignment whose name is found succeeds exactly if its right side has a value, with this
value, and it fails exactly if its right side does, with the same error. Without a name it fails
whatever its right side is, and a line with more than one equals sign fails in any case. A line
without one is an expression, and an expression without variables has its value without a session
too. -/
theorem answer_equals :
    (∀ (s : Session) (target source : String),
      '=' ∉ target.toList → '=' ∉ source.toList →
      let answer := (s.answer (target ++ "=" ++ source)).1
      (∀ name, target.toList.find? Char.isAlpha = some name →
        (∀ v, answer = .ok (some (.assigned name v)) ↔ s.evaluate source = .ok v) ∧
        (∀ e, answer = .error (.assignment (.expression e)) ↔
          s.evaluate source = .error (.expression e)) ∧
        (∀ e, answer = .error (.evaluation e) ↔ s.evaluate source = .error (.evaluation e))) ∧
      ((∀ c ∈ target.toList, c.isAlpha = false) → answer = .error (.assignment .noName))) ∧
    (∀ (s : Session) (line : String), 2 ≤ line.toList.count '=' →
      (s.answer line).1 = .error (.assignment .manyEquals)) ∧
    (∀ (s : Session) (line : String), (s.answer line).1 ≠ .error (.assignment .noEquals)) ∧
    (∀ (s : Session) (line : String), isBlank line = false → '=' ∉ line.toList →
      (s.answer line).1 = (s.evaluate line).map (some ∘ .value)) ∧
    ∀ line, calculate line = ({} : Session).evaluate line := by
  refine ⟨fun s target source htarget hsource => ⟨fun name hname => ?_, fun hnone => ?_⟩,
    fun s line h => ?_, answer_ne_noEquals, fun s line => answer_of_not_mem_equals, fun _ => rfl⟩
  · rw [answer_append s htarget hsource, hname]
    cases he : s.evaluate source with
    | ok v => simp [Except.map, Except.mapError]
    | error e =>
      cases e with
      | expression e => simp [Except.map, Except.mapError, LineError.onRight]
      | assignment e => exact absurd he (evaluate_ne_assignment s source e)
      | evaluation e => simp [Except.map, Except.mapError, LineError.onRight]
  · rw [answer_append s htarget hsource,
      List.find?_eq_none.2 fun c hc => by rw [hnone c hc]; exact Bool.false_ne_true]
  · have hmem : '=' ∈ line.toList := List.count_pos_iff.1 (by omega)
    rw [answer_of_mem_equals hmem, assign_of_error (Assignment.ofLine_eq_manyEquals h)]
    rfl

/-- What stands around the name does not matter, and a fault on the left hides one on the right. -/
theorem answer_equals_division :
    let s : Session := { vars := Variables.set ∅ 'x' 0 }
    let e : LineError := .evaluation .divisionByZero
    ('=' ∉ "3é*xy".toList ∧ '=' ∉ "1/x".toList ∧
      "3é*xy".toList.find? Char.isAlpha = some 'x' ∧ s.evaluate "1/x" = .error e ∧
      (s.answer ("3é*xy" ++ "=" ++ "1/x")).1 = .error e) ∧
    ('=' ∉ "é3".toList ∧ '=' ∉ "1++*2".toList ∧ (∀ c ∈ "é3".toList, c.isAlpha = false) ∧
      (s.answer ("é3" ++ "=" ++ "1++*2")).1 = .error (.assignment .noName)) ∧
    (2 ≤ "3=1=".toList.count '=' ∧ (s.answer "3=1=").1 = .error (.assignment .manyEquals)) ∧
    isBlank "2x" = false ∧ '=' ∉ "2x".toList ∧
      (s.answer "2x").1 = (s.evaluate "2x").map (some ∘ .value) := by
  intro s e
  obtain ⟨hone, hmany, -, hexpression, -⟩ := answer_equals
  have htarget : '=' ∉ "3é*xy".toList := by decide
  have hsource : '=' ∉ "1/x".toList := by decide
  have hname : "3é*xy".toList.find? Char.isAlpha = some 'x' := by decide
  have hvalue : s.evaluate "1/x" = .error e := by decide +kernel
  have htarget' : '=' ∉ "é3".toList := by decide
  have hsource' : '=' ∉ "1++*2".toList := by decide
  have hnone : ∀ c ∈ "é3".toList, c.isAlpha = false :=
    fun c hc => by simpa using List.all_eq_true.1 (rfl : "é3".toList.all (!·.isAlpha) = true) c hc
  have hcount : 2 ≤ "3=1=".toList.count '=' := by decide
  have hblank : isBlank "2x" = false := by decide
  have hnot : '=' ∉ "2x".toList := by decide
  refine ⟨⟨htarget, hsource, hname, hvalue, ?_⟩, ⟨htarget', hsource', hnone, ?_⟩,
    ⟨hcount, hmany s "3=1=" hcount⟩, hblank, hnot, hexpression s "2x" hblank hnot⟩
  · exact (((hone s _ _ htarget hsource).1 'x' hname).2.2 .divisionByZero).2 hvalue
  · exact (hone s _ _ htarget' hsource').2 hnone

end Session

end Calculator
