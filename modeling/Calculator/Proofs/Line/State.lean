import Mathlib.Data.List.Basic
import Calculator.Proofs.Line.Step

/-!
# The state of the scan

The rules that hold of the state at every place of a line. A lexeme changes the parts of the state
one after the other, so some rules hold only between two lexemes.

* `Scan.Sound`: the rules that also hold right after a literal has become a token.
* `Scan.Consistent`: with them, the rule that a literal becomes a token only when it ends.
* `Scan.Sound.endNumber`, `Scan.Consistent.step`: the end of a literal and one lexeme keep them.
* `Scan.Consistent.operandEnds_eq`: a sign that waits after a lexeme has not passed an operand.
* `Scan.consistent_of_foldlM`: so all this holds after any lexemes.

Characters that are skipped are no lexemes, and leave the state as it is.
-/

namespace Calculator

deriving instance DecidableEq for Scan

namespace Scan

variable {vars : Variables} {s s' : Scan} {lexeme : Lexeme} {lexemes : List Lexeme}
  {op : Operator} {name : Char}

/-- The tokens that end an operand, the last one first. -/
def operandEnds (s : Scan) : List Token := s.emitted.filter Token.endsOperand

/-- What holds of a state whether or not its literal has become a token. -/
structure Sound (s : Scan) : Prop where
  /-- The groups that are open are those that were opened less those that were closed. -/
  opened : s.openGroups + s.emitted.count .closeParen = s.emitted.count .openParen
  /-- No run is too long, also not one that a parenthesis or a binary operator starts. -/
  run_le : s.run ≤ maxRun
  /-- A sign waits at the start, or behind an operator or an opening parenthesis. -/
  sign : s.minus = true → s.afterOperand = false
  /-- No run goes on behind an operand. -/
  run_eq_zero : s.literal.isSome = true ∨ s.afterOperand = true → s.run = 0
  /-- A run goes on behind an operator or an opening parenthesis. -/
  run_pos : s.literal = none → s.emitted ≠ [] → s.afterOperand = false → 1 ≤ s.run

/-- What holds of a state between two lexemes. -/
structure Consistent (s : Scan) : Prop extends Sound s where
  /-- A number that nothing follows is a literal still. -/
  ne_number : ∀ x, s.emitted.head? ≠ some (.number x)

theorem consistent_init : ({} : Scan).Consistent where
  opened := rfl
  run_le := Nat.zero_le _
  sign _ := rfl
  run_eq_zero _ := rfl
  run_pos _ h := absurd rfl h
  ne_number _ := by simp

/-- Behind an operand no sign waits and no run goes on. -/
theorem consistent_of_afterOperand (ha : s.afterOperand = true) (hm : s.minus = false)
    (hr : s.run = 0) (hx : ∀ x, s.emitted.head? ≠ some (.number x))
    (ho : s.openGroups + s.emitted.count .closeParen = s.emitted.count .openParen) :
    s.Consistent where
  opened := ho
  run_le := by omega
  sign h := by rw [hm] at h; cases h
  run_eq_zero _ := hr
  run_pos _ _ h := by rw [ha] at h; cases h
  ne_number := hx

/-- Anywhere else a run goes on. -/
theorem consistent_of_not_afterOperand (ha : s.afterOperand = false) (hl : s.literal = none)
    (hpos : 1 ≤ s.run) (hle : s.run ≤ maxRun)
    (ho : s.openGroups + s.emitted.count .closeParen = s.emitted.count .openParen) :
    s.Consistent where
  opened := ho
  run_le := hle
  sign _ := ha
  run_eq_zero h := by simp [ha, hl] at h
  run_pos _ _ _ := hpos
  ne_number x hx := by simp [afterOperand, hx, Token.endsOperand] at ha

/-! ## One lexeme -/

/-- A literal that ends leaves no sign, and the run was over at its first digit. -/
theorem Sound.endNumber (hs : s.Sound) (h : s.endNumber = .ok s') :
    s'.Sound ∧ s'.literal = none := by
  obtain ⟨hl, rfl⟩ | ⟨value, hl, -, rfl⟩ := endNumber_eq_ok.1 h
  · exact ⟨hs, hl⟩
  · refine ⟨⟨?_, ?_, ?_, fun _ => ?_, fun _ _ hb => ?_⟩, by simp⟩
    · simpa [count_emitted_emit_of_ne] using hs.opened
    · simpa using hs.run_le
    · simp
    · have hrun := hs.run_eq_zero (.inl (by rw [hl]; rfl))
      simpa using hrun
    · rw [afterOperand_emit] at hb
      cases hb

/-- Where no operand ends there has been no literal to end. -/
theorem eq_of_endNumber (h : s.endNumber = .ok s') (hb : s'.afterOperand = false) : s' = s := by
  obtain ⟨-, rfl⟩ | ⟨value, -, -, rfl⟩ := endNumber_eq_ok.1 h
  · rfl
  · rw [afterOperand_emit] at hb
    cases hb

theorem Consistent.readDigit (hs : s.Consistent) (digit : Fin 10) :
    (s.readDigit digit).Consistent where
  opened := hs.opened
  run_le := Nat.zero_le _
  sign := hs.sign
  run_eq_zero _ := rfl
  run_pos h := by cases h
  ne_number := hs.ne_number

/-- The sign of a variable opens and closes nothing. -/
theorem count_emitted_emitSign {t : Token} (hmul : t ≠ .operator .mul)
    (hnumber : t ≠ .number (-1)) (s : Scan) :
    s.emitSign.emitted.count t = s.emitted.count t := by
  unfold emitSign
  split
  · rw [count_emitted_emit_of_ne hmul hmul.symm, count_emitted_emit_of_ne hmul hnumber.symm]
  · rfl

theorem Consistent.readLetter (hs : s.Consistent) (h : s.readLetter vars name = .ok s') :
    s'.Consistent := by
  obtain ⟨-, s₁, h₁, rfl⟩ := readLetter_eq_ok.1 h
  have hopened := (hs.toSound.endNumber h₁).1.opened
  refine consistent_of_afterOperand (afterOperand_emit _ _) ?_ rfl ?_ ?_
  · simp
  · simp [head?_emitted_emit]
  · simpa [count_emitted_emit_of_ne, count_emitted_emitSign] using hopened

theorem Consistent.readOpenParen (hs : s.Consistent) (h : s.readOpenParen = .ok s') :
    s'.Consistent := by
  obtain ⟨s₁, h₁, rfl⟩ := readOpenParen_eq_ok.1 h
  obtain ⟨hs₁, hl⟩ := hs.toSound.endNumber h₁
  refine consistent_of_not_afterOperand (afterOperand_emit _ _) ?_ (Nat.le_refl 1)
    (Nat.le_succ 1) ?_
  · simpa using hl
  · have hopened := hs₁.opened
    change s₁.openGroups + 1 + (s₁.emit .openParen).emitted.count .closeParen =
      (s₁.emit .openParen).emitted.count .openParen
    rw [count_emitted_emit_of_ne (by simp) (by simp), count_emitted_emit_self (by simp)]
    omega

/-- A group closes behind an operand, so no sign waits there. -/
theorem Consistent.readCloseParen (hs : s.Consistent) (h : s.readCloseParen = .ok s') :
    s'.Consistent := by
  obtain ⟨s₁, h₁, hpos, hafter, rfl⟩ := readCloseParen_eq_ok.1 h
  have hs₁ := (hs.toSound.endNumber h₁).1
  have hminus : s₁.minus = false := by
    rw [Bool.eq_false_iff]
    intro hm
    exact Bool.false_ne_true ((hs₁.sign hm).symm.trans hafter)
  refine consistent_of_afterOperand (afterOperand_emit _ _) ?_ rfl ?_ ?_
  · simpa using hminus
  · simp [head?_emitted_emit]
  · have hopened := hs₁.opened
    change s₁.openGroups - 1 + (s₁.emit .closeParen).emitted.count .closeParen =
      (s₁.emit .closeParen).emitted.count .openParen
    rw [count_emitted_emit_self (by simp), count_emitted_emit_of_ne (by simp) (by simp)]
    omega

/-- A binary operator starts a run, and a sign goes on with one that is not too long. -/
theorem Consistent.readOperator (hs : s.Consistent) (h : s.readOperator op = .ok s') :
    s'.Consistent := by
  obtain ⟨s₁, h₁, hcases⟩ := readOperator_eq_ok.1 h
  obtain ⟨hs₁, hl⟩ := hs.toSound.endNumber h₁
  rcases hcases with ⟨hafter, rfl⟩ | ⟨hafter, hlt, ⟨-, rfl⟩ | ⟨-, rfl⟩⟩
  · have hrun := hs₁.run_eq_zero (.inr hafter)
    refine consistent_of_not_afterOperand (afterOperand_emit _ _) ?_ ?_ ?_ ?_
    · simpa using hl
    · simp
    · simp [hrun, maxRun]
    · simpa [count_emitted_emit_of_ne] using hs₁.opened
  · exact consistent_of_not_afterOperand hafter hl (Nat.le_add_left 1 s₁.run) hlt hs₁.opened
  · exact consistent_of_not_afterOperand hafter hl (Nat.le_add_left 1 s₁.run) hlt hs₁.opened

theorem Consistent.step (hs : s.Consistent) (h : s.step vars lexeme = .ok s') : s'.Consistent := by
  cases lexeme with
  | digit digit => cases h; exact hs.readDigit digit
  | letter name => exact hs.readLetter h
  | operator op => exact hs.readOperator h
  | openParen => exact hs.readOpenParen h
  | closeParen => exact hs.readCloseParen h

/-- A sign that waits after a lexeme has not passed the end of an operand. -/
theorem Consistent.operandEnds_eq (hs : s.Consistent) (h : s.step vars lexeme = .ok s')
    (hm : s'.minus = true) : s'.operandEnds = s.operandEnds := by
  have hafter := (hs.step h).sign hm
  cases lexeme with
  | digit digit => cases h; rfl
  | letter name =>
    obtain ⟨-, s₁, -, rfl⟩ := readLetter_eq_ok.1 h
    exact absurd (hafter.symm.trans (afterOperand_emit _ _)) Bool.false_ne_true
  | openParen =>
    obtain ⟨s₁, h₁, rfl⟩ := readOpenParen_eq_ok.1 h
    have hminus : s₁.minus = true := by simpa using hm
    rw [eq_of_endNumber h₁ ((hs.toSound.endNumber h₁).1.sign hminus)]
    exact filter_emitted_emit rfl s .openParen
  | closeParen =>
    obtain ⟨s₁, -, -, -, rfl⟩ := readCloseParen_eq_ok.1 h
    exact absurd (hafter.symm.trans (afterOperand_emit _ _)) Bool.false_ne_true
  | operator op =>
    obtain ⟨s₁, h₁, ⟨hb, rfl⟩ | ⟨hb, -, ⟨-, rfl⟩ | ⟨-, rfl⟩⟩⟩ := readOperator_eq_ok.1 h
    · -- A binary operator finds no sign, for an operand has just ended.
      have hminus : s₁.minus = true := by simpa using hm
      exact absurd (((hs.toSound.endNumber h₁).1.sign hminus).symm.trans hb) Bool.false_ne_true
    · obtain rfl := eq_of_endNumber h₁ hb
      rfl
    · obtain rfl := eq_of_endNumber h₁ hb
      rfl

/-! ## All lexemes -/

theorem Consistent.foldlM (hs : s.Consistent) (h : lexemes.foldlM (Scan.step vars) s = .ok s') :
    s'.Consistent := by
  induction lexemes generalizing s with
  | nil => cases h; exact hs
  | cons lexeme rest ih =>
    rw [List.foldlM_cons] at h
    obtain ⟨s₁, h₁, h⟩ := Except.bind_eq_ok.1 h
    exact ih (hs.step h₁) h

/-- The state after any lexemes obeys the rules, and the next lexeme takes no sign past the end of
an operand. -/
theorem consistent_of_foldlM (h : lexemes.foldlM (step vars) {} = .ok s) :
    s.Consistent ∧ ∀ lexeme s', s.step vars lexeme = .ok s' → s'.minus = true →
      s'.operandEnds = s.operandEnds := by
  have hs := consistent_init.foldlM h
  exact ⟨hs, fun lexeme s' h' hm => hs.operandEnds_eq h' hm⟩

/-- In `2(-x*-(+` the sign of the variable has been written, the second one waits inside the second
group, and the run behind it is as long as it may be. -/
theorem consistent_of_foldlM_signs :
    let vars := Variables.set ∅ 'x' 3
    let lexemes : List Lexeme := [.digit 2, .openParen, .operator .sub, .letter 'x',
      .operator .mul, .operator .sub, .openParen, .operator .add]
    let s : Scan := {
      emitted := [.openParen, .operator .mul, .var 'x', .operator .mul, .number (-1), .openParen,
        .operator .mul, .number 2]
      minus := true, openGroups := 2, run := 2 }
    lexemes.foldlM (step vars) {} = .ok s ∧ s.Consistent ∧
      ∀ lexeme s', s.step vars lexeme = .ok s' → s'.minus = true →
        s'.operandEnds = s.operandEnds := by
  intro vars lexemes s
  have h : lexemes.foldlM (step vars) {} = .ok s := by decide +kernel
  exact ⟨h, consistent_of_foldlM h⟩

end Scan

end Calculator
