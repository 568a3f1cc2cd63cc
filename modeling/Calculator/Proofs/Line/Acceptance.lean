import Calculator.Proofs.Line.Characters

/-!
# Which lines are expressions

The lines that are read, described by their characters alone.

* `MaximalRun`: characters of one kind in a row, as many as there are.
* `WellFormed`: the rules for a line without the characters that are skipped.
* `exists_tokenize_iff_wellFormed`: the rules say exactly which lines are expressions.
-/

namespace Calculator

/-! ## Runs -/

/-- The characters `run` of a text are those in a row with a property. -/
structure MaximalRun (p : Char → Bool) (cs before run after : List Char) : Prop where
  eq : cs = before ++ run ++ after
  ne_nil : run ≠ []
  all : ∀ c ∈ run, p c = true
  left : ∀ c ∈ before.getLast?, p c = false
  right : ∀ c ∈ after.head?, p c = false

section Runs

variable {p : Char → Bool} {cs before after : List Char} {c : Char}

theorem exists_trailing (p : Char → Bool) (cs : List Char) : ∃ before run, cs = before ++ run ∧
    (∀ c ∈ run, p c = true) ∧ ∀ c ∈ before.getLast?, p c = false := by
  induction cs using List.reverseRecOn with
  | nil => exact ⟨[], [], rfl, by simp, by simp⟩
  | append_singleton cs c ih =>
    cases hc : p c with
    | false => exact ⟨cs ++ [c], [], by simp, by simp, by simp [hc]⟩
    | true =>
      obtain ⟨before, run, rfl, hrun, hleft⟩ := ih
      refine ⟨before, run ++ [c], List.append_assoc .., fun d hd => ?_, hleft⟩
      rcases List.mem_append.1 hd with hd | hd
      · exact hrun d hd
      · rwa [List.mem_singleton.1 hd]

theorem exists_leading (p : Char → Bool) (cs : List Char) : ∃ run after, cs = run ++ after ∧
    (∀ c ∈ run, p c = true) ∧ ∀ c ∈ after.head?, p c = false := by
  induction cs with
  | nil => exact ⟨[], [], rfl, by simp, by simp⟩
  | cons c cs ih =>
    cases hc : p c with
    | false => exact ⟨[], c :: cs, rfl, by simp, by simp [hc]⟩
    | true =>
      obtain ⟨run, after, rfl, hrun, hright⟩ := ih
      exact ⟨c :: run, after, rfl, List.forall_mem_cons.2 ⟨hc, hrun⟩, hright⟩

/-- Every character with the property is in a maximal run. -/
theorem exists_maximalRun (h : cs = before ++ c :: after) (hc : p c = true) :
    ∃ before' left right after', before = before' ++ left ∧ after = right ++ after' ∧
      MaximalRun p cs before' (left ++ c :: right) after' := by
  obtain ⟨before', left, rfl, hleft, hb⟩ := exists_trailing p before
  obtain ⟨right, after', rfl, hright, ha⟩ := exists_leading p after
  refine ⟨before', left, right, after', rfl, rfl, by simp [h], by simp, fun d hd => ?_, hb, ha⟩
  rcases List.mem_append.1 hd with hd | hd
  · exact hleft d hd
  · rcases List.mem_cons.1 hd with rfl | hd
    · exact hc
    · exact hright d hd

end Runs

/-! ## The rules -/

/-- The rules for the characters of a line. -/
structure WellFormed (vars : Variables) (cs : List Char) : Prop where
  ne_nil : cs ≠ []
  /-- A letter has to be a variable with a value. -/
  legal : ∀ c ∈ cs, c.isDigit = true ∨ c ∈ ['+', '-', '*', '/', '^', '(', ')'] ∨
    (c.isAlpha = true ∧ vars.contains c = true)
  /-- All digits in a row make a finite number. -/
  finite : ∀ before run after, MaximalRun Char.isDigit cs before run after →
    Literal.IsFinite (Literal.ofDigits (run.map Lexeme.digitValue))
  last : ∀ c, cs.getLast? = some c → isOperandEnd c = true
  closed : ∀ before after, cs = before ++ ')' :: after →
    ∃ c, before.getLast? = some c ∧ isOperandEnd c = true
  balanced : ∀ before after, cs = before ++ after → before.count ')' ≤ before.count '('
  /-- At most two signs stand at the start. -/
  leading : ∀ run after, MaximalRun isOperator cs [] run after →
    run.length ≤ 2 ∧ ∀ c ∈ run, isSign c = true
  /-- At most one sign follows an opening parenthesis. -/
  opening : ∀ before run after, MaximalRun isOperator cs (before ++ ['(']) run after →
    run.length = 1 ∧ ∀ c ∈ run, isSign c = true
  /-- One operator follows an operand, and at most one sign follows the operator. -/
  binary : ∀ before c run after, isOperandEnd c = true →
    MaximalRun isOperator cs (before ++ [c]) run after →
    run.length ≤ 2 ∧ ∀ c ∈ run.tail, isSign c = true

/-! ## Acceptance -/

/-- What the scan asks of the characters of a line. -/
structure Readable (vars : Variables) (cs : List Char) : Prop where
  all : AllLexemes cs
  admits : ∀ before c after lexeme, cs = before ++ c :: after → Lexeme.ofChar? c = some lexeme →
    (History.ofChars before).Admits vars lexeme
  finite : (History.ofChars cs).Finite
  ends : (History.ofChars cs).endsOperand = true

section Acceptance

variable {vars : Variables} {cs before run after : List Char} {c : Char}

/-- The lexemes of some characters are acceptable if each character may follow those before it. -/
theorem accepts_lexemes : History.Accepts vars (lexemes cs) ↔
    ∀ before c after lexeme, cs = before ++ c :: after → Lexeme.ofChar? c = some lexeme →
      (History.ofChars before).Admits vars lexeme := by
  constructor
  · intro h before c after lexeme he hl
    refine h (lexemes before) lexeme (lexemes after) ?_
    rw [he, lexemes_append, lexemes_cons hl]
  · intro h before lexeme after he
    obtain ⟨cs₁, cs₂, rfl, rfl, h₂⟩ := List.filterMap_eq_append_iff.1 he
    obtain ⟨cs₃, c, cs₄, rfl, hnone, hl, -⟩ := List.filterMap_eq_cons_iff.1 h₂
    have hskip : lexemes cs₃ = [] := List.filterMap_eq_nil_iff.2 hnone
    have hc := h (cs₁ ++ cs₃) c cs₄ lexeme (by simp) hl
    rwa [History.ofChars, lexemes_append, hskip, List.append_nil] at hc

theorem exists_tokenize_iff_readable {line : String} :
    (∃ e, tokenize vars line = .ok e) ↔ Readable vars (significant line) := by
  constructor
  · rintro ⟨e, he⟩
    obtain ⟨hall, ha, hf, hb, -⟩ := tokenize_eq_ok.1 he
    exact ⟨hall, accepts_lexemes.1 ha, hf, hb⟩
  · rintro ⟨hall, ha, hf, hb⟩
    exact ⟨⟨_⟩, tokenize_eq_ok.2 ⟨hall, accepts_lexemes.2 ha, hf, hb, rfl⟩⟩

/-! ### A line that is read is well formed -/

namespace Readable

/-- An operator character is a sign unless it follows an operand. -/
theorem operator (hr : Readable vars cs) (hm : MaximalRun isOperator cs before run after)
    {left right : List Char} (he : run = left ++ c :: right) :
    (left = [] ∧ (History.ofChars before).endsOperand = true) ∨
      (isSign c = true ∧ (History.ofChars before).run + left.length < 2) := by
  have hcs : cs = (before ++ left) ++ c :: (right ++ after) := by simp [hm.eq, he]
  have hall : AllLexemes (before ++ left) := (hcs ▸ hr.all).left
  have hleft : ∀ d ∈ left, isOperator d = true :=
    fun d hd => hm.all d (by rw [he]; exact List.mem_append_left _ hd)
  obtain ⟨op, hop⟩ := isOperator_iff.1 (hm.all c (by simp [he]))
  obtain ⟨-, hb | ⟨hsign, hrun⟩⟩ := hr.admits _ _ _ _ hcs hop
  · rcases List.eq_nil_or_concat left with rfl | ⟨left, d, rfl⟩
    · rw [List.append_nil] at hb
      exact .inl ⟨rfl, hb⟩
    · obtain ⟨d', hd', hend⟩ := (History.endsOperand_ofChars hall).1 hb
      obtain ⟨op', hop'⟩ := isOperator_iff.1 (hleft d (by simp))
      have : d = d' := by simpa using hd'
      rw [← this, isOperandEnd_eq hop'] at hend
      cases hend
  · rw [History.run_ofChars_append hleft] at hrun
    exact .inr ⟨(isSign_iff hop).2 hsign, hrun⟩

/-- A run of operator characters is short, unless it is one operator after an operand. -/
theorem length_le (hr : Readable vars cs) (hm : MaximalRun isOperator cs before run after) :
    run.length = 1 ∨ (History.ofChars before).run + run.length ≤ 2 := by
  rcases List.eq_nil_or_concat run with rfl | ⟨left, c, rfl⟩
  · exact absurd rfl hm.ne_nil
  · rw [List.concat_eq_append] at hm ⊢
    rcases hr.operator hm rfl with ⟨rfl, -⟩ | ⟨-, hlt⟩
    · exact .inl rfl
    · refine .inr ?_
      rw [List.length_append, List.length_singleton]
      omega

theorem isSign_of_not_endsOperand (hr : Readable vars cs)
    (hm : MaximalRun isOperator cs before run after)
    (hb : (History.ofChars before).endsOperand = false) : ∀ c ∈ run, isSign c = true := by
  intro c hc
  obtain ⟨left, right, he⟩ := List.append_of_mem hc
  rcases hr.operator hm he with ⟨-, hb'⟩ | ⟨hs, -⟩
  · rw [hb] at hb'
    cases hb'
  · exact hs

theorem isSign_of_mem_tail (hr : Readable vars cs)
    (hm : MaximalRun isOperator cs before run after) : ∀ c ∈ run.tail, isSign c = true := by
  intro c hc
  obtain ⟨left, right, he⟩ := List.append_of_mem hc
  cases run with
  | nil => cases hc
  | cons d run =>
    have he' : d :: run = (d :: left) ++ c :: right := congrArg (d :: ·) he
    rcases hr.operator hm he' with ⟨hn, -⟩ | ⟨hs, -⟩
    · cases hn
    · exact hs

theorem legal (hr : Readable vars cs) (hc : c ∈ cs) : c.isDigit = true ∨
    c ∈ ['+', '-', '*', '/', '^', '(', ')'] ∨ (c.isAlpha = true ∧ vars.contains c = true) := by
  obtain ⟨before, after, he⟩ := List.append_of_mem hc
  obtain ⟨lexeme, hl⟩ := Option.isSome_iff_exists.1 (hr.all c hc)
  have ha := hr.admits before c after lexeme he hl
  obtain ⟨rfl, halpha⟩ := Lexeme.ofChar?_eq_some.1 hl
  cases lexeme with
  | digit value => exact .inl (Lexeme.isDigit_digitChar value)
  | letter name => exact .inr (.inr ⟨halpha name rfl, ha.1⟩)
  | operator op => cases op <;> exact .inr (.inl (by decide))
  | openParen => exact .inr (.inl (by decide))
  | closeParen => exact .inr (.inl (by decide))

/-- A literal ends before any character but a digit. -/
theorem finite_prefix (hr : Readable vars cs) (he : cs = before ++ after)
    (hd : ∀ c ∈ after.head?, c.isDigit = false) : (History.ofChars before).Finite := by
  cases after with
  | nil => rw [List.append_nil] at he; exact he ▸ hr.finite
  | cons c after =>
    obtain ⟨lexeme, hl⟩ := Option.isSome_iff_exists.1 (hr.all c (by simp [he]))
    have ha := hr.admits before c after lexeme he hl
    cases lexeme with
    | digit value =>
      have hdigit := hd c rfl
      rw [isDigit_iff.2 ⟨value, hl⟩] at hdigit
      cases hdigit
    | letter name => exact ha.2
    | operator op => exact ha.1
    | openParen => exact ha
    | closeParen => exact ha.1

theorem finite_run (hr : Readable vars cs) (hm : MaximalRun Char.isDigit cs before run after) :
    Literal.IsFinite (Literal.ofDigits (run.map Lexeme.digitValue)) := by
  have hall : AllLexemes before := by
    have := hr.all
    rw [hm.eq, List.append_assoc] at this
    exact this.left
  have hf := hr.finite_prefix hm.eq hm.right
  rwa [History.ofChars_append_digits hall hm.left hm.ne_nil hm.all] at hf

theorem balanced (hr : Readable vars cs) (he : cs = before ++ after) :
    before.count ')' ≤ before.count '(' := by
  induction before using List.reverseRecOn generalizing after with
  | nil => exact Nat.le_refl _
  | append_singleton before c ih =>
    rw [List.append_assoc, List.singleton_append] at he
    have hle := ih he
    rw [List.count_append, List.count_append, List.count_singleton, List.count_singleton]
    by_cases hc : c = ')'
    · subst hc
      obtain ⟨-, hlt, -⟩ := hr.admits before ')' after .closeParen he rfl
      rw [History.count_openParen_ofChars, History.count_closeParen_ofChars] at hlt
      simp only [beq_self_eq_true, if_true]
      omega
    · rw [if_neg (by simpa using hc)]
      omega

theorem wellFormed (hr : Readable vars cs) : WellFormed vars cs := by
  obtain ⟨last, hlast, hend⟩ := (History.endsOperand_ofChars hr.all).1 hr.ends
  have hall : ∀ {before after}, cs = before ++ after → AllLexemes before :=
    fun he => (he ▸ hr.all).left
  refine ⟨?_, fun c hc => hr.legal hc, fun _ _ _ hm => hr.finite_run hm, ?_, ?_,
    fun _ _ he => hr.balanced he, ?_, ?_, ?_⟩
  · rintro rfl
    cases hlast
  · intro c hc
    rw [hlast] at hc
    exact Option.some.inj hc ▸ hend
  · intro before after he
    obtain ⟨-, -, hb⟩ := hr.admits before ')' after .closeParen he rfl
    exact (History.endsOperand_ofChars (hall he)).1 hb
  · intro run after hm
    refine ⟨?_, hr.isSign_of_not_endsOperand hm rfl⟩
    have := hr.length_le hm
    omega
  · intro before run after hm
    have ho : History.ofChars (before ++ ['(']) = (History.ofChars before).add .openParen :=
      History.ofChars_concat rfl
    refine ⟨?_, hr.isSign_of_not_endsOperand hm (by rw [ho]; rfl)⟩
    have hrun : (History.ofChars (before ++ ['('])).run = 1 := by rw [ho]; rfl
    have := hr.length_le hm
    have := List.length_pos_iff.2 hm.ne_nil
    omega
  · intro before c run after hc hm
    refine ⟨?_, hr.isSign_of_mem_tail hm⟩
    have := hr.length_le hm
    omega

end Readable

/-! ### A well formed line is read -/

namespace WellFormed

theorem allLexemes (hw : WellFormed vars cs) : AllLexemes cs := by
  intro c hc
  rcases hw.legal c hc with hd | hm | ⟨ha, -⟩
  · rw [Lexeme.ofChar?_of_isDigit hd]
    rfl
  · simp only [List.mem_cons, List.not_mem_nil, or_false] at hm
    rcases hm with rfl | rfl | rfl | rfl | rfl | rfl | rfl <;> rfl
  · rw [Lexeme.ofChar?_of_isAlpha ha]
    rfl

/-- A literal is finite if the digits before a place are a maximal run. -/
theorem finite_prefix (hw : WellFormed vars cs) (he : cs = before ++ after)
    (hd : ∀ c ∈ after.head?, c.isDigit = false) : (History.ofChars before).Finite := by
  have hall : AllLexemes before := (he ▸ hw.allLexemes).left
  obtain ⟨before, run, rfl, hrun, hleft⟩ := exists_trailing Char.isDigit before
  by_cases hne : run = []
  · subst hne
    rw [List.append_nil] at hall ⊢
    exact History.finite_of_ne_literal (History.ofChars_ne_literal hall hleft)
  · rw [History.ofChars_append_digits hall.left hleft hne hrun]
    exact hw.finite before run after ⟨he, hne, hrun, hleft, hd⟩

/-- An operator character follows an operand or it is one of few signs. -/
theorem operator {op : Operator} (hw : WellFormed vars cs) (he : cs = before ++ c :: after)
    (hop : Lexeme.ofChar? c = some (.operator op)) : (History.ofChars before).endsOperand = true ∨
      (op = .add ∨ op = .sub) ∧ (History.ofChars before).run < Scan.maxRun := by
  have hall : AllLexemes before := (he ▸ hw.allLexemes).left
  obtain ⟨before, left, right, after, rfl, rfl, hm⟩ :=
    exists_maximalRun he (isOperator_iff.2 ⟨op, hop⟩)
  rw [← isSign_iff hop, History.run_ofChars_append fun d hd => hm.all d (List.mem_append_left _ hd),
    Scan.maxRun]
  have hlength : (left ++ c :: right).length = left.length + right.length + 1 := by
    rw [List.length_append, List.length_cons, Nat.add_assoc]
  have hmem : c ∈ left ++ c :: right := by simp
  rcases List.eq_nil_or_concat before with rfl | ⟨before, d, rfl⟩
  · obtain ⟨hle, hsign⟩ := hw.leading _ _ hm
    have hrun : (History.ofChars []).run = 0 := rfl
    exact .inr ⟨hsign c hmem, by omega⟩
  rw [List.concat_eq_append] at hall hm ⊢
  obtain ⟨lexeme, hl⟩ := hall.left.last
  by_cases hend : isOperandEnd d = true
  · obtain ⟨hle, hsign⟩ := hw.binary before d _ _ hend hm
    have hb : (History.ofChars (before ++ [d])).endsOperand = true :=
      (History.endsOperand_ofChars hall.left).2 ⟨d, by simp, hend⟩
    cases left with
    | nil => exact .inl (by rwa [List.append_nil])
    | cons d' left =>
      rw [History.run_eq_zero hb]
      exact .inr ⟨hsign c (by simp), by omega⟩
  · -- Neither an operand nor an operator stands before the run.
    have hd : isOperator d = false := hm.left d (by simp)
    rw [isOperandEnd_eq hl] at hend
    have hchar := Lexeme.char_of_ofChar? hl
    cases lexeme with
    | operator op' => rw [isOperator_iff.2 ⟨op', hl⟩] at hd; cases hd
    | openParen =>
      subst hchar
      obtain ⟨hle, hsign⟩ := hw.opening before _ _ hm
      have hrun : (History.ofChars (before ++ [Lexeme.openParen.char])).run = 1 := by
        rw [History.ofChars_concat hl]
        rfl
      exact .inr ⟨hsign c hmem, by omega⟩
    | digit value => exact absurd rfl hend
    | letter name => exact absurd rfl hend
    | closeParen => exact absurd rfl hend

theorem readable (hw : WellFormed vars cs) : Readable vars cs := by
  refine ⟨hw.allLexemes, ?_, ?_, ?_⟩
  · intro before c after lexeme he hl
    have hall : AllLexemes before := (he ▸ hw.allLexemes).left
    have hfinite : (∀ value, lexeme ≠ .digit value) → (History.ofChars before).Finite := by
      intro hd
      refine hw.finite_prefix he fun c' hc' => ?_
      rw [← Bool.not_eq_true]
      intro hdigit
      cases hc'
      obtain ⟨value, hvalue⟩ := isDigit_iff.1 hdigit
      rw [hl] at hvalue
      exact hd value (Option.some.inj hvalue)
    have hchar := Lexeme.char_of_ofChar? hl
    cases lexeme with
    | digit value => trivial
    | letter name =>
      refine ⟨?_, hfinite (by simp)⟩
      rcases hw.legal c (by simp [he]) with hd | hm | ⟨-, hc⟩
      · obtain ⟨value, hvalue⟩ := isDigit_iff.1 hd
        rw [hl] at hvalue
        cases hvalue
      · simp only [List.mem_cons, List.not_mem_nil, or_false] at hm
        rcases hm with rfl | rfl | rfl | rfl | rfl | rfl | rfl <;> cases hl
      · rwa [← hchar] at hc
    | operator op => exact ⟨hfinite (by simp), hw.operator he hl⟩
    | openParen => exact hfinite (by simp)
    | closeParen =>
      subst hchar
      refine ⟨hfinite (by simp), ?_, ?_⟩
      · have := hw.balanced (before ++ [')']) after (by rw [he]; simp [Lexeme.char])
        rw [History.count_openParen_ofChars, History.count_closeParen_ofChars]
        simp at this
        omega
      · exact (History.endsOperand_ofChars hall).2 (hw.closed before after he)
  · exact hw.finite_prefix (List.append_nil cs).symm (by simp)
  · obtain ⟨c, hc⟩ : ∃ c, cs.getLast? = some c :=
      Option.isSome_iff_exists.1 (List.getLast?_isSome.2 hw.ne_nil)
    exact (History.endsOperand_ofChars hw.allLexemes).2 ⟨c, hc, hw.last c hc⟩

end WellFormed

/-- A line is an expression if its characters obey the rules, and only then. -/
theorem exists_tokenize_iff_wellFormed {line : String} :
    (∃ e, tokenize vars line = .ok e) ↔ WellFormed vars (significant line) :=
  exists_tokenize_iff_readable.trans ⟨Readable.wellFormed, WellFormed.readable⟩

end Acceptance

end Calculator
