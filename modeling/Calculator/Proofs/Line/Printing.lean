import Calculator.Proofs.Expression.Legal
import Calculator.Proofs.Line.Characters

/-!
# Reading the text of an expression

The text of an expression is a line that is read as this expression, as long as its numbers and
variables can be read at all. Before each operand at most one sign is read, the one of the operand.

* `ReadsBack`, `Token.Readable`: what can be read.
* `History.Echoes`: a history that writes some tokens and holds no sign back.
* `Echoed.token`, `Echoed.of_legal`: the text of one more token, and the text of all tokens.
* `significant_text`: the characters of the text of an expression.
* `tokenize_text`: the text of an expression is read as the expression.
-/

namespace Calculator

/-- The text of a number is a run of digits, after a minus sign or without one, and the value of
the digits with this sign is the number. -/
structure ReadsBack (x : Float) (minus : Bool) (run : List Char) : Prop where
  text : (numberText x).toList = (if minus then ['-'] else []) ++ run
  ne_nil : run ≠ []
  digits : ∀ c ∈ run, c.isDigit = true
  finite : Literal.IsFinite (Literal.ofDigits (run.map Lexeme.digitValue))
  eq : x =
    let value := Literal.toFloat (Literal.ofDigits (run.map Lexeme.digitValue))
    if minus then -value else value

/-- Whether a token can be read from its text. -/
def Token.Readable (vars : Variables) : Token → Prop
  | .number x => ∃ minus run, ReadsBack x minus run
  | .var name => name.isAlpha = true ∧ vars.contains name = true
  | .operator _ | .openParen | .closeParen => True

/-! ## Histories -/

namespace History

/-- A history that writes the tokens `ts`, with nothing that changes the tokens after them. -/
structure Echoes (h : History) (ts : List Token) : Prop where
  tokens : h.tokens = ts
  finite : h.Finite
  negated : h.negated = false
  run : h.run ≤ 1
  opens : h.count .openParen = ts.count .openParen
  closes : h.count .closeParen = ts.count .closeParen

namespace Echoes

variable {h : History} {ts : List Token}

theorem nil : Echoes [] [] := ⟨rfl, trivial, rfl, Nat.zero_le _, rfl, rfl⟩

theorem endsOperand_eq (he : Echoes h ts) :
    h.endsOperand = ts.getLast?.any Token.endsOperand := by
  rw [← he.tokens, any_endsOperand_getLast?_tokens]

theorem literal (he : Echoes h ts) (hb : h.endsOperand = false) {digits : List (Fin 10)}
    (hf : Literal.IsFinite (Literal.ofDigits digits)) :
    Echoes (.literal digits :: h)
      (ts ++ [.number (Literal.toFloat (Literal.ofDigits digits))]) where
  tokens := by simp [History.tokens, tokensOf, product, hb, he.negated, he.tokens]
  finite := hf
  negated := rfl
  run := Nat.zero_le _
  opens := by simp [he.opens]
  closes := by simp [he.closes]

/-- A minus sign that is no operator belongs to the literal after it. -/
theorem negative (he : Echoes h ts) (hb : h.endsOperand = false) {digits : List (Fin 10)}
    (hf : Literal.IsFinite (Literal.ofDigits digits)) :
    Echoes (.literal digits :: .operator .sub :: h)
      (ts ++ [.number (-Literal.toFloat (Literal.ofDigits digits))]) where
  tokens := by
    have hsign : History.negated (.operator .sub :: h) = true := by simp [History.negated, hb]
    have hends : History.endsOperand (.operator .sub :: h) = false := rfl
    simp [History.tokens, tokensOf, product, hb, hsign, hends, he.tokens]
  finite := hf
  negated := rfl
  run := Nat.zero_le _
  opens := by simp [he.opens]
  closes := by simp [he.closes]

theorem letter (he : Echoes h ts) (hb : h.endsOperand = false) (name : Char) :
    Echoes (.letter name :: h) (ts ++ [.var name]) where
  tokens := by simp [History.tokens, tokensOf, product, hb, he.negated, he.tokens]
  finite := trivial
  negated := rfl
  run := Nat.zero_le _
  opens := by simp [he.opens]
  closes := by simp [he.closes]

theorem operator (he : Echoes h ts) (hb : h.endsOperand = true) (op : Operator) :
    Echoes (.operator op :: h) (ts ++ [.operator op]) where
  tokens := by simp [History.tokens, tokensOf, hb, he.tokens]
  finite := trivial
  negated := by cases op <;> simp [History.negated, hb, he.negated]
  run := by simp [History.run, run_eq_zero hb]
  opens := by simp [he.opens]
  closes := by simp [he.closes]

theorem openParen (he : Echoes h ts) (hb : h.endsOperand = false) :
    Echoes (.openParen :: h) (ts ++ [.openParen]) where
  tokens := by simp [History.tokens, tokensOf, product, hb, he.tokens]
  finite := trivial
  negated := he.negated
  run := Nat.le_refl _
  opens := by simp [he.opens]
  closes := by simp [he.closes]

theorem closeParen (he : Echoes h ts) : Echoes (.closeParen :: h) (ts ++ [.closeParen]) where
  tokens := by simp [History.tokens, tokensOf, he.tokens]
  finite := trivial
  negated := he.negated
  run := Nat.zero_le _
  opens := by simp [he.opens]
  closes := by simp [he.closes]

end Echoes

end History

/-! ## Texts -/

/-- The lexemes of the text of a token. -/
def Token.lexemes (t : Token) : List Lexeme := Calculator.lexemes t.text.toList

theorem ReadsBack.lexemes_number {x : Float} {minus : Bool} {run : List Char}
    (hx : ReadsBack x minus run) : Token.lexemes (.number x) =
      (if minus then [.operator .sub] else []) ++ (run.map Lexeme.digitValue).map .digit := by
  rw [Token.lexemes, Token.text, hx.text, lexemes_append, History.lexemes_digits hx.digits]
  cases minus <;> rfl

/-- Lexemes that are accepted and echo the tokens `ts`. -/
structure Echoed (vars : Variables) (ls : List Lexeme) (ts : List Token) : Prop where
  accepts : History.Accepts vars ls
  echoes : (History.ofLexemes ls).Echoes ts

namespace Echoed

variable {vars : Variables} {ls : List Lexeme} {ts : List Token} {t : Token}

/-- One more lexeme that is one more token. -/
theorem concat {lexeme : Lexeme} (h : Echoed vars ls ts)
    (ha : (History.ofLexemes ls).Admits vars lexeme)
    (he : ((History.ofLexemes ls).add lexeme).Echoes (ts ++ [t])) :
    Echoed vars (ls ++ [lexeme]) (ts ++ [t]) :=
  ⟨History.accepts_concat.2 ⟨h.accepts, ha⟩, History.ofLexemes_concat ls lexeme ▸ he⟩

/-- A number is read with its sign. -/
theorem number (h : Echoed vars ls ts) (hb : (History.ofLexemes ls).endsOperand = false)
    {x : Float} {minus : Bool} {run : List Char} (hx : ReadsBack x minus run) :
    Echoed vars (ls ++ Token.lexemes (.number x)) (ts ++ [.number x]) := by
  have hne : run.map Lexeme.digitValue ≠ [] := by simpa using hx.ne_nil
  have heq := hx.eq
  rw [hx.lexemes_number]
  cases minus with
  | false =>
    subst heq
    have hliteral : ∀ digits before, History.ofLexemes ls ≠ .literal digits :: before :=
      fun digits before he => by rw [he] at hb; cases hb
    refine ⟨History.accepts_append_digits h.accepts _, ?_⟩
    rw [if_neg Bool.false_ne_true, List.nil_append, History.ofLexemes_append_digits hliteral hne]
    exact h.echoes.literal hb hx.finite
  | true =>
    -- The sign is no operator: no operand ends here, and at most one character of a run is read.
    subst heq
    have hsign : History.ofLexemes (ls ++ [.operator .sub]) =
        .operator .sub :: History.ofLexemes ls := History.ofLexemes_concat ls _
    have hadmits : (History.ofLexemes ls).Admits vars (.operator .sub) :=
      ⟨h.echoes.finite, .inr ⟨.inr rfl, Nat.lt_succ_of_le h.echoes.run⟩⟩
    rw [if_pos rfl, ← List.append_assoc]
    refine ⟨History.accepts_append_digits (History.accepts_concat.2 ⟨h.accepts, hadmits⟩) _, ?_⟩
    rw [History.ofLexemes_append_digits (by simp [hsign]) hne, hsign]
    exact h.echoes.negative hb hx.finite

/-- The text of one more token. -/
theorem token (h : Echoed vars ls ts) (hr : t.Readable vars)
    (hs : t.startsOperand = !ts.getLast?.any Token.endsOperand)
    (hc : (ts ++ [t]).count .closeParen ≤ (ts ++ [t]).count .openParen) :
    Echoed vars (ls ++ t.lexemes) (ts ++ [t]) := by
  rw [← h.echoes.endsOperand_eq] at hs
  have hstart : t.startsOperand = true → (History.ofLexemes ls).endsOperand = false := by
    intro ht
    rwa [ht, eq_comm, Bool.not_eq_true'] at hs
  have hafter : t.startsOperand = false → (History.ofLexemes ls).endsOperand = true := by
    intro ht
    rwa [ht, eq_comm, Bool.not_eq_false'] at hs
  cases t with
  | number x =>
    obtain ⟨minus, run, hx⟩ := hr
    exact h.number (hstart rfl) hx
  | var name =>
    have hl : Token.lexemes (.var name) = [.letter name] := by
      simp [Token.lexemes, Token.text, lexemes, Lexeme.ofChar?_of_isAlpha hr.1]
    rw [hl]
    exact h.concat ⟨hr.2, h.echoes.finite⟩ (h.echoes.letter (hstart rfl) name)
  | operator op =>
    have hl : Token.lexemes (.operator op) = [.operator op] := by
      cases op <;> rfl
    rw [hl]
    exact h.concat ⟨h.echoes.finite, .inl (hafter rfl)⟩ (h.echoes.operator (hafter rfl) op)
  | openParen => exact h.concat h.echoes.finite (h.echoes.openParen (hstart rfl))
  | closeParen =>
    refine h.concat ⟨h.echoes.finite, ?_, hafter rfl⟩ h.echoes.closeParen
    rw [h.echoes.opens, h.echoes.closes]
    exact Nat.lt_of_succ_le (by simpa using hc)

/-- The text of all tokens up to a place. -/
theorem of_legal {ts before : List Token} (hl : Legal ts) (hr : ∀ t ∈ ts, t.Readable vars)
    (hp : before <+: ts) : Echoed vars (before.flatMap Token.lexemes) before := by
  -- From place to place; the rules say what may stand at the next one.
  induction before using List.reverseRecOn with
  | nil => exact ⟨History.accepts_nil, .nil⟩
  | append_singleton before t ih =>
    have ht : t ∈ ts := hp.subset (by simp)
    rw [List.flatMap_append, List.flatMap_singleton]
    exact (ih ((List.prefix_append before [t]).trans hp)).token (hr t ht)
      (hl.startsOperand_eq hp) (hl.balanced.le _ hp)

end Echoed

/-! ## Lines -/

/-- The text of a token that can be read holds lexemes only. -/
theorem Token.Readable.allLexemes {vars : Variables} {t : Token} (hr : t.Readable vars) :
    AllLexemes t.text.toList := by
  intro c hc
  cases t with
  | number x =>
    obtain ⟨minus, run, hx⟩ := hr
    rw [Token.text, hx.text, List.mem_append] at hc
    rcases hc with hc | hc
    · cases minus with
      | false => cases hc
      | true =>
        rw [List.mem_singleton.1 hc]
        rfl
    · rw [Lexeme.ofChar?_of_isDigit (hx.digits c hc)]
      rfl
  | var name =>
    have : c = name := by simpa [Token.text] using hc
    rw [this, Lexeme.ofChar?_of_isAlpha hr.1]
    rfl
  | operator op =>
    have : c = op.symbol := by simpa [Token.text] using hc
    rw [this]
    cases op <;> rfl
  | openParen =>
    rw [List.mem_singleton.1 hc]
    rfl
  | closeParen =>
    rw [List.mem_singleton.1 hc]
    rfl

/-- What is left of lists that are joined by a separator of which nothing is left. -/
theorem filter_intercalate {p : Char → Bool} {separator : List Char}
    (hs : separator.filter p = []) (css : List (List Char)) :
    (separator.intercalate css).filter p = css.flatMap (List.filter p) := by
  induction css with
  | nil => rfl
  | cons cs css ih =>
    cases css with
    | nil => simp
    | cons cs' css =>
      rw [List.intercalate_cons_cons, List.filter_append, List.filter_append, hs, ih,
        List.append_nil]
      rfl

section Line

variable {vars : Variables} {e : Expression}

/-- The spaces between the tokens are skipped, and nothing else. -/
theorem significant_text (hr : ∀ t ∈ e.tokens, t.Readable vars) :
    significant e.text = e.tokens.flatMap fun t => t.text.toList := by
  rw [significant, Expression.text, String.toList_intercalate, filter_intercalate (by decide),
    List.map_map, List.flatMap_map]
  refine List.flatMap_congr fun t ht => ?_
  rw [Function.comp_apply, List.filter_eq_self]
  intro c hc
  obtain ⟨lexeme, hl⟩ := Option.isSome_iff_exists.1 ((hr t ht).allLexemes c hc)
  rw [Lexeme.isSkipped_eq_false hl]
  rfl

/-- The text of legal tokens that can be read is read as these tokens. -/
theorem tokenize_text_of_legal (hl : Legal e.tokens) (hr : ∀ t ∈ e.tokens, t.Readable vars) :
    tokenize vars e.text = .ok e := by
  obtain ⟨ha, he⟩ := Echoed.of_legal hl hr List.prefix_rfl
  have hlexemes : lexemes (significant e.text) = e.tokens.flatMap Token.lexemes := by
    rw [significant_text hr]
    exact List.filterMap_flatMap
  rw [← hlexemes] at ha he
  change (History.ofChars (significant e.text)).Echoes e.tokens at he
  refine tokenize_eq_ok.2 ⟨?_, ha, he.finite, ?_, ?_⟩
  · rw [significant_text hr]
    intro c hc
    obtain ⟨t, ht, hc⟩ := List.mem_flatMap.1 hc
    exact (hr t ht).allLexemes c hc
  · exact he.endsOperand_eq.trans hl.endsOperand_getLast?
  · have hopen : (History.ofChars (significant e.text)).openGroups = 0 := by
      rw [History.openGroups]
      exact Nat.sub_eq_zero_of_le (by rw [he.opens, he.closes, hl.balanced.eq])
    rw [hopen]
    exact he.tokens.symm.trans (List.append_nil _).symm

/-- The text of the expression on a line. -/
def expressionText (vars : Variables) (line : String) : Except SyntaxError String :=
  (tokenize vars line).map Expression.text

/-- The text of a formula whose tokens can be read is read as this formula. So the formula is on
some line, and each line that holds it has a text that is its own. -/
theorem tokenize_text (f : Formula) (hr : ∀ t ∈ f.tokens, t.Readable vars) :
    let e : Expression := ⟨f.tokens⟩
    tokenize vars e.text = .ok e ∧ (∃ line, tokenize vars line = .ok e) ∧
      ∀ line, tokenize vars line = .ok e →
        expressionText vars line >>= expressionText vars = expressionText vars line := by
  intro e
  have h : tokenize vars e.text = .ok e :=
    tokenize_text_of_legal (legal_iff_exists_formula.2 ⟨f, rfl⟩) hr
  refine ⟨h, ⟨e.text, h⟩, fun line hline => ?_⟩
  rw [expressionText, hline]
  change (tokenize vars e.text).map Expression.text = _
  rw [h]

/-- The text of an expression with a negative number, a group and a negative zero. -/
theorem tokenize_text_negative :
    let vars := Variables.set ∅ 'x' 3
    let f : Formula := .binary (.operand (.number (-12))) .mul (.group
      (.binary (.binary (.operand (.var 'x')) .sub (.number (-0))) .div (.number 7)))
    let e : Expression := ⟨f.tokens⟩
    e.text = "-12 * ( x - -0 / 7 )" ∧ (∀ t ∈ f.tokens, t.Readable vars) ∧
      tokenize vars e.text = .ok e ∧ (∃ line, tokenize vars line = .ok e) ∧
      ∀ line, tokenize vars line = .ok e →
        expressionText vars line >>= expressionText vars = expressionText vars line := by
  intro vars f e
  have htwelve : ReadsBack (-12) true ['1', '2'] :=
    ⟨by decide +kernel, by simp, List.all_eq_true.1 rfl, by decide +kernel, by decide +kernel⟩
  have hzero : ReadsBack (-0) true ['0'] :=
    ⟨by decide +kernel, by simp, List.all_eq_true.1 rfl, by decide +kernel, by decide +kernel⟩
  have hseven : ReadsBack 7 false ['7'] :=
    ⟨by decide +kernel, by simp, List.all_eq_true.1 rfl, by decide +kernel, by decide +kernel⟩
  have hx : 'x'.isAlpha = true ∧ vars.contains 'x' = true := by decide +kernel
  have hr : ∀ t ∈ f.tokens, t.Readable vars := by
    change ∀ t ∈ [Token.number (-12), .operator .mul, .openParen, .var 'x', .operator .sub,
      .number (-0), .operator .div, .number 7, .closeParen], t.Readable vars
    simp only [List.forall_mem_cons]
    exact ⟨⟨true, _, htwelve⟩, trivial, trivial, hx, trivial, ⟨true, _, hzero⟩, trivial,
      ⟨false, _, hseven⟩, trivial, by simp⟩
  exact ⟨by decide +kernel, hr, tokenize_text f hr⟩

end Line

end Calculator
