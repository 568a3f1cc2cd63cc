import Calculator.Proofs.Line.Characters

/-!
# Histories that go on alike

What may follow a history, and what it adds, depends on a few facts about the history only. So two
histories with the same facts go on alike, whatever follows.

* `History.Detached`, `History.foldl_add_eq`: what follows makes pieces of its own, unless it goes
  on with a literal.
* `History.Alike`: the facts.
* `History.Alike.append`: they stay the same whatever follows.
* `History.Alike.tokens`, `History.Alike.accepts`: the same tokens follow, and the same lexemes may
  follow.
* `exists_tokenize_of_alike`: so a first part of a line may stand for another one.
-/

namespace Calculator

namespace History

variable {vars : Variables} {h b b' later : History} {ls ls' : List Lexeme} {lexeme : Lexeme}

/-! ## Pieces after a history -/

theorem add_ne_nil (h : History) (lexeme : Lexeme) : h.add lexeme ≠ [] := by
  cases lexeme with
  | digit digit =>
    rcases add_digit_cases h digit with ⟨digits, before, -, he⟩ | ⟨-, he⟩
    · rw [he]; exact List.cons_ne_nil _ _
    · rw [he]; exact List.cons_ne_nil _ _
  | _ => exact List.cons_ne_nil _ _

theorem add_append (hn : h ≠ []) (b : History) (lexeme : Lexeme) :
    (h ++ b).add lexeme = h.add lexeme ++ b := by
  obtain ⟨piece, before, rfl⟩ := List.exists_cons_of_ne_nil hn
  cases lexeme with
  | digit digit => cases piece <;> rfl
  | _ => rfl

theorem foldl_add_append (hn : h ≠ []) (b : History) (ls : List Lexeme) :
    ls.foldl add (h ++ b) = ls.foldl add h ++ b := by
  induction ls generalizing h with
  | nil => rfl
  | cons lexeme ls ih =>
    rw [List.foldl_cons, List.foldl_cons, add_append hn]
    exact ih (add_ne_nil h lexeme)

/-- The lexemes do not go on with a literal that ends the history. -/
def Detached (b : History) (ls : List Lexeme) : Prop :=
  ∀ digit rest, ls = .digit digit :: rest → ∀ digits before, b ≠ .literal digits :: before

theorem Detached.of_append (h : Detached b (ls ++ ls')) : Detached b ls :=
  fun digit rest he => h digit (rest ++ ls') (by rw [he, List.cons_append])

theorem detached_cons {piece : Piece} (hp : piece.isLiteral = false) :
    Detached (piece :: h) ls := by
  intro digit rest _ digits before he
  cases he
  cases hp

/-- Detached lexemes make pieces of their own. -/
theorem foldl_add_eq (hb : Detached b ls) : ls.foldl add b = ofLexemes ls ++ b := by
  cases ls with
  | nil => rfl
  | cons lexeme rest =>
    have hfirst : b.add lexeme = add [] lexeme ++ b := by
      cases lexeme with
      | digit digit => exact add_digit_of_ne (hb digit rest rfl) digit
      | _ => rfl
    rw [ofLexemes, List.foldl_cons, List.foldl_cons, hfirst]
    exact foldl_add_append (add_ne_nil [] lexeme) b rest

/-- The oldest piece stays, except that a literal may grow. -/
theorem getLast?_of_foldl_add {op : Operator} (hn : h ≠ [])
    (hl : (ls.foldl add h).getLast? = some (.operator op)) : h.getLast? = some (.operator op) := by
  induction ls generalizing h with
  | nil => exact hl
  | cons lexeme ls ih =>
    have hadd := ih (add_ne_nil h lexeme) hl
    obtain ⟨piece, before, rfl⟩ := List.exists_cons_of_ne_nil hn
    cases lexeme with
    | digit digit =>
      rcases add_digit_cases (piece :: before) digit with ⟨digits, rest, he, hadd'⟩ | ⟨-, hadd'⟩
      · cases he
        rw [hadd'] at hadd
        cases before with
        | nil => cases hadd
        | cons piece before => rwa [List.getLast?_cons_cons] at hadd ⊢
      · rwa [hadd', List.getLast?_cons_cons] at hadd
    | _ => exact hadd

/-- The oldest piece is an operator if the first lexeme is. -/
theorem head?_of_getLast?_ofLexemes {op : Operator}
    (hl : (ofLexemes ls).getLast? = some (.operator op)) : ls.head? = some (.operator op) := by
  cases ls with
  | nil => cases hl
  | cons lexeme ls =>
    have hfirst := getLast?_of_foldl_add (add_ne_nil [] lexeme) hl
    cases lexeme <;> cases hfirst
    rfl

theorem ofLexemes_append (ls ls' : List Lexeme) :
    ofLexemes (ls ++ ls') = ls'.foldl add (ofLexemes ls) := List.foldl_append

/-- A line is acceptable if a first part of it is and each lexeme of the rest may follow. -/
theorem accepts_append : Accepts vars (ls ++ ls') ↔ Accepts vars ls ∧
    ∀ before lexeme after, ls' = before ++ lexeme :: after →
      Admits vars (before.foldl add (ofLexemes ls)) lexeme := by
  constructor
  · intro h
    refine ⟨fun before lexeme after he => ?_, fun before lexeme after he => ?_⟩
    · exact h before lexeme (after ++ ls') (by simp [he])
    · rw [← ofLexemes_append]
      exact h (ls ++ before) lexeme after (by simp [he])
  · rintro ⟨hl, hr⟩
    induction ls' using List.reverseRecOn with
    | nil => rwa [List.append_nil]
    | append_singleton ls' lexeme ih =>
      rw [← List.append_assoc]
      refine accepts_concat.2 ⟨ih fun before l after he => ?_, ?_⟩
      · exact hr before l (after ++ [lexeme]) (by simp [he])
      · rw [ofLexemes_append]
        exact hr ls' lexeme [] rfl

/-- Any lexeme but a digit ends the literal before it. -/
theorem Admits.finite (ha : Admits vars h lexeme) (hl : ∀ digit, lexeme ≠ .digit digit) :
    h.Finite := by
  cases lexeme with
  | digit digit => exact absurd rfl (hl digit)
  | letter name => exact ha.2
  | operator op => exact ha.1
  | openParen => exact ha
  | closeParen => exact ha.1

/-- A literal with which the line does not go on is finite. -/
theorem finite_of_accepts_append (hd : Detached (ofLexemes ls) ls')
    (ha : Accepts vars (ls ++ ls')) (hf : (ofLexemes (ls ++ ls')).Finite) :
    (ofLexemes ls).Finite := by
  cases ls' with
  | nil => rwa [List.append_nil] at hf
  | cons lexeme rest =>
    have hl : Admits vars (ofLexemes ls) lexeme := (accepts_append.1 ha).2 [] lexeme rest rfl
    cases lexeme with
    | digit digit => exact finite_of_ne_literal (hd digit rest rfl)
    | _ => exact hl.finite fun _ => Lexeme.noConfusion

/-! ## The facts that decide -/

/-- What decides how a history goes on. The groups that are open are as many, and a literal that
ends the second history is finite if the first one can go on. -/
structure Alike (b b' : History) : Prop where
  endsOperand : b'.endsOperand = b.endsOperand
  negated : b'.negated = b.negated
  run : b'.run = b.run
  finite : b.Finite → b'.Finite
  opened : b'.count .openParen + b.count .closeParen = b.count .openParen + b'.count .closeParen

namespace Alike

theorem refl (b : History) : Alike b b := ⟨rfl, rfl, rfl, id, rfl⟩

theorem cons (h : Alike b b') (piece : Piece) : Alike (piece :: b) (piece :: b') := by
  obtain ⟨hends, hneg, hrun, -, hopen⟩ := h
  have hopen' : (piece :: b').count .openParen + (piece :: b).count .closeParen =
      (piece :: b).count .openParen + (piece :: b').count .closeParen := by
    simp only [List.count_cons]
    omega
  cases piece with
  | literal digits => exact ⟨rfl, rfl, rfl, id, hopen'⟩
  | letter name => exact ⟨rfl, rfl, rfl, id, hopen'⟩
  | operator op =>
    refine ⟨rfl, ?_, congrArg (· + 1) hrun, id, hopen'⟩
    cases op with
    | sub => rw [History.negated, History.negated, hends, hneg]
    | _ => exact hneg
  | openParen => exact ⟨rfl, hneg, rfl, id, hopen'⟩
  | closeParen => exact ⟨rfl, hneg, rfl, id, hopen'⟩

theorem append (h : Alike b b') (later : History) : Alike (later ++ b) (later ++ b') := by
  induction later with
  | nil => exact h
  | cons piece later ih => exact ih.cons piece

/-- Each piece adds the same tokens. -/
theorem tokensOf (h : Alike b b') (piece : Piece) : b'.tokensOf piece = b.tokensOf piece := by
  cases piece <;> simp only [History.tokensOf, product, h.endsOperand, h.negated]

/-- The same tokens follow. -/
theorem tokens (h : Alike b b') (later : History) : ∃ ts,
    (later ++ b).tokens = b.tokens ++ ts ∧ (later ++ b').tokens = b'.tokens ++ ts := by
  induction later with
  | nil => exact ⟨[], by simp, by simp⟩
  | cons piece later ih =>
    obtain ⟨ts, hb, hb'⟩ := ih
    refine ⟨ts ++ History.tokensOf (later ++ b) piece, ?_, ?_⟩
    · rw [List.cons_append, History.tokens, hb, List.append_assoc]
    · rw [List.cons_append, History.tokens, hb', (h.append later).tokensOf, List.append_assoc]

/-- The same lexemes may follow. -/
theorem admits (h : Alike b b') (ha : Admits vars b lexeme) : Admits vars b' lexeme := by
  cases lexeme with
  | digit digit => trivial
  | letter name => exact ⟨ha.1, h.finite ha.2⟩
  | operator op => exact ⟨h.finite ha.1, by rw [h.endsOperand, h.run]; exact ha.2⟩
  | openParen => exact h.finite ha
  | closeParen =>
    obtain ⟨hf, hlt, hends⟩ := ha
    have := h.opened
    exact ⟨h.finite hf, by omega, h.endsOperand.trans hends⟩

/-- What follows one of two first parts of a line may follow the other one. -/
theorem accepts (h : Alike (ofLexemes ls) (ofLexemes ls')) {rest : List Lexeme}
    (hd : Detached (ofLexemes ls) rest) (hd' : Detached (ofLexemes ls') rest)
    (hl : Accepts vars ls') (ha : Accepts vars (ls ++ rest)) : Accepts vars (ls' ++ rest) := by
  refine accepts_append.2 ⟨hl, ?_⟩
  rintro before lexeme after rfl
  have hlexeme := (accepts_append.1 ha).2 before lexeme after rfl
  rw [foldl_add_eq hd.of_append] at hlexeme
  rw [foldl_add_eq hd'.of_append]
  exact (h.append _).admits hlexeme

/-- As many groups are open. -/
theorem openGroups (h : Alike b b') : b'.openGroups = b.openGroups := by
  have := h.opened
  simp only [History.openGroups]
  omega

end Alike

/-- After an operand comes an operator, and it is a product unless the line goes on with it. -/
theorem getLast?_of_tokens_append {op : Operator} {ts : List Token} (hb : b.endsOperand = true)
    (hop : op ≠ .mul) (h : (later ++ b).tokens = b.tokens ++ .operator op :: ts) :
    later.getLast? = some (.operator op) := by
  rcases List.eq_nil_or_concat later with rfl | ⟨later, piece, rfl⟩
  · simp at h
  · obtain ⟨us, hus, -⟩ := (Alike.refl (piece :: b)).tokens later
    rw [List.concat_eq_append, List.append_assoc, List.singleton_append, hus, tokens,
      List.append_assoc, List.append_cancel_left_eq] at h
    rw [List.concat_eq_append, List.getLast?_concat]
    cases piece with
    | operator op' =>
      rw [tokensOf, if_pos hb] at h
      cases h
      rfl
    | closeParen => cases h
    | _ =>
      simp only [tokensOf, product, if_pos hb] at h
      cases h
      exact absurd rfl hop

end History

/-! ## Lines -/

section Line

variable {vars : Variables} {line line' : String} {cs cs' rest : List Char} {e : Expression}

/-- A line that goes on alike after another first part is read as well, and the same tokens
follow. -/
theorem exists_tokenize_of_alike (hs : significant line = cs ++ rest)
    (hs' : significant line' = cs' ++ rest) (hall : ∀ c ∈ cs', (Lexeme.ofChar? c).isSome)
    (ha : History.Accepts vars (lexemes cs')) (h : History.Alike (.ofChars cs) (.ofChars cs'))
    (hd : History.Detached (.ofChars cs) (lexemes rest))
    (hd' : History.Detached (.ofChars cs') (lexemes rest)) (he : tokenize vars line = .ok e) :
    ∃ ts n, (History.ofChars rest ++ History.ofChars cs).tokens =
        (History.ofChars cs).tokens ++ ts ∧
      e.tokens = (History.ofChars cs).tokens ++ (ts ++ List.replicate n Token.closeParen) ∧
      tokenize vars line' =
        .ok ⟨(History.ofChars cs').tokens ++ (ts ++ List.replicate n Token.closeParen)⟩ := by
  obtain ⟨hall', ha', hf, hb, htokens⟩ := tokenize_eq_ok.1 he
  obtain ⟨ts, hts, hts'⟩ := h.tokens (.ofChars rest)
  have halike := h.append (.ofChars rest)
  have hpieces : History.ofChars (cs ++ rest) = .ofChars rest ++ .ofChars cs := by
    rw [History.ofChars, lexemes_append, History.ofLexemes_append]
    exact History.foldl_add_eq hd
  have hpieces' : History.ofChars (cs' ++ rest) = .ofChars rest ++ .ofChars cs' := by
    rw [History.ofChars, lexemes_append, History.ofLexemes_append]
    exact History.foldl_add_eq hd'
  rw [hs] at hall' ha'
  rw [hs, hpieces] at hf hb htokens
  rw [lexemes_append] at ha'
  refine ⟨ts, History.openGroups (.ofChars rest ++ .ofChars cs), hts, ?_, tokenize_eq_ok.2 ?_⟩
  · rw [htokens, hts, List.append_assoc]
  · rw [hs', hpieces', hts', lexemes_append, halike.openGroups, List.append_assoc]
    refine ⟨fun c hc => ?_, h.accepts hd hd' ha ha', halike.finite hf,
      halike.endsOperand.trans hb, rfl⟩
    exact (List.mem_append.1 hc).elim (hall c) fun hc => hall' c (List.mem_append_right cs hc)

end Line

end Calculator
