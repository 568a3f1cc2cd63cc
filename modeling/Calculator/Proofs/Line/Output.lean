import Calculator.Proofs.Line.Reading

/-!
# What a line is read as

The tokens of a line from its pieces, in three steps: the pieces without the signs, a product
between every two operands without an operator, and the signs of the operands.

* `Splits`, `splits_iff`: a text consists of pieces in one way only.
* `History.entries`: the pieces without the signs.
* `insertProducts`: the products that are understood.
* `History.Signed`, `Entry.tokens`: the sign of an operand, which is negated if a sign `-` stands
  between the operand before and itself.
* `exists_splits_of_tokenize`: the tokens of a line.
-/

namespace Calculator

/-! ## Pieces -/

namespace Piece

/-- The lexemes of a piece. -/
def lexemes : Piece → List Lexeme
  | literal digits => digits.map .digit
  | letter name => [.letter name]
  | operator op => [.operator op]
  | openParen => [.openParen]
  | closeParen => [.closeParen]

/-- Whether a piece is a number or a variable. -/
def isOperand : Piece → Bool
  | literal _ | letter _ => true
  | operator _ | openParen | closeParen => false

end Piece

/-- The pieces of a text. -/
structure Splits (pieces : List Piece) (cs : List Char) : Prop where
  spelled : (pieces.flatMap Piece.lexemes).map Lexeme.char = cs
  letters : ∀ name, .letter name ∈ pieces → name.isAlpha = true
  grouped : Grouped pieces

theorem Grouped.reverse {pieces : List Piece} (h : Grouped pieces) : Grouped pieces.reverse := by
  refine ⟨fun hm => h.ne_nil (List.mem_reverse.1 hm), List.isChain_reverse.2 ?_⟩
  exact h.maximal.imp fun _ _ hn => fun ⟨hr, hl⟩ => hn ⟨hl, hr⟩

namespace History

/-- A history has the pieces of its lexemes. -/
theorem flatMap_add (h : History) (lexeme : Lexeme) :
    (h.add lexeme).reverse.flatMap Piece.lexemes = h.reverse.flatMap Piece.lexemes ++ [lexeme] := by
  cases lexeme with
  | digit digit =>
    rcases add_digit_cases h digit with ⟨digits, before, rfl, he⟩ | ⟨-, he⟩
    · simp [he, Piece.lexemes]
    · simp [he, Piece.lexemes]
  | _ => simp [add, Piece.lexemes]

theorem flatMap_ofLexemes (lexemes : List Lexeme) :
    (ofLexemes lexemes).reverse.flatMap Piece.lexemes = lexemes := by
  induction lexemes using List.reverseRecOn with
  | nil => rfl
  | append_singleton lexemes lexeme ih => rw [ofLexemes_concat, flatMap_add, ih]

theorem ofLexemes_flatMap {h : History} (hg : Grouped h) :
    ofLexemes (h.reverse.flatMap Piece.lexemes) = h := by
  induction h with
  | nil => rfl
  | cons piece before ih =>
    obtain ⟨hn, hh, hg⟩ := grouped_cons.1 hg
    rw [List.reverse_cons, List.flatMap_append, List.flatMap_singleton, ofLexemes,
      List.foldl_append, ← ofLexemes, ih hg]
    cases piece with
    | literal digits =>
      refine foldl_add_digits (fun ds rest he => ?_) fun he => hn (congrArg _ he)
      exact Bool.noConfusion (hh ds rest he)
    | _ => rfl

end History

theorem letter_mem_flatMap_lexemes {name : Char} {pieces : List Piece} :
    .letter name ∈ pieces.flatMap Piece.lexemes ↔ .letter name ∈ pieces := by
  rw [List.mem_flatMap]
  constructor
  · rintro ⟨piece, hp, hm⟩
    cases piece with
    | literal digits => simp [Piece.lexemes] at hm
    | letter name' => cases List.mem_singleton.1 hm; exact hp
    | _ => cases List.mem_singleton.1 hm
  · exact fun hm => ⟨_, hm, List.mem_singleton_self _⟩

/-- A text of lexemes consists of pieces in exactly one way. -/
theorem splits_iff {pieces : List Piece} {cs : List Char} : Splits pieces cs ↔
    (∀ c ∈ cs, (Lexeme.ofChar? c).isSome) ∧ History.ofChars cs = pieces.reverse := by
  constructor
  · rintro ⟨rfl, hl, hg⟩
    have halpha : ∀ name, .letter name ∈ pieces.flatMap Piece.lexemes → name.isAlpha = true :=
      fun name hm => hl name (letter_mem_flatMap_lexemes.1 hm)
    refine ⟨?_, ?_⟩
    · intro c hc
      obtain ⟨lexeme, hm, rfl⟩ := List.mem_map.1 hc
      rw [Lexeme.ofChar?_eq_some.2 ⟨rfl, fun name he => halpha name (he ▸ hm)⟩]
      rfl
    · rw [History.ofChars, lexemes_map_char halpha]
      have := History.ofLexemes_flatMap hg.reverse
      rwa [List.reverse_reverse] at this
  · rintro ⟨hchars, he⟩
    have hpieces : pieces.flatMap Piece.lexemes = lexemes cs := by
      rw [← List.reverse_reverse pieces, ← he]
      exact History.flatMap_ofLexemes (lexemes cs)
    refine ⟨?_, ?_, ?_⟩
    · rw [hpieces, map_char_lexemes hchars]
    · intro name hm
      rw [← letter_mem_flatMap_lexemes, hpieces] at hm
      exact isAlpha_of_mem_lexemes hm
    · rw [← List.reverse_reverse pieces, ← he]
      exact (History.grouped_ofLexemes (lexemes cs)).reverse

theorem Splits.unique {pieces pieces' : List Piece} {cs : List Char} (h : Splits pieces cs)
    (h' : Splits pieces' cs) : pieces = pieces' :=
  List.reverse_injective ((splits_iff.1 h).2.symm.trans (splits_iff.1 h').2)

/-! ## Entries -/

/-- A token before its sign is written. -/
structure Entry where
  token : Token
  negated : Bool := false

namespace Entry

/-- The tokens of an entry. The sign of a variable is a multiplication by minus one. -/
def tokens : Entry → List Token
  | ⟨.number value, true⟩ => [.number (-value)]
  | ⟨.var name, true⟩ => [.number (-1), .operator .mul, .var name]
  | ⟨token, _⟩ => [token]

end Entry

namespace History

/-- A sign `-` stands between this place and the operand before it. -/
def Signed (h : History) : Prop :=
  ∃ between before : History, h = between ++ .operator .sub :: before ∧
    endsOperand before = false ∧ ∀ piece ∈ between, piece.isOperand = false

theorem signed_cons {piece : Piece} {h : History} : Signed (piece :: h) ↔
    (piece = .operator .sub ∧ endsOperand h = false) ∨ (piece.isOperand = false ∧ Signed h) := by
  constructor
  · rintro ⟨between, before, he, hb, hp⟩
    cases between with
    | nil => cases he; exact .inl ⟨rfl, hb⟩
    | cons piece' between =>
      cases he
      obtain ⟨hp', hp⟩ := List.forall_mem_cons.1 hp
      exact .inr ⟨hp', between, before, rfl, hb, hp⟩
  · rintro (⟨rfl, hb⟩ | ⟨hp', between, before, rfl, hb, hp⟩)
    · exact ⟨[], h, rfl, hb, fun _ hm => absurd hm List.not_mem_nil⟩
    · exact ⟨piece :: between, before, rfl, hb, List.forall_mem_cons.2 ⟨hp', hp⟩⟩

theorem negated_iff {h : History} : negated h = true ↔ Signed h := by
  induction h with
  | nil => simp [negated, Signed]
  | cons piece before ih =>
    rw [signed_cons, ← ih]
    cases piece with
    | operator op => cases op <;> simp [negated, Piece.isOperand]
    | _ => simp [negated, Piece.isOperand]

instance (h : History) : Decidable (Signed h) := decidable_of_iff _ negated_iff

theorem decide_signed (h : History) : decide (Signed h) = negated h := by
  rw [← Bool.coe_iff_coe, decide_eq_true_iff, negated_iff]

/-- The entry of a piece. An operator is one only directly after an operand. -/
def entryOf (before : History) : Piece → Option Entry
  | .literal digits =>
    some ⟨.number (Literal.toFloat (Literal.ofDigits digits)), Signed before⟩
  | .letter name => some ⟨.var name, Signed before⟩
  | .operator op => if endsOperand before then some ⟨.operator op, false⟩ else none
  | .openParen => some ⟨.openParen, false⟩
  | .closeParen => some ⟨.closeParen, false⟩

/-- The entries of all pieces, in their order. -/
def entries : History → List Entry
  | [] => []
  | piece :: before => entries before ++ (entryOf before piece).toList

end History

/-- The entries with a product between an operand and an operand that follows it. -/
def insertProducts : List Entry → List Entry
  | left :: right :: rest =>
    if left.token.endsOperand && right.token.startsOperand then
      left :: ⟨.operator .mul, false⟩ :: insertProducts (right :: rest)
    else
      left :: insertProducts (right :: rest)
  | entries => entries

theorem insertProducts_concat (entries : List Entry) (entry : Entry) :
    insertProducts (entries ++ [entry]) = insertProducts entries ++
      (if entries.getLast?.any (·.token.endsOperand) && entry.token.startsOperand then
        [⟨.operator .mul, false⟩] else []) ++ [entry] := by
  induction entries with
  | nil => rfl
  | cons left entries ih =>
    cases entries with
    | nil =>
      change (if left.token.endsOperand && entry.token.startsOperand then _ else _) =
        left :: (if left.token.endsOperand && entry.token.startsOperand then _ else _) ++ _
      split <;> rfl
    | cons right rest =>
      simp only [List.cons_append] at ih
      simp only [List.cons_append, insertProducts, ih, List.getLast?_cons_cons]
      split <;> simp

namespace History

/-- The last entry ends an operand exactly where the history does. -/
theorem any_endsOperand_getLast?_entries (h : History) :
    (entries h).getLast?.any (·.token.endsOperand) = endsOperand h := by
  induction h with
  | nil => rfl
  | cons piece before ih =>
    cases piece with
    | operator op =>
      rw [entries, entryOf]
      split
      · rw [List.getLast?_append]; rfl
      · rename_i hb
        rw [Option.toList_none, List.append_nil, ih, endsOperand]
        simpa using hb
    | _ =>
      rw [entries, entryOf, List.getLast?_append]
      rfl

/-- The tokens of a history are its entries, with the products and the signs. -/
theorem tokens_eq_flatMap_entries (h : History) :
    h.tokens = (insertProducts h.entries).flatMap Entry.tokens := by
  induction h with
  | nil => rfl
  | cons piece before ih =>
    have hconcat : ∀ entry, (insertProducts (entries before ++ [entry])).flatMap Entry.tokens =
        tokens before ++ (if entry.token.startsOperand then product before else []) ++
          entry.tokens := by
      intro entry
      rw [insertProducts_concat, any_endsOperand_getLast?_entries, List.flatMap_append,
        List.flatMap_append, List.flatMap_singleton, ← ih, product]
      cases endsOperand before <;> cases entry.token.startsOperand <;> rfl
    rw [tokens, entries]
    cases piece with
    | literal digits =>
      rw [entryOf, Option.toList_some, hconcat, decide_signed]
      cases hn : negated before <;> simp [tokensOf, hn, Token.startsOperand, Entry.tokens]
    | letter name =>
      rw [entryOf, Option.toList_some, hconcat, decide_signed]
      cases hn : negated before <;> simp [tokensOf, hn, Token.startsOperand, Entry.tokens]
    | operator op =>
      rw [entryOf, tokensOf]
      cases endsOperand before with
      | true => simp [hconcat, Token.startsOperand, Entry.tokens]
      | false => simp [ih]
    | openParen => simp [entryOf, hconcat, tokensOf, Token.startsOperand, Entry.tokens]
    | closeParen => simp [entryOf, hconcat, tokensOf, Token.startsOperand, Entry.tokens]

end History

/-! ## The line -/

/-- The tokens of a line, in the order of its pieces, and the parentheses that close the groups
which are open at its end. -/
theorem exists_splits_of_tokenize {vars : Variables} {line : String} {e : Expression}
    (h : tokenize vars line = .ok e) :
    ∃ pieces, Splits pieces (significant line) ∧
      e.tokens = (insertProducts (History.entries pieces.reverse)).flatMap Entry.tokens ++
        List.replicate (pieces.count .openParen - pieces.count .closeParen) .closeParen := by
  obtain ⟨hchars, -, -, -, he⟩ := tokenize_eq_ok.1 h
  refine ⟨(History.ofChars (significant line)).reverse, ?_, ?_⟩
  · rw [splits_iff, List.reverse_reverse]
    exact ⟨hchars, rfl⟩
  · rw [he, List.reverse_reverse, ← History.tokens_eq_flatMap_entries, List.count_reverse,
      List.count_reverse]
    rfl

/-- A sign in front of a group belongs to the variable inside. -/
theorem exists_splits_of_tokenize_group :
    let e : Expression := ⟨[.number 102, .operator .sub, .openParen, .number (-1), .operator .mul,
      .var 'x', .closeParen]⟩
    tokenize (Variables.set ∅ 'x' 3) "1 0 2--(-x" = .ok e ∧
      ∃ pieces, Splits pieces (significant "1 0 2--(-x") ∧
        e.tokens = (insertProducts (History.entries pieces.reverse)).flatMap Entry.tokens ++
          List.replicate (pieces.count .openParen - pieces.count .closeParen) .closeParen := by
  intro e
  have h : tokenize (Variables.set ∅ 'x' 3) "1 0 2--(-x" = .ok e := by decide +kernel
  exact ⟨h, exists_splits_of_tokenize h⟩

end Calculator
