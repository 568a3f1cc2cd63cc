import Calculator.Proofs.Line.Lexeme

/-!
# The places of a line

The places that are read of a line divide it into its characters. Each of them spans the bytes of
one character, and only the characters that are skipped have no place.

* `Lexeme.Denotes`: what stands at a character: the lexeme of its class, or an error of its own.
* `Lexeme.mem_occurrencesFrom`: the places are those of the characters that are not skipped.
* `Lexeme.occurrencesFrom_append`: the places of two texts in a row.
* `Lexeme.Partitions`: places that divide a line.
* `Lexeme.occurrences_partition`: the places of a line divide it, and those of two lines in a row
  are the places of both.
-/

namespace Calculator.Lexeme

variable {c : Char} {cs cs' before : List Char} {content : Except Char Lexeme} {place : Occurrence}
  {start : Nat}

/-! ## Characters -/

/-- The characters that stand for one lexeme each, digits and letters apart. -/
def symbols : List (Char × Lexeme) :=
  [('+', .operator .add), ('-', .operator .sub), ('*', .operator .mul), ('/', .operator .div),
    ('^', .operator .pow), ('(', .openParen), (')', .closeParen)]

/-- What stands at a character that is not skipped. -/
inductive Denotes : Char → Except Char Lexeme → Prop
  | digit (value : Fin 10) : Denotes (Nat.digitChar value) (.ok (.digit value))
  /-- A letter is one of ASCII. -/
  | letter {c : Char} (h : c.isAlpha = true) : Denotes c (.ok (.letter c))
  | symbol {c : Char} {lexeme : Lexeme} (h : (c, lexeme) ∈ symbols) : Denotes c (.ok lexeme)
  /-- A character of no class is reported. -/
  | other {c : Char} (hd : c.isDigit = false) (ha : c.isAlpha = false)
    (hs : ∀ lexeme, (c, lexeme) ∉ symbols) : Denotes c (.error c)

/-- The lexeme that a character writes, or else the character. -/
def contentOf (c : Char) : Except Char Lexeme :=
  match ofChar? c with
  | some lexeme => .ok lexeme
  | none => .error c

theorem ofChar?_of_mem_symbols {lexeme : Lexeme} (h : (c, lexeme) ∈ symbols) :
    ofChar? c = some lexeme := by
  simp only [symbols, List.mem_cons, Prod.mk.injEq, List.not_mem_nil, or_false] at h
  rcases h with ⟨rfl, rfl⟩ | ⟨rfl, rfl⟩ | ⟨rfl, rfl⟩ | ⟨rfl, rfl⟩ | ⟨rfl, rfl⟩ | ⟨rfl, rfl⟩ |
    ⟨rfl, rfl⟩ <;> rfl

theorem denotes_of_ofChar? {lexeme : Lexeme} (h : ofChar? c = some lexeme) :
    Denotes c (.ok lexeme) := by
  obtain ⟨rfl, halpha⟩ := ofChar?_eq_some.1 h
  cases lexeme with
  | digit value => exact .digit value
  | letter name => exact .letter (halpha name rfl)
  | operator op => exact .symbol (by cases op <;> simp [char, symbols, Operator.symbol])
  | openParen => exact .symbol (by simp [char, symbols])
  | closeParen => exact .symbol (by simp [char, symbols])

/-- Each character denotes one thing only, and that is what is read. -/
theorem denotes_iff : Denotes c content ↔ content = contentOf c := by
  constructor
  · intro h
    cases h with
    | digit value => rw [contentOf, ofChar?_digitChar]
    | letter h => rw [contentOf, ofChar?_of_isAlpha h]
    | symbol h => rw [contentOf, ofChar?_of_mem_symbols h]
    | other hd ha hs =>
      -- A character that writes a lexeme is of some class.
      cases hl : ofChar? c with
      | none => rw [contentOf, hl]
      | some lexeme =>
        cases denotes_of_ofChar? hl with
        | digit value => rw [isDigit_digitChar] at hd; cases hd
        | letter h => rw [h] at ha; cases ha
        | symbol h => exact absurd h (hs lexeme)
  · rintro rfl
    rw [contentOf]
    cases hl : ofChar? c with
    | some lexeme => exact denotes_of_ofChar? hl
    | none =>
      refine .other ?_ ?_ fun lexeme hs => ?_
      · rw [← Bool.not_eq_true]
        intro h
        rw [ofChar?_of_isDigit h] at hl
        cases hl
      · rw [← Bool.not_eq_true]
        intro h
        rw [ofChar?_of_isAlpha h] at hl
        cases hl
      · rw [ofChar?_of_mem_symbols hs] at hl
        cases hl

/-! ## Places -/

theorem occurrencesFrom_cons_of_isSkipped (h : isSkipped c = true) :
    occurrencesFrom start (c :: cs) = occurrencesFrom (start + c.utf8Size) cs := by
  rw [occurrencesFrom, if_pos h]

theorem occurrencesFrom_cons (h : isSkipped c = false) :
    occurrencesFrom start (c :: cs) =
      ⟨contentOf c, start, start + c.utf8Size⟩ :: occurrencesFrom (start + c.utf8Size) cs := by
  rw [occurrencesFrom, if_neg (by simp [h])]
  rfl

theorem utf8ByteSize_ofList_cons (c : Char) (cs : List Char) :
    (String.ofList (c :: cs)).utf8ByteSize = c.utf8Size + (String.ofList cs).utf8ByteSize := by
  rw [← List.singleton_append, String.ofList_append, String.utf8ByteSize_append,
    ← String.singleton_eq_ofList, String.utf8ByteSize_singleton]

/-- The places of a text are those of its characters that are not skipped. -/
theorem mem_occurrencesFrom : place ∈ occurrencesFrom start cs ↔
    ∃ before c after, cs = before ++ c :: after ∧ isSkipped c = false ∧
      place = ⟨contentOf c, start + (String.ofList before).utf8ByteSize,
        start + (String.ofList before).utf8ByteSize + c.utf8Size⟩ := by
  induction cs generalizing start with
  | nil => simp [occurrencesFrom]
  | cons d cs ih =>
    have hlater : place ∈ occurrencesFrom (start + d.utf8Size) cs ↔
        ∃ before c after, cs = before ++ c :: after ∧ isSkipped c = false ∧
          place = ⟨contentOf c, start + (String.ofList (d :: before)).utf8ByteSize,
            start + (String.ofList (d :: before)).utf8ByteSize + c.utf8Size⟩ := by
      simp only [ih, utf8ByteSize_ofList_cons, Nat.add_assoc]
    constructor
    · intro h
      cases hd : isSkipped d with
      | true =>
        rw [occurrencesFrom_cons_of_isSkipped hd, hlater] at h
        obtain ⟨before, c, after, rfl, hc, hp⟩ := h
        exact ⟨d :: before, c, after, rfl, hc, hp⟩
      | false =>
        rw [occurrencesFrom_cons hd, List.mem_cons, hlater] at h
        rcases h with rfl | ⟨before, c, after, rfl, hc, hp⟩
        · exact ⟨[], d, cs, rfl, hd, rfl⟩
        · exact ⟨d :: before, c, after, rfl, hc, hp⟩
    · rintro ⟨before, c, after, he, hc, hp⟩
      rcases List.cons_eq_append_iff.1 he with ⟨rfl, he'⟩ | ⟨before, rfl, rfl⟩
      · cases he'
        rw [occurrencesFrom_cons hc, hp]
        exact List.mem_cons_self
      · have hmem := hlater.2 ⟨before, c, after, rfl, hc, hp⟩
        cases hd : isSkipped d with
        | true => rwa [occurrencesFrom_cons_of_isSkipped hd]
        | false =>
          rw [occurrencesFrom_cons hd]
          exact List.mem_cons_of_mem _ hmem

theorem le_start_of_mem (h : place ∈ occurrencesFrom start cs) : start ≤ place.start := by
  obtain ⟨before, c, after, -, -, rfl⟩ := mem_occurrencesFrom.1 h
  exact Nat.le_add_right _ _

/-- The spans follow one another. -/
theorem pairwise_occurrencesFrom (start : Nat) (cs : List Char) :
    (occurrencesFrom start cs).Pairwise fun left right => left.stop ≤ right.start := by
  induction cs generalizing start with
  | nil => exact .nil
  | cons c cs ih =>
    cases hc : isSkipped c with
    | true =>
      rw [occurrencesFrom_cons_of_isSkipped hc]
      exact ih _
    | false =>
      rw [occurrencesFrom_cons hc]
      exact .cons (fun place hp => le_start_of_mem hp) (ih _)

/-- The places of two texts in a row. -/
theorem occurrencesFrom_append (start : Nat) (cs cs' : List Char) :
    occurrencesFrom start (cs ++ cs') = occurrencesFrom start cs ++
      occurrencesFrom (start + (String.ofList cs).utf8ByteSize) cs' := by
  induction cs generalizing start with
  | nil => simp [occurrencesFrom]
  | cons c cs ih =>
    rw [List.cons_append, utf8ByteSize_ofList_cons, ← Nat.add_assoc]
    cases hc : isSkipped c with
    | true => rw [occurrencesFrom_cons_of_isSkipped hc, occurrencesFrom_cons_of_isSkipped hc, ih]
    | false => rw [occurrencesFrom_cons hc, occurrencesFrom_cons hc, ih, List.cons_append]

/-- A place further to the right. -/
def Occurrence.shift (offset : Nat) (place : Occurrence) : Occurrence :=
  ⟨place.content, offset + place.start, offset + place.stop⟩

theorem occurrencesFrom_add (offset start : Nat) (cs : List Char) :
    occurrencesFrom (offset + start) cs =
      (occurrencesFrom start cs).map (Occurrence.shift offset) := by
  induction cs generalizing start with
  | nil => rfl
  | cons c cs ih =>
    cases hc : isSkipped c with
    | true =>
      rw [occurrencesFrom_cons_of_isSkipped hc, occurrencesFrom_cons_of_isSkipped hc,
        Nat.add_assoc, ih]
    | false =>
      rw [occurrencesFrom_cons hc, occurrencesFrom_cons hc, List.map_cons, Nat.add_assoc, ih]
      rfl

/-! ## Lines -/

/-- Some places divide a line into its characters. -/
structure Partitions (line : String) (places : List Occurrence) : Prop where
  /-- The spans follow one another without an overlap. -/
  ordered : places.Pairwise fun left right => left.stop ≤ right.start
  /-- Each span covers the bytes of one character and holds what that character denotes. -/
  single : ∀ place ∈ places, ∃ before c after, line = before ++ String.singleton c ++ after ∧
    place.start = before.utf8ByteSize ∧
    place.stop = (before ++ String.singleton c).utf8ByteSize ∧ Denotes c place.content
  /-- A character lies in no span exactly if it is a space, a tab, a carriage return, a line feed or
  a form feed. -/
  covered : ∀ before c after, line = before ++ String.singleton c ++ after →
    ((∃ place ∈ places, place.start ≤ before.utf8ByteSize ∧ before.utf8ByteSize < place.stop) ↔
      c ∉ [' ', '\t', '\r', '\n', '\x0c'])

theorem isSkipped_eq_false_iff : isSkipped c = false ↔ c ∉ [' ', '\t', '\r', '\n', '\x0c'] := by
  simp [isSkipped, and_assoc]

/-- A span that holds the first byte of a character is the span of that character. -/
theorem eq_of_utf8ByteSize {before' after after' : List Char} {c' : Char}
    (h : before ++ c :: after = before' ++ c' :: after')
    (hle : (String.ofList before').utf8ByteSize ≤ (String.ofList before).utf8ByteSize)
    (hlt : (String.ofList before).utf8ByteSize < (String.ofList before').utf8ByteSize + c'.utf8Size) :
    c' = c := by
  have hc := c.utf8Size_pos
  rcases List.append_eq_append_iff.1 h with ⟨between, rfl, he⟩ | ⟨between, rfl, he⟩
  · cases between with
    | nil => cases he; rfl
    | cons d between =>
      cases he
      rw [String.ofList_append, String.utf8ByteSize_append, utf8ByteSize_ofList_cons] at hle
      omega
  · cases between with
    | nil => cases he; rfl
    | cons d between =>
      cases he
      rw [String.ofList_append, String.utf8ByteSize_append, utf8ByteSize_ofList_cons] at hlt
      omega

theorem toList_append_singleton (before after : String) (c : Char) :
    (before ++ String.singleton c ++ after).toList = before.toList ++ c :: after.toList := by
  rw [String.toList_append, String.toList_append, String.toList_singleton, List.append_assoc,
    List.singleton_append]

theorem partitions_occurrences (line : String) : Partitions line (occurrences line) := by
  refine ⟨pairwise_occurrencesFrom 0 line.toList, fun place hp => ?_, fun before c after he => ?_⟩
  · obtain ⟨before, c, after, he, -, rfl⟩ := mem_occurrencesFrom.1 hp
    refine ⟨String.ofList before, c, String.ofList after, ?_, Nat.zero_add _, ?_, denotes_iff.2 rfl⟩
    · rw [← String.toList_inj, toList_append_singleton, String.toList_ofList, String.toList_ofList,
        he]
    · rw [String.utf8ByteSize_append, String.utf8ByteSize_singleton, Nat.zero_add]
  · have hcs : line.toList = before.toList ++ c :: after.toList := by
      rw [he, toList_append_singleton]
    have hsize : (String.ofList before.toList).utf8ByteSize = before.utf8ByteSize := by
      rw [String.ofList_toList]
    have hpos := c.utf8Size_pos
    rw [← isSkipped_eq_false_iff]
    constructor
    · rintro ⟨place, hp, hle, hlt⟩
      obtain ⟨before', c', after', he', hc', rfl⟩ := mem_occurrencesFrom.1 hp
      rw [Nat.zero_add, ← hsize] at hle hlt
      rwa [eq_of_utf8ByteSize (hcs.symm.trans he') hle hlt] at hc'
    · intro hc
      refine ⟨_, mem_occurrencesFrom.2 ⟨before.toList, c, after.toList, hcs, hc, rfl⟩, ?_⟩
      simp only [hsize]
      omega

/-- The places of a line divide it into its characters, and the places of two lines in a row are
those of the first and those of the second, further to the right by the bytes of the first. -/
theorem occurrences_partition :
    (∀ line, Partitions line (occurrences line)) ∧
    ∀ line line', occurrences (line ++ line') =
      occurrences line ++ (occurrences line').map (Occurrence.shift line.utf8ByteSize) := by
  refine ⟨partitions_occurrences, fun line line' => ?_⟩
  rw [occurrences, occurrences, occurrences, String.toList_append, occurrencesFrom_append,
    String.ofList_toList, Nat.zero_add, ← occurrencesFrom_add, Nat.add_zero]

end Calculator.Lexeme
