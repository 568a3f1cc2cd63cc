import Calculator.Line.Blank
import Calculator.Line.Lexeme

/-!
# Lexemes and their characters

* `Lexeme.char`, `Lexeme.ofChar?_eq_some`: each lexeme is written by one character.
* `Lexeme.isWhiteSpace_eq_false`: a line that holds a lexeme is not blank.
* `significant`, `lexemes`: what is left of a line without the characters that are skipped.
-/

namespace Calculator

namespace Lexeme

variable {c : Char} {lexeme : Lexeme}

/-- The character that writes a lexeme. -/
def char : Lexeme → Char
  | digit value => Nat.digitChar value
  | letter name => name
  | operator op => op.symbol
  | openParen => '('
  | closeParen => ')'

theorem toNat_of_isDigit (h : c.isDigit = true) : 48 ≤ c.toNat ∧ c.toNat ≤ 57 :=
  (Bool.and_eq_true_iff.1 h).imp of_decide_eq_true of_decide_eq_true

theorem toNat_of_isAlpha (h : c.isAlpha = true) :
    (65 ≤ c.toNat ∧ c.toNat ≤ 90) ∨ (97 ≤ c.toNat ∧ c.toNat ≤ 122) := by
  rcases Bool.or_eq_true_iff.1 h with h | h
  · exact .inl (of_decide_eq_true h)
  · exact .inr ((Bool.and_eq_true_iff.1 h).imp of_decide_eq_true of_decide_eq_true)

theorem isDigit_eq_false_of_isAlpha (h : c.isAlpha = true) : c.isDigit = false := by
  rw [← Bool.not_eq_true]
  intro hd
  have hdigit := toNat_of_isDigit hd
  have halpha := toNat_of_isAlpha h
  omega

theorem ofChar?_of_isDigit (h : c.isDigit = true) : ofChar? c = some (.digit (digitValue c)) :=
  if_pos h

theorem ofChar?_of_isAlpha (h : c.isAlpha = true) : ofChar? c = some (.letter c) := by
  rw [ofChar?, isDigit_eq_false_of_isAlpha h, if_neg Bool.false_ne_true, if_pos h]

theorem ofChar?_digitChar (value : Fin 10) :
    ofChar? (Nat.digitChar value) = some (.digit value) := by
  revert value
  decide

theorem isDigit_digitChar (value : Fin 10) : (Nat.digitChar value).isDigit = true := by
  revert value
  decide

theorem digitChar_digitValue (h : c.isDigit = true) : Nat.digitChar (digitValue c) = c := by
  have hc := toNat_of_isDigit h
  obtain ⟨value, hvalue⟩ : ∃ value : Fin 10, c.toNat = 48 + value :=
    ⟨⟨c.toNat - 48, by omega⟩, by simp only; omega⟩
  have hchar : c = Char.ofNat (48 + value) := by rw [← hvalue, Char.ofNat_toNat]
  subst hchar
  clear h hc hvalue
  revert value
  decide

/-- A character stands for the one lexeme that it writes. A letter has to be one of ASCII. -/
theorem ofChar?_eq_some : ofChar? c = some lexeme ↔
    lexeme.char = c ∧ ∀ name, lexeme = .letter name → name.isAlpha = true := by
  constructor
  · intro h
    unfold ofChar? at h
    split at h
    · rename_i hc
      cases h
      exact ⟨digitChar_digitValue hc, by simp⟩
    split at h
    · rename_i hc
      cases h
      exact ⟨rfl, fun name he => by cases he; exact hc⟩
    split at h
    · rename_i hc
      cases h
      exact ⟨hc.symm, by simp⟩
    split at h
    · rename_i hc
      cases h
      exact ⟨hc.symm, by simp⟩
    · obtain ⟨op, hop, rfl⟩ := Option.map_eq_some_iff.1 h
      exact ⟨Operator.symbol_of_ofSymbol? hop, by simp⟩
  · rintro ⟨rfl, hl⟩
    cases lexeme with
    | digit value => exact ofChar?_digitChar value
    | letter name => exact ofChar?_of_isAlpha (hl name rfl)
    | operator op => cases op <;> rfl
    | openParen => rfl
    | closeParen => rfl

theorem char_of_ofChar? (h : ofChar? c = some lexeme) : lexeme.char = c := (ofChar?_eq_some.1 h).1

/-- A lexeme is no white space. -/
theorem isWhiteSpace_eq_false (h : ofChar? c = some lexeme) : isWhiteSpace c = false := by
  have hc : 33 ≤ c.toNat ∧ c.toNat < 127 := by
    obtain ⟨rfl, hl⟩ := ofChar?_eq_some.1 h
    cases lexeme with
    | digit value =>
      have := toNat_of_isDigit (isDigit_digitChar value)
      simp only [char]
      omega
    | letter name =>
      have := toNat_of_isAlpha (hl name rfl)
      simp only [char]
      omega
    | operator op => cases op <;> decide
    | openParen => decide
    | closeParen => decide
  rw [← Bool.not_eq_true]
  intro hw
  simp only [isWhiteSpace, whiteSpace, List.any_cons, List.any_nil, Bool.or_eq_true,
    Bool.and_eq_true, decide_eq_true_eq, Bool.or_false] at hw
  omega

/-- A lexeme is not skipped. -/
theorem isSkipped_eq_false (h : ofChar? c = some lexeme) : isSkipped c = false := by
  rw [← Bool.not_eq_true]
  intro hc
  simp only [isSkipped, Bool.or_eq_true, decide_eq_true_eq] at hc
  rcases hc with (((rfl | rfl) | rfl) | rfl) | rfl <;> cases h

end Lexeme

/-- The characters of a line that are not skipped. -/
def significant (line : String) : List Char := line.toList.filter fun c => !Lexeme.isSkipped c

/-- The lexemes of some characters. -/
def lexemes (cs : List Char) : List Lexeme := cs.filterMap Lexeme.ofChar?

section Lines

variable {cs cs' : List Char} {c : Char} {lexeme : Lexeme}

theorem significant_append (line line' : String) :
    significant (line ++ line') = significant line ++ significant line' := by
  rw [significant, String.toList_append, List.filter_append]
  rfl

theorem lexemes_append (cs cs' : List Char) : lexemes (cs ++ cs') = lexemes cs ++ lexemes cs' :=
  List.filterMap_append

theorem lexemes_cons (h : Lexeme.ofChar? c = some lexeme) :
    lexemes (c :: cs) = lexeme :: lexemes cs := by
  rw [lexemes, List.filterMap_cons, h]
  rfl

theorem map_char_lexemes (h : ∀ c ∈ cs, (Lexeme.ofChar? c).isSome) :
    (lexemes cs).map Lexeme.char = cs := by
  induction cs with
  | nil => rfl
  | cons c cs ih =>
    obtain ⟨hc, hcs⟩ := List.forall_mem_cons.1 h
    obtain ⟨lexeme, hl⟩ := Option.isSome_iff_exists.1 hc
    rw [lexemes_cons hl, List.map_cons, Lexeme.char_of_ofChar? hl, ih hcs]

theorem lexemes_map_char {ls : List Lexeme} (h : ∀ name, .letter name ∈ ls → name.isAlpha = true) :
    lexemes (ls.map Lexeme.char) = ls := by
  induction ls with
  | nil => rfl
  | cons lexeme ls ih =>
    have hl : Lexeme.ofChar? lexeme.char = some lexeme :=
      Lexeme.ofChar?_eq_some.2 ⟨rfl, fun name he => h name (he ▸ List.mem_cons_self)⟩
    rw [List.map_cons, lexemes_cons hl, ih fun name hn => h name (List.mem_cons_of_mem _ hn)]

theorem isAlpha_of_mem_lexemes {name : Char} (h : .letter name ∈ lexemes cs) :
    name.isAlpha = true := by
  obtain ⟨c, -, hc⟩ := List.mem_filterMap.1 h
  exact (Lexeme.ofChar?_eq_some.1 hc).2 name rfl

/-- A line that holds a lexeme is not blank. -/
theorem isBlank_eq_false {line : String} (hc : c ∈ significant line)
    (h : Lexeme.ofChar? c = some lexeme) : isBlank line = false := by
  rw [← Bool.not_eq_true, isBlank, List.all_eq_true]
  intro hall
  have := hall c (List.mem_filter.1 hc).1
  rw [Lexeme.isWhiteSpace_eq_false h] at this
  cases this

end Lines

end Calculator
