import Calculator.Proofs.Line.Acceptance
import Calculator.Proofs.Line.Finality

/-!
# Closing groups at the end of a line

The groups that are open at the end of a line are closed there. A line may as well close any number
of them itself: it is read as the same expression. Closing more groups than are open is an error.

* `tokenize_close_open`: one more group is closed.
* `tokenize_close_none`: one group is closed, and none is open.
* `tokenize_closers`: any number of groups.
-/

namespace Calculator

/-- A text that closes `n` groups. -/
def closers (n : Nat) : String := String.ofList (List.replicate n ')')

variable {vars : Variables} {line : String} {e : Expression}

theorem closers_succ (n : Nat) : closers (n + 1) = closers n ++ ")" := by
  rw [closers, List.replicate_succ', String.ofList_append]
  rfl

theorem closers_add (m n : Nat) : closers (m + n) = closers m ++ closers n := by
  rw [closers, List.replicate_add, String.ofList_append]
  rfl

theorem count_openParen_append_closers (n : Nat) :
    (line ++ closers n).toList.count '(' = line.toList.count '(' := by
  rw [String.toList_append, closers, String.toList_ofList, List.count_append, List.count_replicate]
  rfl

theorem count_closeParen_append_closers (n : Nat) :
    (line ++ closers n).toList.count ')' = line.toList.count ')' + n := by
  rw [String.toList_append, closers, String.toList_ofList, List.count_append,
    List.count_replicate_self]

/-! ## The parentheses of a history -/

/-- A lexeme is not skipped, so its character is as often on the line as among the significant
ones. -/
theorem count_significant {c : Char} (hc : Lexeme.isSkipped c = false) (line : String) :
    (significant line).count c = line.toList.count c := by
  rw [significant, List.count_filter (by simp [hc])]

theorem count_openParen_significant (line : String) :
    (History.ofChars (significant line)).count .openParen = line.toList.count '(' := by
  rw [History.count_openParen_ofChars, count_significant rfl]

theorem count_closeParen_significant (line : String) :
    (History.ofChars (significant line)).count .closeParen = line.toList.count ')' := by
  rw [History.count_closeParen_ofChars, count_significant rfl]

theorem count_closeParen_le (h : tokenize vars line = .ok e) :
    line.toList.count ')' ≤ line.toList.count '(' := by
  have hle := (exists_tokenize_iff_readable.1 ⟨e, h⟩).balanced (List.append_nil _).symm
  rwa [count_significant rfl, count_significant rfl] at hle

theorem significant_append_close (line : String) :
    significant (line ++ ")") = significant line ++ [')'] := by
  rw [significant_append]
  rfl

theorem ofChars_append_close (line : String) :
    History.ofChars (significant (line ++ ")")) =
      .closeParen :: History.ofChars (significant line) := by
  have hl : Lexeme.ofChar? ')' = some .closeParen := rfl
  rw [significant_append_close, History.ofChars_concat hl]
  rfl

/-! ## One more group -/

/-- A group that the line closes is not closed at its end. -/
theorem tokenize_close_open (h : tokenize vars line = .ok e)
    (hlt : line.toList.count ')' < line.toList.count '(') :
    tokenize vars (line ++ ")") = .ok e := by
  obtain ⟨hchars, ha, hf, hb, he⟩ := tokenize_eq_ok.1 h
  rw [← count_openParen_significant, ← count_closeParen_significant] at hlt
  refine tokenize_eq_ok.2 ?_
  rw [ofChars_append_close]
  refine ⟨fun c hc => ?_, ?_, trivial, rfl, ?_⟩
  · rw [significant_append_close, List.mem_append, List.mem_singleton] at hc
    rcases hc with hc | rfl
    · exact hchars c hc
    · rfl
  · rw [significant_append_close, lexemes_append]
    exact History.accepts_concat.2 ⟨ha, hf, hlt, hb⟩
  · rw [he, History.openGroups_closeParen hlt, List.replicate_succ, History.tokens,
      List.append_assoc]
    rfl

/-- A parenthesis closes nothing if no group is open. -/
theorem Scan.Reads.readCloseParen_eq_error {hist : History} {s : Scan} (hr : Reads hist s)
    (hg : hist.Regular) (hf : hist.Finite)
    (hle : hist.count .openParen ≤ hist.count .closeParen) :
    s.readCloseParen = .error .unmatchedClose := by
  obtain ⟨s', hs', hset, -⟩ := hr.endNumber hg hf
  have hopened := hset.opened
  rw [Scan.readCloseParen, hs', Except.ok_bind, if_pos (by omega)]

theorem tokenize_close_none (h : tokenize vars line = .ok e)
    (heq : line.toList.count ')' = line.toList.count '(') :
    tokenize vars (line ++ ")") = .error .unmatchedClose := by
  have hf := (tokenize_eq_ok.1 h).2.2.1
  rw [tokenize] at h
  split at h
  · cases h
  · rename_i hblank
    obtain ⟨s, hs, -⟩ := Except.bind_eq_ok.1 h
    obtain ⟨-, ha, hr⟩ := reads_of_foldlM hs
    have hle : (History.ofChars (significant line)).count .openParen ≤
        (History.ofChars (significant line)).count .closeParen := by
      rw [count_openParen_significant, count_closeParen_significant, heq]
    have hclose := hr.readCloseParen_eq_error (History.regular_of_accepts ha) hf hle
    rw [tokenize_append (by simpa using hblank), hs, Except.ok_bind,
      show ")".toList = [')'] from rfl, Lexeme.occurrencesFrom_cons rfl, List.foldlM_cons]
    change (s.readCloseParen >>= _) >>= _ = _
    rw [hclose]
    rfl

/-! ## Any number of groups -/

theorem tokenize_closers_of_le (h : tokenize vars line = .ok e) {n : Nat}
    (hn : line.toList.count ')' + n ≤ line.toList.count '(') :
    tokenize vars (line ++ closers n) = .ok e := by
  induction n with
  | zero => rwa [closers, List.replicate_zero, String.ofList_nil, String.append_empty]
  | succ n ih =>
    rw [closers_succ, ← String.append_assoc]
    refine tokenize_close_open (ih (by omega)) ?_
    rw [count_openParen_append_closers, count_closeParen_append_closers]
    omega

/-- A line that closes groups at its end is read as the line without these, and a line that closes
more groups than it opens is none. -/
theorem tokenize_closers (h : tokenize vars line = .ok e) :
    ∃ k, line.toList.count '(' = line.toList.count ')' + k ∧
      (∀ n, n ≤ k → tokenize vars (line ++ closers n) = .ok e) ∧
      ∀ n, k < n → tokenize vars (line ++ closers n) = .error .unmatchedClose := by
  obtain ⟨k, hk⟩ := Nat.exists_eq_add_of_le (count_closeParen_le h)
  have hle : ∀ n, n ≤ k → tokenize vars (line ++ closers n) = .ok e :=
    fun n hn => tokenize_closers_of_le h (by omega)
  refine ⟨k, hk, hle, fun n hn => ?_⟩
  obtain ⟨more, rfl⟩ := Nat.exists_eq_add_of_lt hn
  have hnone : tokenize vars (line ++ closers k ++ ")") = .error .unmatchedClose := by
    refine tokenize_close_none (hle k (Nat.le_refl k)) ?_
    rw [count_openParen_append_closers, count_closeParen_append_closers, hk]
  have hfinal : SyntaxError.unmatchedClose.IsFinal := trivial
  -- The first parenthesis too many decides, whatever follows it.
  rw [Nat.add_right_comm, closers_add, closers_succ, ← String.append_assoc, ← String.append_assoc]
  exact tokenize_append_of_isFinal hfinal hnone (closers more)

/-- Two groups are open in `(3-(6*-x`, and a sign has been carried to a variable. -/
theorem tokenize_closers_two :
    let vars := Variables.set ∅ 'x' 4
    let e : Expression := ⟨[.openParen, .number 3, .operator .sub, .openParen, .number 6,
      .operator .mul, .number (-1), .operator .mul, .var 'x', .closeParen, .closeParen]⟩
    tokenize vars "(3-(6*-x" = .ok e ∧
      ∃ k, "(3-(6*-x".toList.count '(' = "(3-(6*-x".toList.count ')' + k ∧
        (∀ n, n ≤ k → tokenize vars ("(3-(6*-x" ++ closers n) = .ok e) ∧
        ∀ n, k < n → tokenize vars ("(3-(6*-x" ++ closers n) = .error .unmatchedClose := by
  intro vars e
  have h : tokenize vars "(3-(6*-x" = .ok e := by decide +kernel
  exact ⟨h, tokenize_closers h⟩

end Calculator
