import Calculator.Proofs.Line.Letters
import Calculator.Proofs.Session.Run

/-!
# What an answer depends on

Two sessions that agree on the letters of an expression give it the same answer, a value or an
error. A letter that has a value keeps one, so what is read from a text stays the same.

* `evaluate_congr`: the value of tokens depends on the variables among them.
* `Session.answer_congr`: the answer to a line depends on the letters of its expression part.
* `Session.tokenize_run`: a run changes nothing in how a text is read.
* `Session.answer_eq_of_letters`: all of this.
-/

namespace Calculator

section Tokens

variable {vars vars' : Variables} {tokens : List Token}

theorem Term.ofToken_congr {t : Token}
    (h : ∀ name, t = .var name → vars.get? name = vars'.get? name) :
    ofToken vars t = ofToken vars' t := by
  cases t with
  | var name => rw [ofToken, ofToken, h name rfl]
  | _ => rfl

theorem Term.ofTokens_congr
    (h : ∀ name, Token.var name ∈ tokens → vars.get? name = vars'.get? name) :
    ofTokens vars tokens = ofTokens vars' tokens := by
  induction tokens with
  | nil => rfl
  | cons t tokens ih =>
    have hhead : ofToken vars t = ofToken vars' t :=
      ofToken_congr fun name he => h name (he ▸ List.mem_cons_self)
    have htail := ih fun name hn => h name (List.mem_cons_of_mem _ hn)
    rw [ofTokens, ofTokens] at htail ⊢
    rw [List.mapM_cons, List.mapM_cons, hhead, htail]

/-- Tables that give the same values to the variables of some tokens give the same value to the
tokens. -/
theorem evaluate_congr (limit : Nat)
    (h : ∀ name, Token.var name ∈ tokens → vars.get? name = vars'.get? name) :
    evaluate limit vars tokens = evaluate limit vars' tokens := by
  rw [evaluate, evaluate, Term.ofTokens_congr h]

end Tokens

namespace Session

variable {s s' : Session} {line text : String}

/-- The tokens of a text and their value are the same in sessions that agree on its letters. -/
theorem agree_of_letters (hd : s.maxDepth = s'.maxDepth)
    (h : ∀ c ∈ text.toList, c.isAlpha = true → s.vars.get? c = s'.vars.get? c) :
    tokenize s.vars text = tokenize s'.vars text ∧
      ∀ e, tokenize s'.vars text = .ok e →
        Calculator.evaluate s.maxDepth s.vars e.tokens =
          Calculator.evaluate s'.maxDepth s'.vars e.tokens := by
  refine ⟨tokenize_congr fun c hc ha => ?_, fun e he => ?_⟩
  · rw [Variables.contains_eq_isSome, Variables.contains_eq_isSome, h c hc ha]
  · rw [hd]
    refine evaluate_congr _ fun name hm => ?_
    obtain ⟨hc, ha⟩ := mem_of_tokenize he hm
    exact h name hc ha

theorem evaluate_congr (hd : s.maxDepth = s'.maxDepth)
    (h : ∀ c ∈ line.toList, c.isAlpha = true → s.vars.get? c = s'.vars.get? c) :
    s.evaluate line = s'.evaluate line := by
  obtain ⟨htokens, hvalue⟩ := agree_of_letters hd h
  rw [evaluate, evaluate, htokens]
  split
  · rfl
  · rename_i e he
    rw [hvalue e he]

theorem assign_congr (hd : s.maxDepth = s'.maxDepth)
    (h : ∀ c ∈ (expressionPart line).toList, c.isAlpha = true → s.vars.get? c = s'.vars.get? c) :
    (s.assign line).1 = (s'.assign line).1 := by
  obtain ⟨htokens, hvalue⟩ := agree_of_letters hd h
  rw [assign, assign, Assignment.ofLine_congr htokens]
  cases ha : Assignment.ofLine s'.vars line with
  | error e => rfl
  | ok a =>
    simp only [hvalue a.expression (Assignment.tokenize_of_ofLine ha)]
    split <;> rfl

/-- The answer to a line depends on the letters of its expression part. -/
theorem answer_congr (hd : s.maxDepth = s'.maxDepth)
    (h : ∀ c ∈ (expressionPart line).toList, c.isAlpha = true → s.vars.get? c = s'.vars.get? c) :
    (s.answer line).1 = (s'.answer line).1 := by
  rw [answer, answer]
  split
  · rfl
  · split
    · exact congrArg (Except.map some) (assign_congr hd h)
    · rename_i he
      rw [expressionPart_of_not_mem (by simpa using he)] at h
      exact congrArg (Except.map (some ∘ Outcome.value)) (evaluate_congr hd h)

/-- A variable that has a value keeps one. -/
theorem contains_run {c : Char} (h : s.vars.contains c = true) (calls : List Call) :
    (s.run calls).2.vars.contains c = true := by
  rw [Variables.contains_eq_isSome] at h ⊢
  rw [get?_run, Option.isSome_or, h, Bool.or_true]

/-- A text that is an expression stays the same expression. -/
theorem tokenize_run {e : Expression} (h : tokenize s.vars text = .ok e) (calls : List Call) :
    tokenize (s.run calls).2.vars text = .ok e := by
  rw [← h]
  refine tokenize_congr fun c hc ha => ?_
  have hs := contains_of_tokenize h hc ha
  rw [hs, contains_run hs calls]

/-- A line is read in the same way with all tables that define the same letters of its expression
part. The answer to it is the same in all sessions that give these letters the same values. A text
that is an expression is the same expression in the rest of a run. -/
theorem answer_eq_of_letters :
    (∀ (line : String) (vars vars' : Variables),
      (∀ c ∈ (expressionPart line).toList, c.isAlpha = true →
        vars.contains c = vars'.contains c) →
      tokenize vars (expressionPart line) = tokenize vars' (expressionPart line)) ∧
    (∀ (line : String) (s s' : Session), s.maxDepth = s'.maxDepth →
      (∀ c ∈ (expressionPart line).toList, c.isAlpha = true →
        s.vars.get? c = s'.vars.get? c) →
      (s.answer line).1 = (s'.answer line).1) ∧
    ∀ (s : Session) (text : String) (e : Expression), tokenize s.vars text = .ok e →
      ∀ calls, tokenize (s.run calls).2.vars text = .ok e :=
  ⟨fun _ _ _ => tokenize_congr, fun _ _ _ => answer_congr, fun _ _ _ => tokenize_run⟩

/-- The name that a line assigns is no part of its expression, so it does not matter whether this
name has a value. -/
theorem answer_eq_of_letters_assignment :
    let line := "y = 2x"
    let vars := Variables.set ∅ 'x' 3
    let vars' := Variables.set (Variables.set ∅ 'x' 5) 'y' 1
    let s : Session := { vars }
    let s' : Session := { vars := vars.set 'y' 1 }
    let e : Expression := ⟨[.number 2, .operator .mul, .var 'x']⟩
    let calls : List Call := [.answer "x = 1/x", .assign "z = y", .answer line]
    ((∀ c ∈ (expressionPart line).toList, c.isAlpha = true →
        vars.contains c = vars'.contains c) ∧
      tokenize vars (expressionPart line) = tokenize vars' (expressionPart line)) ∧
    (s.maxDepth = s'.maxDepth ∧
      (∀ c ∈ (expressionPart line).toList, c.isAlpha = true →
        s.vars.get? c = s'.vars.get? c) ∧
      (s.answer line).1 = (s'.answer line).1) ∧
    tokenize s.vars "2x" = .ok e ∧ tokenize (s.run calls).2.vars "2x" = .ok e := by
  intro line vars vars' s s' e calls
  obtain ⟨htokens, hanswer, hrun⟩ := answer_eq_of_letters
  have hpart : (expressionPart line).toList = [' ', '2', 'x'] := by decide +kernel
  have hcontains : ∀ c ∈ (expressionPart line).toList, c.isAlpha = true →
      vars.contains c = vars'.contains c := by
    rw [hpart]
    simp only [List.forall_mem_cons]
    exact ⟨by decide, by decide, fun _ => by decide +kernel, by simp⟩
  have hget : ∀ c ∈ (expressionPart line).toList, c.isAlpha = true →
      s.vars.get? c = s'.vars.get? c := by
    rw [hpart]
    simp only [List.forall_mem_cons]
    exact ⟨by decide, by decide, fun _ => by decide +kernel, by simp⟩
  have he : tokenize s.vars "2x" = .ok e := by decide +kernel
  exact ⟨⟨hcontains, htokens line vars vars' hcontains⟩,
    ⟨rfl, hget, hanswer line s s' rfl hget⟩, he, hrun s "2x" e he calls⟩

end Session

end Calculator
