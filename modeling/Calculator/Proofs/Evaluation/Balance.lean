import Calculator.Proofs.Evaluation.Limit

/-!
# Parentheses without a partner

Groups are evaluated while the parentheses are still being matched, so a parenthesis without a
partner is reported only if the groups before it have values. Where all parentheses have partners,
none is reported, and the same holds inside of every group.

* `balanced_iff`: the parentheses of tokens and of their terms.
* `valueAt`: the value of the tokens of a group.
* `IsGroup`, `Nested`: the outermost groups of tokens, and the groups at any depth.
* `UpToUnmatched`: the tokens before the first parenthesis without a partner.
* `FirstFailure`: the error of the first group that has no value.
* `not_balanced_iff`: there is such a parenthesis unless the tokens are balanced.
* `evaluate_balance`: when a parenthesis without a partner is reported, and what is reported else.
-/

namespace Calculator

variable {vars : Variables} {value : List Term → Except EvalError Float} {limit levels depth n : Nat}
  {terms before rest : List Term} {tokens inner : List Token}

/-! ## Terms -/

theorem exists_of_openAfter_append {m : Nat} (h : openAfter n (before ++ rest) = some m) :
    ∃ k, openAfter n before = some k := by
  cases hb : openAfter n before with
  | some k => exact ⟨k, rfl⟩
  | none =>
    obtain ⟨us, vs, rfl, hu⟩ := exists_of_openAfter_eq_none hb
    rw [List.append_assoc, openAfter_append hu] at h
    cases h

/-- The groups of a part whose parentheses have partners come first. -/
theorem replaceGroups_append (hb : openAfter 0 before = some 0) (rest : List Term) :
    replaceGroups value (before ++ rest) = replaceGroups value before >>= fun us =>
      replaceGroups value rest >>= fun vs => .ok (us ++ vs) := by
  induction before using outermostInduction with
  | nil =>
    change _ = replaceGroups value rest >>= pure
    rw [bind_pure, List.nil_append]
  | plain term before ht ih =>
    have hb' : openAfter 0 before = some 0 := (openAfter_append ht before).symm.trans hb
    rw [List.cons_append, replaceGroups_plain ht, replaceGroups_plain ht, ih hb']
    simp only [bind_assoc, Except.ok_bind, List.cons_append]
  | group inner before hi ih =>
    have hb' : openAfter 0 before = some 0 := (openAfter_group hi before).symm.trans hb
    rw [List.cons_append, List.append_assoc, List.cons_append, replaceGroups_group hi,
      replaceGroups_group hi, ih hb']
    simp only [bind_assoc, Except.ok_bind, List.cons_append]
  | unclosed rest n hn =>
    rw [openAfter, openAfter_succ hn] at hb
    cases hb
  | unopened rest => cases hb

/-- Where the groups have been replaced, all of them have values. -/
theorem exists_value_of_replaceGroups {inner us : List Term}
    (h : replaceGroups value terms = .ok us) (hi : IsOutermost inner terms) :
    ∃ x, value inner = .ok x := by
  obtain ⟨before, after, rfl, hb, hi⟩ := hi
  rw [List.append_assoc, List.cons_append, replaceGroups_append hb, replaceGroups_group hi] at h
  obtain ⟨us, -, h⟩ := Except.bind_eq_ok.1 h
  obtain ⟨vs, h, -⟩ := Except.bind_eq_ok.1 h
  obtain ⟨x, hx, -⟩ := Except.bind_eq_ok.1 h
  exact ⟨x, hx⟩

/-- Terms whose parentheses all have partners never miss one, at whatever depth they stand. -/
theorem valueOfTerms_ne_unmatchedParen (h : openAfter 0 terms = some 0) :
    valueOfTerms limit levels terms ≠ .error .unmatchedParen := by
  induction levels generalizing terms with
  | zero =>
    intro he
    cases he
  | succ levels ih =>
    intro he
    rw [valueOfTerms] at he
    obtain he | ⟨flat, -, he⟩ := Except.bind_eq_error.1 he
    · rcases exists_first_of_replaceGroups he with ⟨_, inner, _, _, -, -, hi, -, hv⟩ | ⟨-, hne⟩
      · exact ih hi hv
      · exact hne h
    · obtain he | ⟨left, -, he⟩ := Except.bind_eq_error.1 he
      · obtain ⟨op, he | ⟨x, y, he⟩⟩ := applyLevels_eq_error he
        · cases he
        · exact Operator.not_isInternal_of_apply he trivial
      · cases theNumber_eq_error he

/-- Terms that are not balanced have a first parenthesis without a partner. -/
theorem exists_unmatched (h : openAfter 0 terms ≠ some 0) :
    ∃ before rest, terms = before ++ rest ∧ openAfter 0 before = some 0 ∧
      ((∃ after, rest = .closeParen :: after) ∨
        ∃ after n, rest = .openParen :: after ∧ openAfter 0 after = some n) := by
  induction terms using outermostInduction with
  | nil => exact absurd rfl h
  | plain term terms ht ih =>
    have hne : openAfter 0 terms ≠ some 0 := fun he => h ((openAfter_append ht terms).trans he)
    obtain ⟨before, rest, rfl, hb, hrest⟩ := ih hne
    exact ⟨term :: before, rest, rfl, (openAfter_append ht before).trans hb, hrest⟩
  | group inner terms hi ih =>
    obtain ⟨before, rest, rfl, hb, hrest⟩ := ih (openAfter_group hi terms ▸ h)
    exact ⟨.openParen :: (inner ++ .closeParen :: before), rest, by simp,
      (openAfter_group hi before).trans hb, hrest⟩
  | unclosed rest n hn => exact ⟨[], _, rfl, rfl, .inr ⟨rest, n, rfl, hn⟩⟩
  | unopened rest => exact ⟨[], _, rfl, rfl, .inl ⟨rest, rfl⟩⟩

/-! ## Tokens and their terms -/

/-- No parenthesis is closed before it is opened, of the tokens as of the terms. -/
theorem closed_le_opened_iff (ht : Term.ofTokens vars tokens = .ok terms) :
    (∀ before, before <+: tokens → before.count .closeParen ≤ before.count .openParen) ↔
      ∃ n, openAfter 0 terms = some n := by
  constructor
  · intro hle
    cases ho : openAfter 0 terms with
    | some n => exact ⟨n, rfl⟩
    | none =>
      obtain ⟨us, rest, rfl, hu⟩ := exists_of_openAfter_eq_none ho
      obtain ⟨before, after, rfl, hb, ha⟩ := Term.ofTokens_eq_append ht
      obtain ⟨token, after, rfl, htoken, -⟩ := Term.ofTokens_eq_cons ha
      obtain rfl := Term.ofToken_eq_closeParen.1 htoken
      obtain ⟨hopen, hclose⟩ := Term.count_ofTokens hb
      have hcount := count_of_openAfter hu
      have := hle (before ++ [.closeParen]) ⟨after, by simp⟩
      simp only [List.count_append, List.count_singleton, beq_self_eq_true, if_true] at this
      simp only [beq_iff_eq, reduceCtorEq, if_false] at this
      omega
  · rintro ⟨n, ho⟩ before ⟨after, rfl⟩
    obtain ⟨us, vs, hu, -, rfl⟩ := Term.ofTokens_append_eq_ok.1 ht
    obtain ⟨k, hk⟩ := exists_of_openAfter_append ho
    obtain ⟨hopen, hclose⟩ := Term.count_ofTokens hu
    have hcount := count_of_openAfter hk
    omega

/-- Tokens are balanced exactly if no group of their terms is open in the end. -/
theorem balanced_iff (ht : Term.ofTokens vars tokens = .ok terms) :
    Balanced tokens ↔ openAfter 0 terms = some 0 := by
  have hle := closed_le_opened_iff ht
  obtain ⟨hopen, hclose⟩ := Term.count_ofTokens ht
  constructor
  · intro hb
    obtain ⟨n, hn⟩ := hle.1 hb.le
    have hcount := count_of_openAfter hn
    have heq := hb.eq
    obtain rfl : n = 0 := by omega
    exact hn
  · intro ho
    have hcount := count_of_openAfter ho
    exact ⟨hle.2 ⟨0, ho⟩, by omega⟩

/-- The tokens of a group have the terms of a group. -/
theorem Term.exists_group_of_ofTokens {before after : List Token}
    (h : Term.ofTokens vars (before ++ .openParen :: inner ++ .closeParen :: after) = .ok terms) :
    ∃ us vs ws, terms = us ++ .openParen :: vs ++ .closeParen :: ws ∧
      Term.ofTokens vars before = .ok us ∧ Term.ofTokens vars inner = .ok vs := by
  obtain ⟨_, _, hbefore, hclose, rfl⟩ := Term.ofTokens_append_eq_ok.1 h
  obtain ⟨us, _, hu, hopen, rfl⟩ := Term.ofTokens_append_eq_ok.1 hbefore
  obtain ⟨_, vs, ht, hv, rfl⟩ := Term.ofTokens_cons_eq_ok.1 hopen
  obtain ⟨_, ws, ht', -, rfl⟩ := Term.ofTokens_cons_eq_ok.1 hclose
  cases ht
  cases ht'
  exact ⟨us, vs, ws, rfl, hu, hv⟩

/-- The terms of a group come from the tokens of a group. -/
theorem Term.ofTokens_eq_group {us vs ws : List Term}
    (h : Term.ofTokens vars tokens = .ok (us ++ .openParen :: vs ++ .closeParen :: ws)) :
    ∃ before inner after, tokens = before ++ .openParen :: inner ++ .closeParen :: after ∧
      Term.ofTokens vars before = .ok us ∧ Term.ofTokens vars inner = .ok vs := by
  obtain ⟨_, _, rfl, hbefore, hclose⟩ := Term.ofTokens_eq_append h
  obtain ⟨before, _, rfl, hu, hopen⟩ := Term.ofTokens_eq_append hbefore
  obtain ⟨_, inner, rfl, ht, hv⟩ := Term.ofTokens_eq_cons hopen
  obtain ⟨_, after, rfl, ht', -⟩ := Term.ofTokens_eq_cons hclose
  obtain rfl := Term.ofToken_eq_openParen.1 ht
  obtain rfl := Term.ofToken_eq_closeParen.1 ht'
  exact ⟨before, inner, after, rfl, hu, hv⟩

/-! ## Groups of tokens -/

/-- The value of the tokens of a group that stands `depth` levels deep. -/
def valueAt (limit depth : Nat) (vars : Variables) (tokens : List Token) :
    Except EvalError Float := do
  let terms ← Term.ofTokens vars tokens
  valueOfTerms limit (limit + 1 - depth) terms

theorem valueAt_zero : valueAt limit 0 vars tokens = evaluate limit vars tokens := rfl

theorem valueAt_eq (ht : Term.ofTokens vars tokens = .ok terms) :
    valueAt limit depth vars tokens = valueOfTerms limit (limit + 1 - depth) terms := by
  rw [valueAt, ht]
  rfl

/-- The tokens `inner` are those of an outermost group of `tokens`. -/
def IsGroup (inner tokens : List Token) : Prop :=
  ∃ before after, tokens = before ++ .openParen :: inner ++ .closeParen :: after ∧
    Balanced before ∧ Balanced inner

/-- The tokens of a group `depth` levels deep in `tokens`. Evaluation comes to no others, for on each
level only the outermost groups are asked for their values (`replaceGroups_congr`). -/
inductive Nested (tokens : List Token) : (depth : Nat) → (inner : List Token) → Prop where
  | self : Nested tokens 0 tokens
  | group {depth : Nat} {inner outer : List Token} (houter : Nested tokens depth outer)
      (hinner : IsGroup inner outer) : Nested tokens (depth + 1) inner

/-- The first of the tokens is a parenthesis that has no partner among them. -/
inductive BeginsUnmatched : List Token → Prop where
  | closing (after : List Token) : BeginsUnmatched (.closeParen :: after)
  | opening {after : List Token}
      (hle : ∀ inner, inner <+: after → inner.count .closeParen ≤ inner.count .openParen) :
      BeginsUnmatched (.openParen :: after)

/-- The tokens `before` are those before the first parenthesis of `tokens` without a partner. -/
def UpToUnmatched (before tokens : List Token) : Prop :=
  ∃ rest, tokens = before ++ rest ∧ Balanced before ∧ BeginsUnmatched rest

/-- The first outermost group that has no value fails with the error. -/
def FirstFailure (value : List Token → Except EvalError Float) (tokens : List Token)
    (e : EvalError) : Prop :=
  ∃ before inner after, tokens = before ++ .openParen :: inner ++ .closeParen :: after ∧
    Balanced before ∧ Balanced inner ∧
    (∀ group, IsGroup group before → ∃ x, value group = .ok x) ∧ value inner = .error e

theorem Nested.balanced (hb : Balanced tokens) (h : Nested tokens depth inner) :
    Balanced inner := by
  cases h with
  | self => exact hb
  | group houter hinner =>
    obtain ⟨-, -, -, -, hi⟩ := hinner
    exact hi

theorem IsGroup.exists_isOutermost (hg : IsGroup inner tokens)
    (ht : Term.ofTokens vars tokens = .ok terms) :
    ∃ vs, Term.ofTokens vars inner = .ok vs ∧ IsOutermost vs terms := by
  obtain ⟨before, after, rfl, hb, hi⟩ := hg
  obtain ⟨us, vs, ws, rfl, hu, hv⟩ := Term.exists_group_of_ofTokens ht
  exact ⟨vs, hv, us, ws, rfl, (balanced_iff hu).1 hb, (balanced_iff hv).1 hi⟩

/-- Where the groups of tokens have been replaced, all of them have values. -/
theorem IsGroup.exists_value {us : List Term} (hg : IsGroup inner tokens)
    (ht : Term.ofTokens vars tokens = .ok terms)
    (h : replaceGroups (valueOfTerms limit limit) terms = .ok us) :
    ∃ x, valueAt limit 1 vars inner = .ok x := by
  obtain ⟨vs, hv, ho⟩ := hg.exists_isOutermost ht
  obtain ⟨x, hx⟩ := exists_value_of_replaceGroups h ho
  exact ⟨x, (valueAt_eq hv).trans hx⟩

/-- What keeps the groups of balanced tokens from being replaced is the first that has no value. -/
theorem firstFailure_of_replaceGroups {e : EvalError} (hb : Balanced tokens)
    (ht : Term.ofTokens vars tokens = .ok terms)
    (h : replaceGroups (valueOfTerms limit limit) terms = .error e) :
    FirstFailure (valueAt limit 1 vars) tokens e := by
  rcases exists_first_of_replaceGroups h with ⟨us, vs, ws, us', rfl, hu, hv, hus, he⟩ | ⟨-, hne⟩
  · obtain ⟨before, inner, after, rfl, hbefore, hinner⟩ := Term.ofTokens_eq_group ht
    exact ⟨before, inner, after, rfl, (balanced_iff hbefore).2 hu, (balanced_iff hinner).2 hv,
      fun group hg => hg.exists_value hbefore hus, (valueAt_eq hinner).trans he⟩
  · exact absurd ((balanced_iff ht).1 hb) hne

theorem BeginsUnmatched.replaceGroups (h : BeginsUnmatched tokens)
    (ht : Term.ofTokens vars tokens = .ok terms) :
    Calculator.replaceGroups value terms = .error .unmatchedParen := by
  cases h with
  | closing after =>
    obtain ⟨_, rest, hp, -, rfl⟩ := Term.ofTokens_cons_eq_ok.1 ht
    cases hp
    exact replaceGroups_unopened
  | opening hle =>
    obtain ⟨_, rest, hp, hr, rfl⟩ := Term.ofTokens_cons_eq_ok.1 ht
    cases hp
    obtain ⟨n, hn⟩ := (closed_le_opened_iff hr).1 hle
    exact replaceGroups_unclosed hn

/-! ## Faults of balance -/

/-- Tokens are not balanced exactly if a first parenthesis has no partner. -/
theorem not_balanced_iff (ht : Term.ofTokens vars tokens = .ok terms) :
    ¬ Balanced tokens ↔ ∃ before, UpToUnmatched before tokens := by
  constructor
  · intro hb
    obtain ⟨us, vs, rfl, hu, hrest⟩ := exists_unmatched fun ho => hb ((balanced_iff ht).2 ho)
    obtain ⟨before, tail, rfl, hbefore, htail⟩ := Term.ofTokens_eq_append ht
    refine ⟨before, tail, rfl, (balanced_iff hbefore).2 hu, ?_⟩
    rcases hrest with ⟨ws, rfl⟩ | ⟨ws, n, rfl, hn⟩
    · obtain ⟨_, after, rfl, hp, -⟩ := Term.ofTokens_eq_cons htail
      obtain rfl := Term.ofToken_eq_closeParen.1 hp
      exact .closing after
    · obtain ⟨_, after, rfl, hp, hafter⟩ := Term.ofTokens_eq_cons htail
      obtain rfl := Term.ofToken_eq_openParen.1 hp
      exact .opening ((closed_le_opened_iff hafter).2 ⟨n, hn⟩)
  · rintro ⟨before, rest, rfl, hb, hrest⟩ hall
    -- Whatever values the groups have, replacing them fails at the parenthesis.
    obtain ⟨us, vs, hu, hv, rfl⟩ := Term.ofTokens_append_eq_ok.1 ht
    have hnone : replaceGroups (fun _ => .ok 0) vs = .error .unmatchedParen := hrest.replaceGroups hv
    rw [balanced_iff ht, openAfter_append ((balanced_iff hu).1 hb)] at hall
    rcases exists_first_of_replaceGroups hnone with ⟨_, _, _, _, -, -, -, -, h⟩ | ⟨-, hne⟩
    · cases h
    · exact hne hall

/-- Balanced tokens never miss a parenthesis, at whatever depth they stand. -/
theorem valueAt_ne_unmatchedParen (hb : Balanced tokens) :
    valueAt limit depth vars tokens ≠ .error .unmatchedParen := by
  cases ht : Term.ofTokens vars tokens with
  | error e =>
    obtain ⟨name, -, -, rfl⟩ := Term.ofTokens_eq_error ht
    intro h
    rw [valueAt, ht] at h
    cases h
  | ok terms =>
    rw [valueAt_eq ht]
    exact valueOfTerms_ne_unmatchedParen ((balanced_iff ht).1 hb)

/-- A parenthesis without a partner is reported unless a group before it has no value. -/
theorem evaluate_upToUnmatched {before : List Token}
    (ht : Term.ofTokens vars tokens = .ok terms) (h : UpToUnmatched before tokens) :
    (∃ e, FirstFailure (valueAt limit 1 vars) before e ∧ evaluate limit vars tokens = .error e) ∨
      (∀ inner, IsGroup inner before → ∃ x, valueAt limit 1 vars inner = .ok x) ∧
        evaluate limit vars tokens = .error .unmatchedParen := by
  obtain ⟨rest, rfl, hb, hrest⟩ := h
  obtain ⟨us, vs, hu, hv, rfl⟩ := Term.ofTokens_append_eq_ok.1 ht
  rw [← valueAt_zero, valueAt_eq ht, Nat.sub_zero, valueOfTerms,
    replaceGroups_append ((balanced_iff hu).1 hb), hrest.replaceGroups hv]
  cases hvalues : replaceGroups (valueOfTerms limit limit) us with
  | error e => exact .inl ⟨e, firstFailure_of_replaceGroups hb hu hvalues, rfl⟩
  | ok us' => exact .inr ⟨fun inner hg => hg.exists_value hu hvalues, rfl⟩

/-- Balanced tokens never miss a parenthesis, inside of their groups neither. Tokens that are not
balanced have a first parenthesis without a partner; they have no value, and the error is that of
the first group before this parenthesis that has no value, or else that a parenthesis is missing. -/
theorem evaluate_balance (hvars : ∀ name, Token.var name ∈ tokens → vars.contains name = true)
    (limit : Nat) :
    (Balanced tokens → evaluate limit vars tokens ≠ .error .unmatchedParen ∧
      ∀ depth inner, Nested tokens depth inner →
        valueAt limit depth vars inner ≠ .error .unmatchedParen) ∧
    (¬ Balanced tokens ↔ ∃ before, UpToUnmatched before tokens) ∧
    ∀ before, UpToUnmatched before tokens →
      (∃ e, FirstFailure (valueAt limit 1 vars) before e ∧
        evaluate limit vars tokens = .error e) ∨
      (∀ inner, IsGroup inner before → ∃ x, valueAt limit 1 vars inner = .ok x) ∧
        evaluate limit vars tokens = .error .unmatchedParen := by
  obtain ⟨terms, ht⟩ := Term.ofTokens_eq_ok_iff.2 hvars
  refine ⟨fun hb => ⟨?_, fun depth inner h => ?_⟩, not_balanced_iff ht, fun before h => ?_⟩
  · rw [← valueAt_zero]
    exact valueAt_ne_unmatchedParen hb
  · exact valueAt_ne_unmatchedParen (h.balanced hb)
  · exact evaluate_upToUnmatched ht h

/-- In `(a)(+a))` it is the second group that fails, and the parenthesis after it is not met. -/
theorem evaluate_balance_operator :
    let vars := (∅ : Variables).set 'a' 2
    let before : List Token :=
      [.openParen, .var 'a', .closeParen, .openParen, .operator .add, .var 'a', .closeParen]
    UpToUnmatched before (before ++ [.closeParen]) ∧
      FirstFailure (valueAt 64 1 vars) before (.missingOperand .add) ∧
      evaluate 64 vars (before ++ [.closeParen]) = .error (.missingOperand .add) := by
  intro vars before
  have hvars : ∀ name, Token.var name ∈ before ++ [.closeParen] → vars.contains name = true := by
    simp [before, vars, Variables.contains_eq_isSome, Variables.get?_set]
  have hterms : Term.ofTokens vars before = .ok [.openParen, .number 2, .closeParen,
      .openParen, .operator .add, .number 2, .closeParen] := rfl
  have hbalanced : Balanced before := (balanced_iff hterms).2 rfl
  have hup : UpToUnmatched before (before ++ [.closeParen]) :=
    ⟨[.closeParen], rfl, hbalanced, .closing []⟩
  have hvalue : evaluate 64 vars (before ++ [.closeParen]) = .error (.missingOperand .add) := rfl
  refine ⟨hup, ?_, hvalue⟩
  obtain ⟨-, -, hreport⟩ := evaluate_balance hvars 64
  rcases hreport before hup with ⟨e, hfirst, he⟩ | ⟨-, he⟩
  · rw [hvalue] at he
    cases he
    exact hfirst
  · rw [hvalue] at he
    cases he

end Calculator
