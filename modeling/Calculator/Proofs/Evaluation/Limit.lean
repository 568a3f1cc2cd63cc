import Calculator.Proofs.Evaluation.Outermost
import Calculator.Proofs.Evaluation.Value
import Calculator.Proofs.Expression.Legal

/-!
# The nesting limit

The limit of evaluation decides whether groups are too deep, and nothing else. Groups are evaluated
while the terms are still being read, so which error is met first depends on where it stands; but a
result that is not for the limit is met under every larger limit as well.

* `nesting`: how deeply the parentheses of any tokens nest.
* `Refines`: the second of two results is the first, unless the limit decided the first.
* `valueOfTerms_refines`: so it is if the second has more levels.
* `evaluate_tree`: what is not too deep has the value of its tree.
* `valueOfTerms_eq_tooDeep`: where the limit decides, the limit is reported, and the groups nest as
  deeply.
* `evaluate_limit`: the limit and the nesting of tokens.
-/

namespace Calculator

/-! ## Nesting -/

/-- The largest number of parentheses that are open at a place of the tokens. -/
def nesting (tokens : List Token) : Nat :=
  (tokens.inits.map fun before => before.count .openParen - before.count .closeParen).foldr max 0

section Nesting

variable {ts us tokens : List Token} {n : Nat}

theorem nesting_le_iff : nesting tokens ≤ n ↔
    ∀ before, before <+: tokens → before.count .openParen ≤ before.count .closeParen + n := by
  have foldr_le : ∀ l : List Nat, l.foldr max 0 ≤ n ↔ ∀ k ∈ l, k ≤ n := by
    intro l
    induction l with
    | nil => simp
    | cons k l ih => rw [List.foldr_cons, Nat.max_le, ih, List.forall_mem_cons]
  simp [nesting, foldr_le, Nat.add_comm n]

theorem nesting_singleton {t : Token} (h : t ≠ .openParen) : nesting [t] ≤ n := by
  refine nesting_le_iff.2 fun before hb => ?_
  rcases List.prefix_cons_iff.1 hb with rfl | ⟨rest, rfl, hr⟩
  · exact Nat.zero_le _
  · rw [List.prefix_nil.1 hr, List.count_singleton]
    simp [h]

/-- After balanced tokens nothing is open. -/
theorem nesting_append (hb : Balanced ts) (ht : nesting ts ≤ n) (hu : nesting us ≤ n) :
    nesting (ts ++ us) ≤ n := by
  rw [nesting_le_iff] at *
  intro before hp
  rcases List.prefix_or_prefix_of_prefix hp (List.prefix_append ts us) with hp' | ⟨before, rfl⟩
  · exact ht before hp'
  · have := hu before ((List.prefix_append_right_inj ts).1 hp)
    have := hb.eq
    rw [List.count_append, List.count_append]
    omega

theorem nesting_group (ht : nesting ts ≤ n) :
    nesting (.openParen :: ts ++ [.closeParen]) ≤ n + 1 := by
  rw [nesting_le_iff] at *
  have hopen : ∀ before, before <+: ts → (Token.openParen :: before).count .openParen ≤
      (Token.openParen :: before).count .closeParen + (n + 1) := by
    intro before hp
    have := ht before hp
    rw [List.count_cons_self, List.count_cons_of_ne (by simp)]
    omega
  intro before hp
  rcases List.prefix_concat_iff.1 hp with rfl | hp
  · have := hopen ts (List.prefix_refl ts)
    have hclose : [Token.closeParen].count Token.openParen = 0 := rfl
    rw [List.count_append, List.count_append, hclose]
    omega
  · rcases List.prefix_cons_iff.1 hp with rfl | ⟨inside, rfl, hi⟩
    · exact Nat.zero_le _
    · exact hopen inside hi

theorem Tree.balanced_tokens (t : Tree) : Balanced t.tokens := by
  induction t with
  | number x => exact .singleton Token.noConfusion Token.noConfusion
  | var name => exact .singleton Token.noConfusion Token.noConfusion
  | group inner ih => exact ih.group
  | binary l op r ihl ihr =>
    have hop : Balanced [Token.operator op] := .singleton Token.noConfusion Token.noConfusion
    exact ihl.append (hop.append ihr)

/-- The groups of a tree are the parentheses of its tokens. -/
theorem Tree.nesting_tokens_le (t : Tree) : nesting t.tokens ≤ t.depth := by
  induction t with
  | number x => exact nesting_singleton Token.noConfusion
  | var name => exact nesting_singleton Token.noConfusion
  | group inner ih => exact nesting_group ih
  | binary l op r ihl ihr =>
    have hop : Balanced [Token.operator op] := .singleton Token.noConfusion Token.noConfusion
    have hright : nesting ([.operator op] ++ r.tokens) ≤ max l.depth r.depth :=
      nesting_append hop (nesting_singleton Token.noConfusion) (ihr.trans (Nat.le_max_right _ _))
    exact nesting_append l.balanced_tokens (ihl.trans (Nat.le_max_left _ _)) hright

/-- The terms of tokens have their parentheses. -/
theorem Term.count_ofTokens {vars : Variables} {terms : List Term}
    (h : Term.ofTokens vars tokens = .ok terms) :
    terms.count .openParen = tokens.count .openParen ∧
      terms.count .closeParen = tokens.count .closeParen := by
  induction tokens generalizing terms with
  | nil => cases h; exact ⟨rfl, rfl⟩
  | cons token tokens ih =>
    obtain ⟨term, rest, ht, hr, rfl⟩ := Term.ofTokens_cons_eq_ok.1 h
    obtain ⟨ho, hc⟩ := ih hr
    have hopen := @Term.ofToken_eq_openParen vars token
    have hclose := @Term.ofToken_eq_closeParen vars token
    rw [ht, Except.ok.injEq] at hopen hclose
    simp [List.count_cons, ho, hc, hopen, hclose]

end Nesting

/-! ## Results under a limit -/

/-- The second result is the first, unless it was the limit that decided the first. -/
def Refines {α : Type} (r r' : Except EvalError α) : Prop :=
  (∀ l, r ≠ .error (.tooDeep l)) → r' = r

namespace Refines

variable {α β : Type}

theorem refl (r : Except EvalError α) : Refines r r := fun _ => rfl

theorem bind {r r' : Except EvalError α} {f f' : α → Except EvalError β} (h : Refines r r')
    (hf : ∀ a, Refines (f a) (f' a)) : Refines (r >>= f) (r' >>= f') := by
  intro hne
  cases r with
  | error e =>
    have hr : r' = .error e := h fun l hl => hne l (by rw [hl]; rfl)
    rw [hr]
    rfl
  | ok a =>
    have hr : r' = .ok a := h fun l hl => by cases hl
    rw [hr]
    exact hf a hne

end Refines

section Limit

variable {vars : Variables} {value value' : List Term → Except EvalError Float}
  {limit limit' levels levels' l : Nat} {terms : List Term}

theorem replaceGroups_refines (h : ∀ inner, Refines (value inner) (value' inner))
    (terms : List Term) : Refines (replaceGroups value terms) (replaceGroups value' terms) := by
  induction terms using outermostInduction with
  | nil => exact .refl _
  | plain term rest ht ih =>
    rw [replaceGroups_plain ht, replaceGroups_plain ht]
    exact ih.bind fun us => .refl _
  | group inner rest hi ih =>
    rw [replaceGroups_group hi, replaceGroups_group hi]
    exact (h inner).bind fun x => ih.bind fun us => .refl _
  | unclosed rest n hn =>
    rw [replaceGroups_unclosed hn, replaceGroups_unclosed hn]
    exact .refl _
  | unopened rest =>
    rw [replaceGroups_unopened, replaceGroups_unopened]
    exact .refl _

/-- With more levels, and whatever limit there is to report, the result is the same unless it was
the limit that decided it. -/
theorem valueOfTerms_refines (h : levels ≤ levels') (terms : List Term) :
    Refines (valueOfTerms limit levels terms) (valueOfTerms limit' levels' terms) := by
  induction levels generalizing levels' terms with
  | zero => exact fun hne => absurd rfl (hne limit)
  | succ levels ih =>
    cases levels' with
    | zero => exact absurd h (Nat.not_succ_le_zero levels)
    | succ levels' =>
      have hgroups := replaceGroups_refines (ih (Nat.le_of_succ_le_succ h)) terms
      exact hgroups.bind fun flat => .refl _

/-- The tokens of an ordered tree get the value of the tree, unless the limit decides. -/
theorem evaluate_tree {t : Tree} {v : Float} (ho : t.Ordered) (hv : t.eval vars = .ok v)
    (hvars : ∀ name, Token.var name ∈ t.tokens → vars.contains name = true)
    (hne : ∀ l, evaluate limit vars t.tokens ≠ .error (.tooDeep l)) :
    evaluate limit vars t.tokens = .ok v := by
  obtain ⟨terms, hterms⟩ := Term.ofTokens_eq_ok_iff.2 hvars
  have heval : evaluate limit vars t.tokens = valueOfTerms limit (limit + 1) terms := by
    rw [evaluate, hterms]
    rfl
  rw [heval] at hne ⊢
  have hle : limit + 1 ≤ limit + 1 + t.depth := Nat.le_add_right _ _
  have hresult : t.Result vars _ (valueOfTerms limit (limit + 1 + t.depth) terms) :=
    valueOfTerms_tree _ ho hterms
  rw [valueOfTerms_refines hle terms hne] at hresult
  cases h : valueOfTerms limit (limit + 1) terms with
  | ok x =>
    rw [h] at hresult
    rw [← hv, hresult.1]
  | error e =>
    rw [h] at hresult
    rcases hresult.2 with hdeep | ⟨e', he'⟩
    · omega
    · rw [hv] at he'
      cases he'

/-! ## Where the limit decides -/

theorem Operator.apply_ne_tooDeep (op : Operator) (x y : Float) :
    op.apply x y ≠ .error (.tooDeep l) := by
  intro h
  rcases apply_eq_error h with h | h | h <;> cases h

/-- The passes fail on an operator, for want of an operand or of a result. -/
theorem applyLevels_eq_error {e : EvalError} (h : applyLevels terms = .error e) :
    ∃ op : Operator, e = .missingOperand op ∨ ∃ x y, op.apply x y = .error e := by
  rw [applyLevels] at h
  generalize Precedence.all = all at h
  induction all generalizing terms with
  | nil => cases h
  | cons level levels ih =>
    rw [List.foldlM_cons] at h
    obtain h | ⟨us, -, h⟩ := Except.bind_eq_error.1 h
    · obtain ⟨op, -, -, he⟩ := applyLevelFrom_eq_error h
      exact ⟨op, he⟩
    · exact ih h

theorem applyLevels_ne_tooDeep : applyLevels terms ≠ .error (.tooDeep l) := by
  intro h
  obtain ⟨op, he | ⟨x, y, he⟩⟩ := applyLevels_eq_error h
  · cases he
  · exact op.apply_ne_tooDeep x y he

theorem theNumber_eq_error {e : EvalError} (h : theNumber terms = .error e) :
    e = .leftover terms.length := by
  unfold theNumber at h
  split at h <;> cases h
  rfl

/-- Where the limit decides, it is the limit that is reported, from whatever depth, and so many
groups are open at a place. -/
theorem valueOfTerms_eq_tooDeep (h : valueOfTerms limit levels terms = .error (.tooDeep l)) :
    l = limit ∧ ∃ before, before <+: terms ∧
      before.count .closeParen + levels ≤ before.count .openParen := by
  induction levels generalizing terms with
  | zero =>
    cases h
    exact ⟨rfl, [], List.nil_prefix, Nat.le_refl 0⟩
  | succ levels ih =>
    rw [valueOfTerms] at h
    obtain h | ⟨flat, -, h⟩ := Except.bind_eq_error.1 h
    · obtain he | ⟨inner, ⟨us, after, rfl, hu, hi⟩, hv⟩ := replaceGroups_eq_error h
      · cases he
      obtain ⟨hl, before, hp, hle⟩ := ih hv
      refine ⟨hl, us ++ .openParen :: before, ?_, ?_⟩
      · rw [List.append_assoc]
        have hp' : .openParen :: before <+: .openParen :: (inner ++ .closeParen :: after) :=
          List.cons_prefix_cons.2 ⟨rfl, hp.trans (List.prefix_append inner _)⟩
        exact (List.prefix_append_right_inj us).2 hp'
      · have := count_of_openAfter hu
        have hopen : (Term.openParen :: before).count .closeParen = before.count .closeParen :=
          List.count_cons_of_ne Term.noConfusion
        rw [List.count_append, List.count_append, List.count_cons_self, hopen]
        omega
    · obtain h | ⟨left, -, h⟩ := Except.bind_eq_error.1 h
      · exact absurd h applyLevels_ne_tooDeep
      · cases theNumber_eq_error h

theorem levels_le_nesting {tokens : List Token} (ht : Term.ofTokens vars tokens = .ok terms)
    (h : valueOfTerms limit levels terms = .error (.tooDeep l)) : levels ≤ nesting tokens := by
  obtain ⟨-, before, ⟨rest, rfl⟩, hle⟩ := valueOfTerms_eq_tooDeep h
  obtain ⟨us, us', rfl, hu, -⟩ := Term.ofTokens_eq_append ht
  obtain ⟨hopen, hclose⟩ := Term.count_ofTokens hu
  have := nesting_le_iff.1 (Nat.le_refl (nesting (us ++ us'))) us (List.prefix_append us us')
  omega

/-- The nesting limit only cuts off. A result that is not for the limit is the result under every
larger limit; a limit that the nesting does not exceed never decides; where there is a value the
nesting does not exceed the limit; and it is the limit given that is reported. -/
theorem evaluate_limit (vars : Variables) (tokens : List Token) :
    (∀ limit limit', limit ≤ limit' → (∀ l, evaluate limit vars tokens ≠ .error (.tooDeep l)) →
      evaluate limit' vars tokens = evaluate limit vars tokens) ∧
    (∀ limit l, nesting tokens ≤ limit → evaluate limit vars tokens ≠ .error (.tooDeep l)) ∧
    (∀ limit v, evaluate limit vars tokens = .ok v → nesting tokens ≤ limit) ∧
    ∀ limit l, evaluate limit vars tokens = .error (.tooDeep l) → l = limit := by
  cases hterms : Term.ofTokens vars tokens with
  | error e =>
    obtain ⟨name, -, -, rfl⟩ := Term.ofTokens_eq_error hterms
    have heval : ∀ limit, evaluate limit vars tokens = .error (.unbound name) := by
      intro limit
      rw [evaluate, hterms]
      rfl
    refine ⟨fun limit limit' _ _ => ?_, fun limit l _ h => ?_, fun limit v h => ?_,
      fun limit l h => ?_⟩
    · rw [heval, heval]
    · rw [heval] at h; cases h
    · rw [heval] at h; cases h
    · rw [heval] at h; cases h
  | ok terms =>
    have heval : ∀ limit, evaluate limit vars tokens = valueOfTerms limit (limit + 1) terms := by
      intro limit
      rw [evaluate, hterms]
      rfl
    simp only [heval]
    refine ⟨fun limit limit' hle => valueOfTerms_refines (Nat.succ_le_succ hle) terms,
      fun limit l hle h => ?_, fun limit v h => ?_, fun limit l h => (valueOfTerms_eq_tooDeep h).1⟩
    · exact Nat.not_succ_le_self limit ((levels_le_nesting hterms h).trans hle)
    · obtain ⟨t, rfl, -, hd, -⟩ := exists_tree_of_valueOfTerms hterms h
      exact t.nesting_tokens_le.trans (Nat.le_of_lt_succ hd)

/-- In `(1))` the group is too deep for the limit zero, and the parenthesis after it is not met. -/
theorem evaluate_limit_unbalanced :
    evaluate 0 ∅ [.openParen, .number 1, .closeParen, .closeParen] = .error (.tooDeep 0) ∧
    evaluate 1 ∅ [.openParen, .number 1, .closeParen, .closeParen] = .error .unmatchedParen ∧
    evaluate 7 ∅ [.openParen, .number 1, .closeParen, .closeParen] = .error .unmatchedParen := by
  have hone : evaluate 1 ∅ [.openParen, .number 1, .closeParen, .closeParen] =
      .error .unmatchedParen := rfl
  obtain ⟨hmono, -, -, -⟩ := evaluate_limit ∅ [.openParen, .number 1, .closeParen, .closeParen]
  exact ⟨rfl, hone, (hmono 1 7 (by decide) fun l hl => by rw [hone] at hl; cases hl).trans hone⟩

end Limit

end Calculator
