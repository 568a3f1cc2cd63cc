import Calculator.Proofs.Evaluation.Group

/-!
# From terms back to trees

What evaluation makes of any terms, in whatever order, stands for the tokens that were read: each
operator for itself and each number for a tree whose value it is. So terms that come down to one
number are the tokens of a tree.

* `Covers.replaceGroupsFrom`: this holds of what is left after the groups.
* `Covers.applyLevelFrom`: a pass that succeeds keeps it.
* `Covers.applyLevels`: one number that is left over is the value of an ordered tree.
-/

namespace Calculator

/-- The tokens that `terms` stand for: an operator for itself, a number for an ordered tree with
that value, whose groups nest at most `depth` levels deep and whose operators are of the first `k`
levels outside of its groups. -/
inductive Covers (vars : Variables) (depth k : Nat) : List Term → List Token → Prop
  | nil : Covers vars depth k [] []
  | number {t : Tree} {x : Float} {terms : List Term} {tokens : List Token} (ho : t.Ordered)
    (hk : t.rank ≤ k) (hd : t.depth ≤ depth) (hx : t.eval vars = .ok x)
    (h : Covers vars depth k terms tokens) :
    Covers vars depth k (.number x :: terms) (t.tokens ++ tokens)
  | operator {op : Operator} {terms : List Term} {tokens : List Token}
    (h : Covers vars depth k terms tokens) :
    Covers vars depth k (.operator op :: terms) (.operator op :: tokens)

namespace Covers

variable {vars : Variables} {depth k k' : Nat} {level : Precedence} {terms terms' : List Term}
  {tokens tokens' : List Token}

theorem mono (hk : k ≤ k') (h : Covers vars depth k terms tokens) :
    Covers vars depth k' terms tokens := by
  induction h with
  | nil => exact .nil
  | number ho hr hd hx _ ih => exact .number ho (Nat.le_trans hr hk) hd hx ih
  | operator _ ih => exact .operator ih

theorem append (h : Covers vars depth k terms tokens) (h' : Covers vars depth k terms' tokens') :
    Covers vars depth k (terms ++ terms') (tokens ++ tokens') := by
  induction h with
  | nil => exact h'
  | number ho hr hd hx _ ih => rw [List.append_assoc]; exact .number ho hr hd hx ih
  | operator _ ih => exact .operator ih

theorem exists_append (h : Covers vars depth k (terms ++ terms') tokens) :
    ∃ us us', tokens = us ++ us' ∧ Covers vars depth k terms us ∧
      Covers vars depth k terms' us' := by
  induction terms generalizing tokens with
  | nil => exact ⟨[], tokens, rfl, .nil, h⟩
  | cons term terms ih =>
    cases h with
    | number ho hr hd hx h =>
      obtain ⟨us, us', rfl, hu, hu'⟩ := ih h
      exact ⟨_, us', (List.append_assoc ..).symm, .number ho hr hd hx hu, hu'⟩
    | operator h =>
      obtain ⟨us, us', rfl, hu, hu'⟩ := ih h
      exact ⟨_, us', rfl, .operator hu, hu'⟩

theorem exists_tree {x : Float} (h : Covers vars depth k [.number x] tokens) :
    ∃ t : Tree, t.tokens = tokens ∧ t.Ordered ∧ t.rank ≤ k ∧ t.depth ≤ depth ∧
      t.eval vars = .ok x := by
  cases h with
  | @number t _ _ _ ho hk hd hx h =>
    cases h
    exact ⟨t, (List.append_nil _).symm, ho, hk, hd, hx⟩

/-- A term that a pass leaves alone goes over from the right to the left. -/
theorem move {term : Term} {left rest : List Term} {before : List Token}
    (hl : Covers vars depth (k + 1) left.reverse before)
    (hr : Covers vars depth k (term :: rest) tokens) :
    ∃ us us', tokens = us ++ us' ∧ Covers vars depth (k + 1) (term :: left).reverse (before ++ us) ∧
      Covers vars depth k rest us' := by
  rw [← List.singleton_append] at hr
  obtain ⟨us, us', rfl, hu, hu'⟩ := exists_append hr
  rw [List.reverse_cons]
  exact ⟨us, us', rfl, hl.append (hu.mono (Nat.le_succ _)), hu'⟩

/-- What one pass leaves, if it succeeds, stands for the same tokens. On the left of the place of
the pass everything is done, on its right nothing. -/
theorem applyLevelFrom {left out : List Term} {before : List Token}
    (h : applyLevelFrom level left terms = .ok out)
    (hl : Covers vars depth (level.index + 1) left.reverse before)
    (hr : Covers vars depth level.index terms tokens) :
    Covers vars depth (level.index + 1) out (before ++ tokens) := by
  fun_induction Calculator.applyLevelFrom level left terms generalizing before tokens with
  | case1 left =>
    cases h
    cases hr
    rwa [List.append_nil]
  | case2 left last =>
    cases h
    obtain ⟨us, us', rfl, hl', hr'⟩ := move hl hr
    cases hr'
    rwa [List.append_nil]
  | case3 rest op hop x left y ih =>
    subst hop
    obtain ⟨z, hz, h⟩ := Except.bind_eq_ok.1 h
    rw [List.reverse_cons] at hl
    obtain ⟨us, us', rfl, hu, hu'⟩ := hl.exists_append
    obtain ⟨l, rfl, hol, hkl, hdl, hxl⟩ := hu'.exists_tree
    cases hr with
    | operator hr =>
      cases hr with
      | @number r _ _ us' hor hkr hdr hxr hr =>
        have hz' : (Tree.binary l op r).eval vars = .ok z := by
          rw [Tree.eval, hxl, hxr]; exact hz
        have ht : Covers vars depth (op.precedence.index + 1) [.number z]
            (Tree.binary l op r).tokens := by
          rw [← List.append_nil (Tree.tokens _)]
          exact .number ⟨hol, hor, hkl, hkr⟩ (Nat.le_refl _) (Nat.max_le.2 ⟨hdl, hdr⟩) hz' .nil
        have := ih z h (by rw [List.reverse_cons]; exact hu.append ht) hr
        simpa [Tree.tokens] using this
  | case4 => cases h
  | case5 left next rest op hop ih =>
    obtain ⟨us, us', rfl, hl', hr'⟩ := move hl hr
    rw [← List.append_assoc]
    exact ih h hl' hr'
  | case6 left term next rest hterm ih =>
    obtain ⟨us, us', rfl, hl', hr'⟩ := move hl hr
    rw [← List.append_assoc]
    exact ih h hl' hr'

/-- One number that the passes over all levels leave is the value of an ordered tree. -/
theorem applyLevels {x : Float} (h : applyLevels terms = .ok [.number x])
    (hc : Covers vars depth 0 terms tokens) :
    ∃ t : Tree, t.tokens = tokens ∧ t.Ordered ∧ t.depth ≤ depth ∧ t.eval vars = .ok x := by
  simp only [Calculator.applyLevels, Precedence.all, List.foldlM_cons, List.foldlM_nil] at h
  obtain ⟨us, h₁, h⟩ := Except.bind_eq_ok.1 h
  obtain ⟨us', h₂, h⟩ := Except.bind_eq_ok.1 h
  obtain ⟨us'', h₃, h⟩ := Except.bind_eq_ok.1 h
  cases h
  have hc₁ : Covers vars depth 1 us tokens := applyLevelFrom h₁ .nil hc
  have hc₂ : Covers vars depth 2 us' tokens := applyLevelFrom h₂ .nil hc₁
  have hc₃ : Covers vars depth 3 [.number x] tokens := applyLevelFrom h₃ .nil hc₂
  obtain ⟨t, ht, ho, -, hd, hx⟩ := hc₃.exists_tree
  exact ⟨t, ht, ho, hd, hx⟩

/-- The tokens of the outermost open group, if there is one, that have been read. -/
def groupStart : (depth : Nat) → (inside : List Token) → List Token
  | 0, _ => []
  | _ + 1, inside => .openParen :: inside

/-- In an open group one more term is collected. -/
theorem groupStart_collect {token : Token} {term : Term} {inside : List Term} {before : List Token}
    (hb : Term.ofTokens vars before = .ok inside.reverse)
    (ht : Term.ofToken vars token = .ok term) (n : Nat) (tokens : List Token) :
    Term.ofTokens vars (before ++ [token]) = .ok (term :: inside).reverse ∧
      groupStart (n + 1) (before ++ [token]) ++ tokens =
        groupStart (n + 1) before ++ token :: tokens := by
  refine ⟨?_, by simp [groupStart]⟩
  rw [List.reverse_cons]
  exact Term.ofTokens_append_eq_ok.2
    ⟨_, _, hb, Term.ofTokens_cons_eq_ok.2 ⟨term, [], ht, rfl, rfl⟩, rfl⟩

/-- What is left after the groups stands for the tokens, if the value of every group is that of a
tree with the tokens of the group. -/
theorem replaceGroupsFrom {value : List Term → Except EvalError Float} {levels n : Nat}
    {inside out : List Term} {before : List Token}
    (hvalue : ∀ {tokens : List Token} {inner : List Term} {x : Float},
      Term.ofTokens vars tokens = .ok inner → value inner = .ok x →
      ∃ t : Tree, t.tokens = tokens ∧ t.Ordered ∧ t.depth < levels ∧ t.eval vars = .ok x)
    (h : replaceGroupsFrom value n inside terms = .ok out)
    (hb : Term.ofTokens vars before = .ok inside.reverse)
    (ht : Term.ofTokens vars tokens = .ok terms) :
    Covers vars levels 0 out (groupStart n before ++ tokens) := by
  have hnil : Term.ofTokens vars [] = .ok ([] : List Term).reverse := rfl
  fun_induction Calculator.replaceGroupsFrom value n inside terms
    generalizing before tokens out with
  | case1 inside =>
    cases h
    cases tokens with
    | nil => exact .nil
    | cons token tokens =>
      obtain ⟨_, _, -, -, hcons⟩ := Term.ofTokens_cons_eq_ok.1 ht
      cases hcons
  | case2 => cases h
  | case3 inside rest ih =>
    obtain ⟨token, tokens, rfl, htoken, hrest⟩ := Term.ofTokens_eq_cons ht
    obtain rfl := Term.ofToken_eq_openParen.1 htoken
    exact ih h hnil hrest
  | case4 => cases h
  | case5 inside term rest hopen hclose ih =>
    obtain ⟨token, tokens, rfl, htoken, hrest⟩ := Term.ofTokens_eq_cons ht
    obtain ⟨us, hus, h⟩ := Except.bind_eq_ok.1 h
    cases h
    have hcov := ih hus hnil hrest
    cases term with
    | number x =>
      obtain ⟨t, ht, ho, hr, hd, hx⟩ := Term.exists_tree_of_ofToken htoken
      have := Covers.number ho (Nat.le_of_eq hr) (hd ▸ Nat.zero_le levels) hx hcov
      rwa [ht] at this
    | operator op =>
      obtain rfl := Term.ofToken_eq_operator.1 htoken
      exact .operator hcov
    | openParen => exact absurd rfl hopen
    | closeParen => exact absurd rfl hclose
  | case6 n inside rest ih =>
    obtain ⟨token, tokens, rfl, htoken, hrest⟩ := Term.ofTokens_eq_cons ht
    obtain ⟨hb', he⟩ := groupStart_collect hb htoken n tokens
    exact he ▸ ih h hb' hrest
  | case7 inside rest ih =>
    obtain ⟨token, tokens, rfl, htoken, hrest⟩ := Term.ofTokens_eq_cons ht
    obtain rfl := Term.ofToken_eq_closeParen.1 htoken
    obtain ⟨x, hx, h⟩ := Except.bind_eq_ok.1 h
    obtain ⟨us, hus, h⟩ := Except.bind_eq_ok.1 h
    cases h
    obtain ⟨t, rfl, ho, hd, hev⟩ := hvalue hb hx
    have := Covers.number (t := t.group) ho (Nat.le_refl 0) hd hev (ih hus hnil hrest)
    simpa [groupStart, Tree.tokens] using this
  | case8 inside rest n ih =>
    obtain ⟨token, tokens, rfl, htoken, hrest⟩ := Term.ofTokens_eq_cons ht
    obtain ⟨hb', he⟩ := groupStart_collect hb htoken (n + 1) tokens
    exact he ▸ ih h hb' hrest
  | case9 n inside term rest _ _ _ ih =>
    obtain ⟨token, tokens, rfl, htoken, hrest⟩ := Term.ofTokens_eq_cons ht
    obtain ⟨hb', he⟩ := groupStart_collect hb htoken n tokens
    exact he ▸ ih h hb' hrest

end Covers

end Calculator
