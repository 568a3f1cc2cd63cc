import Calculator.Proofs.Evaluation.Cover

/-!
# The value of a token sequence

Evaluation by groups and by passes over a list gives the value of the precedence tree, and it gives
a value to nothing but formulas.

* `evaluate_formula`: what becomes of the tokens of a formula whose variables have values.
* `evaluate_eq_ok_iff`: the token sequences that have a value, and their values.
-/

namespace Calculator

variable {vars : Variables} {limit : Nat} {tokens : List Token} {terms : List Term}

/-- The terms of an ordered tree get the value of the tree, unless its groups nest too deep. -/
theorem valueOfTerms_tree {t : Tree} (levels : Nat) (ho : t.Ordered)
    (ht : Term.ofTokens vars t.tokens = .ok terms) :
    t.Result vars levels (valueOfTerms limit levels terms) := by
  induction levels generalizing t terms with
  | zero => exact ⟨id, .inl (Nat.zero_le _)⟩
  | succ levels ih =>
    rw [valueOfTerms]
    rcases replaceGroupsFrom_tree ih ho ht with ⟨flat, hflat, hd, hp⟩ | ⟨e, he, hev, hp⟩
    · have hgroups : replaceGroups (valueOfTerms limit levels) terms = .ok flat := by
        simpa [replaceGroups, Calculator.replaceGroupsFrom] using hp []
      rw [hgroups, Except.ok_bind]
      rcases applyLevels_stage hflat ho with ⟨x, hx, hev⟩ | ⟨e, he, hev, hx⟩
      · rw [hx]
        exact ⟨hev, Nat.lt_succ_of_le hd⟩
      · rw [hx]
        exact ⟨he, .inr hev⟩
    · have hgroups : replaceGroups (valueOfTerms limit levels) terms = .error e := by
        simpa [replaceGroups] using hp []
      rw [hgroups]
      exact ⟨he, hev.imp_left Nat.succ_le_of_lt⟩

/-- Terms that get a value are those of an ordered tree with that value. -/
theorem exists_tree_of_valueOfTerms {levels : Nat} {x : Float}
    (ht : Term.ofTokens vars tokens = .ok terms) (h : valueOfTerms limit levels terms = .ok x) :
    ∃ t : Tree, t.tokens = tokens ∧ t.Ordered ∧ t.depth < levels ∧ t.eval vars = .ok x := by
  induction levels generalizing tokens terms x with
  | zero => cases h
  | succ levels ih =>
    rw [valueOfTerms] at h
    obtain ⟨flat, hflat, h⟩ := Except.bind_eq_ok.1 h
    obtain ⟨left, hleft, h⟩ := Except.bind_eq_ok.1 h
    obtain rfl : left = [.number x] := by
      unfold theNumber at h
      split at h <;> cases h
      rfl
    have hcov : Covers vars levels 0 flat tokens :=
      Covers.replaceGroupsFrom ih hflat (show Term.ofTokens vars [] = _ from rfl) ht
    obtain ⟨t, htokens, ho, hd, hx⟩ := hcov.applyLevels hleft
    exact ⟨t, htokens, ho, Nat.lt_succ_of_le hd, hx⟩

/-- What becomes of a formula whose variables have values. -/
theorem evaluate_formula (f : Formula)
    (h : ∀ name, Token.var name ∈ f.tokens → vars.contains name = true) :
    f.tree.Result vars (limit + 1) (evaluate limit vars f.tokens) := by
  obtain ⟨terms, hterms⟩ := Term.ofTokens_eq_ok_iff.2 h
  rw [evaluate, hterms]
  rw [← f.tokens_tree] at hterms
  exact valueOfTerms_tree (limit + 1) f.ordered_tree hterms

/-- A token sequence has the value `v` if it is a formula whose variables all have values, whose
groups nest no deeper than the limit and whose precedence tree has the value `v`. Nothing else has
a value. -/
theorem evaluate_eq_ok_iff {v : Float} : evaluate limit vars tokens = .ok v ↔
    ∃ f : Formula, f.tokens = tokens ∧
      (∀ name, Token.var name ∈ tokens → vars.contains name = true) ∧ f.depth ≤ limit ∧
      f.tree.eval vars = .ok v := by
  constructor
  · intro h
    obtain ⟨terms, hterms, h⟩ := Except.bind_eq_ok.1 h
    obtain ⟨t, htokens, ho, hd, hev⟩ := exists_tree_of_valueOfTerms hterms h
    obtain ⟨f, rfl⟩ := ho.exists_formula
    refine ⟨f, f.tokens_tree ▸ htokens, Term.ofTokens_eq_ok_iff.1 ⟨terms, hterms⟩, ?_, hev⟩
    exact f.depth_tree ▸ Nat.le_of_lt_succ hd
  · rintro ⟨f, rfl, hvars, hd, hev⟩
    have hresult : f.tree.Result vars (limit + 1) (evaluate limit vars f.tokens) :=
      evaluate_formula f hvars
    cases h : evaluate limit vars f.tokens with
    | ok x =>
      rw [h] at hresult
      rw [← hev, hresult.1]
    | error e =>
      rw [h] at hresult
      rcases hresult.2 with hlt | ⟨e', he'⟩
      · rw [f.depth_tree] at hlt
        omega
      · rw [hev] at he'
        cases he'

end Calculator
