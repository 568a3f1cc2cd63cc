import Mathlib.Data.List.Infix
import Calculator.Proofs.Evaluation.Group

/-!
# Any terms, by their outermost groups

Terms of any kind, balanced or not, begin with a term that is no parenthesis, with a group, with a
closing parenthesis that closes nothing or with an opening one that is never closed. Whatever
replaces groups by their values goes along this case distinction.

* `outermostInduction`: the induction with these cases.
* `replaceGroups_plain`, `replaceGroups_unclosed`, `replaceGroups_unopened`: what becomes of the
  terms in each case but that of a group.
* `replaceGroups_congr`: only the outermost groups are asked for their values.
* `exists_first_of_replaceGroups`: where an error comes from.
-/

namespace Calculator

variable {value : List Term → Except EvalError Float} {terms inner rest : List Term} {n m : Nat}

/-! ## Open groups -/

theorem openAfter_append (h : openAfter n terms = some m) (rest : List Term) :
    openAfter n (terms ++ rest) = openAfter m rest := by
  fun_induction openAfter n terms with
  | case1 => cases h; rfl
  | case2 n rest ih => exact ih h
  | case3 => cases h
  | case4 n rest ih => exact ih h
  | case5 n x rest ih => exact ih h
  | case6 n op rest ih => exact ih h

/-- Groups that were open before stay open. -/
theorem openAfter_succ (h : openAfter n terms = some m) :
    openAfter (n + 1) terms = some (m + 1) := by
  fun_induction openAfter n terms with
  | case1 => cases h; rfl
  | case2 n rest ih => exact ih h
  | case3 => cases h
  | case4 n rest ih => exact ih h
  | case5 n x rest ih => exact ih h
  | case6 n op rest ih => exact ih h

/-- What is opened is open in the end or closed. -/
theorem count_of_openAfter (h : openAfter n terms = some m) :
    n + terms.count .openParen = m + terms.count .closeParen := by
  fun_induction openAfter n terms with
  | case1 => cases h; rfl
  | case2 n rest ih =>
    have := ih h
    have hne : Term.openParen ≠ .closeParen := Term.noConfusion
    simp only [List.count_cons_self, List.count_cons_of_ne hne]
    omega
  | case3 => cases h
  | case4 n rest ih =>
    have := ih h
    have hne : Term.closeParen ≠ .openParen := Term.noConfusion
    simp only [List.count_cons_self, List.count_cons_of_ne hne]
    omega
  | case5 n x rest ih => simpa using ih h
  | case6 n op rest ih => simpa using ih h

/-- Terms that close more than they open do so at a first place. -/
theorem exists_of_openAfter_eq_none (h : openAfter n terms = none) :
    ∃ inner rest, terms = inner ++ .closeParen :: rest ∧ openAfter n inner = some 0 := by
  fun_induction openAfter n terms with
  | case1 => cases h
  | case2 n rest ih =>
    obtain ⟨inner, after, rfl, hi⟩ := ih h
    exact ⟨.openParen :: inner, after, rfl, hi⟩
  | case3 rest => exact ⟨[], rest, rfl, rfl⟩
  | case4 n rest ih =>
    obtain ⟨inner, after, rfl, hi⟩ := ih h
    exact ⟨.closeParen :: inner, after, rfl, hi⟩
  | case5 n x rest ih =>
    obtain ⟨inner, after, rfl, hi⟩ := ih h
    exact ⟨.number x :: inner, after, rfl, hi⟩
  | case6 n op rest ih =>
    obtain ⟨inner, after, rfl, hi⟩ := ih h
    exact ⟨.operator op :: inner, after, rfl, hi⟩

/-- After a group no more is open than before. -/
theorem openAfter_group (h : openAfter 0 inner = some 0) (rest : List Term) :
    openAfter 0 (.openParen :: (inner ++ .closeParen :: rest)) = openAfter 0 rest := by
  rw [openAfter, openAfter_append (openAfter_succ h)]
  rfl

/-! ## The case distinction -/

/-- Induction over terms from group to group. -/
@[elab_as_elim]
theorem outermostInduction {motive : List Term → Prop} (nil : motive [])
    (plain : ∀ term rest, openAfter 0 [term] = some 0 → motive rest → motive (term :: rest))
    (group : ∀ inner rest, openAfter 0 inner = some 0 → motive rest →
      motive (.openParen :: (inner ++ .closeParen :: rest)))
    (unclosed : ∀ rest n, openAfter 0 rest = some n → motive (.openParen :: rest))
    (unopened : ∀ rest, motive (.closeParen :: rest)) (terms : List Term) : motive terms := by
  induction h : terms.length using Nat.strong_induction_on generalizing terms with
  | _ length ih =>
    subst h
    match terms with
    | [] => exact nil
    | .number x :: rest => exact plain _ rest rfl (ih _ (Nat.lt_succ_self _) rest rfl)
    | .operator op :: rest => exact plain _ rest rfl (ih _ (Nat.lt_succ_self _) rest rfl)
    | .closeParen :: rest => exact unopened rest
    | .openParen :: terms =>
      cases ho : openAfter 0 terms with
      | some n => exact unclosed terms n ho
      | none =>
        obtain ⟨inner, rest, rfl, hi⟩ := exists_of_openAfter_eq_none ho
        refine group inner rest hi (ih _ ?_ rest rfl)
        simp only [List.length_cons, List.length_append]
        omega

theorem replaceGroups_plain {term : Term} (h : openAfter 0 [term] = some 0) :
    replaceGroups value (term :: rest) =
      replaceGroups value rest >>= fun us => .ok (term :: us) := by
  cases term with
  | number x => rfl
  | operator op => rfl
  | openParen => cases h
  | closeParen => cases h

theorem replaceGroups_unclosed (h : openAfter 0 rest = some n) :
    replaceGroups value (.openParen :: rest) = .error .unmatchedParen := by
  rw [← List.append_nil rest, replaceGroups, replaceGroupsFrom, replaceGroupsFrom_inside h]
  rfl

theorem replaceGroups_unopened :
    replaceGroups value (.closeParen :: rest) = .error .unmatchedParen := rfl

/-! ## The values that are asked for -/

/-- The terms `inner` are those of an outermost group of `terms`. -/
def IsOutermost (inner terms : List Term) : Prop :=
  ∃ before after, terms = before ++ .openParen :: inner ++ .closeParen :: after ∧
    openAfter 0 before = some 0 ∧ openAfter 0 inner = some 0

theorem IsOutermost.append {before : List Term} (hb : openAfter 0 before = some 0)
    (h : IsOutermost inner rest) : IsOutermost inner (before ++ rest) := by
  obtain ⟨us, after, rfl, hu, hi⟩ := h
  exact ⟨before ++ us, after, by simp, (openAfter_append hb us).trans hu, hi⟩

/-- Only the outermost groups are asked for their values. -/
theorem replaceGroups_congr {value' : List Term → Except EvalError Float}
    (h : ∀ inner, IsOutermost inner terms → value inner = value' inner) :
    replaceGroups value terms = replaceGroups value' terms := by
  induction terms using outermostInduction with
  | nil => rfl
  | plain term rest ht ih =>
    rw [replaceGroups_plain ht, replaceGroups_plain ht, ih fun us hu => h us (hu.append ht)]
  | group inner rest hi ih =>
    have hbefore : openAfter 0 (.openParen :: (inner ++ [.closeParen])) = some 0 :=
      openAfter_group hi []
    have hrest : ∀ us, IsOutermost us rest → value us = value' us := fun us hu =>
      h us (by simpa using hu.append hbefore)
    rw [replaceGroups_group hi, replaceGroups_group hi, h inner ⟨[], rest, rfl, rfl, hi⟩, ih hrest]
  | unclosed rest n hn => rw [replaceGroups_unclosed hn, replaceGroups_unclosed hn]
  | unopened rest => rw [replaceGroups_unopened, replaceGroups_unopened]

/-! ## Errors -/

/-- Replacing groups fails because a group has no value, and then it is the first one, or else for
an unmatched parenthesis. -/
theorem exists_first_of_replaceGroups {e : EvalError} (h : replaceGroups value terms = .error e) :
    (∃ before inner after us, terms = before ++ .openParen :: inner ++ .closeParen :: after ∧
      openAfter 0 before = some 0 ∧ openAfter 0 inner = some 0 ∧
      replaceGroups value before = .ok us ∧ value inner = .error e) ∨
    e = .unmatchedParen ∧ openAfter 0 terms ≠ some 0 := by
  induction terms using outermostInduction with
  | nil => cases h
  | plain term rest ht ih =>
    have hrest : openAfter 0 (term :: rest) = openAfter 0 rest := openAfter_append ht rest
    rw [replaceGroups_plain ht] at h
    obtain hr | ⟨us, -, hus⟩ := Except.bind_eq_error.1 h
    · rcases ih hr with ⟨before, inner, after, us, rfl, hb, hi, hus, hv⟩ | ⟨he, hne⟩
      · refine .inl ⟨term :: before, inner, after, term :: us, rfl, ?_, hi, ?_, hv⟩
        · rw [← hb]
          exact openAfter_append ht before
        · rw [replaceGroups_plain ht, hus]
          rfl
      · exact .inr ⟨he, hrest ▸ hne⟩
    · cases hus
  | group inner rest hi ih =>
    rw [replaceGroups_group hi] at h
    obtain hv | ⟨x, hx, h⟩ := Except.bind_eq_error.1 h
    · exact .inl ⟨[], inner, rest, [], rfl, rfl, hi, rfl, hv⟩
    · obtain hr | ⟨us, -, hus⟩ := Except.bind_eq_error.1 h
      · rcases ih hr with ⟨before, inner', after, us, rfl, hb, hi', hus, hv⟩ | ⟨he, hne⟩
        · refine .inl ⟨.openParen :: (inner ++ .closeParen :: before), inner', after,
            .number x :: us, by simp, (openAfter_group hi before).trans hb, hi', ?_, hv⟩
          rw [replaceGroups_group hi, hx, Except.ok_bind, hus]
          rfl
        · exact .inr ⟨he, openAfter_group hi rest ▸ hne⟩
      · cases hus
  | unclosed rest n hn =>
    rw [replaceGroups_unclosed hn] at h
    cases h
    refine .inr ⟨rfl, ?_⟩
    rw [openAfter, openAfter_succ hn]
    simp
  | unopened rest =>
    cases h
    exact .inr ⟨rfl, by simp [openAfter]⟩

/-- Replacing groups fails for an unmatched parenthesis or because a group has no value. -/
theorem replaceGroups_eq_error {e : EvalError} (h : replaceGroups value terms = .error e) :
    e = .unmatchedParen ∨ ∃ inner, IsOutermost inner terms ∧ value inner = .error e := by
  rcases exists_first_of_replaceGroups h with ⟨before, inner, after, -, he, hb, hi, -, hv⟩ | ⟨he, -⟩
  · exact .inr ⟨inner, ⟨before, after, he, hb, hi⟩, hv⟩
  · exact .inl he

end Calculator
