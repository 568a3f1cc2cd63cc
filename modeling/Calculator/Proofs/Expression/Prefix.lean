import Calculator.Proofs.Expression.Formula

/-!
# Beginnings of formulas

A formula that is read token by token is at each place a stack of open groups. Inside each of them
stands a part that waits for an operand, and after the last either such a part or a whole formula.

* `Prefix complete n ts`: the tokens `ts` with `n` open groups.
* `Prefix.operand`, `Prefix.operator`, `Prefix.openParen`, `Prefix.closeParen`: one more token.
* `Prefix.exists_formula`: what is complete becomes a formula when the open groups are closed.
-/

namespace Calculator

/-- Tokens inside a group that wait for an operand. -/
inductive Pending : List Token → Prop
  | nil : Pending []
  | operator (f : Formula) (op : Operator) : Pending (f.tokens ++ [.operator op])

/-- Tokens up to the last of `n` parentheses that are open. -/
inductive Groups : Nat → List Token → Prop
  | nil : Groups 0 []
  | openParen {n : Nat} {us vs : List Token} (hu : Groups n us) (hv : Pending vs) :
    Groups (n + 1) (us ++ vs ++ [.openParen])

/-- The beginning of a formula, with `n` groups that are open. It is complete if an operand ends
here. -/
inductive Prefix : (complete : Bool) → Nat → List Token → Prop
  | pending {n : Nat} {us vs : List Token} (hu : Groups n us) (hv : Pending vs) :
    Prefix false n (us ++ vs)
  | formula {n : Nat} {us : List Token} (hu : Groups n us) (f : Formula) :
    Prefix true n (us ++ f.tokens)

/-- An operand ends what waits for it. -/
theorem Pending.operand {vs : List Token} (h : Pending vs) (p : Operand) :
    ∃ f : Formula, f.tokens = vs ++ p.tokens := by
  cases h with
  | nil => exact ⟨.operand p, rfl⟩
  | operator f op => exact ⟨.binary f op p, by simp [Formula.tokens]⟩

namespace Prefix

variable {n : Nat} {ts : List Token}

theorem nil : Prefix false 0 [] := .pending .nil .nil

theorem operand (h : Prefix false n ts) (p : Operand) : Prefix true n (ts ++ p.tokens) := by
  cases h with
  | pending hu hv =>
    obtain ⟨f, hf⟩ := hv.operand p
    rw [List.append_assoc, ← hf]
    exact .formula hu f

theorem operator (h : Prefix true n ts) (op : Operator) :
    Prefix false n (ts ++ [.operator op]) := by
  cases h with
  | formula hu f =>
    rw [List.append_assoc]
    exact .pending hu (.operator f op)

theorem openParen (h : Prefix false n ts) : Prefix false (n + 1) (ts ++ [.openParen]) := by
  cases h with
  | pending hu hv =>
    have := Prefix.pending (hu.openParen hv) .nil
    rwa [List.append_nil] at this

/-- The formula inside a group becomes an operand outside of it. -/
theorem closeParen (h : Prefix true (n + 1) ts) : Prefix true n (ts ++ [.closeParen]) := by
  cases h with
  | formula hu f =>
    cases hu with
    | openParen hu hv =>
      have := (Prefix.pending hu hv).operand (.group f)
      simpa [Operand.tokens] using this

theorem exists_formula (h : Prefix true n ts) :
    ∃ f : Formula, f.tokens = ts ++ List.replicate n .closeParen := by
  induction n generalizing ts with
  | zero =>
    cases h with
    | formula hu f =>
      cases hu with
      | nil => exact ⟨f, (List.append_nil _).symm⟩
  | succ n ih =>
    obtain ⟨f, hf⟩ := ih h.closeParen
    exact ⟨f, by rw [hf, List.replicate_succ, List.append_assoc, List.singleton_append]⟩

end Prefix

end Calculator
