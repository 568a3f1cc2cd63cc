import Calculator.Proofs.Except
import Calculator.Proofs.Expression.Formula
import Calculator.Proofs.Number.Sign

/-!
# A signed operand in parentheses

A sign in front of a number makes one token of both, and a sign in front of a variable makes a
product with minus one. Where nothing beside that product takes only a part of it, parentheses
around it change nothing: a product on its left has the factor minus one in another place.

* `Tree.Signed`: what a sign and its operand become.
* `Tree.Replaces`: a tree that may stand where another one does.
* `Tree.StandsAlone`: what may stand beside a signed operand.
* `Tree.exists_group`: a signed operand that stands alone gets parentheses of its own.
-/

namespace Calculator

namespace Tree

/-- What a sign and its operand become. -/
inductive Signed : Tree → Prop
  | number (x : Float) : Signed (.number x)
  | var (name : Char) : Signed (.binary (.number (-1)) .mul (.var name))

/-- The second tree binds at least as tightly as the first and has the same value. -/
structure Replaces (vars : Variables) (t t' : Tree) : Prop where
  ordered : t'.Ordered
  rank_le : t'.rank ≤ t.rank
  eval_eq : t'.eval vars = t.eval vars

/-- No operator beside the tokens of `u` takes only a part of them: either they are one operand, or
they are a product and there is no division or power on its left and no power on its right. -/
def StandsAlone (u : Tree) (before after : List Token) : Prop :=
  u.rank = 0 ∨ (∀ ts, before ≠ ts ++ [Token.operator .div]) ∧
    (∀ ts, before ≠ ts ++ [Token.operator .pow]) ∧ ∀ ts, after ≠ .operator .pow :: ts

section Lemmas

variable {vars : Variables} {t t' u l r : Tree} {op : Operator} {x : Float} {name : Char}
  {before after ts us vs ws : List Token}

theorem StandsAlone.of_append (ts us : List Token)
    (h : u.StandsAlone (ts ++ before) (after ++ us)) : u.StandsAlone before after := by
  refine h.imp_right fun ⟨hd, hp, hr⟩ => ⟨fun vs hv => ?_, fun vs hv => ?_, fun vs hv => ?_⟩
  · exact hd (ts ++ vs) (by rw [hv, List.append_assoc])
  · exact hp (ts ++ vs) (by rw [hv, List.append_assoc])
  · exact hr (vs ++ us) (by rw [hv, List.cons_append])

/-! ## Replacing a part -/

theorem Replaces.group (h : Replaces vars t t') : Replaces vars t.group t'.group :=
  ⟨h.ordered, Nat.le_refl 0, h.eval_eq⟩

/-- Parentheses around a whole tree change nothing. -/
theorem replaces_group (ho : t.Ordered) : Replaces vars t t.group := ⟨ho, Nat.zero_le _, rfl⟩

theorem Replaces.left (ho : (binary l op r).Ordered) (h : Replaces vars l t') :
    Replaces vars (binary l op r) (binary t' op r) := by
  obtain ⟨-, hor, hl, hr⟩ := ho
  refine ⟨⟨h.ordered, hor, h.rank_le.trans hl, hr⟩, Nat.le_refl _, ?_⟩
  rw [eval, eval, h.eval_eq]

theorem Replaces.right (ho : (binary l op r).Ordered) (h : Replaces vars r t') :
    Replaces vars (binary l op r) (binary l op t') := by
  obtain ⟨hol, -, hl, hr⟩ := ho
  refine ⟨⟨hol, h.ordered, hl, h.rank_le.trans hr⟩, Nat.le_refl _, ?_⟩
  rw [eval, eval, h.eval_eq]

/-! ## The product at its place -/

theorem eq_pow_of_rank_le (h : (binary l op r).rank ≤ 1) : op = .pow := by
  have hindex : op.precedence.index + 1 ≤ 1 := h
  by_contra hop
  have hlt : Operator.pow.precedence.index < op.precedence.index :=
    Operator.index_lt_index_iff.2 (.inl ⟨rfl, hop⟩)
  omega

/-- What follows the operator ends with the number. -/
theorem exists_of_append_eq_concat
    (h : ts ++ Token.operator op :: us = before ++ [Token.number x]) :
    ∃ vs, us = vs ++ [Token.number x] ∧ before = ts ++ Token.operator op :: vs := by
  rcases List.eq_nil_or_concat us with rfl | ⟨vs, last, rfl⟩
  · obtain ⟨-, hlast⟩ := List.append_inj' h rfl
    cases hlast
  · rw [List.concat_eq_append, ← List.cons_append, ← List.append_assoc] at h
    obtain ⟨rfl, hlast⟩ := List.append_inj' h rfl
    cases hlast
    exact ⟨vs, List.concat_eq_append, rfl⟩

/-- A power, or what binds more tightly, that ends with a number but not with a power is this
number. -/
theorem eq_number_of_tokens (ho : t.Ordered) (ht : t.rank ≤ 1)
    (h : t.tokens = before ++ [Token.number x])
    (hp : ∀ ts, before ≠ ts ++ [Token.operator .pow]) : t = .number x ∧ before = [] := by
  induction t generalizing before with
  | number y =>
    have h' : [] ++ [Token.number y] = before ++ [Token.number x] := h
    obtain ⟨rfl, hlast⟩ := List.append_inj' h' rfl
    cases hlast
    exact ⟨rfl, rfl⟩
  | var name =>
    have h' : [] ++ [Token.var name] = before ++ [Token.number x] := h
    obtain ⟨-, hlast⟩ := List.append_inj' h' rfl
    cases hlast
  | group inner =>
    obtain ⟨-, hlast⟩ := List.append_inj' h rfl
    cases hlast
  | binary l op r _ ihr =>
    obtain ⟨-, hor, -, hr⟩ := ho
    obtain rfl := eq_pow_of_rank_le ht
    obtain ⟨vs, hvs, rfl⟩ := exists_of_append_eq_concat h
    obtain ⟨-, rfl⟩ := ihr hor (Nat.le_succ_of_le hr) hvs fun ts he =>
      hp (l.tokens ++ Token.operator .pow :: ts) (by rw [he, List.append_assoc, List.cons_append])
    exact absurd rfl (hp l.tokens)

/-- A product, or what binds more tightly, that ends with a number but neither with a division nor
with a power is this number or a product with it. -/
theorem eq_product_of_tokens (ho : t.Ordered) (ht : t.rank ≤ 2)
    (h : t.tokens = before ++ [Token.number x])
    (hd : ∀ ts, before ≠ ts ++ [Token.operator .div])
    (hp : ∀ ts, before ≠ ts ++ [Token.operator .pow]) :
    (t = .number x ∧ before = []) ∨
      ∃ l, t = .binary l .mul (.number x) ∧ before = l.tokens ++ [Token.operator .mul] := by
  by_cases ht' : t.rank ≤ 1
  · exact .inl (eq_number_of_tokens ho ht' h hp)
  · cases t with
    | binary l op r =>
      obtain ⟨-, hor, -, hr⟩ := ho
      obtain ⟨vs, hvs, rfl⟩ := exists_of_append_eq_concat h
      obtain ⟨rfl, rfl⟩ := eq_number_of_tokens hor (hr.trans (Nat.le_of_succ_le_succ ht)) hvs
        fun ts he =>
          hp (l.tokens ++ Token.operator op :: ts) (by rw [he, List.append_assoc, List.cons_append])
      have hindex : op.precedence.index + 1 ≤ 2 := ht
      cases op with
      | mul => exact .inr ⟨l, rfl, rfl⟩
      | div => exact absurd rfl (hd l.tokens)
      | pow => exact absurd (Nat.le_refl 1) ht'
      | add => exact absurd hindex (by decide)
      | sub => exact absurd hindex (by decide)
    | _ => exact absurd (Nat.zero_le 1) ht'

/-- A power, or what binds more tightly, that starts with a variable but not with a power of it is
this variable. -/
theorem eq_var_of_tokens (ho : t.Ordered) (ht : t.rank ≤ 1) (h : t.tokens = .var name :: after)
    (hp : ∀ ts, after ≠ .operator .pow :: ts) : t = .var name ∧ after = [] := by
  induction t generalizing after with
  | number y => cases h
  | var name => cases h; exact ⟨rfl, rfl⟩
  | group inner => cases h
  | binary l op r ihl _ =>
    obtain ⟨hol, -, hl, -⟩ := ho
    obtain rfl := eq_pow_of_rank_le ht
    rw [tokens, List.append_eq_cons_iff] at h
    obtain ⟨-, hop⟩ | ⟨ts, hts, rfl⟩ := h
    · cases hop
    · obtain ⟨-, rfl⟩ := ihl hol hl hts fun us he =>
        hp (us ++ Token.operator .pow :: r.tokens) (by rw [he, List.cons_append])
      exact absurd rfl (hp r.tokens)

/-- The factor minus one may go from one side of a product to the other. -/
theorem replaces_product (ho : l.Ordered) (hl : l.rank ≤ 2) :
    Replaces vars (binary (binary l .mul (.number (-1))) .mul (.var name))
      (binary l .mul (group (binary (.number (-1)) .mul (.var name)))) := by
  refine ⟨⟨ho, ⟨trivial, trivial, Nat.zero_le _, Nat.zero_le _⟩, hl, Nat.zero_le _⟩,
    Nat.le_refl _, ?_⟩
  simp only [eval, Operator.apply]
  cases l.eval vars with
  | error e => simp only [Except.error_bind]
  | ok x =>
    cases vars.get? name with
    | none => simp only [Except.ok_bind, Except.error_bind]
    | some y => simp only [Except.ok_bind, mul_neg_one_mul]

/-- A product with a negated variable in place of one with minus one and the variable. -/
theorem exists_group_product (ho : (binary l .mul r).Ordered)
    (hl : l.tokens = before ++ [Token.number (-1)]) (hr : r.tokens = .var name :: after)
    (hd : ∀ ts, before ≠ ts ++ [Token.operator .div])
    (hp : ∀ ts, before ≠ ts ++ [Token.operator .pow])
    (ha : ∀ ts, after ≠ .operator .pow :: ts) :
    ∃ t', t'.tokens = before ++ (binary (.number (-1)) .mul (.var name)).group.tokens ++ after ∧
      Replaces vars (binary l .mul r) t' := by
  obtain ⟨hol, hor, hlr, hrr⟩ := ho
  obtain ⟨rfl, rfl⟩ := eq_var_of_tokens hor hrr hr ha
  obtain ⟨rfl, rfl⟩ | ⟨l', rfl, rfl⟩ := eq_product_of_tokens hol hlr hl hd hp
  · exact ⟨group (binary _ .mul _), by simp, replaces_group ⟨hol, hor, hlr, hrr⟩⟩
  · obtain ⟨hol', -, hlr', -⟩ := hol
    exact ⟨binary l' .mul (group (binary _ .mul _)), by simp [tokens], replaces_product hol' hlr'⟩

/-! ## Parentheses around a signed operand -/

/-- A token in the middle is in one of two parts. -/
theorem append_cons_eq_append {token : Token} (h : ts ++ token :: us = vs ++ ws) :
    (∃ rest, vs = ts ++ token :: rest ∧ us = rest ++ ws) ∨
      ∃ rest, ts = vs ++ rest ∧ ws = rest ++ token :: us := by
  obtain ⟨rest, rfl, hr⟩ | hright := List.append_eq_append_iff.1 h
  · cases rest with
    | nil => exact .inr ⟨[], by simp, hr.symm⟩
    | cons next rest =>
      cases hr
      exact .inl ⟨rest, rfl, rfl⟩
  · exact .inr hright

namespace Signed

/-- A signed operand starts with a number. -/
theorem tokens_eq_cons (hu : u.Signed) : ∃ x rest, u.tokens = .number x :: rest := by
  cases hu with
  | number x => exact ⟨x, [], rfl⟩
  | var name => exact ⟨-1, _, rfl⟩

/-- It ends with a number or a variable. -/
theorem tokens_eq_concat (hu : u.Signed) :
    ∃ rest token, u.tokens = rest ++ [token] ∧ token ≠ Token.closeParen := by
  cases hu with
  | number x => exact ⟨[], _, rfl, Token.noConfusion⟩
  | var name => exact ⟨[.number (-1), .operator .mul], _, rfl, Token.noConfusion⟩

/-- Only the product has more than one token. -/
theorem of_singleton {token : Token} (hu : u.Signed) (h : [token] = before ++ u.tokens ++ after) :
    ∃ x, u = Tree.number x ∧ token = .number x ∧ before = [] ∧ after = [] := by
  cases hu with
  | number x =>
    simp only [tokens, List.append_assoc, List.singleton_append, List.singleton_eq_append_iff] at h
    obtain ⟨hb, hx⟩ | ⟨-, hx⟩ := h
    · cases hx
      exact ⟨x, rfl, rfl, hb, rfl⟩
    · cases hx
  | var name =>
    have hlength := congrArg List.length h
    simp only [tokens, List.length_append, List.length_cons] at hlength
    omega

/-- A signed operand in the tokens of a group is inside of the group. -/
theorem of_group (hu : u.Signed)
    (h : Token.openParen :: ts ++ [Token.closeParen] = before ++ u.tokens ++ after) :
    ∃ vs ws, before = .openParen :: vs ∧ after = ws ++ [Token.closeParen] ∧
      ts = vs ++ u.tokens ++ ws := by
  obtain ⟨rest, last, hrest, hlast⟩ := hu.tokens_eq_concat
  obtain ⟨x, rest', hrest'⟩ := hu.tokens_eq_cons
  cases before with
  | nil =>
    rw [List.nil_append, hrest'] at h
    cases h
  | cons first vs =>
    obtain ⟨rfl, h⟩ := List.cons_eq_cons.1 h
    rcases List.eq_nil_or_concat after with rfl | ⟨ws, token, rfl⟩
    · rw [hrest, List.append_nil, ← List.append_assoc] at h
      cases (List.append_inj' h rfl).2
      exact absurd rfl hlast
    · rw [List.concat_eq_append, ← List.append_assoc] at h
      obtain ⟨hts, htoken⟩ := List.append_inj' h rfl
      cases htoken
      exact ⟨vs, ws, rfl, List.concat_eq_append, (List.cons_eq_cons.1 hts).2⟩

/-- Only the product has an operator inside. -/
theorem of_append (hu : u.Signed) (h : u.tokens = ts ++ Token.operator op :: us) :
    ∃ name, u = binary (.number (-1)) .mul (.var name) ∧ op = .mul ∧ ts = [.number (-1)] ∧
      us = [.var name] := by
  cases hu with
  | number x => simp [tokens, List.singleton_eq_append_iff] at h
  | var name =>
    refine ⟨name, rfl, ?_⟩
    match ts, h with
    | [_], h => cases h; exact ⟨rfl, rfl, rfl⟩
    | [_, _, _], h => cases h
    | _ :: _ :: _ :: _ :: _, h => cases h

end Signed

/-- A signed operand that stands alone may get parentheses of its own. -/
theorem exists_group (hu : u.Signed) (ho : t.Ordered) (h : t.tokens = before ++ u.tokens ++ after)
    (ha : u.StandsAlone before after) :
    ∃ t', t'.tokens = before ++ u.group.tokens ++ after ∧ Replaces vars t t' := by
  induction t generalizing before after with
  | number y =>
    obtain ⟨x, rfl, hx, rfl, rfl⟩ := hu.of_singleton h
    cases hx
    exact ⟨group (.number y), by simp, replaces_group trivial⟩
  | var name =>
    obtain ⟨x, -, hx, -, -⟩ := hu.of_singleton h
    cases hx
  | group inner ih =>
    obtain ⟨vs, ws, rfl, rfl, hin⟩ := hu.of_group h
    obtain ⟨t', ht', hr⟩ := ih ho hin (ha.of_append [.openParen] [.closeParen])
    exact ⟨t'.group, by simp [tokens, ht'], hr.group⟩
  | binary l op r ihl ihr =>
    rw [tokens, List.append_assoc] at h
    obtain ⟨vs, rfl, hr⟩ | ⟨vs, hl, hvs⟩ := append_cons_eq_append h
    · -- The operator stands before the operand.
      rw [← List.append_assoc] at hr
      have ha' : u.StandsAlone vs after := by
        refine StandsAlone.of_append (l.tokens ++ [Token.operator op]) [] ?_
        simpa using ha
      obtain ⟨t', ht', hr'⟩ := ihr ho.2.1 hr ha'
      exact ⟨binary l op t', by simp [tokens, ht'], hr'.right ho⟩
    obtain ⟨ws, hu', hr⟩ | ⟨ws, rfl, rfl⟩ := append_cons_eq_append hvs.symm
    · -- It is the product with minus one.
      obtain ⟨name, rfl, rfl, rfl, rfl⟩ := hu.of_append hu'
      obtain hrank | ⟨hd, hp, hf⟩ := ha
      · cases hrank
      · exact exists_group_product ho hl hr hd hp hf
    · -- It stands after the operand.
      rw [← List.append_assoc] at hl
      obtain ⟨t', ht', hr'⟩ := ihl ho.1 hl (ha.of_append [] (.operator op :: r.tokens))
      exact ⟨binary t' op r, by simp [tokens, ht'], hr'.left ho⟩

end Lemmas

end Tree

end Calculator
