import Mathlib.Data.List.Chain
import Mathlib.Data.List.Induction
import Mathlib.Data.List.Infix
import Calculator.Proofs.Expression.Prefix

/-!
# The rules for the tokens of an expression

The rules name the ends, the neighbours and the parentheses of a token sequence, and nothing of the
grammar. They hold of the tokens of a formula and of no other tokens.

* `Balanced`: the parentheses. `Legal`: all rules.
* `Connected`: what is built from numbers, variables, groups and operators.
* `Legal.startsOperand_eq`: at each place an operand starts exactly if none ends before it.
* `legal_iff_exists_formula`: the rules and the grammar describe the same sequences.
-/

namespace Calculator

/-! ## The rules -/

/-- No parenthesis is closed before it is opened, and in the end all are closed. -/
structure Balanced (ts : List Token) : Prop where
  le : ∀ before, before <+: ts → before.count .closeParen ≤ before.count .openParen
  eq : ts.count .openParen = ts.count .closeParen

/-- The rules for the tokens of an expression. -/
structure Legal (ts : List Token) : Prop where
  ne_nil : ts ≠ []
  head : ∀ op, ts.head? ≠ some (.operator op)
  last : ∀ op, ts.getLast? ≠ some (.operator op)
  /-- No operator follows an operator. -/
  operators : ∀ op op', ¬ [.operator op, .operator op'] <:+: ts
  /-- No operator follows an opening parenthesis. -/
  opening : ∀ op, ¬ [.openParen, .operator op] <:+: ts
  /-- No operator stands before a closing parenthesis. -/
  closing : ∀ op, ¬ [.operator op, .closeParen] <:+: ts
  /-- No group is empty. -/
  groups : ¬ [.openParen, .closeParen] <:+: ts
  /-- No operand follows an operand. -/
  operands : ∀ left right : Token, left.endsOperand = true → right.startsOperand = true →
    ¬ [left, right] <:+: ts
  balanced : Balanced ts

/-! ## Balanced parentheses -/

namespace Balanced

variable {ts us : List Token}

theorem singleton {t : Token} (ho : t ≠ .openParen) (hc : t ≠ .closeParen) : Balanced [t] := by
  refine ⟨fun before hb => ?_, ?_⟩
  · rcases List.prefix_cons_iff.1 hb with rfl | ⟨rest, rfl, hr⟩
    · exact Nat.le_refl _
    · rw [List.prefix_nil.1 hr, List.count_singleton, List.count_singleton]
      simp [ho, hc]
  · rw [List.count_singleton, List.count_singleton]
    simp [ho, hc]

theorem append (ht : Balanced ts) (hu : Balanced us) : Balanced (ts ++ us) := by
  refine ⟨fun before hb => ?_, ?_⟩
  · rcases List.prefix_or_prefix_of_prefix hb (List.prefix_append ts us) with hb' | ⟨before, rfl⟩
    · exact ht.le before hb'
    · have := hu.le before ((List.prefix_append_right_inj ts).1 hb)
      have := ht.eq
      rw [List.count_append, List.count_append]
      omega
  · rw [List.count_append, List.count_append, ht.eq, hu.eq]

theorem group (ht : Balanced ts) : Balanced (.openParen :: ts ++ [.closeParen]) := by
  have hopen : (Token.openParen :: ts).count Token.openParen = ts.count .openParen + 1 :=
    List.count_cons_self
  have hclose : (Token.openParen :: ts).count Token.closeParen = ts.count Token.closeParen :=
    List.count_cons_of_ne (by simp)
  have htotal : (Token.openParen :: ts ++ [Token.closeParen]).count Token.openParen =
      (Token.openParen :: ts ++ [Token.closeParen]).count Token.closeParen := by
    rw [List.count_append, List.count_append, hopen, hclose, ht.eq]
    rfl
  refine ⟨fun before hb => ?_, htotal⟩
  rcases List.prefix_concat_iff.1 hb with rfl | hb
  · exact Nat.le_of_eq htotal.symm
  · rcases List.prefix_cons_iff.1 hb with rfl | ⟨inside, rfl, hi⟩
    · exact Nat.le_refl _
    · have := ht.le inside hi
      rw [List.count_cons_self, List.count_cons_of_ne (by simp)]
      exact Nat.le_succ_of_le this

end Balanced

/-! ## A formula obeys the rules -/

/-- Whether the second token may follow the first: an operand starts exactly where none ends. -/
def Follows (left right : Token) : Prop := right.startsOperand = !left.endsOperand

/-- Tokens that begin and end with an operand and hold together in between. -/
structure Connected (ts : List Token) : Prop where
  head : ∃ t, ts.head? = some t ∧ t.startsOperand = true
  last : ∃ t, ts.getLast? = some t ∧ t.endsOperand = true
  chain : ts.IsChain Follows
  balanced : Balanced ts

namespace Connected

variable {ts us : List Token}

/-- A number or a variable. -/
theorem singleton {t : Token} (hs : t.startsOperand = true) (he : t.endsOperand = true) :
    Connected [t] := by
  refine ⟨⟨t, rfl, hs⟩, ⟨t, rfl, he⟩, .singleton t, .singleton ?_ ?_⟩
  · rintro rfl
    cases he
  · rintro rfl
    cases hs

theorem group (h : Connected ts) : Connected (.openParen :: ts ++ [.closeParen]) := by
  obtain ⟨first, hfirst, hs⟩ := h.head
  obtain ⟨last, hlast, he⟩ := h.last
  refine ⟨⟨_, rfl, rfl⟩, ⟨_, List.getLast?_concat, rfl⟩, ?_, h.balanced.group⟩
  rw [List.cons_append, List.isChain_cons, List.isChain_append]
  refine ⟨fun right hr => ?_, h.chain, .singleton _, fun left hl right hr => ?_⟩
  · rw [List.head?_append, hfirst] at hr
    cases hr
    exact hs
  · rw [hlast] at hl
    cases hl
    cases hr
    rw [Follows, he]
    rfl

theorem binary (ht : Connected ts) (op : Operator) (hu : Connected us) :
    Connected (ts ++ .operator op :: us) := by
  obtain ⟨first, hfirst, hs⟩ := hu.head
  obtain ⟨last, hlast, he⟩ := ht.last
  have hop : Balanced (.operator op :: us) :=
    (Balanced.singleton (t := .operator op) (by simp) (by simp)).append hu.balanced
  refine ⟨?_, ?_, ?_, ht.balanced.append hop⟩
  · obtain ⟨t, h, hs⟩ := ht.head
    exact ⟨t, by rw [List.head?_append, h]; rfl, hs⟩
  · obtain ⟨t, h, he⟩ := hu.last
    exact ⟨t, by rw [List.getLast?_append, List.getLast?_cons, h]; rfl, he⟩
  · rw [List.isChain_append, List.isChain_cons]
    refine ⟨ht.chain, ⟨fun right hr => ?_, hu.chain⟩, fun left hl right hr => ?_⟩
    · rw [hfirst] at hr
      cases hr
      exact hs
    · rw [hlast] at hl
      cases hl
      cases hr
      rw [Follows, he]
      rfl

/-- Tokens that hold together have none of the forbidden neighbours. -/
theorem legal (h : Connected ts) : Legal ts := by
  obtain ⟨first, hfirst, hs⟩ := h.head
  obtain ⟨last, hlast, he⟩ := h.last
  have hpair : ∀ {left right}, [left, right] <:+: ts → Follows left right :=
    fun hi => List.isChain_pair.1 <| List.IsChain.infix h.chain hi
  refine ⟨?_, ?_, ?_, fun _ _ hi => ?_, fun _ hi => ?_, fun _ hi => ?_, fun hi => ?_,
    fun left right hl hr hi => ?_, h.balanced⟩
  · rintro rfl
    cases hfirst
  · intro op ho
    rw [hfirst] at ho
    cases ho
    cases hs
  · intro op ho
    rw [hlast] at ho
    cases ho
    cases he
  · cases hpair hi
  · cases hpair hi
  · cases hpair hi
  · cases hpair hi
  · have := hpair hi
    rw [Follows, hl, hr] at this
    cases this

end Connected

mutual

theorem Operand.connected_tokens (p : Operand) : Connected p.tokens := by
  cases p with
  | number value => exact .singleton rfl rfl
  | var name => exact .singleton rfl rfl
  | group inner => exact inner.connected_tokens.group

theorem Formula.connected_tokens (f : Formula) : Connected f.tokens := by
  cases f with
  | operand first => exact first.connected_tokens
  | binary left op right => exact left.connected_tokens.binary op right.connected_tokens

end

/-! ## What obeys the rules is a formula -/

namespace Legal

variable {ts before : List Token} {t : Token}

/-- An operand starts exactly where none ends. -/
theorem startsOperand_eq (h : Legal ts) (hp : before ++ [t] <+: ts) :
    t.startsOperand = !before.getLast?.any Token.endsOperand := by
  rcases List.eq_nil_or_concat before with rfl | ⟨before, left, rfl⟩
  · -- The first token is no operator, and no parenthesis is closed before it is opened.
    cases t with
    | operator op =>
      obtain ⟨after, rfl⟩ := hp
      exact absurd rfl (h.head op)
    | closeParen =>
      have := h.balanced.le _ hp
      simp at this
    | _ => rfl
  · rw [List.concat_eq_append] at hp ⊢
    have hi : [left, t] <:+: ts := by
      refine List.IsInfix.trans ⟨before, [], ?_⟩ hp.isInfix
      simp
    rw [List.getLast?_concat, Option.any_some]
    cases hl : left.endsOperand with
    | true =>
      cases hs : t.startsOperand with
      | true => exact absurd hi (h.operands left t hl hs)
      | false => rfl
    | false =>
      cases t with
      | operator op =>
        cases left with
        | operator op' => exact absurd hi (h.operators op' op)
        | openParen => exact absurd hi (h.opening op)
        | _ => cases hl
      | closeParen =>
        cases left with
        | operator op => exact absurd hi (h.closing op)
        | openParen => exact absurd hi h.groups
        | _ => cases hl
      | _ => rfl

/-- Every beginning of a legal sequence is the beginning of a formula. -/
theorem prefix_before (h : Legal ts) (hp : before <+: ts) :
    Prefix (before.getLast?.any Token.endsOperand)
      (before.count .openParen - before.count .closeParen) before := by
  induction before using List.reverseRecOn with
  | nil => exact .nil
  | append_singleton before t ih =>
    have hb : before <+: ts := (List.prefix_append before [t]).trans hp
    have hpre := ih hb
    have hs := h.startsOperand_eq hp
    have hle := h.balanced.le before hb
    have hle' := h.balanced.le _ hp
    rw [List.count_append, List.count_append] at hle' ⊢
    rw [List.getLast?_concat]
    cases hcomplete : before.getLast?.any Token.endsOperand with
    | true =>
      rw [hcomplete] at hpre hs
      cases t with
      | operator op => simpa [Token.endsOperand] using hpre.operator op
      | closeParen =>
        have hcount : before.count .openParen - before.count .closeParen =
            before.count .openParen - (before.count .closeParen + 1) + 1 := by
          simp at hle'
          omega
        rw [hcount] at hpre
        simpa [Token.endsOperand] using hpre.closeParen
      | _ => cases hs
    | false =>
      rw [hcomplete] at hpre hs
      cases t with
      | number value =>
        simpa [Token.endsOperand, Operand.tokens] using hpre.operand (.number value)
      | var name => simpa [Token.endsOperand, Operand.tokens] using hpre.operand (.var name)
      | openParen =>
        have hcount : before.count .openParen + 1 - before.count .closeParen =
            before.count .openParen - before.count .closeParen + 1 := by omega
        simpa [Token.endsOperand, hcount] using hpre.openParen
      | _ => cases hs

theorem endsOperand_getLast? (h : Legal ts) : ts.getLast?.any Token.endsOperand = true := by
  rcases List.eq_nil_or_concat ts with rfl | ⟨before, t, rfl⟩
  · exact absurd rfl h.ne_nil
  · rw [List.concat_eq_append] at h ⊢
    rw [List.getLast?_concat]
    cases t with
    | operator op => exact absurd List.getLast?_concat (h.last op)
    | openParen =>
      have := h.balanced.le before (List.prefix_append before _)
      have := h.balanced.eq
      simp at this
      omega
    | _ => rfl

end Legal

/-- The token sequences that obey the rules are those of the formulas. -/
theorem legal_iff_exists_formula {ts : List Token} :
    Legal ts ↔ ∃ f : Formula, f.tokens = ts := by
  constructor
  · intro h
    have hpre := h.prefix_before List.prefix_rfl
    rw [h.endsOperand_getLast?, h.balanced.eq, Nat.sub_self] at hpre
    obtain ⟨f, hf⟩ := hpre.exists_formula
    exact ⟨f, hf.trans (List.append_nil ts)⟩
  · rintro ⟨f, rfl⟩
    exact f.connected_tokens.legal

end Calculator
