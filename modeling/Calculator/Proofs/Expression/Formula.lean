import Calculator.Evaluation

/-!
# The grammar of expressions

`E ::= P (op P)*` and `P ::= Number | Variable | '(' E ')'`. A `Formula` is a derivation in this
grammar, without any precedence; its `Formula.tree` is the precedence tree: operators are taken
from left to right, and each goes below those on the right edge that bind less tightly.

* `Formula.ordered_tree`: in a precedence tree no operator stands below one that binds more
  tightly, and operators of one level lean to the left.
* `Formula.tokens_tree`, `Formula.depth_tree`: a formula and its tree are the same text.
* `Tree.Ordered.exists_formula`: every tree in this order is the precedence tree of a formula.
-/

namespace Calculator

mutual

/-- `P ::= Number | Variable | '(' E ')'`. -/
inductive Operand where
  | number (value : Float)
  | var (name : Char)
  | group (inner : Formula)

/-- `E ::= P (op P)*`, from left to right. -/
inductive Formula where
  | operand (first : Operand)
  | binary (left : Formula) (op : Operator) (right : Operand)

end

mutual

/-- The tokens that an operand is written as. -/
def Operand.tokens : Operand → List Token
  | .number value => [.number value]
  | .var name => [.var name]
  | .group inner => .openParen :: inner.tokens ++ [.closeParen]

/-- The tokens that a formula is written as. -/
def Formula.tokens : Formula → List Token
  | .operand first => first.tokens
  | .binary left op right => left.tokens ++ .operator op :: right.tokens

end

mutual

/-- How deeply groups nest in an operand. -/
def Operand.depth : Operand → Nat
  | .number _ | .var _ => 0
  | .group inner => inner.depth + 1

/-- How deeply groups nest in a formula. -/
def Formula.depth : Formula → Nat
  | .operand first => first.depth
  | .binary left _ right => max left.depth right.depth

end

/-- A formula as a tree: the operands of an operator stand below it. -/
inductive Tree where
  | number (value : Float)
  | var (name : Char)
  | group (inner : Tree)
  | binary (left : Tree) (op : Operator) (right : Tree)

namespace Tree

/-- The tokens of a tree, read from left to right. -/
def tokens : Tree → List Token
  | number value => [.number value]
  | var name => [.var name]
  | group inner => .openParen :: inner.tokens ++ [.closeParen]
  | binary left op right => left.tokens ++ .operator op :: right.tokens

/-- How deeply groups nest in a tree. -/
def depth : Tree → Nat
  | number _ | var _ => 0
  | group inner => inner.depth + 1
  | binary left _ right => max left.depth right.depth

/-- The value of a tree. Each operator applies to the values of its two sides, and a side without
a value leaves the whole without one. -/
def eval (vars : Variables) : Tree → Except EvalError Float
  | number value => .ok value
  | var name =>
    match vars.get? name with
    | some value => .ok value
    | none => .error (.unbound name)
  | group inner => inner.eval vars
  | binary left op right => do
    let x ← left.eval vars
    let y ← right.eval vars
    op.apply x y

/-- How loosely a tree hangs together at its top: zero for an operand, else one more than the place
of the operator's level. -/
def rank : Tree → Nat
  | number _ | var _ | group _ => 0
  | binary _ op _ => op.precedence.index + 1

/-- Left of an operator stands nothing that binds less tightly, and right of it only what binds
more tightly. -/
def Ordered : Tree → Prop
  | number _ | var _ => True
  | group inner => inner.Ordered
  | binary left op right =>
    left.Ordered ∧ right.Ordered ∧ left.rank ≤ op.precedence.index + 1 ∧
      right.rank ≤ op.precedence.index

/-- Adds an operator and its right operand at the right end. The operator takes as its left operand
what binds at least as tightly as itself. -/
def append : Tree → Operator → Tree → Tree
  | binary left op right, op', operand =>
    if op'.precedence.index < op.precedence.index then
      binary left op (right.append op' operand)
    else
      binary (binary left op right) op' operand
  | t, op', operand => binary t op' operand

end Tree

mutual

/-- The tree of an operand. -/
def Operand.tree : Operand → Tree
  | .number value => .number value
  | .var name => .var name
  | .group inner => .group inner.tree

/-- The precedence tree of a formula. -/
def Formula.tree : Formula → Tree
  | .operand first => first.tree
  | .binary left op right => left.tree.append op right.tree

end

namespace Tree

variable {t u : Tree} {op : Operator}

theorem append_of_rank_le (h : t.rank ≤ op.precedence.index + 1) (u : Tree) :
    t.append op u = binary t op u := by
  cases t with
  | binary left op' right =>
    simp only [rank] at h
    rw [append, if_neg (by omega)]
  | _ => rfl

theorem tokens_append (t : Tree) (op : Operator) (u : Tree) :
    (t.append op u).tokens = t.tokens ++ .operator op :: u.tokens := by
  induction t with
  | binary left op' right _ ih =>
    rw [append]
    split
    · simp [tokens, ih]
    · simp [tokens]
  | _ => rfl

theorem depth_append (t : Tree) (op : Operator) (u : Tree) :
    (t.append op u).depth = max t.depth u.depth := by
  induction t with
  | binary left op' right _ ih =>
    rw [append]
    split
    · simp [depth, ih, Nat.max_assoc]
    · simp [depth]
  | _ => rfl

theorem rank_append (t : Tree) (op : Operator) (u : Tree) :
    (t.append op u).rank = max t.rank (op.precedence.index + 1) := by
  cases t with
  | binary left op' right =>
    rw [append]
    split
    · simp only [rank]; omega
    · simp only [rank]; omega
  | _ => simp [append, rank]

/-- An operator and an operand at the right end leave the order in place. -/
theorem Ordered.append (ht : t.Ordered) (hu : u.Ordered) (h0 : u.rank = 0) :
    (t.append op u).Ordered := by
  induction t with
  | binary left op' right _ ih =>
    obtain ⟨hl, hr, hlr, hrr⟩ := ht
    rw [Tree.append]
    split
    · refine ⟨hl, ih hr, hlr, ?_⟩
      rw [rank_append]; omega
    · refine ⟨⟨hl, hr, hlr, hrr⟩, hu, ?_, by omega⟩
      simp only [rank]; omega
  | number _ => exact ⟨trivial, hu, by simp [rank], by omega⟩
  | var _ => exact ⟨trivial, hu, by simp [rank], by omega⟩
  | group _ => exact ⟨ht, hu, by simp [rank], by omega⟩

end Tree

theorem Operand.rank_tree (p : Operand) : p.tree.rank = 0 := by
  cases p <;> rfl

mutual

theorem Operand.tokens_tree (p : Operand) : p.tree.tokens = p.tokens := by
  cases p with
  | number _ => rfl
  | var _ => rfl
  | group inner => rw [Operand.tree, Tree.tokens, Formula.tokens_tree, Operand.tokens]

theorem Formula.tokens_tree (f : Formula) : f.tree.tokens = f.tokens := by
  cases f with
  | operand first => exact first.tokens_tree
  | binary left op right =>
    rw [Formula.tree, Tree.tokens_append, Formula.tokens_tree, Operand.tokens_tree, Formula.tokens]

end

mutual

theorem Operand.depth_tree (p : Operand) : p.tree.depth = p.depth := by
  cases p with
  | number _ => rfl
  | var _ => rfl
  | group inner => rw [Operand.tree, Tree.depth, Formula.depth_tree, Operand.depth]

theorem Formula.depth_tree (f : Formula) : f.tree.depth = f.depth := by
  cases f with
  | operand first => exact first.depth_tree
  | binary left op right =>
    rw [Formula.tree, Tree.depth_append, Formula.depth_tree, Operand.depth_tree, Formula.depth]

end

mutual

theorem Operand.ordered_tree (p : Operand) : p.tree.Ordered := by
  cases p with
  | number _ => trivial
  | var _ => trivial
  | group inner => exact inner.ordered_tree

theorem Formula.ordered_tree (f : Formula) : f.tree.Ordered := by
  cases f with
  | operand first => exact first.ordered_tree
  | binary left op right => exact left.ordered_tree.append right.ordered_tree right.rank_tree

end

namespace Formula

/-- Two formulas with an operator between them. -/
def join (left : Formula) (op : Operator) : Formula → Formula
  | operand first => binary left op first
  | binary right op' last => binary (left.join op right) op' last

/-- Where the operator of a join binds as in an ordered tree, it is at the top of the tree. -/
theorem tree_join {left right : Formula} {op : Operator}
    (hl : left.tree.rank ≤ op.precedence.index + 1) (hr : right.tree.rank ≤ op.precedence.index) :
    (left.join op right).tree = .binary left.tree op right.tree := by
  cases right with
  | operand first => exact Tree.append_of_rank_le hl _
  | binary right op' last =>
    rw [tree, Tree.rank_append] at hr
    rw [join, tree, tree_join hl (by omega), Tree.append, if_pos (by omega), tree]

end Formula

/-- Every ordered tree is the precedence tree of a formula. -/
theorem Tree.Ordered.exists_formula {t : Tree} (h : t.Ordered) : ∃ f : Formula, f.tree = t := by
  induction t with
  | number value => exact ⟨.operand (.number value), rfl⟩
  | var name => exact ⟨.operand (.var name), rfl⟩
  | group inner ih =>
    obtain ⟨f, rfl⟩ := ih h
    exact ⟨.operand (.group f), rfl⟩
  | binary left op right ihl ihr =>
    obtain ⟨hl, hr, hlr, hrr⟩ := h
    obtain ⟨f, rfl⟩ := ihl hl
    obtain ⟨g, rfl⟩ := ihr hr
    exact ⟨f.join op g, Formula.tree_join hlr hrr⟩

end Calculator
