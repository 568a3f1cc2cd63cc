import Mathlib.Data.List.Basic
import Mathlib.Data.Nat.PSub
import Calculator.Proofs.Evaluation.Level

/-!
# A pass in place

A pass can be made on one list with a place in it. A round looks at the term there: it moves on by
one, or it writes the result of an operator over the number before the place, takes the operator and
the number after it out of the list, and steps back by one.

Each access is checked: `Cursor.round` is `none` if a term is read, written or taken out that is not
there, or if a place below the first is asked for. No round ever is.

* `Cursor.round_of_ne`, `Cursor.round_of_number`, `Cursor.round_of_missing`: what a round does.
* `Cursor.exists_round`: before the last term a round is possible, it leaves one term less to look
  at, and it changes nothing about what the pass makes.
* `Cursor.run_eq`: the rounds end, with what the pass makes.
* `precedence_ne_of_applyLevelFrom`, `length_of_applyLevelFrom`, `filter_of_applyLevelFrom`: what a
  pass leaves of a list.
* `applyLevel_inPlace`: all of this together, for every level and every list.
-/

namespace Calculator

/-- A list of terms and a place in it. -/
structure Cursor where
  terms : List Term
  index : Nat
  deriving DecidableEq

namespace Cursor

/-- Writes a term over the one at a place, if there is one. -/
def write? (terms : List Term) (i : Nat) (term : Term) : Option (List Term) :=
  if i < terms.length then some (terms.set i term) else none

/-- Takes out the terms from the place `start` on and before the place `stop`, if both are in the
list or at its end. -/
def drain? (terms : List Term) (start stop : Nat) : Option (List Term) :=
  if start ≤ stop ∧ stop ≤ terms.length then some (terms.take start ++ terms.drop stop) else none

/-- One round of a pass. -/
def round (level : Precedence) (c : Cursor) : Option (Except EvalError Cursor) := do
  match ← c.terms[c.index]? with
  | .operator op =>
    if op.precedence = level then
      let left ← match c.index.ppred with
        | some i => (c.terms[i]?).map some
        | none => some none
      let right ← c.terms[c.index + 1]?
      match left, right with
      | some (.number x), .number y =>
        match op.apply x y with
        | .ok value =>
          let written ← write? c.terms (← c.index.ppred) (.number value)
          let drained ← drain? written c.index (c.index + 2)
          some (.ok ⟨drained, ← c.index.ppred⟩)
        | .error e => some (.error e)
      | _, _ => some (.error (.missingOperand op))
    else
      some (.ok ⟨c.terms, c.index + 1⟩)
  | _ => some (.ok ⟨c.terms, c.index + 1⟩)

/-- How many terms a pass has to look at, the one at the place among them. -/
def remaining (c : Cursor) : Nat := c.terms.length - c.index

/-- What a pass makes of a list from a place on. -/
def finish (level : Precedence) (c : Cursor) : Except EvalError (List Term) :=
  applyLevelFrom level (c.terms.take c.index).reverse (c.terms.drop c.index)

/-- The place between two parts of a list, the first part given from its end. -/
def ofParts (left rest : List Term) : Cursor := ⟨left.reverse ++ rest, left.length⟩

@[simp]
theorem remaining_ofParts (left rest : List Term) :
    (ofParts left rest).remaining = rest.length := by
  simp [remaining, ofParts]

@[simp]
theorem finish_ofParts (level : Precedence) (left rest : List Term) :
    (ofParts left rest).finish level = applyLevelFrom level left rest := by
  have htake := @List.take_left _ left.reverse rest
  have hdrop := @List.drop_left _ left.reverse rest
  rw [List.length_reverse] at htake hdrop
  rw [finish, ofParts, htake, hdrop, List.reverse_reverse]

/-- A place before the last term has a part before it and two terms from it on. -/
theorem exists_ofParts {c : Cursor} (h : c.index + 1 < c.terms.length) :
    ∃ left term next rest, c = ofParts left (term :: next :: rest) := by
  have hi : c.index < c.terms.length := by omega
  refine ⟨(c.terms.take c.index).reverse, c.terms[c.index], c.terms[c.index + 1],
    c.terms.drop (c.index + 2), ?_⟩
  rw [← List.drop_eq_getElem_cons h, ← List.drop_eq_getElem_cons hi, ofParts,
    List.reverse_reverse, List.take_append_drop, List.length_reverse,
    List.length_take_of_le (Nat.le_of_lt hi)]

/-! ## A round -/

section Rounds

variable {level : Precedence} {left rest : List Term} {term next : Term} {op : Operator}

@[simp]
theorem getElem?_after (left rest : List Term) (i : Nat) :
    (left.reverse ++ rest)[left.length + i]? = rest[i]? := by
  rw [List.getElem?_append_right (by simp)]
  simp

@[simp]
theorem getElem?_after_two (left rest : List Term) (term a b : Term) :
    (left.reverse ++ term :: a :: b :: rest)[left.length + 1 + 1]? = some b :=
  getElem?_after left (term :: a :: b :: rest) 2

@[simp]
theorem write?_here (left rest : List Term) (term new : Term) :
    write? (left.reverse ++ term :: rest) left.length new = some (left.reverse ++ new :: rest) := by
  simp [write?]

@[simp]
theorem drain?_after (left rest : List Term) (term a b : Term) :
    drain? (left.reverse ++ term :: a :: b :: rest) (left.length + 1) (left.length + 1 + 2) =
      some (left.reverse ++ term :: rest) := by
  have hstart := @List.take_length_add_append _ left.reverse (term :: a :: b :: rest) 1
  have hstop := @List.drop_length_add_append _ left.reverse (term :: a :: b :: rest) 3
  rw [List.length_reverse] at hstart hstop
  rw [drain?, if_pos ⟨by omega, by simp; omega⟩, hstart, Nat.add_assoc, hstop]
  simp

/-- A round moves past a term that is no operator of the level. -/
theorem round_of_ne (h : ∀ op, term = .operator op → op.precedence ≠ level) :
    (ofParts left (term :: rest)).round level = some (.ok (ofParts (term :: left) rest)) := by
  cases term with
  | operator op => simp [round, ofParts, h op rfl]
  | _ => simp [round, ofParts]

/-- A round applies an operator of the level between two numbers. -/
theorem round_of_number (h : op.precedence = level) (x y : Float) :
    (ofParts (.number x :: left) (.operator op :: .number y :: rest)).round level =
      some ((op.apply x y).map fun value => ofParts left (.number value :: rest)) := by
  cases hv : op.apply x y with
  | error e => simp [round, ofParts, h, hv, Nat.ppred_succ, Except.map]
  | ok value => simp [round, ofParts, h, hv, Nat.ppred_succ, Except.map]

/-- A round fails on an operator of the level that lacks a number on one of its sides. -/
theorem round_of_missing (h : op.precedence = level)
    (hn : ∀ x y left', left = .number x :: left' → next ≠ .number y) :
    (ofParts left (.operator op :: next :: rest)).round level =
      some (.error (.missingOperand op)) := by
  cases left with
  | nil => simp [round, ofParts, h]
  | cons last left =>
    cases last with
    | number x =>
      cases next with
      | number y => exact absurd rfl (hn x y left rfl)
      | _ => simp [round, ofParts, h, Nat.ppred_succ]
    | _ => simp [round, ofParts, h, Nat.ppred_succ]

/-- Before the last term a round is possible. It leaves one term less to look at, and it changes
nothing about what the pass makes. -/
theorem exists_round (level : Precedence) {c : Cursor} (h : c.index + 1 < c.terms.length) :
    ∃ r, c.round level = some r ∧ (∀ c', r = .ok c' → c'.remaining + 1 = c.remaining) ∧
      r >>= finish level = c.finish level := by
  obtain ⟨left, term, next, rest, rfl⟩ := exists_ofParts h
  rw [finish_ofParts]
  by_cases hlevel : ∃ op, term = .operator op ∧ op.precedence = level
  · obtain ⟨op, rfl, hop⟩ := hlevel
    by_cases hn : ∃ x y left', left = .number x :: left' ∧ next = .number y
    · -- The place steps back onto the result, and only the rest follows it.
      obtain ⟨x, y, left, rfl, rfl⟩ := hn
      refine ⟨_, round_of_number hop x y, ?_⟩
      rw [applyLevelFrom_operator_of_eq hop]
      cases op.apply x y with
      | error e => exact ⟨fun _ hc => (by cases hc), rfl⟩
      | ok value =>
        refine ⟨fun c' hc => ?_, ?_⟩
        · cases hc
          simp
        · exact (finish_ofParts ..).trans (applyLevelFrom_number value left rest)
    · have hn' : ∀ x y left', left = .number x :: left' → next ≠ .number y :=
        fun x y left' hl hy => hn ⟨x, y, left', hl, hy⟩
      refine ⟨_, round_of_missing hop hn', fun _ hc => (by cases hc), ?_⟩
      exact (applyLevelFrom_operator_of_missing hop hn' rest).symm
  · have hne : ∀ op, term = .operator op → op.precedence ≠ level :=
      fun op ht ho => hlevel ⟨op, ht, ho⟩
    refine ⟨_, round_of_ne hne, fun c' hc => ?_, ?_⟩
    · cases hc
      simp
    · exact (finish_ofParts ..).trans (applyLevelFrom_of_ne hne left _).symm

theorem remaining_of_round {c c' : Cursor} (h : c.index + 1 < c.terms.length)
    (hr : c.round level = some (.ok c')) : c'.remaining + 1 = c.remaining := by
  obtain ⟨r, hr', hc, -⟩ := exists_round level h
  rw [hr'] at hr
  exact hc c' (Option.some.inj hr)

end Rounds

/-! ## All rounds -/

/-- The rounds of a pass, until the place is at the last term or at the end. -/
def run (level : Precedence) (c : Cursor) : Option (Except EvalError (List Term)) :=
  if h : c.index + 1 < c.terms.length then
    match hr : c.round level with
    | none => none
    | some (.error e) => some (.error e)
    | some (.ok c') =>
      have : c'.remaining < c.remaining := by have := remaining_of_round h hr; omega
      c'.run level
  else
    some (.ok c.terms)
termination_by c.remaining

/-- From its last term on, a list stays as it is. -/
theorem finish_of_not_lt (level : Precedence) {c : Cursor} (h : ¬ c.index + 1 < c.terms.length) :
    c.finish level = .ok c.terms := by
  have hlen : (c.terms.drop c.index).length ≤ 1 := by
    rw [List.length_drop]
    omega
  rw [finish]
  match hd : c.terms.drop c.index with
  | [] =>
    rw [applyLevelFrom, List.reverse_reverse, List.take_of_length_le (List.drop_eq_nil_iff.1 hd)]
  | [last] =>
    rw [applyLevelFrom, List.reverse_cons, List.reverse_reverse, ← hd, List.take_append_drop]
  | _ :: _ :: _ => simp [hd] at hlen

/-- The rounds make what the pass makes, from every place on. -/
theorem run_eq (level : Precedence) (c : Cursor) : c.run level = some (c.finish level) := by
  induction hn : c.remaining using Nat.strongRecOn generalizing c with
  | ind n ih =>
    rw [run]
    by_cases h : c.index + 1 < c.terms.length
    · obtain ⟨r, hr, hc, hf⟩ := exists_round level h
      rw [dif_pos h, ← hf]
      split
      · next hr' => simp [hr'] at hr
      · next e hr' =>
        cases hr.symm.trans hr'
        rfl
      · next c' hr' =>
        cases hr.symm.trans hr'
        have hc' := hc c' rfl
        exact ih c'.remaining (by omega) c' rfl
    · rw [dif_neg h, finish_of_not_lt level h]

end Cursor

/-! ## What a pass leaves -/

/-- Neither a number nor an operator of the level. -/
def Term.isBystander (level : Precedence) : Term → Bool
  | .number _ => false
  | .operator op => op.precedence != level
  | .openParen | .closeParen => true

section Results

variable {level : Precedence} {left terms result : List Term}

/-- Before its last term, what a pass leaves has no operator of the level. -/
theorem precedence_ne_of_applyLevelFrom (h : applyLevelFrom level left terms = .ok result)
    (hl : ∀ op, .operator op ∈ left → op.precedence ≠ level) :
    ∀ op, .operator op ∈ result.dropLast → op.precedence ≠ level := by
  fun_induction applyLevelFrom level left terms with
  | case1 left =>
    cases h
    exact fun op hm => hl op (List.mem_reverse.1 ((List.dropLast_sublist _).mem hm))
  | case2 left last =>
    cases h
    rw [List.reverse_cons, List.dropLast_concat]
    exact fun op hm => hl op (List.mem_reverse.1 hm)
  | case3 rest op hop x left y ih =>
    obtain ⟨z, -, h⟩ := Except.bind_eq_ok.1 h
    refine ih z h fun op' hm => hl op' ?_
    simpa using hm
  | case4 => cases h
  | case5 left next rest op hop ih =>
    refine ih h fun op' hm => ?_
    rcases List.mem_cons.1 hm with ho | hm
    · cases ho
      exact hop
    · exact hl op' hm
  | case6 left term next rest hterm ih =>
    refine ih h fun op' hm => ?_
    rcases List.mem_cons.1 hm with ho | hm
    · exact absurd ho.symm (hterm op')
    · exact hl op' hm

/-- A pass takes out two terms at a time. -/
theorem length_of_applyLevelFrom (h : applyLevelFrom level left terms = .ok result) :
    ∃ n, left.length + terms.length = result.length + 2 * n := by
  fun_induction applyLevelFrom level left terms with
  | case1 => cases h; exact ⟨0, by simp⟩
  | case2 => cases h; exact ⟨0, by simp⟩
  | case3 rest op hop x left y ih =>
    obtain ⟨z, -, h⟩ := Except.bind_eq_ok.1 h
    obtain ⟨n, hn⟩ := ih z h
    simp only [List.length_cons] at hn ⊢
    exact ⟨n + 1, by omega⟩
  | case4 => cases h
  | case5 _ _ _ _ _ ih | case6 _ _ _ _ _ ih =>
    obtain ⟨n, hn⟩ := ih h
    simp only [List.length_cons] at hn ⊢
    exact ⟨n, by omega⟩

/-- A pass leaves the bystanders as they are, in their order. -/
theorem filter_of_applyLevelFrom (h : applyLevelFrom level left terms = .ok result) :
    result.filter (Term.isBystander level) =
      (left.reverse ++ terms).filter (Term.isBystander level) := by
  fun_induction applyLevelFrom level left terms with
  | case1 => cases h; simp
  | case2 => cases h; simp
  | case3 rest op hop x left y ih =>
    obtain ⟨z, -, h⟩ := Except.bind_eq_ok.1 h
    simpa [Term.isBystander, hop] using ih z h
  | case4 => cases h
  | case5 _ _ _ _ _ ih | case6 _ _ _ _ _ ih => simpa using ih h

end Results

/-- A pass over a level is safe on every list of terms. Made in place, its rounds are all possible,
each leaves one term less to look at, and together they make what the pass makes. Where that is a
list, it has no operator of the level but perhaps its last term, as many terms as the given list or
fewer by an even number, and the same bystanders. Where it is an error, an operator of the level
lacks an operand or has no value. -/
theorem applyLevel_inPlace (level : Precedence) (terms : List Term) :
    (∀ c : Cursor, c.index + 1 < c.terms.length → ∃ r, c.round level = some r ∧
      ∀ c', r = .ok c' → c'.remaining + 1 = c.remaining) ∧
    Cursor.run level ⟨terms, 0⟩ = some (applyLevel level terms) ∧
    (∀ result, applyLevel level terms = .ok result →
      (∀ op, .operator op ∈ result.dropLast → op.precedence ≠ level) ∧
      result.length ≤ terms.length ∧ result.length % 2 = terms.length % 2 ∧
      result.filter (Term.isBystander level) = terms.filter (Term.isBystander level)) ∧
    ∀ e, applyLevel level terms = .error e →
      ∃ op, .operator op ∈ terms ∧ op.precedence = level ∧ (e = .missingOperand op ∨
        ∃ x y, op.apply x y = .error e ∧
          (e = .divisionByZero ∨ e = .overflow x y ∨ e = .noRealResult x y)) := by
  refine ⟨fun c hc => ?_, ?_, fun result h => ?_, fun e h => ?_⟩
  · obtain ⟨r, hr, hr', -⟩ := Cursor.exists_round level hc
    exact ⟨r, hr, hr'⟩
  · rw [Cursor.run_eq]
    rfl
  · obtain ⟨n, hn⟩ := length_of_applyLevelFrom h
    rw [List.length_nil, Nat.zero_add] at hn
    exact ⟨precedence_ne_of_applyLevelFrom h (by simp), by omega, by omega,
      filter_of_applyLevelFrom h⟩
  · obtain ⟨op, hm, hop, he⟩ := applyLevelFrom_eq_error h
    refine ⟨op, hm, hop, he.imp_right ?_⟩
    rintro ⟨x, y, hxy⟩
    exact ⟨x, y, hxy, Operator.apply_eq_error hxy⟩

/-- The last one of the first terms is an operator of the level that no round looks at. The operator
of the other terms has nothing on its left. -/
theorem applyLevel_inPlace_ends :
    let terms : List Term :=
      [.number 2, .operator .mul, .number 3, .operator .add, .openParen, .operator .div]
    let result : List Term := [.number 6, .operator .add, .openParen, .operator .div]
    let others : List Term := [.operator .div, .number 1]
    (∃ r, Cursor.round .product ⟨terms, 1⟩ = some r ∧ ∀ c', r = .ok c' → c'.remaining + 1 = 5) ∧
    Cursor.run .product ⟨terms, 0⟩ = some (.ok result) ∧
    (∀ op, .operator op ∈ result.dropLast → op.precedence ≠ .product) ∧
    result.length % 2 = terms.length % 2 ∧
    result.filter (Term.isBystander .product) = terms.filter (Term.isBystander .product) ∧
    Cursor.run .product ⟨others, 0⟩ = some (.error (.missingOperand .div)) ∧
    ∃ op, .operator op ∈ others ∧ op.precedence = .product ∧
      (EvalError.missingOperand .div = .missingOperand op ∨ ∃ x y,
        op.apply x y = .error (.missingOperand .div) ∧
          (EvalError.missingOperand .div = .divisionByZero ∨
            EvalError.missingOperand .div = .overflow x y ∨
            EvalError.missingOperand .div = .noRealResult x y)) := by
  intro terms result others
  have hresult : applyLevel .product terms = .ok result := by decide +kernel
  have herror : applyLevel .product others = .error (.missingOperand .div) := by decide +kernel
  obtain ⟨hround, hrun, hok, -⟩ := applyLevel_inPlace .product terms
  obtain ⟨hop, -, hlength, hfilter⟩ := hok result hresult
  obtain ⟨-, hothers, -, hreason⟩ := applyLevel_inPlace .product others
  exact ⟨hround ⟨terms, 1⟩ (by decide), hrun.trans (congrArg some hresult), hop, hlength, hfilter,
    hothers.trans (congrArg some herror), hreason _ herror⟩

end Calculator
