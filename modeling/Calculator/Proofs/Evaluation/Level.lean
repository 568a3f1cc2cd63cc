import Calculator.Proofs.Except
import Calculator.Proofs.Expression.Formula

/-!
# One level of operators on a tree

The passes over the levels work on a tree from its tight ends upwards. `Stage vars k t terms` tells
that `terms` is what the passes over the first `k` levels make of the tree `t`: every part that
hangs together by these levels alone is one number, its value.

* `applyLevelFrom_stage`: the pass over the next level takes a tree to its next stage, or it fails
  on an operator inside that has no value, and then the tree has no value either.
* `Stage.eq_number`: a tree whose levels have all been passed over is one number.
-/

namespace Calculator

/-- The errors that no expression read from a line can meet. -/
def EvalError.IsInternal : EvalError → Prop
  | .unbound _ | .missingOperand _ | .unmatchedParen | .leftover _ => True
  | .divisionByZero | .overflow .. | .noRealResult .. | .tooDeep _ => False

/-- The reasons for which an operator that has both operands fails. -/
theorem Operator.apply_eq_error {op : Operator} {x y : Float} {e : EvalError}
    (h : op.apply x y = .error e) :
    e = .divisionByZero ∨ e = .overflow x y ∨ e = .noRealResult x y := by
  cases op with
  | div =>
    simp only [apply, quotient] at h
    split at h <;> cases h
    exact .inl rfl
  | pow =>
    simp only [apply, power] at h
    split at h
    · cases h; exact .inl rfl
    · split at h
      · split at h
        · cases h; exact .inr (.inr rfl)
        · split at h <;> cases h
          exact .inr (.inl rfl)
      · cases h
  | _ => cases h

/-- An operator that has both operands fails for an arithmetic reason only. -/
theorem Operator.not_isInternal_of_apply {op : Operator} {x y : Float} {e : EvalError}
    (h : op.apply x y = .error e) : ¬ e.IsInternal := by
  rcases apply_eq_error h with rfl | rfl | rfl <;> exact id

theorem Precedence.index_injective {p q : Precedence} (h : p.index = q.index) : p = q := by
  cases p <;> cases q <;> first | rfl | cases h

theorem Precedence.index_lt (p : Precedence) : p.index < 3 := by
  cases p <;> decide

/-- The tree has no value. -/
def Tree.Fails (vars : Variables) (t : Tree) : Prop := ∃ e, t.eval vars = .error e

theorem Tree.Fails.left {vars : Variables} {l : Tree} (h : l.Fails vars) (op : Operator)
    (r : Tree) : (binary l op r).Fails vars := by
  obtain ⟨e, he⟩ := h
  exact ⟨e, by rw [eval, he]; rfl⟩

theorem Tree.Fails.right {vars : Variables} {r : Tree} (h : r.Fails vars) (l : Tree)
    (op : Operator) : (binary l op r).Fails vars := by
  obtain ⟨e, he⟩ := h
  unfold Fails
  rw [eval]
  cases l.eval vars with
  | ok x => exact ⟨e, by rw [he]; rfl⟩
  | error e' => exact ⟨e', rfl⟩

/-- The tree `t` after the passes over the first `k` levels. -/
inductive Stage (vars : Variables) (k : Nat) : Tree → List Term → Prop
  | value {t : Tree} {x : Float} (ht : t.rank ≤ k) (hx : t.eval vars = .ok x) :
    Stage vars k t [.number x]
  | binary {l r : Tree} {op : Operator} {ts us : List Term} (hop : k ≤ op.precedence.index)
    (hl : Stage vars k l ts) (hr : Stage vars k r us) :
    Stage vars k (.binary l op r) (ts ++ .operator op :: us)

section Passes

variable {vars : Variables} {k : Nat} {t : Tree} {ts : List Term} {level : Precedence}

theorem Stage.eq_number (h : Stage vars k t ts) (ht : t.rank ≤ k) :
    ∃ x, ts = [.number x] ∧ t.eval vars = .ok x := by
  cases h with
  | value _ hx => exact ⟨_, rfl, hx⟩
  | binary hop _ _ =>
    simp only [Tree.rank] at ht
    omega

/-- A pass leaves a term where it is that is no operator of its level. -/
theorem applyLevelFrom_of_ne {term : Term}
    (h : ∀ op, term = .operator op → op.precedence ≠ level) (left rest : List Term) :
    applyLevelFrom level left (term :: rest) = applyLevelFrom level (term :: left) rest := by
  cases rest with
  | nil => rfl
  | cons next rest =>
    cases term with
    | operator op => simp [applyLevelFrom, h op rfl]
    | _ => rfl

theorem applyLevelFrom_number (x : Float) (left rest : List Term) :
    applyLevelFrom level left (.number x :: rest) =
      applyLevelFrom level (.number x :: left) rest :=
  applyLevelFrom_of_ne (fun _ hx => by cases hx) left rest

theorem applyLevelFrom_operator_of_ne {op : Operator} (h : op.precedence ≠ level)
    (left : List Term) (rest : List Term) :
    applyLevelFrom level left (.operator op :: rest) =
      applyLevelFrom level (.operator op :: left) rest :=
  applyLevelFrom_of_ne (fun _ hop => Term.operator.inj hop ▸ h) left rest

/-- An operator of the level takes the number before it and the number after it. -/
theorem applyLevelFrom_operator_of_eq {op : Operator} (h : op.precedence = level) (x y : Float)
    (left rest : List Term) :
    applyLevelFrom level (.number x :: left) (.operator op :: .number y :: rest) =
      op.apply x y >>= fun z => applyLevelFrom level (.number z :: left) rest := by
  rw [applyLevelFrom, if_pos h]

/-- A pass fails on an operator of its level that lacks a number on one of its sides. -/
theorem applyLevelFrom_operator_of_missing {op : Operator} {left : List Term} {next : Term}
    (h : op.precedence = level)
    (hn : ∀ x y left', left = .number x :: left' → next ≠ .number y) (rest : List Term) :
    applyLevelFrom level left (.operator op :: next :: rest) = .error (.missingOperand op) := by
  rw [applyLevelFrom, if_pos h]
  exact fun x left' y hl hy => hn x y left' hl hy

/-- A pass fails on an operator of its level, for want of an operand or of a result. -/
theorem applyLevelFrom_eq_error {left terms : List Term} {e : EvalError}
    (h : applyLevelFrom level left terms = .error e) :
    ∃ op, .operator op ∈ terms ∧ op.precedence = level ∧
      (e = .missingOperand op ∨ ∃ x y, Operator.apply op x y = .error e) := by
  fun_induction applyLevelFrom level left terms with
  | case1 => cases h
  | case2 => cases h
  | case3 rest op hop x left y ih =>
    obtain hz | ⟨z, -, h⟩ := Except.bind_eq_error.1 h
    · exact ⟨op, List.mem_cons_self, hop, .inr ⟨x, y, hz⟩⟩
    · obtain ⟨op', hm, hop', he⟩ := ih z h
      exact ⟨op', List.mem_cons_of_mem _ (List.mem_cons_of_mem _ hm), hop', he⟩
  | case4 left next rest op hop =>
    cases h
    exact ⟨op, List.mem_cons_self, hop, .inl rfl⟩
  | case5 _ _ _ _ _ ih | case6 _ _ _ _ _ ih =>
    obtain ⟨op, hm, hop, he⟩ := ih h
    exact ⟨op, List.mem_cons_of_mem _ hm, hop, he⟩

/-- One pass takes an ordered tree to its next stage, between whatever stands on its left and on
its right. Where it fails, the tree has no value. -/
theorem applyLevelFrom_stage (h : Stage vars level.index t ts) (ho : t.Ordered) :
    (∃ us, Stage vars (level.index + 1) t us ∧
      ∀ left rest, applyLevelFrom level left (ts ++ rest) =
        applyLevelFrom level (us.reverse ++ left) rest) ∨
    ∃ e, ¬ e.IsInternal ∧ t.Fails vars ∧
      ∀ left rest, applyLevelFrom level left (ts ++ rest) = .error e := by
  induction h with
  | @value t x ht hx =>
    refine .inl ⟨[.number x], .value (by omega) hx, fun left rest => ?_⟩
    exact applyLevelFrom_number x left rest
  | @binary l r op ts us hop hl hr ihl ihr =>
    obtain ⟨hol, hor, hlr, hrr⟩ := ho
    rcases ihl hol with ⟨ts', hl', hpl⟩ | ⟨e, he, hev, hpl⟩
    · by_cases hlevel : op.precedence = level
      · -- The operator applies: left of it the pass has made one number, right of it stands one.
        subst hlevel
        obtain ⟨x, rfl, hx⟩ := hl'.eq_number hlr
        obtain ⟨y, rfl, hy⟩ := hr.eq_number hrr
        have hpass : ∀ left rest, applyLevelFrom op.precedence left
            (ts ++ .operator op :: [.number y] ++ rest) =
              op.apply x y >>= fun z => applyLevelFrom op.precedence (.number z :: left) rest := by
          intro left rest
          rw [List.append_assoc, hpl]
          exact applyLevelFrom_operator_of_eq rfl x y left rest
        cases hz : op.apply x y with
        | ok z =>
          refine .inl ⟨[.number z], .value (Nat.le_refl _) ?_, fun left rest => ?_⟩
          · rw [Tree.eval, hx, hy]; exact hz
          · rw [hpass, hz]; rfl
        | error e =>
          refine .inr ⟨e, Operator.not_isInternal_of_apply hz, ⟨e, ?_⟩, fun left rest => ?_⟩
          · rw [Tree.eval, hx, hy]; exact hz
          · rw [hpass, hz]; rfl
      · have hpass : ∀ left rest, applyLevelFrom level left (ts ++ .operator op :: us ++ rest) =
            applyLevelFrom level (.operator op :: (ts'.reverse ++ left)) (us ++ rest) := by
          intro left rest
          rw [List.append_assoc, hpl, List.cons_append, applyLevelFrom_operator_of_ne hlevel]
        have hlt : level.index ≠ op.precedence.index :=
          fun hi => hlevel (Precedence.index_injective hi).symm
        rcases ihr hor with ⟨us', hr', hpr⟩ | ⟨e, he, hev, hpr⟩
        · refine .inl ⟨ts' ++ .operator op :: us', .binary (by omega) hl' hr', fun left rest => ?_⟩
          rw [hpass, hpr]
          simp
        · exact .inr ⟨e, he, hev.right l op, fun left rest => by rw [hpass, hpr]⟩
    · exact .inr ⟨e, he, hev.left op r, fun left rest => by rw [List.append_assoc, hpl]⟩

/-- The passes over all levels make one number of an ordered tree, its value. Where they fail, the
tree has no value. -/
theorem applyLevels_stage (h : Stage vars 0 t ts) (ho : t.Ordered) :
    (∃ x, applyLevels ts = .ok [.number x] ∧ t.eval vars = .ok x) ∨
    ∃ e, ¬ e.IsInternal ∧ t.Fails vars ∧ applyLevels ts = .error e := by
  have pass : ∀ level ts, Stage vars level.index t ts →
      (∃ us, Stage vars (level.index + 1) t us ∧ applyLevel level ts = .ok us) ∨
      ∃ e, ¬ e.IsInternal ∧ t.Fails vars ∧ applyLevel level ts = .error e := by
    intro level ts h
    rcases applyLevelFrom_stage h ho with ⟨us, hus, hp⟩ | ⟨e, he, hev, hp⟩
    · refine .inl ⟨us, hus, ?_⟩
      have := hp [] []
      rw [List.append_nil, List.append_nil] at this
      rw [applyLevel, this, applyLevelFrom, List.reverse_reverse]
    · exact .inr ⟨e, he, hev, by simpa [applyLevel] using hp [] []⟩
  have hrank : t.rank ≤ 3 := by
    cases t with
    | binary l op r => exact op.precedence.index_lt
    | _ => exact Nat.zero_le _
  simp only [applyLevels, Precedence.all, List.foldlM_cons, List.foldlM_nil]
  rcases pass .power ts h with ⟨us, h, hp⟩ | ⟨e, he, hev, hp⟩
  · rw [hp, Except.ok_bind]
    rcases pass .product us h with ⟨us, h, hp⟩ | ⟨e, he, hev, hp⟩
    · rw [hp, Except.ok_bind]
      rcases pass .sum us h with ⟨us, h, hp⟩ | ⟨e, he, hev, hp⟩
      · obtain ⟨x, rfl, hx⟩ := h.eq_number hrank
        exact .inl ⟨x, by rw [hp]; rfl, hx⟩
      · exact .inr ⟨e, he, hev, by rw [hp]; rfl⟩
    · exact .inr ⟨e, he, hev, by rw [hp]; rfl⟩
  · exact .inr ⟨e, he, hev, by rw [hp]; rfl⟩

end Passes

end Calculator
