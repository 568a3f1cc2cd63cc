import Mathlib.Data.List.Basic
import Calculator.Proofs.Evaluation.Level

/-!
# A pass as left folds

Numbers with operators between them are a chain. The operators of other levels cut a chain into
segments, and a pass over a level puts the value of each segment in its place: what its operators
make of its numbers from left to right.

* `Chain`: operands with operators between them.
* `Chain.value`, `Chain.value_eq_error`: the left fold of a chain, and where it fails.
* `Segmented`, `exists_segmented`: a chain as a chain of its segments.
* `applyLevelFrom_segment`, `applyLevelFrom_segments`: a pass over one segment and over all.
* `applyLevel_segments`: a pass is the value of every segment, or the first failure of one.
-/

namespace Calculator

/-- Operands with operators between them. -/
structure Chain (α : Type) where
  first : α
  /-- The other operands, each with the operator in front of it. -/
  rest : List (Operator × α)
  deriving DecidableEq

namespace Chain

variable {α β : Type}

/-- The operands, in their order. -/
def operands (c : Chain α) : List α := c.first :: c.rest.map Prod.snd

/-- The operators, in their order. -/
def operators (c : Chain α) : List Operator := c.rest.map Prod.fst

/-- The operators and operands of chains, each chain after the operator in front of it. -/
def joinRest (rest : List (Operator × Chain α)) : List (Operator × α) :=
  rest.flatMap fun step => (step.1, step.2.first) :: step.2.rest

/-- A chain of chains as one chain. -/
def join (c : Chain (Chain α)) : Chain α := ⟨c.first.first, c.first.rest ++ joinRest c.rest⟩

/-- What a computation makes of each operand after an operator, from left to right. -/
def mapRestM {ε : Type} (f : α → Except ε β) (rest : List (Operator × α)) :
    Except ε (List (Operator × β)) :=
  rest.mapM fun step => (f step.2).map (step.1, ·)

/-- The chain of what a computation makes of each operand, from left to right. -/
def mapM {ε : Type} (f : α → Except ε β) (c : Chain α) : Except ε (Chain β) := do
  let first ← f c.first
  let rest ← mapRestM f c.rest
  .ok ⟨first, rest⟩

theorem mapRestM_eq_error {ε : Type} {f : α → Except ε β} {rest : List (Operator × α)} {e : ε} :
    mapRestM f rest = .error e ↔ ∃ before a after, rest.map Prod.snd = before ++ a :: after ∧
      (∀ a' ∈ before, ∃ b, f a' = .ok b) ∧ f a = .error e := by
  rw [mapRestM, Except.mapM_eq_error]
  constructor
  · rintro ⟨before, ⟨op, a⟩, after, rfl, hbefore, he⟩
    refine ⟨before.map Prod.snd, a, after.map Prod.snd, by simp, ?_, Except.map_eq_error.1 he⟩
    refine List.forall_mem_map.2 fun step hm => ?_
    obtain ⟨step', hs⟩ := hbefore step hm
    obtain ⟨b, hb, -⟩ := Except.map_eq_ok.1 hs
    exact ⟨b, hb⟩
  · rintro ⟨before, a, after, hc, hbefore, he⟩
    obtain ⟨steps, tail, rfl, rfl, htail⟩ := List.map_eq_append_iff.1 hc
    obtain ⟨⟨op, a⟩, later, rfl, rfl, rfl⟩ := List.map_eq_cons_iff.1 htail
    refine ⟨steps, (op, a), later, rfl, fun step hm => ?_, Except.map_eq_error.2 he⟩
    obtain ⟨b, hb⟩ := hbefore step.2 (List.mem_map_of_mem hm)
    exact ⟨(step.1, b), Except.map_eq_ok.2 ⟨b, hb, rfl⟩⟩

/-- Where the computation fails, it does for the first operand for which it can. -/
theorem mapM_eq_error {ε : Type} {f : α → Except ε β} {c : Chain α} {e : ε} :
    c.mapM f = .error e ↔ ∃ before a after, c.operands = before ++ a :: after ∧
      (∀ a' ∈ before, ∃ b, f a' = .ok b) ∧ f a = .error e := by
  rw [mapM, Except.bind_eq_error]
  constructor
  · rintro (he | ⟨b, hb, he⟩)
    · exact ⟨[], c.first, c.rest.map Prod.snd, rfl, by simp, he⟩
    · obtain he | ⟨bs, -, he⟩ := Except.bind_eq_error.1 he
      · obtain ⟨before, a, after, hc, hbefore, he⟩ := mapRestM_eq_error.1 he
        exact ⟨c.first :: before, a, after, congrArg _ hc,
          List.forall_mem_cons.2 ⟨⟨b, hb⟩, hbefore⟩, he⟩
      · cases he
  · rintro ⟨before, a, after, hc, hbefore, he⟩
    cases before with
    | nil => cases hc; exact .inl he
    | cons first before =>
      obtain ⟨rfl, htail⟩ := List.cons.inj hc
      obtain ⟨⟨b, hb⟩, hbefore⟩ := List.forall_mem_cons.1 hbefore
      have hrest := mapRestM_eq_error.2 ⟨before, a, after, htail, hbefore, he⟩
      exact .inr ⟨b, hb, Except.bind_eq_error.2 (.inl hrest)⟩

/-! ## Chains of numbers -/

/-- The terms of operators, each with the number after it. -/
def termsOf (rest : List (Operator × Float)) : List Term :=
  rest.flatMap fun step => [.operator step.1, .number step.2]

/-- The terms of numbers with operators between them. -/
def terms (c : Chain Float) : List Term := .number c.first :: termsOf c.rest

/-- What the operators of a chain make of its numbers, from left to right. -/
def value (c : Chain Float) : Except EvalError Float :=
  c.rest.foldlM (fun x step => step.1.apply x step.2) c.first

/-- The part before some operator has a value, and the operator fails on it. -/
def Fails (c : Chain Float) (e : EvalError) : Prop :=
  ∃ done op y later x, c.rest = done ++ (op, y) :: later ∧
    value ⟨c.first, done⟩ = .ok x ∧ op.apply x y = .error e

theorem value_eq_error {c : Chain Float} {e : EvalError} : c.value = .error e ↔ c.Fails e := by
  rw [value, Except.foldlM_eq_error]
  constructor
  · rintro ⟨done, ⟨op, y⟩, later, x, hc, hx, he⟩
    exact ⟨done, op, y, later, x, hc, hx, he⟩
  · rintro ⟨done, op, y, later, x, hc, hx, he⟩
    exact ⟨done, (op, y), later, x, hc, hx, he⟩

end Chain

/-! ## Segments -/

/-- The operators of other levels cut a chain into segments. -/
structure Segmented (level : Precedence) (c : Chain Float) (segments : Chain (Chain Float)) :
    Prop where
  join : segments.join = c
  inside : ∀ s ∈ segments.operands, ∀ op ∈ s.operators, op.precedence = level
  between : ∀ op ∈ segments.operators, op.precedence ≠ level

/-- Every chain consists of segments. -/
theorem exists_segmented (level : Precedence) (c : Chain Float) :
    ∃ segments, Segmented level c segments := by
  obtain ⟨x, steps⟩ := c
  induction steps generalizing x with
  | nil =>
    refine ⟨⟨⟨x, []⟩, []⟩, rfl, ?_, List.forall_mem_nil _⟩
    exact List.forall_mem_singleton.2 (List.forall_mem_nil _)
  | cons step steps ih =>
    obtain ⟨op, y⟩ := step
    obtain ⟨⟨segment, more⟩, hjoin, hinside, hbetween⟩ := ih y
    obtain ⟨hsegment, hmore⟩ := List.forall_mem_cons.1 hinside
    obtain ⟨rfl, rfl⟩ := (Chain.mk.injEq ..).mp hjoin
    by_cases hop : op.precedence = level
    · -- The operator goes on with the segment.
      refine ⟨⟨⟨x, (op, segment.first) :: segment.rest⟩, more⟩, rfl, ?_, hbetween⟩
      exact List.forall_mem_cons.2 ⟨List.forall_mem_cons.2 ⟨hop, hsegment⟩, hmore⟩
    · refine ⟨⟨⟨x, []⟩, (op, segment) :: more⟩, rfl, ?_, ?_⟩
      · exact List.forall_mem_cons.2 ⟨List.forall_mem_nil _, hinside⟩
      · exact List.forall_mem_cons.2 ⟨hop, hbetween⟩

/-! ## The pass -/

section Pass

variable {level : Precedence}

/-- A pass over a segment leaves its value. -/
theorem applyLevelFrom_segment {steps : List (Operator × Float)}
    (h : ∀ op ∈ steps.map Prod.fst, op.precedence = level) (x : Float) (left rest : List Term) :
    applyLevelFrom level (.number x :: left) (Chain.termsOf steps ++ rest) =
      Chain.value ⟨x, steps⟩ >>= fun v => applyLevelFrom level (.number v :: left) rest := by
  induction steps generalizing x with
  | nil => rfl
  | cons step steps ih =>
    obtain ⟨op, y⟩ := step
    obtain ⟨hop, h⟩ := List.forall_mem_cons.1 h
    have hterms : Chain.termsOf ((op, y) :: steps) ++ rest =
        .operator op :: .number y :: (Chain.termsOf steps ++ rest) := rfl
    have hvalue : Chain.value ⟨x, (op, y) :: steps⟩ =
        op.apply x y >>= fun z => Chain.value ⟨z, steps⟩ := List.foldlM_cons ..
    rw [hterms, applyLevelFrom_operator_of_eq hop, hvalue, bind_assoc]
    cases op.apply x y with
    | ok z => exact ih h z
    | error e => rfl

/-- A pass over the segments that follow one leaves their values. -/
theorem applyLevelFrom_segments {more : List (Operator × Chain Float)}
    (hinside : ∀ s ∈ more.map Prod.snd, ∀ op ∈ s.operators, op.precedence = level)
    (hbetween : ∀ op ∈ more.map Prod.fst, op.precedence ≠ level) (x : Float) (left : List Term) :
    applyLevelFrom level (.number x :: left) (Chain.termsOf (Chain.joinRest more)) =
      Chain.mapRestM Chain.value more >>= fun values =>
        .ok (left.reverse ++ .number x :: Chain.termsOf values) := by
  induction more generalizing x left with
  | nil => simp [Chain.joinRest, Chain.termsOf, Chain.mapRestM, applyLevelFrom, pure, Except.pure]
  | cons step more ih =>
    obtain ⟨op, s⟩ := step
    obtain ⟨hs, hinside⟩ := List.forall_mem_cons.1 hinside
    obtain ⟨hop, hbetween⟩ := List.forall_mem_cons.1 hbetween
    have hterms : Chain.termsOf (Chain.joinRest ((op, s) :: more)) =
        .operator op :: .number s.first ::
          (Chain.termsOf s.rest ++ Chain.termsOf (Chain.joinRest more)) := by
      simp [Chain.joinRest, Chain.termsOf]
    have hvalues : Chain.mapRestM Chain.value ((op, s) :: more) =
        s.value >>= fun y => Chain.mapRestM Chain.value more >>= fun ys => .ok ((op, y) :: ys) := by
      rw [Chain.mapRestM, List.mapM_cons]
      cases s.value <;> rfl
    rw [hterms, applyLevelFrom_operator_of_ne hop, applyLevelFrom_number,
      applyLevelFrom_segment hs, hvalues]
    cases s.value with
    | error e => rfl
    | ok y =>
      rw [Except.ok_bind, Except.ok_bind, ih hinside hbetween]
      cases Chain.mapRestM Chain.value more with
      | error e => rfl
      | ok ys => simp [Chain.termsOf]

/-- A pass over a level takes the numbers of a chain to the values of its segments, with the
operators between them. If it fails, it does for the first operator of the first segment that has
no value. -/
theorem applyLevel_segments (level : Precedence) (c : Chain Float) :
    (∃ segments, Segmented level c segments) ∧
    ∀ segments, Segmented level c segments →
      applyLevel level c.terms = (segments.mapM Chain.value).map Chain.terms ∧
      ∀ e, applyLevel level c.terms = .error e ↔
        ∃ before s after, segments.operands = before ++ s :: after ∧
          (∀ s' ∈ before, ∃ x, s'.value = .ok x) ∧ s.Fails e := by
  refine ⟨exists_segmented level c, ?_⟩
  rintro segments ⟨rfl, hinside, hbetween⟩
  obtain ⟨hfirst, hmore⟩ := List.forall_mem_cons.1 hinside
  have hterms : segments.join.terms = .number segments.first.first ::
      (Chain.termsOf segments.first.rest ++ Chain.termsOf (Chain.joinRest segments.rest)) := by
    simp [Chain.join, Chain.terms, Chain.termsOf]
  have hpass : applyLevel level segments.join.terms =
      (segments.mapM Chain.value).map Chain.terms := by
    rw [hterms, applyLevel, applyLevelFrom_number, applyLevelFrom_segment hfirst, Chain.mapM]
    cases segments.first.value with
    | error e => rfl
    | ok x =>
      rw [Except.ok_bind, Except.ok_bind, applyLevelFrom_segments hmore hbetween]
      cases Chain.mapRestM Chain.value segments.rest <;> rfl
  refine ⟨hpass, fun e => ?_⟩
  rw [hpass, Except.map_eq_error, Chain.mapM_eq_error]
  simp only [Chain.value_eq_error]

/-- In `2+12/4*3-7/0+5/0` the pass over products fails on the third segment, whatever follows. -/
theorem applyLevel_segments_division :
    let c : Chain Float :=
      ⟨2, [(.add, 12), (.div, 4), (.mul, 3), (.sub, 7), (.div, 0), (.add, 5), (.div, 0)]⟩
    let segments : Chain (Chain Float) := ⟨⟨2, []⟩,
      [(.add, ⟨12, [(.div, 4), (.mul, 3)]⟩), (.sub, ⟨7, [(.div, 0)]⟩), (.add, ⟨5, [(.div, 0)]⟩)]⟩
    Segmented .product c segments ∧
    applyLevel .product c.terms = (segments.mapM Chain.value).map Chain.terms ∧
    (Chain.value ⟨12, [(.div, 4), (.mul, 3)]⟩ = .ok 9 ∧
      Chain.Fails ⟨7, [(.div, 0)]⟩ .divisionByZero) ∧
    applyLevel .product c.terms = .error .divisionByZero := by
  intro c segments
  have hsegments : Segmented .product c segments := ⟨rfl, by decide, by decide⟩
  obtain ⟨hpass, herror⟩ := (applyLevel_segments .product c).2 segments hsegments
  have hvalue : Chain.value ⟨12, [(.div, 4), (.mul, 3)]⟩ = .ok 9 := by decide +kernel
  have hfails : Chain.Fails ⟨7, [(.div, 0)]⟩ .divisionByZero :=
    ⟨[], .div, 0, [], 7, rfl, rfl, by decide +kernel⟩
  refine ⟨hsegments, hpass, ⟨hvalue, hfails⟩, (herror .divisionByZero).2 ?_⟩
  refine ⟨[⟨2, []⟩, ⟨12, [(.div, 4), (.mul, 3)]⟩], ⟨7, [(.div, 0)]⟩, _, rfl, ?_, hfails⟩
  exact List.forall_mem_cons.2 ⟨⟨2, rfl⟩, List.forall_mem_singleton.2 ⟨9, hvalue⟩⟩

end Pass

end Calculator
