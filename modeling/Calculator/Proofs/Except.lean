/-!
# Computations that may fail

The bind of `Except` in normal forms: it computes on a result, a bind that has a result is two
computations that have one, and a bind that fails is one of two computations that fails. A fold and
a map over a list fail at the first element that does.
-/

namespace Except

variable {ε α β : Type}

@[simp]
theorem ok_bind (a : α) (f : α → Except ε β) : (.ok a >>= f : Except ε β) = f a := rfl

@[simp]
theorem error_bind (e : ε) (f : α → Except ε β) : (.error e >>= f : Except ε β) = .error e := rfl

theorem bind_eq_ok {x : Except ε α} {f : α → Except ε β} {b : β} :
    x >>= f = .ok b ↔ ∃ a, x = .ok a ∧ f a = .ok b := by
  cases x with
  | error e => simp
  | ok a => simp

theorem bind_eq_error {x : Except ε α} {f : α → Except ε β} {e : ε} :
    x >>= f = .error e ↔ x = .error e ∨ ∃ a, x = .ok a ∧ f a = .error e := by
  cases x with
  | error e' => simp
  | ok a => simp

theorem map_eq_ok {x : Except ε α} {f : α → β} {b : β} :
    x.map f = .ok b ↔ ∃ a, x = .ok a ∧ f a = b := by
  cases x <;> simp [Except.map]

theorem map_eq_error {x : Except ε α} {f : α → β} {e : ε} :
    x.map f = .error e ↔ x = .error e := by
  cases x <;> simp [Except.map]

theorem foldlM_eq_error {f : β → α → Except ε β} {b : β} {l : List α} {e : ε} :
    l.foldlM f b = .error e ↔ ∃ before a after b', l = before ++ a :: after ∧
      before.foldlM f b = .ok b' ∧ f b' a = .error e := by
  induction l generalizing b with
  | nil => simp [pure, Except.pure]
  | cons first l ih =>
    rw [List.foldlM_cons, bind_eq_error]
    constructor
    · rintro (he | ⟨b₁, hb, he⟩)
      · exact ⟨[], first, l, b, rfl, rfl, he⟩
      · obtain ⟨before, a, after, b', rfl, hb', he⟩ := ih.1 he
        exact ⟨first :: before, a, after, b', rfl, by rw [List.foldlM_cons, hb]; exact hb', he⟩
    · rintro ⟨before, a, after, b', hl, hb', he⟩
      cases before with
      | nil => cases hl; cases hb'; exact .inl he
      | cons _ before =>
        cases hl
        rw [List.foldlM_cons] at hb'
        obtain ⟨b₁, hb, hb'⟩ := bind_eq_ok.1 hb'
        exact .inr ⟨b₁, hb, ih.2 ⟨before, a, after, b', rfl, hb', he⟩⟩

theorem mapM_eq_error {f : α → Except ε β} {l : List α} {e : ε} :
    l.mapM f = .error e ↔ ∃ before a after, l = before ++ a :: after ∧
      (∀ a' ∈ before, ∃ b, f a' = .ok b) ∧ f a = .error e := by
  induction l with
  | nil => simp [pure, Except.pure]
  | cons first l ih =>
    rw [List.mapM_cons, bind_eq_error]
    constructor
    · rintro (he | ⟨b, hb, he⟩)
      · exact ⟨[], first, l, rfl, by simp, he⟩
      · obtain he | ⟨bs, -, he⟩ := bind_eq_error.1 he
        · obtain ⟨before, a, after, rfl, hbefore, he⟩ := ih.1 he
          exact ⟨first :: before, a, after, rfl, List.forall_mem_cons.2 ⟨⟨b, hb⟩, hbefore⟩, he⟩
        · cases he
    · rintro ⟨before, a, after, hl, hbefore, he⟩
      cases before with
      | nil => cases hl; exact .inl he
      | cons _ before =>
        cases hl
        obtain ⟨⟨b, hb⟩, hbefore⟩ := List.forall_mem_cons.1 hbefore
        exact .inr ⟨b, hb, bind_eq_error.2 (.inl (ih.2 ⟨before, a, after, rfl, hbefore, he⟩))⟩

end Except
