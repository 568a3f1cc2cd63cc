import Mathlib.Data.List.TakeWhile

/-!
# Separators

A list up to the first occurrence of a separator, and the rest of it.
-/

namespace List

variable {α : Type} [DecidableEq α] {c : α} {cs : List α}

theorem takeWhile_ne_of_not_mem (h : c ∉ cs) : cs.takeWhile (· ≠ c) = cs := by
  rw [takeWhile_eq_self_iff]
  intro d hd
  exact decide_eq_true fun he => h (he ▸ hd)

theorem dropWhile_ne_of_not_mem (h : c ∉ cs) : cs.dropWhile (· ≠ c) = [] := by
  rw [dropWhile_eq_nil_iff]
  intro d hd
  exact decide_eq_true fun he => h (he ▸ hd)

theorem takeWhile_ne_append (h : c ∉ cs) (rest : List α) :
    (cs ++ c :: rest).takeWhile (· ≠ c) = cs := by
  rw [takeWhile_append_of_pos, takeWhile_cons_of_neg (by simp), append_nil]
  intro d hd
  exact decide_eq_true fun he => h (he ▸ hd)

theorem dropWhile_ne_append (h : c ∉ cs) (rest : List α) :
    (cs ++ c :: rest).dropWhile (· ≠ c) = c :: rest := by
  rw [dropWhile_append_of_pos, dropWhile_cons_of_neg (by simp)]
  intro d hd
  exact decide_eq_true fun he => h (he ▸ hd)

end List
