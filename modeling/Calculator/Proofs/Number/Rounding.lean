import Mathlib.Data.List.Induction
import Mathlib.Tactic.Ring
import Calculator.Proofs.Number.Exact

/-!
# Literals with rounding

Beyond `2 ^ 53` the value of a literal is rounded after each digit. One rounding gives the nearest
value of 53 significant bits, and the even one of two. A literal is rounded less often than its
value has bits, so its error stays small as long as it is finite.

* `IsShort`: the values of 53 significant bits. `isShort_round`, `round_nearest`, `round_even`: what
  one rounding gives.
* `Near`: two values that differ by some parts in `2 ^ 53` at most. `near_round`: one rounding.
* `near_ofDigits`: a literal and the natural number that its digits write.
* `round_lt_iff`, `ofDigits_lt`, `le_ofDigits`: when a value stays below a power of two.
* `isFinite_round_iff`: when one rounding is finite.
* `isFinite_of_natural_le`, `not_isFinite_of_le_natural`: which literals are finite. Between the two
  bounds, less than one part in `2 ^ 40` apart, the roundings decide.
-/

namespace Calculator.Literal

variable {m n k l a b c : Nat} {digits : List (Fin 10)}

/-! ## One rounding -/

/-- A value of 53 significant bits. -/
def IsShort (m : Nat) : Prop := ∃ a k, a < 2 ^ 53 ∧ m = a * 2 ^ k

/-- The last place that the precision has room for. -/
def unit (n : Nat) : Nat := 2 ^ excess n

theorem unit_pos (n : Nat) : 0 < unit n := Nat.two_pow_pos _

/-- A value is cut off or brought up to the next unit, whichever is nearer. Halfway between, the
number of units is even. -/
theorem round_cases (n : Nat) :
    round n = n / unit n * unit n ∧
        (2 * (n % unit n) < unit n ∨ 2 * (n % unit n) = unit n ∧ n / unit n % 2 = 0) ∨
      round n = (n / unit n + 1) * unit n ∧
        (unit n < 2 * (n % unit n) ∨ 2 * (n % unit n) = unit n ∧ n / unit n % 2 = 1) := by
  have hround : round n =
      if unit n < 2 * (n % unit n) ∨ 2 * (n % unit n) = unit n ∧ n / unit n % 2 = 1 then
        (n / unit n + 1) * unit n
      else n / unit n * unit n := rfl
  rw [hround]
  by_cases hup : unit n < 2 * (n % unit n) ∨ 2 * (n % unit n) = unit n ∧ n / unit n % 2 = 1
  · rw [if_pos hup]
    exact .inr ⟨rfl, hup⟩
  · rw [if_neg hup]
    exact .inl ⟨rfl, by omega⟩

/-- The number of units of a value that is not short takes all 53 bits. -/
theorem le_div_unit (h : 0 < excess n) : 2 ^ 52 ≤ n / unit n ∧ n / unit n < 2 ^ 53 := by
  have hn : n ≠ 0 := by rintro rfl; exact absurd h (by decide)
  have hlog : n.log2 = 52 + excess n := by
    simp only [excess, precision] at h ⊢
    omega
  have hlow : 2 ^ 52 * unit n ≤ n := by
    rw [unit, ← Nat.pow_add, ← hlog]
    exact Nat.log2_self_le hn
  have hhigh : n < 2 ^ 53 * unit n := by
    rw [unit, ← Nat.pow_add, show 53 + excess n = n.log2 + 1 by omega]
    exact Nat.lt_log2_self
  exact ⟨(Nat.le_div_iff_mul_le (unit_pos n)).2 hlow, (Nat.div_lt_iff_lt_mul (unit_pos n)).2 hhigh⟩

theorem unit_of_excess (h : excess n = 0) : unit n = 1 := by rw [unit, h, Nat.pow_zero]

theorem round_of_excess (h : excess n = 0) : round n = n := by
  have hunit := unit_of_excess h
  rcases round_cases n with ⟨hn, -⟩ | ⟨-, hn⟩
  · rwa [hunit, Nat.div_one, Nat.mul_one] at hn
  · rw [hunit, Nat.mod_one] at hn
    omega

/-- A short value is no part of a unit above another one. -/
theorem IsShort.le_or_le (hm : IsShort m) (n : Nat) :
    m ≤ n / unit n * unit n ∨ (n / unit n + 1) * unit n ≤ m := by
  obtain ⟨a, k, ha, rfl⟩ := hm
  rcases Nat.lt_or_ge k (excess n) with hk | hk
  · -- Such a value has less than `2 ^ 52` units.
    refine .inl ?_
    have hle : a * 2 ^ k ≤ 2 ^ 53 * 2 ^ k := Nat.mul_le_mul_right _ (Nat.le_of_lt ha)
    have hpow : 2 ^ 53 * 2 ^ k ≤ 2 ^ 52 * unit n := by
      rw [unit, ← Nat.pow_add, ← Nat.pow_add]
      exact Nat.pow_le_pow_right Nat.two_pos (by omega)
    have hunits : 2 ^ 52 * unit n ≤ n / unit n * unit n :=
      Nat.mul_le_mul_right _ (le_div_unit (by omega)).1
    omega
  · -- Such a value is a whole number of units.
    obtain ⟨j, rfl⟩ := Nat.exists_eq_add_of_le hk
    have hunits : a * 2 ^ (excess n + j) = a * 2 ^ j * unit n := by rw [unit]; ring
    rw [hunits]
    rcases Nat.lt_or_ge (n / unit n) (a * 2 ^ j) with h | h
    · exact .inr (Nat.mul_le_mul_right _ h)
    · exact .inl (Nat.mul_le_mul_right _ h)

theorem isShort_round (n : Nat) : IsShort (round n) := by
  by_cases h : excess n = 0
  · have hlt : n < 2 ^ 53 := by
      by_cases h0 : n = 0
      · omega
      · refine (Nat.log2_lt h0).1 ?_
        simp only [excess, precision] at h
        omega
    exact ⟨n, 0, hlt, by rw [round_of_excess h, Nat.pow_zero, Nat.mul_one]⟩
  · obtain ⟨-, hlt⟩ := le_div_unit (Nat.pos_of_ne_zero h)
    rcases round_cases n with ⟨hn, -⟩ | ⟨hn, -⟩
    · exact ⟨n / unit n, excess n, hlt, hn⟩
    · by_cases hfull : n / unit n + 1 < 2 ^ 53
      · exact ⟨n / unit n + 1, excess n, hfull, hn⟩
      · -- All 53 bits carry over into one.
        refine ⟨1, 53 + excess n, by decide, ?_⟩
        rw [hn, show n / unit n + 1 = 2 ^ 53 by omega, unit, Nat.pow_add, Nat.one_mul]

/-- No short value is nearer. -/
theorem round_nearest (hm : IsShort m) (n : Nat) :
    ((round n : Int) - n).natAbs ≤ ((m : Int) - n).natAbs := by
  have hdiv := Nat.div_add_mod' n (unit n)
  have hmod := Nat.mod_lt n (unit_pos n)
  have hnext := Nat.add_one_mul (n / unit n) (unit n)
  have hside := hm.le_or_le n
  rcases round_cases n with ⟨hn, h⟩ | ⟨hn, h⟩
  · rw [hn]
    omega
  · rw [hn]
    omega

/-- Halfway between two neighbours the even one is taken. -/
theorem round_even (h : 2 * (n % unit n) = unit n) : round n / unit n % 2 = 0 := by
  rcases round_cases n with ⟨hn, hside⟩ | ⟨hn, hside⟩
  · rw [hn, Nat.mul_div_cancel _ (unit_pos n)]
    omega
  · rw [hn, Nat.mul_div_cancel _ (unit_pos n)]
    omega

example : round (2 ^ 53 + 1) = 2 ^ 53 ∧ round (2 ^ 53 + 3) = 2 ^ 53 + 4 := by decide +kernel

theorem isShort_two_pow (k : Nat) : IsShort (2 ^ k) := ⟨1, k, by decide, (Nat.one_mul _).symm⟩

/-- Rounding does not pass a short value. -/
theorem le_round (hm : IsShort m) (h : m ≤ n) : m ≤ round n := by
  have hround := round_nearest hm n
  omega

theorem round_le (hm : IsShort m) (h : n ≤ m) : round n ≤ m := by
  have hround := round_nearest hm n
  omega

/-! ## The error of a literal -/

/-- Two values, each of which falls below the other by at most `k` parts in `2 ^ 53`. -/
structure Near (k a b : Nat) : Prop where
  le : (2 ^ 53 - k) * a ≤ 2 ^ 53 * b
  ge : (2 ^ 53 - k) * b ≤ 2 ^ 53 * a

namespace Near

theorem refl (k a : Nat) : Near k a a := by
  have h : (2 ^ 53 - k) * a ≤ 2 ^ 53 * a := Nat.mul_le_mul_right a (Nat.sub_le _ k)
  exact ⟨h, h⟩

theorem symm (h : Near k a b) : Near k b a := ⟨h.ge, h.le⟩

theorem mono (h : Near k a b) (hk : k ≤ l) : Near l a b := by
  have hl : 2 ^ 53 - l ≤ 2 ^ 53 - k := Nat.sub_le_sub_left hk _
  exact ⟨(Nat.mul_le_mul_right a hl).trans h.le, (Nat.mul_le_mul_right b hl).trans h.ge⟩

theorem mul_sub_le (p k l : Nat) : p * (p - (k + l)) ≤ (p - l) * (p - k) := by
  by_cases h : k + l ≤ p
  · obtain ⟨r, rfl⟩ := Nat.exists_eq_add_of_le h
    have hproduct : (k + r) * (l + r) = (k + l + r) * r + k * l := by ring
    rw [Nat.add_sub_cancel_left, show k + l + r - l = k + r by omega,
      show k + l + r - k = l + r by omega, hproduct]
    exact Nat.le_add_right _ _
  · rw [Nat.sub_eq_zero_of_le (by omega), Nat.mul_zero]
    exact Nat.zero_le _

theorem le_trans (hab : (2 ^ 53 - k) * a ≤ 2 ^ 53 * b) (hbc : (2 ^ 53 - l) * b ≤ 2 ^ 53 * c) :
    (2 ^ 53 - (k + l)) * a ≤ 2 ^ 53 * c := by
  refine Nat.le_of_mul_le_mul_left ?_ (Nat.two_pow_pos 53)
  calc 2 ^ 53 * ((2 ^ 53 - (k + l)) * a)
    _ = 2 ^ 53 * (2 ^ 53 - (k + l)) * a := (Nat.mul_assoc ..).symm
    _ ≤ (2 ^ 53 - l) * (2 ^ 53 - k) * a := Nat.mul_le_mul_right a (mul_sub_le (2 ^ 53) k l)
    _ = (2 ^ 53 - l) * ((2 ^ 53 - k) * a) := Nat.mul_assoc ..
    _ ≤ (2 ^ 53 - l) * (2 ^ 53 * b) := Nat.mul_le_mul_left _ hab
    _ = 2 ^ 53 * ((2 ^ 53 - l) * b) := Nat.mul_left_comm ..
    _ ≤ 2 ^ 53 * (2 ^ 53 * c) := Nat.mul_le_mul_left _ hbc

theorem trans (hab : Near k a b) (hbc : Near l b c) : Near (k + l) a c := by
  refine ⟨le_trans hab.le hbc.le, ?_⟩
  rw [Nat.add_comm]
  exact le_trans hbc.ge hab.ge

/-- One more digit does not add to the error. -/
theorem push (h : Near k a b) (d : Nat) : Near k (10 * a + d) (10 * b + d) := by
  have hd : (2 ^ 53 - k) * d ≤ 2 ^ 53 * d := (refl k d).le
  have hle := h.le
  have hge := h.ge
  constructor
  · rw [Nat.mul_add, Nat.mul_left_comm]
    omega
  · rw [Nat.mul_add, Nat.mul_left_comm]
    omega

end Near

/-- One rounding is wrong by half a unit at most, and there are `2 ^ 52` units or more. -/
theorem near_round (n : Nat) : Near 1 n (round n) := by
  by_cases h : excess n = 0
  · rw [round_of_excess h]
    exact Near.refl 1 n
  · have hdiv := Nat.div_add_mod' n (unit n)
    have hmod := Nat.mod_lt n (unit_pos n)
    have hnext := Nat.add_one_mul (n / unit n) (unit n)
    have hunits : 2 ^ 52 * unit n ≤ n / unit n * unit n :=
      Nat.mul_le_mul_right _ (le_div_unit (Nat.pos_of_ne_zero h)).1
    rcases round_cases n with ⟨hn, hdown⟩ | ⟨hn, hup⟩
    · rw [hn]
      constructor <;> omega
    · rw [hn]
      constructor <;> omega

/-- The natural number that some digits write. -/
def natural (digits : List (Fin 10)) : Nat := digits.foldl (fun n digit => 10 * n + digit.val) 0

theorem natural_concat (digits : List (Fin 10)) (digit : Fin 10) :
    natural (digits ++ [digit]) = 10 * natural digits + digit := by
  rw [natural, List.foldl_append]
  rfl

/-- A digit behind a value that is not zero makes it at least twice as large. -/
theorem log2_lt_log2_push (hn : n ≠ 0) (digit : Fin 10) : n.log2 < (push n digit).log2 := by
  have hlow : 2 ^ (n.log2 + 1) ≤ 10 * n + digit := by
    have := Nat.log2_self_le hn
    omega
  have hpush : 2 ^ (n.log2 + 1) ≤ push n digit := le_round (isShort_two_pow _) hlow
  have hne : push n digit ≠ 0 := by
    have := Nat.two_pow_pos (n.log2 + 1)
    omega
  exact (Nat.le_log2 hne).2 hpush

/-- A literal is wrong by less parts in `2 ^ 53` than it has bits. -/
theorem near_ofDigits (digits : List (Fin 10)) :
    Near (ofDigits digits).log2 (ofDigits digits) (natural digits) := by
  induction digits using List.reverseRecOn with
  | nil => exact Near.refl _ 0
  | append_singleton digits digit ih =>
    rw [ofDigits_concat, natural_concat]
    have hpush : Near 1 (push (ofDigits digits) digit) (10 * ofDigits digits + digit) :=
      (near_round _).symm
    by_cases h0 : ofDigits digits = 0
    · -- Only zeros have been read, and the digit is not rounded.
      rw [h0] at ih hpush ⊢
      have hnatural : natural digits = 0 := by simpa using ih.ge
      rw [hnatural, push_of_le]
      · exact Near.refl _ _
      · have := digit.isLt
        change 10 * 0 + digit.val ≤ 2 ^ 53
        omega
    · refine (hpush.trans (ih.push digit)).mono ?_
      have := log2_lt_log2_push h0 digit
      omega

/-! ## Powers of two -/

theorem log2_lt_of_lt (hk : 0 < k) (h : n < 2 ^ k) : n.log2 < k := by
  by_cases h0 : n = 0
  · rwa [h0, Nat.log2_zero]
  · exact (Nat.log2_lt h0).2 h

theorem push_lt (h : n < 2 ^ k) (digit : Fin 10) : push n digit < 2 ^ (k + 5) := by
  have hround : push n digit ≤ 2 ^ (k + 4) := by
    refine round_le (isShort_two_pow _) ?_
    rw [Nat.pow_add]
    omega
  have hpos := Nat.two_pow_pos k
  rw [Nat.pow_add] at hround ⊢
  omega

theorem two_pow_eq (k : Nat) : 2 ^ (54 + k) = 2 ^ 53 * 2 ^ (k + 1) ∧ 2 ^ (k + 1) = 2 * 2 ^ k := by
  constructor <;> ring

theorem unit_of_near_two_pow (hlow : 2 ^ (54 + k) ≤ n + 2 ^ k) (hhigh : n < 2 ^ (54 + k)) :
    unit n = 2 ^ (k + 1) := by
  have hlog : n.log2 = 53 + k := by
    obtain ⟨hpow, hunit⟩ := two_pow_eq k
    have hpos := Nat.two_pow_pos k
    refine (Nat.log2_eq_iff (by omega)).2 ⟨?_, ?_⟩
    · rw [Nat.pow_add]
      omega
    · rwa [show 53 + k + 1 = 54 + k by omega]
  rw [unit, excess, hlog, precision]
  congr 1
  omega

/-- Halfway between a power of two and the last short value below it, the latter is odd. -/
theorem two_pow_le_round (h : 2 ^ (54 + k) ≤ n + 2 ^ k) : 2 ^ (54 + k) ≤ round n := by
  by_cases hn : 2 ^ (54 + k) ≤ n
  · exact le_round (isShort_two_pow _) hn
  obtain ⟨hpow, hunit⟩ := two_pow_eq k
  have hu := unit_of_near_two_pow h (Nat.lt_of_not_le hn)
  have hdiv : n / unit n = 2 ^ 53 - 1 := by
    rw [hu]
    exact Nat.div_eq_of_lt_le (by omega) (by omega)
  have hmod := Nat.div_add_mod' n (unit n)
  rcases round_cases n with ⟨-, hdown⟩ | ⟨hround, -⟩
  · rw [hdiv] at hmod hdown
    omega
  · rw [hround, hdiv, hu]
    omega

/-- One rounding reaches a power of two from halfway between it and the last short value on. -/
theorem round_lt_iff : round n < 2 ^ (54 + k) ↔ n + 2 ^ k < 2 ^ (54 + k) := by
  constructor
  · intro hlt
    by_contra h
    exact Nat.not_le_of_lt hlt (two_pow_le_round (Nat.le_of_not_lt h))
  · intro h
    obtain ⟨hpow, hunit⟩ := two_pow_eq k
    have hm : IsShort ((2 ^ 53 - 1) * 2 ^ (k + 1)) := ⟨_, _, by decide, rfl⟩
    by_cases hn : n ≤ (2 ^ 53 - 1) * 2 ^ (k + 1)
    · have hround := round_le hm hn
      omega
    · have hround := round_nearest hm n
      omega

/-- A literal does not reach a power of two if its digits stay away by one part in `2 ^ 42`. -/
theorem ofDigits_lt (hk : 42 + k + 5 ≤ 2 ^ 11) (h : natural digits + 2 ^ k ≤ 2 ^ (42 + k)) :
    ofDigits digits < 2 ^ (42 + k) := by
  induction digits using List.reverseRecOn with
  | nil => exact Nat.two_pow_pos _
  | append_singleton digits digit ih =>
    have hnear := near_ofDigits (digits ++ [digit])
    rw [natural_concat] at h hnear
    have hlog : (ofDigits (digits ++ [digit])).log2 < 42 + k + 5 := by
      rw [ofDigits_concat]
      exact log2_lt_of_lt (by omega) (push_lt (ih (by omega)) digit)
    have hle := (hnear.mono (show _ ≤ 2 ^ 11 - 1 by omega)).le
    have hpos := Nat.two_pow_pos k
    rw [Nat.pow_add] at h ⊢
    omega

/-- It reaches the power of two if its digits are beyond by as much. -/
theorem le_ofDigits (hk : 42 + k ≤ 2 ^ 11) (h : 2 ^ (42 + k) + 2 ^ k ≤ natural digits) :
    2 ^ (42 + k) ≤ ofDigits digits := by
  by_contra hlt
  have hlog : (ofDigits digits).log2 < 42 + k := log2_lt_of_lt (by omega) (by omega)
  have hge := ((near_ofDigits digits).mono (show _ ≤ 2 ^ 11 - 1 by omega)).ge
  rw [Nat.pow_add] at h hlt
  omega

/-! ## Finite literals -/

theorem isFinite_iff : IsFinite n ↔ n < 2 ^ 1024 := by
  unfold IsFinite
  generalize 1024 = k
  rfl

theorem isFinite_round_iff : IsFinite (round n) ↔ n + 2 ^ 970 < 2 ^ 1024 := by
  rw [isFinite_iff, show 1024 = 54 + 970 from rfl]
  exact round_lt_iff

theorem isFinite_of_natural_le (h : natural digits + 2 ^ 982 ≤ 2 ^ 1024) :
    IsFinite (ofDigits digits) := by
  rw [show 1024 = 42 + 982 from rfl] at h
  rw [isFinite_iff, show 1024 = 42 + 982 from rfl]
  exact ofDigits_lt (by decide) h

theorem not_isFinite_of_le_natural (h : 2 ^ 1024 + 2 ^ 982 ≤ natural digits) :
    ¬ IsFinite (ofDigits digits) := by
  rw [show 1024 = 42 + 982 from rfl] at h
  rw [isFinite_iff, show 1024 = 42 + 982 from rfl]
  exact Nat.not_lt_of_le (le_ofDigits (by decide) h)

end Calculator.Literal
