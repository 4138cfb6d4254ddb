import Mathlib

/-!
# Rounding to 53 significant bits

What arithmetic in double precision promises where nothing overflows: a result is the
exact one, rounded. Rounding keeps the order, fixes the integers that have 53 bits and
errs by at most one part in `2 ^ 53`. The floor of a rounded quotient of small integers
is therefore the integer quotient.
-/

namespace MooncoinFormal.Library

structure Rounding where
  round : ℚ → ℚ
  monotone : Monotone round
  round_natCast : ∀ n : ℕ, n ≤ 2 ^ 53 → round n = n
  error : ∀ q, |round q - q| ≤ |q| / 2 ^ 53

namespace Rounding

/-- Rounding that never has to round. -/
def exact : Rounding where
  round := id
  monotone := monotone_id
  round_natCast _ _ := rfl
  error q := by
    rw [id, sub_self, abs_zero]
    positivity

variable (rounding : Rounding)

/-- A rounded quotient stays below the next integer, since the quotient itself keeps a
distance of one part of its denominator. -/
theorem floor_round_div {a b : ℕ} (positive : 0 < b) (small : a < 2 ^ 53) :
    ⌊rounding.round (a / b : ℚ)⌋ = (a / b : ℕ) := by
  have denominator : (0 : ℚ) < b := by exact_mod_cast positive
  have below : ((a / b : ℕ) : ℚ) ≤ a / b := Nat.cast_div_le
  have above : (a : ℚ) + 1 ≤ ((a / b : ℕ) + 1) * b := by
    have next : a + 1 ≤ (a / b + 1) * b := Nat.lt_mul_of_div_lt (Nat.lt_succ_self _) positive
    exact_mod_cast next
  have bound : (a : ℚ) < 2 ^ 53 := by exact_mod_cast small
  rw [Int.floor_eq_iff]
  constructor
  · have whole : a / b ≤ 2 ^ 53 := (Nat.div_le_self a b).trans small.le
    have fixed := rounding.round_natCast (a / b) whole
    rw [Int.cast_natCast, ← fixed]
    exact rounding.monotone below
  · have close := (abs_le.mp (rounding.error (a / b : ℚ))).2
    rw [abs_of_nonneg (by positivity : (0 : ℚ) ≤ a / b)] at close
    rw [Int.cast_natCast]
    have gap : (a / b : ℚ) / 2 ^ 53 < 1 / b := by
      rw [div_div, div_lt_div_iff₀ (by positivity) denominator]
      nlinarith
    have next : (a / b : ℚ) + 1 / b ≤ (a / b : ℕ) + 1 := by
      rw [← add_div, div_le_iff₀ denominator]
      exact above
    linarith

end Rounding

end MooncoinFormal.Library
