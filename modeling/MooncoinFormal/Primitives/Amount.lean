import Mathlib

/-!
# Amounts

`amount.h`: amounts are signed 64-bit counts of base units. The range check
accepts everything between zero and the coin's money limit, which for this coin
is 38440000000 whole coins.
-/

namespace MooncoinFormal.Primitives

open Int64

/-- Amount in base units (can be negative), as the machine word of the source. -/
abbrev CAmount := Int64

def coin : CAmount := 100000000

def maxMoney : CAmount := 38440000000 * coin

def moneyRange (value : CAmount) : Bool :=
  decide (0 ≤ value) && decide (value ≤ maxMoney)

@[simp] theorem maxMoney_toInt : maxMoney.toInt = 3844000000000000000 := by decide

theorem moneyRange_iff (value : CAmount) :
    moneyRange value = true ↔ 0 ≤ value.toInt ∧ value.toInt ≤ 3844000000000000000 := by
  rw [moneyRange, Bool.and_eq_true, decide_eq_true_eq, decide_eq_true_eq,
    le_iff_toInt_le, le_iff_toInt_le, maxMoney_toInt]
  rfl

@[simp] theorem moneyRange_zero : moneyRange 0 = true := by decide

/-- A sum that stays in range did not wrap, when it started in range. -/
theorem toInt_add_of_moneyRange {amount change : CAmount} (before : moneyRange amount = true)
    (after : moneyRange (amount + change) = true) :
    (amount + change).toInt = amount.toInt + change.toInt := by
  rw [moneyRange_iff] at before after
  rw [toInt_add] at after ⊢
  have low := change.le_toInt
  have high := change.toInt_lt
  rw [Int.bmod_def] at after ⊢
  split at after <;> split <;> omega

theorem toInt_sub_of_moneyRange {amount other : CAmount} (first : moneyRange amount = true)
    (second : moneyRange other = true) : (amount - other).toInt = amount.toInt - other.toInt := by
  rw [moneyRange_iff] at first second
  rw [toInt_sub, Int.bmod_def]
  split <;> omega

end MooncoinFormal.Primitives
