import MooncoinFormal.Primitives.Amount

/-!
# Fee rates

The constructor of `CFeeRate` and `GetFee`, from `policy/feerate.cpp`.
-/

namespace MooncoinFormal.Policy.CFeeRate

open Primitives

/-- A result of signed arithmetic in 64 bits, which is undefined outside of them. -/
def int64 (value : Int) : Option Int :=
  if -2 ^ 63 ≤ value ∧ value < 2 ^ 63 then some value else none

def baseMwebFee : Int := 100

/-- The `nSatoshisPerK` that `CFeeRate::CFeeRate` sets. -/
def cFeeRate (nFeePaid : CAmount) (nBytes mwebWeight : Nat) : Option Int := do
  guard (nBytes < 2 ^ 63 ∧ mwebWeight < 2 ^ 63)
  let mwebFee ← int64 (mwebWeight * baseMwebFee)
  if 0 < mwebFee ∧ nFeePaid.toInt < mwebFee then return 0
  let ltcFee ← int64 (nFeePaid.toInt - mwebFee)
  if 0 < nBytes then return (← int64 (ltcFee * 1000)).tdiv nBytes
  return 0

def getFee (nSatoshisPerK : Int) (nBytes : Nat) : Option Int := do
  guard (nBytes < 2 ^ 63)
  let nFee := (← int64 (nSatoshisPerK * nBytes)).tdiv 1000
  if nFee = 0 ∧ nBytes ≠ 0 then
    if 0 < nSatoshisPerK then return 1
    if nSatoshisPerK < 0 then return -1
  return nFee

section

variable {nBytes mwebWeight paid : Nat} (size : 1 ≤ nBytes ∧ nBytes ≤ 4000000)
include size

theorem getFee_le (fits : paid * 1000 < 2 ^ 63) :
    ∃ fee, getFee (paid * 1000 / nBytes : Nat) nBytes = some fee ∧ fee ≤ max 1 (paid : Int) := by
  have back := Nat.div_mul_le_self (paid * 1000) nBytes
  rw [getFee, guard, if_pos (by omega), int64, if_pos (by omega)]
  simp only [pure_bind, Option.bind_eq_bind, Option.bind_some]
  rw [Int.tdiv_eq_ediv_of_nonneg (by omega)]
  split
  · split
    · exact ⟨1, rfl, Int.le_max_left _ _⟩
    · exact ⟨_, rfl, by omega⟩
  · exact ⟨_, rfl, by omega⟩

/-- A rate is exact, and its fee no more than was paid, exactly where a thousand times
the fee, without that for the weight, is an `int64_t`. -/
theorem cFeeRate_exact_iff {nFeePaid : CAmount} (weight : mwebWeight ≤ 200000)
    (covered : nFeePaid.toInt = 100 * mwebWeight + paid) :
    (∃ rate fee, cFeeRate nFeePaid nBytes mwebWeight = some rate ∧
        rate = (paid * 1000 / nBytes : Nat) ∧ getFee rate nBytes = some fee ∧
        fee ≤ max 1 (paid : Int)) ↔ paid ≤ 9223372036854775 := by
  have high := nFeePaid.toInt_lt
  have product : cFeeRate nFeePaid nBytes mwebWeight =
      (int64 (paid * 1000)).map (·.tdiv nBytes) := by
    rw [cFeeRate, guard, if_pos (by omega), baseMwebFee, int64, if_pos (by omega)]
    simp only [pure_bind, Option.bind_eq_bind, Option.bind_some]
    rw [if_neg (by omega), int64, if_pos (by omega), Option.bind_some, if_pos (by omega), covered,
      show 100 * (mwebWeight : Int) + paid - mwebWeight * 100 = paid by omega]
    cases int64 _ <;> rfl
  rw [product, int64]
  split
  · obtain ⟨fee, charged, bound⟩ := @getFee_le nBytes paid size (by omega)
    exact iff_of_true ⟨_, fee, rfl, rfl, charged, bound⟩ (by omega)
  · refine iff_of_false ?_ (by omega)
    rintro ⟨rate, fee, made, -⟩
    cases made

end

theorem cFeeRate_exact_small :
    ∃ rate fee, cFeeRate 1250 200 2 = some rate ∧ rate = 1050 * 1000 / 200 ∧
      getFee rate 200 = some fee ∧ fee ≤ max 1 1050 :=
  (@cFeeRate_exact_iff 200 2 1050 (by decide) 1250 (by decide) (by decide)).mpr (by decide)

/-- The product for the largest amount leaves the `int64_t`. -/
theorem cFeeRate_maxMoney : moneyRange maxMoney = true ∧ cFeeRate maxMoney 1 0 = none := by
  decide

end MooncoinFormal.Policy.CFeeRate
