import Mathlib
import MooncoinFormal.Pow.GravityWell

/-!
# The retargets at fixed intervals

With the limit of the main network no product of a target and a clamped time leaves
256 bits, so the first and the third algorithm return the exact quotient in compact
form. The quotient is cut off to a whole number, and its compact form by less than one
part in `2 ^ 15`; up to these two roundings the new target lies in the band that the
clamp allows.
-/

namespace MooncoinFormal.Pow

open Int List

/-- The shortest time that counts in the first algorithm. -/
def lowerV1 (nextHeight : Nat) : Nat :=
  if 10000 < nextHeight then 28800 / 4 else if 5000 < nextHeight then 28800 / 8 else 28800 / 16

theorem clamp_bounds {low high : Int} (le : low ≤ high) (value : Int) :
    low ≤ clamp low high value ∧ clamp low high value ≤ high := by
  unfold clamp
  dsimp only
  split <;> split <;> omega

theorem clampV1_bounds (nextHeight : Nat) (nActualTimespan : Int) :
    (lowerV1 nextHeight : Int) ≤ clampV1 nextHeight nActualTimespan ∧
      clampV1 nextHeight nActualTimespan ≤ (28800 * 4 : Nat) := by
  unfold lowerV1 clampV1
  split
  · exact clamp_bounds (by decide) _
  · split
    · exact clamp_bounds (by decide) _
    · exact clamp_bounds (by decide) _

/-- The new target lies in a band around the old one, up to one unit that the division
cuts off and one part in `2 ^ 15` that the compact form cuts off. -/
structure InBand (target lower upper timespan : Nat) (nBits : UInt32) : Prop where
  above : (target * lower / timespan : ℚ) - 1 < (setCompact nBits).toNat * (1 + 1 / 2 ^ 15)
  below : ((setCompact nBits).toNat : ℚ) ≤ target * upper / timespan

/-- A retarget by some clamped time: the bits are those of the exact quotient or of the
limit, and in the band unless the limit is reached. -/
structure ExactRetarget (target seconds lower upper timespan : Nat) (nBits : UInt32) : Prop where
  exact : ∃ bnNew : ArithUInt256, nBits = getCompact bnNew ∧
    bnNew.toNat = min mainPowLimit.toNat (target * seconds / timespan)
  band : target * seconds / timespan ≤ mainPowLimit.toNat → InBand target lower upper timespan nBits

section Scaled

variable {params : Params} (main : params.powLimit = mainPowLimit) {nBits : UInt32}
  (inRange : InRange params nBits) {lower upper timespan : Nat} (positive : 0 < timespan)

include main inRange

theorem toNat_retarget {seconds : Nat} (short : seconds ≤ 28800 * 4) (size : timespan < 2 ^ 64) :
    (atMost (divWord (mulWord (setCompact nBits) seconds) timespan) params.powLimit).toNat =
      min mainPowLimit.toNat ((setCompact nBits).toNat * seconds / timespan) := by
  have within := inRange.2
  rw [main] at within ⊢
  have product : (setCompact nBits).toNat * seconds < 2 ^ 256 :=
    product_lt (target_le within) (le_trans short (by decide))
  have value := @toNat_scaledValue (setCompact nBits) seconds timespan
    (lt_of_le_of_lt short (by decide)) size
  rw [Nat.mod_eq_of_lt product] at value
  unfold atMost
  split
  · rename_i above
    rw [BitVec.lt_def, value] at above
    omega
  · rename_i notAbove
    rw [BitVec.lt_def, value] at notAbove
    omega

include positive

theorem exactRetarget_scaled {clamped : Int} (low : (lower : Int) ≤ clamped)
    (high : clamped ≤ upper) (short : upper ≤ 28800 * 4) (size : timespan < 2 ^ 64) :
    ExactRetarget (setCompact nBits).toNat clamped.toNat lower upper timespan
      (scaled params nBits clamped timespan) := by
  obtain ⟨seconds, rfl⟩ := eq_ofNat_of_zero_le (le_trans (natCast_nonneg lower) low)
  rw [toNat_natCast]
  have value := toNat_retarget main inRange
    (le_trans (ofNat_le.mp high) short) size
  refine ⟨⟨_, rfl, value⟩, fun uncapped => ?_⟩
  rw [min_eq_right uncapped] at value
  generalize bnIs : atMost (divWord (mulWord (setCompact nBits) seconds) timespan) params.powLimit
    = bnNew at value
  have written : scaled params nBits seconds timespan = getCompact bnNew := by rw [scaled, bnIs]
  obtain ⟨cut, near⟩ := setCompact_getCompact_bounds bnNew
  generalize (setCompact nBits).toNat = target at value
  rw [written]
  have whole : (0 : ℚ) < timespan := by exact_mod_cast positive
  refine ⟨?_, ?_⟩
  · -- the quotient is less than one unit below, its compact form less than one part
    have unit : (target * lower / timespan : ℚ) - 1 < bnNew.toNat := by
      have small : target * lower < (bnNew.toNat + 1) * timespan := by
        calc target * lower ≤ target * seconds := Nat.mul_le_mul_left _ (ofNat_le.mp low)
          _ < (bnNew.toNat + 1) * timespan := by
            rw [value]
            rw [add_mul, one_mul]
            exact Nat.lt_div_mul_add positive
      have cast : (target * lower : ℚ) < (bnNew.toNat + 1) * timespan := by exact_mod_cast small
      rw [sub_lt_iff_lt_add, div_lt_iff₀ whole]
      exact cast
    have part : (bnNew.toNat : ℚ) ≤ (setCompact (getCompact bnNew)).toNat * (1 + 1 / 2 ^ 15) := by
      have scaledPart : bnNew.toNat * 2 ^ 15 ≤
          (setCompact (getCompact bnNew)).toNat * (2 ^ 15 + 1) := by
        rcases Nat.eq_zero_or_pos bnNew.toNat with zero | nonzero
        · rw [zero, zero_mul]
          exact Nat.zero_le _
        · exact le_of_lt (near nonzero)
      have cast : (bnNew.toNat * 2 ^ 15 : ℚ) ≤
          (setCompact (getCompact bnNew)).toNat * (2 ^ 15 + 1) := by exact_mod_cast scaledPart
      linarith
    exact lt_of_lt_of_le unit part
  · have quotient : (setCompact (getCompact bnNew)).toNat * timespan ≤ target * upper := by
      calc (setCompact (getCompact bnNew)).toNat * timespan ≤ bnNew.toNat * timespan :=
            Nat.mul_le_mul_right _ cut
        _ ≤ target * seconds := by
          rw [value]
          exact Nat.div_mul_le_self _ _
        _ ≤ target * upper := Nat.mul_le_mul_left _ (ofNat_le.mp high)
    rw [le_div_iff₀ whole]
    exact_mod_cast quotient

end Scaled

/-- At every boundary of the first algorithm and at every block of the third one the
new target is the exact quotient, clamped to the limit. -/
theorem retargets_exact {params : Params} (main : params.powLimit = mainPowLimit)
    (pindexLast : Index) (before : List Index) (inRange : InRange params pindexLast.nBits)
    (blockTime : Int) :
    ((before.length + 1) % 320 = 0 →
      ∃ first nBits, pindexFirst 320 (pindexLast :: before) = some first ∧
        getNextWorkRequiredMooncoinV1 params pindexLast before blockTime = some nBits ∧
        ExactRetarget pindexLast.target
          (clampV1 (before.length + 1) (pindexLast.getBlockTime - first.getBlockTime)).toNat
          (lowerV1 (before.length + 1)) (28800 * 4) 28800 nBits) ∧
      ∃ first nBits, pindexFirst 1 (pindexLast :: before) = some first ∧
        getNextWorkRequiredMooncoinV3 params pindexLast before blockTime = some nBits ∧
        ExactRetarget pindexLast.target
          (clamp (90 - 90 / 4) (90 + 90 / 2) (pindexLast.getBlockTime - first.getBlockTime)).toNat
          (90 - 90 / 4) (90 + 90 / 2) 90 nBits := by
  refine ⟨fun boundary => ?_, ?_⟩
  · obtain ⟨first, found⟩ := pindexFirst_isSome (by decide) (cons_ne_nil pindexLast before)
      boundary
    obtain ⟨low, high⟩ := clampV1_bounds (before.length + 1)
      (pindexLast.getBlockTime - first.getBlockTime)
    refine ⟨first, _, found, ?_, exactRetarget_scaled main inRange (by decide) low high
      (le_refl _) (by decide)⟩
    rw [getNextWorkRequiredMooncoinV1, if_neg (not_not.mpr boundary), found]
    rfl
  · have boundary : (before.length + 1) % 1 = 0 := Nat.mod_one _
    obtain ⟨first, found⟩ := pindexFirst_isSome (by decide) (cons_ne_nil pindexLast before)
      boundary
    obtain ⟨low, high⟩ := @clamp_bounds (90 - 90 / 4) (90 + 90 / 2) (by decide)
      (pindexLast.getBlockTime - first.getBlockTime)
    refine ⟨first, _, found, ?_, exactRetarget_scaled main inRange (by decide) low high
      (by decide) (by decide)⟩
    rw [getNextWorkRequiredMooncoinV3, if_neg (not_not.mpr boundary), found]
    rfl

/-- The genesis target after one block of half an hour. -/
theorem retargets_exact_slowBlock :
    ∃ first nBits, pindexFirst 1 [⟨0x1e0fffff, 1800⟩, ⟨0x1e0fffff, 0⟩] = some first ∧
      getNextWorkRequiredMooncoinV3 mainParams ⟨0x1e0fffff, 1800⟩ [⟨0x1e0fffff, 0⟩] 1890 =
        some nBits ∧
      ExactRetarget (Index.target ⟨0x1e0fffff, 1800⟩)
        (clamp (90 - 90 / 4) (90 + 90 / 2)
          (Index.getBlockTime ⟨0x1e0fffff, 1800⟩ - first.getBlockTime)).toNat
        (90 - 90 / 4) (90 + 90 / 2) 90 nBits :=
  (@retargets_exact mainParams rfl ⟨0x1e0fffff, 1800⟩ [⟨0x1e0fffff, 0⟩]
    ⟨by decide +kernel, by decide +kernel⟩ 1890).2

/-- The division alone can leave the band: a target of one is scaled down to zero. -/
theorem retarget_below_band :
    InRange mainParams 0x01010000 ∧ Index.target ⟨0x01010000, 0⟩ = 1 ∧
      getNextWorkRequiredMooncoinV3 mainParams ⟨0x01010000, 0⟩ [⟨0x01010000, 0⟩] 90 = some 0 ∧
      ¬ ((Index.target ⟨0x01010000, 0⟩ : ℚ) * (90 - 90 / 4 : Nat) / 90 ≤
        (setCompact 0).toNat * (1 + 1 / 2 ^ 15)) := by
  have one : Index.target ⟨0x01010000, 0⟩ = 1 := by decide +kernel
  have zero : (setCompact 0).toNat = 0 := by decide +kernel
  refine ⟨⟨by decide +kernel, by decide +kernel⟩, one, by decide +kernel, ?_⟩
  rw [one, zero]
  norm_num

end MooncoinFormal.Pow
