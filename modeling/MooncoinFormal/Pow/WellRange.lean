import MooncoinFormal.Pow.GravityWell

/-!
# The bits that the wells return

The first well clamps its quotient; the second one first mixes it with the target of
the last block, less after a short interval. Small targets can be lost on the way: the
mixed value can be zero although the quotient is not.
-/

namespace MooncoinFormal.Pow

open List Index Nat

variable {pindexLast pprev : Index} {before : List Index} {blockTime : Int}

/-- What the first well should do above its smallest mass: an exact quotient before
the clamp, and bits in range when the quotient is not zero. -/
structure ExactV2 (horizon : Horizon) (pindexLast : Index) (before : List Index) : Prop where
  exact : (wellV2 horizon pindexLast before).Exact (pindexLast :: before)
  inRange : 1 ≤ (wellV2 horizon pindexLast before).value.toNat →
    InRange mainParams (getNextWorkRequiredMooncoinV2 mainParams horizon pindexLast before)

theorem mainParams_limit : 1 ≤ mainParams.powLimit.toNat := by decide

theorem inRange_mooncoinV2 {horizon : Horizon}
    (positive : 1 ≤ (wellV2 horizon pindexLast before).value.toNat) :
    InRange mainParams (getNextWorkRequiredMooncoinV2 mainParams horizon pindexLast before) := by
  unfold getNextWorkRequiredMooncoinV2
  split
  · exact inRange_getCompact mainParams_limit (le_refl _)
  · dsimp only
    split
    · exact ⟨by decide, by decide⟩
    · exact inRange_clampCompact mainParams_limit positive

theorem inRange_compatibilityPoint {nextHeight : Nat} {nBits : UInt32}
    (fixed : compatibilityPoint nextHeight = some nBits) : InRange mainParams nBits := by
  unfold compatibilityPoint at fixed
  split_ifs at fixed <;> cases fixed <;> exact ⟨by decide +kernel, by decide +kernel⟩

/-! ## The mixed value -/

theorem clampLast_eq (interval : Int) : ∃ seconds : Nat, clampLast interval = seconds ∧
    30 ≤ seconds ∧ seconds ≤ 270 ∧ (interval < 0 → seconds = 90) ∧
    (0 ≤ interval → interval < 90 → seconds < 90) ∧ (90 ≤ interval → 90 ≤ seconds) := by
  refine ⟨(clampLast interval).toNat, ?_⟩
  unfold clampLast clamp
  dsimp only
  split_ifs <;> omega

theorem toNat_divWord (bn : ArithUInt256) {target : Nat} (size : target < 2 ^ 64) :
    (divWord bn target).toNat = bn.toNat / target := by
  have word : ((target : Int) % 2 ^ 64).toNat = target := by omega
  rw [divWord, word, BitVec.toNat_udiv, BitVec.toNat_ofNat,
    mod_eq_of_lt (lt_trans size (by decide))]

theorem mixedV5_pos_iff {kgwDual1 : ArithUInt256} (within : pindexLast.target ≤ largestTarget)
    (small : kgwDual1.toNat < 2 ^ 245) (going : ¬ blockTime - pindexLast.getBlockTime > 3600) :
    let interval := pindexLast.getBlockTime - pprev.getBlockTime
    1 ≤ (mixedV5 mainParams kgwDual1 pindexLast pprev blockTime).toNat ↔
      (if interval < 15 then 4 else 2) ≤
        pindexLast.target * (clampLast interval).toNat / 90 + kgwDual1.toNat := by
  intro interval
  obtain ⟨seconds, clamped, low, high, -⟩ := clampLast_eq interval
  have product : pindexLast.target * seconds < 2 ^ 245 :=
    lt_of_le_of_lt (Nat.mul_le_mul within high) (by decide)
  let kgwDual2 := divWord (mulWord (setCompact pindexLast.nBits) (clampLast interval)) 90
  have dual2 : kgwDual2.toNat = pindexLast.target * seconds / 90 := by
    have scaled := @toNat_scaledValue (setCompact pindexLast.nBits) seconds 90
      (by omega) (by decide)
    rw [← clamped] at scaled
    exact scaled.trans (congrArg (· / 90) (mod_eq_of_lt (lt_trans product (by decide))))
  have half : (divWord (kgwDual2 + kgwDual1) 2).toNat = (kgwDual2.toNat + kgwDual1.toNat) / 2 := by
    have sum := toNat_divWord (kgwDual2 + kgwDual1) (by decide : 2 < 2 ^ 64)
    rwa [BitVec.toNat_add, mod_eq_of_lt (by omega)] at sum
  have mixed : mixedV5 mainParams kgwDual1 pindexLast pprev blockTime = if interval < 15
      then divWord (mulWord (divWord (kgwDual2 + kgwDual1) 2) 85) 100
      else divWord (kgwDual2 + kgwDual1) 2 := if_neg going
  rw [mixed, clamped, Int.toNat_natCast, ← dual2]
  split
  · have less := @toNat_scaledValue (divWord (kgwDual2 + kgwDual1) 2) 85 100 (by decide) (by decide)
    rw [half, mod_eq_of_lt (by omega)] at less
    rw [show (divWord (mulWord (divWord (kgwDual2 + kgwDual1) 2) 85) 100).toNat =
      (kgwDual2.toNat + kgwDual1.toNat) / 2 * 85 / 100 from less]
    omega
  · rw [half]
    omega

/-! ## Both wells -/

/-- When the bits of the second well are in range: at the heights with fixed bits, after a
stall, and when the quotient and the last target, scaled by the last interval, are not
both too small. -/
def KeptV5 (quotient nextHeight : Nat) (pindexLast pprev : Index) (blockTime : Int) : Prop :=
  let interval := pindexLast.getBlockTime - pprev.getBlockTime
  compatibilityPoint nextHeight ≠ none ∨ blockTime - pindexLast.getBlockTime > 3600 ∨
    (if interval < 15 then 4 else 2) ≤
      pindexLast.target * (clampLast interval).toNat / 90 + quotient

theorem inRange_mixedV5_iff {kgwDual1 : ArithUInt256} {nextHeight : Nat}
    (within : pindexLast.target ≤ largestTarget) (small : kgwDual1.toNat < 2 ^ 245) :
    InRange mainParams ((compatibilityPoint nextHeight).getD (getCompact
        (atMost (mixedV5 mainParams kgwDual1 pindexLast pprev blockTime) mainParams.powLimit))) ↔
      KeptV5 kgwDual1.toNat nextHeight pindexLast pprev blockTime := by
  unfold KeptV5
  cases fixed : compatibilityPoint nextHeight with
  | some nBits => simp [inRange_compatibilityPoint fixed]
  | none =>
    rw [Option.getD_none, inRange_atMost_iff mainParams_limit]
    by_cases stall : blockTime - pindexLast.getBlockTime > 3600
    · have value : mixedV5 mainParams kgwDual1 pindexLast pprev blockTime =
          divWord mainParams.powLimit 15 := if_pos stall
      simp only [value, stall, true_or, or_true, iff_true]
      decide
    · refine (mixedV5_pos_iff within small stall).trans ?_
      simp [stall]

theorem value_wellV5_lt (horizon : Horizon)
    (targets : ∀ index ∈ pindexLast :: before, 0 < index.target ∧ index.target ≤ mainPowLimit.toNat)
    (enough : wellRulesV5.pastBlocksMin ≤ before.length) :
    (wellV5 horizon pindexLast before).value.toNat < 2 ^ 245 := by
  obtain ⟨passes, read, reached, within, inside⟩ := @read_wellLoop wellRulesV5 averages_wellRulesV5
    keepsTime_wellRulesV5 pindexLast before horizon (by decide) (by decide) (by decide) enough
  have least : 24 ≤ passes := reached
  by_cases zero : (wellV5 horizon pindexLast before).pastRateActualSeconds = 0
  · have unscaled : (wellV5 horizon pindexLast before).value =
        (wellV5 horizon pindexLast before).pastDifficultyAverage := if_neg fun both => both.1 zero
    rw [unscaled]
    exact lt_of_le_of_lt (read.average.trans_le (runningAverage_le fun index member =>
      (targets index member).2)) (by decide)
  · refine lt_of_eq_of_lt (read.value (by omega) (le_trans within (by decide)) zero) ?_
    refine Nat.div_lt_of_lt_mul (lt_of_lt_of_le (mod_lt _ (by decide)) ?_)
    calc 2 ^ 256 ≤ 2 ^ 11 * 2 ^ 245 := by decide
      _ ≤ 90 * passes * 2 ^ 245 := Nat.mul_le_mul_right _ (by omega)

/-- For given times both wells are exact, for all targets in the range of the main network
and every stopping block, exactly if the windows span between one and 1048577 seconds.
The bits of the first well are then in range when its quotient is not zero; those of the
second well are in range exactly when its quotient is not lost. -/
theorem gravityWells_exact_iff (times : List UInt32) :
    ((∀ pindexLast before, (pindexLast :: before).map nTime = times →
      (∀ index ∈ pindexLast :: before, 0 < index.target ∧ index.target ≤ mainPowLimit.toNat) →
      ∀ horizon,
        (wellRulesV2.pastBlocksMin ≤ before.length → ExactV2 horizon pindexLast before) ∧
        (wellRulesV5.pastBlocksMin ≤ before.length →
          (wellV5 horizon pindexLast before).Exact (pindexLast :: before))) ↔
    (∀ mass, 240 ≤ mass → mass ≤ 6720 → mass < times.length →
      1 ≤ windowSeconds wellRulesV2 times mass ∧
        windowSeconds wellRulesV2 times mass ≤ longestWindow) ∧
    ∀ mass, 24 ≤ mass → mass ≤ 6720 → mass < times.length →
      1 ≤ windowSeconds wellRulesV5 times mass ∧
        windowSeconds wellRulesV5 times mass ≤ longestWindow) ∧
    ∀ pindexLast pprev earlier, (pindexLast :: pprev :: earlier).map nTime = times →
      (∀ index ∈ pindexLast :: pprev :: earlier,
        0 < index.target ∧ index.target ≤ mainPowLimit.toNat) →
      wellRulesV5.pastBlocksMin ≤ (pprev :: earlier).length → ∀ horizon blockTime,
        ∃ nBits, getNextWorkRequiredMooncoinV5 mainParams horizon pindexLast (pprev :: earlier)
            blockTime = some nBits ∧
          (InRange mainParams nBits ↔
            KeptV5 (wellV5 horizon pindexLast (pprev :: earlier)).value.toNat
            times.length pindexLast pprev blockTime) := by
  have first := wellLoop_exact_iff averages_wellRulesV2 keepsTime_wellRulesV2
    (by decide) (by decide) (by decide) times
  have second := wellLoop_exact_iff averages_wellRulesV5 keepsTime_wellRulesV5
    (by decide) (by decide) (by decide) times
  refine ⟨⟨fun exact => ⟨first.mp ?_, second.mp ?_⟩, ?_⟩, ?_⟩
  · intro pindexLast before sameTimes targets enough horizon
    exact ((exact pindexLast before sameTimes targets horizon).1 enough).exact
  · intro pindexLast before sameTimes targets enough horizon
    exact (exact pindexLast before sameTimes targets horizon).2 enough
  · rintro ⟨windowsV2, windowsV5⟩ pindexLast before sameTimes targets horizon
    refine ⟨fun enough => ⟨?_, inRange_mooncoinV2⟩, fun enough => ?_⟩
    · exact first.mpr windowsV2 pindexLast before sameTimes targets enough horizon
    · exact second.mpr windowsV5 pindexLast before sameTimes targets enough horizon
  · intro pindexLast pprev earlier sameTimes targets enough horizon blockTime
    rw [getNextWorkRequiredMooncoinV5, if_neg (by rw [length_cons] at enough ⊢; omega), ← sameTimes,
      length_map]
    exact ⟨_, rfl, inRange_mixedV5_iff (target_le (targets _ mem_cons_self).2)
      (value_wellV5_lt horizon targets enough)⟩

def stalledChain : List Index := replicate 240 ⟨0x1e0fffff, 0⟩

def lateBlock : Index := ⟨0x1e0fffff, 1048578⟩

/-- The product wraps: instead of the limit, which the exact quotient exceeds, the well
returns bits of a target more than ten thousand times smaller. -/
theorem lateBlock_wraps :
    (∀ index ∈ lateBlock :: stalledChain, 0 < index.target ∧ index.target ≤ mainPowLimit.toNat) ∧
    ¬ (wellV2 (fun _ _ _ => true) lateBlock stalledChain).Exact (lateBlock :: stalledChain) ∧
    mainPowLimit.toNat < largestTarget * 1048578 / (90 * 240) ∧
    (setCompact (getNextWorkRequiredMooncoinV2 mainParams (fun _ _ _ => true) lateBlock
      stalledChain)).toNat * 10000 < mainPowLimit.toNat := by
  decide +kernel

end MooncoinFormal.Pow
