import MooncoinFormal.Pow.GravityWell

/-!
# Chains that never leave the limit

Networks for tests set `fPowNoRetargeting` and expect every block to carry the bits of
the limit. The flag is read by `CalculateNextWorkRequired` only, which the dispatcher
reaches at no height. Between two retargets of the first algorithm the bits are kept;
wherever an algorithm retargets, a chain whose last block comes one second after all
others is given a smaller target.
-/

namespace MooncoinFormal.Pow

open List Option Nat

variable {params : Params} {horizon horizonV2 horizonV5 : Horizon} {blockTime : Int}
  {nInterval : Nat}

theorem lastNonSpecial_eq {nBits limit : UInt32} {chain : List Index}
    (nonempty : chain ≠ []) (same : ∀ index ∈ chain, index.nBits = nBits) :
    lastNonSpecial limit nInterval chain = some nBits := by
  induction chain with
  | nil => exact absurd rfl nonempty
  | cons pindex rest ih =>
    obtain ⟨first, others⟩ := forall_mem_cons.mp same
    cases rest with
    | nil => rw [lastNonSpecial, first]
    | cons pprev earlier =>
      rw [lastNonSpecial]
      split
      · exact ih (cons_ne_nil _ _) others
      · rw [first]

variable {pindexLast : Index}

theorem betweenRetargets_eq {fTestNet : Bool} {spacing : Int} {before : List Index}
    (same : ∀ index ∈ pindexLast :: before, index.nBits = params.nProofOfWorkLimit) :
    betweenRetargets params fTestNet nInterval spacing pindexLast before blockTime =
      some params.nProofOfWorkLimit := by
  unfold betweenRetargets
  split
  · split
    · rfl
    · exact lastNonSpecial_eq (cons_ne_nil _ _) same
  · rw [same pindexLast mem_cons_self]

/-! ## Smaller targets -/

theorem getCompact_ne {bn : ArithUInt256}
    (smaller : bn.toNat < (setCompact params.nProofOfWorkLimit).toNat) :
    getCompact bn ≠ params.nProofOfWorkLimit := by
  intro same
  have below := (setCompact_getCompact bn).1
  rw [same] at below
  omega

variable {seconds nHeight : Nat} {target : Nat}

theorem toNat_scaledDown_lt {bn : ArithUInt256} (positive : 0 < bn.toNat)
    (down : seconds < target) (size : target < 2 ^ 32) :
    (divWord (mulWord bn seconds) target).toNat < bn.toNat := by
  rw [toNat_scaledValue (lt_trans down size) (lt_trans size (by decide))]
  refine Nat.div_lt_of_lt_mul (lt_of_le_of_lt (mod_le _ _) ?_)
  rw [mul_comm target]
  exact Nat.mul_lt_mul_of_pos_left down positive

theorem toNat_scaledDown_le (bn : ArithUInt256) (down : seconds < target)
    (size : target < 2 ^ 32) : (divWord (mulWord bn seconds) target).toNat ≤ bn.toNat := by
  rcases Nat.eq_zero_or_pos bn.toNat with zero | positive
  · rw [toNat_scaledValue (lt_trans down size) (lt_trans size (by decide)), zero,
      zero_mul, zero_mod, Nat.zero_div]
  · exact le_of_lt (toNat_scaledDown_lt positive down size)

theorem scaled_ne (positive : 0 < params.powLimit.toNat) (down : seconds < target)
    (size : target < 2 ^ 32) :
    scaled params params.nProofOfWorkLimit seconds target ≠ params.nProofOfWorkLimit := by
  have nonzero := (setCompact_getCompact params.powLimit).2 positive
  exact getCompact_ne (lt_of_le_of_lt (toNat_atMost_le _ _) (toNat_scaledDown_lt nonzero down size))

/-! ## A burst of blocks -/

/-- A chain of some height with the bits of the limit, whose last block comes one
second after all others. -/
def burstBefore (nBits : UInt32) (nHeight : Nat) : List Index := replicate nHeight ⟨nBits, 0⟩

theorem burst_carries (nHeight : Nat) (nBits : UInt32) :
    ∀ index ∈ ⟨nBits, 1⟩ :: burstBefore nBits nHeight, index.nBits = nBits := by
  refine forall_mem_cons.mpr ⟨rfl, fun index member => ?_⟩
  rw [eq_of_mem_replicate member]

theorem length_burstBefore (nBits : UInt32) (nHeight : Nat) :
    (burstBefore nBits nHeight).length = nHeight := length_replicate

theorem burst_pindexFirst {nInterval nHeight : Nat} (nBits : UInt32) (positive : 0 < nInterval)
    (enough : nInterval ≤ nHeight + 1) (other : nHeight + 1 = nInterval → 1 < nInterval) :
    pindexFirst nInterval (⟨nBits, 1⟩ :: burstBefore nBits nHeight) = some ⟨nBits, 0⟩ := by
  obtain ⟨index, same, inside⟩ : ∃ index,
      (if (⟨nBits, 1⟩ :: burstBefore nBits nHeight : List Index).length ≠ nInterval then nInterval
        else nInterval - 1) = index + 1 ∧ index < nHeight := by
    rw [length_cons, length_burstBefore]
    split
    · exact ⟨nInterval - 1, by omega, by omega⟩
    · exact ⟨nInterval - 2, by omega, by omega⟩
  rw [pindexFirst, same, getElem?_cons_succ, burstBefore, getElem?_replicate, if_pos inside]

theorem burst_v1 (positive : 0 < params.powLimit.toNat) (retargets : (nHeight + 1) % 320 = 0) :
    getNextWorkRequiredMooncoinV1 params ⟨params.nProofOfWorkLimit, 1⟩
      (burstBefore params.nProofOfWorkLimit nHeight) blockTime ≠ some params.nProofOfWorkLimit := by
  have first := @burst_pindexFirst 320 nHeight params.nProofOfWorkLimit (by decide) (by omega)
    (fun _ => by decide)
  obtain ⟨seconds, clamped, down⟩ : ∃ seconds : Nat,
      clampV1 (nHeight + 1) (1 - 0) = seconds ∧ seconds < 28800 := by
    unfold clampV1
    split
    · exact ⟨7200, by decide, by decide⟩
    · split
      · exact ⟨3600, by decide, by decide⟩
      · exact ⟨1800, by decide, by decide⟩
  have times : (⟨params.nProofOfWorkLimit, 1⟩ : Index).getBlockTime -
      (⟨params.nProofOfWorkLimit, 0⟩ : Index).getBlockTime = 1 - 0 := rfl
  rw [getNextWorkRequiredMooncoinV1, length_burstBefore, if_neg (not_not_intro retargets), first]
  intro same
  rw [bind_eq_bind, bind_some, times, clamped] at same
  exact scaled_ne positive down (by decide) (some.inj same)

theorem burst_v3 (positive : 0 < params.powLimit.toNat) (above : 0 < nHeight) :
    getNextWorkRequiredMooncoinV3 params ⟨params.nProofOfWorkLimit, 1⟩
      (burstBefore params.nProofOfWorkLimit nHeight) blockTime ≠ some params.nProofOfWorkLimit := by
  have first := @burst_pindexFirst 1 nHeight params.nProofOfWorkLimit (by decide) (by omega)
    (by omega)
  rw [getNextWorkRequiredMooncoinV3, if_neg (not_not_intro (mod_one _)), first]
  intro same
  exact scaled_ne positive (by decide : 68 < 90) (by decide) (some.inj same)

/-- What the clocks of both wells count in a burst. -/
structure WellRules.Steady (rules : WellRules) : Prop where
  latest : ∀ nHeight, (rules.clock nHeight 1 1).1 = 1
  other : ∀ nHeight, rules.clock nHeight 1 0 = (1, 1)

theorem steady_wellRulesV2 : wellRulesV2.Steady := by
  refine ⟨fun nHeight => ?_, fun nHeight => ?_⟩
  · simp [wellRulesV2]
  · simp [wellRulesV2]

theorem steady_wellRulesV5 : wellRulesV5.Steady := ⟨fun _ => rfl, fun _ => rfl⟩

variable {rules : WellRules}

theorem clockAfter_zeros (steady : rules.Steady) {passes count : Nat}
    (inside : passes < count) (seconds : Int) :
    clockAfter rules (passes + 1) (replicate count 0) (1, seconds) = (1, 1) := by
  induction passes generalizing count seconds with
  | zero =>
    obtain ⟨fewer, rfl⟩ : ∃ fewer, count = fewer + 1 := ⟨count - 1, by omega⟩
    exact steady.other _
  | succ passes ih =>
    obtain ⟨fewer, rfl⟩ : ∃ fewer, count = fewer + 1 := ⟨count - 1, by omega⟩
    have next : rules.clock (replicate fewer (0 : UInt32)).length 1 (0 : UInt32).toNat = (1, 1) :=
      steady.other _
    rw [replicate_succ, clockAfter, next]
    exact ih (by omega) 1

theorem windowSeconds_burst (steady : rules.Steady) {passes : Nat}
    (enough : 2 ≤ passes) (inside : passes ≤ nHeight + 1) (nBits : UInt32) :
    windowSeconds rules ((⟨nBits, 1⟩ :: burstBefore nBits nHeight).map Index.nTime) passes = 1 := by
  obtain ⟨others, rfl⟩ : ∃ others, passes = others + 2 := ⟨passes - 2, by omega⟩
  have times : (⟨nBits, 1⟩ :: burstBefore nBits nHeight).map Index.nTime =
      1 :: replicate nHeight 0 := by
    rw [map_cons, burstBefore, map_replicate]
  have latest := steady.latest (replicate nHeight (0 : UInt32)).length
  rw [windowSeconds, times]
  show (clockAfter rules (others + 1) _
    (rules.clock (replicate nHeight (0 : UInt32)).length 1 1)).2 = 1
  generalize rules.clock (replicate nHeight (0 : UInt32)).length 1 1 = clock at latest ⊢
  obtain ⟨first, seconds⟩ := clock
  obtain rfl : first = 1 := latest
  rw [clockAfter_zeros steady (by omega)]

theorem burst_well_lt (averages : rules.Averages) (keeps : rules.KeepsTime)
    (steady : rules.Steady) (two : 2 ≤ rules.pastBlocksMin)
    (ordered : rules.pastBlocksMin ≤ rules.pastBlocksMax) (small : rules.pastBlocksMax ≤ 2 ^ 20)
    {nHeight : Nat} (enough : rules.pastBlocksMin ≤ nHeight) {nBits : UInt32}
    (positive : 0 < (setCompact nBits).toNat) :
    (wellLoop rules horizon (⟨nBits, 1⟩ :: burstBefore nBits nHeight)
      (wellStart ⟨nBits, 1⟩)).value.toNat < (setCompact nBits).toNat := by
  obtain ⟨passes, read, reached, within, inside⟩ := @read_wellLoop rules averages keeps ⟨nBits, 1⟩
    (burstBefore nBits nHeight) horizon (by omega) ordered small (by rwa [length_burstBefore])
  rw [length_burstBefore] at inside
  have seconds := read.seconds.trans
    (windowSeconds_burst steady (le_trans two reached) (le_succ_of_le inside) nBits)
  have constant : runningAverage
      (((⟨nBits, 1⟩ :: burstBefore nBits nHeight).take passes).map Index.target) =
      (setCompact nBits).toNat := by
    refine runningAverage_constant (by omega) fun index member => ?_
    rw [Index.target, burst_carries nHeight nBits index member]
  rw [read.value (by omega) (le_trans within small) (by rw [seconds]; decide), seconds, constant]
  refine lt_of_le_of_lt (div_le_div_left (by omega : 2 ≤ 90 * passes) (by decide)) ?_
  refine lt_of_le_of_lt (Nat.div_le_div_right (mod_le _ _)) ?_
  show (setCompact nBits).toNat * 1 / 2 < _
  omega

theorem burst_v2 (positive : 0 < params.powLimit.toNat)
    (enough : wellRulesV2.pastBlocksMin ≤ nHeight) (ordinary : nHeight + 1 ≠ 1099915) :
    getNextWorkRequiredMooncoinV2 params horizon ⟨params.nProofOfWorkLimit, 1⟩
      (burstBefore params.nProofOfWorkLimit nHeight) ≠ params.nProofOfWorkLimit := by
  have smaller := @burst_well_lt horizon wellRulesV2 averages_wellRulesV2 keepsTime_wellRulesV2
    steady_wellRulesV2 (by decide) (by decide) (by decide) nHeight enough params.nProofOfWorkLimit
    ((setCompact_getCompact params.powLimit).2 positive)
  have nonzero : 0 < nHeight := lt_of_lt_of_le (by decide) enough
  have below := (setCompact_getCompact params.powLimit).1
  have notAbove : ¬ params.nProofOfWorkLimit < getCompact (wellV2 horizon
      ⟨params.nProofOfWorkLimit, 1⟩ (burstBefore params.nProofOfWorkLimit nHeight)).value := by
    exact not_lt.mpr (getCompact_mono (le_of_lt (lt_of_lt_of_le smaller below)))
  rw [getNextWorkRequiredMooncoinV2, length_burstBefore, if_neg (by omega)]
  dsimp only
  rw [if_neg notAbove, if_neg ordinary]
  exact getCompact_ne smaller

theorem burst_mixed_lt {kgwDual1 : ArithUInt256} {nBits : UInt32}
    (positive : 0 < (setCompact nBits).toNat)
    (smaller : kgwDual1.toNat < (setCompact nBits).toNat) :
    (mixedV5 params kgwDual1 ⟨nBits, 1⟩ ⟨nBits, 0⟩ 1).toNat < (setCompact nBits).toNat := by
  have times : (⟨nBits, 1⟩ : Index).getBlockTime - (⟨nBits, 0⟩ : Index).getBlockTime = 1 := rfl
  have own : (1 : Int) - (⟨nBits, 1⟩ : Index).getBlockTime = 0 := rfl
  have clamped : clampLast 1 = (30 : Nat) := by decide
  unfold mixedV5
  simp only [times, own, clamped]
  have dual2 := toNat_scaledDown_lt positive (by decide : 30 < 90) (by decide)
  generalize divWord (mulWord (setCompact nBits) (30 : Nat)) (90 : Nat) = kgwDual2 at dual2 ⊢
  have half : (divWord (kgwDual2 + kgwDual1) 2).toNat < (setCompact nBits).toNat := by
    have sum : (divWord (kgwDual2 + kgwDual1) 2).toNat =
        (kgwDual2.toNat + kgwDual1.toNat) % 2 ^ 256 / 2 := by
      rfl
    omega
  exact lt_of_le_of_lt (toNat_scaledDown_le _ (by decide : 85 < 100) (by decide)) half

theorem burst_v5 (positive : 0 < params.powLimit.toNat)
    (enough : wellRulesV5.pastBlocksMin ≤ nHeight)
    (ordinary : compatibilityPoint (nHeight + 1) = none) :
    getNextWorkRequiredMooncoinV5 params horizon ⟨params.nProofOfWorkLimit, 1⟩
      (burstBefore params.nProofOfWorkLimit nHeight) 1 ≠ some params.nProofOfWorkLimit := by
  have nonzero := (setCompact_getCompact params.powLimit).2 positive
  have smaller := @burst_well_lt horizon wellRulesV5 averages_wellRulesV5 keepsTime_wellRulesV5
    steady_wellRulesV5 (by decide) (by decide) (by decide) nHeight enough params.nProofOfWorkLimit
    nonzero
  have above : 0 < nHeight := lt_of_lt_of_le (by decide) enough
  have pprev : (burstBefore params.nProofOfWorkLimit nHeight).head? =
      some ⟨params.nProofOfWorkLimit, 0⟩ := by
    obtain ⟨fewer, rfl⟩ : ∃ fewer, nHeight = fewer + 1 := ⟨nHeight - 1, by omega⟩
    rfl
  rw [getNextWorkRequiredMooncoinV5, length_burstBefore, if_neg (by omega), pprev]
  intro same
  rw [bind_eq_bind, bind_some, ordinary] at same
  exact getCompact_ne (lt_of_le_of_lt (toNat_atMost_le _ _) (burst_mixed_lt nonzero smaller))
    (some.inj same)

section ZeroLimit

variable (zero : params.powLimit = 0)

include zero

theorem atMost_zero (bn : ArithUInt256) : getCompact (atMost bn params.powLimit) =
    params.nProofOfWorkLimit := by
  have below : atMost bn params.powLimit = params.powLimit := by
    rw [zero]
    unfold atMost
    split
    · rfl
    · rename_i notAbove
      apply BitVec.eq_of_toNat_eq
      rw [BitVec.lt_def] at notAbove
      have empty : (0 : ArithUInt256).toNat = 0 := rfl
      omega
  rw [below]
  rfl

theorem clampCompact_zero (bn : ArithUInt256) :
    getCompact (if params.nProofOfWorkLimit < getCompact bn then params.powLimit else bn) =
      params.nProofOfWorkLimit := by
  split
  · rfl
  rename_i notAbove
  have limit : params.nProofOfWorkLimit = 0 := by
    rw [Params.nProofOfWorkLimit, zero]
    decide
  rw [limit, UInt32.lt_iff_toNat_lt] at notAbove
  rw [limit]
  apply UInt32.toNat_inj.mp
  have empty : (0 : UInt32).toNat = 0 := rfl
  omega

end ZeroLimit

/-! ## The heights that keep the limit -/

/-- Where the bits of the limit are kept: between the retargets of the first algorithm,
at heights with fixed bits if they are the limit's, and elsewhere if there is no target
at all. -/
def KeepsLimit (params : Params) (nextHeight : Nat) : Prop :=
  if nextHeight < 26850 then nextHeight % 320 ≠ 0 ∨ params.powLimit = 0
  else if nextHeight < 1100000 then
    if nextHeight = 1099915 then params.nProofOfWorkLimit = 471071101 else params.powLimit = 0
  else if nextHeight < 1250000 then params.powLimit = 0
  else if nextHeight < 1250000 + 8 then params.nProofOfWorkLimit = 0x1e0fffff
  else
    match compatibilityPoint nextHeight with
    | some nBits => params.nProofOfWorkLimit = nBits
    | none => params.powLimit = 0

/-- The next block of every chain at the limit is given the limit. -/
def KeepsAt (params : Params) (horizonV2 horizonV5 : Horizon) (nHeight : Nat) : Prop :=
  ∀ (pindexLast : Index) (before : List Index) (candidate : UInt32), before.length = nHeight →
    (∀ index ∈ pindexLast :: before, index.nBits = params.nProofOfWorkLimit) →
    getNextWorkRequired params horizonV2 horizonV5 (pindexLast :: before) candidate.toNat =
      some pindexLast.nBits

theorem getNextWorkRequired_eq (pindexLast : Index) (before : List Index) :
    getNextWorkRequired params horizonV2 horizonV5 (pindexLast :: before) blockTime =
      getNextWorkRequiredMooncoinCompat params horizonV2 horizonV5 pindexLast before blockTime := by
  unfold getNextWorkRequired
  exact if_pos (Nat.le_add_left _ _)

section Sufficient

variable {pindexLast : Index} {before : List Index}
  (same : ∀ index ∈ pindexLast :: before, index.nBits = params.nProofOfWorkLimit)

include same

theorem keeps_v1 (kept : (before.length + 1) % 320 ≠ 0 ∨ params.powLimit = 0) :
    getNextWorkRequiredMooncoinV1 params pindexLast before blockTime =
      some params.nProofOfWorkLimit := by
  unfold getNextWorkRequiredMooncoinV1
  split
  · exact betweenRetargets_eq same
  · rename_i retargets
    have whole := Decidable.not_not.mp retargets
    obtain ⟨first, found⟩ := pindexFirst_isSome (by decide) (cons_ne_nil pindexLast before) whole
    have zero := kept.resolve_left retargets
    rw [found]
    exact congrArg some (atMost_zero zero _)

theorem keeps_v3 (zero : params.powLimit = 0) :
    getNextWorkRequiredMooncoinV3 params pindexLast before blockTime =
      some params.nProofOfWorkLimit := by
  unfold getNextWorkRequiredMooncoinV3
  split
  · exact betweenRetargets_eq same
  · obtain ⟨first, found⟩ := @pindexFirst_isSome 1 (by decide) _
      (cons_ne_nil pindexLast before) (mod_one _)
    rw [found]
    exact congrArg some (atMost_zero zero _)

omit same in
theorem keeps_v2 (kept : if before.length + 1 = 1099915 then params.nProofOfWorkLimit = 471071101
      else params.powLimit = 0) :
    getNextWorkRequiredMooncoinV2 params horizon pindexLast before = params.nProofOfWorkLimit := by
  unfold getNextWorkRequiredMooncoinV2
  split
  · rfl
  split
  · rename_i fixed
    rw [if_pos fixed] at kept
    exact kept.symm
  · rename_i ordinary
    rw [if_neg ordinary] at kept
    exact clampCompact_zero kept _

omit same in
theorem keeps_v5 (kept : match compatibilityPoint (before.length + 1) with
      | some nBits => params.nProofOfWorkLimit = nBits
      | none => params.powLimit = 0) :
    getNextWorkRequiredMooncoinV5 params horizon pindexLast before blockTime =
      some params.nProofOfWorkLimit := by
  unfold getNextWorkRequiredMooncoinV5
  split
  · rfl
  rename_i high
  cases before with
  | nil => exact absurd (.inl rfl) high
  | cons pprev earlier =>
    cases fixed : compatibilityPoint ((pprev :: earlier).length + 1) with
    | some nBits =>
      rw [fixed] at kept
      exact congrArg some kept.symm
    | none =>
      rw [fixed] at kept
      exact congrArg some (atMost_zero kept _)

end Sufficient

/-- Whether or not retargeting is switched off, a network keeps its chains at the limit
after a block of some height exactly at the heights of the condition. -/
theorem getNextWorkRequired_keeps_iff (params : Params) (horizonV2 horizonV5 : Horizon)
    (nHeight : Nat) :
    KeepsAt params horizonV2 horizonV5 nHeight ↔ KeepsLimit params (nHeight + 1) := by
  constructor
  · intro keeps
    have burst := keeps ⟨params.nProofOfWorkLimit, 1⟩
      (burstBefore params.nProofOfWorkLimit nHeight) 1
      (length_burstBefore _ _) (burst_carries _ _)
    rw [getNextWorkRequired_eq, getNextWorkRequiredMooncoinCompat, length_burstBefore] at burst
    have limit : params.powLimit = 0 ∨ 0 < params.powLimit.toNat := by
      rcases Nat.eq_zero_or_pos params.powLimit.toNat with zero | positive
      · exact .inl (BitVec.eq_of_toNat_eq zero)
      · exact .inr positive
    unfold KeepsLimit
    have leastV2 : wellRulesV2.pastBlocksMin = 240 := rfl
    have leastV5 : wellRulesV5.pastBlocksMin = 24 := rfl
    by_cases first : nHeight + 1 < 26850
    · rw [if_pos first] at burst ⊢
      rcases limit with zero | positive
      · exact .inr zero
      · exact .inl fun retargets => burst_v1 positive retargets burst
    rw [if_neg first] at burst ⊢
    by_cases well : nHeight + 1 < 1100000
    · rw [if_pos well] at burst ⊢
      split
      · rename_i fixed
        have enough : ¬ (nHeight = 0 ∨ nHeight < wellRulesV2.pastBlocksMin) := by omega
        rw [getNextWorkRequiredMooncoinV2, length_burstBefore, if_neg enough] at burst
        rw [if_pos fixed] at burst
        exact (some.inj burst).symm
      · rename_i ordinary
        exact limit.resolve_right fun positive =>
          burst_v2 positive (by omega) ordinary (some.inj burst)
    rw [if_neg well] at burst ⊢
    by_cases every : nHeight + 1 < 1250000
    · rw [if_pos every] at burst ⊢
      exact limit.resolve_right fun positive => burst_v3 positive (by omega) burst
    rw [if_neg every] at burst ⊢
    by_cases smoothing : nHeight + 1 < 1250000 + 8
    · rw [if_pos smoothing] at burst ⊢
      exact (some.inj burst).symm
    rw [if_neg smoothing] at burst ⊢
    split
    · rename_i nBits fixed
      have enough : ¬ (nHeight = 0 ∨ nHeight < wellRulesV5.pastBlocksMin) := by omega
      rw [getNextWorkRequiredMooncoinV5, length_burstBefore, if_neg enough, fixed] at burst
      obtain ⟨pprev, -, done⟩ := bind_eq_some_iff.mp burst
      exact (some.inj done).symm
    · rename_i ordinary
      exact limit.resolve_right fun positive => burst_v5 positive (by omega) ordinary burst
  · intro kept pindexLast before candidate length same
    subst length
    rw [getNextWorkRequired_eq, same pindexLast mem_cons_self, getNextWorkRequiredMooncoinCompat]
    unfold KeepsLimit at kept
    by_cases first : before.length + 1 < 26850
    · rw [if_pos first] at kept ⊢
      exact keeps_v1 same kept
    rw [if_neg first] at kept ⊢
    by_cases well : before.length + 1 < 1100000
    · rw [if_pos well] at kept ⊢
      exact congrArg some (keeps_v2 kept)
    rw [if_neg well] at kept ⊢
    by_cases every : before.length + 1 < 1250000
    · rw [if_pos every] at kept ⊢
      exact keeps_v3 same kept
    rw [if_neg every] at kept ⊢
    by_cases smoothing : before.length + 1 < 1250000 + 8
    · rw [if_pos smoothing] at kept ⊢
      rw [kept]
    · rw [if_neg smoothing] at kept ⊢
      exact keeps_v5 kept

def regTestParams : Params where
  powLimit := BitVec.ofNat 256 (2 ^ 255 - 1)
  nPowTargetTimespan := 302400
  nPowTargetSpacing := 150
  fPowAllowMinDifficultyBlocks := true
  fPowNoRetargeting := true

/-- At height 319, the first retarget, blocks that all carry the limit's bits are followed
by one that has to carry others. -/
theorem regTest_retargets :
    regTestParams.fPowNoRetargeting = true ∧
    getNextWorkRequired regTestParams (fun _ _ _ => true) (fun _ _ _ => true)
      (⟨regTestParams.nProofOfWorkLimit, 1⟩ :: burstBefore regTestParams.nProofOfWorkLimit 319) 1 ≠
      some regTestParams.nProofOfWorkLimit := by
  decide +kernel

end MooncoinFormal.Pow
