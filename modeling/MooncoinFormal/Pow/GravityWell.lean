import Mathlib
import MooncoinFormal.Pow.Retarget

/-!
# Gravity wells over the integers

The loop of a well reads some number of blocks back from the tip; what it leaves is
the state after so many passes, whichever block the test for the event horizon picks.
The running average of targets stays between the smallest and the largest of them
and is computed without a wrap. The product with the seconds that passed is one of
256 bits: with targets up to the limit of the main network it is exact as long as
the window spans at most 1048577 seconds, and wraps for some targets beyond.
-/

namespace MooncoinFormal.Pow

open List Index Nat

/-! ## Passes -/

variable {passes : Nat} {chain : List Index}

section Passes

variable (rules : WellRules)

def wellAfter : (passes : Nat) → List Index → WellState → WellState
  | 0, _, state => state
  | _ + 1, [], state => state
  | passes + 1, blockReading :: pprev, state =>
    wellAfter passes pprev (wellPass rules pprev.length blockReading state)

/-- The clock after some passes, which reads only the times. -/
def clockAfter : (passes : Nat) → List UInt32 → Int × Int → Int × Int
  | 0, _, clock => clock
  | _ + 1, [], clock => clock
  | passes + 1, time :: earlier, clock =>
    clockAfter passes earlier (rules.clock earlier.length clock.1 time.toNat)

variable {rules}

theorem pastBlocksMass_wellAfter (inside : passes ≤ chain.length) (state : WellState) :
    (wellAfter rules passes chain state).pastBlocksMass = state.pastBlocksMass + passes := by
  induction passes generalizing chain state with
  | zero => rfl
  | succ passes ih =>
    cases chain with
    | nil => exact absurd inside (not_succ_le_zero _)
    | cons blockReading pprev =>
      rw [wellAfter, ih (le_of_succ_le_succ inside)]
      show state.pastBlocksMass + 1 + passes = _
      omega

theorem clock_wellAfter (passes : Nat) (chain : List Index) (state : WellState) :
    ((wellAfter rules passes chain state).latestBlockTime,
        (wellAfter rules passes chain state).pastRateActualSeconds) =
      clockAfter rules passes (chain.map nTime)
        (state.latestBlockTime, state.pastRateActualSeconds) := by
  induction passes generalizing chain state with
  | zero => rfl
  | succ passes ih =>
    cases chain with
    | nil => rfl
    | cons blockReading pprev =>
      rw [wellAfter, ih, map_cons, clockAfter, length_map]
      rfl

variable {horizon : Horizon}

theorem wellLoop_eq (limited : 0 < rules.pastBlocksMax) (chain : List Index)
    (nonempty : chain ≠ []) (state : WellState)
    (below : state.pastBlocksMass ≤ rules.pastBlocksMax) :
    ∃ passes, wellLoop rules horizon chain state = wellAfter rules passes chain state ∧
      passes < chain.length ∧ state.pastBlocksMass + passes ≤ rules.pastBlocksMax ∧
      (rules.pastBlocksMin ≤ state.pastBlocksMass + passes ∨
        state.pastBlocksMass + passes = rules.pastBlocksMax ∨ passes + 1 = chain.length) := by
  induction chain generalizing state with
  | nil => exact absurd rfl nonempty
  | cons blockReading pprev ih =>
    rw [wellLoop]
    split
    · rename_i first
      exact ⟨0, rfl, succ_pos _, below, .inr (.inr (by rw [length_cons, first]))⟩
    rename_i higher
    split
    · rename_i full
      exact ⟨0, rfl, succ_pos _, below, .inr (.inl (le_antisymm below (le_of_lt_succ full.2)))⟩
    rename_i room
    have next : state.pastBlocksMass + 1 ≤ rules.pastBlocksMax :=
      Nat.le_of_not_lt fun full => room ⟨limited, full⟩
    dsimp only
    split
    · rename_i stops
      rw [Bool.and_eq_true, decide_eq_true_eq] at stops
      refine ⟨1, rfl, ?_, next, .inl stops.1⟩
      rw [length_cons]
      omega
    · obtain ⟨passes, same, inside, within, stopped⟩ :=
        ih (ne_nil_of_length_pos (pos_of_ne_zero higher))
          (wellPass rules pprev.length blockReading state) next
      have mass : (wellPass rules pprev.length blockReading state).pastBlocksMass =
          state.pastBlocksMass + 1 := rfl
      rw [mass] at within stopped
      rw [show state.pastBlocksMass + 1 + passes = state.pastBlocksMass + (passes + 1) by omega]
        at within stopped
      refine ⟨passes + 1, same, succ_lt_succ inside, within, ?_⟩
      rcases stopped with enough | largest | first
      · exact .inl enough
      · exact .inr (.inl largest)
      · exact .inr (.inr (by rw [length_cons, first]))

theorem wellLoop_of_horizon {mass : Nat} (enough : rules.pastBlocksMin ≤ mass)
    (allowed : mass ≤ rules.pastBlocksMax) (chain : List Index) (state : WellState) (passes : Nat)
    (left : state.pastBlocksMass + (passes + 1) = mass) (inside : passes + 1 < chain.length) :
    wellLoop rules (fun found _ _ => decide (found = mass)) chain state =
      wellAfter rules (passes + 1) chain state := by
  induction chain generalizing passes state with
  | nil => exact absurd inside (not_lt_zero _)
  | cons blockReading pprev ih =>
    rw [length_cons] at inside
    rw [wellLoop, if_neg (by omega), if_neg (by omega)]
    show (if (decide (_ ≤ state.pastBlocksMass + 1) && decide (state.pastBlocksMass + 1 = mass)) =
      true then _ else _) = _
    cases passes with
    | zero =>
      rw [left, decide_eq_true enough, decide_eq_true rfl]
      rfl
    | succ passes =>
      rw [if_neg (by rw [Bool.and_eq_true, decide_eq_true_eq, decide_eq_true_eq]; omega)]
      refine ih _ passes ?_ (by omega)
      show state.pastBlocksMass + 1 + (passes + 1) = mass
      omega

end Passes

/-! ## Running averages -/

/-- The running average of numbers, from the one that was read last on. -/
def averageFrom : (i prev : Nat) → List Nat → Nat
  | _, prev, [] => prev
  | i, prev, current :: rest =>
    averageFrom (i + 1)
      (if prev < current then prev + (current - prev) / (i + 1)
        else prev - (prev - current) / (i + 1)) rest

/-- The running average of targets in the order in which they are read. -/
def runningAverage : List Nat → Nat
  | [] => 0
  | first :: rest => averageFrom 1 first rest

theorem averageFrom_between {low high : Nat} (i prev : Nat) (numbers : List Nat)
    (start : low ≤ prev ∧ prev ≤ high) (all : ∀ number ∈ numbers, low ≤ number ∧ number ≤ high) :
    low ≤ averageFrom i prev numbers ∧ averageFrom i prev numbers ≤ high := by
  induction numbers generalizing i prev with
  | nil => exact start
  | cons current rest ih =>
    obtain ⟨first, others⟩ := forall_mem_cons.mp all
    refine ih (i + 1) _ ?_ others
    split
    · have share := div_le_self (current - prev) (i + 1)
      generalize (current - prev) / (i + 1) = quotient at share ⊢
      omega
    · have share := div_le_self (prev - current) (i + 1)
      generalize (prev - current) / (i + 1) = quotient at share ⊢
      omega

theorem runningAverage_between {low high : Nat} {numbers : List Nat}
    (all : ∀ number ∈ numbers, low ≤ number ∧ number ≤ high) :
    (numbers ≠ [] → low ≤ runningAverage numbers) ∧ runningAverage numbers ≤ high := by
  cases numbers with
  | nil => exact ⟨absurd rfl, zero_le _⟩
  | cons first rest =>
    obtain ⟨start, others⟩ := forall_mem_cons.mp all
    obtain ⟨above, below⟩ := averageFrom_between 1 first rest start others
    exact ⟨fun _ => above, below⟩

theorem averageFrom_step (i prev current : Nat) :
    let next := if prev < current then prev + (current - prev) / (i + 1)
      else prev - (prev - current) / (i + 1)
    (i + 1) * next ≤ i * prev + current + i ∧ i * prev + current ≤ (i + 1) * next + i := by
  intro next
  have rest := fun gap : Nat => mod_lt gap (show 0 < i + 1 by omega)
  have share := fun gap : Nat => div_add_mod gap (i + 1)
  simp only [next]
  split
  · have left := rest (current - prev)
    have shared := share (current - prev)
    rw [mul_add, succ_mul i prev]
    omega
  · have left := rest (prev - current)
    have shared := share (prev - current)
    rw [Nat.mul_sub, succ_mul i prev]
    omega

theorem averageFrom_error (i prev sum : Nat) (numbers : List Nat)
    (start : 2 * (i * prev) + i ≤ 2 * sum + i * i ∧ 2 * sum + i ≤ 2 * (i * prev) + i * i) :
    let k := i + numbers.length
    let average := averageFrom i prev numbers
    2 * (k * average) + k ≤ 2 * (sum + numbers.sum) + k * k ∧
      2 * (sum + numbers.sum) + k ≤ 2 * (k * average) + k * k := by
  induction numbers generalizing i prev sum with
  | nil => exact start
  | cons current rest ih =>
    have step := averageFrom_step i prev current
    have square : (i + 1) * (i + 1) = i * i + 2 * i + 1 := by ring
    rw [length_cons, sum_cons, ← add_assoc sum, add_comm rest.length, ← add_assoc i]
    exact ih (i + 1) _ (sum + current) (by omega)

theorem runningAverage_mean {numbers : List Nat} (some : numbers ≠ []) :
    |(runningAverage numbers : ℚ) - numbers.sum / numbers.length| < (numbers.length + 1) / 2 := by
  cases numbers with
  | nil => exact absurd rfl some
  | cons first rest =>
    have error := averageFrom_error 1 first first rest (by omega)
    rw [← sum_cons, add_comm 1, ← length_cons] at error
    have positive : (0 : ℚ) < (first :: rest).length := cast_pos.mpr (succ_pos _)
    have mean : (first :: rest).sum / (first :: rest).length * (first :: rest).length =
        ((first :: rest).sum : ℚ) := div_mul_cancel₀ _ positive.ne'
    rw [runningAverage, abs_sub_lt_iff]
    generalize (first :: rest).length = k at *
    generalize averageFrom 1 first rest = average at *
    generalize (first :: rest).sum = total at *
    have upper : (2 * (k * average) + k : ℚ) ≤ 2 * total + k * k := by exact_mod_cast error.1
    have lower : (2 * total + k : ℚ) ≤ 2 * (k * average) + k * k := by exact_mod_cast error.2
    constructor <;> refine lt_of_mul_lt_mul_right ?_ positive.le <;> rw [sub_mul, mean] <;> linarith

variable (rules : WellRules)

/-- The step of a running average in 256 bits is that over the integers. -/
def WellRules.Averages : Prop :=
  ∀ (i : Nat) (prev current : ArithUInt256), 0 < i → i < 2 ^ 256 →
    (rules.average i prev current).toNat =
      if prev.toNat < current.toNat then prev.toNat + (current.toNat - prev.toNat) / i
      else prev.toNat - (prev.toNat - current.toNat) / i

theorem toNat_share {i : Nat} {high low : ArithUInt256} (le : low.toNat ≤ high.toNat)
    (small : i < 2 ^ 256) :
    ((high - low) / BitVec.ofNat 256 i).toNat = (high.toNat - low.toNat) / i := by
  rw [BitVec.toNat_udiv, BitVec.toNat_sub_of_le (BitVec.le_def.mpr le), BitVec.toNat_ofNat,
    mod_eq_of_lt small]

section

variable {i : Nat} {prev current : ArithUInt256} (small : i < 2 ^ 256)
include small

theorem toNat_raised (le : prev.toNat ≤ current.toNat) :
    (prev + (current - prev) / BitVec.ofNat 256 i).toNat =
      prev.toNat + (current.toNat - prev.toNat) / i := by
  have bound := div_le_self (current.toNat - prev.toNat) i
  rw [BitVec.toNat_add, toNat_share le small, mod_eq_of_lt (by omega)]

theorem toNat_lowered (le : current.toNat ≤ prev.toNat) :
    (prev - (prev - current) / BitVec.ofNat 256 i).toNat =
      prev.toNat - (prev.toNat - current.toNat) / i := by
  have bound := div_le_self (prev.toNat - current.toNat) i
  rw [BitVec.toNat_sub_of_le, toNat_share le small]
  rw [BitVec.le_def, toNat_share le small]
  omega

end

theorem averages_wellRulesV2 : wellRulesV2.Averages := by
  intro i prev current positive small
  simp only [wellRulesV2, BitVec.lt_def]
  split
  · exact toNat_raised small (le_of_lt ‹_›)
  · exact toNat_lowered small (Nat.le_of_not_lt ‹_›)

theorem averages_wellRulesV5 : wellRulesV5.Averages := by
  intro i prev current positive small
  simp only [wellRulesV5, BitVec.le_def]
  split
  · rename_i le
    rw [BitVec.add_comm, toNat_raised small le]
    split
    · rfl
    · have same : prev.toNat = current.toNat := by omega
      rw [same, Nat.sub_self, Nat.zero_div, Nat.sub_zero, Nat.add_zero]
  · rw [toNat_lowered small (by omega), if_neg (by omega)]

def Index.target (index : Index) : Nat := (setCompact index.nBits).toNat

theorem average_of_positive {rules : WellRules} (averages : rules.Averages)
    (state : WellState) (some : 0 < state.pastBlocksMass)
    (small : state.pastBlocksMass + passes < 2 ^ 256) :
    (wellAfter rules passes chain state).pastDifficultyAverage.toNat =
      averageFrom state.pastBlocksMass state.pastDifficultyAverage.toNat
        ((chain.take passes).map target) := by
  induction passes generalizing chain state with
  | zero => rw [take_zero]; rfl
  | succ passes ih =>
    cases chain with
    | nil => rfl
    | cons blockReading pprev =>
      have mass : (wellPass rules pprev.length blockReading state).pastBlocksMass =
          state.pastBlocksMass + 1 := rfl
      have next : (wellPass rules pprev.length blockReading state).pastDifficultyAverage =
          rules.average (state.pastBlocksMass + 1) state.pastDifficultyAverage
            (setCompact blockReading.nBits) := if_neg (by omega)
      rw [wellAfter, ih _ (by rw [mass]; omega) (by rw [mass]; omega), mass, next,
        averages _ _ _ (succ_pos _) (by omega), take_succ_cons, map_cons]
      rfl

variable {before : List Index} {pindexLast : Index}

theorem average_wellAfter {rules : WellRules} (averages : rules.Averages)
    (small : passes < 2 ^ 256) :
    (wellAfter rules passes (pindexLast :: before)
      (wellStart pindexLast)).pastDifficultyAverage.toNat =
      runningAverage (((pindexLast :: before).take passes).map target) := by
  cases passes with
  | zero => rfl
  | succ passes =>
    rw [wellAfter, average_of_positive averages _ (succ_pos _)]
    · rfl
    · show 0 + 1 + passes < 2 ^ 256
      omega

theorem runningAverage_constant {passes target : Nat}
    (some : 0 < passes) (targets : ∀ index ∈ pindexLast :: before, index.target = target) :
    runningAverage (((pindexLast :: before).take passes).map Index.target) = target := by
  have all : ∀ number ∈ ((pindexLast :: before).take passes).map Index.target,
      target ≤ number ∧ number ≤ target := by
    intro number member
    obtain ⟨index, read, rfl⟩ := mem_map.mp member
    have same := targets index (mem_of_mem_take read)
    exact ⟨same.ge, same.le⟩
  obtain ⟨above, below⟩ := runningAverage_between all
  exact le_antisymm below (above (by simp; omega))

/-! ## The main network -/

def mainPowLimit : ArithUInt256 := BitVec.ofNat 256 (2 ^ 236 - 1)

def mainParams : Params where
  powLimit := mainPowLimit
  nPowTargetTimespan := 28800
  nPowTargetSpacing := 90
  fPowAllowMinDifficultyBlocks := false
  fPowNoRetargeting := false

/-- The largest target below the limit that has a compact form. -/
def largestTarget : Nat := 2 ^ 236 - 2 ^ 216

theorem toNat_mainPowLimit : mainPowLimit.toNat = 2 ^ 236 - 1 := by decide

/-- Sizes from thirty bytes on leave the lower 27 bytes zero. -/
theorem target_le {nBits : UInt32} (within : (setCompact nBits).toNat ≤ mainPowLimit.toNat) :
    (setCompact nBits).toNat ≤ largestTarget := by
  rw [toNat_mainPowLimit] at within
  unfold setCompact at within ⊢
  generalize nBits.toNat / 2 ^ 24 = nSize at within ⊢
  have word : nBits.toNat % 2 ^ 23 < 2 ^ 23 := mod_lt _ (by decide)
  generalize nBits.toNat % 2 ^ 23 = nWord at within word ⊢
  have wordFits : nWord < 2 ^ 256 := lt_trans word (by decide)
  dsimp only at within ⊢
  split at within
  · rename_i short
    rw [if_pos short, BitVec.toNat_ofNat]
    calc nWord / 256 ^ (3 - nSize) % 2 ^ 256 ≤ nWord :=
          le_trans (mod_le _ _) (div_le_self _ _)
      _ ≤ largestTarget := le_trans (le_of_lt word) (by decide)
  · rename_i long
    rw [if_neg long]
    rw [BitVec.toNat_shiftLeft, BitVec.toNat_ofNat, mod_eq_of_lt wordFits, shiftLeft_eq]
      at within ⊢
    rcases lt_or_ge nSize 30 with small | large
    · calc nWord * 2 ^ (8 * (nSize - 3)) % 2 ^ 256 ≤ nWord * 2 ^ (8 * (nSize - 3)) := mod_le _ _
        _ ≤ 2 ^ 23 * 2 ^ 208 :=
          Nat.mul_le_mul (le_of_lt word) (Nat.pow_le_pow_right (by decide) (by omega))
        _ ≤ largestTarget := by decide
    · have multiple : 2 ^ 216 ∣ nWord * 2 ^ (8 * (nSize - 3)) % 2 ^ 256 := by
        refine (dvd_mod_iff (pow_dvd_pow 2 (by decide))).mpr ?_
        exact Nat.dvd_mul_left_of_dvd (Nat.pow_dvd_pow 2 (by omega)) _
      unfold largestTarget
      omega

theorem runningAverage_le (targets : ∀ index ∈ chain, index.target ≤ mainPowLimit.toNat) :
    runningAverage ((chain.take passes).map target) ≤ largestTarget := by
  refine (runningAverage_between fun target member => ⟨zero_le _, ?_⟩).2
  obtain ⟨index, listed, rfl⟩ := mem_map.mp member
  exact target_le (targets index (mem_of_mem_take listed))

/-- The largest number of seconds for which no product wraps. -/
def longestWindow : Int := 1048577

theorem pindexFirst_isSome {nInterval : Nat} (positive : 0 < nInterval) {chain : List Index}
    (nonempty : chain ≠ []) (boundary : chain.length % nInterval = 0) :
    ∃ first, pindexFirst nInterval chain = some first := by
  have some_block := length_pos_iff.mpr nonempty
  have least : nInterval ≤ chain.length := le_of_dvd some_block (dvd_of_mod_eq_zero boundary)
  unfold pindexFirst
  split
  · exact ⟨_, getElem?_eq_getElem (by omega)⟩
  · exact ⟨_, getElem?_eq_getElem (by omega)⟩

theorem product_lt {average seconds : Nat} (bounded : average ≤ largestTarget)
    (short : seconds ≤ 1048577) : average * seconds < 2 ^ 256 :=
  lt_of_le_of_lt (Nat.mul_le_mul bounded short) (by decide)

/-- The scaled value, with the wrap of the product. -/
theorem toNat_scaledValue {bn : ArithUInt256} {seconds target : Nat} (word : seconds < 2 ^ 32)
    (size : target < 2 ^ 64) :
    (divWord (mulWord bn seconds) target).toNat = bn.toNat * seconds % 2 ^ 256 / target := by
  have first : ((seconds : Int) % 2 ^ 32).toNat = seconds := by omega
  have second : ((target : Int) % 2 ^ 64).toNat = target := by omega
  rw [divWord, mulWord, first, second, BitVec.toNat_udiv, BitVec.toNat_mul, BitVec.toNat_ofNat,
    BitVec.toNat_ofNat, mod_eq_of_lt (lt_trans word (by decide)),
    mod_eq_of_lt (lt_trans size (by decide))]

/-- The seconds that a well counts when it stops at some mass. -/
def windowSeconds (times : List UInt32) (mass : Nat) : Int :=
  (clockAfter rules mass times ((times.headD 0).toNat, 0)).2

/-- Times of 32 bits give seconds of 32 bits. -/
def WellRules.KeepsTime : Prop :=
  ∀ (nHeight : Nat) (latest time : Int), 0 ≤ latest → latest < 2 ^ 32 → 0 ≤ time → time < 2 ^ 32 →
    (0 ≤ (rules.clock nHeight latest time).1 ∧ (rules.clock nHeight latest time).1 < 2 ^ 32) ∧
    0 ≤ (rules.clock nHeight latest time).2 ∧ (rules.clock nHeight latest time).2 < 2 ^ 32

theorem keepsTime_wellRulesV2 : wellRulesV2.KeepsTime := by
  intro nHeight latest time _ _ _ _
  simp only [wellRulesV2]
  constructor
  · split <;> omega
  · split <;> split <;> split <;> omega

theorem keepsTime_wellRulesV5 : wellRulesV5.KeepsTime := by
  intro nHeight latest time _ _ _ _
  simp only [wellRulesV5]
  refine ⟨by omega, ?_⟩
  split <;> omega

theorem clockAfter_bounds {rules : WellRules} (keeps : rules.KeepsTime) (passes : Nat)
    (times : List UInt32) (clock : Int × Int) (latest : 0 ≤ clock.1 ∧ clock.1 < 2 ^ 32)
    (seconds : 0 ≤ clock.2 ∧ clock.2 < 2 ^ 32) :
    0 ≤ (clockAfter rules passes times clock).2 ∧
      (clockAfter rules passes times clock).2 < 2 ^ 32 := by
  induction passes generalizing times clock with
  | zero => exact seconds
  | succ passes ih =>
    cases times with
    | nil => exact seconds
    | cons time earlier =>
      have bound := time.toNat_lt
      obtain ⟨latest', seconds'⟩ := keeps earlier.length clock.1 time.toNat latest.1 latest.2
        (by omega) (by omega)
      exact ih earlier _ latest' seconds'

theorem windowSeconds_bounds {rules : WellRules} (keeps : rules.KeepsTime) (times : List UInt32)
    (mass : Nat) :
    0 ≤ windowSeconds rules times mass ∧ windowSeconds rules times mass < 2 ^ 32 := by
  have bound := (times.headD 0).toNat_lt
  exact clockAfter_bounds keeps mass times _ ⟨by omega, by omega⟩ ⟨by omega, by omega⟩

/-! ## When the scaled average is exact -/

def WellState.Exact (state : WellState) (chain : List Index) : Prop :=
  state.value.toNat =
    runningAverage ((chain.take state.pastBlocksMass).map target) *
      state.pastRateActualSeconds.toNat / (90 * state.pastBlocksMass)

instance (state : WellState) (chain : List Index) : Decidable (state.Exact chain) :=
  inferInstanceAs (Decidable (_ = _))

/-- What a well leaves that has read some blocks of a chain. -/
structure Read (rules : WellRules) (chain : List Index) (passes : Nat)
    (state : WellState) : Prop where
  mass : state.pastBlocksMass = passes
  seconds : state.pastRateActualSeconds = windowSeconds rules (chain.map nTime) passes
  bounds : 0 ≤ state.pastRateActualSeconds ∧ state.pastRateActualSeconds < 2 ^ 32
  average : state.pastDifficultyAverage.toNat = runningAverage ((chain.take passes).map target)

section Exactness

variable {rules : WellRules} {passes : Nat}

section Loop

variable (averages : rules.Averages) (keeps : rules.KeepsTime) {pindexLast : Index}
  {before : List Index}

include averages keeps

theorem read_wellAfter (inside : passes ≤ before.length + 1) (small : passes ≤ 2 ^ 20) :
    Read rules (pindexLast :: before) passes
      (wellAfter rules passes (pindexLast :: before) (wellStart pindexLast)) := by
  have seconds := congrArg Prod.snd
    (@clock_wellAfter rules passes (pindexLast :: before) (wellStart pindexLast))
  refine ⟨?_, seconds, ?_, average_wellAfter averages (lt_of_le_of_lt small (by decide))⟩
  · rw [pastBlocksMass_wellAfter inside]
    exact zero_add _
  · dsimp only at seconds
    rw [seconds]
    exact windowSeconds_bounds keeps ((pindexLast :: before).map nTime) passes

theorem read_stopped {mass : Nat} (some : 0 < mass) (enough : rules.pastBlocksMin ≤ mass)
    (allowed : mass ≤ rules.pastBlocksMax) (small : rules.pastBlocksMax ≤ 2 ^ 20)
    (inside : mass ≤ before.length) :
    Read rules (pindexLast :: before) mass (wellLoop rules (fun found _ _ => decide (found = mass))
      (pindexLast :: before) (wellStart pindexLast)) := by
  obtain ⟨passes, rfl⟩ : ∃ passes, mass = passes + 1 := ⟨mass - 1, by omega⟩
  rw [wellLoop_of_horizon enough allowed (pindexLast :: before) (wellStart pindexLast) passes
    (zero_add _) (by rw [length_cons]; omega)]
  exact read_wellAfter averages keeps (by omega) (le_trans allowed small)

/-- On a chain that is long enough, the loop reads a number of blocks within the bounds. -/
theorem read_wellLoop (horizon : Horizon) (some : 0 < rules.pastBlocksMin)
    (ordered : rules.pastBlocksMin ≤ rules.pastBlocksMax) (small : rules.pastBlocksMax ≤ 2 ^ 20)
    (enough : rules.pastBlocksMin ≤ before.length) :
    ∃ passes, Read rules (pindexLast :: before) passes
        (wellLoop rules horizon (pindexLast :: before) (wellStart pindexLast)) ∧
      rules.pastBlocksMin ≤ passes ∧ passes ≤ rules.pastBlocksMax ∧ passes ≤ before.length := by
  obtain ⟨passes, same, inside, within, stopped⟩ :=
    @wellLoop_eq rules horizon (by omega) (pindexLast :: before) (cons_ne_nil _ _)
      (wellStart pindexLast) (zero_le _)
  have start : (wellStart pindexLast).pastBlocksMass = 0 := rfl
  rw [start, zero_add] at within stopped
  rw [length_cons] at inside stopped
  rw [same]
  exact ⟨passes, read_wellAfter averages keeps (by omega) (le_trans within small), by omega, within,
    by omega⟩

end Loop

variable {chain : List Index} {state : WellState} (read : Read rules chain passes state)
  (some : 0 < passes) (small : passes ≤ 2 ^ 20)

include read some small

/-- The value after some passes, with the wrap of the product. -/
theorem Read.value (nonzero : state.pastRateActualSeconds ≠ 0) :
    state.value.toNat = runningAverage ((chain.take passes).map target) *
      state.pastRateActualSeconds.toNat % 2 ^ 256 / (90 * passes) := by
  have bounds := read.bounds
  have target : state.pastRateTargetSeconds = ((90 * passes : Nat) : Int) := by
    rw [WellState.pastRateTargetSeconds, read.mass]
    rfl
  rw [WellState.value, if_pos ⟨nonzero, by rw [target]; omega⟩, target, ← read.average]
  generalize state.pastRateActualSeconds = actual at bounds
  obtain ⟨count, rfl⟩ := Int.eq_ofNat_of_zero_le bounds.1
  rw [toNat_scaledValue (by omega) (by omega)]
  rfl

/-- Windows that are neither empty nor too long are exact for every target in range. -/
theorem Read.exact (targets : ∀ index ∈ chain, index.target ≤ mainPowLimit.toNat)
    (nonempty : 1 ≤ state.pastRateActualSeconds)
    (short : state.pastRateActualSeconds ≤ longestWindow) :
    state.Exact chain := by
  have bounded := @runningAverage_le passes chain targets
  have count : state.pastRateActualSeconds.toNat ≤ 1048577 := by
    unfold longestWindow at short
    omega
  rw [WellState.Exact, read.mass, read.value some small (by omega),
    mod_eq_of_lt (product_lt bounded count)]

theorem Read.not_exact (constant : runningAverage ((chain.take passes).map target) = largestTarget)
    (bad : state.pastRateActualSeconds = 0 ∨ longestWindow < state.pastRateActualSeconds) :
    ¬ state.Exact chain := by
  rw [WellState.Exact, read.mass, constant]
  rcases bad with zero | long
  · have unscaled : state.value = state.pastDifficultyAverage := if_neg fun both => both.1 zero
    rw [unscaled, read.average, constant, zero]
    simp [largestTarget]
  · unfold longestWindow at long
    rw [read.value some small (by omega), constant]
    have count : 1048578 ≤ state.pastRateActualSeconds.toNat := by omega
    have wraps : 2 ^ 256 ≤ largestTarget * state.pastRateActualSeconds.toNat :=
      le_trans (by decide : 2 ^ 256 ≤ largestTarget * 1048578) (mul_le_mul_left _ count)
    generalize largestTarget * state.pastRateActualSeconds.toNat = product at wraps ⊢
    have divisor : 0 < 90 * passes := by omega
    have lower : product % 2 ^ 256 + 90 * passes ≤ product := by omega
    have more : product % 2 ^ 256 / (90 * passes) + 1 ≤ product / (90 * passes) := by
      rw [← add_div_right _ divisor]
      exact Nat.div_le_div_right lower
    omega

end Exactness

theorem Read.average_mean {rules : WellRules} {passes : Nat} {state : WellState}
    (read : Read rules chain passes state) (some : 0 < passes) (inside : passes ≤ chain.length) :
    let targets := (chain.take passes).map target
    let average := state.pastDifficultyAverage.toNat
    (∀ smallest largest, (∀ target ∈ targets, smallest ≤ target ∧ target ≤ largest) →
      smallest ≤ average ∧ average ≤ largest) ∧
    |(average : ℚ) - targets.sum / passes| < (passes + 1) / 2 := by
  intro targets average
  have length : targets.length = passes := by rw [length_map, length_take, min_eq_left inside]
  have nonempty : targets ≠ [] := ne_nil_of_length_pos (length ▸ some)
  have mean := runningAverage_mean nonempty
  rw [length, ← read.average] at mean
  refine ⟨fun _ _ all => ?_, mean⟩
  rw [show average = runningAverage targets from read.average]
  exact (runningAverage_between all).imp_left (· nonempty)

/-- After some passes of either well the average is between the targets that were read, it
is off their mean by less than half of the passes and one, and no step of it wrapped. -/
theorem gravityWell_average (rules : WellRules) (either : rules = wellRulesV2 ∨ rules = wellRulesV5)
    (pindexLast : Index) (before : List Index) (k : Nat) (some : 0 < k)
    (read : k ≤ (pindexLast :: before).length) (most : k ≤ rules.pastBlocksMax) :
    let targets := ((pindexLast :: before).take k).map target
    let well := wellAfter rules k (pindexLast :: before) (wellStart pindexLast)
    let average := well.pastDifficultyAverage.toNat
    (∀ smallest largest, (∀ target ∈ targets, smallest ≤ target ∧ target ≤ largest) →
      smallest ≤ average ∧ average ≤ largest) ∧
    |(average : ℚ) - targets.sum / k| < (k + 1) / 2 ∧ rules.Averages := by
  have facts : rules.Averages ∧ rules.KeepsTime ∧ rules.pastBlocksMax ≤ 2 ^ 20 := by
    rcases either with rfl | rfl
    · exact ⟨averages_wellRulesV2, keepsTime_wellRulesV2, by decide⟩
    · exact ⟨averages_wellRulesV5, keepsTime_wellRulesV5, by decide⟩
  have after := @read_wellAfter rules k facts.1 facts.2.1 pindexLast before read
    (le_trans most facts.2.2)
  exact ⟨(after.average_mean some read).1, (after.average_mean some read).2, facts.1⟩

theorem gravityWell_average_two :
    let chain : List Index := [⟨0x1d00ffff, 90⟩, ⟨0x1c00ffff, 0⟩]
    let well := wellAfter wellRulesV5 2 chain (wellStart ⟨0x1d00ffff, 90⟩)
    0xffff * 256 ^ 25 ≤ well.pastDifficultyAverage.toNat ∧
      well.pastDifficultyAverage.toNat ≤ 0xffff * 256 ^ 26 :=
  (gravityWell_average wellRulesV5 (.inr rfl) ⟨0x1d00ffff, 90⟩ [⟨0x1c00ffff, 0⟩] 2 (by decide)
    (by decide) (by decide)).1 _ _ (by decide)

theorem wellLoop_average (rules : WellRules) (either : rules = wellRulesV2 ∨ rules = wellRulesV5)
    (horizon : Horizon) (pindexLast : Index) (before : List Index)
    (enough : rules.pastBlocksMin ≤ before.length) :
    ∃ k, rules.pastBlocksMin ≤ k ∧ k ≤ rules.pastBlocksMax ∧ k ≤ before.length ∧
      let targets := ((pindexLast :: before).take k).map target
      let well := wellLoop rules horizon (pindexLast :: before) (wellStart pindexLast)
      let average := well.pastDifficultyAverage.toNat
      (∀ smallest largest, (∀ target ∈ targets, smallest ≤ target ∧ target ≤ largest) →
        smallest ≤ average ∧ average ≤ largest) ∧
      |(average : ℚ) - targets.sum / k| < (k + 1) / 2 := by
  have stops : ∃ k, Read rules (pindexLast :: before) k
      (wellLoop rules horizon (pindexLast :: before) (wellStart pindexLast)) ∧
      rules.pastBlocksMin ≤ k ∧ k ≤ rules.pastBlocksMax ∧ k ≤ before.length ∧ 0 < k := by
    rcases either with rfl | rfl
    · obtain ⟨k, read, reached, within, inside⟩ := @read_wellLoop wellRulesV2 averages_wellRulesV2
        keepsTime_wellRulesV2 pindexLast before horizon (by decide) (by decide) (by decide) enough
      exact ⟨k, read, reached, within, inside, lt_of_lt_of_le (by decide) reached⟩
    · obtain ⟨k, read, reached, within, inside⟩ := @read_wellLoop wellRulesV5 averages_wellRulesV5
        keepsTime_wellRulesV5 pindexLast before horizon (by decide) (by decide) (by decide) enough
      exact ⟨k, read, reached, within, inside, lt_of_lt_of_le (by decide) reached⟩
  obtain ⟨k, read, reached, within, inside, some⟩ := stops
  exact ⟨k, reached, within, inside, read.average_mean some (le_succ_of_le inside)⟩

/-- Bits of a target from one up to the limit. -/
def InRange (params : Params) (nBits : UInt32) : Prop :=
  1 ≤ (setCompact nBits).toNat ∧ (setCompact nBits).toNat ≤ params.powLimit.toNat

variable {bn : ArithUInt256} {params : Params}

theorem inRange_getCompact (positive : 1 ≤ bn.toNat) (within : bn.toNat ≤ params.powLimit.toNat) :
    InRange params (getCompact bn) := by
  obtain ⟨below, nonzero⟩ := setCompact_getCompact bn
  exact ⟨nonzero positive, le_trans below within⟩

/-- The clamp of the first well compares compact forms; a value above the limit with
the limit's own form has bits in range all the same. -/
theorem inRange_clampCompact (limit : 1 ≤ params.powLimit.toNat) (positive : 1 ≤ bn.toNat) :
    InRange params
      (getCompact (if params.nProofOfWorkLimit < getCompact bn then params.powLimit else bn)) := by
  split
  · exact inRange_getCompact limit (le_refl _)
  rename_i notAbove
  rcases lt_or_ge params.powLimit.toNat bn.toNat with above | within
  · have same : getCompact bn = getCompact params.powLimit := by
      apply UInt32.toNat_inj.mp
      refine le_antisymm ?_ (getCompact_mono (le_of_lt above))
      exact Nat.le_of_not_lt notAbove
    rw [same]
    exact inRange_getCompact limit (le_refl _)
  · exact inRange_getCompact positive within

theorem toNat_atMost_le (bn limit : ArithUInt256) : (atMost bn limit).toNat ≤ bn.toNat := by
  unfold atMost
  split
  · rename_i above
    exact le_of_lt (BitVec.lt_def.mp above)
  · exact le_refl _

theorem inRange_atMost_iff (limit : 1 ≤ params.powLimit.toNat) :
    InRange params (getCompact (atMost bn params.powLimit)) ↔ 1 ≤ bn.toNat := by
  refine ⟨fun inRange => (inRange.1.trans (setCompact_getCompact _).1).trans (toNat_atMost_le _ _),
    fun positive => ?_⟩
  unfold atMost
  split
  · exact inRange_getCompact limit (le_refl _)
  · rename_i notAbove
    exact inRange_getCompact positive (Nat.le_of_not_lt notAbove)

/-- For given times, the well is exact for all targets in range and every stopping
block exactly when no window it can stop at is empty or too long. -/
theorem wellLoop_exact_iff {rules : WellRules} (averages : rules.Averages) (keeps : rules.KeepsTime)
    (some : 0 < rules.pastBlocksMin) (ordered : rules.pastBlocksMin ≤ rules.pastBlocksMax)
    (small : rules.pastBlocksMax ≤ 2 ^ 20) (times : List UInt32) :
    (∀ pindexLast before, (pindexLast :: before).map nTime = times →
      (∀ index ∈ pindexLast :: before, 0 < index.target ∧ index.target ≤ mainPowLimit.toNat) →
      rules.pastBlocksMin ≤ before.length → ∀ horizon,
        (wellLoop rules horizon (pindexLast :: before) (wellStart pindexLast)).Exact
          (pindexLast :: before)) ↔
    ∀ mass, rules.pastBlocksMin ≤ mass → mass ≤ rules.pastBlocksMax → mass < times.length →
      1 ≤ windowSeconds rules times mass ∧ windowSeconds rules times mass ≤ longestWindow := by
  constructor
  · intro exact mass enough allowed inside
    by_contra bad
    cases times with
    | nil => exact absurd inside (not_lt_zero _)
    | cons last earlier =>
      -- the chain of these times whose targets are all the largest
      let withTime : UInt32 → Index := fun time => ⟨0x1e0fffff, time⟩
      have sameTimes : (withTime last :: earlier.map withTime).map nTime = last :: earlier := by
        rw [map_cons, map_map]
        exact congrArg (last :: ·) (map_id _)
      have targets : ∀ index ∈ withTime last :: earlier.map withTime,
          index.target = largestTarget := by
        intro index member
        obtain ⟨time, -, rfl⟩ := mem_map.mp (map_cons ▸ member)
        show (setCompact 0x1e0fffff).toNat = largestTarget
        decide +kernel
      have length : (earlier.map withTime).length = earlier.length := length_map ..
      rw [length_cons] at inside
      have read := @read_stopped rules averages keeps (withTime last) (earlier.map withTime) mass
        (by omega) enough allowed small (by rw [length]; omega)
      refine read.not_exact (by omega) (le_trans allowed small)
        (runningAverage_constant (by omega) targets) ?_ (exact (withTime last)
          (earlier.map withTime) sameTimes (fun index member => by
            rw [targets index member]; exact ⟨by decide, by decide⟩) (by rw [length]; omega) _)
      have bounds := windowSeconds_bounds keeps (last :: earlier) mass
      rw [read.seconds, sameTimes]
      omega
  · intro windows pindexLast before sameTimes targets enough horizon
    obtain ⟨passes, read, reached, within, inside⟩ :=
      @read_wellLoop rules averages keeps pindexLast before horizon some ordered small enough
    have size : times.length = before.length + 1 := by rw [← sameTimes, length_map]; rfl
    have window := windows passes reached within (by omega)
    rw [← sameTimes, ← read.seconds] at window
    exact read.exact (by omega) (le_trans within small)
      (fun index member => (targets index member).2)
      window.1 window.2

end MooncoinFormal.Pow
