import Mathlib
import MooncoinFormal.Library.Rounding
import MooncoinFormal.Primitives.Amount

/-!
# Block subsidies

`GetBlockSubsidy` of `validation.cpp`. Up to height 384400 the subsidy is drawn at
random from the hash of the block before, except in one window where it is fixed; every
29531st block pays twice; from height 1100000 on it follows a hyperbola, computed in
double precision. The money limit is smaller than what these rules can pay out, and
after enough blocks smaller than what they must pay out.
-/

namespace MooncoinFormal.Validation

open Primitives Library Int

/-- `GenerateMTRandom`: the Mersenne twister with a seed, mapped to a range from one. -/
structure MTRandom where
  generate : (seed : UInt32) → (range : Nat) → Nat
  one_le : ∀ seed range, 1 ≤ range → 1 ≤ generate seed range
  le_range : ∀ seed range, 1 ≤ range → generate seed range ≤ range

/-- The generator that always draws the largest number. -/
def MTRandom.largest : MTRandom where
  generate _ range := range
  one_le _ _ positive := positive
  le_range _ _ _ := le_rfl

/-- What the subsidy is computed with: double precision, the generator, and the seed
that is read from seven digits of a hash. -/
structure SubsidyRules (Hash : Type) where
  double : Rounding
  random : MTRandom
  seed : Hash → UInt32

variable {Hash : Type} (rules : SubsidyRules Hash)

namespace SubsidyRules

def drawn (prevHash : Hash) (range : Nat) : CAmount :=
  Int64.ofNat (1 + rules.random.generate (rules.seed prevHash) range) * coin

variable (nHeight : Nat)

def baseSubsidy (prevHash : Hash) : CAmount :=
  if nHeight ≤ 100000 then rules.drawn prevHash 1999999
  else if 193076 < nHeight ∧ nHeight < 203158 then 2519841 * coin
  else if nHeight ≤ 203518 then rules.drawn prevHash 999999
  else if nHeight ≤ 250000 then rules.drawn prevHash 599999
  else if nHeight ≤ 300000 then rules.drawn prevHash 349999
  else if nHeight ≤ 350000 then rules.drawn prevHash 174999
  else if nHeight ≤ 375000 then rules.drawn prevHash 99999
  else if nHeight ≤ 384400 then rules.drawn prevHash 49999
  else 29531 * coin

/-- `floor(nHeight / 100000.0) * 100000.0` -/
def roundedHeight : ℚ :=
  rules.double.round (⌊rules.double.round (nHeight / (100000 : ℕ))⌋ * 100000)

/-- `floor(0.29531 * 19697202017.0)` -/
def reducedTotal : Int :=
  ⌊rules.double.round (rules.double.round (29531 / 100000) * 19697202017)⌋

/-- A total divided by the rounded height, in whole coins. -/
def hyperbola (total : Int) (nHeight : Nat) : CAmount :=
  Int64.ofInt ⌊rules.double.round (total / rules.roundedHeight nHeight)⌋ * coin

def getBlockSubsidy (prevHash : Hash) : CAmount :=
  let nSubsidy := rules.baseSubsidy nHeight prevHash
  let nSubsidy := if nHeight % 29531 = 0 then nSubsidy * 2 else nSubsidy
  let nSubsidy := if 1099999 < nHeight then rules.hyperbola 19697202017 nHeight else nSubsidy
  let nSubsidy := if 1249999 < nHeight then rules.hyperbola rules.reducedTotal nHeight else nSubsidy
  if 2147483647 < nHeight then 0 else nSubsidy

/-! ## Values and bounds -/

variable {n : Nat}

section Bounds

variable {rules} {nHeight : Nat} {prevHash : Hash}

theorem toInt_ofNat_mul_coin (small : n ≤ 2 * 10 ^ 10) :
    (Int64.ofNat n * coin).toInt = n * 100000000 := by
  have whole : (Int64.ofNat n).toInt = n := Int64.toInt_ofNat_of_lt (by omega)
  have unit : coin.toInt = 100000000 := by decide
  rw [Int64.toInt_mul, whole, unit, bmod_def]
  split <;> omega

theorem drawn_toInt (prevHash : Hash) {range : Nat} (positive : 1 ≤ range)
    (small : range ≤ 1999999) :
    (rules.drawn prevHash range).toInt =
      (1 + rules.random.generate (rules.seed prevHash) range : Nat) * 100000000 := by
  have high := rules.random.le_range (rules.seed prevHash) range positive
  exact toInt_ofNat_mul_coin (by omega)

theorem baseSubsidy_bounds (nHeight : Nat) (prevHash : Hash) :
    200000000 ≤ (rules.baseSubsidy nHeight prevHash).toInt ∧
      (rules.baseSubsidy nHeight prevHash).toInt ≤ 251984100000000 := by
  have draw : ∀ range, 1 ≤ range → range ≤ 1999999 →
      200000000 ≤ (rules.drawn prevHash range).toInt ∧
        (rules.drawn prevHash range).toInt ≤ 251984100000000 := by
    intro range positive small
    have low := rules.random.one_le (rules.seed prevHash) range positive
    have high := rules.random.le_range (rules.seed prevHash) range positive
    rw [drawn_toInt prevHash positive small]
    omega
  unfold baseSubsidy
  split
  · exact draw 1999999 (by omega) (by omega)
  split
  · decide
  split
  · exact draw 999999 (by omega) (by omega)
  split
  · exact draw 599999 (by omega) (by omega)
  split
  · exact draw 349999 (by omega) (by omega)
  split
  · exact draw 174999 (by omega) (by omega)
  split
  · exact draw 99999 (by omega) (by omega)
  split
  · exact draw 49999 (by omega) (by omega)
  · decide

theorem reducedTotal_eq : rules.reducedTotal = 5816780727 := by
  have factor := abs_le.mp (rules.double.error (29531 / 100000))
  have product := abs_le.mp (rules.double.error (rules.double.round (29531 / 100000) * 19697202017))
  rw [abs_of_pos (by linarith : (0 : ℚ) < rules.double.round (29531 / 100000) *
    19697202017)] at product
  rw [reducedTotal, floor_eq_iff]
  constructor <;> norm_num at * <;> linarith

theorem roundedHeight_eq (bounded : nHeight ≤ 2147483647) :
    rules.roundedHeight nHeight = (nHeight / 100000 * 100000 : ℕ) := by
  have whole : nHeight / 100000 * 100000 ≤ 2 ^ 53 := by omega
  rw [roundedHeight, rules.double.floor_round_div (by decide) (by omega),
    ← rules.double.round_natCast _ whole]
  push_cast
  rfl

theorem hyperbola_toInt {total : Nat} (bounded : nHeight ≤ 2147483647) (high : 100000 ≤ nHeight)
    (small : total ≤ 19697202017) :
    (rules.hyperbola total nHeight).toInt =
      (total / (nHeight / 100000 * 100000) : ℕ) * 100000000 := by
  have positive : 0 < nHeight / 100000 * 100000 := by omega
  have quotient := rules.double.floor_round_div positive (by omega : total < 2 ^ 53)
  rw [hyperbola, roundedHeight_eq bounded, cast_natCast, quotient]
  exact toInt_ofNat_mul_coin ((Nat.div_le_self _ _).trans (by omega))

theorem getBlockSubsidy_toInt (low : nHeight ≤ 1099999) :
    (rules.getBlockSubsidy nHeight prevHash).toInt =
      (rules.baseSubsidy nHeight prevHash).toInt * if nHeight % 29531 = 0 then 2 else 1 := by
  have paid := rules.baseSubsidy_bounds nHeight prevHash
  have twice : (rules.baseSubsidy nHeight prevHash * 2).toInt =
      (rules.baseSubsidy nHeight prevHash).toInt * 2 := by
    have two : (2 : Int64).toInt = 2 := by decide
    rw [Int64.toInt_mul, two, bmod_def]
    split <;> omega
  simp only [getBlockSubsidy, if_neg (show ¬ 1099999 < nHeight by omega),
    if_neg (show ¬ 1249999 < nHeight by omega), if_neg (show ¬ 2147483647 < nHeight by omega)]
  split
  · exact twice
  · rw [mul_one]

theorem baseSubsidy_le_getBlockSubsidy (low : nHeight ≤ 1099999) :
    (rules.baseSubsidy nHeight prevHash).toInt ≤
      (rules.getBlockSubsidy nHeight prevHash).toInt := by
  have paid := rules.baseSubsidy_bounds nHeight prevHash
  rw [getBlockSubsidy_toInt low]
  split <;> omega

theorem getBlockSubsidy_bounds (nHeight : Nat) (prevHash : Hash) :
    0 ≤ (rules.getBlockSubsidy nHeight prevHash).toInt ∧
      (rules.getBlockSubsidy nHeight prevHash).toInt ≤ 503968200000000 := by
  by_cases low : nHeight ≤ 1099999
  · have paid := rules.baseSubsidy_bounds nHeight prevHash
    rw [getBlockSubsidy_toInt low]
    split <;> omega
  · have curve : ∀ total : Nat, total ≤ 19697202017 → nHeight ≤ 2147483647 →
        0 ≤ (rules.hyperbola total nHeight).toInt ∧
          (rules.hyperbola total nHeight).toInt ≤ 503968200000000 := by
      intro total small bounded
      have quotient : total / (nHeight / 100000 * 100000) ≤ 19697202017 / 1000000 :=
        Nat.div_le_div small (by omega) (by omega)
      rw [hyperbola_toInt bounded (by omega) small]
      generalize total / (nHeight / 100000 * 100000) = whole at quotient
      omega
    simp only [getBlockSubsidy, reducedTotal_eq]
    split
    · decide
    · rename_i bounded
      split
      · exact curve 5816780727 (by omega) (by omega)
      · rw [if_pos (by omega)]
        exact curve 19697202017 le_rfl (by omega)

end Bounds

/-! ## What is paid out along a chain -/

/-- The subsidies of the first blocks, added up in 64 bits; the block at height `n + 1`
follows the one with hash `hashes n`. -/
def issued (hashes : Nat → Hash) : Nat → CAmount
  | 0 => 0
  | n + 1 => issued hashes n + rules.getBlockSubsidy (n + 1) (hashes n)

def issuedTotal (hashes : Nat → Hash) : Nat → Int
  | 0 => 0
  | n + 1 => issuedTotal hashes n + (rules.getBlockSubsidy (n + 1) (hashes n)).toInt

/-- No sum on the way overflows, and the last one is within the money limit. -/
def WithinLimit (hashes : Nat → Hash) (N : Nat) : Prop :=
  (∀ n ≤ N, (rules.issued hashes n).toInt = rules.issuedTotal hashes n) ∧
    rules.issuedTotal hashes N ≤ maxMoney.toInt

variable {N : Nat}

section Totals

variable (hashes : Nat → Hash)

theorem issuedTotal_growth {low high : Nat} {least : Int} (order : low ≤ high)
    (pays : ∀ n, low ≤ n → n < high → least ≤ (rules.getBlockSubsidy (n + 1) (hashes n)).toInt) :
    rules.issuedTotal hashes low + (high - low : Nat) * least ≤ rules.issuedTotal hashes high := by
  induction high, order using Nat.le_induction with
  | base => simp
  | succ high order ih =>
    have before := ih fun n above below => pays n above (by omega)
    have last := pays high order (by omega)
    have blocks : ((high + 1 - low : Nat) : Int) * least = (high - low : Nat) * least + least := by
      rw [Nat.sub_add_comm order]
      push_cast
      ring
    rw [issuedTotal, blocks]
    omega

theorem issuedTotal_mono {low high : Nat} (order : low ≤ high) :
    rules.issuedTotal hashes low ≤ rules.issuedTotal hashes high := by
  have grown := rules.issuedTotal_growth hashes order fun n _ _ =>
    (getBlockSubsidy_bounds (n + 1) (hashes n)).1
  simpa using grown

theorem issuedTotal_nonneg (N : Nat) : 0 ≤ rules.issuedTotal hashes N :=
  rules.issuedTotal_mono hashes N.zero_le

theorem issuedTotal_le {most : Int}
    (pays : ∀ n, n < N → (rules.getBlockSubsidy (n + 1) (hashes n)).toInt ≤ most) :
    rules.issuedTotal hashes N ≤ N * most := by
  induction N with
  | zero => simp [issuedTotal]
  | succ N ih =>
    have before := ih fun n below => pays n (by omega)
    have last := pays N (by omega)
    rw [issuedTotal]
    push_cast
    linarith

theorem issued_toInt (fits : rules.issuedTotal hashes n < 2 ^ 63) :
    (rules.issued hashes n).toInt = rules.issuedTotal hashes n := by
  induction n with
  | zero => rfl
  | succ n ih =>
    have paid := rules.getBlockSubsidy_bounds (n + 1) (hashes n)
    have start := rules.issuedTotal_nonneg hashes n
    rw [issuedTotal] at fits
    rw [issued, issuedTotal, Int64.toInt_add, ih (by omega), bmod_def]
    split <;> omega

theorem withinLimit_of_le (limit : rules.issuedTotal hashes N ≤ maxMoney.toInt) :
    rules.WithinLimit hashes N := by
  refine ⟨fun n order => rules.issued_toInt hashes ?_, limit⟩
  have before := rules.issuedTotal_mono hashes order
  rw [maxMoney_toInt] at limit
  omega

end Totals

theorem issuedTotal_large (hashes : Nat → Hash) (late : 900000 ≤ N) :
    maxMoney.toInt < rules.issuedTotal hashes N := by
  have start := rules.issuedTotal_nonneg hashes 193076
  have window : rules.issuedTotal hashes 193076 + (203157 - 193076 : Nat) * 251984100000000 ≤
      rules.issuedTotal hashes 203157 := by
    refine rules.issuedTotal_growth hashes (by omega) fun n above below => ?_
    refine le_trans ?_ (baseSubsidy_le_getBlockSubsidy (by omega))
    rw [baseSubsidy, if_neg (by omega), if_pos ⟨by omega, by omega⟩]
    decide
  have between := rules.issuedTotal_mono hashes (show 203157 ≤ 384400 by omega)
  have plain : rules.issuedTotal hashes 384400 + (900000 - 384400 : Nat) * 2953100000000 ≤
      rules.issuedTotal hashes 900000 := by
    refine rules.issuedTotal_growth hashes (by omega) fun n above below => ?_
    refine le_trans ?_ (baseSubsidy_le_getBlockSubsidy (by omega))
    rw [baseSubsidy, if_neg (by omega), if_neg (by omega), if_neg (by omega), if_neg (by omega),
      if_neg (by omega), if_neg (by omega), if_neg (by omega), if_neg (by omega)]
    decide
  have after := rules.issuedTotal_mono hashes late
  rw [maxMoney_toInt]
  omega

theorem early_toInt (prevHash : Hash) (early : n < 19221) :
    (rules.getBlockSubsidy (n + 1) prevHash).toInt =
      (1 + rules.random.generate (rules.seed prevHash) 1999999 : Nat) * 100000000 := by
  rw [getBlockSubsidy_toInt (by omega), if_neg (by omega), mul_one, baseSubsidy,
    if_pos (by omega), drawn_toInt prevHash (by omega) le_rfl]

theorem early_le (prevHash : Hash) (early : n < 19221) :
    (rules.getBlockSubsidy (n + 1) prevHash).toInt ≤ 200000000000000 := by
  have high := rules.random.le_range (rules.seed prevHash) 1999999 (by omega)
  rw [early_toInt rules prevHash early]
  omega

theorem issuedTotal_largest (double : Rounding) (seed : Hash → UInt32) (hashes : Nat → Hash)
    (late : 19221 ≤ N) :
    maxMoney.toInt < (⟨double, .largest, seed⟩ : SubsidyRules Hash).issuedTotal hashes N := by
  have early := (⟨double, .largest, seed⟩ : SubsidyRules Hash).issuedTotal_growth hashes
    (Nat.zero_le 19221) fun n _ below => show ((1 + 1999999 : Nat) : Int) * 100000000 ≤ _ by
      rw [early_toInt ⟨double, .largest, seed⟩ (hashes n) below, MTRandom.largest]
  have after := (⟨double, .largest, seed⟩ : SubsidyRules Hash).issuedTotal_mono hashes late
  rw [issuedTotal] at early
  rw [maxMoney_toInt]
  omega

/-- All draws keep the total of the subsidies within the money limit exactly up to height
19220, and no draws keep it there for 900000 blocks. -/
theorem withinLimit_iff [Inhabited Hash] (double : Rounding) (seed : Hash → UInt32) (N : Nat) :
    ((∀ random hashes, (⟨double, random, seed⟩ : SubsidyRules Hash).WithinLimit hashes N) ↔
        N ≤ 19220) ∧
      (900000 ≤ N → ∀ random hashes,
        ¬ (⟨double, random, seed⟩ : SubsidyRules Hash).WithinLimit hashes N) := by
  refine ⟨⟨fun within => ?_, fun early random hashes => ?_⟩, fun late random hashes within => ?_⟩
  · by_contra late
    have limit := (within .largest fun _ => default).2
    have passed := issuedTotal_largest double seed (fun _ => default) (show 19221 ≤ N by omega)
    omega
  · refine withinLimit_of_le _ hashes ?_
    have total := (⟨double, random, seed⟩ : SubsidyRules Hash).issuedTotal_le hashes
      fun n (below : n < N) => early_le _ (hashes n) (by omega)
    rw [maxMoney_toInt]
    omega
  · have passed := (⟨double, random, seed⟩ : SubsidyRules Hash).issuedTotal_large hashes late
    have limit := within.2
    omega

/-- The sum of the first 19221 subsidies when the largest number is drawn each time. -/
theorem largest_not_withinLimit :
    ¬ (⟨.exact, .largest, fun _ => 0⟩ : SubsidyRules Unit).WithinLimit (fun _ => ()) 19221 := by
  intro within
  have passed := issuedTotal_largest .exact (fun _ : Unit => 0) (fun _ => ()) (le_refl 19221)
  have limit := within.2
  omega

end SubsidyRules

end MooncoinFormal.Validation
