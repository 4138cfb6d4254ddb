import Mathlib
import MooncoinFormal.Primitives.Amount

/-!
# Compact amount coding

`CompressAmount` and `DecompressAmount` of `compressor.cpp`. An amount is split
into a mantissa and a decimal exponent of at most nine; the last nonzero digit
is coded separately. All arithmetic is on unsigned 64-bit words, so the code of
a large mantissa with exponent zero can wrap around.
-/

namespace MooncoinFormal.Compressor

open Primitives Nat

/-- The `while (n % 10 == 0 && e < 9)` loop, with `rounds = 9 - e` turns left. -/
def stripZeros : (rounds : Nat) → UInt64 → Nat → UInt64 × Nat
  | 0, n, e => (n, e)
  | rounds + 1, n, e =>
    if n % 10 = 0 then stripZeros rounds (n / 10) (e + 1) else (n, e)

def compressAmount (n : UInt64) : UInt64 :=
  if n = 0 then 0
  else
    let (n, e) := stripZeros 9 n 0
    if e < 9 then
      let d := n % 10
      1 + (n / 10 * 9 + d - 1) * 10 + UInt64.ofNat e
    else 1 + (n - 1) * 10 + 9

/-- The `while (e) n *= 10` loop. -/
def timesTen : Nat → UInt64 → UInt64
  | 0, n => n
  | e + 1, n => timesTen e (n * 10)

def decompressAmount (x : UInt64) : UInt64 :=
  if x = 0 then 0
  else
    let x := x - 1
    let e := (x % 10).toNat
    let x := x / 10
    let n := if e < 9 then x / 9 * 10 + (x % 9 + 1) else x + 1
    timesTen e n

/-! ## Reading the loops on natural numbers -/

theorem stripZeros_spec (rounds : Nat) (n : UInt64) (e : Nat) :
    ∃ k, k ≤ rounds ∧ (stripZeros rounds n e).2 = e + k ∧
      (stripZeros rounds n e).1.toNat * 10 ^ k = n.toNat ∧
      (k < rounds → (stripZeros rounds n e).1.toNat % 10 ≠ 0) := by
  induction rounds generalizing n e with
  | zero => exact ⟨0, le_refl _, rfl, by simp [stripZeros], by simp⟩
  | succ rounds ih =>
    rw [stripZeros]
    by_cases divides : n % 10 = 0
    · rw [if_pos divides]
      have digit : n.toNat % 10 = 0 := by
        simpa using congrArg UInt64.toNat divides
      obtain ⟨k, hk, hexp, hman, hlast⟩ := ih (n / 10) (e + 1)
      refine ⟨k + 1, by omega, by omega, ?_, fun hlt => hlast (by omega)⟩
      calc (stripZeros rounds (n / 10) (e + 1)).1.toNat * 10 ^ (k + 1)
          = (stripZeros rounds (n / 10) (e + 1)).1.toNat * 10 ^ k * 10 := by ring
        _ = n.toNat / 10 * 10 := by rw [hman]; rfl
        _ = n.toNat := by omega
    · rw [if_neg divides]
      refine ⟨0, Nat.zero_le _, rfl, by simp, fun _ => ?_⟩
      intro digit
      exact divides (UInt64.toNat_inj.mp (by simpa using digit))

theorem timesTen_toNat (e : Nat) (n : UInt64) :
    (timesTen e n).toNat = n.toNat * 10 ^ e % 2 ^ 64 := by
  induction e generalizing n with
  | zero => simp [timesTen, mod_eq_of_lt n.toNat_lt]
  | succ e ih =>
    rw [timesTen, ih, UInt64.toNat_mul, mod_mul_mod]
    congr 1
    simp only [UInt64.reduceToNat]
    ring

theorem compressAmount_toNat {n : UInt64} (nonzero : n ≠ 0) :
    ∃ m e, m * 10 ^ e = n.toNat ∧ e ≤ 9 ∧
      ((e < 9 ∧ m % 10 ≠ 0 ∧
          (compressAmount n).toNat = (1 + (m / 10 * 9 + m % 10 - 1) * 10 + e) % 2 ^ 64) ∨
        (e = 9 ∧ (compressAmount n).toNat = 1 + (m - 1) * 10 + 9)) := by
  obtain ⟨k, hk, hexp, hman, hlast⟩ := stripZeros_spec 9 n 0
  have bound := n.toNat_lt
  have positive := Nat.pos_of_ne_zero (UInt64.toNat_inj.not.mpr nonzero)
  rw [compressAmount, if_neg nonzero]
  generalize hs : stripZeros 9 n 0 = split at *
  obtain ⟨word, e⟩ := split
  simp only [zero_add] at hexp hman hlast
  subst hexp
  refine ⟨word.toNat, e, hman, hk, ?_⟩
  by_cases small : e < 9
  · refine .inl ⟨small, hlast small, ?_⟩
    simp only [small, if_true]
    simp only [UInt64.toNat_add, UInt64.toNat_mul, UInt64.toNat_sub, UInt64.toNat_div,
      UInt64.toNat_mod, UInt64.toNat_ofNat', UInt64.reduceToNat]
    omega
  · have top : e = 9 := by omega
    subst top
    refine .inr ⟨rfl, ?_⟩
    simp only [lt_irrefl, if_false]
    simp only [UInt64.toNat_add, UInt64.toNat_mul, UInt64.toNat_sub, UInt64.reduceToNat]
    omega

theorem decompressAmount_toNat {x : UInt64} (nonzero : x ≠ 0) :
    (decompressAmount x).toNat =
      (if (x.toNat - 1) % 10 < 9 then
          (x.toNat - 1) / 10 / 9 * 10 + ((x.toNat - 1) / 10 % 9 + 1)
        else (x.toNat - 1) / 10 + 1) * 10 ^ ((x.toNat - 1) % 10) % 2 ^ 64 := by
  have bound := x.toNat_lt
  have positive := Nat.pos_of_ne_zero (UInt64.toNat_inj.not.mpr nonzero)
  have pred : (x - 1).toNat = x.toNat - 1 := by
    rw [UInt64.toNat_sub]
    simp only [UInt64.reduceToNat]
    omega
  rw [decompressAmount, if_neg nonzero]
  rw [timesTen_toNat, UInt64.toNat_mod, pred]
  simp only [UInt64.reduceToNat]
  congr 2
  by_cases small : (x.toNat - 1) % 10 < 9
  · rw [if_pos small, if_pos small]
    simp only [UInt64.toNat_add, UInt64.toNat_mul, UInt64.toNat_div, UInt64.toNat_mod, pred,
      UInt64.reduceToNat]
    omega
  · rw [if_neg small, if_neg small]
    simp only [UInt64.toNat_add, UInt64.toNat_div, pred, UInt64.reduceToNat]
    omega

/-! ## Where the coding is lossless -/

/-- The largest amount without a trailing zero whose code fits in 64 bits. -/
def largestCoded : CAmount := 2049638230412172402

/-- Amounts whose code does not wrap around. -/
def Compressible (value : CAmount) : Prop :=
  value % 10 = 0 ∨ value ≤ largestCoded

instance (value : CAmount) : Decidable (Compressible value) :=
  inferInstanceAs (Decidable (_ ∨ _))

theorem toUInt64_toNat {value : CAmount} (range : moneyRange value = true) :
    value.toUInt64.toNat = value.toInt.toNat := by
  have bounds := (moneyRange_iff value).mp range
  have nonneg : 0 ≤ value := Int64.le_iff_toInt_le.mpr bounds.1
  exact Int64.toNat_toUInt64_of_le nonneg

theorem toUInt64_le {value : CAmount} (range : moneyRange value = true) :
    value.toUInt64.toNat ≤ 3844000000000000000 := by
  have bounds := (moneyRange_iff value).mp range
  rw [toUInt64_toNat range]
  omega

theorem compressible_iff {value : CAmount} (range : moneyRange value = true) :
    Compressible value ↔
      value.toUInt64.toNat % 10 = 0 ∨ value.toUInt64.toNat ≤ 2049638230412172402 := by
  have bounds := (moneyRange_iff value).mp range
  rw [toUInt64_toNat range, Compressible, ← Int64.toInt_inj, Int64.le_iff_toInt_le, Int64.toInt_mod]
  have ten : (10 : Int64).toInt = 10 := by decide
  have zero : (0 : Int64).toInt = 0 := by decide
  have top : largestCoded.toInt = 2049638230412172402 := by decide
  rw [ten, zero, top, Int.tmod_eq_emod_of_nonneg bounds.1]
  omega

theorem decompressAmount_of_code {n x : UInt64} {m e : Nat}
    (amount : m * 10 ^ e = n.toNat) (positive : 0 < m)
    (code : (e < 9 ∧ m % 10 ≠ 0 ∧ x.toNat = 1 + (m / 10 * 9 + m % 10 - 1) * 10 + e) ∨
      (e = 9 ∧ x.toNat = 1 + (m - 1) * 10 + 9)) : decompressAmount x = n := by
  have nonzero : x ≠ 0 := by
    intro hz
    rw [hz] at code
    simp only [UInt64.reduceToNat] at code
    omega
  apply UInt64.toNat_inj.mp
  rw [decompressAmount_toNat nonzero]
  obtain ⟨small, digit, hx⟩ | ⟨top, hx⟩ := code
  · have hexp : (x.toNat - 1) % 10 = e := by omega
    have hman : (x.toNat - 1) / 10 / 9 * 10 + ((x.toNat - 1) / 10 % 9 + 1) = m := by omega
    rw [hexp, if_pos small, hman, amount, mod_eq_of_lt n.toNat_lt]
  · have hexp : (x.toNat - 1) % 10 = 9 := by omega
    have hman : (x.toNat - 1) / 10 + 1 = m := by omega
    rw [hexp, if_neg (lt_irrefl 9), hman, ← top, amount, mod_eq_of_lt n.toNat_lt]

theorem wrapped_congruence {n c offset : Nat} (range : n ≤ 3844000000000000000)
    (cases : offset = 2049638230412172402 ∨ offset = 2049638230412172403) :
    n * 9999 ≠ c * 2 ^ 64 + offset * 10000 := by
  intro congruence
  rcases cases with low | high
  · subst low
    omega
  · subst high
    omega

theorem wrapped_mantissa {n y : Nat} (wrapped : y + 1844674407370955162 = n / 10 * 9 + n % 10 - 1) :
    ∃ offset, (offset = 2049638230412172402 ∨ offset = 2049638230412172403) ∧
      y / 9 * 10 + (y % 9 + 1) + offset = n := by
  by_cases low : n % 10 ≤ 2
  · exact ⟨2049638230412172403, .inr rfl, by omega⟩
  · exact ⟨2049638230412172402, .inl rfl, by omega⟩

theorem decompressAmount_of_wrapped {n x : UInt64} (range : n.toNat ≤ 3844000000000000000)
    (wrapped : x.toNat + 2 ^ 64 = 1 + (n.toNat / 10 * 9 + n.toNat % 10 - 1) * 10) :
    decompressAmount x ≠ n ∧ (decompressAmount x).toNat % 2 = 0 := by
  have nonzero : x ≠ 0 := by
    intro hz
    rw [hz] at wrapped
    simp only [UInt64.reduceToNat] at wrapped
    omega
  have hexp : (x.toNat - 1) % 10 = 4 := by omega
  obtain ⟨offset, cases, mantissa⟩ :=
    wrapped_mantissa (n := n.toNat) (y := (x.toNat - 1) / 10) (by omega)
  have decoded := decompressAmount_toNat nonzero
  rw [hexp, if_pos (by decide)] at decoded
  generalize (x.toNat - 1) / 10 / 9 * 10 + ((x.toNat - 1) / 10 % 9 + 1) = q at decoded mantissa
  refine ⟨fun same => ?_, by omega⟩
  rw [same] at decoded
  refine wrapped_congruence range cases (c := q * 10 ^ 4 / 2 ^ 64) ?_
  omega

/-- The words within the money range that are decoded from their codes. -/
theorem decodes_iff {n : UInt64} (size : n.toNat ≤ 3844000000000000000) :
    decompressAmount (compressAmount n) = n ↔ n.toNat % 10 = 0 ∨ n.toNat ≤ 2049638230412172402 := by
  by_cases hz : n = 0
  · subst hz
    exact ⟨fun _ => .inl rfl, fun _ => by decide⟩
  obtain ⟨m, e, amount, -, code⟩ := compressAmount_toNat hz
  have positive : 0 < m := by
    rcases Nat.eq_zero_or_pos m with h0 | hp
    · rw [h0, zero_mul] at amount
      exact absurd (UInt64.toNat_inj.mp amount.symm) hz
    · exact hp
  obtain ⟨small, digit, code⟩ | ⟨top, code⟩ := code
  · by_cases fits : 1 + (m / 10 * 9 + m % 10 - 1) * 10 + e < 2 ^ 64
    · rw [mod_eq_of_lt fits] at code
      have decoded := decompressAmount_of_code amount positive (.inl ⟨small, digit, code⟩)
      refine ⟨fun _ => ?_, fun _ => decoded⟩
      rcases Nat.eq_zero_or_pos e with hz' | hp
      · subst hz'
        right
        omega
      · left
        rw [← amount, ← Nat.sub_add_cancel hp, pow_succ, ← mul_assoc, mul_mod_left]
    · -- a positive exponent leaves at most a tenth of the money range
      have zero : e = 0 := by
        rcases Nat.eq_zero_or_pos e with hz' | hp
        · exact hz'
        · have tenth : m * 10 ≤ n.toNat := by
            rw [← amount]
            exact Nat.mul_le_mul_left m (Nat.le_self_pow (Nat.ne_of_gt hp) 10)
          omega
      subst zero
      rw [pow_zero, mul_one] at amount
      subst amount
      have wrong := decompressAmount_of_wrapped size (x := compressAmount n) (by omega)
      refine ⟨fun same => absurd same wrong.1, fun cond => ?_⟩
      omega
  · have decoded := decompressAmount_of_code amount positive (.inr ⟨top, code⟩)
    refine ⟨fun _ => ?_, fun _ => decoded⟩
    left
    rw [← amount, top]
    omega

/-- `DecompressAmount` inverts `CompressAmount` on an amount of the money range
exactly when the amount ends in a zero or is at most `largestCoded`. -/
theorem decompressAmount_compressAmount_iff (value : CAmount) (range : moneyRange value = true) :
    decompressAmount (compressAmount value.toUInt64) = value.toUInt64 ↔ Compressible value := by
  rw [compressible_iff range, decodes_iff (toUInt64_le range)]

theorem decompressAmount_compressAmount_maxMoney :
    moneyRange maxMoney = true ∧
      decompressAmount (compressAmount maxMoney.toUInt64) = maxMoney.toUInt64 :=
  ⟨by decide, (decompressAmount_compressAmount_iff maxMoney (by decide)).mpr (by decide)⟩

/-- The first amount of the money range that does not survive: it is coded as
five and read back as ten thousand. -/
theorem decompressAmount_compressAmount_wraps :
    moneyRange 2049638230412172403 = true ∧
      compressAmount (2049638230412172403 : CAmount).toUInt64 = 5 ∧
      decompressAmount 5 = 10000 ∧
      decompressAmount (compressAmount (2049638230412172403 : CAmount).toUInt64) ≠
        (2049638230412172403 : CAmount).toUInt64 := by
  decide

end MooncoinFormal.Compressor
