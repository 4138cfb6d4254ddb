import Mathlib

/-!
# Targets in compact form

`arith_uint256::SetCompact` and `GetCompact`: a target as its size in bytes and its
three highest bytes, whose top bit is a sign. Writing cuts a target off below, and
keeps the order of targets. Numbers of 256 bits are bit vectors, so their sums and
products are those of the source, modulo `2 ^ 256`.
-/

namespace MooncoinFormal.Pow

open Nat UInt32

abbrev ArithUInt256 := BitVec 256

def byteSize (value : Nat) : Nat := (value.size + 7) / 8

def topBytes (value : Nat) : Nat :=
  if byteSize value ≤ 3 then value * 256 ^ (3 - byteSize value)
  else value / 256 ^ (byteSize value - 3)

/-- `SetCompact`, without the flags for a sign and for an overflow. -/
def setCompact (nCompact : UInt32) : ArithUInt256 :=
  let nSize := nCompact.toNat / 2 ^ 24
  let nWord := nCompact.toNat % 2 ^ 23
  if nSize ≤ 3 then BitVec.ofNat 256 (nWord / 256 ^ (3 - nSize))
  else BitVec.ofNat 256 nWord <<< (8 * (nSize - 3))

variable (target : ArithUInt256)

/-- `GetCompact` of a number that is not negative. -/
def getCompact : UInt32 :=
  let nSize := byteSize target.toNat
  let nCompact := topBytes target.toNat
  if nCompact.testBit 23 then ofNat (nCompact / 256 + (nSize + 1) * 2 ^ 24)
  else ofNat (nCompact + nSize * 2 ^ 24)

theorem pow_256 (size : Nat) : 256 ^ size = 2 ^ (8 * size) := by
  rw [pow_mul]
  rfl

variable {value : Nat}

theorem byteSize_le_iff {size : Nat} : byteSize value ≤ size ↔ value < 256 ^ size := by
  rw [pow_256, ← size_le, byteSize]
  omega

theorem lt_byteSize_iff {size : Nat} : size < byteSize value ↔ 256 ^ size ≤ value := by
  rw [← not_le, byteSize_le_iff, not_lt]

theorem byteSize_mono {first second : Nat} (le : first ≤ second) :
    byteSize first ≤ byteSize second :=
  byteSize_le_iff.mpr (lt_of_le_of_lt le (byteSize_le_iff.mp (le_refl _)))

theorem lt_pow_byteSize (value : Nat) : value < 256 ^ byteSize value :=
  byteSize_le_iff.mp (le_refl _)

theorem byteSize_pos (positive : 0 < value) : 0 < byteSize value :=
  lt_byteSize_iff.mpr (by rwa [pow_zero])

theorem pow_byteSize_le (positive : 0 < value) : 256 ^ (byteSize value - 1) ≤ value := by
  have some := byteSize_pos positive
  exact lt_byteSize_iff.mp (by omega)

theorem topBytes_lt (value : Nat) : topBytes value < 2 ^ 24 := by
  have bound := lt_pow_byteSize value
  unfold topBytes
  split
  · rename_i short
    calc value * 256 ^ (3 - byteSize value) < 256 ^ byteSize value * 256 ^ (3 - byteSize value) :=
          Nat.mul_lt_mul_of_pos_right bound (Nat.pow_pos (by decide))
      _ = 2 ^ 24 := by rw [← pow_add, Nat.add_sub_cancel' short]; rfl
  · rename_i long
    refine Nat.div_lt_of_lt_mul ?_
    calc value < 256 ^ byteSize value := bound
      _ = 256 ^ (byteSize value - 3) * 256 ^ 3 := by rw [← pow_add]; congr 1; omega

theorem le_topBytes (positive : 0 < value) : 2 ^ 16 ≤ topBytes value := by
  have bound := pow_byteSize_le positive
  have some := byteSize_pos positive
  unfold topBytes
  split
  · rename_i short
    calc 2 ^ 16 = 256 ^ (byteSize value - 1) * 256 ^ (3 - byteSize value) := by
          rw [← pow_add, show byteSize value - 1 + (3 - byteSize value) = 2 by omega]
          rfl
      _ ≤ value * 256 ^ (3 - byteSize value) := mul_le_mul_right _ bound
  · rename_i long
    rw [Nat.le_div_iff_mul_le (Nat.pow_pos (by decide))]
    calc 2 ^ 16 * 256 ^ (byteSize value - 3) = 256 ^ (byteSize value - 1) := by
          rw [show (2 : Nat) ^ 16 = 256 ^ 2 by decide, ← pow_add]; congr 1; omega
      _ ≤ value := bound

theorem topBytes_mono {first second : Nat} (le : first ≤ second)
    (same : byteSize first = byteSize second) : topBytes first ≤ topBytes second := by
  unfold topBytes
  rw [same]
  split
  · exact mul_le_mul_right _ le
  · exact Nat.div_le_div_right le

theorem testBit_topBytes (value : Nat) :
    (topBytes value).testBit 23 = decide (2 ^ 23 ≤ topBytes value) := by
  have bound := topBytes_lt value
  rw [testBit_eq_decide_div_mod_eq, decide_eq_decide]
  omega

theorem byteSize_toNat_le : byteSize target.toNat ≤ 32 :=
  byteSize_le_iff.mpr (lt_of_lt_of_le target.isLt (by decide))

theorem getCompact_toNat :
    (getCompact target).toNat =
      if 2 ^ 23 ≤ topBytes target.toNat then
        topBytes target.toNat / 256 + (byteSize target.toNat + 1) * 2 ^ 24
      else topBytes target.toNat + byteSize target.toNat * 2 ^ 24 := by
  have bound := topBytes_lt target.toNat
  have size := byteSize_toNat_le target
  unfold getCompact
  simp only [testBit_topBytes, decide_eq_true_eq]
  have word : UInt32.size = 2 ^ 32 := rfl
  split
  · exact toNat_ofNat_of_lt' (by omega)
  · exact toNat_ofNat_of_lt' (by omega)

theorem getCompact_mono {first second : ArithUInt256} (le : first.toNat ≤ second.toNat) :
    (getCompact first).toNat ≤ (getCompact second).toNat := by
  rw [getCompact_toNat, getCompact_toNat]
  have firstTop := topBytes_lt first.toNat
  rcases lt_or_eq_of_le (byteSize_mono le) with smaller | same
  · have positive : 0 < second.toNat := by
      by_contra zero
      rw [Nat.le_zero.mp (Nat.le_of_not_lt zero)] at smaller
      exact not_lt_zero _ smaller
    have top := le_topBytes positive
    split <;> split <;> omega
  · have top := topBytes_mono le same
    split <;> split <;> omega

/-! ## Reading a compact form -/

theorem setCompact_toNat_of_le {nSize nWord : Nat} (size : nSize ≤ 34) (word : nWord < 2 ^ 23)
    (fits : nSize ≤ 3 ∨ nWord * 256 ^ (nSize - 3) < 2 ^ 256) :
    (setCompact (ofNat (nWord + nSize * 2 ^ 24))).toNat =
      if nSize ≤ 3 then nWord / 256 ^ (3 - nSize) else nWord * 256 ^ (nSize - 3) := by
  have value : (ofNat (nWord + nSize * 2 ^ 24)).toNat = nWord + nSize * 2 ^ 24 :=
    toNat_ofNat_of_lt' (lt_of_lt_of_le (by omega : _ < 2 ^ 32) (le_refl _))
  have high : (nWord + nSize * 2 ^ 24) / 2 ^ 24 = nSize := by omega
  have low : (nWord + nSize * 2 ^ 24) % 2 ^ 23 = nWord := by omega
  have wordFits : nWord < 2 ^ 256 := lt_trans word (by decide)
  simp only [setCompact, value, high, low]
  split
  · rw [BitVec.toNat_ofNat, mod_eq_of_lt (lt_of_le_of_lt (div_le_self _ _) wordFits)]
  · rename_i long
    have inside : nWord * 256 ^ (nSize - 3) < 2 ^ 256 := fits.resolve_left long
    rw [BitVec.toNat_shiftLeft, BitVec.toNat_ofNat, mod_eq_of_lt wordFits, shiftLeft_eq,
      ← pow_256, mod_eq_of_lt inside]

theorem topBytes_of_le (short : byteSize value ≤ 3) :
    topBytes value = value * 256 ^ (3 - byteSize value) := if_pos short

theorem topBytes_of_ge (long : 3 ≤ byteSize value) :
    topBytes value = value / 256 ^ (byteSize value - 3) := by
  rcases lt_or_eq_of_le long with longer | same
  · exact if_neg (not_le.mpr longer)
  · rw [topBytes_of_le (Nat.le_of_eq same.symm), ← same, Nat.sub_self, pow_zero, Nat.mul_one,
      Nat.div_one]

theorem getCompact_eq :
    ∃ nSize nWord, getCompact target = ofNat (nWord + nSize * 2 ^ 24) ∧ nSize ≤ 33 ∧
      nWord < 2 ^ 23 ∧ (0 < target.toNat → 2 ^ 15 ≤ nWord) ∧
      (nSize ≤ 3 → nWord = target.toNat * 256 ^ (3 - nSize)) ∧
      (3 < nSize → nWord = target.toNat / 256 ^ (nSize - 3)) := by
  have size := byteSize_toNat_le target
  have top := topBytes_lt target.toNat
  unfold getCompact
  simp only [testBit_topBytes, decide_eq_true_eq]
  split
  · -- the top bit would be read as a sign: one byte less, and one more in the size
    refine ⟨byteSize target.toNat + 1, topBytes target.toNat / 256, rfl, by omega, by omega,
      fun _ => by omega, ?_, ?_⟩
    · intro short
      rw [topBytes_of_le (by omega),
        show 3 - byteSize target.toNat = 3 - (byteSize target.toNat + 1) + 1 by omega, pow_succ,
        ← mul_assoc, Nat.mul_div_cancel _ (by decide)]
    · intro long
      rw [topBytes_of_ge (by omega), Nat.div_div_eq_div_mul, ← pow_succ,
        show byteSize target.toNat + 1 - 3 = byteSize target.toNat - 3 + 1 by omega]
  · rename_i small
    refine ⟨byteSize target.toNat, topBytes target.toNat, rfl, by omega, by omega, ?_,
      topBytes_of_le, fun long => topBytes_of_ge (le_of_lt long)⟩
    intro positive
    exact le_trans (by decide) (le_topBytes positive)

/-- A target after it was written in compact form and read is not larger, and smaller
by less than one part in `2 ^ 15` when the target is not zero. -/
theorem setCompact_getCompact_bounds :
    (setCompact (getCompact target)).toNat ≤ target.toNat ∧
      (0 < target.toNat →
        target.toNat * 2 ^ 15 < (setCompact (getCompact target)).toNat * (2 ^ 15 + 1)) := by
  obtain ⟨nSize, nWord, written, size, word, positive, short, long⟩ := getCompact_eq target
  have fits : nSize ≤ 3 ∨ nWord * 256 ^ (nSize - 3) < 2 ^ 256 := by
    refine Or.imp_right (fun longer => ?_) (lt_or_ge 3 nSize).symm
    rw [long longer]
    exact lt_of_le_of_lt (div_mul_le_self _ _) target.isLt
  rw [written, setCompact_toNat_of_le (by omega) word fits]
  split
  · rename_i le
    rw [short le, Nat.mul_div_cancel _ (Nat.pow_pos (by decide))]
    exact ⟨le_refl _, fun nonzero => mul_lt_mul_of_pos_left (by decide) nonzero⟩
  · rename_i gt
    have unit : 0 < 256 ^ (nSize - 3) := Nat.pow_pos (by decide)
    refine ⟨?_, fun nonzero => ?_⟩
    · rw [long (not_le.mp gt)]
      exact div_mul_le_self _ _
    · -- what is cut off is below one unit, and the word holds `2 ^ 15` of them
      have cut : target.toNat < nWord * 256 ^ (nSize - 3) + 256 ^ (nSize - 3) := by
        rw [long (not_le.mp gt)]
        exact lt_div_mul_add unit
      have units : 2 ^ 15 * 256 ^ (nSize - 3) ≤ nWord * 256 ^ (nSize - 3) :=
        mul_le_mul_right _ (positive nonzero)
      omega

theorem setCompact_getCompact :
    (setCompact (getCompact target)).toNat ≤ target.toNat ∧
      (0 < target.toNat → 0 < (setCompact (getCompact target)).toNat) := by
  obtain ⟨below, near⟩ := setCompact_getCompact_bounds target
  refine ⟨below, fun nonzero => ?_⟩
  omega

end MooncoinFormal.Pow
