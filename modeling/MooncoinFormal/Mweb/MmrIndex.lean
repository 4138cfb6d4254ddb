import MooncoinFormal.Library.RangeBinding
import MooncoinFormal.Mweb.Mmr

/-!
# Families of positions

The rest of `mmr/Index.cpp`: parents, siblings and right children. A node is named
by the last leaf below it and its height; every node is the left or the right child
of a parent, and the functions of `Index` move inside such a family.
-/

namespace MooncoinFormal.Mweb.Mmr

open Library.MountainRange List Nat

/-- `FillOnesToRight` as it is written. -/
def fillByShifts (input : Nat) : Nat :=
  [1, 2, 4, 8, 16, 32].foldl (fun x shift => x ||| x >>> shift) input

theorem testBit_shifted {x input width : Nat}
    (filled : ∀ j, x.testBit j = true ↔ ∃ d < width, input.testBit (j + d) = true) (j : Nat) :
    (x ||| x >>> width).testBit j = true ↔ ∃ d < 2 * width, input.testBit (j + d) = true := by
  rw [testBit_or, testBit_shiftRight, Bool.or_eq_true, filled, filled]
  constructor
  · rintro (⟨d, inside, one⟩ | ⟨d, inside, one⟩)
    · exact ⟨d, by omega, one⟩
    · exact ⟨width + d, by omega, by rwa [← add_assoc, add_comm j]⟩
  · rintro ⟨d, inside, one⟩
    by_cases near : d < width
    · exact .inl ⟨d, near, one⟩
    · exact .inr ⟨d - width, by omega, by rwa [show width + j + (d - width) = j + d by omega]⟩

theorem fillByShifts_eq {input : Nat} (small : input < 2 ^ 64) :
    fillByShifts input = fillOnesToRight input := by
  have filled := testBit_shifted (testBit_shifted (testBit_shifted (testBit_shifted
    (testBit_shifted (@testBit_shifted input input 1 (by simp))))))
  refine eq_of_testBit_eq fun j => Bool.eq_iff_iff.mpr ((filled j).trans ?_)
  rw [fillOnesToRight]
  split
  · rename_i zero
    simp [zero]
  · rename_i nonzero
    rw [testBit_two_pow_sub_one, decide_eq_true_eq]
    constructor
    · rintro ⟨d, -, one⟩
      have top := (le_log2 nonzero).mpr (ge_two_pow_of_testBit one)
      omega
    · intro below
      have top := (log2_lt nonzero).mpr small
      refine ⟨input.log2 - j, by omega, ?_⟩
      rw [show j + (input.log2 - j) = input.log2 by omega]
      exact testBit_log2 nonzero

namespace Index

variable (index : Index)

def getRightChild : Option Index :=
  if 0 < index.height then some ⟨index.position - 1, index.height - 1⟩ else none

/-- The sums of `GetParent` and `GetSibling` are taken in 64 bits. -/
def getParent : Index :=
  if calculateHeight (index.position + 1) = index.height + 1 then
    -- a right sibling: the next node is the parent
    ⟨index.position + 1, index.height + 1⟩
  else ⟨(index.position + 2 ^ (index.height + 1)) % 2 ^ 64, index.height + 1⟩

def getSibling : Index :=
  if calculateHeight (index.position + 1) = index.height + 1 then
    ⟨(index.position + 1 + (2 ^ 64 - 2 ^ (index.height + 1))) % 2 ^ 64, index.height⟩
  else ⟨(index.position + 2 ^ (index.height + 1) - 1) % 2 ^ 64, index.height⟩

/-- The node of height `h` that leaf `i` completes. -/
def completedBy (i h : Nat) : Index := ⟨leafPosition i + h, h⟩

variable {i h : Nat}

/-- A parent, its children and the ways between them. -/
structure Family (parent left right : Index) : Prop where
  leftChild : parent.getLeftChild = some left
  rightChild : parent.getRightChild = some right
  leftParent : left.getParent = parent
  rightParent : right.getParent = parent
  leftSibling : left.getSibling = right
  rightSibling : right.getSibling = left

theorem family_completedBy (inside : leafPosition i + (h + 1) < leafPosition (i + 1))
    (small : leafPosition i + (h + 1) < 2 ^ 64) :
    Family (completedBy i (h + 1)) (completedBy (i - 2 ^ h) h) (completedBy i h) := by
  obtain ⟨enough, apart, leftInside⟩ := leftChild_position inside
  have positive := Nat.two_pow_pos h
  have next : calculateHeight (leafPosition i + h + 1) = h + 1 := by
    rw [add_assoc, calculateHeight_eq (Nat.le_add_right _ _) inside, Nat.add_sub_cancel_left]
  -- the left child completes nothing: a leaf comes next
  have leaf : leafPosition (i - 2 ^ h) + h + 1 = leafPosition (i - 2 ^ h + 1) := by
    by_contra more
    have divides := (lt_leafPosition_succ_iff i (h + 1)).mp inside
    have divides' := (lt_leafPosition_succ_iff (i - 2 ^ h) (h + 1)).mp (by omega)
    have gap := Nat.le_of_dvd (by omega) ((Nat.dvd_add_right divides').mp
      (show 2 ^ (h + 1) ∣ i - 2 ^ h + 1 + 2 ^ h by
        rwa [show i - 2 ^ h + 1 + 2 ^ h = i + 1 by omega]))
    omega
  have next' : calculateHeight (leafPosition (i - 2 ^ h) + h + 1) ≠ h + 1 := by
    rw [leaf, calculateHeight_leafPosition]
    exact (succ_ne_zero h).symm
  constructor <;>
    simp only [getLeftChild, getRightChild, getParent, getSibling, completedBy, next,
      next', if_true, zero_lt_succ, if_false, Option.some.injEq, mk.injEq, and_true] <;>
    omega

theorem exists_family (inside : leafPosition i + h < leafPosition (i + 1))
    (small : leafPosition i + h < 2 ^ 62) :
    ∃ parent sibling, Family parent (completedBy i h) sibling ∨
      Family parent sibling (completedBy i h) := by
  obtain ⟨c, full⟩ := (lt_leafPosition_succ_iff i h).mp inside
  have corner := leafPosition_two_pow_sub_one h
  have least : leafPosition (2 ^ h - 1) ≤ leafPosition i := by
    apply leafPosition_strictMono.monotone
    have := le_of_dvd (succ_pos i) ⟨c, full⟩
    omega
  rcases even_or_odd' c with ⟨m, rfl | rfl⟩
  · have right := (lt_leafPosition_succ_iff i (h + 1)).mpr ⟨m, by rw [full, pow_succ, mul_assoc]⟩
    exact ⟨_, _, .inr (family_completedBy right (by omega))⟩
  · have above := (lt_leafPosition_succ_iff (i + 2 ^ h) (h + 1)).mpr ⟨m + 1, by
      rw [add_right_comm, full]
      ring⟩
    have apart := (leftChild_position above).2.1
    rw [Nat.add_sub_cancel] at apart
    have family := family_completedBy above (by omega)
    rw [Nat.add_sub_cancel] at family
    exact ⟨_, _, .inl family⟩

/-- The heights of the nodes of a perfect binary tree, in postorder. -/
def postorder : (height : Nat) → List Nat
  | 0 => [0]
  | height + 1 => postorder height ++ postorder height ++ [height + 1]

theorem length_postorder (k : Nat) : (postorder k).length = 2 ^ (k + 1) - 1 := by
  induction k with
  | zero => rfl
  | succ k ih =>
    have positive := Nat.two_pow_pos (k + 1)
    simp only [postorder, length_append, ih, length_singleton]
    omega

theorem getElem?_postorder {k position : Nat} (inside : position < 2 ^ (k + 1) - 1) :
    (postorder k)[position]? = some (peel k position) := by
  induction k generalizing position with
  | zero =>
    obtain rfl : position = 0 := by omega
    rfl
  | succ k ih =>
    have size := length_postorder k
    rw [postorder, peel, append_assoc]
    by_cases left : position < 2 ^ (k + 1) - 1
    · rw [if_neg (by omega), getElem?_append_left (by omega), ih left]
    · rw [if_pos (by omega), getElem?_append_right (by omega), size]
      by_cases right : position - (2 ^ (k + 1) - 1) < 2 ^ (k + 1) - 1
      · rw [getElem?_append_left (by omega), ih right]
      · rw [show position - (2 ^ (k + 1) - 1) = 2 ^ (k + 1) - 1 by omega,
          getElem?_append_right (by omega), size, Nat.sub_self, peel_full]
        rfl

/-- Below `2 ^ 62` the height of a position is its height in every perfect tree that
reaches it, the functions of `Index` move inside one family, and leaves are numbered
as the positions of height zero. -/
theorem position_laws (position : Nat) (small : position < 2 ^ 62) :
    fillByShifts position = fillOnesToRight position ∧
    (∀ k, position < (postorder k).length →
      (postorder k)[position]? = some (calculateHeight position)) ∧
    (∃ parent sibling, Family parent (atPosition position) sibling ∨
      Family parent sibling (atPosition position)) ∧
    (0 < calculateHeight position → ∃ left right, Family (atPosition position) left right) ∧
    (calculateHeight position = 0 → leafPosition (calculateLeafIndex position) = position) ∧
    ∀ leafIndex, leafPosition leafIndex = position →
      calculateHeight position = 0 ∧ calculateLeafIndex position = leafIndex := by
  obtain ⟨i, above, below⟩ := exists_leaf position
  obtain ⟨h, rfl⟩ := Nat.exists_eq_add_of_le above
  have height : calculateHeight (leafPosition i + h) = h := by
    rw [calculateHeight_eq above below, Nat.add_sub_cancel_left]
  rw [atPosition, height]
  refine ⟨fillByShifts_eq (by omega), fun k inside => ?_, exists_family below small, fun tall =>
    ?_, ?_, ?_⟩
  · rw [length_postorder] at inside
    have leaf : i < 2 ^ k := by
      rw [← leafPosition_strictMono.lt_iff_lt, leafPosition_two_pow]
      omega
    rw [getElem?_postorder inside, peel_eq leaf above below, Nat.add_sub_cancel_left]
  · obtain ⟨h, rfl⟩ := exists_eq_succ_of_ne_zero (ne_of_gt tall)
    exact ⟨_, _, family_completedBy below (by omega)⟩
  · rintro rfl
    rw [add_zero, calculateLeafIndex_leafPosition]
  · intro leafIndex same
    rw [← same] at height ⊢
    exact ⟨height.symm.trans (calculateHeight_leafPosition leafIndex),
      calculateLeafIndex_leafPosition leafIndex⟩

theorem position_laws_five : (5 : Nat) < 2 ^ 62 ∧
    ∃ parent sibling, Family parent (atPosition 5) sibling ∨ Family parent sibling (atPosition 5) :=
  ⟨by decide, (position_laws 5 (by decide)).2.2.1⟩

end Index

end MooncoinFormal.Mweb.Mmr
