import Mathlib
import MooncoinFormal.Library.MountainRange

/-!
# What the nodes of a mountain range say about its leaves

When no two nodes can have the same hash, a node of one range that is found at
the same position in another range has the same leaves below it in both. The
peaks of a range stand above all of its leaves.
-/

namespace MooncoinFormal.Library.MountainRange

open List Option Nat

/-! ## Leaves below a position -/

theorem ones_two_pow_mul_add {k b : Nat} (a : Nat) (small : b < 2 ^ k) :
    ones (2 ^ k * a + b) = ones a + ones b := by
  induction k generalizing b with
  | zero =>
    obtain rfl : b = 0 := by omega
    simp
  | succ k ih =>
    have half := ih (show b / 2 < 2 ^ k by omega)
    have twice : 2 ^ (k + 1) * a = 2 * (2 ^ k * a) := by ring
    rw [ones_eq, twice, show (2 * (2 ^ k * a) + b) % 2 = b % 2 by omega,
      show (2 * (2 ^ k * a) + b) / 2 = 2 ^ k * a + b / 2 by omega, half, ones_eq b]
    omega

/-- A leaf completes a parent of height `k` exactly when `2 ^ k` divides the number of
leaves that are then there. -/
theorem lt_leafPosition_succ_iff (i k : Nat) :
    leafPosition i + k < leafPosition (i + 1) ↔ 2 ^ k ∣ i + 1 := by
  induction k generalizing i with
  | zero => simp [leafPosition_lt_succ]
  | succ k ih =>
    have bound := ones_le i
    rcases even_or_odd' i with ⟨m, rfl | rfl⟩
    · rw [ones_even] at bound
      constructor
      · intro inside
        rw [leafPosition, leafPosition, ones_even, ones_odd] at inside
        omega
      · rintro ⟨c, twice⟩
        rw [pow_succ, mul_assoc, mul_left_comm] at twice
        omega
    · have next : 2 * m + 1 + 1 = 2 * (m + 1) := by omega
      have half := ih m
      have small := ones_le m
      rw [leafPosition, leafPosition] at half
      rw [next, pow_succ', Nat.mul_dvd_mul_iff_left Nat.two_pos, ← half, leafPosition, leafPosition,
        ones_even, ones_odd]
      omega

variable {i h : Nat}

/-- The children of a parent of height `h + 1` belong to the last leaf below it and to the
last leaf of its left half. -/
theorem leftChild_position (inside : leafPosition i + (h + 1) < leafPosition (i + 1)) :
    2 ^ h ≤ i ∧ leafPosition (i - 2 ^ h) + h + 2 ^ (h + 1) = leafPosition i + (h + 1) ∧
      leafPosition (i - 2 ^ h) + h < leafPosition (i - 2 ^ h + 1) := by
  obtain ⟨c, full⟩ := (lt_leafPosition_succ_iff i (h + 1)).mp inside
  obtain ⟨a, rfl⟩ := exists_eq_succ_of_ne_zero (show c ≠ 0 by rintro rfl; omega)
  have positive := Nat.two_pow_pos h
  have double : 2 ^ (h + 1) = 2 * 2 ^ h := by ring
  have last : i = 2 ^ (h + 1) * a + (2 ^ (h + 1) - 1) := by
    rw [mul_succ] at full
    omega
  have middle : i - 2 ^ h = 2 ^ (h + 1) * a + (2 ^ h - 1) := by omega
  have ones_last : ones i = ones a + (h + 1) := by
    rw [last, ones_two_pow_mul_add a (by omega), ones_two_pow_sub_one]
  have ones_middle : ones (i - 2 ^ h) = ones a + h := by
    rw [middle, ones_two_pow_mul_add a (by omega), ones_two_pow_sub_one]
  have bound' := ones_le (i - 2 ^ h)
  refine ⟨by omega, ?_, (lt_leafPosition_succ_iff _ h).mpr ⟨2 * a + 1, ?_⟩⟩
  · rw [leafPosition, leafPosition]
    omega
  · rw [middle, double, mul_add, mul_one, ← mul_assoc, mul_comm (2 ^ h) 2]
    omega

theorem exists_peak_above {bits numLeaves s j : Nat} (small : numLeaves < 2 ^ bits)
    (aligned : 2 ^ bits ∣ s) (inside : j < numLeaves) :
    ∃ i h, leafPosition i + h ∈ peakPositions (leafPosition s) (peakSizes bits numLeaves) ∧
      leafPosition i + h < leafPosition (i + 1) ∧ i < s + numLeaves ∧
      i < s + j + 2 ^ h ∧ s + j ≤ i := by
  induction bits generalizing numLeaves s j with
  | zero =>
    omega
  | succ bits ih =>
    obtain ⟨a, rfl⟩ := aligned
    have positive := Nat.two_pow_pos bits
    have double : 2 ^ (bits + 1) = 2 * 2 ^ bits := by ring
    by_cases fits : 2 ^ bits ≤ numLeaves
    · obtain ⟨sizes, rest, -⟩ := peakSizes_cons fits small
      rw [sizes, peakPositions]
      have ones_start := ones_two_pow_mul_add (k := bits + 1) a (Nat.two_pow_pos _)
      have ones_last := ones_two_pow_mul_add (k := bits + 1) (b := 2 ^ bits - 1) a (by omega)
      have ones_next := ones_two_pow_mul_add (k := bits + 1) (b := 2 ^ bits) a (by omega)
      have ones_bit := ones_two_pow_add (k := bits) (n := 0) positive
      rw [ones_two_pow_sub_one] at ones_last
      rw [add_zero, ones_zero] at ones_start ones_bit
      have bound := ones_le (2 ^ (bits + 1) * a)
      by_cases first : j < 2 ^ bits
      · -- the leaf is below the leading peak
        refine ⟨2 ^ (bits + 1) * a + (2 ^ bits - 1), bits, mem_cons.mpr (.inl ?_),
          (lt_leafPosition_succ_iff _ _).mpr ⟨2 * a + 1, ?_⟩, by omega, by omega, by omega⟩
        · have bound' := ones_le (2 ^ (bits + 1) * a + (2 ^ bits - 1))
          rw [leafPosition, leafPosition]
          omega
        · rw [double, mul_add, mul_one, ← mul_assoc, mul_comm (2 ^ bits) 2]
          omega
      · have start : leafPosition (2 ^ (bits + 1) * a) + (2 ^ (bits + 1) - 1) =
            leafPosition (2 ^ (bits + 1) * a + 2 ^ bits) := by
          rw [leafPosition, leafPosition]
          omega
        obtain ⟨i, h, member, below, within, far, near⟩ :=
          ih rest (s := 2 ^ (bits + 1) * a + 2 ^ bits) (j := j - 2 ^ bits)
            ⟨2 * a + 1, by ring⟩ (by omega)
        rw [← start] at member
        exact ⟨i, h, mem_cons_of_mem _ member, below, by omega, by omega, by omega⟩
    · rw [(peakSizes_skip (by omega)).1]
      exact ih (by omega) ⟨2 * a, by ring⟩ inside

/-! ## Nodes and what they are made of -/

section Nodes

variable {Hash Data : Type} {hashes : NodeHash Hash Data}

theorem climb_getElem? (hashes : NodeHash Hash Data) (nodes : List Hash) {count : Nat}
    (height position : Nat) (right : Hash) {j : Nat} (inside : j < count) :
    ∃ child, (right :: climb hashes nodes count height position right)[j]? = some child ∧
      (right :: climb hashes nodes count height position right)[j + 1]? =
        some (hashes.parentHash (position + j)
          (nodes.getD (position + j - 2 ^ (height + j)) child) child) := by
  induction count generalizing height position right j with
  | zero => omega
  | succ count ih =>
    cases j with
    | zero => exact ⟨right, rfl, rfl⟩
    | succ j =>
      obtain ⟨child, found, parent⟩ := ih (height + 1) (position + 1)
        (hashes.parentHash position (nodes.getD (position - 2 ^ height) right) right)
        (lt_of_succ_lt_succ inside)
      refine ⟨child, found, ?_⟩
      rw [add_assoc, add_assoc, add_comm 1 j] at parent
      exact parent

variable {leaves : List Data}

theorem nodesOf_getElem?_leaf {data : Data}
    (found : leaves[i]? = some data) (inside : leafPosition i + h < leafPosition (i + 1)) :
    (nodesOf hashes leaves)[leafPosition i + h]? =
      (leafNodes hashes (nodesOf hashes (leaves.take i)) i data)[h]? := by
  obtain ⟨low, rfl⟩ := List.getElem?_eq_some_iff.mp found
  have size : (nodesOf hashes (leaves.take i)).length = leafPosition i := by
    rw [nodesOf_length, length_take_of_le (le_of_lt low)]
  rw [← getElem?_take_of_lt inside, ← nodesOf_take hashes leaves (i + 1) low,
    ← take_append_getElem low, nodesOf_append, appendLeaf,
    length_take_of_le (le_of_lt low), getElem?_append_right (by omega), size,
    Nat.add_sub_cancel_left]

theorem nodesOf_leaf {i : Nat} {data : Data} (found : leaves[i]? = some data) :
    (nodesOf hashes leaves)[leafPosition i]? = some (hashes.leafHash (leafPosition i) data) :=
  nodesOf_getElem?_leaf (h := 0) found (leafPosition_lt_succ i)

theorem nodesOf_parent (hashes : NodeHash Hash Data)
    (low : i < leaves.length) (inside : leafPosition i + (h + 1) < leafPosition (i + 1)) :
    ∃ left right, (nodesOf hashes leaves)[leafPosition (i - 2 ^ h) + h]? = some left ∧
      (nodesOf hashes leaves)[leafPosition i + h]? = some right ∧
      (nodesOf hashes leaves)[leafPosition i + (h + 1)]? =
        some (hashes.parentHash (leafPosition i + (h + 1)) left right) := by
  have found := getElem?_eq_getElem low
  obtain ⟨child, right, parent⟩ := climb_getElem? hashes
    (nodesOf hashes (leaves.take i)) 1 (leafPosition i + 1)
    (hashes.leafHash (leafPosition i) leaves[i])
    (show h < leafPosition (i + 1) - leafPosition i - 1 by omega)
  obtain ⟨behind, position, before⟩ := leftChild_position inside
  -- the left child was there before the leaf
  have early : leafPosition (i - 2 ^ h) + h < leafPosition i := by
    have monotone := leafPosition_strictMono.monotone
      (show i - 2 ^ h + 1 ≤ i by have := Nat.two_pow_pos h; omega)
    omega
  have kept := nodesOf_take hashes leaves i (le_of_lt low)
  obtain ⟨left, held⟩ :
      ∃ left, (nodesOf hashes leaves)[leafPosition (i - 2 ^ h) + h]? = some left :=
    ⟨_, getElem?_eq_getElem (by
      rw [nodesOf_length]
      exact early.trans (leafPosition_strictMono low))⟩
  refine ⟨left, child, held, ?_, ?_⟩
  · rw [nodesOf_getElem?_leaf found (by omega)]
    exact right
  · rw [nodesOf_getElem?_leaf found inside]
    refine parent.trans ?_
    rw [show leafPosition i + 1 + h - 2 ^ (1 + h) = leafPosition (i - 2 ^ h) + h by
        rw [add_comm 1 h]; omega, getD_eq_getElem?_getD, kept,
      getElem?_take_of_lt early, held, getD_some, add_assoc, add_comm 1 h]

/-- No two nodes have the same hash, and none has the hash `zero`. Leaves with one hash are
the same as far as their data is hashed. -/
structure NodeHash.CollisionFree (hashes : NodeHash Hash Data) (zero : Hash)
    (Same : Data → Data → Prop := Eq) : Prop where
  leaf_inj : ∀ {i j a b}, hashes.leafHash i a = hashes.leafHash j b → i = j ∧ Same a b
  parent_inj : ∀ {i j a b c d}, hashes.parentHash i a b = hashes.parentHash j c d →
    i = j ∧ a = c ∧ b = d
  leaf_ne_parent : ∀ {i j a b c}, hashes.leafHash i a ≠ hashes.parentHash j b c
  leaf_ne_zero : ∀ {i a}, hashes.leafHash i a ≠ zero
  parent_ne_zero : ∀ {i a b}, hashes.parentHash i a b ≠ zero

variable {zero : Hash} {hash : Hash}

theorem nodesOf_cases {position : Nat} (found : (nodesOf hashes leaves)[position]? = some hash) :
    (∃ data, hash = hashes.leafHash position data) ∨
      ∃ left right, hash = hashes.parentHash position left right := by
  obtain ⟨i, above, below⟩ := exists_leaf position
  obtain ⟨h, rfl⟩ := Nat.exists_eq_add_of_le above
  have low : i < leaves.length := by
    have inside := (List.getElem?_eq_some_iff.mp found).1
    rw [nodesOf_length] at inside
    exact leafPosition_strictMono.lt_iff_lt.mp (by omega)
  cases h with
  | zero =>
    rw [add_zero, nodesOf_leaf (getElem?_eq_getElem low)] at found
    exact .inl ⟨_, (some.inj found).symm⟩
  | succ h =>
    obtain ⟨left, right, -, -, parent⟩ := nodesOf_parent hashes low below
    rw [parent] at found
    exact .inr ⟨left, right, (some.inj found).symm⟩

variable {Same : Data → Data → Prop} (free : hashes.CollisionFree zero Same)
include free

theorem NodeHash.CollisionFree.ne_zero {position : Nat}
    (found : (nodesOf hashes leaves)[position]? = some hash) : hash ≠ zero := by
  rcases nodesOf_cases found with ⟨_, rfl⟩ | ⟨_, _, rfl⟩
  · exact free.leaf_ne_zero
  · exact free.parent_ne_zero

variable {leaves others : List Data}

theorem NodeHash.CollisionFree.position_eq {first second : Nat}
    (found : (nodesOf hashes leaves)[first]? = some hash)
    (found' : (nodesOf hashes others)[second]? = some hash) : first = second := by
  rcases nodesOf_cases found with ⟨_, rfl⟩ | ⟨_, _, rfl⟩ <;>
    rcases nodesOf_cases found' with ⟨_, same⟩ | ⟨_, _, same⟩
  · exact (free.leaf_inj same).1
  · exact absurd same free.leaf_ne_parent
  · exact absurd same.symm free.leaf_ne_parent
  · exact (free.parent_inj same).1

theorem NodeHash.CollisionFree.leaves_eq
    (inside : leafPosition i + h < leafPosition (i + 1)) (low : i < leaves.length)
    (low' : i < others.length)
    (same : (nodesOf hashes leaves)[leafPosition i + h]? = (nodesOf hashes others)[leafPosition i +
      h]?) {j : Nat} (far : i < j + 2 ^ h) (near : j ≤ i) :
    Same (leaves[j]) (others[j]) := by
  -- by induction on the height, into the half that has the leaf
  induction h generalizing i with
  | zero =>
    obtain rfl : j = i := by rw [pow_zero] at far; omega
    rw [add_zero, nodesOf_leaf (getElem?_eq_getElem low),
      nodesOf_leaf (getElem?_eq_getElem low'), some.injEq] at same
    exact (free.leaf_inj same).2
  | succ h ih =>
    obtain ⟨left, right, held, right_held, parent⟩ := nodesOf_parent hashes low inside
    obtain ⟨left', right', held', right_held', parent'⟩ :=
      nodesOf_parent hashes low' inside
    rw [parent, parent', some.injEq] at same
    obtain ⟨-, rfl, rfl⟩ := free.parent_inj same
    obtain ⟨-, -, before⟩ := leftChild_position inside
    by_cases half : j ≤ i - 2 ^ h
    · exact ih before (by omega) (by omega) (held.trans held'.symm) (by omega) half
    · exact ih (by omega) low low' (right_held.trans right_held'.symm) (by omega) near

end Nodes

end MooncoinFormal.Library.MountainRange
