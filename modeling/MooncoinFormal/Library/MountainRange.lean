import Mathlib

/-!
# Postorder positions of a mountain range

The nodes of a Merkle mountain range are numbered in postorder. Leaf `i` stands
at `2 * i` less the number of ones of `i`; the positions from there up to the
next leaf are the parents that its arrival completes, in order of height. Sizes
of full subtrees are peeled off a position to find its height, the number of
leaves before it, and the peaks of a range.
-/

namespace MooncoinFormal.Library.MountainRange

open List

/-- Count the ones of `n`, reading at most `bits` bits. -/
def onesLoop : (bits : Nat) → (n : Nat) → Nat
  | 0, _ => 0
  | bits + 1, n => if n = 0 then 0 else n % 2 + onesLoop bits (n / 2)

variable (n : Nat)

def ones : Nat := onesLoop n n

variable {bits numLeaves : Nat}

theorem onesLoop_enough {n : Nat} (enough : n ≤ bits) : onesLoop bits n = ones n := by
  -- both counters are at least as large as the number, so neither runs out
  suffices both : ∀ n first second, n ≤ first → n ≤ second →
      onesLoop first n = onesLoop second n from both n bits n enough (le_refl n)
  intro n
  induction n using Nat.strongRecOn with
  | ind n ih =>
    intro first second hfirst hsecond
    cases first with
    | zero =>
      obtain rfl := Nat.le_zero.mp hfirst
      cases second <;> simp [onesLoop]
    | succ first =>
      cases second with
      | zero =>
        obtain rfl := Nat.le_zero.mp hsecond
        simp [onesLoop]
      | succ second =>
        rw [onesLoop, onesLoop]
        split
        · rfl
        · rw [ih (n / 2) (by omega) first second (by omega) (by omega)]

@[simp] theorem ones_zero : ones 0 = 0 := rfl

theorem ones_eq : ones n = n % 2 + ones (n / 2) := by
  by_cases zero : n = 0
  · subst zero
    rfl
  · obtain ⟨m, rfl⟩ := Nat.exists_eq_succ_of_ne_zero zero
    rw [ones, onesLoop, if_neg zero, onesLoop_enough (by omega)]

theorem ones_even : ones (2 * n) = ones n := by
  rw [ones_eq, show 2 * n % 2 = 0 by omega, show 2 * n / 2 = n by omega, zero_add]

theorem ones_odd : ones (2 * n + 1) = ones n + 1 := by
  rw [ones_eq, show (2 * n + 1) % 2 = 1 by omega, show (2 * n + 1) / 2 = n by omega,
    add_comm]

theorem ones_le : ones n ≤ n := by
  induction n using Nat.strongRecOn with
  | ind n ih =>
    by_cases zero : n = 0
    · simp [zero]
    · have half := ih (n / 2) (by omega)
      rw [ones_eq]
      omega

theorem ones_succ_pos : 0 < ones (n + 1) := by
  induction n using Nat.strongRecOn with
  | ind n ih =>
    rcases Nat.even_or_odd' n with ⟨m, rfl | rfl⟩
    · rw [ones_odd]
      exact Nat.succ_pos _
    · rw [show 2 * m + 1 + 1 = 2 * (m + 1) by omega, ones_even]
      exact ih m (by omega)

theorem ones_succ_le : ones (n + 1) ≤ ones n + 1 := by
  induction n using Nat.strongRecOn with
  | ind n ih =>
    rcases Nat.even_or_odd' n with ⟨m, rfl | rfl⟩
    · rw [ones_odd, ones_even]
    · rw [show 2 * m + 1 + 1 = 2 * (m + 1) by omega, ones_even, ones_odd]
      have half := ih m (by omega)
      omega

theorem ones_two_pow_add {k n : Nat} (small : n < 2 ^ k) : ones (2 ^ k + n) = ones n + 1 := by
  induction k generalizing n with
  | zero =>
    obtain rfl : n = 0 := by omega
    rfl
  | succ k ih =>
    have half := ih (show n / 2 < 2 ^ k by omega)
    rw [ones_eq, pow_succ, show (2 ^ k * 2 + n) % 2 = n % 2 by omega,
      show (2 ^ k * 2 + n) / 2 = 2 ^ k + n / 2 by omega, half, ones_eq n]
    omega

variable (k : Nat)

theorem ones_two_pow_sub_one : ones (2 ^ k - 1) = k := by
  induction k with
  | zero => rfl
  | succ k ih =>
    have positive := Nat.two_pow_pos k
    rw [show 2 ^ (k + 1) - 1 = 2 * (2 ^ k - 1) + 1 by rw [pow_succ]; omega, ones_odd, ih]

variable (i : Nat)

/-- The position of leaf `i`, which is also the number of nodes of `i` leaves. -/
def leafPosition : Nat := 2 * i - ones i

@[simp] theorem leafPosition_zero : leafPosition 0 = 0 := rfl

theorem le_leafPosition : i ≤ leafPosition i := by
  have := ones_le i
  rw [leafPosition]
  omega

theorem leafPosition_lt_succ : leafPosition i < leafPosition (i + 1) := by
  have step := ones_succ_le i
  have bound := ones_le (i + 1)
  rw [leafPosition, leafPosition]
  omega

theorem leafPosition_succ_le : leafPosition (i + 1) ≤ leafPosition i + i + 1 := by
  have positive := ones_succ_pos i
  have bound := ones_le i
  rw [leafPosition, leafPosition]
  omega

theorem leafPosition_strictMono : StrictMono leafPosition :=
  strictMono_nat_of_lt_succ leafPosition_lt_succ

theorem leafPosition_two_pow_add {k i : Nat} (small : i < 2 ^ k) :
    leafPosition (2 ^ k + i) = (2 ^ (k + 1) - 1) + leafPosition i := by
  have leading := ones_two_pow_add small
  have bound := ones_le i
  rw [leafPosition, leafPosition, leading, pow_succ]
  omega

theorem leafPosition_two_pow : leafPosition (2 ^ k) = 2 ^ (k + 1) - 1 := by
  have := leafPosition_two_pow_add (Nat.two_pow_pos k)
  simpa using this

/-- The last leaf of a full tree comes `k + 1` positions before its end. -/
theorem leafPosition_two_pow_sub_one : leafPosition (2 ^ k - 1) + (k + 1) = 2 ^ (k + 1) - 1 := by
  have count := ones_two_pow_sub_one k
  have bound := ones_le (2 ^ k - 1)
  have positive := Nat.two_pow_pos k
  rw [leafPosition, count, pow_succ]
  omega

/-! ## Peeling full subtrees -/

/-- Take off, from the largest size `2 ^ k - 1` down, every full subtree that fits. -/
def peel : (k : Nat) → Nat → Nat
  | 0, rest => rest
  | k + 1, rest => peel k (if 2 ^ (k + 1) - 1 ≤ rest then rest - (2 ^ (k + 1) - 1) else rest)

theorem peel_two_pow_add (k c : Nat) : peel k (2 ^ (k + 1) + c) = c + k + 2 := by
  induction k generalizing c with
  | zero =>
    rw [peel]
    omega
  | succ k ih =>
    have positive := Nat.two_pow_pos (k + 1)
    rw [peel, if_pos (by rw [pow_succ 2 (k + 1)]; omega),
      show 2 ^ (k + 1 + 1) + c - (2 ^ (k + 1) - 1) = 2 ^ (k + 1) + (c + 1) by
        rw [pow_succ 2 (k + 1)]; omega, ih]
    omega

theorem peel_full : peel k (2 ^ (k + 1) - 1) = k + 1 := by
  cases k with
  | zero => rfl
  | succ k =>
    rw [peel, if_pos (by rw [pow_succ 2 (k + 1)]; omega),
      show 2 ^ (k + 1 + 1) - 1 - (2 ^ (k + 1) - 1) = 2 ^ (k + 1) + 0 by
        rw [pow_succ 2 (k + 1)]; omega, peel_two_pow_add]
    omega

/-- Peeling finds how far a position is above the leaf it belongs to. -/
theorem peel_eq {k i position : Nat} (small : i < 2 ^ k)
    (above : leafPosition i ≤ position) (below : position < leafPosition (i + 1)) :
    peel k position = position - leafPosition i := by
  induction k generalizing i position with
  | zero =>
    obtain rfl : i = 0 := by omega
    rfl
  | succ k ih =>
    rw [peel]
    by_cases left : i < 2 ^ k
    · -- the leaf is in the left half: the largest subtree does not fit
      have monotone := leafPosition_strictMono.monotone (show i + 1 ≤ 2 ^ k by omega)
      rw [leafPosition_two_pow] at monotone
      rw [if_neg (by omega)]
      exact ih left above below
    · obtain ⟨j, rfl⟩ : ∃ j, i = 2 ^ k + j := ⟨i - 2 ^ k, by omega⟩
      have hj : j < 2 ^ k := by omega
      have start := leafPosition_two_pow_add hj
      rw [if_pos (by omega)]
      by_cases last : j + 1 < 2 ^ k
      · rw [add_assoc, leafPosition_two_pow_add last] at below
        rw [ih hj (by omega) (by omega)]
        omega
      · -- the last leaf also completes the whole tree
        have hlast : j = 2 ^ k - 1 := by omega
        have next : 2 ^ k + j + 1 = 2 ^ (k + 1) := by rw [pow_succ]; omega
        have corner := leafPosition_two_pow_sub_one k
        rw [next, leafPosition_two_pow] at below
        rw [← hlast] at corner
        by_cases inner : position - (2 ^ (k + 1) - 1) < leafPosition (j + 1)
        · rw [ih hj (by omega) inner]
          omega
        · have full : leafPosition (j + 1) = 2 ^ (k + 1) - 1 := by
            rw [← leafPosition_two_pow]
            congr 1
            omega
          have top : position - (2 ^ (k + 1) - 1) = 2 ^ (k + 1) - 1 := by
            omega
          rw [top, peel_full]
          omega

theorem exists_leaf (position : Nat) :
    ∃ i, leafPosition i ≤ position ∧ position < leafPosition (i + 1) := by
  induction position with
  | zero => exact ⟨0, le_refl 0, leafPosition_lt_succ 0⟩
  | succ position ih =>
    obtain ⟨i, above, below⟩ := ih
    by_cases inside : position + 1 < leafPosition (i + 1)
    · exact ⟨i, by omega, inside⟩
    · have next := leafPosition_lt_succ (i + 1)
      exact ⟨i + 1, by omega, by omega⟩

/-- The sizes of the full trees over `numLeaves` leaves, largest first. -/
def peakSizes : (bits numLeaves : Nat) → List Nat
  | 0, _ => []
  | bits + 1, numLeaves =>
    if 2 ^ bits ≤ numLeaves then (2 ^ (bits + 1) - 1) :: peakSizes bits (numLeaves - 2 ^ bits)
    else peakSizes bits numLeaves

/-- The positions of the peaks when trees of the given sizes follow each other. -/
def peakPositions : (start : Nat) → (sizes : List Nat) → List Nat
  | _, [] => []
  | start, size :: rest => (start + size - 1) :: peakPositions (start + size) rest

/-- Induction over the peaks of a range: the leading tree or none. -/
theorem peakSizes_cons (fits : 2 ^ bits ≤ numLeaves) (small : numLeaves < 2 ^ (bits + 1)) :
    peakSizes (bits + 1) numLeaves =
        (2 ^ (bits + 1) - 1) :: peakSizes bits (numLeaves - 2 ^ bits) ∧
      numLeaves - 2 ^ bits < 2 ^ bits ∧
      leafPosition numLeaves = (2 ^ (bits + 1) - 1) + leafPosition (numLeaves - 2 ^ bits) := by
  have rest : numLeaves - 2 ^ bits < 2 ^ bits := by omega
  refine ⟨by rw [peakSizes, if_pos fits], rest, ?_⟩
  rw [← leafPosition_two_pow_add rest]
  congr 1
  omega

theorem peakSizes_skip (small : numLeaves < 2 ^ bits) :
    peakSizes (bits + 1) numLeaves = peakSizes bits numLeaves ∧
      leafPosition numLeaves < 2 ^ (bits + 1) - 1 := by
  refine ⟨by rw [peakSizes, if_neg (by omega)], ?_⟩
  rw [← leafPosition_two_pow]
  exact leafPosition_strictMono small

theorem peakSizes_sum (small : numLeaves < 2 ^ bits) :
    (peakSizes bits numLeaves).sum = leafPosition numLeaves := by
  induction bits generalizing numLeaves with
  | zero =>
    obtain rfl : numLeaves = 0 := by omega
    rfl
  | succ bits ih =>
    by_cases fits : 2 ^ bits ≤ numLeaves
    · obtain ⟨sizes, rest, position⟩ := peakSizes_cons fits small
      rw [sizes, sum_cons, ih rest, position]
    · rw [(peakSizes_skip (by omega)).1, ih (by omega)]

theorem peakSizes_pos {size : Nat} (member : size ∈ peakSizes bits numLeaves) : 0 < size := by
  induction bits generalizing numLeaves with
  | zero => cases member
  | succ bits ih =>
    have positive := Nat.two_pow_pos bits
    rw [peakSizes] at member
    split at member
    · rcases mem_cons.mp member with rfl | member
      · rw [pow_succ]
        omega
      · exact ih member
    · exact ih member

theorem peakPositions_lt {start position : Nat} {sizes : List Nat}
    (positive : ∀ size ∈ sizes, 0 < size) (member : position ∈ peakPositions start sizes) :
    position < start + sizes.sum := by
  induction sizes generalizing start with
  | nil => cases member
  | cons size rest ih =>
    have here := positive size mem_cons_self
    rw [sum_cons]
    rcases mem_cons.mp member with rfl | member
    · omega
    · have := ih (forall_mem_cons.mp positive).2 member
      omega

/-! ## The nodes of a list of leaves -/

/-- How leaves and pairs of children are hashed at a position. -/
structure NodeHash (Hash Data : Type) where
  leafHash : Nat → Data → Hash
  parentHash : Nat → Hash → Hash → Hash

section Nodes

variable {Hash Data : Type} (hashes : NodeHash Hash Data)

/-- `count` parents above a right child, the first of the given height at the
given position; left children are looked up in `nodes`. -/
def climb (nodes : List Hash) : (count height position : Nat) → Hash → List Hash
  | 0, _, _, _ => []
  | count + 1, height, position, right =>
    let parent := hashes.parentHash position (nodes.getD (position - 2 ^ height) right) right
    parent :: climb nodes count (height + 1) (position + 1) parent

variable (nodes : List Hash)

/-- The nodes a leaf adds: its own and all the parents it completes. -/
def leafNodes (i : Nat) (data : Data) : List Hash :=
  let leaf := hashes.leafHash (leafPosition i) data
  leaf :: climb hashes nodes (leafPosition (i + 1) - leafPosition i - 1) 1 (leafPosition i + 1) leaf

def appendLeaf (i : Nat) (data : Data) : List Hash :=
  nodes ++ leafNodes hashes nodes i data

def nodesFrom : List Hash → Nat → List Data → List Hash
  | nodes, _, [] => nodes
  | nodes, i, data :: rest => nodesFrom (appendLeaf hashes nodes i data) (i + 1) rest

variable (leaves : List Data)

/-- All nodes of the range over the given leaves, in postorder. -/
def nodesOf : List Hash := nodesFrom hashes [] 0 leaves

variable {hashes}

theorem climb_length (count height position : Nat) (right : Hash) :
    (climb hashes nodes count height position right).length = count := by
  induction count generalizing height position right with
  | zero => rfl
  | succ count ih => simp [climb, ih]

theorem appendLeaf_length {nodes : List Hash} {i : Nat} {data : Data}
    (size : nodes.length = leafPosition i) :
    (appendLeaf hashes nodes i data).length = leafPosition (i + 1) := by
  have step := leafPosition_lt_succ i
  simp only [appendLeaf, leafNodes, length_append, length_cons, climb_length, size]
  omega

theorem nodesFrom_append (i : Nat) (leaves : List Data) (data : Data) :
    nodesFrom hashes nodes i (leaves ++ [data]) =
      appendLeaf hashes (nodesFrom hashes nodes i leaves) (i + leaves.length) data := by
  induction leaves generalizing nodes i with
  | nil => rfl
  | cons first rest ih =>
    simp only [cons_append, nodesFrom, length_cons]
    rw [ih]
    congr 1
    omega

theorem nodesOf_append (data : Data) :
    nodesOf hashes (leaves ++ [data]) =
      appendLeaf hashes (nodesOf hashes leaves) leaves.length data := by
  simp only [nodesOf]
  rw [nodesFrom_append, zero_add]

@[simp] theorem nodesOf_nil : nodesOf hashes [] = [] := rfl

@[simp] theorem nodesOf_length : (nodesOf hashes leaves).length = leafPosition leaves.length := by
  induction leaves using reverseRecOn with
  | nil => rfl
  | append_singleton leaves data ih =>
    rw [nodesOf_append, appendLeaf_length ih, length_append]
    rfl

theorem nodesOf_take (hashes : NodeHash Hash Data) (leaves : List Data) (count : Nat)
    (within : count ≤ leaves.length) :
    nodesOf hashes (leaves.take count) = (nodesOf hashes leaves).take (leafPosition count) := by
  induction leaves using reverseRecOn with
  | nil => simp
  | append_singleton leaves data ih =>
    rw [length_append, length_singleton] at within
    rcases lt_or_ge leaves.length count with more | fewer
    · have exact : count = leaves.length + 1 := by omega
      subst exact
      rw [take_of_length_le (by simp), take_of_length_le (by simp)]
    · have inside := leafPosition_strictMono.monotone fewer
      rw [take_append_of_le_length fewer, ih fewer, nodesOf_append, appendLeaf,
        take_append_of_le_length (by simpa using inside)]

theorem nodesOf_append_take (hashes : NodeHash Hash Data) (first second : List Data) :
    (nodesOf hashes (first ++ second)).take (leafPosition first.length) = nodesOf hashes first := by
  rw [← nodesOf_take _ _ _ (by simp), take_left]

end Nodes

end MooncoinFormal.Library.MountainRange
