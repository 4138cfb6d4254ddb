import Mathlib
import MooncoinFormal.Library.MerkleTree

/-!
# The Merkle root of a list of hashes

`consensus/merkle.cpp`: the hashes are kept in one vector that every round halves.
The round compares partners before it doubles a last hash that has none, so the
doubling itself is not reported. Two lists of one depth without a report are told
apart by their roots.
-/

namespace MooncoinFormal.Consensus

open Library.MerkleTree List

variable {Hash : Type}

/-- The comparison of `hashes[pos]` with `hashes[pos + 1]` over every second position. -/
def hasEqualPartners [DecidableEq Hash] (hashes : List Hash) : Bool :=
  (range (hashes.length / 2)).any fun i => decide (hashes[2 * i]? = hashes[2 * i + 1]?)

variable (hashes : List Hash)

/-- `hashes.push_back(hashes.back())`, for a vector of odd size. -/
def makeEven : List Hash :=
  if hashes.length % 2 = 1 then hashes ++ hashes.getLast?.toList else hashes

variable (pair : Hash → Hash → Hash)

/-- The two hashes at a position and behind it, joined. -/
def joinAt (hashes : List Hash) (pos : Nat) : Option Hash := do
  let left ← hashes[pos]?
  let right ← hashes[pos + 1]?
  return pair left right

/-- `SHA256D64` over the vector itself: the hash of each pair is stored at the front,
and what follows them stays. -/
def sha256D64 (hashes : List Hash) (blocks : Nat) : List Hash :=
  (range blocks).filterMap (fun i => joinAt pair hashes (2 * i)) ++ hashes.drop blocks

/-- What a round leaves in the vector. -/
def nextLevel (hashes : List Hash) : List Hash :=
  let even := makeEven hashes
  (sha256D64 pair even (even.length / 2)).take (even.length / 2)

/-- The loop of `ComputeMerkleRoot`; `rounds` bounds it. -/
def merkleLoop [DecidableEq Hash] (pair : Hash → Hash → Hash) :
    (rounds : Nat) → List Hash → Bool → List Hash × Bool
  | 0, hashes, mutation => (hashes, mutation)
  | rounds + 1, hashes, mutation =>
    if 1 < hashes.length then
      merkleLoop pair rounds (nextLevel pair hashes) (mutation || hasEqualPartners hashes)
    else (hashes, mutation)

/-- `ComputeMerkleRoot` with a place for the report: the root, which is `uint256()`
for no hashes, and `*mutated`. Each round makes the vector smaller. -/
def computeMerkleRoot [DecidableEq Hash] (zero : Hash) (hashes : List Hash) : Hash × Bool :=
  let (level, mutation) := merkleLoop pair hashes.length hashes false
  (level.headD zero, mutation)

/-- The depth of the tree, the logarithm of the number of hashes rounded up; there is
no tree, and no logarithm, of none. -/
def treeDepth : List Hash → Option Nat
  | [] => none
  | hashes => some (Nat.clog 2 hashes.length)

/-! ## A round is one level of the tree -/

theorem makeEven_cons_cons (left right : Hash) (rest : List Hash) :
    makeEven (left :: right :: rest) = left :: right :: makeEven rest := by
  unfold makeEven
  rw [length_cons, length_cons, Nat.add_assoc, Nat.add_mod_right]
  split
  · rename_i odd
    match rest with
    | [] => cases odd
    | last :: others => simp [getLast?_cons_cons]
  · rfl

theorem even_length_makeEven : (makeEven hashes).length % 2 = 0 := by
  unfold makeEven
  split
  · rename_i odd
    match hashes with
    | [] => cases odd
    | first :: rest =>
      rw [getLast?_cons, Option.toList_some, length_append, length_singleton]
      omega
  · omega

theorem pairUp_makeEven (hashes : List Hash) :
    pairUp pair (makeEven hashes) = pairUp pair hashes := by
  induction hashes using pairUp.induct with
  | case1 => rfl
  | case2 last => rfl
  | case3 left right rest ih => rw [makeEven_cons_cons, pairUp, ih, pairUp]

theorem half_length (left right : Hash) (rest : List Hash) :
    (left :: right :: rest).length / 2 = rest.length / 2 + 1 := by
  rw [length_cons, length_cons]
  omega

theorem hasEqualPartners_eq_twins [DecidableEq Hash] (hashes : List Hash) :
    hasEqualPartners hashes = twins hashes := by
  induction hashes using pairUp.induct with
  | case1 => simp [hasEqualPartners, twins]
  | case2 last => simp [hasEqualPartners, twins]
  | case3 left right rest ih =>
    have later : ∀ i : Nat, 2 * (i + 1) = 2 * i + 1 + 1 := by omega
    rw [hasEqualPartners, half_length, range_succ_eq_map, twins, ← ih, hasEqualPartners]
    simp [any_map, Function.comp_def, later]

theorem filterMap_joinAt {hashes : List Hash} (even : hashes.length % 2 = 0) :
    (range (hashes.length / 2)).filterMap (fun i => joinAt pair hashes (2 * i)) =
      pairUp pair hashes := by
  induction hashes using pairUp.induct with
  | case1 => simp [pairUp]
  | case2 last => cases even
  | case3 left right rest ih =>
    have shorter : rest.length % 2 = 0 := by
      rw [length_cons, length_cons] at even
      omega
    rw [half_length, range_succ_eq_map, pairUp, ← ih shorter, filterMap_cons, filterMap_map]
    rfl

theorem nextLevel_eq_pairUp (hashes : List Hash) : nextLevel pair hashes = pairUp pair hashes := by
  have even := even_length_makeEven hashes
  have size : (pairUp pair (makeEven hashes)).length = (makeEven hashes).length / 2 := by
    rw [length_pairUp]
    omega
  rw [nextLevel, sha256D64, filterMap_joinAt pair even, ← size, take_left, pairUp_makeEven]

theorem merkleLoop_eq_rootLoop [DecidableEq Hash] (zero : Hash) (rounds : Nat) (hashes : List Hash)
    (mutation : Bool) :
    ((merkleLoop pair rounds hashes mutation).1.headD zero,
      (merkleLoop pair rounds hashes mutation).2) = rootLoop pair zero rounds hashes mutation := by
  induction rounds generalizing hashes mutation with
  | zero => rfl
  | succ rounds ih =>
    rw [merkleLoop, rootLoop]
    by_cases several : 1 < hashes.length
    · rw [if_pos several, if_neg (by omega), ih, nextLevel_eq_pairUp, hasEqualPartners_eq_twins]
    · rw [if_neg several, if_pos (by omega)]

theorem computeMerkleRoot_eq_computeRoot [DecidableEq Hash] (zero : Hash) (hashes : List Hash) :
    computeMerkleRoot pair zero hashes = computeRoot pair zero hashes :=
  merkleLoop_eq_rootLoop pair zero hashes.length hashes false

/-- Two lists of one depth that are not reported have different roots, unless they
are the same. -/
theorem eq_of_computeMerkleRoot_eq [DecidableEq Hash] {pair : Hash → Hash → Hash} {zero : Hash}
    (collisionFree : Injective pair) {hashes others : List Hash}
    (depth : treeDepth hashes = treeDepth others)
    (root : (computeMerkleRoot pair zero hashes).1 = (computeMerkleRoot pair zero others).1)
    (unreported : (computeMerkleRoot pair zero hashes).2 = false)
    (unreported' : (computeMerkleRoot pair zero others).2 = false) : hashes = others := by
  match hashes, others with
  | [], [] => rfl
  | [], _ :: _ => cases depth
  | _ :: _, [] => cases depth
  | first :: rest, first' :: rest' =>
    rw [computeMerkleRoot_eq_computeRoot] at unreported unreported' root
    rw [computeMerkleRoot_eq_computeRoot] at root
    exact eq_of_computeRoot_eq_of_clog collisionFree (cons_ne_nil _ _)
      (cons_ne_nil _ _) (Option.some.inj depth) unreported unreported' root

theorem eq_of_computeMerkleRoot_eq_three :
    Injective Nat.pair ∧ (computeMerkleRoot Nat.pair 0 [4, 5, 6]).2 = false ∧
      [4, 5, 6] = [4, 5] ++ [6] :=
  have pairs : Injective Nat.pair := fun _ _ _ _ => Nat.pair_eq_pair.mp
  ⟨pairs, by decide, eq_of_computeMerkleRoot_eq pairs rfl
    (@rfl _ (computeMerkleRoot Nat.pair 0 _).1) (by decide) (by decide)⟩

/-- The list that spells the doubling out has the same root, and is reported. -/
example : computeMerkleRoot Nat.pair 0 [4, 5, 6, 6] =
    ((computeMerkleRoot Nat.pair 0 [4, 5, 6]).1, true) := by decide

end MooncoinFormal.Consensus
