import Mathlib
import MooncoinFormal.Library.MountainRange
import MooncoinFormal.Mweb.AppendOnlyFile

/-!
# Merkle mountain ranges

`mw/mmr`: positions and their arithmetic, the append-only range in memory, the
range kept in a file, and the overlay that is rewound, extended and flushed to
what lies below it. Positions are natural numbers; a range of the chain stays
far below the width of the machine integers. A failed assertion, a read past the
end and a missing leaf are `none`.

Each of the three ranges is shown to hold the nodes of a list of leaves, and
every operation is described by what it does to that list.
-/

namespace MooncoinFormal.Mweb.Mmr

open Library.MountainRange List Nat Option

/-! ## Positions -/

/-- `BitUtil::FillOnesToRight`: the top bit and every bit below it. -/
def fillOnesToRight (input : Nat) : Nat :=
  if input = 0 then 0 else 2 ^ (input.log2 + 1) - 1

/-- The loop over `peakSize` shared by the functions below: each subtree that
fits is taken off `numLeft` and handed to `take`. -/
def peakLoop {σ : Type} (take : σ → Nat → σ) : (rounds peakSize numLeft : Nat) → σ → σ × Nat
  | 0, _, numLeft, state => (state, numLeft)
  | rounds + 1, peakSize, numLeft, state =>
    if peakSize = 0 then (state, numLeft)
    else if peakSize ≤ numLeft then
      peakLoop take rounds (peakSize / 2) (numLeft - peakSize) (take state peakSize)
    else peakLoop take rounds (peakSize / 2) numLeft state

/-- The loop from the largest subtree that could fit. -/
def overPeaks {σ : Type} (take : σ → Nat → σ) (position : Nat) (state : σ) : σ × Nat :=
  peakLoop take (position.log2 + 1) (fillOnesToRight position) position state

variable (position : Nat)

/-- `Index::CalculateHeight`: what is left when all subtrees are taken off. -/
def calculateHeight : Nat :=
  (overPeaks (fun _ _ => ()) position ()).2

def calculateLeafIndex : Nat :=
  (overPeaks (fun leafIndex peakSize => leafIndex + (peakSize + 1) / 2) position 0).1

/-- The positions of the peaks and the sum of the peaks before, one more peak on. -/
def pushPeak (peaks : List Nat × Nat) (peakSize : Nat) : List Nat × Nat :=
  (peaks.1 ++ [peaks.2 + peakSize - 1], peaks.2 + peakSize)

/-- `MMRUtil::CalcPeakIndices`, which asserts that nothing is left. -/
def calcPeakIndices (numNodes : Nat) : Option (List Nat) :=
  let result := overPeaks pushPeak numNodes ([], 0)
  if result.2 = 0 then some result.1.1 else none

structure Index where
  position : Nat
  height : Nat
  deriving DecidableEq

variable (index : Index)

namespace Index

/-- `Index::At`. -/
def atPosition : Index := ⟨position, calculateHeight position⟩

def isLeaf : Bool := index.height == 0

def getNext : Index := atPosition (index.position + 1)

def getLeafIndex : Option Nat :=
  if index.isLeaf then some (calculateLeafIndex index.position) else none

def getLeftChild : Option Index :=
  if 0 < index.height then some ⟨index.position - 2 ^ index.height, index.height - 1⟩ else none

end Index

open Index

structure Leaf (Hash Data : Type) where
  index : Nat
  hash : Hash
  data : Data
  deriving DecidableEq

section Ranges

variable {Hash Data : Type} (hashes : NodeHash Hash Data)

def Leaf.create (index : Nat) (data : Data) : Leaf Hash Data :=
  ⟨index, hashes.leafHash (leafPosition index) data, data⟩

/-- `Leaf::GetNodeIndex`: a leaf has height zero. -/
def Leaf.getNodeIndex (leaf : Leaf Hash Data) : Index := ⟨leafPosition leaf.index, 0⟩

/-- The loop of `AddLeaf`: parents are appended until the next position is a
leaf. `getHash` reads a left child while `nodes` grows. -/
def addParents (getHash : List Hash → Nat → Option Hash) :
    (rounds : Nat) → (nextIdx : Index) → (rightHash : Hash) → (nodes : List Hash) →
    Option (List Hash)
  | 0, _, _, nodes => some nodes
  | rounds + 1, nextIdx, rightHash, nodes =>
    if nextIdx.isLeaf then some nodes
    else do
      let leftChild ← nextIdx.getLeftChild
      let leftHash ← getHash nodes leftChild.position
      let parent := hashes.parentHash nextIdx.position leftHash rightHash
      addParents getHash rounds nextIdx.getNext parent (nodes ++ [parent])

/-- `AddLeaf` as the three ranges share it: the leaf's hash, then its parents. A
leaf of index `i` completes at most `i` parents. -/
def addLeafNodes (getHash : List Hash → Nat → Option Hash) (leaf : Leaf Hash Data)
    (nodes : List Hash) : Option (List Hash) :=
  addParents hashes getHash (leaf.index + 1) leaf.getNodeIndex.getNext leaf.hash
    (nodes ++ [leaf.hash])

/-- The bagging loop of `IMMR::Root`, over the peaks from the right. -/
def bagPeaks [DecidableEq Hash] (zero : Hash) (numNodes : Nat) : List Hash → Hash → Hash
  | [], hash => hash
  | peakHash :: rest, hash =>
    bagPeaks zero numNodes rest
      (if hash = zero then peakHash else hashes.parentHash numNodes peakHash hash)

/-- `IMMR::Root` over a range of `numNodes` nodes. -/
def root [DecidableEq Hash] (zero : Hash) (numNodes : Nat) (getHash : Nat → Option Hash) :
    Option Hash := do
  let peaks ← calcPeakIndices numNodes
  let peakHashes ← peaks.reverse.mapM getHash
  some (bagPeaks hashes zero numNodes peakHashes zero)

structure MemMMR (Hash Data : Type) where
  hashes : List Hash
  leaves : List (Leaf Hash Data)

namespace MemMMR

def empty : MemMMR Hash Data := ⟨[], []⟩

def getHash (nodes : List Hash) (position : Nat) : Option Hash := nodes[position]?

variable (mmr : MemMMR Hash Data)

def getNumLeaves : Nat := mmr.leaves.length

def getLeaf (leafIdx : Nat) : Option (Leaf Hash Data) :=
  mmr.leaves[leafIdx]?

def add (data : Data) : Option (MemMMR Hash Data) := do
  let leaf := Leaf.create hashes mmr.getNumLeaves data
  let nodes ← addLeafNodes hashes getHash leaf mmr.hashes
  some ⟨nodes, mmr.leaves ++ [leaf]⟩

def root [DecidableEq Hash] (zero : Hash) (mmr : MemMMR Hash Data) : Option Hash :=
  Mmr.root hashes zero (leafPosition mmr.getNumLeaves) (getHash mmr.hashes)

end MemMMR

/-! ## The range in a file and its overlays -/

/-- `PMMR`: the hash file and the leaves of the database. Nothing is compacted,
so no position is shifted by the prune list. -/
structure PMMR (Hash Data : Type) where
  hashFile : List Hash
  leafDB : Nat → Option (Leaf Hash Data)

namespace PMMR

def getHash (nodes : List Hash) (position : Nat) : Option Hash := nodes[position]?

variable (mmr : PMMR Hash Data)

def getNumLeaves : Option Nat :=
  (atPosition mmr.hashFile.length).getLeafIndex

/-- `Rewind` refuses to go past the end of the file. -/
def rewind (numLeaves : Nat) : Option (PMMR Hash Data) :=
  if leafPosition numLeaves ≤ mmr.hashFile.length then
    some { mmr with hashFile := mmr.hashFile.take (leafPosition numLeaves) }
  else none

/-- `AddLeaf`, with the leaf stored at once rather than at the end of the batch. -/
def addLeaf (leaf : Leaf Hash Data) : Option (PMMR Hash Data) := do
  let nodes ← addLeafNodes hashes getHash leaf mmr.hashFile
  some ⟨nodes, fun index => if index = leaf.index then some leaf else mmr.leafDB index⟩

/-- The hash file, as it is after hashes were cut off and others appended; it is read and
written in whole hashes only. -/
def appendOnlyFile (mmr rewound written : PMMR Hash Data) : AppendOnlyFile Unit Hash where
  path := ()
  mmap := memMap mmr.hashFile
  fileSize := mmr.hashFile.length
  bufferIndex := rewound.hashFile.length
  buffer := written.hashFile.drop rewound.hashFile.length

/-- `BatchWrite`, with what the commit of the hash file leaves in it. -/
def batchWrite (firstLeafIdx : Nat) (leaves : List (Leaf Hash Data)) : Option (PMMR Hash Data) := do
  let rewound ← mmr.rewind firstLeafIdx
  let written ← leaves.foldlM (addLeaf hashes) rewound
  some { written with hashFile := (mmr.appendOnlyFile rewound written).committedBytes mmr.hashFile }

end PMMR

/-- `PMMRCache` without the pointer to the range below it. -/
structure PMMRCache (Hash Data : Type) where
  firstLeaf : Nat
  leaves : List (Leaf Hash Data)
  nodes : List Hash

/-- A file with overlays on it; `cache` holds the pointer `m_pBase`. -/
inductive IMMR (Hash Data : Type) where
  | file (mmr : PMMR Hash Data)
  | cache (base : IMMR Hash Data) (top : PMMRCache Hash Data)

namespace PMMRCache

variable (top : PMMRCache Hash Data)

def getNextLeafIdx : Nat :=
  match top.leaves.getLast? with
  | none => top.firstLeaf
  | some leaf => leaf.index + 1

variable (below : Nat → Option Hash)

/-- `GetHash`, reading below the first leaf from the base. -/
def getHash (firstLeaf : Nat) (nodes : List Hash) (position : Nat) : Option Hash :=
  if position < leafPosition firstLeaf then below position
  else nodes[position - leafPosition firstLeaf]?

def addLeaf (top : PMMRCache Hash Data) (leaf : Leaf Hash Data) : Option (PMMRCache Hash Data) := do
  let nodes ← addLeafNodes hashes (getHash below top.firstLeaf) leaf top.nodes
  some { top with nodes := nodes, leaves := top.leaves ++ [leaf] }

def add (top : PMMRCache Hash Data) (data : Data) : Option (PMMRCache Hash Data) :=
  top.addLeaf hashes below (Leaf.create hashes top.getNextLeafIdx data)

def rewind (numLeaves : Nat) : PMMRCache Hash Data :=
  if numLeaves ≤ top.firstLeaf then ⟨numLeaves, [], []⟩
  else if top.leaves = [] then top
  else
    let kept := { top with
      leaves := top.leaves.takeWhile fun leaf => decide (leaf.index < numLeaves) }
    let numNodes := leafPosition kept.getNextLeafIdx - leafPosition top.firstLeaf
    { kept with nodes := top.nodes.take numNodes }

/-- `BatchWrite` adds the data of the leaves anew. -/
def batchWrite (top : PMMRCache Hash Data) (firstLeafIdx : Nat)
    (leaves : List (Leaf Hash Data)) : Option (PMMRCache Hash Data) :=
  leaves.foldlM (fun top leaf => top.add hashes below leaf.data) (top.rewind firstLeafIdx)

def flushed : PMMRCache Hash Data := ⟨top.getNextLeafIdx, [], []⟩

end PMMRCache

namespace IMMR

def getHash : IMMR Hash Data → Nat → Option Hash
  | file mmr => PMMR.getHash mmr.hashFile
  | cache base top => PMMRCache.getHash base.getHash top.firstLeaf top.nodes

def getNextLeafIdx : IMMR Hash Data → Option Nat
  | file mmr => mmr.getNumLeaves
  | cache _ top => some top.getNextLeafIdx

def getLeaf : IMMR Hash Data → Nat → Option (Leaf Hash Data)
  | file mmr, leafIdx => mmr.leafDB leafIdx
  | cache base top, leafIdx =>
    if leafIdx < top.firstLeaf then base.getLeaf leafIdx
    else top.leaves[leafIdx - top.firstLeaf]?

def root [DecidableEq Hash] (zero : Hash) (mmr : IMMR Hash Data) : Option Hash := do
  let numLeaves ← mmr.getNextLeafIdx
  Mmr.root hashes zero (leafPosition numLeaves) mmr.getHash

/-- A new overlay, as `PMMRCache` is constructed on its base. -/
def newCache (base : IMMR Hash Data) : Option (PMMRCache Hash Data) := do
  let firstLeaf ← base.getNextLeafIdx
  some ⟨firstLeaf, [], []⟩

def batchWrite : IMMR Hash Data → (firstLeafIdx : Nat) → List (Leaf Hash Data) →
    Option (IMMR Hash Data)
  | file mmr, firstLeafIdx, leaves => (mmr.batchWrite hashes firstLeafIdx leaves).map file
  | cache base top, firstLeafIdx, leaves =>
    (top.batchWrite hashes base.getHash firstLeafIdx leaves).map (cache base)

end IMMR

end Ranges

/-! ## The arithmetic of positions -/

section Positions

variable {σ : Type} {take : σ → Nat → σ}

theorem ones_half (k : Nat) : (2 ^ (k + 1) - 1) / 2 = 2 ^ k - 1 := by
  omega

theorem ones_ne_zero (k : Nat) : 2 ^ (k + 1) - 1 ≠ 0 := by
  have := Nat.two_pow_pos k
  omega

theorem peakLoop_rest (k numLeft : Nat) (state : σ) :
    (peakLoop take k (2 ^ k - 1) numLeft state).2 = peel k numLeft := by
  induction k generalizing numLeft state with
  | zero => rfl
  | succ k ih =>
    rw [peakLoop, if_neg (ones_ne_zero k), ones_half, peel]
    split <;> exact ih _ _

theorem overPeaks_rest (state : σ) :
    (overPeaks take position state).2 = peel (position.log2 + 1) position := by
  by_cases zero : position = 0
  · subst zero
    rfl
  · rw [overPeaks, fillOnesToRight, if_neg zero, peakLoop_rest]

/-- The height of a node is how far it stands after the last leaf before it. -/
theorem calculateHeight_eq {i position : Nat} (above : leafPosition i ≤ position)
    (below : position < leafPosition (i + 1)) :
    calculateHeight position = position - leafPosition i := by
  have small : i < 2 ^ (position.log2 + 1) :=
    lt_of_le_of_lt ((le_leafPosition i).trans above) lt_log2_self
  rw [calculateHeight, overPeaks_rest, peel_eq small above below]

variable (i : Nat)

theorem calculateHeight_leafPosition : calculateHeight (leafPosition i) = 0 := by
  rw [calculateHeight_eq (Nat.le_refl _) (leafPosition_lt_succ i), Nat.sub_self]

theorem peakLoop_leafPosition {k i : Nat} (small : i < 2 ^ k) (state : σ) :
    peakLoop take k (2 ^ k - 1) (leafPosition i) state = ((peakSizes k i).foldl take state, 0) := by
  induction k generalizing i state with
  | zero =>
    obtain rfl : i = 0 := by omega
    rfl
  | succ k ih =>
    rw [peakLoop, if_neg (ones_ne_zero k), ones_half]
    by_cases fits : 2 ^ k ≤ i
    · obtain ⟨sizes, rest, position⟩ := peakSizes_cons fits small
      rw [if_pos (by omega), sizes, foldl_cons, ← ih rest, position, Nat.add_sub_cancel_left]
    · obtain ⟨sizes, position⟩ := peakSizes_skip (Nat.lt_of_not_le fits)
      rw [if_neg (by omega), sizes, ih (by omega)]

def peaksOf (numLeaves : Nat) : List Nat :=
  peakSizes ((leafPosition numLeaves).log2 + 1) numLeaves

theorem lt_peakBits : i < 2 ^ ((leafPosition i).log2 + 1) :=
  lt_of_le_of_lt (le_leafPosition i) Nat.lt_log2_self

theorem overPeaks_leafPosition (state : σ) :
    overPeaks take (leafPosition i) state = ((peaksOf i).foldl take state, 0) := by
  by_cases zero : leafPosition i = 0
  · obtain rfl : i = 0 := le_zero.mp (zero ▸ le_leafPosition i)
    rfl
  · rw [overPeaks, fillOnesToRight, if_neg zero, peakLoop_leafPosition (lt_peakBits i), peaksOf]

theorem foldl_leaves {k i : Nat} (small : i < 2 ^ k) (leafIndex : Nat) :
    (peakSizes k i).foldl (fun leafIndex peakSize => leafIndex + (peakSize + 1) / 2) leafIndex =
      leafIndex + i := by
  induction k generalizing i leafIndex with
  | zero =>
    obtain rfl : i = 0 := by omega
    rfl
  | succ k ih =>
    by_cases fits : 2 ^ k ≤ i
    · obtain ⟨sizes, rest, -⟩ := peakSizes_cons fits small
      have half : (2 ^ (k + 1) - 1 + 1) / 2 = 2 ^ k := by
        omega
      rw [sizes, foldl_cons, ih rest, half]
      omega
    · rw [(peakSizes_skip (by omega)).1, ih (by omega)]

theorem calculateLeafIndex_leafPosition : calculateLeafIndex (leafPosition i) = i := by
  rw [calculateLeafIndex, overPeaks_leafPosition, peaksOf, foldl_leaves (lt_peakBits i), zero_add]

theorem getLeafIndex_leafPosition : (atPosition (leafPosition i)).getLeafIndex = some i := by
  simp [getLeafIndex, atPosition, isLeaf, calculateHeight_leafPosition,
    calculateLeafIndex_leafPosition]

theorem foldl_pushPeak (peaks : List Nat) (start : Nat) (sizes : List Nat) :
    sizes.foldl pushPeak (peaks, start) =
      (peaks ++ peakPositions start sizes, start + sizes.sum) := by
  induction sizes generalizing peaks start with
  | nil => simp [peakPositions]
  | cons size rest ih =>
    rw [foldl_cons, pushPeak, ih, peakPositions, sum_cons]
    simp [add_assoc]

theorem calcPeakIndices_leafPosition :
    calcPeakIndices (leafPosition i) = some (peakPositions 0 (peaksOf i)) := by
  simp [calcPeakIndices, overPeaks_leafPosition, foldl_pushPeak]

theorem peakPositions_inside {i position : Nat}
    (member : position ∈ peakPositions 0 (peaksOf i)) : position < leafPosition i := by
  have inside := peakPositions_lt (fun _ => peakSizes_pos) member
  rwa [zero_add, peakSizes_sum (lt_peakBits i)] at inside

end Positions

/-! ## Ranges that hold a list of leaves -/

section Represents

variable {Hash Data : Type} {hashes : NodeHash Hash Data} {leaves added : List Data}
  {mmr base : IMMR Hash Data} {top : PMMRCache Hash Data}

/-- A reader finds the old nodes while new ones are appended. -/
def Reads (getHash : List Hash → Nat → Option Hash) (nodes old : List Hash) (i : Nat) : Prop :=
  ∀ extra position, position < leafPosition i → getHash (nodes ++ extra) position = old[position]?

section

variable {getHash : List Hash → Nat → Option Hash} {nodes old : List Hash} {i : Nat}
  (size : old.length = leafPosition i) (reads : Reads getHash nodes old i)
include size reads

theorem addParents_eq {rounds count height : Nat} (right : Hash) (extra : List Hash)
    (last : leafPosition i + height + count = leafPosition (i + 1)) (positive : 0 < height)
    (enough : count < rounds) :
    addParents hashes getHash rounds (atPosition (leafPosition i + height)) right
        (nodes ++ extra) =
      some (nodes ++ extra ++ climb hashes old count height (leafPosition i + height) right) := by
  induction count generalizing rounds height right extra with
  | zero =>
    -- the next position is the next leaf
    obtain ⟨rounds, rfl⟩ := exists_eq_succ_of_ne_zero (ne_of_gt enough)
    rw [add_zero] at last
    have leaf := calculateHeight_leafPosition (i + 1)
    simp [addParents, atPosition, isLeaf, last, leaf, climb]
  | succ count ih =>
    obtain ⟨rounds, rfl⟩ := exists_eq_succ_of_ne_zero (ne_of_gt (zero_lt_of_lt enough))
    have inner := calculateHeight_eq (le_add_right (leafPosition i) height) (by omega)
    -- the left child was there before the leaf
    have before : leafPosition i + height - 2 ^ height < leafPosition i := by
      have power : height < 2 ^ height := Nat.lt_two_pow_self
      have parents := leafPosition_succ_le i
      have leaves := le_leafPosition i
      omega
    obtain ⟨leftHash, found⟩ : ∃ leftHash,
        old[leafPosition i + height - 2 ^ height]? = some leftHash :=
      ⟨_, getElem?_eq_getElem (size ▸ before)⟩
    have left := (reads extra _ before).trans found
    have rest := ih (hashes.parentHash (leafPosition i + height) leftHash right)
      (extra ++ [hashes.parentHash (leafPosition i + height) leftHash right])
      (show leafPosition i + (height + 1) + count = _ by omega) (succ_pos height)
      (lt_of_succ_lt_succ enough)
    have tall : (height == 0) = false := by simpa using Nat.ne_of_gt positive
    simpa [addParents, climb, atPosition, isLeaf, inner, getLeftChild,
      getNext, positive, left, found, tall, Nat.add_assoc] using rest

theorem addLeafNodes_eq (hashes : NodeHash Hash Data) (data : Data) :
    addLeafNodes hashes getHash (Leaf.create hashes i data) nodes =
      some (nodes ++ leafNodes hashes old i data) := by
  have step := leafPosition_lt_succ i
  have parents := leafPosition_succ_le i
  show addParents hashes getHash (i + 1) (atPosition (leafPosition i + 1)) _ (nodes ++ [_]) = _
  have last : leafPosition i + 1 + (leafPosition (i + 1) - leafPosition i - 1) =
      leafPosition (i + 1) := by omega
  rw [addParents_eq size reads _ _ last Nat.one_pos (by omega), append_assoc]
  rfl

end

def leavesFrom (hashes : NodeHash Hash Data) : (first : Nat) → List Data → List (Leaf Hash Data)
  | _, [] => []
  | first, data :: rest => Leaf.create hashes first data :: leavesFrom hashes (first + 1) rest

variable (first : Nat)

@[simp] theorem leavesFrom_nil : leavesFrom hashes first [] = [] := rfl

@[simp] theorem leavesFrom_length : (leavesFrom hashes first added).length = added.length := by
  induction added generalizing first with
  | nil => rfl
  | cons data rest ih => simp [leavesFrom, ih]

theorem leavesFrom_append (data : Data) :
    leavesFrom hashes first (added ++ [data]) =
      leavesFrom hashes first added ++ [Leaf.create hashes (first + added.length) data] := by
  induction added generalizing first with
  | nil => rfl
  | cons head rest ih => simp [leavesFrom, ih, add_assoc, add_comm 1]

theorem leavesFrom_getElem? (first i : Nat) :
    (leavesFrom hashes first added)[i]? = added[i]?.map (Leaf.create hashes (first + i)) := by
  induction added generalizing first i with
  | nil => rfl
  | cons data rest ih =>
    cases i with
    | zero => rfl
    | succ i => simp [leavesFrom, ih, add_assoc, add_comm 1]

theorem leavesFrom_takeWhile (first count : Nat) :
    (leavesFrom hashes first added).takeWhile (fun leaf => decide (leaf.index < first + count)) =
      leavesFrom hashes first (added.take count) := by
  induction added generalizing first count with
  | nil => simp
  | cons data rest ih =>
    cases count with
    | zero => simp [leavesFrom, Leaf.create]
    | succ count =>
      have next := ih (first + 1) count
      rw [add_assoc, add_comm 1] at next
      simp [leavesFrom, Leaf.create, next]

/-- The data of the leaves that a range holds: a file holds all their nodes, an
overlay the nodes from its first leaf on. -/
def IMMR.Represents (hashes : NodeHash Hash Data) : IMMR Hash Data → List Data → Prop
  | .file mmr, leaves =>
    mmr.hashFile = nodesOf hashes leaves ∧
      ∀ i data, leaves[i]? = some data → mmr.leafDB i = some (Leaf.create hashes i data)
  | .cache base top, leaves =>
    ∃ below added, base.Represents hashes below ∧ top.firstLeaf ≤ below.length ∧
      leaves = below.take top.firstLeaf ++ added ∧
      top.leaves = leavesFrom hashes top.firstLeaf added ∧
      top.nodes = (nodesOf hashes leaves).drop (leafPosition top.firstLeaf)

theorem PMMRCache.getNextLeafIdx_eq (held : top.leaves = leavesFrom hashes top.firstLeaf added) :
    top.getNextLeafIdx = top.firstLeaf + added.length := by
  rw [getNextLeafIdx, held]
  induction added using reverseRecOn with
  | nil => rfl
  | append_singleton rest data _ =>
    rw [leavesFrom_append, getLast?_concat, length_append]
    rfl

namespace IMMR.Represents

section

variable (held : mmr.Represents hashes leaves)
include held

theorem getHash_eq {position : Nat} (inside : position < leafPosition leaves.length) :
    mmr.getHash position = (nodesOf hashes leaves)[position]? := by
  induction mmr generalizing leaves with
  | file mmr => rw [getHash, PMMR.getHash, held.1]
  | cache base top ih =>
    obtain ⟨below, added, under, first, rfl, -, nodes⟩ := held
    rw [getHash, PMMRCache.getHash]
    split
    · rename_i low
      -- the first nodes are those of the leaves kept from below
      have shared := nodesOf_append_take hashes (below.take top.firstLeaf) added
      have same := nodesOf_take hashes below top.firstLeaf first
      rw [length_take_of_le first, same] at shared
      have deep := leafPosition_strictMono.monotone first
      rw [ih under (by omega), ← getElem?_take_of_lt low, ← shared,
        getElem?_take_of_lt low]
    · rw [nodes, getElem?_drop]
      congr 1
      omega

theorem getNextLeafIdx_eq : mmr.getNextLeafIdx = some leaves.length := by
  cases mmr with
  | file mmr =>
    rw [getNextLeafIdx, PMMR.getNumLeaves, held.1, nodesOf_length, getLeafIndex_leafPosition]
  | cache base top =>
    obtain ⟨below, added, -, first, rfl, held, -⟩ := held
    rw [getNextLeafIdx, PMMRCache.getNextLeafIdx_eq held, length_append, length_take_of_le first]

theorem getLeaf_eq {i : Nat} {data : Data}
    (found : leaves[i]? = some data) : mmr.getLeaf i = some (Leaf.create hashes i data) := by
  induction mmr generalizing leaves with
  | file mmr => exact held.2 i data found
  | cache base top ih =>
    obtain ⟨below, added, under, first, rfl, added_eq, -⟩ := held
    rw [getLeaf]
    split
    · rename_i low
      rw [getElem?_append_left (by rwa [length_take_of_le first]),
        getElem?_take_of_lt low] at found
      exact ih under found
    · rename_i high
      rw [getElem?_append_right (by rw [length_take_of_le first]; omega),
        length_take_of_le first] at found
      rw [added_eq, leavesFrom_getElem?, found, map_some]
      congr 2
      omega

end

theorem unique {others : List Data} (held : mmr.Represents hashes leaves)
    (held' : mmr.Represents hashes others) : leaves = others := by
  have length : leaves.length = others.length :=
    some.inj (held.getNextLeafIdx_eq.symm.trans held'.getNextLeafIdx_eq)
  refine ext_getElem length fun i first second => ?_
  have leaf := held.getLeaf_eq (getElem?_eq_getElem first)
  rw [held'.getLeaf_eq (getElem?_eq_getElem second), some.injEq] at leaf
  exact (congrArg Leaf.data leaf).symm

end IMMR.Represents

/-! ## What the operations do to the leaves -/

theorem PMMRCache.newCache_represents (held : base.Represents hashes leaves) :
    base.newCache = some ⟨leaves.length, [], []⟩ ∧
      (IMMR.cache base ⟨leaves.length, [], []⟩).Represents hashes leaves := by
  refine ⟨by simp [IMMR.newCache, held.getNextLeafIdx_eq], leaves, [], held, le_refl _, ?_,
    rfl, ?_⟩ <;>
    simp

section

variable (held : (IMMR.cache base top).Represents hashes leaves)
include held

theorem PMMRCache.add_represents (data : Data) :
    ∃ top', top.add hashes base.getHash data = some top' ∧
      (IMMR.cache base top').Represents hashes (leaves ++ [data]) := by
  have next := held.getNextLeafIdx_eq
  have reading := fun position => @IMMR.Represents.getHash_eq _ _ _ _ _ held position
  obtain ⟨below, added, under, first, leaves_eq, added_eq, nodes⟩ := held
  have low : top.firstLeaf ≤ leaves.length := by
    simp [leaves_eq, length_take_of_le first]
  have deep := leafPosition_strictMono.monotone low
  have reads : Reads (getHash base.getHash top.firstLeaf) top.nodes (nodesOf hashes leaves)
      leaves.length := by
    intro extra position inside
    rw [← reading _ inside, IMMR.getHash, getHash, getHash]
    split
    · rfl
    · rw [getElem?_append_left]
      rw [nodes, length_drop, nodesOf_length]
      omega
  have appended := addLeafNodes_eq (nodesOf_length leaves) reads hashes data
  simp only [IMMR.getNextLeafIdx, some.injEq] at next
  refine ⟨⟨top.firstLeaf, top.leaves ++ [Leaf.create hashes leaves.length data],
    top.nodes ++ leafNodes hashes (nodesOf hashes leaves) leaves.length data⟩, ?_, ?_⟩
  · simp [add, addLeaf, next, appended]
  · refine ⟨below, added ++ [data], under, first, by simp [leaves_eq], ?_, ?_⟩
    · simp [added_eq, leavesFrom_append, leaves_eq, length_take_of_le first]
    · rw [nodesOf_append, appendLeaf, drop_append_of_le_length (by simpa using deep), nodes]

theorem PMMRCache.rewind_represents {numLeaves : Nat} (inside : numLeaves ≤ leaves.length) :
    (IMMR.cache base (top.rewind numLeaves)).Represents hashes (leaves.take numLeaves) := by
  obtain ⟨below, added, under, first, leaves_eq, added_eq, nodes⟩ := held
  have size : leaves.length = top.firstLeaf + added.length := by
    simp [leaves_eq, length_take_of_le first]
  rw [rewind]
  split
  · -- back to before the overlay
    rename_i low
    refine ⟨below, [], under, low.trans first, ?_, rfl, ?_⟩
    · rw [leaves_eq, take_append_of_le_length (by rwa [length_take_of_le first]),
        take_take, min_eq_left low, append_nil]
    · simp [length_take_of_le inside]
  · rename_i high
    have some_added : added ≠ [] := by
      rintro rfl
      rw [length_nil] at size
      omega
    have nonempty : top.leaves ≠ [] := by
      intro empty
      rw [added_eq] at empty
      exact some_added (length_eq_zero_iff.mp (by simpa using congrArg length empty))
    rw [if_neg nonempty]
    obtain ⟨count, rfl⟩ := Nat.exists_eq_add_of_le (Nat.le_of_not_le high)
    have kept : leaves.take (top.firstLeaf + count) =
        below.take top.firstLeaf ++ added.take count := by
      rw [leaves_eq, take_append, length_take_of_le first, take_take,
        Nat.min_eq_right (Nat.le_add_right _ _), Nat.add_sub_cancel_left]
    refine ⟨below, added.take count, under, first, kept, ?_, ?_⟩
    · rw [added_eq, leavesFrom_takeWhile]
    · have next : ({ top with leaves := leavesFrom hashes top.firstLeaf (added.take count) } :
          PMMRCache Hash Data).getNextLeafIdx = top.firstLeaf + count := by
        rw [getNextLeafIdx_eq rfl, length_take, min_eq_left (by omega)]
      dsimp only
      rw [added_eq, leavesFrom_takeWhile, next, nodes, nodesOf_take hashes _ _ inside, drop_take]

theorem PMMRCache.foldlM_add_represents (first : Nat) (added : List Data) :
    ∃ top', (leavesFrom hashes first added).foldlM
        (fun top leaf => top.add hashes base.getHash leaf.data) top = some top' ∧
      (IMMR.cache base top').Represents hashes (leaves ++ added) := by
  induction added generalizing top leaves first with
  | nil => exact ⟨top, rfl, by simpa using held⟩
  | cons data rest ih =>
    obtain ⟨next, written, holds⟩ := add_represents held data
    obtain ⟨last, writtenRest, holdsRest⟩ := ih holds (first + 1)
    refine ⟨last, ?_, by simpa using holdsRest⟩
    simpa [leavesFrom, Leaf.create, written] using writtenRest

end

section

variable {mmr : PMMR Hash Data} (held : (IMMR.file mmr).Represents hashes leaves)
include held

theorem PMMR.addLeaf_represents (data : Data) :
    ∃ mmr', mmr.addLeaf hashes (Leaf.create hashes leaves.length data) = some mmr' ∧
      (IMMR.file mmr').Represents hashes (leaves ++ [data]) := by
  obtain ⟨nodes, stored⟩ := held
  have reads : Reads getHash mmr.hashFile (nodesOf hashes leaves) leaves.length := by
    intro extra position inside
    rw [getHash, nodes, getElem?_append_left (by simpa using inside)]
  have appended := addLeafNodes_eq (nodesOf_length leaves) reads hashes data
  refine ⟨_, by rw [addLeaf, appended]; rfl, ?_, ?_⟩
  · rw [nodes, nodesOf_append, appendLeaf]
  · intro i found at_i
    by_cases last : i = leaves.length
    · subst last
      simp only [getElem?_concat_length, some.injEq] at at_i
      subst at_i
      exact if_pos rfl
    · have before : i < leaves.length := by
        have := (List.getElem?_eq_some_iff.mp at_i).1
        rw [length_append, length_singleton] at this
        omega
      rw [getElem?_append_left before] at at_i
      exact (if_neg last).trans (stored i found at_i)

theorem PMMR.foldlM_addLeaf_represents (added : List Data) :
    ∃ mmr', (leavesFrom hashes leaves.length added).foldlM (addLeaf hashes) mmr = some mmr' ∧
      (IMMR.file mmr').Represents hashes (leaves ++ added) := by
  induction added generalizing mmr leaves with
  | nil => exact ⟨mmr, rfl, by simpa using held⟩
  | cons data rest ih =>
    obtain ⟨next, written, holds⟩ := addLeaf_represents held data
    obtain ⟨last, writtenRest, holdsRest⟩ := ih holds
    refine ⟨last, ?_, by simpa using holdsRest⟩
    simpa [leavesFrom, written] using writtenRest

theorem PMMR.rewind_represents {numLeaves : Nat} (inside : numLeaves ≤ leaves.length) :
    ∃ mmr', mmr.rewind numLeaves = some mmr' ∧
      (IMMR.file mmr').Represents hashes (leaves.take numLeaves) := by
  obtain ⟨nodes, stored⟩ := held
  have deep := leafPosition_strictMono.monotone inside
  refine ⟨_, by rw [rewind, if_pos (by rwa [nodes, nodesOf_length])], ?_, ?_⟩
  · rw [nodes, nodesOf_take hashes _ _ inside]
  · intro i data found
    have low : i < numLeaves := by
      have := (List.getElem?_eq_some_iff.mp found).1
      rw [length_take] at this
      omega
    rw [getElem?_take_of_lt low] at found
    exact stored i data found

end

/-- A batch can be written to a file behind its last leaf, or where it repeats leaves of
the file; an overlay takes any batch. -/
def IMMR.Takes : IMMR Hash Data → (first : Nat) → (before after : List Data) → Prop
  | .file _, first, before, after => first = before.length ∨ after <+: before
  | .cache _ _, _, _, _ => True

/-- The hashes that a commit leaves in the file: it appends the new ones to the old file and
then cuts to the new length. -/
def committedNodes (hashes : NodeHash Hash Data) (first : Nat) (before after : List Data) :
    List Hash :=
  (nodesOf hashes before ++ (nodesOf hashes after).drop (leafPosition first)).take
    (leafPosition after.length)

variable {first : Nat}

/-- They are the new nodes where the new leaves come after the old ones or repeat them. -/
theorem committedNodes_eq (hashes : NodeHash Hash Data) {before after : List Data}
    (shared : after.take first = before.take first) (short : first ≤ after.length)
    (takes : first = before.length ∨ after <+: before) :
    committedNodes hashes first before after = nodesOf hashes after := by
  rw [committedNodes]
  rcases takes with rfl | repeated
  · rw [take_length] at shared
    have begins := nodesOf_take hashes after before.length short
    rw [shared] at begins
    rw [begins, take_append_drop, take_of_length_le (nodesOf_length after).le]
  · have fewer := repeated.length_le
    have deep := leafPosition_strictMono.monotone fewer
    rw [take_append_of_le_length (by simpa using deep), ← nodesOf_take hashes _ _ fewer,
      ← prefix_iff_eq_take.mp repeated]

/-- Writing a batch to a file stores its leaves; the hashes are those of the commit. -/
theorem PMMR.batchWrite_eq {mmr : PMMR Hash Data} {before : List Data}
    (held : (IMMR.file mmr).Represents hashes before) (inside : first ≤ before.length)
    (added : List Data) :
    ∃ leafDB, mmr.batchWrite hashes first (leavesFrom hashes first added) =
        some ⟨committedNodes hashes first before (before.take first ++ added), leafDB⟩ ∧
      ∀ i data, (before.take first ++ added)[i]? = some data →
        leafDB i = some (Leaf.create hashes i data) := by
  obtain ⟨rewound, done, holds⟩ := rewind_represents held inside
  obtain ⟨last, written, new, stored⟩ := foldlM_addLeaf_represents holds added
  rw [length_take_of_le inside] at written
  have kept : rewound.hashFile.length = leafPosition first := by
    rw [holds.1, nodesOf_length, length_take_of_le inside]
  have longer : leafPosition first ≤ leafPosition (before.take first ++ added).length := by
    refine leafPosition_strictMono.monotone ?_
    rw [length_append, length_take_of_le inside]
    exact le_add_right _ _
  have committed : (mmr.appendOnlyFile rewound last).committedBytes mmr.hashFile =
      committedNodes hashes first before (before.take first ++ added) := by
    have cut : leafPosition first + (last.hashFile.drop (leafPosition first)).length =
        leafPosition (before.take first ++ added).length := by
      rw [new, length_drop, nodesOf_length, Nat.add_sub_cancel' longer]
    rw [AppendOnlyFile.committedBytes, appendOnlyFile, committedNodes, kept, cut, new, held.1]
  refine ⟨last.leafDB, ?_, stored⟩
  simp [batchWrite, done, written, committed]

/-- Writing a batch keeps the leaves before the first one written and puts the
batch after them. -/
theorem IMMR.Represents.batchWrite (held : mmr.Represents hashes leaves)
    (inside : first ≤ leaves.length) (takes : mmr.Takes first leaves (leaves.take first ++ added)) :
    ∃ mmr', mmr.batchWrite hashes first (leavesFrom hashes first added) = some mmr' ∧
      mmr'.Represents hashes (leaves.take first ++ added) := by
  cases mmr with
  | file mmr =>
    obtain ⟨leafDB, written, stored⟩ := PMMR.batchWrite_eq held inside added
    have shared : (leaves.take first ++ added).take first = leaves.take first := by
      rw [take_append_of_le_length (by rw [length_take_of_le inside]), take_take,
        min_self]
    have new := committedNodes_eq hashes shared
      (by simp [length_take_of_le inside]) takes
    refine ⟨.file ⟨committedNodes hashes first leaves (leaves.take first ++ added), leafDB⟩, ?_,
      new, stored⟩
    rw [IMMR.batchWrite, written, map_some]
  | cache base top =>
    have holds := PMMRCache.rewind_represents held inside
    obtain ⟨last, written, holdsLast⟩ := PMMRCache.foldlM_add_represents holds first added
    exact ⟨.cache base last, by simp [IMMR.batchWrite, PMMRCache.batchWrite, written], holdsLast⟩

theorem PMMRCache.flush_represents {below : List Data} (under : base.Represents hashes below)
    (held : (IMMR.cache base top).Represents hashes leaves)
    (takes : base.Takes top.firstLeaf below leaves) :
    ∃ base', base.batchWrite hashes top.firstLeaf top.leaves = some base' ∧
      base'.Represents hashes leaves := by
  obtain ⟨below', added, under', first, rfl, added_eq, -⟩ := held
  obtain rfl := under.unique under'
  rw [added_eq]
  exact under.batchWrite first takes

/-! ## Roots -/

def rootOf [DecidableEq Hash] (hashes : NodeHash Hash Data) (zero : Hash) (leaves : List Data) :
    Hash :=
  bagPeaks hashes zero (leafPosition leaves.length)
    ((peakPositions 0 (peaksOf leaves.length)).reverse.map
      fun position => (nodesOf hashes leaves).getD position zero) zero

variable {getHash : Nat → Option Hash}

theorem mapM_eq_map {f : Nat → Hash} {positions : List Nat}
    (reads : ∀ position ∈ positions, getHash position = some (f position)) :
    positions.mapM getHash = some (positions.map f) := by
  induction positions with
  | nil => rfl
  | cons position rest ih =>
    rw [mapM_cons, reads _ mem_cons_self, ih (forall_mem_cons.mp reads).2]
    rfl

variable {zero : Hash}

theorem root_eq [DecidableEq Hash] (reads : ∀ position, position < leafPosition leaves.length →
      getHash position = (nodesOf hashes leaves)[position]?) :
    root hashes zero (leafPosition leaves.length) getHash = some (rootOf hashes zero leaves) := by
  have peaks : (peakPositions 0 (peaksOf leaves.length)).reverse.mapM getHash =
      some ((peakPositions 0 (peaksOf leaves.length)).reverse.map
        fun position => (nodesOf hashes leaves).getD position zero) := by
    refine mapM_eq_map fun position member => ?_
    have inside := peakPositions_inside (mem_reverse.mp member)
    rw [reads position inside, getElem?_eq_getElem (by simpa using inside),
      getD_eq_getElem?_getD, getElem?_eq_getElem (by simpa using inside),
      getD_some]
  rw [root, calcPeakIndices_leafPosition]
  simp [peaks, rootOf]

theorem IMMR.Represents.root_eq [DecidableEq Hash] (held : mmr.Represents hashes leaves) :
    mmr.root hashes zero = some (rootOf hashes zero leaves) := by
  rw [IMMR.root, held.getNextLeafIdx_eq]
  exact Mmr.root_eq fun _ => held.getHash_eq

/-- Adding data to an empty range in memory gives their nodes and leaves. -/
theorem MemMMR.foldlM_add (leaves : List Data) :
    leaves.foldlM (MemMMR.add hashes) MemMMR.empty =
      some ⟨nodesOf hashes leaves, leavesFrom hashes 0 leaves⟩ := by
  induction leaves using reverseRecOn with
  | nil => rfl
  | append_singleton leaves data ih =>
    have reads : Reads getHash (nodesOf hashes leaves) (nodesOf hashes leaves) leaves.length := by
      intro extra position inside
      rw [getHash, getElem?_append_left (by simpa using inside)]
    have appended := addLeafNodes_eq (nodesOf_length leaves) reads hashes data
    rw [foldlM_append, ih]
    simp [MemMMR.add, MemMMR.getNumLeaves, appended, nodesOf_append, appendLeaf, leavesFrom_append]

theorem MemMMR.root_foldlM_add [DecidableEq Hash] (leaves : List Data) :
    ∃ mmr, leaves.foldlM (MemMMR.add hashes) MemMMR.empty = some mmr ∧
      mmr.root hashes zero = some (rootOf hashes zero leaves) := by
  have size : (⟨nodesOf hashes leaves, leavesFrom hashes 0 leaves⟩ :
      MemMMR Hash Data).getNumLeaves = leaves.length := leavesFrom_length 0
  refine ⟨_, MemMMR.foldlM_add leaves, ?_⟩
  rw [MemMMR.root, size]
  exact Mmr.root_eq fun position _ => rfl

end Represents

end MooncoinFormal.Mweb.Mmr
