import Mathlib
import MooncoinFormal.Mempool.Accept

/-!
# The figures kept for packages

`txmempool.cpp`: every entry of the pool carries the number, size, fees and MWEB
weight of its descendants and of its ancestors, itself included, and for ancestors
the cost of their signature operations. The figures are changed by differences when
a transaction joins or leaves, when its fee is adjusted, and when transactions of a
disconnected block come back under entries that already spend their outputs.

The figures stand beside the pool of entries and links, by hash. They are words of
64 bits, as in the source, and sums wrap. An entry brings its own fee, size, cost and
weight; the cost is within the limit of `PreChecks`.
-/

namespace MooncoinFormal.Mempool

open Primitives

variable {T : CryptoTypes}

abbrev Word := BitVec 64

inductive DescendantFigure where
  | size
  | fee
  | count
  | mwebWeight
  deriving DecidableEq, Repr

inductive AncestorFigure where
  | size
  | fee
  | count
  | sigOps
  | mwebWeight
  deriving DecidableEq, Repr

def descendantFee (amount : Word) : DescendantFigure → Word
  | .fee => amount
  | _ => 0

def ancestorFee (amount : Word) : AncestorFigure → Word
  | .fee => amount
  | _ => 0

def maxStandardTxSigopsCost : Nat := CBlock.maxBlockSigopsCost / 5

structure EntryStats where
  nFee : Word
  txSize : Word
  sigOpCost : Word
  mwebWeight : Word
  feeDelta : Word
  withDescendants : DescendantFigure → Word
  withAncestors : AncestorFigure → Word
  sigOpCost_le : sigOpCost.toNat ≤ maxStandardTxSigopsCost

namespace EntryStats

variable (entry : EntryStats)

def getModifiedFee : Word := entry.nFee + entry.feeDelta

def descendantFigures : DescendantFigure → Word
  | .size => entry.txSize
  | .fee => entry.getModifiedFee
  | .count => 1
  | .mwebWeight => entry.mwebWeight

def ancestorFigures : AncestorFigure → Word
  | .size => entry.txSize
  | .fee => entry.getModifiedFee
  | .count => 1
  | .sigOps => entry.sigOpCost
  | .mwebWeight => entry.mwebWeight

/-- What the descendants of a removed entry lose: the cost goes through an `int`. -/
def lostFigures : AncestorFigure → Word
  | .sigOps => ((-entry.sigOpCost).setWidth 32).signExtend 64
  | figure => -entry.ancestorFigures figure

theorem lostFigures_eq : entry.lostFigures = -entry.ancestorFigures := by
  funext figure
  cases figure with
  | sigOps =>
    have small := entry.sigOpCost_le
    have limit : maxStandardTxSigopsCost = 16000 := rfl
    apply BitVec.eq_of_toInt_eq
    rw [lostFigures, Pi.neg_apply, ancestorFigures, BitVec.toInt_signExtend_of_le (by decide),
      BitVec.toInt_setWidth, BitVec.toInt_eq_toNat_bmod, BitVec.toNat_neg, Int.bmod, Int.bmod]
    omega
  | _ => rfl

def updateDescendantState (modify : DescendantFigure → Word) : EntryStats :=
  { entry with withDescendants := entry.withDescendants + modify }

def updateAncestorState (modify : AncestorFigure → Word) : EntryStats :=
  { entry with withAncestors := entry.withAncestors + modify }

def updateFeeDelta (newFeeDelta : Word) : EntryStats :=
  { entry with
    withDescendants := entry.withDescendants + descendantFee (newFeeDelta - entry.feeDelta)
    withAncestors := entry.withAncestors + ancestorFee (newFeeDelta - entry.feeDelta)
    feeDelta := newFeeDelta }

end EntryStats

structure NewEntry (T : CryptoTypes) where
  tx : CTransaction T
  nFee : Word
  txSize : Word
  sigOpCost : Word
  mwebWeight : Word
  sigOpCost_le : sigOpCost.toNat ≤ maxStandardTxSigopsCost

/-- The constructor of `CTxMemPoolEntry`: an entry starts with itself alone. -/
def NewEntry.stats (entry : NewEntry T) : EntryStats where
  nFee := entry.nFee
  txSize := entry.txSize
  sigOpCost := entry.sigOpCost
  mwebWeight := entry.mwebWeight
  feeDelta := 0
  withDescendants
    | .size => entry.txSize
    | .fee => entry.nFee
    | .count => 1
    | .mwebWeight => entry.mwebWeight
  withAncestors
    | .size => entry.txSize
    | .fee => entry.nFee
    | .count => 1
    | .sigOps => entry.sigOpCost
    | .mwebWeight => entry.mwebWeight
  sigOpCost_le := entry.sigOpCost_le

structure Limits where
  ancestorCount : Nat
  ancestorSize : Nat
  descendantCount : Nat
  descendantSize : Nat

/-- Change the figures of some entries. -/
def modifyEach (hashes : List T.Hash) (change : EntryStats → EntryStats)
    (stats : T.Hash → EntryStats) : T.Hash → EntryStats :=
  fun hash => if hash ∈ hashes then change (stats hash) else stats hash

namespace CTxMemPool

variable (crypto : BlockCrypto T) (pool : CTxMemPool T) (hash : T.Hash)

def getMemPoolParents : List T.Hash :=
  match pool.find crypto hash with
  | none => []
  | some entry => entry.parents

/-- `CalculateMemPoolAncestors` for an entry of the pool, without limits. -/
def calculateMemPoolAncestors : List T.Hash :=
  Library.Worklist.close (pool.getMemPoolParents crypto) pool.mapTx.length
    (pool.getMemPoolParents crypto hash) []

def withLinks (parent : T.Hash) (children : List T.Hash) (entry : CTxMemPoolEntry T) :
    CTxMemPoolEntry T :=
  { entry with
    children :=
      if entry.tx.getHash crypto = parent then children.foldl (fun set child => set.insert child)
        entry.children
      else entry.children
    parents :=
      if entry.tx.getHash crypto ∈ children then entry.parents.insert parent else entry.parents }

def linkChildren (parent : T.Hash) (children : List T.Hash) : CTxMemPool T :=
  { pool with mapTx := pool.mapTx.map (withLinks crypto parent children) }

/-- The transactions of the pool that spend an output of the transaction, but for those
that are listed. -/
def spendersExcept (alreadyIncluded : List T.Hash) (tx : CTransaction T) : List T.Hash :=
  ((((tx.getOutputs crypto).filterMap fun output => pool.mapNextTx.lookup output).map
    (CTransaction.getHash crypto)).dedup).filter fun child => child ∉ alreadyIncluded

end CTxMemPool

structure TrackedPool (T : CryptoTypes) where
  pool : CTxMemPool T
  stats : T.Hash → EntryStats
  mapDeltas : T.Hash → Word

namespace TrackedPool

def empty : TrackedPool T where
  pool := .empty
  stats := fun _ => ⟨0, 0, 0, 0, 0, 0, 0, Nat.zero_le _⟩
  mapDeltas := fun _ => 0

variable (crypto : BlockCrypto T) (tracked : TrackedPool T) (limits : Limits) (entry : NewEntry T)

/-- The checks of `CalculateMemPoolAncestors` when an ancestor is visited; `found` are
the ancestors so far, with the visited one. -/
def checkLimits (ancestor : T.Hash) (staged found : List T.Hash) : Except String Unit := do
  let totalSizeWithAncestors :=
    entry.txSize.toNat + (found.map fun hash => (tracked.stats hash).txSize.toNat).sum
  Library.Checks.ensure (((tracked.stats ancestor).withDescendants .size).toNat +
    entry.txSize.toNat ≤ limits.descendantSize) "exceeds descendant size limit for tx"
  Library.Checks.ensure (((tracked.stats ancestor).withDescendants .count).toNat + 1 ≤
    limits.descendantCount) "too many descendants for tx"
  Library.Checks.ensure (totalSizeWithAncestors ≤ limits.ancestorSize)
    "exceeds ancestor size limit"
  Library.Checks.ensure (staged.length + found.length + 1 ≤ limits.ancestorCount)
    "too many unconfirmed ancestors"

/-- `CalculateMemPoolAncestors` for a new entry: its parents are searched for. -/
def searchAncestors : Except String (List T.Hash) := do
  let parents := tracked.pool.parentsInPool crypto entry.tx
  Library.Checks.ensure (parents.length + 1 ≤ limits.ancestorCount ∨ parents = [])
    "too many unconfirmed parents"
  Library.Worklist.closeChecked (tracked.pool.getMemPoolParents crypto)
    (tracked.checkLimits limits entry) tracked.pool.mapTx.length parents []

/-- The entry in `mapTx`, with the change of its fee that is known already. -/
def insertedStats : T.Hash → EntryStats := fun hash =>
  if hash = entry.tx.getHash crypto then entry.stats.updateFeeDelta (tracked.mapDeltas hash)
  else tracked.stats hash

/-- `addUnchecked`, with the ancestors of the entry. -/
def addUnchecked (setAncestors : List T.Hash) : TrackedPool T :=
  let hash := entry.tx.getHash crypto
  let inserted := tracked.insertedStats crypto entry
  -- `UpdateAncestorsOf`
  let counted := modifyEach setAncestors
    (fun stats => stats.updateDescendantState (inserted hash).descendantFigures) inserted
  -- `UpdateEntryForAncestors`
  let complete := modifyEach [hash]
    (fun stats => stats.updateAncestorState
      (setAncestors.map fun ancestor => (counted ancestor).ancestorFigures).sum) counted
  { tracked with pool := tracked.pool.addUnchecked crypto entry.tx, stats := complete }

/-- An admission: nothing happens when a limit is exceeded. -/
def add : TrackedPool T :=
  match tracked.searchAncestors crypto limits entry with
  | .error _ => tracked
  | .ok setAncestors => tracked.addUnchecked crypto entry setAncestors

variable (stats : T.Hash → EntryStats)

/-- The first loop of `UpdateForRemoveFromMempool`: the descendants of an entry that goes
lose it as an ancestor. -/
def forgetAncestor (removed : T.Hash) : T.Hash → EntryStats :=
  modifyEach ((tracked.pool.calculateDescendants crypto [] removed).erase removed)
    (fun entry => entry.updateAncestorState (stats removed).lostFigures) stats

/-- The second loop: the ancestors lose it as a descendant. The links to parents stay
until the end, so the ancestors are those of the pool before. -/
def forgetDescendant (removed : T.Hash) : T.Hash → EntryStats :=
  modifyEach (tracked.pool.calculateMemPoolAncestors crypto removed)
    (fun entry => entry.updateDescendantState (-(stats removed).descendantFigures)) stats

def removeStaged (stage : List T.Hash) (updateDescendants : Bool) : TrackedPool T :=
  let forgotten :=
    if updateDescendants then stage.foldl (tracked.forgetAncestor crypto) tracked.stats
    else tracked.stats
  { tracked with
    pool := tracked.pool.removeStaged crypto stage
    stats := stage.foldl (tracked.forgetDescendant crypto) forgotten }

/-- The entries of the pool among the roots, with their descendants. -/
def withDescendants (roots : List T.Hash) : List T.Hash :=
  (roots.filter fun root => (tracked.pool.find crypto root).isSome).foldl
    (tracked.pool.calculateDescendants crypto) []

/-- The removals for a conflict, for age, for space and in a reorganisation: some
entries go with all their descendants. -/
def removeRecursive (roots : List T.Hash) : TrackedPool T :=
  tracked.removeStaged crypto (tracked.withDescendants crypto roots) false

variable (hash : T.Hash)

def clearPrioritisation : TrackedPool T :=
  { tracked with mapDeltas := fun other => if other = hash then 0 else tracked.mapDeltas other }

/-- One conflict of `removeConflicts`: what was known about its fee is dropped too. -/
def removeConflict : TrackedPool T :=
  (tracked.removeRecursive crypto [hash]).clearPrioritisation hash

/-- The removal of a transaction that is in a block, in `removeForBlock`. -/
def removeForBlock : TrackedPool T :=
  (match tracked.pool.find crypto hash with
    | none => tracked
    | some _ => tracked.removeStaged crypto [hash] true).clearPrioritisation hash

/-- The figures when the fee of an entry of the pool has been changed by `nFeeDelta`, to a
difference of `delta` in all. -/
def prioritisedStats (delta nFeeDelta : Word) : T.Hash → EntryStats :=
  let changed := modifyEach [hash] (fun entry => entry.updateFeeDelta delta) tracked.stats
  let above := modifyEach (tracked.pool.calculateMemPoolAncestors crypto hash)
    (fun entry => entry.updateDescendantState (descendantFee nFeeDelta)) changed
  modifyEach ((tracked.pool.calculateDescendants crypto [] hash).erase hash)
    (fun entry => entry.updateAncestorState (ancestorFee nFeeDelta)) above

def prioritiseTransaction (nFeeDelta : Word) : TrackedPool T :=
  let delta := tracked.mapDeltas hash + nFeeDelta
  let mapDeltas := fun other => if other = hash then delta else tracked.mapDeltas other
  match tracked.pool.find crypto hash with
  | none => { tracked with mapDeltas := mapDeltas }
  | some _ =>
    { tracked with
      stats := tracked.prioritisedStats crypto hash delta nFeeDelta
      mapDeltas := mapDeltas }

/-! ## Reorganisations -/

/-- `UpdateForDescendants`, with the cache of descendants outside the list; an entry
without such descendants is not in the cache. -/
def updateForDescendants (updateHash : T.Hash) (cachedDescendants : T.Hash → List T.Hash)
    (setExclude : List T.Hash) : TrackedPool T × (T.Hash → List T.Hash) :=
  let descendants := Library.Worklist.closeKnown (tracked.pool.getMemPoolChildren crypto)
    cachedDescendants tracked.pool.mapTx.length
    (tracked.pool.getMemPoolChildren crypto updateHash) []
  let outside := descendants.filter fun descendant => descendant ∉ setExclude
  let below := modifyEach outside
    (fun entry => entry.updateAncestorState (tracked.stats updateHash).ancestorFigures)
    tracked.stats
  let complete := modifyEach [updateHash]
    (fun entry => entry.updateDescendantState
      (outside.map fun descendant => (tracked.stats descendant).descendantFigures).sum) below
  ({ tracked with stats := complete },
    fun hash => if hash = updateHash then
        outside.foldl (fun set descendant => set.insert descendant) (cachedDescendants hash)
      else cachedDescendants hash)

variable (hashesToUpdate : List T.Hash)

/-- One round of `UpdateTransactionsFromBlock`. -/
def updateFromBlock (state : TrackedPool T × (T.Hash → List T.Hash)) (hash : T.Hash) :
    TrackedPool T × (T.Hash → List T.Hash) :=
  match state.1.pool.find crypto hash with
  | none => state
  | some entry =>
    let children := state.1.pool.spendersExcept crypto hashesToUpdate entry.tx
    updateForDescendants crypto
      { state.1 with pool := state.1.pool.linkChildren crypto hash children } hash state.2
      hashesToUpdate

/-- `UpdateTransactionsFromBlock`, from the last hash to the first. -/
def updateTransactionsFromBlock : TrackedPool T :=
  (hashesToUpdate.reverse.foldl (updateFromBlock crypto hashesToUpdate) (tracked, fun _ => [])).1

/-- What `UpdateMempoolForReorg` does before: transactions come back, and entries that
they replace or that cannot stay are removed. -/
inductive ReorgStep (T : CryptoTypes) where
  | accept (limits : Limits) (entry : NewEntry T)
  | remove (roots : List T.Hash)

/-- The pool in a reorganisation, with the transactions that came back. -/
def reorgStep (state : TrackedPool T × List T.Hash) : ReorgStep T → TrackedPool T × List T.Hash
  | .accept limits entry =>
    match state.1.searchAncestors crypto limits entry with
    | .error _ => state
    | .ok setAncestors =>
      (state.1.addUnchecked crypto entry setAncestors, state.2 ++ [entry.tx.getHash crypto])
  | .remove roots => (state.1.removeRecursive crypto roots, state.2)

/-- `UpdateMempoolForReorg`, up to `UpdateTransactionsFromBlock`. -/
def updateMempoolForReorg (steps : List (ReorgStep T)) : TrackedPool T :=
  let state := steps.foldl (reorgStep crypto) (tracked, [])
  state.1.updateTransactionsFromBlock crypto state.2

/-! ## Runs -/

inductive Event (T : CryptoTypes) where
  | add (limits : Limits) (entry : NewEntry T)
  | removeRecursive (roots : List T.Hash)
  | removeConflict (hash : T.Hash)
  | removeForBlock (hash : T.Hash)
  | prioritise (hash : T.Hash) (nFeeDelta : Word)
  | reorg (steps : List (ReorgStep T))

def step : Event T → TrackedPool T
  | .add limits entry => tracked.add crypto limits entry
  | .removeRecursive roots => tracked.removeRecursive crypto roots
  | .removeConflict hash => tracked.removeConflict crypto hash
  | .removeForBlock hash => tracked.removeForBlock crypto hash
  | .prioritise hash nFeeDelta => tracked.prioritiseTransaction crypto hash nFeeDelta
  | .reorg steps => tracked.updateMempoolForReorg crypto steps

def run (events : List (Event T)) : TrackedPool T := events.foldl (step crypto) tracked

end TrackedPool

end MooncoinFormal.Mempool
