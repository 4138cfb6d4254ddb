import MooncoinFormal.Validation.BestChain
import MooncoinFormal.Validation.SkipList

/-!
# The block index

The block index as `CChainState` and `BlockManager` keep it: the status bits,
transaction counts and sequence numbers of every entry, `setBlockIndexCandidates`,
`m_blocks_unlinked` and `m_failed_blocks`, with the functions that change them
and `CheckBlockIndex`, which asserts that they agree. An entry is its chain of
identifiers, tip first, as in the search for the best chain; a field of
`CBlockIndex` is a function on entries.

Nothing is pruned. `GetBlockProof` and the addresses of the entries are
parameters, and so is what `ConnectBlock`, `CheckBlock` and the header checks
say about a block. `pindexBestHeader`, `pindexBestInvalid`, file positions and
`BLOCK_OPT_WITNESS` are read by none of the functions below.
-/

namespace MooncoinFormal.Validation

open Library Function

/-- The levels of `nStatus & BLOCK_VALID_MASK`. -/
inductive BlockValidity where
  | unknown
  | reserved
  | tree
  | transactions
  | chain
  | scripts
  deriving DecidableEq, Repr

namespace BlockValidity

def rank : BlockValidity → Nat
  | .unknown => 0
  | .reserved => 1
  | .tree => 2
  | .transactions => 3
  | .chain => 4
  | .scripts => 5

/-- `CBlockIndex::RaiseValidity`, for an entry that carries a failure flag or not. -/
def raise (flagged : Bool) (upTo level : BlockValidity) : BlockValidity :=
  if flagged then level else if level.rank < upTo.rank then upTo else level

theorem rank_raise (upTo level : BlockValidity) :
    (raise false upTo level).rank = max level.rank upTo.rank := by
  rw [raise, if_neg Bool.false_ne_true]
  split <;> omega

end BlockValidity

variable (ι : Type)

/-- What is fixed for the whole life of the index. -/
structure IndexParams where
  hashGenesisBlock : ι
  blockProof : IndexEntry ι → Nat
  address : IndexEntry ι → Nat
  minimumChainWork : Nat
  blockProof_pos : ∀ entry, 0 < blockProof entry
  address_injective : Function.Injective address

/-- `nChainWork`, as `AddToBlockIndex` sums it up; the source keeps 256 bits of it. -/
def IndexParams.nChainWork {ι : Type} (params : IndexParams ι) : IndexEntry ι → Nat
  | [] => 0
  | id :: parent => params.nChainWork parent + params.blockProof (id :: parent)

/-- The fields of the index that the functions below read or change. -/
structure NodeIndex where
  chain : ChainState ι
  blockIndex : List (IndexEntry ι)
  validity : IndexEntry ι → BlockValidity
  haveUndo : IndexEntry ι → Bool
  nTx : IndexEntry ι → Nat
  nChainTx : IndexEntry ι → Nat
  nSequenceId : IndexEntry ι → Int
  blocksUnlinked : List (IndexEntry ι × IndexEntry ι)
  failedBlocks : List (IndexEntry ι)
  nBlockSequenceId : Int

/-- A header offered to the node, with the verdicts of the checks it is given. -/
structure HeaderOffer where
  hash : ι
  prev : IndexEntry ι
  checkBlockHeader : Bool
  contextualCheckBlockHeader : Bool

def HeaderOffer.entry {ι : Type} (offer : HeaderOffer ι) : IndexEntry ι :=
  offer.hash :: offer.prev

/-- A block offered to the node; `checked` is what `CheckBlock` and
`ContextualCheckBlock` set, and a block that passes them has a coinbase. -/
structure BlockOffer extends HeaderOffer ι where
  fRequested : Bool
  checked : Option BlockValidationResult
  numTxs : Nat
  nonempty : checked = none → 0 < numTxs

/-- `MIN_BLOCKS_TO_KEEP`. -/
def minBlocksToKeep : Nat := 288

variable {ι : Type} [DecidableEq ι]

namespace NodeIndex

variable (node : NodeIndex ι) (entry : IndexEntry ι)

/-- `nStatus & BLOCK_FAILED_MASK`. -/
def flagged : Bool :=
  node.chain.failedValid entry || node.chain.failedChild entry

def haveTxsDownloaded : Bool :=
  decide (node.nChainTx entry ≠ 0)

def isValid (upTo : BlockValidity) (entry : IndexEntry ι) : Bool :=
  !node.flagged entry && decide (upTo.rank ≤ (node.validity entry).rank)

variable (params : IndexParams ι)

/-- The index as the search for the best chain reads it. -/
def tree (node : NodeIndex ι) : BlockTree ι where
  nChainWork := params.nChainWork
  nSequenceId := node.nSequenceId
  address := params.address
  haveTxsDownloaded := node.haveTxsDownloaded
  work_lt := fun id parent => Nat.lt_add_of_pos_right (params.blockProof_pos (id :: parent))
  address_injective := params.address_injective

/-- `CBlockIndexWorkComparator` on two entries of the index. -/
def worse (node : NodeIndex ι) (pa pb : IndexEntry ι) : Bool :=
  (node.tree params).workComparator pa pb

/-- `setBlockIndexCandidates.insert` for a batch of entries. -/
def insertCandidates (entries : List (IndexEntry ι)) : NodeIndex ι :=
  { node with chain := { node.chain with candidates := entries ∪ node.chain.candidates } }

def addToBlockIndex : NodeIndex ι :=
  if entry ∈ node.blockIndex then node
  else
    { node with
      blockIndex := node.blockIndex ++ [entry]
      nSequenceId := update node.nSequenceId entry 0
      validity := update node.validity entry
        (.raise (node.flagged entry) .tree (node.validity entry)) }

/-- The walk from `pindexPrev` down to a failed ancestor. -/
def markFailedChild (failed prev : IndexEntry ι) : NodeIndex ι :=
  { node with chain := { node.chain with
      failedChild := fun entry => node.chain.failedChild entry ||
        (entry.isSuffixOf prev && failed.isSuffixOf entry && decide (entry ≠ failed)) } }

/-- `BlockManager::AcceptBlockHeader`; no result when its assertion fails. -/
def acceptBlockHeader (node : NodeIndex ι) (offer : HeaderOffer ι) : Option (NodeIndex ι × Bool) :=
  if offer.entry = [params.hashGenesisBlock] then some (node.addToBlockIndex offer.entry, true)
  else if offer.entry ∈ node.blockIndex then some (node, !node.flagged offer.entry)
  else if !offer.checkBlockHeader then some (node, false)
  else if offer.prev ∉ node.blockIndex then some (node, false)
  else if node.flagged offer.prev then some (node, false)
  else if !offer.contextualCheckBlockHeader then some (node, false)
  else if node.isValid .scripts offer.prev then some (node.addToBlockIndex offer.entry, true)
  else
    -- `m_failed_blocks` is ordered by address
    match (node.failedBlocks.filter (·.isSuffixOf offer.prev)).argmin params.address with
    | none => some (node.addToBlockIndex offer.entry, true)
    | some failed =>
      if node.chain.failedValid failed then some (node.markFailedChild failed offer.prev, false)
      else none

/-! ## Block data -/

variable (pindex : IndexEntry ι)

/-- The fields of a linked entry: `nChainTx` and the sequence number. -/
def setLinked : NodeIndex ι :=
  let before := if pindex.tail = [] then 0 else node.nChainTx pindex.tail
  { node with
    nChainTx := update node.nChainTx pindex ((before + node.nTx pindex) % 2 ^ 32)
    nSequenceId := update node.nSequenceId pindex node.nBlockSequenceId
    nBlockSequenceId := node.nBlockSequenceId + 1 }

/-- One turn of the queue: the fields of the entry, and the candidate set. -/
def linkEntry (node : NodeIndex ι) (pindex : IndexEntry ι) : NodeIndex ι :=
  let linked := node.setLinked pindex
  if linked.chain.tip = [] ∨ linked.worse params pindex linked.chain.tip = false then
    linked.insertCandidates [pindex]
  else linked

/-- The blocks of `m_blocks_unlinked` that wait for an entry. -/
def waitingFor : List (IndexEntry ι) :=
  (node.blocksUnlinked.filter fun pair => pair.1 = pindex).map Prod.snd

/-- Remove what waits for an entry from `m_blocks_unlinked`. -/
def release : NodeIndex ι :=
  { node with blocksUnlinked := node.blocksUnlinked.filter fun pair => pair.1 ≠ pindex }

/-- `while (!queue.empty())`. A turn takes one entry off the queue and moves the
ones that waited for it from `m_blocks_unlinked` to the queue, so the number of
both together bounds the turns. -/
def linkQueue (params : IndexParams ι) :
    (turns : Nat) → List (IndexEntry ι) → NodeIndex ι → NodeIndex ι
  | 0, _, node => node
  | _ + 1, [], node => node
  | turns + 1, pindex :: queue, node =>
    let linked := node.linkEntry params pindex
    linkQueue params turns (queue ++ linked.waitingFor pindex) (linked.release pindex)

/-- The fields that `ReceivedBlockTransactions` sets first. -/
def storeData (pindexNew : IndexEntry ι) (numTxs : Nat) : NodeIndex ι :=
  { node with
    nTx := update node.nTx pindexNew (numTxs % 2 ^ 32)
    nChainTx := update node.nChainTx pindexNew 0
    chain := { node.chain with haveData := update node.chain.haveData pindexNew true }
    validity := update node.validity pindexNew
      (.raise (node.flagged pindexNew) .transactions (node.validity pindexNew)) }

def receivedBlockTransactions (node : NodeIndex ι) (pindexNew : IndexEntry ι) (numTxs : Nat) :
    NodeIndex ι :=
  let stored := node.storeData pindexNew numTxs
  if pindexNew.tail = [] ∨ stored.haveTxsDownloaded pindexNew.tail then
    linkQueue params (stored.blocksUnlinked.length + 1) [pindexNew] stored
  else if stored.isValid .tree pindexNew.tail then
    { stored with blocksUnlinked := stored.blocksUnlinked ++ [(pindexNew.tail, pindexNew)] }
  else stored

/-- A block that was not asked for and is not worth storing. -/
def unwanted (node : NodeIndex ι) (pindex : IndexEntry ι) : Bool :=
  decide (node.nTx pindex ≠ 0) ||
    decide (params.nChainWork pindex < params.nChainWork node.chain.tip) ||
    decide (pindex.length > node.chain.tip.length + minBlocksToKeep) ||
    decide (params.nChainWork pindex < params.minimumChainWork)

/-- `pindex->nStatus |= BLOCK_FAILED_VALID`. -/
def markFailedValid : NodeIndex ι :=
  { node with chain := { node.chain with
      failedValid := update node.chain.failedValid pindex true } }

def acceptBlock (node : NodeIndex ι) (offer : BlockOffer ι) : Option (NodeIndex ι × Bool) := do
  let (known, accepted) ← node.acceptBlockHeader params offer.toHeaderOffer
  if !accepted then return (known, false)
  if known.chain.haveData offer.entry then return (known, true)
  if !offer.fRequested && known.unwanted params offer.entry then return (known, true)
  match offer.checked with
  | some result =>
    return (if result ≠ .mutated then known.markFailedValid offer.entry else known, false)
  | none => return (known.receivedBlockTransactions params offer.entry offer.numTxs, true)

end NodeIndex

/-- The variables of `ActivateBestChain` while it holds `cs_main`. -/
structure Activation (ι : Type) where
  node : NodeIndex ι
  mostWork : IndexEntry ι
  blocksConnected : Bool

namespace NodeIndex

/-- What a pass of the inner loop leaves behind outside the chain state. The
connected blocks are the ancestors of the new tip that the old chain did not
have; `ConnectBlock` writes their undo data and raises their validity, except
for the genesis block. A block it refused joins `m_failed_blocks`. -/
def record (node : NodeIndex ι) (chain : ChainState ι) : NodeIndex ι :=
  let connected := fun entry : IndexEntry ι =>
    chain.contains entry && !node.chain.contains entry && decide (entry.tail ≠ [])
  { node with
    chain := chain
    validity := fun entry =>
      if connected entry then
        .raise (chain.failedValid entry || chain.failedChild entry) .scripts (node.validity entry)
      else node.validity entry
    haveUndo := fun entry => node.haveUndo entry || connected entry
    failedBlocks :=
      (node.blockIndex.filter fun entry =>
        chain.failedValid entry && !node.chain.failedValid entry) ∪ node.failedBlocks }

end NodeIndex

variable (params : IndexParams ι) (outcomes : Outcomes ι)

namespace Activation

/-- One pass of the inner loop and its `while` test. -/
def next (startingTip : IndexEntry ι) (run : Activation ι) : Activation ι ⊕ Option (Activation ι) :=
  let tree := run.node.tree params
  match LoopState.pass tree outcomes ⟨run.node.chain, run.mostWork⟩ with
  | .aborted _ => .inr none
  | .idle loop => .inr (some ⟨run.node.record loop.chain, loop.mostWork, run.blocksConnected⟩)
  | .stepped loop =>
    let stepped := ⟨run.node.record loop.chain, loop.mostWork, true⟩
    if LoopState.continues tree startingTip loop.chain.tip then .inl stepped
    else .inr (some stepped)

end Activation

/-! ## Invalidating and reconsidering -/

/-- The variables of `InvalidateBlock` across its disconnections. -/
structure Invalidation (ι : Type) where
  node : NodeIndex ι
  candidateBlocksByWork : List (IndexEntry ι)
  toMarkFailed : IndexEntry ι

namespace Invalidation

def disconnected (run : Invalidation ι) (walkTip : IndexEntry ι) : NodeIndex ι :=
  { run.node with chain := { run.node.chain with
      tip := walkTip.tail
      failedValid := update run.node.chain.failedValid walkTip true
      candidates := (run.node.chain.candidates.filter fun entry => entry ≠ walkTip).insert
        walkTip.tail } }

/-- `if (invalid_walk_tip->pprev == to_mark_failed && …)`. -/
def corrected (node : NodeIndex ι) (walkTip toMarkFailed : IndexEntry ι) : NodeIndex ι :=
  if walkTip.tail = toMarkFailed ∧ node.chain.failedValid toMarkFailed = true then
    { node with chain := { node.chain with
        failedValid := update node.chain.failedValid toMarkFailed false
        failedChild := update node.chain.failedChild toMarkFailed true } }
  else node

/-- The blocks that a disconnection makes candidates. -/
def eligible (node : NodeIndex ι) (tip entry : IndexEntry ι) : Bool :=
  decide (params.nChainWork tip ≤ params.nChainWork entry) && !node.worse params entry tip

/-- The body of the `while (true)` loop. -/
def disconnectTip (walkTip : IndexEntry ι) (run : Invalidation ι) : Invalidation ι :=
  let node := corrected (run.disconnected walkTip) walkTip run.toMarkFailed
  let candidates := run.candidateBlocksByWork
  { node := node.insertCandidates (candidates.filter (eligible params node walkTip.tail))
    candidateBlocksByWork := candidates.filter fun entry => !eligible params node walkTip.tail entry
    toMarkFailed := walkTip }

/-- The loop, on the active chain from its tip down; the genesis block has no
undo data and is not disconnected. -/
def walk (params : IndexParams ι) (pindex : IndexEntry ι) :
    IndexEntry ι → Invalidation ι → Invalidation ι
  | [], run => run
  | id :: parent, run =>
    if pindex <:+ id :: parent ∧ parent ≠ [] then
      walk params pindex parent (run.disconnectTip params (id :: parent))
    else run

end Invalidation

namespace NodeIndex

variable (params : IndexParams ι) (node : NodeIndex ι) (pindex : IndexEntry ι)

/-- The entries outside the active chain that may become candidates. -/
def candidateBlocksByWork : List (IndexEntry ι) :=
  node.blockIndex.filter fun candidate =>
    !node.chain.contains candidate && !node.worse params candidate pindex.tail &&
      node.isValid .transactions candidate && node.haveTxsDownloaded candidate

/-- The first half of `InvalidateBlock`, up to its call of `CheckBlockIndex`. -/
def disconnectFrom : Invalidation ι :=
  Invalidation.walk params pindex node.chain.tip
    ⟨node, node.candidateBlocksByWork params pindex, pindex⟩

/-- The entries that `InvalidateBlock` adds to the candidates at its end. -/
def eligibleCandidates : List (IndexEntry ι) :=
  node.blockIndex.filter fun entry =>
    node.isValid .transactions entry && node.haveTxsDownloaded entry &&
      !node.worse params entry node.chain.tip

def markInvalid (toMarkFailed : IndexEntry ι) : NodeIndex ι :=
  let marked := { node.markFailedValid toMarkFailed with
    failedBlocks := node.failedBlocks.insert toMarkFailed }
  let erased := { marked with chain := marked.chain.erase toMarkFailed }
  erased.insertCandidates (erased.eligibleCandidates params)

/-- `CChainState::InvalidateBlock`. For the genesis block, whose `pprev` is
null, it compares every entry outside the active chain with the null pointer;
without such an entry it returns when the genesis block is left. -/
def invalidateBlock : Option (NodeIndex ι) :=
  let run := node.disconnectFrom params pindex
  if pindex.tail = [] then
    if node.blockIndex.all node.chain.contains then some run.node else none
  else if run.node.chain.contains run.toMarkFailed then some run.node
  else some (run.node.markInvalid params run.toMarkFailed)

/-- The entries whose flags the first loop of `ResetBlockFailureFlags` clears. -/
def resets (entry : IndexEntry ι) : Bool :=
  decide (entry ∈ node.blockIndex) && !node.isValid .transactions entry &&
    pindex.isSuffixOf entry

/-- The first loop: the block and its descendants. A turn reads and changes one
entry only, so the turns are taken together. -/
def resetDescendants : NodeIndex ι :=
  let cleared := { node with chain := { node.chain with
    failedValid := fun entry => node.chain.failedValid entry && !node.resets pindex entry
    failedChild := fun entry => node.chain.failedChild entry && !node.resets pindex entry } }
  { cleared.insertCandidates (node.blockIndex.filter fun entry =>
      node.resets pindex entry && cleared.isValid .transactions entry &&
        cleared.haveTxsDownloaded entry && cleared.worse params node.chain.tip entry) with
    failedBlocks := node.failedBlocks.filter fun entry => !node.resets pindex entry }

/-- The second loop: the ancestors. -/
def resetAncestors : NodeIndex ι :=
  { node with
    chain := { node.chain with
      failedValid := fun entry => node.chain.failedValid entry && !entry.isSuffixOf pindex
      failedChild := fun entry => node.chain.failedChild entry && !entry.isSuffixOf pindex }
    failedBlocks := node.failedBlocks.filter fun entry =>
      !(entry.isSuffixOf pindex && node.flagged entry) }

def resetBlockFailureFlags : NodeIndex ι :=
  (node.resetDescendants params pindex).resetAncestors pindex

/-! ## The check -/

/-- `CChain::Genesis` of the chain of a tip. -/
def chainGenesis (tip : IndexEntry ι) : IndexEntry ι := tip.drop (tip.length - 1)

/-- The oldest ancestor of an entry, itself included, with a property. -/
def firstWith (property : IndexEntry ι → Bool) : IndexEntry ι → Option (IndexEntry ι)
  | [] => none
  | id :: parent =>
    match firstWith property parent with
    | some oldest => some oldest
    | none => if property (id :: parent) then some (id :: parent) else none

/-- The oldest ancestor other than the genesis block below a level. -/
def firstNotValid (level : BlockValidity) : IndexEntry ι → Option (IndexEntry ι) :=
  firstWith fun entry =>
    decide (entry.tail ≠ []) && decide ((node.validity entry).rank < level.rank)

/-- The assertions of `CheckBlockIndex` about one entry, in their order. An
assertion under a condition reads `!condition || assertion`. -/
def assertions : List Bool :=
  let firstInvalid := firstWith node.chain.failedValid pindex
  let firstMissing := firstWith (fun entry => !node.chain.haveData entry) pindex
  let firstNeverProcessed := firstWith (fun entry => decide (node.nTx entry = 0)) pindex
  let haveData := node.chain.haveData pindex
  let haveTxs := node.haveTxsDownloaded pindex
  let rank := (node.validity pindex).rank
  let height := pindex.length - 1
  let isCandidate := decide (pindex ∈ node.chain.candidates)
  let foundInUnlinked := decide ((pindex.tail, pindex) ∈ node.blocksUnlinked)
  let linked := !node.worse params pindex node.chain.tip && firstNeverProcessed.isNone
  [ -- the genesis block
    decide (pindex.tail ≠ []) || decide (pindex = [params.hashGenesisBlock]),
    decide (pindex.tail ≠ []) ||
      decide (chainGenesis node.chain.tip = pindex),
    haveTxs || decide (node.nSequenceId pindex ≤ 0),
    -- nothing was pruned
    decide ((!haveData) = decide (node.nTx pindex = 0)),
    decide (firstMissing = firstNeverProcessed),
    !node.haveUndo pindex || haveData,
    decide (decide (BlockValidity.transactions.rank ≤ rank) = decide (0 < node.nTx pindex)),
    decide (firstNeverProcessed.isNone = haveTxs),
    decide ((node.firstNotValid .transactions pindex).isNone = haveTxs),
    decide (pindex.tail = []) ||
      decide (params.nChainWork pindex.tail ≤ params.nChainWork pindex),
    decide (height < 2) ||
      decide (SkipList.skipAncestor pindex ≠ [] ∧
        (SkipList.skipAncestor pindex).length - 1 < height),
    (node.firstNotValid .tree pindex).isNone,
    !decide (BlockValidity.tree.rank ≤ rank) || (node.firstNotValid .tree pindex).isNone,
    !decide (BlockValidity.chain.rank ≤ rank) || (node.firstNotValid .chain pindex).isNone,
    !decide (BlockValidity.scripts.rank ≤ rank) || (node.firstNotValid .scripts pindex).isNone,
    firstInvalid.isSome || !node.flagged pindex,
    -- the candidate set
    !linked || firstInvalid.isSome ||
      !(firstMissing.isNone || decide (pindex = node.chain.tip)) || isCandidate,
    linked || !isCandidate,
    -- the unlinked blocks
    !(decide (pindex.tail ≠ []) && haveData && firstNeverProcessed.isSome && firstInvalid.isNone) ||
      foundInUnlinked,
    haveData || !foundInUnlinked,
    firstMissing.isSome || !foundInUnlinked,
    !(decide (pindex.tail ≠ []) && haveData && firstNeverProcessed.isNone && firstMissing.isSome) ]

/-- `CChainState::CheckBlockIndex`. The traversal starts at the only entry
without a parent and follows the children, so it meets every entry when the
ancestors of every entry are in the index. -/
def checkBlockIndex : Bool :=
  if node.chain.tip = [] then decide (node.blockIndex.length ≤ 1)
  else
    decide ((node.blockIndex.filter fun entry => entry.tail = []).length = 1) &&
      (node.blockIndex.all fun entry =>
        entry.tails.all fun ancestor =>
          decide (ancestor = []) || decide (ancestor ∈ node.blockIndex)) &&
      node.blockIndex.all fun entry => (node.assertions params entry).all id

/-- The index of a new node: the genesis block is stored and connected. -/
def genesis : NodeIndex ι where
  chain :=
    { tip := [params.hashGenesisBlock]
      failedValid := fun _ => false
      failedChild := fun _ => false
      haveData := fun entry => decide (entry = [params.hashGenesisBlock])
      candidates := [[params.hashGenesisBlock]] }
  blockIndex := [[params.hashGenesisBlock]]
  validity := fun entry =>
    if entry = [params.hashGenesisBlock] then .transactions else .unknown
  haveUndo := fun _ => false
  nTx := fun entry => if entry = [params.hashGenesisBlock] then 1 else 0
  nChainTx := fun entry => if entry = [params.hashGenesisBlock] then 1 else 0
  nSequenceId := fun entry => if entry = [params.hashGenesisBlock] then 1 else 0
  blocksUnlinked := []
  failedBlocks := []
  nBlockSequenceId := 2

end NodeIndex

/-! ## Runs -/

/-- The node between two sections under `cs_main`. While an `ActivateBestChain`
is under way it holds `m_cs_chainstate`, and its `pindexMostWork` outlives the
section; the null pointer is the empty chain. -/
structure NodeState (ι : Type) where
  node : NodeIndex ι
  activating : Option (IndexEntry ι)

/-- The calls that change the index. A section of `ActivateBestChain` starts
one or goes on with the one under way, and comes with a bound on its passes. -/
inductive NodeEvent (ι : Type) where
  | acceptBlockHeader (offer : HeaderOffer ι)
  | acceptBlock (offer : BlockOffer ι)
  | activateBestChain (passes : Nat)
  | invalidateBlock (pindex : IndexEntry ι)
  | resetBlockFailureFlags (pindex : IndexEntry ι)

namespace NodeState

/-- One section of `ActivateBestChain`: the inner loop until it is left, and
what it leaves `pindexMostWork` at when the outer loop goes on. -/
def activateSection (passes : Nat) (state : NodeState ι) : Option (NodeState ι) := do
  let start := ⟨state.node, state.activating.getD [], false⟩
  let run ← (← Loop.run (Activation.next params outcomes state.node.chain.tip) passes start)
  if run.blocksConnected ∧ run.node.chain.tip ≠ run.mostWork then
    return ⟨run.node, some run.mostWork⟩
  else return ⟨run.node, none⟩

/-- What a call does; there is no result when an assertion fails, when the
passes do not suffice, when the entry is not in the index, or when
`m_cs_chainstate` is taken. -/
def step (state : NodeState ι) :
    NodeEvent ι → Option (NodeState ι)
  | .acceptBlockHeader offer =>
    (state.node.acceptBlockHeader params offer).map fun (node, _) => { state with node := node }
  | .acceptBlock offer =>
    (state.node.acceptBlock params offer).map fun (node, _) => { state with node := node }
  | .activateBestChain passes => state.activateSection params outcomes passes
  | .invalidateBlock pindex =>
    if pindex ∈ state.node.blockIndex ∧ state.activating = none then
      (state.node.invalidateBlock params pindex).map fun node => { state with node := node }
    else none
  | .resetBlockFailureFlags pindex =>
    if pindex ∈ state.node.blockIndex then
      some { state with node := state.node.resetBlockFailureFlags params pindex }
    else none

/-- The run of a list of calls. -/
def run (params : IndexParams ι) (outcomes : Outcomes ι) :
    List (NodeEvent ι) → NodeState ι → Option (NodeState ι)
  | [], state => some state
  | event :: rest, state => do
      let state' ← state.step params outcomes event
      run params outcomes rest state'

end NodeState

end MooncoinFormal.Validation
