import MooncoinFormal.Mweb.Database
import MooncoinFormal.Mweb.LeafSet
import MooncoinFormal.Mweb.Validate

/-!
# Views of the extension block's coins

`mw/node/CoinsView.h`: the database view and the cache that lies over another
view. A cache keeps a list of actions for each output ID, an overlay of the
leafset, an overlay of the output range and its own best header. Its operations
change the top layer only; `Flush` and `WriteBatch` change what is below.
-/

namespace MooncoinFormal.Mweb

open Primitives Library.Checks Mmr LeafSet

variable {T : CryptoTypes}

structure UTXO (T : CryptoTypes) where
  blockHeight : Int32
  leafIndex : Nat
  output : Output T
  deriving DecidableEq

structure BlockUndo (T : CryptoTypes) where
  prevHeader : Option (Header T)
  coinsSpent : List (UTXO T)
  coinsAdded : List T.Hash

abbrev CoinAction (T : CryptoTypes) := Option (UTXO T)

abbrev CoinsViewUpdates (T : CryptoTypes) := AList fun _ : T.Hash => List (CoinAction T)

namespace CoinsViewUpdates

variable (updates : CoinsViewUpdates T)

def getActions (outputId : T.Hash) : List (CoinAction T) :=
  (updates.lookup outputId).getD []

def addAction (outputId : T.Hash) (action : CoinAction T) : CoinsViewUpdates T :=
  updates.insert outputId (updates.getActions outputId ++ [action])

end CoinsViewUpdates

/-- `CoinsViewDB`: the coins of the database, and the files. -/
structure CoinsViewDB (T : CryptoTypes) where
  header : Option (Header T)
  coins : T.Hash → Option (UTXO T)
  leafSet : LeafSetFile
  outputPMMR : PMMR T.Hash T.Hash

/-- `CoinsViewCache` without the pointer to its base. -/
structure CoinsViewCache (T : CryptoTypes) where
  header : Option (Header T)
  leafSet : LeafSetCache
  outputPMMR : PMMRCache T.Hash T.Hash
  updates : CoinsViewUpdates T

/-- A database view with caches on it; `cache` holds the pointer `m_pBase`. -/
inductive ICoinsView (T : CryptoTypes) where
  | db (view : CoinsViewDB T)
  | cache (base : ICoinsView T) (top : CoinsViewCache T)

/-- One step of the loop of `GetUTXO`, with its assertions. -/
def applyAction (current action : CoinAction T) : MwResult (Option (UTXO T)) :=
  match current, action with
  | none, some utxo => .ok (some utxo)
  | some _, none => .ok none
  | _, _ => .error .assertion

namespace ICoinsView

def getBestHeader : ICoinsView T → Option (Header T)
  | db view => view.header
  | cache _ top => top.header

def getLeafSet : ICoinsView T → ILeafSet
  | db view => .file view.leafSet
  | cache base top => .cache base.getLeafSet top.leafSet

def getOutputPMMR : ICoinsView T → IMMR T.Hash T.Hash
  | db view => .file view.outputPMMR
  | cache base top => .cache base.getOutputPMMR top.outputPMMR

def getUTXO : ICoinsView T → T.Hash → MwResult (Option (UTXO T))
  | db view, outputId => .ok (view.coins outputId)
  | cache base top, outputId => do
      let utxo ← base.getUTXO outputId
      (top.updates.getActions outputId).foldlM applyAction utxo

/-- The constructor of `CoinsViewCache`. -/
def newCache (base : ICoinsView T) : Option (CoinsViewCache T) := do
  let outputPMMR ← base.getOutputPMMR.newCache
  some ⟨base.getBestHeader, LeafSetCache.on base.getLeafSet, outputPMMR, ∅⟩

/-- `GetLeafSet()->Root()`. -/
def leafsetRoot (crypto : Crypto T) (view : ICoinsView T) : T.Hash :=
  crypto.hashLeafset (rootBytes view.getLeafSet.getByte view.getLeafSet.getNextLeafIdx)

/-- The header's roots and number of outputs are those of the view. -/
def matchesHeader (crypto : Crypto T) (view : ICoinsView T) (header : Header T) : Bool :=
  decide (view.getOutputPMMR.root crypto.outputMmr T.zeroHash = some header.outputRoot) &&
    decide (view.getOutputPMMR.getNextLeafIdx = some header.numTXOs) &&
    decide (view.leafsetRoot crypto = header.leafsetRoot)

end ICoinsView

open ICoinsView

/-- A failed assertion of the range. -/
def orAssert {α : Type} : Option α → MwResult α
  | some value => .ok value
  | none => .error .assertion

namespace CoinsViewCache

variable (crypto : Crypto T) (base : ICoinsView T)

/-- How the overlay of the leafset reads and writes bytes. -/
def leafStore : Store LeafSetCache := cacheStore base.getLeafSet.getByte

variable (top : CoinsViewCache T)

def addUTXO (height : Int32) (output : Output T) : MwResult (CoinsViewCache T) := do
  let outputId := crypto.hashOutput output
  let utxo ← (cache base top).getUTXO outputId
  ensure (utxo = none) (.validation .duplicates)
  let leafIdx := top.outputPMMR.getNextLeafIdx
  let outputPMMR ← orAssert (top.outputPMMR.add crypto.outputMmr
    base.getOutputPMMR.getHash outputId)
  .ok { top with
    outputPMMR := outputPMMR
    leafSet := LeafSet.add (leafStore base) top.leafSet leafIdx
    updates := top.updates.addAction outputId (some ⟨height, leafIdx, output⟩) }

/-- `SpendUTXO`, which finds the coin by its output ID. -/
def spendUTXO (outputId : T.Hash) : MwResult (UTXO T × CoinsViewCache T) := do
  let utxo ← (cache base top).getUTXO outputId
  match utxo with
  | none => .error (.validation .utxoMissing)
  | some utxo => do
      ensure (LeafSet.contains (leafStore base) top.leafSet utxo.leafIndex = true)
        (.validation .utxoMissing)
      .ok (utxo, { top with
        leafSet := LeafSet.remove (leafStore base) top.leafSet utxo.leafIndex
        updates := top.updates.addAction outputId none })

def addOutputs (height : Int32) : CoinsViewCache T → List (Output T) → MwResult (CoinsViewCache T)
  | top, [] => .ok top
  | top, output :: rest => do
      let top ← addUTXO crypto base top height output
      addOutputs height top rest

/-- Spend the inputs of a block, in order, with the coins they spend. -/
def spendInputs : CoinsViewCache T → List T.Hash → MwResult (List (UTXO T) × CoinsViewCache T)
  | top, [] => .ok ([], top)
  | top, outputId :: rest => do
      let (utxo, top) ← spendUTXO base top outputId
      let (spent, top) ← spendInputs top rest
      .ok (utxo :: spent, top)

/-- The offset of the header before, or zero. -/
def prevOffset (header : Option (Header T)) : T.Scalar := (header.map Header.kernelOffset).getD 0

def applyBlock (block : Block T) : MwResult (BlockUndo T × CoinsViewCache T) := do
  let previousHeader := top.header
  let top := { top with header := some block.header }
  validateForBlock crypto block.body block.header.kernelOffset (prevOffset previousHeader)
  let top ← addOutputs crypto base block.header.height top block.body.outputs
  let (coinsSpent, top) ← spendInputs base top block.body.getSpentIDs
  ensure ((cache base top).matchesHeader crypto block.header = true)
    (.validation .mmrMismatch)
  .ok (⟨previousHeader, coinsSpent, block.body.outputs.map crypto.hashOutput⟩, top)

variable {crypto base} in
theorem applyBlock_eq_ok {top top' : CoinsViewCache T} {block : Block T} {undo : BlockUndo T} :
    top.applyBlock crypto base block = .ok (undo, top') ↔
      validateForBlock crypto block.body block.header.kernelOffset
        (prevOffset top.header) = .ok () ∧
        ∃ added spent,
          addOutputs crypto base block.header.height { top with header := some block.header }
            block.body.outputs = .ok added ∧
          spendInputs base added block.body.getSpentIDs = .ok (spent, top') ∧
          (cache base top').matchesHeader crypto block.header = true ∧
          undo = ⟨top.header, spent, block.body.outputs.map crypto.hashOutput⟩ := by
  unfold applyBlock
  simp only [bind_eq_ok, ensure_eq_ok, Prod.exists, Except.ok.injEq, Prod.mk.injEq]
  constructor
  · rintro ⟨⟨⟩, sums, added, adds, spent, after, spends, ⟨⟩, fits, rfl, rfl⟩
    exact ⟨sums, added, spent, adds, spends, fits, rfl⟩
  · rintro ⟨sums, added, spent, adds, spends, fits, rfl⟩
    exact ⟨(), sums, added, adds, spent, top', spends, (), fits, rfl, rfl⟩

def undoBlock (undo : BlockUndo T) : MwResult (CoinsViewCache T) := do
  let updates := undo.coinsSpent.foldl
    (fun updates utxo => CoinsViewUpdates.addAction updates (crypto.hashOutput utxo.output)
      (some utxo))
    top.updates
  let updates := undo.coinsAdded.foldl
    (fun updates outputId => CoinsViewUpdates.addAction updates outputId none) updates
  match undo.prevHeader with
  | none => .ok {
      header := none
      leafSet := LeafSet.rewind (leafStore base) top.leafSet 0 []
      outputPMMR := top.outputPMMR.rewind 0
      updates := updates }
  | some header => do
      let top : CoinsViewCache T := {
        header := some header
        leafSet := LeafSet.rewind (leafStore base) top.leafSet header.numTXOs
          (undo.coinsSpent.map UTXO.leafIndex)
        outputPMMR := top.outputPMMR.rewind header.numTXOs
        updates := updates }
      ensure ((cache base top).matchesHeader crypto header = true)
        (.validation .mmrMismatch)
      .ok top

end CoinsViewCache

/-! ## Writing to the view below -/

namespace CoinsViewDB

variable (crypto : Crypto T)

/-- One action of `CoinsViewDB::WriteBatch`. -/
def writeAction (coins : T.Hash → Option (UTXO T)) (outputId : T.Hash)
    (transaction : DBTransaction T.Hash (UTXO T)) (action : CoinAction T) :
    MwResult (DBTransaction T.Hash (UTXO T)) :=
  match action with
  | some utxo => .ok (transaction.put (crypto.hashOutput utxo.output) utxo)
  | none => do
      ensure ((transaction.get coins outputId).isSome = true) (.validation .utxoMissing)
      .ok (transaction.delete outputId)

/-- `CoinsViewDB::WriteBatch`, with the batch written at the end. -/
def writeBatch (view : CoinsViewDB T) (updates : CoinsViewUpdates T) (header : Option (Header T)) :
    MwResult (CoinsViewDB T) := do
  let transaction ← updates.entries.foldlM
    (fun transaction entry => entry.2.foldlM (writeAction crypto view.coins entry.1) transaction)
    ⟨fun _ => none, fun _ => []⟩
  .ok { view with header := header, coins := transaction.commit view.coins }

end CoinsViewDB

namespace CoinsViewCache

variable (crypto : Crypto T)

/-- One action of `CoinsViewCache::WriteBatch`. -/
def writeAction (outputId : T.Hash) (updates : CoinsViewUpdates T) (action : CoinAction T) :
    CoinsViewUpdates T :=
  match action with
  | some utxo => updates.addAction (crypto.hashOutput utxo.output) (some utxo)
  | none => updates.addAction outputId none

variable (top : CoinsViewCache T)

def writeBatch (updates : CoinsViewUpdates T) (header : Option (Header T)) : CoinsViewCache T :=
  { top with
    header := header
    updates := updates.entries.foldl
      (fun current entry => entry.2.foldl (writeAction crypto entry.1) current) top.updates }

/-- What `Flush` writes to its base: the coins and the header, the leafset, then
the output range. -/
def flushTo : ICoinsView T → MwResult (ICoinsView T)
  | .db view => do
      let written ← view.writeBatch crypto top.updates top.header
      let outputPMMR ← orAssert (view.outputPMMR.batchWrite crypto.outputMmr
        top.outputPMMR.firstLeaf top.outputPMMR.leaves)
      .ok (.db { written with
        leafSet := view.leafSet.applyUpdates top.leafSet.nextLeafIdx top.leafSet.modifiedBytes
        outputPMMR := outputPMMR })
  | .cache below base => do
      let written := base.writeBatch crypto top.updates top.header
      let outputPMMR ← orAssert (base.outputPMMR.batchWrite crypto.outputMmr
        below.getOutputPMMR.getHash top.outputPMMR.firstLeaf top.outputPMMR.leaves)
      .ok (.cache below { written with
        leafSet := base.leafSet.applyUpdates below.getLeafSet.getByte top.leafSet.nextLeafIdx
          top.leafSet.modifiedBytes
        outputPMMR := outputPMMR })

/-- `Flush`: nothing at all when there is no best header. -/
def flush (base : ICoinsView T) (top : CoinsViewCache T) :
    MwResult (ICoinsView T × CoinsViewCache T) :=
  match top.header with
  | none => .ok (base, top)
  | some header => do
      let base ← top.flushTo crypto base
      .ok (base, ⟨some header, top.leafSet.flushed, top.outputPMMR.flushed, ∅⟩)

end CoinsViewCache

/-! ## Which parts of a block the coins depend on -/

namespace CoinsViewCache

variable {crypto : Crypto T} {base : ICoinsView T} {top top' : CoinsViewCache T}

theorem addUTXO_setHeader {height : Int32} {output : Output T}
    (added : addUTXO crypto base top height output = .ok top') (header : Option (Header T)) :
    addUTXO crypto base { top with header := header } height output =
      .ok { top' with header := header } := by
  simp only [addUTXO, bind_eq_ok, ensure_eq_ok] at added ⊢
  obtain ⟨utxo, read, ⟨⟩, absent, pmmr, appended, result⟩ := added
  cases result
  exact ⟨utxo, read, (), absent, pmmr, appended, rfl⟩

theorem addOutputs_setHeader {height : Int32} {outputs : List (Output T)}
    (added : addOutputs crypto base height top outputs = .ok top') (header : Option (Header T)) :
    addOutputs crypto base height { top with header := header } outputs =
      .ok { top' with header := header } := by
  induction outputs generalizing top with
  | nil =>
    cases added
    rfl
  | cons output rest ih =>
    simp only [addOutputs, bind_eq_ok] at added ⊢
    obtain ⟨middle, first, later⟩ := added
    exact ⟨_, addUTXO_setHeader first header, ih later⟩

theorem spendUTXO_setHeader {outputId : T.Hash} {utxo : UTXO T}
    (spent : spendUTXO base top outputId = .ok (utxo, top')) (header : Option (Header T)) :
    spendUTXO base { top with header := header } outputId =
      .ok (utxo, { top' with header := header }) := by
  simp only [spendUTXO, bind_eq_ok] at spent ⊢
  obtain ⟨found, read, spent⟩ := spent
  refine ⟨found, read, ?_⟩
  cases found with
  | none => cases spent
  | some coin =>
    simp only [bind_eq_ok, ensure_eq_ok] at spent ⊢
    obtain ⟨⟨⟩, unspent, result⟩ := spent
    cases result
    exact ⟨(), unspent, rfl⟩

theorem spendInputs_setHeader {ids : List T.Hash} {coins : List (UTXO T)}
    (spent : spendInputs base top ids = .ok (coins, top')) (header : Option (Header T)) :
    spendInputs base { top with header := header } ids =
      .ok (coins, { top' with header := header }) := by
  induction ids generalizing top coins with
  | nil =>
    cases spent
    rfl
  | cons id rest ih =>
    simp only [spendInputs, bind_eq_ok, Prod.exists] at spent ⊢
    obtain ⟨utxo, middle, first, others, last, later, result⟩ := spent
    cases result
    exact ⟨utxo, _, spendUTXO_setHeader first header, others, _, ih later, rfl⟩

/-- `ApplyBlock` reads of a block its sums, outputs, spent IDs and what its header
says about them. -/
theorem applyBlock_congr {block other : Block T} {undo : BlockUndo T}
    (applied : top.applyBlock crypto base block = .ok (undo, top'))
    (sums : validateForBlock crypto other.body other.header.kernelOffset (prevOffset top.header) =
      .ok ()) (height : other.header.height = block.header.height)
    (outputs : other.body.outputs = block.body.outputs)
    (ids : other.body.getSpentIDs = block.body.getSpentIDs)
    (outputRoot : other.header.outputRoot = block.header.outputRoot)
    (numTXOs : other.header.numTXOs = block.header.numTXOs)
    (leafsetRoot : other.header.leafsetRoot = block.header.leafsetRoot) :
    top.applyBlock crypto base other = .ok (undo, { top' with header := some other.header }) := by
  obtain ⟨-, added, spent, adds, spends, fits, rfl⟩ := applyBlock_eq_ok.mp applied
  refine applyBlock_eq_ok.mpr ⟨sums, { added with header := some other.header }, spent, ?_, ?_, ?_,
    by rw [outputs]⟩
  · rw [height, outputs]
    exact addOutputs_setHeader adds (some other.header)
  · rw [ids]
    exact spendInputs_setHeader spends (some other.header)
  · rw [← fits, matchesHeader, matchesHeader, outputRoot, numTXOs, leafsetRoot]
    rfl

end CoinsViewCache

end MooncoinFormal.Mweb
