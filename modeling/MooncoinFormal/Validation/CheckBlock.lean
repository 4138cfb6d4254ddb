import MooncoinFormal.Library.MerkleTree
import MooncoinFormal.Mweb.Node
import MooncoinFormal.Validation.TxCheck

/-!
# Checks of a block without the coins

`CheckBlock` and `ContextualCheckBlock` of `validation.cpp`: the checks of a
block alone, and those that need the headers before it. The order of the checks
matters, since it decides whether a block with changed uncommitted data is
reported as mutated or as invalid.
-/

namespace MooncoinFormal.Validation

open Primitives Library.Checks Library.MerkleTree CBlock CTransaction

variable {T : CryptoTypes} (crypto : BlockCrypto T) (params : Params T)

/-! ## The block alone -/

variable (block : CBlock T)

/-- `BlockMerkleRoot`, with the flag for repeated transactions. -/
def blockMerkleRoot : T.Hash × Bool :=
  computeRoot crypto.hashPair T.zeroHash (block.vtx.map (CTransaction.getHash crypto))

def checkHeader : Checked Unit := do
  ensure (params.powValid block.header = true) ⟨.invalidHeader, "high-hash", "proof of work failed"⟩
  ensure (params.signetSolution block.header (block.vtx.map CTransaction.stripped) = true)
    ⟨.consensus, "bad-signet-blksig", "signet block signature validation failure"⟩
  ensure (block.header.hashMerkleRoot = (blockMerkleRoot crypto block).1)
    ⟨.mutated, "bad-txnmrklroot", "hashMerkleRoot mismatch"⟩
  ensure ((blockMerkleRoot crypto block).2 = false)
    ⟨.mutated, "bad-txns-duplicate", "duplicate transaction"⟩

def checkTx (tx : CTransaction T) : Checked Unit :=
  match checkTransaction crypto params tx with
  | .ok _ => .ok ()
  | .error reason => .error ⟨.consensus, reason, "Transaction check failed"⟩

def checkTxs : Checked Unit := do
  ensure (block.vtx ≠ [] ∧
      block.vtx.length * witnessScaleFactor ≤ maxBlockWeight ∧
      block.strippedSize * witnessScaleFactor ≤ maxBlockWeight)
    ⟨.consensus, "bad-blk-length", "size limits failed"⟩
  ensure ((block.vtx.head?.map isCoinBase).getD false = true)
    ⟨.consensus, "bad-cb-missing", "first tx is not coinbase"⟩
  ensureAll (fun tx => ensure (tx.isCoinBase = false)
    ⟨.consensus, "bad-cb-multiple", "more than one coinbase"⟩) (block.vtx.drop 1)
  ensureAll (checkTx crypto params) block.vtx

def checkSigOps : Checked Unit :=
  ensure ((block.vtx.map getLegacySigOpCount).sum * witnessScaleFactor ≤
    maxBlockSigopsCost) ⟨.consensus, "bad-blk-sigops", "out-of-bounds SigOpCount"⟩

/-- `CheckBlock` with its checks of work and Merkle root. -/
def checkBlock (block : CBlock T) : Checked Unit := do
  checkHeader crypto params block
  checkTxs crypto params block
  checkSigOps block
  Mweb.Node.checkBlock block

/-- What a block that passes satisfies. -/
structure CheckedBlock : Prop where
  pow : params.powValid block.header = true
  signet : params.signetSolution block.header (block.vtx.map CTransaction.stripped) = true
  root : block.header.hashMerkleRoot = (blockMerkleRoot crypto block).1
  unrepeated : (blockMerkleRoot crypto block).2 = false
  count : block.vtx.length * witnessScaleFactor ≤ maxBlockWeight
  size : block.strippedSize * witnessScaleFactor ≤ maxBlockWeight
  coinbase : ∃ coinbase rest, block.vtx = coinbase :: rest ∧ coinbase.isCoinBase = true ∧
    ∀ tx ∈ rest, tx.isCoinBase = false
  txs : ∀ tx ∈ block.vtx, checkTransaction crypto params tx = .ok ()
  sigOps : (block.vtx.map getLegacySigOpCount).sum * witnessScaleFactor ≤
    maxBlockSigopsCost
  plain : ∀ tx ∈ block.vtx, tx.mwebTx = none

section Checked

variable {crypto params} {block : CBlock T}

theorem checkTx_eq_ok {tx : CTransaction T} :
    checkTx crypto params tx = .ok () ↔ checkTransaction crypto params tx = .ok () := by
  unfold checkTx
  cases checkTransaction crypto params tx <;> simp

theorem checkBlock_eq_ok :
    checkBlock crypto params block = .ok () ↔ CheckedBlock crypto params block := by
  simp only [checkBlock, checkHeader, checkTxs, checkSigOps, Mweb.Node.checkBlock, bind_eq_ok,
    ensure_eq_ok, ensureAll_eq_ok, checkTx_eq_ok, hasMwebTx, Option.isSome_eq_false_iff,
    Option.isNone_iff_eq_none]
  constructor
  · rintro ⟨⟨⟩, ⟨⟨⟩, pow, ⟨⟩, signet, ⟨⟩, root, unrepeated⟩, ⟨⟩,
      ⟨⟨⟩, ⟨nonempty, count, size⟩, ⟨⟩, first, ⟨⟩, others, txs⟩, ⟨⟩, sigOps, plain⟩
    refine ⟨pow, signet, root, unrepeated, count, size, ?_, txs, sigOps, plain⟩
    cases vtx : block.vtx with
    | nil => exact absurd vtx nonempty
    | cons coinbase rest =>
      rw [vtx] at first others
      exact ⟨coinbase, rest, rfl, first, others⟩
  · rintro ⟨pow, signet, root, unrepeated, count, size, ⟨coinbase, rest, vtx, first, others⟩, txs,
      sigOps, plain⟩
    refine ⟨(), ⟨(), pow, (), signet, (), root, unrepeated⟩, (), ⟨(), ⟨?_, count, size⟩, (), ?_,
      (), ?_, txs⟩, (), sigOps, plain⟩
    · simp [vtx]
    · simpa [vtx] using first
    · simpa [vtx] using others

end Checked

variable (chain : Chain T)

/-- The lock time cutoff: the median time past once relative lock times hold. -/
def lockTimeCutoff (block : CBlock T) : Nat :=
  if params.csvHeight ≤ chain.nextHeight then chain.getMedianTimePast
  else block.header.nTime.toNat

/-- The coinbase starts with the height. -/
def checkHeight (block : CBlock T) : Checked Unit :=
  if params.bip34Height ≤ chain.nextHeight then
    ensure (CScript.pushInt chain.nextHeight <+: ((block.vtx.head?.map coinbaseScript).getD []))
      ⟨.consensus, "bad-cb-height", "block height mismatch in coinbase"⟩
  else .ok ()

/-- An output whose script is a witness commitment. -/
def isWitnessCommitment (txout : CTxOut) : Bool :=
  decide (38 ≤ txout.scriptPubKey.length) &&
    decide (txout.scriptPubKey.take 6 = [0x6a, 0x24, 0xaa, 0x21, 0xa9, 0xed])

/-- The digest of the last commitment among the outputs of the coinbase. -/
def witnessCommitment (block : CBlock T) : Option (List UInt8) :=
  (((block.vtx.head?.map vout).getD []).filter isWitnessCommitment).getLast?.map
    fun txout => (txout.scriptPubKey.drop 6).take 32

/-- `BlockWitnessMerkleRoot`: the coinbase counts as the zero digest. -/
def blockWitnessMerkleRoot (block : CBlock T) : T.Hash :=
  (computeRoot crypto.hashPair T.zeroHash
    (T.zeroHash :: (block.vtx.drop 1).map (getWitnessHash crypto))).1

def coinbaseWitness (block : CBlock T) : List (List UInt8) :=
  ((block.vtx.head?.bind fun tx => tx.vin.head?).map CTxIn.scriptWitness).getD []

def checkCommitment (block : CBlock T) (commitment : List UInt8) : Checked Unit := do
  ensure ((coinbaseWitness block).length = 1 ∧ ((coinbaseWitness block).headD []).length = 32)
    ⟨.mutated, "bad-witness-nonce-size",
      "ContextualCheckBlock : invalid witness reserved value size"⟩
  ensure (T.hashOfBytes commitment = crypto.hashWitnessCommitment
      (blockWitnessMerkleRoot crypto block) ((coinbaseWitness block).headD []))
    ⟨.mutated, "bad-witness-merkle-match",
      "ContextualCheckBlock : witness merkle commitment mismatch"⟩

/-- The checks of witnesses, made only where witness rules are enforced. -/
def checkWitness (block : CBlock T) : Checked Unit :=
  if isWitnessEnabled params chain then
    match witnessCommitment block with
    | some commitment => checkCommitment crypto block commitment
    | none => ensureAll (fun tx => ensure (tx.hasWitness = false)
        ⟨.mutated, "unexpected-witness", "ContextualCheckBlock : unexpected witness data found"⟩)
        block.vtx
  else .ok ()

def checkWeight (block : CBlock T) : Checked Unit :=
  ensure (block.getBlockWeight ≤ maxBlockWeight)
    ⟨.consensus, "bad-blk-weight", "ContextualCheckBlock : weight limit failed"⟩

def contextualCheckBlock (block : CBlock T) : Checked Unit := do
  ensureAll (fun tx => ensure (isFinalTx tx chain.nextHeight
    (lockTimeCutoff params chain block) = true)
    ⟨.consensus, "bad-txns-nonfinal", "non-final transaction"⟩) block.vtx
  checkHeight params chain block
  checkWitness crypto params chain block
  checkWeight block
  Mweb.Node.contextualCheckBlock crypto params chain block

variable {crypto params chain block} in
theorem mweb_of_contextualCheckBlock
    (contextual : contextualCheckBlock crypto params chain block = .ok ()) :
    Mweb.Node.contextualCheckBlock crypto params chain block = .ok () := by
  simp only [contextualCheckBlock, bind_eq_ok] at contextual
  obtain ⟨⟨⟩, -, ⟨⟩, -, ⟨⟩, -, ⟨⟩, -, mweb⟩ := contextual
  exact mweb

end MooncoinFormal.Validation
