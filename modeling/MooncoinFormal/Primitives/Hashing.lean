import MooncoinFormal.Library.RangeBinding
import MooncoinFormal.Mweb.Crypto
import MooncoinFormal.Primitives.Transaction

/-!
# Hashes of transactions and blocks

The hash functions of the canonical chain, beside those of the extension block.
A transaction ID is the hash of the transaction without witness, flag and
attached extension block transaction; a transaction that is nothing but an
extension block transaction is named by its first kernel.
-/

namespace MooncoinFormal.Primitives

variable {T : CryptoTypes}

structure BlockCrypto (T : CryptoTypes) extends Mweb.Crypto T where
  /-- `SerializeHash` of a transaction that carries no extension block data. -/
  hashTransaction : CTransaction T → T.Hash
  hashBlockHeader : CBlockHeader T → T.Hash
  /-- The parent of two nodes of a Merkle tree. -/
  hashPair : T.Hash → T.Hash → T.Hash
  /-- The hash of the witness root and the reserved value. -/
  hashWitnessCommitment : T.Hash → List UInt8 → T.Hash

variable (crypto : BlockCrypto T)

namespace CTransaction

/-- `CTransaction::ComputeHash`. -/
def getHash (tx : CTransaction T) : T.Hash :=
  match tx.isMwebOnly, tx.mwebTx with
  | true, some mwebTx =>
    match mwebTx.body.kernels with
    | kernel :: _ => crypto.hashKernel kernel
    | [] => crypto.hashTransaction tx.stripped
  | _, _ => crypto.hashTransaction tx.stripped

/-- `CTransaction::ComputeWitnessHash`. -/
def getWitnessHash (tx : CTransaction T) : T.Hash :=
  if tx.hasWitness then crypto.hashTransaction tx.withoutMweb else tx.getHash crypto

end CTransaction

def CBlock.getHash (block : CBlock T) : T.Hash := crypto.hashBlockHeader block.header

theorem CTransaction.getHash_eq {tx : CTransaction T} (canonical : tx.vin ≠ []) :
    tx.getHash crypto = crypto.hashTransaction tx.stripped := by
  rw [getHash, isMwebOnly_eq_false canonical]

/-- Transactions with the same hash are the same up to extension block data. Without inputs a
transaction can have the bytes of one with witnesses. -/
def BlockCrypto.TransactionInj : Prop :=
  ∀ {tx other : CTransaction T}, tx.vin ≠ [] → other.vin ≠ [] →
    crypto.hashTransaction tx = crypto.hashTransaction other → tx.withoutMweb = other.withoutMweb

/-- Objects with the same hash have the same bytes. Nothing tells a transaction from a node of a
Merkle tree, since both are hashed in the same way. -/
structure BlockCrypto.CollisionFree : Prop where
  output_inj : Function.Injective crypto.hashOutput
  /-- A negative height has the bytes of another. -/
  header_inj : ∀ {header other : Mweb.Header T}, header.height = other.height →
    crypto.hashHeader header = crypto.hashHeader other → header = other
  leafset_inj : Function.Injective crypto.hashLeafset
  outputMmr : crypto.outputMmr.CollisionFree T.zeroHash
  kernelMmr : crypto.kernelMmr.CollisionFree T.zeroHash Mweb.Kernel.Alike
  transaction_inj : crypto.TransactionInj
  blockHeader_inj : Function.Injective crypto.hashBlockHeader
  pair_inj : ∀ {a b c d}, crypto.hashPair a b = crypto.hashPair c d → a = c ∧ b = d
  witnessCommitment_inj : ∀ {root root' reserved reserved'},
    crypto.hashWitnessCommitment root reserved = crypto.hashWitnessCommitment root' reserved' →
      root = root' ∧ reserved = reserved'

end MooncoinFormal.Primitives
