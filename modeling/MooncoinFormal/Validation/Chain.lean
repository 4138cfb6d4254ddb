import Mathlib
import MooncoinFormal.Primitives.Hashing
import MooncoinFormal.Validation.State

/-!
# The chain a block is checked against

`chain.h` and `consensus/params.h`: the index entries of the blocks before, the
latest first, and the rules that hold at a height. What the deployments of new
rules and the proof of work decide is a parameter, since it depends on headers
alone.
-/

namespace MooncoinFormal.Validation

open Primitives

variable {T : CryptoTypes}

/-- `CBlockIndex`: the amount locked in the extension block is a valid amount. -/
structure CBlockIndex (T : CryptoTypes) where
  header : CBlockHeader T
  blockHash : T.Hash
  hogexHash : T.Hash
  mwebAmount : CAmount
  mwebAmount_range : moneyRange mwebAmount = true

/-- The blocks before, from `pindexPrev` back to the first one. -/
abbrev Chain (T : CryptoTypes) := List (CBlockIndex T)

variable (chain : Chain T)

/-- The height of the block that follows the chain. -/
def Chain.nextHeight : Nat := chain.length

/-- `GetMedianTimePast`: the median of the last eleven block times. -/
def Chain.getMedianTimePast : Nat :=
  let times := (chain.take 11).map fun index => index.header.nTime.toNat
  (times.insertionSort (· ≤ ·)).getD (times.length / 2) 0

/-- `GetAncestor`: the chain that ends with the block at a height. -/
def Chain.getAncestor (height : Nat) : Chain T :=
  if height < chain.length then chain.drop (chain.length - 1 - height) else []

/-- `Consensus::Params`, with what is decided by headers alone as functions. -/
structure Params (T : CryptoTypes) where
  hashGenesisBlock : T.Hash
  /-- The genesis hash is that of the main network. -/
  mainNetwork : Bool
  /-- Coinbases of the historical chain whose script may have any length. -/
  legacyCoinbases : List T.Hash
  bip16Height : Nat
  bip34Height : Nat
  bip34Hash : T.Hash
  bip65Height : Nat
  bip66Height : Nat
  csvHeight : Nat
  segwitHeight : Nat
  /-- `IsMWEBEnabled` for the block after the chain. -/
  mwebEnabled : Chain T → Bool
  /-- The Taproot deployment is active for the block after the chain. -/
  taprootActive : Chain T → Bool
  /-- `CheckProofOfWork`. -/
  powValid : CBlockHeader T → Bool
  /-- `CheckSignetBlockSolution`, which reads transactions without witness; passed
  where there is no signet challenge. -/
  signetSolution : CBlockHeader T → List (CTransaction T) → Bool
  getBlockSubsidy : Nat → T.Hash → CAmount
  /-- Witnesses are only read under the rules of script hashes. -/
  bip16_le_segwit : bip16Height ≤ segwitHeight

def isWitnessEnabled (params : Params T) (chain : Chain T) : Bool :=
  if params.mainNetwork && decide (chain.nextHeight < params.bip65Height) then false
  else decide (params.segwitHeight ≤ chain.nextHeight)

end MooncoinFormal.Validation
