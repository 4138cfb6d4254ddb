import Mathlib
import MooncoinFormal.Mweb.Crypto
import MooncoinFormal.Mweb.Mmr

/-!
# Validation of extension blocks

The checks of `mw/consensus`, `TxBody::Validate`, `mw::Block::Validate` and
`BlockValidator`: weights, order, duplicates, signatures and range proofs, the
kernel range, stealth sums, kernel sums, and the peg-ins and peg-outs that must
agree with the canonical block.
-/

namespace MooncoinFormal.Mweb

open Primitives Library.Checks Int64

variable {T : CryptoTypes} (crypto : Crypto T) (body : TxBody T)

namespace Weight

def bytesPerWeight : Nat := 42
def baseKernelWeight : Nat := 2
def stealthExcessWeight : Nat := 1
def baseOutputWeight : Nat := 17
def standardOutputFieldsWeight : Nat := 1
def maxNumInputs : Nat := 50000
def maxBlockWeight : Nat := 200000

def extraBytesToWeight (extraBytes : Nat) : Nat :=
  (extraBytes + (bytesPerWeight - 1)) / bytesPerWeight

def calcInputWeight (input : Input T) : Nat := extraBytesToWeight input.extraData.length

def calcKernelWeight (kernel : Kernel T) : Nat :=
  (if kernel.stealthExcess.isSome then baseKernelWeight + stealthExcessWeight
    else baseKernelWeight) +
    (kernel.pegouts.map fun pegout => extraBytesToWeight pegout.scriptPubKey.length).sum +
    extraBytesToWeight kernel.extraData.length

def calcOutputWeight (output : Output T) : Nat :=
  (if output.message.standardFields.isSome then baseOutputWeight + standardOutputFieldsWeight
    else baseOutputWeight) + extraBytesToWeight output.message.extraData.length

def calculate : Nat :=
  (body.inputs.map calcInputWeight).sum + (body.kernels.map calcKernelWeight).sum +
    (body.outputs.map calcOutputWeight).sum

def exceedsMaximum : Bool :=
  decide (maxNumInputs < body.inputs.length) || decide (maxBlockWeight < calculate body)

end Weight

/-- `std::is_sorted`. -/
def isSorted {α : Type} (less : α → α → Bool) : List α → Bool
  | first :: second :: rest => !less second first && isSorted less (second :: rest)
  | _ => true

def inputSort (a b : Input T) : Bool := decide (a.outputID < b.outputID)

def outputSort (a b : Output T) : Bool := decide (crypto.hashOutput a < crypto.hashOutput b)

def kernelSort (a b : Kernel T) : Bool :=
  decide (b.getSupplyChange < a.getSupplyChange) ||
    (decide (a.getSupplyChange = b.getSupplyChange) &&
      decide (crypto.hashKernel a < crypto.hashKernel b))

namespace TxBody

def getOutputIDs : List T.Hash := body.outputs.map crypto.hashOutput

def getKernelIDs : List T.Hash := body.kernels.map crypto.hashKernel

def getPegIns : List (PegInCoin T) :=
  body.kernels.filterMap fun kernel =>
    kernel.pegin.map fun amount => ⟨amount, crypto.hashKernel kernel⟩

def getInputCommits : List T.Point := body.inputs.map Input.commitment

def getOutputCommits : List T.Point := body.outputs.map Output.commitment

def getKernelCommits : List T.Point := body.kernels.map Kernel.excess

def signatures : List (SignedMessage T) :=
  body.kernels.map (Kernel.buildSignedMsg crypto) ++
    body.inputs.map (Input.buildSignedMsg crypto) ++
    body.outputs.map (Output.buildSignedMsg crypto)

def verifyProof (output : Output T) : Bool :=
  crypto.rangeProofVerify output.commitment output.rangeProof output.message

def validate : MwResult Unit := do
  ensure (Weight.exceedsMaximum body = false) (.validation .blockWeight)
  ensure (isSorted inputSort body.inputs = true ∧ isSorted (outputSort crypto) body.outputs = true ∧
    isSorted (kernelSort crypto) body.kernels = true) (.validation .notSorted)
  ensure body.getSpentIDs.Nodup (.validation .duplicates)
  ensure (body.getOutputIDs crypto).Nodup (.validation .duplicates)
  ensure (body.getKernelIDs crypto).Nodup (.validation .duplicates)
  ensure ((body.signatures crypto).all crypto.verify = true) (.validation .invalidSig)
  ensure (body.outputs.all (verifyProof crypto) = true) (.validation .bulletproof)

end TxBody

/-! ## Sums -/

/-- The sum of the outputs and inputs without the coins that were added. -/
def subtractCoins (sumUtxo : T.Point) (coinsAdded : CAmount) : MwResult T.Point :=
  if 0 < coinsAdded then
    addCommitments [sumUtxo] [crypto.commitTransparent coinsAdded.toInt.natAbs]
  else if coinsAdded < 0 then
    addCommitments [sumUtxo, crypto.commitTransparent coinsAdded.toInt.natAbs] []
  else .ok sumUtxo

def addOffset (sumExcess : T.Point) (offset : T.Scalar) : MwResult T.Point :=
  if offset = 0 then .ok sumExcess
  else addCommitments [sumExcess, crypto.commitBlinded offset] []

def validateSums (inputCommits outputCommits kernelCommits : List T.Point) (offset : T.Scalar)
    (coinsAdded : CAmount) : MwResult Unit := do
  let sumUtxo ← addCommitments outputCommits inputCommits
  let sumUtxo ← subtractCoins crypto sumUtxo coinsAdded
  let sumExcess ← addCommitments kernelCommits []
  let sumExcess ← addOffset crypto sumExcess offset
  ensure (sumUtxo = sumExcess) (.validation .blockSums)

def validateForBlock (totalOffset prevTotalOffset : T.Scalar) : MwResult Unit :=
  let blockOffset := if prevTotalOffset = 0 then totalOffset else totalOffset - prevTotalOffset
  validateSums crypto body.getInputCommits body.getOutputCommits body.getKernelCommits blockOffset
    body.getSupplyChange

def totalKey (keys : List T.Point) : MwResult T.Point :=
  if keys = [] then .ok 0 else addPublicKeys keys

/-- `StealthSumValidator::Validate`. -/
def validateStealthSums (stealthOffset : T.Scalar) (body : TxBody T) : MwResult Unit := do
  let lhsTotal ← totalKey
    (body.outputs.map Output.senderPubKey ++ body.inputs.filterMap Input.inputPubKey)
  let rhsTotal ← totalKey
    (body.getStealthExcesses ++ body.inputs.map Input.outputPubKey ++
      if stealthOffset = 0 then [] else [crypto.commitBlinded stealthOffset])
  ensure (lhsTotal = rhsTotal) (.validation .stealthSums)

/-- The root of the kernel range that `mw::Block::Validate` builds. -/
def kernelRoot (kernels : List (Kernel T)) : Option T.Hash := do
  let mmr ← kernels.foldlM (Mmr.MemMMR.add crypto.kernelMmr) Mmr.MemMMR.empty
  mmr.root crypto.kernelMmr T.zeroHash

namespace Block

def validate (block : Block T) : MwResult Unit := do
  ensure (block.header.numKernels = block.body.kernels.length) (.validation .mmrMismatch)
  block.body.validate crypto
  validateStealthSums crypto block.header.stealthOffset block.body
  ensure (kernelRoot crypto block.body.kernels = some block.header.kernelRoot)
    (.validation .mmrMismatch)

end Block

/-- The map of `ValidatePegInCoins`, in which the first amount of a kernel ID stays. -/
def pegInAmounts (coins : List (PegInCoin T)) : AList fun _ : T.Hash => CAmount :=
  coins.foldl (fun amounts coin =>
    if coin.kernelID ∈ amounts then amounts else amounts.insert coin.kernelID coin.amount) ∅

def validatePegInCoins (block : Block T) (pegInCoins : List (PegInCoin T)) : MwResult Unit := do
  let amounts := pegInAmounts pegInCoins
  ensure ((block.body.getPegIns crypto).length = amounts.entries.length)
    (.validation .peginMismatch)
  ensureAll (fun pegin => ensure (amounts.lookup pegin.kernelID = some pegin.amount)
    (.validation .peginMismatch)) (block.body.getPegIns crypto)

/-- The loop of `ValidatePegOutCoins`: each peg-out is taken out of the multiset. -/
def takePegOuts : (mwebPegouts hogexPegouts : List PegOutCoin) → MwResult Unit
  | [], _ => .ok ()
  | pegout :: rest, hogexPegouts =>
    if pegout ∈ hogexPegouts then takePegOuts rest (hogexPegouts.erase pegout)
    else .error (.validation .pegoutMismatch)

def validatePegOutCoins (block : Block T) (pegOutCoins : List PegOutCoin) : MwResult Unit := do
  ensure (block.body.getPegOuts.length = pegOutCoins.length) (.validation .pegoutMismatch)
  takePegOuts block.body.getPegOuts pegOutCoins

/-- `BlockValidator::ValidateBlock`, with the error it only logs. -/
def validateBlock (block : Block T) (pegInCoins : List (PegInCoin T))
    (pegOutCoins : List PegOutCoin) : MwResult Unit := do
  block.validate crypto
  validatePegInCoins crypto block pegInCoins
  validatePegOutCoins block pegOutCoins

/-! ## Sums in the group -/

section Sums

variable {crypto} {inputs outputs kernels : List T.Point} {offset : T.Scalar} {coinsAdded : CAmount}

theorem commitTransparent_of_pos (positive : 0 < coinsAdded) :
    crypto.commitTransparent coinsAdded.toInt.natAbs = coinsAdded.toInt • crypto.generatorH := by
  have sign : 0 < coinsAdded.toInt := lt_iff_toInt_lt.mp positive
  rw [Crypto.commitTransparent, ← natCast_zsmul, Int.natAbs_of_nonneg sign.le]

theorem commitTransparent_of_neg (negative : coinsAdded < 0) :
    crypto.commitTransparent coinsAdded.toInt.natAbs = -(coinsAdded.toInt • crypto.generatorH) := by
  have sign : coinsAdded.toInt < 0 := lt_iff_toInt_lt.mp negative
  rw [Crypto.commitTransparent, ← natCast_zsmul, Int.ofNat_natAbs_of_nonpos sign.le, neg_zsmul]

/-- What the outputs hold beyond the inputs and the coins that were added. -/
def netCommitment (crypto : Crypto T) (inputs outputs : List T.Point) (coinsAdded : CAmount) :
    T.Point :=
  outputs.sum - inputs.sum - coinsAdded.toInt • crypto.generatorH

theorem subtractCoins_ok {sumUtxo total : T.Point}
    (subtracted : subtractCoins crypto sumUtxo coinsAdded = .ok total) :
    total = sumUtxo - coinsAdded.toInt • crypto.generatorH := by
  unfold subtractCoins at subtracted
  split at subtracted
  · rename_i positive
    rw [addCommitments_ok subtracted, commitTransparent_of_pos positive]
    simp
  · split at subtracted
    · rename_i negative
      rw [addCommitments_ok subtracted, commitTransparent_of_neg negative]
      simp [sub_eq_add_neg]
    · rename_i notPositive notNegative
      have zero : coinsAdded.toInt = 0 := by
        rw [lt_iff_toInt_lt, toInt_zero] at notPositive notNegative
        omega
      cases subtracted
      rw [zero, zero_zsmul, sub_zero]

theorem subtractCoins_of_ne_zero {sumUtxo : T.Point}
    (nonzero : sumUtxo - coinsAdded.toInt • crypto.generatorH ≠ 0) :
    subtractCoins crypto sumUtxo coinsAdded =
      .ok (sumUtxo - coinsAdded.toInt • crypto.generatorH) := by
  cases result : subtractCoins crypto sumUtxo coinsAdded with
  | ok total => rw [subtractCoins_ok result]
  | error error =>
    exfalso
    unfold subtractCoins at result
    split at result
    · rename_i positive
      rw [addCommitments_of_ne_zero] at result
      · cases result
      · simpa [commitTransparent_of_pos positive] using nonzero
    · split at result
      · rename_i negative
        rw [addCommitments_of_ne_zero] at result
        · cases result
        · simpa [commitTransparent_of_neg negative, sub_eq_add_neg] using nonzero
      · cases result

theorem addOffset_ok {sumExcess total : T.Point}
    (added : addOffset crypto sumExcess offset = .ok total) :
    total = sumExcess + offset • crypto.generatorG := by
  unfold addOffset at added
  split at added
  · rename_i zero
    cases added
    rw [zero, zero_smul, add_zero]
  · rw [addCommitments_ok added]
    simp [Crypto.commitBlinded]

theorem addOffset_of_ne_zero {sumExcess : T.Point}
    (nonzero : sumExcess + offset • crypto.generatorG ≠ 0) :
    addOffset crypto sumExcess offset = .ok (sumExcess + offset • crypto.generatorG) := by
  unfold addOffset
  split
  · rename_i zero
    rw [zero, zero_smul, add_zero]
  · rw [addCommitments_of_ne_zero]
    · simp [Crypto.commitBlinded]
    · simpa [Crypto.commitBlinded] using nonzero

theorem validateSums_balance
    (valid : validateSums crypto inputs outputs kernels offset coinsAdded = .ok ()) :
    addCommitments kernels [] = .ok kernels.sum ∧
      netCommitment crypto inputs outputs coinsAdded = kernels.sum +
        offset • crypto.generatorG := by
  simp only [validateSums, bind_eq_ok, ensure_eq_ok] at valid
  obtain ⟨sumUtxo, utxo, total, coins, sumExcess, excess, _, shifted, rfl⟩ := valid
  have kernelSum : sumExcess = kernels.sum := by simpa using addCommitments_ok excess
  subst kernelSum
  refine ⟨excess, ?_⟩
  rw [netCommitment, ← addCommitments_ok utxo, ← subtractCoins_ok coins, addOffset_ok shifted]

theorem validateSums_of_balance (difference : outputs.sum - inputs.sum ≠ 0)
    (net : netCommitment crypto inputs outputs coinsAdded ≠ 0)
    (excess : addCommitments kernels [] = .ok kernels.sum)
    (balance : netCommitment crypto inputs outputs coinsAdded =
      kernels.sum + offset • crypto.generatorG) :
    validateSums crypto inputs outputs kernels offset coinsAdded = .ok () := by
  have coins := subtractCoins_of_ne_zero net
  have shifted : addOffset crypto kernels.sum offset = .ok _ := addOffset_of_ne_zero (balance ▸ net)
  simp only [validateSums, bind_eq_ok, ensure_eq_ok]
  exact ⟨_, addCommitments_of_ne_zero difference, _, coins, _, excess, _, shifted, balance⟩

end Sums

end MooncoinFormal.Mweb
