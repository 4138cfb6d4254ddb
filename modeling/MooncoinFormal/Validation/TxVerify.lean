import MooncoinFormal.Coins.Update
import MooncoinFormal.Validation.TxCheck

/-!
# Checks of a transaction with the coins it spends

The second half of `consensus/tx_verify.cpp`: relative lock times, the cost of
signature operations, and the checks of inputs and amounts. The execution of
scripts is a parameter.
-/

namespace MooncoinFormal.Validation

open Primitives Coins Library.Checks

variable {T : CryptoTypes} (chain : Chain T)

/-- One turn of the loop of `CalculateSequenceLocks`, on the last invalid height
and the last invalid time. -/
def sequenceLockStep (lockPair : Int × Int) (entry : CTxIn T × Nat) : Int × Int :=
  if entry.1.nSequence &&& 0x80000000 ≠ 0 then lockPair
  else if entry.1.nSequence &&& 0x00400000 ≠ 0 then
    (lockPair.1, max lockPair.2
      ((chain.getAncestor (entry.2 - 1)).getMedianTimePast +
        (entry.1.nSequence &&& 0xffff).toNat * 2 ^ 9 - 1))
  else (max lockPair.1 (entry.2 + (entry.1.nSequence &&& 0xffff).toNat - 1), lockPair.2)

/-- `CalculateSequenceLocks`; `verifySequence` is the flag of the same name. -/
def calculateSequenceLocks (verifySequence : Bool) (tx : CTransaction T) (prevHeights : List Nat) :
    Int × Int :=
  if 2 ≤ tx.nVersion.toUInt32 ∧ verifySequence then
    (tx.vin.zip prevHeights).foldl (sequenceLockStep chain) (-1, -1)
  else (-1, -1)

def sequenceLocks (verifySequence : Bool) (tx : CTransaction T) (prevHeights : List Nat) : Bool :=
  let lockPair := calculateSequenceLocks chain verifySequence tx prevHeights
  decide (lockPair.1 < chain.nextHeight) && decide (lockPair.2 < chain.getMedianTimePast)

/-- The flags that `GetBlockScriptFlags` can set; those for witnesses and for null
dummies are set together. -/
structure ScriptFlags where
  p2sh : Bool
  dersig : Bool
  checkLockTimeVerify : Bool
  checkSequenceVerify : Bool
  taproot : Bool
  witness : Bool

/-- `GetBlockScriptFlags` for the block after a chain. -/
def getBlockScriptFlags (params : Params T) (chain : Chain T) : ScriptFlags where
  p2sh := decide (params.bip16Height ≤ chain.nextHeight)
  dersig := decide (params.bip66Height ≤ chain.nextHeight)
  checkLockTimeVerify := decide (params.bip65Height ≤ chain.nextHeight)
  checkSequenceVerify := decide (params.csvHeight ≤ chain.nextHeight)
  taproot := params.taprootActive chain
  witness := isWitnessEnabled params chain

/-- `CheckInputScripts` of a transaction with the outputs it spends. A signature
never covers extension block data, and witnesses are not read without their flag. -/
structure ScriptEngine (T : CryptoTypes) where
  checkInputScripts : ScriptFlags → CTransaction T → List CTxOut → Bool
  checkInputScripts_withoutMweb : ∀ flags tx outputs,
    checkInputScripts flags tx.withoutMweb outputs = checkInputScripts flags tx outputs
  checkInputScripts_stripped : ∀ flags tx outputs, flags.witness = false →
    checkInputScripts flags tx.stripped outputs = checkInputScripts flags tx outputs

variable (view : CCoinsViewCache T) (tx : CTransaction T)

/-- The outputs that the inputs of a transaction spend; a missing one is null. -/
def spentOutputs : List CTxOut :=
  tx.vin.map fun txin => ((view.getCoin txin.prevout).getD Coin.cleared).out

def getP2SHSigOpCount (outputs : List CTxOut) : Nat :=
  ((tx.vin.zip outputs).map fun entry =>
    if entry.2.scriptPubKey.isPayToScriptHash then
      CScript.getSigOpCountOf entry.2.scriptPubKey entry.1.scriptSig
    else 0).sum

def countWitnessSigOps (tx : CTransaction T) (outputs : List CTxOut) : Nat :=
  ((tx.vin.zip outputs).map fun entry =>
    CScript.countWitnessSigOps entry.1.scriptSig entry.2.scriptPubKey entry.1.scriptWitness).sum

def getTransactionSigOpCost (flags : ScriptFlags) (tx : CTransaction T)
    (outputs : List CTxOut) : Nat :=
  let legacy := getLegacySigOpCount tx * CBlock.witnessScaleFactor
  if tx.isCoinBase then legacy
  else
    legacy + (if flags.p2sh then getP2SHSigOpCount tx outputs * CBlock.witnessScaleFactor else 0) +
      (if flags.witness then countWitnessSigOps tx outputs else 0)

/-! ## Inputs and amounts -/

/-- The reject reason of a transaction, or a failed assertion. -/
inductive TxError where
  | invalid (reason : String)
  | assertion

def coinbaseMaturity : Int := 30
def pegoutMaturity : Int := 6

/-- A coin that is mature at the height where it is spent. -/
def checkMature (nSpendHeight : Nat) (coin : Coin) : Except TxError Unit := do
  ensure (¬ (coin.fCoinBase = true ∧ (nSpendHeight : Int) - coin.nHeight.toNat < coinbaseMaturity))
    (.invalid "bad-txns-premature-spend-of-coinbase")
  ensure (¬ (coin.fPegout = true ∧ (nSpendHeight : Int) - coin.nHeight.toNat < pegoutMaturity))
    (.invalid "bad-txns-premature-spend-of-pegout")

/-- The loop of `CheckTxInputs` over the inputs. -/
def checkInputs (view : CCoinsViewCache T) (nSpendHeight : Nat) :
    List (CTxIn T) → (nValueIn : CAmount) → Except TxError CAmount
  | [], nValueIn => .ok nValueIn
  | txin :: rest, nValueIn =>
    match view.getCoin txin.prevout with
    | none => .error .assertion
    | some coin => do
        checkMature nSpendHeight coin
        ensure (moneyRange coin.out.nValue = true ∧ moneyRange (nValueIn + coin.out.nValue) = true)
          (.invalid "bad-txns-inputvalues-outofrange")
        checkInputs view nSpendHeight rest (nValueIn + coin.out.nValue)

/-- An input of an attached extension block transaction names a coin and repeats its
commitment and key. -/
def checkMwebInput (input : Mweb.Input T) : Except TxError Unit :=
  match view.getMwebCoin input.outputID with
  | none => .error (.invalid "bad-txns-inputs-missing")
  | some utxo =>
    ensure (utxo.receiverPubKey = input.outputPubKey ∧ utxo.commitment = input.commitment)
      (.invalid "bad-txns-input-mismatch")

/-- The part of `CheckTxInputs` for an attached extension block transaction. -/
def checkMwebInputs (txfee : CAmount) : Except TxError CAmount :=
  match tx.mwebTx with
  | none => .ok txfee
  | some mwebTx => do
      ensureAll (checkMwebInput view) mwebTx.body.inputs
      ensure (moneyRange mwebTx.body.getTotalFee = true ∧
        moneyRange (txfee + mwebTx.body.getTotalFee) = true)
          (.invalid "bad-txns-mwebfee-outofrange")
      .ok (txfee + mwebTx.body.getTotalFee)

/-- The outpoints and the output IDs that a transaction spends are all known. -/
def haveInputs : Bool :=
  tx.vin.all (fun txin => view.haveCoin txin.prevout) &&
    ((tx.mwebTx.map fun mwebTx => mwebTx.body.getSpentIDs).getD []).all fun outputId =>
      (view.getMwebCoin outputId).isSome

/-- The amounts of `CheckTxInputs`: inputs cover outputs, and the difference is the
fee. -/
def checkAmounts (nValueIn : CAmount) : Except TxError CAmount :=
  match tx.getValueOut with
  | none => .error .assertion
  | some valueOut => do
      ensure (valueOut ≤ nValueIn) (.invalid "bad-txns-in-belowout")
      ensure (moneyRange (nValueIn - valueOut) = true) (.invalid "bad-txns-fee-outofrange")
      .ok (nValueIn - valueOut)

/-- `Consensus::CheckTxInputs`, with the fee. -/
def checkTxInputs (nSpendHeight : Nat) (tx : CTransaction T) : Except TxError CAmount := do
  ensure (haveInputs view tx = true) (.invalid "bad-txns-inputs-missingorspent")
  let nValueIn ← checkInputs view nSpendHeight tx.vin 0
  let txfee ← checkAmounts tx nValueIn
  checkMwebInputs view tx txfee

end MooncoinFormal.Validation
