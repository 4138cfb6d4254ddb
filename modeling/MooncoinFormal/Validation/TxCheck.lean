import Mathlib
import MooncoinFormal.Library.Checks
import MooncoinFormal.Validation.Chain

/-!
# Checks of a transaction without the coins

`consensus/tx_check.cpp` and the first half of `consensus/tx_verify.cpp`: the
checks that need no context, lock times and the count of signature operations.
All of them read the part of a transaction that its hash commits to, except that
an attached extension block transaction brings its own lock height and peg-out
scripts.
-/

namespace MooncoinFormal.Validation

open Primitives Library.Checks List

variable {T : CryptoTypes} (crypto : BlockCrypto T) (params : Params T)

/-- The loop over the outputs of `CheckTransaction`. -/
def checkOutputs : List CTxOut → (nValueOut : CAmount) → Except String Unit
  | [], _ => .ok ()
  | txout :: rest, nValueOut => do
      ensure (0 ≤ txout.nValue) "bad-txns-vout-negative"
      ensure (txout.nValue ≤ maxMoney) "bad-txns-vout-toolarge"
      ensure (moneyRange (nValueOut + txout.nValue) = true) "bad-txns-txouttotal-toolarge"
      checkOutputs rest (nValueOut + txout.nValue)

theorem range_of_checkOutputs {outputs : List CTxOut} {nValueOut : CAmount}
    (passes : checkOutputs outputs nValueOut = .ok ()) :
    ∀ txout ∈ outputs, moneyRange txout.nValue = true := by
  induction outputs generalizing nValueOut with
  | nil => exact nofun
  | cons txout rest ih =>
    simp only [checkOutputs, bind_eq_ok, ensure_eq_ok] at passes
    obtain ⟨⟨⟩, low, ⟨⟩, high, ⟨⟩, -, passes⟩ := passes
    exact forall_mem_cons.mpr ⟨by simp [moneyRange, low, high], ih passes⟩

variable (tx : CTransaction T)

def coinbaseScript : CScript := (tx.vin.head?.map CTxIn.scriptSig).getD []

/-- The last check, on the coinbase script or on the prevouts. -/
def checkPrevouts : Except String Unit :=
  if tx.isCoinBase then
    ensure ((2 ≤ (coinbaseScript tx).length ∧ (coinbaseScript tx).length ≤ 100) ∨
      tx.getHash crypto ∈ params.legacyCoinbases) "bad-cb-length"
  else ensure (∀ txin ∈ tx.vin, txin.prevout.isNull = false) "bad-txns-prevout-null"

def checkTransaction : Except String Unit := do
  ensure (tx.isMwebOnly = true ∨ tx.vin ≠ []) "bad-txns-vin-empty"
  ensure (tx.isMwebOnly = true ∨ tx.vout ≠ []) "bad-txns-vout-empty"
  ensure (tx.strippedSize * CBlock.witnessScaleFactor ≤ CBlock.maxBlockWeight) "bad-txns-oversize"
  checkOutputs tx.vout 0
  ensure (tx.vin.map CTxIn.prevout).Nodup "bad-txns-inputs-duplicate"
  checkPrevouts crypto params tx

section

variable {tx : CTransaction T} (passes : checkTransaction crypto params tx = .ok ())
include passes

theorem nodup_of_checkTransaction : (tx.vin.map CTxIn.prevout).Nodup := by
  simp only [checkTransaction, bind_eq_ok, ensure_eq_ok] at passes
  obtain ⟨⟨⟩, -, ⟨⟩, -, ⟨⟩, -, ⟨⟩, -, ⟨⟩, nodup, -⟩ := passes
  exact nodup

theorem range_of_checkTransaction : ∀ txout ∈ tx.vout, moneyRange txout.nValue = true := by
  simp only [checkTransaction, bind_eq_ok, ensure_eq_ok] at passes
  obtain ⟨⟨⟩, -, ⟨⟩, -, ⟨⟩, -, ⟨⟩, outputs, -⟩ := passes
  exact range_of_checkOutputs outputs

theorem nonneg_of_checkTransaction : ∀ txout ∈ tx.vout, 0 ≤ txout.nValue.toInt :=
  fun txout member =>
    ((moneyRange_iff _).mp (range_of_checkTransaction crypto params passes txout member)).1

end

theorem length_le_sum_sizes {α : Type} {size : α → Nat} (some : ∀ item, 1 ≤ size item)
    (items : List α) : items.length ≤ (items.map size).sum := by
  have each := length_le_sum_of_one_le (items.map size) fun value member => by
    obtain ⟨item, -, rfl⟩ := mem_map.mp member
    exact some item
  rwa [length_map] at each

/-- The size that is checked bounds the numbers of inputs and of outputs. -/
theorem lengths_of_checkTransaction {tx : CTransaction T}
    (passes : checkTransaction crypto params tx = .ok ()) :
    tx.vin.length ≤ CBlock.maxBlockWeight ∧ tx.vout.length ≤ CBlock.maxBlockWeight := by
  simp only [checkTransaction, bind_eq_ok, ensure_eq_ok] at passes
  obtain ⟨⟨⟩, -, ⟨⟩, -, ⟨⟩, size, -⟩ := passes
  have inputs : tx.vin.length ≤ (tx.vin.map CTxIn.serializeSize).sum :=
    length_le_sum_sizes (fun txin => by unfold CTxIn.serializeSize; omega) tx.vin
  have outputs : tx.vout.length ≤ (tx.vout.map CTxOut.serializeSize).sum :=
    length_le_sum_sizes (fun txout => by unfold CTxOut.serializeSize; omega) tx.vout
  unfold CTransaction.strippedSize CBlock.witnessScaleFactor at size
  constructor <;> omega

def locktimeThreshold : Nat := 500000000

def sequenceFinal : UInt32 := 0xffffffff

/-- `MWEB::Tx::GetLockHeight`. -/
def mwebLockHeight : Int32 :=
  match tx.mwebTx with
  | none => 0
  | some mwebTx => mwebTx.body.getLockHeight

def isFinalTx (nBlockHeight nBlockTime : Nat) : Bool :=
  if (nBlockHeight : Int) < (mwebLockHeight tx).toInt then false
  else if tx.nLockTime = 0 then true
  else if tx.nLockTime.toNat <
      (if tx.nLockTime.toNat < locktimeThreshold then nBlockHeight else nBlockTime) then true
  else tx.vin.all fun txin => decide (txin.nSequence = sequenceFinal)

/-! ## Signature operations -/

/-- `MWEB::Tx::GetPegOuts`. -/
def mwebPegOuts : List Mweb.PegOutCoin :=
  match tx.mwebTx with
  | none => []
  | some mwebTx => mwebTx.body.getPegOuts

/-- The count over the inputs and outputs of the transaction. -/
def canonicalSigOpCount : Nat :=
  (tx.vin.map fun txin => CScript.getSigOpCount false txin.scriptSig).sum +
    (tx.vout.map fun txout => CScript.getSigOpCount false txout.scriptPubKey).sum

/-- `GetLegacySigOpCount`, with the scripts of attached peg-outs. -/
def getLegacySigOpCount : Nat :=
  canonicalSigOpCount tx +
    ((mwebPegOuts tx).map fun pegout => CScript.getSigOpCount false pegout.scriptPubKey).sum

section Stripped

variable {crypto params} {tx : CTransaction T}

theorem canonicalSigOpCount_stripped (tx : CTransaction T) :
    canonicalSigOpCount tx.stripped = canonicalSigOpCount tx := by
  rw [canonicalSigOpCount, canonicalSigOpCount, CTransaction.stripped_vout,
    tx.map_stripped_vin _ fun _ => rfl]

theorem getLegacySigOpCount_eq (plain : tx.mwebTx = none) :
    getLegacySigOpCount tx = canonicalSigOpCount tx := by
  simp [getLegacySigOpCount, mwebPegOuts, plain]

end Stripped

end MooncoinFormal.Validation
