import MooncoinFormal.Primitives.Amount
import MooncoinFormal.Primitives.CryptoTypes
import MooncoinFormal.Primitives.Script

/-!
# Models of the extension block

The classes of `mw/models`: inputs, outputs, kernels, transaction bodies,
headers and blocks. An optional field is present exactly when its feature bit
is set, which is how the objects are read; the vectors of a kernel may be empty
although their bit is set. Hashes stored with an object are functions of it and
are not fields here.
-/

namespace MooncoinFormal.Mweb

open Primitives Int64 List

variable {T : CryptoTypes}

/-- Whether the bit of weight `2 ^ bit` is set in a feature byte. -/
def hasFeature (features : UInt8) (bit : Nat) : Bool :=
  features.toNat.testBit bit

/-- `Input`: the commitment and the key are those "of the output being spent". -/
structure Input (T : CryptoTypes) where
  features : UInt8
  outputID : T.Hash
  commitment : T.Point
  inputPubKey : Option T.Point
  outputPubKey : T.Point
  extraData : List UInt8
  signature : T.Signature
  stealthKey_iff : inputPubKey.isSome = hasFeature features 0
  extraData_of : extraData ≠ [] → hasFeature features 1 = true
  deriving DecidableEq

/-- The fields of an output message behind `STANDARD_FIELDS_FEATURE_BIT`. -/
structure StandardFields (T : CryptoTypes) where
  keyExchangePubKey : T.Point
  viewTag : UInt8
  maskedValue : UInt64
  maskedNonce : BitVec 128
  deriving DecidableEq

structure OutputMessage (T : CryptoTypes) where
  features : UInt8
  standardFields : Option (StandardFields T)
  extraData : List UInt8
  standardFields_iff : standardFields.isSome = hasFeature features 0
  extraData_of : extraData ≠ [] → hasFeature features 1 = true
  deriving DecidableEq

structure Output (T : CryptoTypes) where
  commitment : T.Point
  senderPubKey : T.Point
  receiverPubKey : T.Point
  message : OutputMessage T
  rangeProof : T.RangeProof
  signature : T.Signature
  deriving DecidableEq

/-! ## Kernels -/

structure PegInCoin (T : CryptoTypes) where
  amount : CAmount
  kernelID : T.Hash
  deriving DecidableEq

instance (T : CryptoTypes) : LawfulBEq (PegInCoin T) := inferInstance

structure PegOutCoin where
  amount : CAmount
  scriptPubKey : CScript
  deriving DecidableEq

structure Kernel (T : CryptoTypes) where
  features : UInt8
  fee : Option CAmount
  pegin : Option CAmount
  pegouts : List PegOutCoin
  lockHeight : Option Int32
  stealthExcess : Option T.Point
  extraData : List UInt8
  excess : T.Point
  signature : T.Signature
  fee_iff : fee.isSome = hasFeature features 0
  pegin_iff : pegin.isSome = hasFeature features 1
  pegouts_of : pegouts ≠ [] → hasFeature features 2 = true
  lockHeight_iff : lockHeight.isSome = hasFeature features 3
  stealthExcess_iff : stealthExcess.isSome = hasFeature features 4
  extraData_of : extraData ≠ [] → hasFeature features 5 = true
  deriving DecidableEq

variable (amounts : List CAmount)

/-- `std::accumulate` over amounts, in 64-bit arithmetic. -/
def accumulate : CAmount :=
  amounts.foldl (· + ·) 0

theorem accumulate_ofInt {α : Type} (items : List α) (value : α → Int) :
    accumulate (items.map fun item => ofInt (value item)) = ofInt (items.map value).sum := by
  have from_start : ∀ start : Int,
      (items.map fun item => ofInt (value item)).foldl (· + ·) (ofInt start) =
        ofInt (start + (items.map value).sum) := by
    induction items with
    | nil => simp
    | cons item rest ih =>
      intro start
      rw [map_cons, foldl_cons, ← ofInt_add, ih, map_cons, sum_cons, add_assoc]
  rw [accumulate, ← zero_add (items.map value).sum]
  exact from_start 0

def amountTotal : Int := (amounts.map toInt).sum

theorem accumulate_eq : accumulate amounts = ofInt (amountTotal amounts) := by
  have sum := accumulate_ofInt amounts toInt
  simpa only [ofInt_toInt, map_id', amountTotal] using sum

theorem accumulate_append (others : List CAmount) :
    accumulate (amounts ++ others) = accumulate amounts + accumulate others := by
  simp only [accumulate_eq, amountTotal, map_append, sum_append, ofInt_add]

theorem accumulate_cons (amount : CAmount) :
    accumulate (amount :: amounts) = amount + accumulate amounts := by
  have first : accumulate [amount] = amount := Int64.zero_add amount
  rw [← singleton_append, accumulate_append, first]

theorem amountTotal_nonneg {amounts : List CAmount}
    (ranges : ∀ amount ∈ amounts, moneyRange amount = true) : 0 ≤ amountTotal amounts :=
  sum_nonneg (forall_mem_map.mpr fun amount member =>
    ((moneyRange_iff _).mp (ranges amount member)).1)

/-- Every running sum from a start is in the money range. -/
def StaysInRange (start : CAmount) (amounts : List CAmount) : Prop :=
  ∀ count, moneyRange ((amounts.take count).foldl (· + ·) start) = true

namespace StaysInRange

variable {start : CAmount} {amounts}

theorem nil_iff : StaysInRange start [] ↔ moneyRange start = true := by
  simp [StaysInRange]

theorem cons_iff {amount : CAmount} : StaysInRange start (amount :: amounts) ↔
    moneyRange start = true ∧ StaysInRange (start + amount) amounts := by
  constructor
  · intro stays
    exact ⟨stays 0, fun count => stays (count + 1)⟩
  · rintro ⟨range, stays⟩ count
    cases count with
    | zero => exact range
    | succ count => exact stays count

theorem range (stays : StaysInRange start amounts) :
    moneyRange (amounts.foldl (· + ·) start) = true := by
  have whole := stays amounts.length
  rwa [take_length] at whole

theorem toInt_foldl (stays : StaysInRange start amounts) :
    (amounts.foldl (· + ·) start).toInt = start.toInt + amountTotal amounts := by
  induction amounts generalizing start with
  | nil => simp [amountTotal]
  | cons amount rest ih =>
    obtain ⟨range, later⟩ := cons_iff.mp stays
    rw [foldl_cons, ih later, toInt_add_of_moneyRange range (later 0)]
    simp only [amountTotal, map_cons, sum_cons]
    omega

theorem of_le (range : moneyRange start = true)
    (ranges : ∀ amount ∈ amounts, moneyRange amount = true)
    (bound : start.toInt + amountTotal amounts ≤ maxMoney.toInt) : StaysInRange start amounts := by
  induction amounts generalizing start with
  | nil => exact nil_iff.mpr range
  | cons amount rest ih =>
    obtain ⟨first, others⟩ := forall_mem_cons.mp ranges
    have nonneg := amountTotal_nonneg others
    have low := (moneyRange_iff _).mp range
    rw [moneyRange_iff] at first
    rw [amountTotal, map_cons, sum_cons, ← amountTotal, maxMoney_toInt] at bound
    have sum : (start + amount).toInt = start.toInt + amount.toInt := by
      rw [toInt_add, Int.bmod_eq_of_le] <;> omega
    refine cons_iff.mpr ⟨range, ih ?_ others ?_⟩
    · rw [moneyRange_iff, sum]
      omega
    · rw [sum, maxMoney_toInt]
      omega

end StaysInRange

variable (kernel : Kernel T)

namespace Kernel

def getFee : CAmount := kernel.fee.getD 0

def getLockHeight : Int32 := kernel.lockHeight.getD 0

def getPegIn : CAmount := kernel.pegin.getD 0

def getPegOutAmount : CAmount :=
  accumulate (kernel.pegouts.map PegOutCoin.amount)

def getSupplyChange : CAmount :=
  (kernel.pegin.getD 0 - kernel.fee.getD 0) - kernel.getPegOutAmount

/-- What the bytes of a kernel say about it, when its amounts are not negative: an announced vector
that is empty is left out of them, and what follows it is read as something else. -/
structure Alike (kernel other : Kernel T) : Prop where
  excess : kernel.excess = other.excess
  fee : 0 ≤ kernel.getFee.toInt → 0 ≤ other.getFee.toInt → kernel.getFee = other.getFee
  pegin : kernel.getFee = other.getFee → 0 ≤ kernel.getPegIn.toInt → 0 ≤ other.getPegIn.toInt →
    kernel.getPegIn = other.getPegIn

end Kernel

structure TxBody (T : CryptoTypes) where
  inputs : List (Input T)
  outputs : List (Output T)
  kernels : List (Kernel T)
  deriving DecidableEq

variable (body : TxBody T)

namespace TxBody

def getTotalFee : CAmount :=
  accumulate (body.kernels.map Kernel.getFee)

def getPegInAmount : CAmount :=
  accumulate (body.kernels.map Kernel.getPegIn)

def getPegOuts : List PegOutCoin :=
  body.kernels.flatMap Kernel.pegouts

def getSupplyChange (body : TxBody T) : CAmount :=
  accumulate (body.kernels.map Kernel.getSupplyChange)

/-- The largest lock height of a kernel, from zero up. -/
def getLockHeight (body : TxBody T) : Int32 :=
  (body.kernels.map Kernel.getLockHeight).foldl max 0

def getSpentIDs : List T.Hash := body.inputs.map Input.outputID

def getStealthExcesses : List T.Point :=
  body.kernels.filterMap Kernel.stealthExcess

end TxBody

structure Header (T : CryptoTypes) where
  height : Int32
  outputRoot : T.Hash
  kernelRoot : T.Hash
  leafsetRoot : T.Hash
  kernelOffset : T.Scalar
  stealthOffset : T.Scalar
  numTXOs : Nat
  numKernels : Nat
  deriving DecidableEq

structure Block (T : CryptoTypes) where
  header : Header T
  body : TxBody T
  deriving DecidableEq

/-- `mw::Transaction`: a loose transaction with its own offsets. -/
structure Transaction (T : CryptoTypes) where
  kernelOffset : T.Scalar
  stealthOffset : T.Scalar
  body : TxBody T
  deriving DecidableEq

inductive ConsensusError where
  | hashMismatch
  | duplicates
  | blockWeight
  | blockSums
  | stealthSums
  | invalidSig
  | bulletproof
  | peginMismatch
  | pegoutMismatch
  | mmrMismatch
  | utxoMissing
  | utxoMismatch
  | notSorted
  | badState
  deriving DecidableEq, Repr

/-- What the extension block code throws, or a failed assertion. -/
inductive MwError where
  | validation (error : ConsensusError)
  | crypto (message : String)
  | assertion
  deriving DecidableEq, Repr

end MooncoinFormal.Mweb
