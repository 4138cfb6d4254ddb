import MooncoinFormal.Mweb.Models

/-!
# Transactions and blocks

`primitives/transaction.h` and `primitives/block.h`. The witness of an input,
the HogEx flag and the attached extension block transaction are part of a
transaction but not of its hash; `stripped` is the transaction that is hashed.
-/

namespace MooncoinFormal.Primitives

variable {T : CryptoTypes}

structure COutPoint (T : CryptoTypes) where
  hash : T.Hash
  n : UInt32
  deriving DecidableEq

namespace COutPoint

def nullIndex : UInt32 := 0xffffffff

def isNull (outpoint : COutPoint T) : Bool :=
  decide (outpoint.hash = T.zeroHash) && decide (outpoint.n = nullIndex)

end COutPoint

structure CTxIn (T : CryptoTypes) where
  prevout : COutPoint T
  scriptSig : CScript
  nSequence : UInt32
  /-- Only serialized through the transaction. -/
  scriptWitness : List (List UInt8)
  deriving DecidableEq

structure CTxOut where
  nValue : CAmount
  scriptPubKey : CScript
  deriving DecidableEq

def CTxOut.isNull (txout : CTxOut) : Bool := decide (txout.nValue = -1)

structure CTransaction (T : CryptoTypes) where
  vin : List (CTxIn T)
  vout : List CTxOut
  nVersion : Int32
  nLockTime : UInt32
  mwebTx : Option (Mweb.Transaction T)
  hogEx : Bool
  deriving DecidableEq

variable (tx : CTransaction T)

namespace CTransaction

def isCoinBase : Bool :=
  match tx.vin with
  | [txin] => txin.prevout.isNull
  | _ => false

def hasWitness : Bool :=
  tx.vin.any fun txin => decide (txin.scriptWitness ≠ [])

def hasMwebTx : Bool := tx.mwebTx.isSome

def isHogEx : Bool := tx.hogEx

def isMwebOnly : Bool :=
  tx.hasMwebTx && tx.vin.isEmpty && tx.vout.isEmpty

/-- The transaction without the data that `SERIALIZE_NO_MWEB` leaves out. -/
def withoutMweb : CTransaction T :=
  { tx with mwebTx := none, hogEx := false }

/-- The transaction without witness, flag and extension block transaction. -/
def stripped : CTransaction T :=
  { tx.withoutMweb with vin := tx.vin.map fun txin => { txin with scriptWitness := [] } }

/-- The loop of `GetValueOut`; `none` when it throws. -/
def valueOutLoop : List CTxOut → CAmount → Option CAmount
  | [], valueOut => if moneyRange valueOut then some valueOut else none
  | txout :: rest, valueOut =>
    if !moneyRange txout.nValue || !moneyRange (valueOut + txout.nValue) then none
    else valueOutLoop rest (valueOut + txout.nValue)

def getValueOut : Option CAmount := valueOutLoop tx.vout 0

end CTransaction

structure CBlockHeader (T : CryptoTypes) where
  nVersion : Int32
  hashPrevBlock : T.Hash
  hashMerkleRoot : T.Hash
  nTime : UInt32
  nBits : UInt32
  nNonce : UInt32
  deriving DecidableEq

structure CBlock (T : CryptoTypes) where
  header : CBlockHeader T
  vtx : List (CTransaction T)
  mwebBlock : Option (Mweb.Block T)
  deriving DecidableEq

/-! ## Serialized sizes -/

def sizeOfCompactSize (size : Nat) : Nat :=
  if size < 253 then 1 else if size ≤ 0xffff then 3 else if size ≤ 0xffffffff then 5 else 9

def sizeOfBytes (bytes : List UInt8) : Nat := sizeOfCompactSize bytes.length + bytes.length

/-- An outpoint of 36 bytes, the script and the sequence number. -/
def CTxIn.serializeSize (txin : CTxIn T) : Nat := 36 + sizeOfBytes txin.scriptSig + 4

def CTxOut.serializeSize (txout : CTxOut) : Nat := 8 + sizeOfBytes txout.scriptPubKey

namespace CTransaction

/-- The size without witness and without extension block data. -/
def strippedSize : Nat :=
  4 + (sizeOfCompactSize tx.vin.length + (tx.vin.map CTxIn.serializeSize).sum) +
    (sizeOfCompactSize tx.vout.length + (tx.vout.map CTxOut.serializeSize).sum) + 4

/-- What the witness adds: marker, flag and the stacks of all inputs. -/
def witnessSize : Nat :=
  if tx.hasWitness then
    2 + (tx.vin.map fun txin =>
      sizeOfCompactSize txin.scriptWitness.length + (txin.scriptWitness.map sizeOfBytes).sum).sum
  else 0

end CTransaction

namespace CBlock

def maxBlockWeight : Nat := 4000000
def maxBlockSigopsCost : Nat := 80000
def witnessScaleFactor : Nat := 4

variable (block : CBlock T)

/-- The size of the block without witnesses and extension block data. -/
def strippedSize : Nat :=
  80 + sizeOfCompactSize block.vtx.length + (block.vtx.map CTransaction.strippedSize).sum

/-- The size of the block without extension block data. -/
def sizeWithWitness : Nat :=
  block.strippedSize + (block.vtx.map CTransaction.witnessSize).sum

def getBlockWeight : Nat :=
  block.strippedSize * (witnessScaleFactor - 1) + block.sizeWithWitness

/-- The integrating transaction, if the block has one. -/
def getHogEx : Option (CTransaction T) :=
  match block.vtx.getLast? with
  | some tx => if 2 ≤ block.vtx.length ∧ tx.isHogEx then some tx else none
  | none => none

end CBlock

namespace CTransaction

@[simp] theorem stripped_vout : tx.stripped.vout = tx.vout := rfl

theorem map_stripped_vin {β : Type} (read : CTxIn T → β)
    (ignores : ∀ txin : CTxIn T, read { txin with scriptWitness := [] } = read txin) :
    tx.stripped.vin.map read = tx.vin.map read := by
  simp [stripped, ignores, Function.comp_def]

theorem isMwebOnly_eq_false {tx : CTransaction T} (canonical : tx.vin ≠ []) :
    tx.isMwebOnly = false := by
  simp [isMwebOnly, List.isEmpty_eq_false_iff.mpr canonical]

theorem isCoinBase_stripped : tx.stripped.isCoinBase = tx.isCoinBase := by
  cases tx with
  | mk vin vout nVersion nLockTime mwebTx hogEx =>
    match vin with
    | [] => rfl
    | [_] => rfl
    | _ :: _ :: _ => rfl

end CTransaction

end MooncoinFormal.Primitives
