import MooncoinFormal.Coins.Update
import MooncoinFormal.Compressor.Script

/-!
# Undo data on disk

`undo.h` and the functions of `validation.cpp` that write and read the undo data of
a block. A spent coin is written as its height, the coinbase flag, a dummy for old
readers and the compressed output; the flag of peg-outs is not written. Whether
undo data of the extension block follows is told from the size that the part read
so far would have when written again.
-/

namespace MooncoinFormal.Coins

open Primitives Serialize Compressor Library.Codec List Option

variable {T : CryptoTypes}

/-- `TxInUndoFormatter::Ser`. -/
def writeTxInUndo (keys : PubKeys) (coin : Coin) : List UInt8 :=
  writeVarInt (coin.nHeight.toNat * 2 + coin.fCoinBase.toNat) ++
    ((if 0 < coin.nHeight.toNat then [0] else []) ++ writeTxOut keys coin.out)

/-- The dummy that old versions used for the version of the transaction. -/
def readVersionDummy (nHeight : Nat) : Reader Unit :=
  if 0 < nHeight then do
    let _ ← readVarInt maxUInt32
    return ()
  else return ()

/-- `TxInUndoFormatter::Unser`, into a new coin. -/
def readTxInUndo (keys : PubKeys) : Reader Coin := do
  let nCode ← readVarInt maxUInt32
  readVersionDummy (nCode / 2)
  let out ← readTxOut keys
  return ⟨out, decide (nCode % 2 = 1), BitVec.ofNat 31 (nCode / 2), false⟩

structure CBlockUndo (T : CryptoTypes) where
  vtxundo : List (List Coin)
  mwundo : Option (Mweb.BlockUndo T)

/-- What the format takes from elsewhere: the curve, the bytes of the extension
block's undo data and the checksum, which is a hash of 32 bytes. -/
structure UndoFormat (T : CryptoTypes) where
  keys : PubKeys
  writeMweb : Mweb.BlockUndo T → List UInt8
  readMweb : Reader (Mweb.BlockUndo T)
  checksum : T.Hash → List UInt8 → List UInt8
  checksum_length : ∀ hashBlock bytes, (checksum hashBlock bytes).length = 32

variable (format : UndoFormat T) (vtxundo : List (List Coin))

def writeTxUndos : List UInt8 :=
  writeVector (writeVector (writeTxInUndo format.keys)) vtxundo

def CBlockUndo.serialize (undo : CBlockUndo T) : List UInt8 :=
  writeTxUndos format undo.vtxundo ++ (undo.mwundo.map format.writeMweb).getD []

/-- The undo data of the extension block, when there is more to read. -/
def readMwebUndo (numBytes : Nat) (vtxundo : List (List Coin)) : Reader (CBlockUndo T) :=
  if (writeTxUndos format vtxundo).length < numBytes then do
    let mwundo ← format.readMweb
    return ⟨vtxundo, some mwundo⟩
  else return ⟨vtxundo, none⟩

def unserializeBlockUndo (numBytes : Nat) : Reader (CBlockUndo T) := do
  let vtxundo ← readVector (readVector (readTxInUndo format.keys))
  readMwebUndo format numBytes vtxundo

/-- The size of the undo data, as the `unsigned int` it is written and passed as. -/
def CBlockUndo.numBytes (undo : CBlockUndo T) : Nat := (undo.serialize format).length % 2 ^ 32

/-- `UndoWriteToDisk`: the size that is written before, and the bytes from the
recorded position on. -/
def undoWriteToDisk (hashBlock : T.Hash) (undo : CBlockUndo T) : Nat × List UInt8 :=
  let bytes := undo.serialize format
  (undo.numBytes format, bytes ++ format.checksum hashBlock bytes)

/-- `UndoReadFromDisk`: the checksum is that of the bytes that were read. -/
def undoReadFromDisk (hashBlock : T.Hash) (undoSize : Nat) (file : List UInt8) :
    Option (CBlockUndo T) :=
  match (unserializeBlockUndo format undoSize).run file with
  | none => none
  | some (undo, rest) =>
    match (readBytes 32).run rest with
    | none => none
    | some (hashChecksum, _) =>
      if hashChecksum = format.checksum hashBlock (file.take (file.length - rest.length)) then
        some undo
      else none

/-! ## What is read back -/

/-- A coin after it was written as undo data and read. -/
def Coin.recoded (coin : Coin) : Coin :=
  { coin with
    out := { coin.out with nValue := recodedAmount coin.out.nValue }
    fPegout := false }

section Reading

variable {keys : PubKeys} {coin : Coin}

theorem Coin.Valid.scriptSize (valid : coin.Valid) :
    coin.out.scriptPubKey.length ≤ CScript.maxScriptSize := by
  have spendable := valid.spendable
  simp only [CScript.isUnspendable, Bool.or_eq_false_iff, decide_eq_false_iff_not] at spendable
  omega

theorem reads_readVersionDummy (nHeight : Nat) :
    Reads (readVersionDummy nHeight) (if 0 < nHeight then [0] else []) () := by
  unfold readVersionDummy
  split
  · have dummy : Reads (readVarInt maxUInt32) (writeVarInt 0) 0 :=
      reads_readVarInt (Nat.zero_le _) (Nat.zero_le _)
    exact dummy.last (Reads.pure ())
  · exact Reads.pure ()

/-- The code of the height and the coinbase flag fits in a word, and both can be read
from it. -/
theorem heightCode (coin : Coin) :
    coin.nHeight.toNat * 2 + coin.fCoinBase.toNat ≤ maxUInt32 ∧
      (coin.nHeight.toNat * 2 + coin.fCoinBase.toNat) / 2 = coin.nHeight.toNat ∧
      decide ((coin.nHeight.toNat * 2 + coin.fCoinBase.toNat) % 2 = 1) = coin.fCoinBase := by
  have flag : coin.fCoinBase.toNat ≤ 1 := Bool.toNat_le _
  unfold maxUInt32
  refine ⟨by omega, by omega, ?_⟩
  cases coin.fCoinBase <;> simp

theorem reads_readTxInUndo (valid : coin.Valid) :
    Reads (readTxInUndo keys) (writeTxInUndo keys coin) coin.recoded := by
  obtain ⟨fits, half, low⟩ := heightCode coin
  refine (reads_readVarInt fits (le_trans fits (by decide))).bind ?_
  rw [half, low, BitVec.ofNat_toNat, BitVec.setWidth_eq]
  exact (reads_readVersionDummy _).bind ((reads_readTxOut valid.scriptSize).last (Reads.pure _))

theorem writeTxInUndo_recoded (kept : recodedAmount coin.out.nValue = coin.out.nValue) :
    writeTxInUndo keys coin.recoded = writeTxInUndo keys coin := by
  have out : coin.recoded.out = coin.out := by
    show (⟨recodedAmount coin.out.nValue, coin.out.scriptPubKey⟩ : CTxOut) = coin.out
    rw [kept]
  rw [writeTxInUndo, writeTxInUndo, out]
  rfl

end Reading

/-- Undo data of a block: valid coins, in lists of a size that can be read. -/
structure ValidUndos : Prop where
  txs : vtxundo.length ≤ maxSize
  inputs : ∀ txundo ∈ vtxundo, txundo.length ≤ maxSize
  coins : ∀ txundo ∈ vtxundo, ∀ coin ∈ txundo, coin.Valid

section Disk

variable {format} {hashBlock : T.Hash} {undo undo' : CBlockUndo T}

theorem ValidUndos.reads {vtxundo : List (List Coin)} (valid : ValidUndos vtxundo) :
    Reads (readVector (readVector (readTxInUndo format.keys))) (writeTxUndos format vtxundo)
      (vtxundo.map (map Coin.recoded)) :=
  reads_readVector valid.txs fun txundo member =>
    reads_readVector (valid.inputs txundo member) fun coin inside =>
      reads_readTxInUndo (valid.coins txundo member coin inside)

/-- The transaction part that is read does not depend on where reading stops. -/
theorem vtxundo_of_undoReadFromDisk (valid : ValidUndos undo.vtxundo) (rest : List UInt8)
    (read : undoReadFromDisk format hashBlock (undoWriteToDisk format hashBlock undo).1
      ((undoWriteToDisk format hashBlock undo).2 ++ rest) = some undo') :
    undo'.vtxundo = undo.vtxundo.map (map Coin.recoded) := by
  have first : ∀ numBytes later,
      (unserializeBlockUndo format numBytes).run (writeTxUndos format undo.vtxundo ++ later) =
        (readMwebUndo format numBytes (undo.vtxundo.map (map Coin.recoded))).run later := by
    intro numBytes later
    rw [unserializeBlockUndo, StateT.run_bind, valid.reads]
    rfl
  have kept : ∀ numBytes (vtxundo : List (List Coin)) (bytes : List UInt8) result left,
      (readMwebUndo format numBytes vtxundo).run bytes = some (result, left) →
        result.vtxundo = vtxundo := by
    intro numBytes vtxundo bytes result left run
    unfold readMwebUndo at run
    split at run
    · rw [StateT.run_bind] at run
      obtain ⟨⟨mwundo, after⟩, -, done⟩ := bind_eq_some_iff.mp run
      cases done
      rfl
    · cases run
      rfl
  simp only [undoReadFromDisk, undoWriteToDisk, CBlockUndo.serialize, append_assoc, first] at read
  split at read
  · cases read
  rename_i result left run
  split at read
  · cases read
  · split at read
    · cases read
      exact kept _ _ _ _ _ run
    · cases read

/-- Undo data whose amounts survive and whose size tells that there is undo data of the extension
block is read back, but for the flag of peg-outs. -/
theorem undoReadFromDisk_undoWriteToDisk (valid : ValidUndos undo.vtxundo)
    (kept : ∀ txundo ∈ undo.vtxundo, ∀ coin ∈ txundo,
      recodedAmount coin.out.nValue = coin.out.nValue) (mweb : ∀ mwundo, undo.mwundo = some mwundo →
      Reads format.readMweb (format.writeMweb mwundo) mwundo)
    (announced : undo.mwundo ≠ none →
      (writeTxUndos format undo.vtxundo).length < undo.numBytes format) (rest : List UInt8) :
    undoReadFromDisk format hashBlock (undoWriteToDisk format hashBlock undo).1
        ((undoWriteToDisk format hashBlock undo).2 ++ rest) =
      some ⟨undo.vtxundo.map (map Coin.recoded), undo.mwundo⟩ := by
  have size : writeTxUndos format (undo.vtxundo.map (map Coin.recoded)) =
      writeTxUndos format undo.vtxundo :=
    writeVector_map fun txundo member =>
      writeVector_map fun coin inside => writeTxInUndo_recoded (kept txundo member coin inside)
  have reads : Reads (unserializeBlockUndo format (undo.numBytes format))
      (undo.serialize format) ⟨undo.vtxundo.map (map Coin.recoded), undo.mwundo⟩ := by
    refine valid.reads.bind ?_
    unfold readMwebUndo
    rw [size]
    cases present : undo.mwundo with
    | none =>
      have whole : undo.serialize format = writeTxUndos format undo.vtxundo := by
        simp [CBlockUndo.serialize, present]
      rw [if_neg (by rw [CBlockUndo.numBytes, whole]; exact not_lt.mpr (Nat.mod_le _ _))]
      exact Reads.pure _
    | some mwundo =>
      rw [if_pos (announced (by simp [present]))]
      exact (mweb mwundo present).last (Reads.pure _)
  have checksum := reads_readBytes (format.checksum hashBlock (undo.serialize format))
  rw [format.checksum_length] at checksum
  simp only [undoReadFromDisk, undoWriteToDisk, append_assoc, reads _, checksum _]
  rw [if_pos]
  rw [length_append, Nat.add_sub_cancel, take_left]

end Disk

end MooncoinFormal.Coins
