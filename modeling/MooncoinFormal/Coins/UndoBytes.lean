import Mathlib
import MooncoinFormal.Coins.Undo
import MooncoinFormal.Mweb.UndoBytes
import MooncoinFormal.Primitives.Numeric

/-!
# Which undo data survives its bytes

`UnserializeBlockUndo` on the bytes of a `CBlockUndo`. A coin comes back when it is
not the output of a peg-out, its amount survives the compact code and its script is
not longer than scripts may be; lists come back up to the limit on sizes. Undo data
of the extension block comes back when its own fields do and the size, which is a
word of 32 bits, tells that there is more to read.
-/

namespace MooncoinFormal.Coins

open Primitives Mweb Serialize Compressor Library.Codec List Option

variable {T : CryptoTypes} {keys : PubKeys}

/-! ## Outputs -/

variable {bytes left : List UInt8}

theorem length_readBytes_le {size : Nat} {found : List UInt8}
    (run : (readBytes size).run bytes = some (found, left)) : found.length = size := by
  have opened : (if bytes.length < size then none else some (bytes.take size, bytes.drop size)) =
      some (found, left) := run
  split at opened
  · cases opened
  · rename_i enough
    cases opened
    rw [length_take, Nat.min_eq_left (Nat.le_of_not_lt enough)]

theorem length_decompressScript_le (nSize : Nat) {data : List UInt8} (size : data.length ≤ 32) :
    (decompressScript keys nSize data).length ≤ 67 := by
  unfold decompressScript
  split
  case h_5 | h_6 =>
    split
    · rename_i key found
      simp only [length_append, length_singleton, keys.decompress_length _ _ found]
      decide
    · exact Nat.zero_le _
  all_goals
    simp only [length_append, length_cons, length_nil]
    omega

theorem length_readScript_le {script : CScript}
    (run : (readScript keys).run bytes = some (script, left)) :
    script.length ≤ CScript.maxScriptSize := by
  rw [readScript, StateT.run_bind] at run
  obtain ⟨⟨nSize, afterSize⟩, -, later⟩ := bind_eq_some_iff.mp run
  unfold readSized at later
  split at later
  · rw [StateT.run_bind] at later
    obtain ⟨⟨data, afterData⟩, found, done⟩ := bind_eq_some_iff.mp later
    cases done
    have size : data.length ≤ 32 := by
      rw [length_readBytes_le found, getSpecialScriptSize]
      split
      · decide
      · split <;> decide
    exact le_trans (length_decompressScript_le nSize size) (by decide)
  · split at later
    · rw [StateT.run_bind] at later
      obtain ⟨_, -, done⟩ := bind_eq_some_iff.mp later
      cases done
      decide
    · rename_i allowed
      rw [length_readBytes_le later]
      exact Nat.le_of_not_lt allowed

def scriptFormat (keys : PubKeys) : Format CScript where
  write := writeScript keys
  read := readScript keys
  Good := fun script => script.length ≤ CScript.maxScriptSize
  reads := fun _ => reads_readScript
  good := fun _ _ _ => length_readScript_le

def amountFormat : Format CAmount :=
  Format.ofImage writeAmount readAmount recodedAmount reads_readAmount

/-- `TxOutCompression` as a format. -/
def txOutFormat (keys : PubKeys) : Format CTxOut where
  write := writeTxOut keys
  read := readTxOut keys
  Good := fun out =>
    recodedAmount out.nValue = out.nValue ∧ out.scriptPubKey.length ≤ CScript.maxScriptSize
  reads := by
    rintro ⟨nValue, scriptPubKey⟩ ⟨kept, size⟩
    exact (amountFormat.reads nValue kept).bind
      (((scriptFormat keys).reads scriptPubKey size).last (Reads.pure _))
  good := by
    rintro ⟨nValue, scriptPubKey⟩ rest left run
    rw [writeTxOut, append_assoc] at run
    have keeps : ∀ found bytes,
        (readScript keys >>= fun script => (return ⟨found, script⟩ : Reader CTxOut)).run bytes =
          some (⟨nValue, scriptPubKey⟩, left) → found = nValue := by
      intro found bytes later
      rw [StateT.run_bind] at later
      obtain ⟨_, -, done⟩ := bind_eq_some_iff.mp later
      cases done
      rfl
    obtain ⟨kept, later⟩ := amountFormat.peel run keeps
    have keepsScript : ∀ found bytes,
        (return ⟨nValue, found⟩ : Reader CTxOut).run bytes = some (⟨nValue, scriptPubKey⟩, left) →
          found = scriptPubKey := by
      intro found bytes done
      cases done
      rfl
    exact ⟨kept, ((scriptFormat keys).peel later keepsScript).1⟩

/-- What a coin needs to come back from its undo data. -/
structure Coin.Survives (coin : Coin) : Prop where
  notPegout : coin.fPegout = false
  amount : recodedAmount coin.out.nValue = coin.out.nValue
  scriptSize : coin.out.scriptPubKey.length ≤ CScript.maxScriptSize

instance (coin : Coin) : Decidable coin.Survives :=
  decidable_of_iff (coin.fPegout = false ∧ recodedAmount coin.out.nValue = coin.out.nValue ∧
      coin.out.scriptPubKey.length ≤ CScript.maxScriptSize)
    ⟨fun ⟨notPegout, amount, scriptSize⟩ => ⟨notPegout, amount, scriptSize⟩,
      fun survives => ⟨survives.notPegout, survives.amount, survives.scriptSize⟩⟩

theorem run_readTxInUndo (coin : Coin) (rest : List UInt8) :
    (readTxInUndo keys).run (writeTxInUndo keys coin ++ rest) =
      (readTxOut keys >>= fun out =>
        (return ⟨out, coin.fCoinBase, coin.nHeight, false⟩ : Reader Coin)).run
          (writeTxOut keys coin.out ++ rest) := by
  obtain ⟨fits, half, low⟩ := heightCode coin
  have code : Reads (readVarInt maxUInt32)
      (writeVarInt (coin.nHeight.toNat * 2 + coin.fCoinBase.toNat)) _ :=
    reads_readVarInt fits (le_trans fits (by decide))
  rw [readTxInUndo, StateT.run_bind, writeTxInUndo, append_assoc, append_assoc, code]
  dsimp only [bind_eq_bind, bind_some]
  rw [half, low, BitVec.ofNat_toNat, BitVec.setWidth_eq, StateT.run_bind, reads_readVersionDummy]
  rfl

def txInUndoFormat (keys : PubKeys) : Format Coin where
  write := writeTxInUndo keys
  read := readTxInUndo keys
  Good := Coin.Survives
  reads := by
    rintro ⟨out, fCoinBase, nHeight, fPegout⟩ ⟨notPegout, amount, scriptSize⟩ rest
    cases notPegout
    rw [run_readTxInUndo]
    have output := (txOutFormat keys).reads out ⟨amount, scriptSize⟩
    exact output.last (Reads.pure (⟨out, fCoinBase, nHeight, false⟩ : Coin)) rest
  good := by
    rintro ⟨out, fCoinBase, nHeight, fPegout⟩ rest left run
    rw [run_readTxInUndo] at run
    have keeps : ∀ found bytes,
        (return ⟨found, fCoinBase, nHeight, false⟩ : Reader Coin).run bytes =
          some (⟨out, fCoinBase, nHeight, fPegout⟩, left) → found = out := by
      intro found bytes done
      cases done
      rfl
    obtain ⟨⟨amount, scriptSize⟩, done⟩ := (txOutFormat keys).peel run keeps
    cases done
    exact ⟨rfl, amount, scriptSize⟩

/-! ## Blocks -/

/-- The format of a block's undo data from those of the values it holds. -/
def UndoFormat.ofValues (keys : PubKeys) (values : ValueFormats T)
    (checksum : T.Hash → List UInt8 → List UInt8)
    (checksum_length : ∀ hashBlock bytes, (checksum hashBlock bytes).length = 32) :
    UndoFormat T where
  keys := keys
  writeMweb := (BlockUndo.format values).write
  readMweb := (BlockUndo.format values).read
  checksum := checksum
  checksum_length := checksum_length

structure TxUndosSurvive (vtxundo : List (List Coin)) : Prop where
  txs : vtxundo.length ≤ maxSize
  inputs : ∀ txundo ∈ vtxundo, txundo.length ≤ maxSize
  coins : ∀ txundo ∈ vtxundo, ∀ coin ∈ txundo, coin.Survives

def txUndosFormat (keys : PubKeys) : Format (List (List Coin)) :=
  vectorFormat (vectorFormat (txInUndoFormat keys))

variable {vtxundo : List (List Coin)}

theorem good_txUndosFormat : (txUndosFormat keys).Good vtxundo ↔ TxUndosSurvive vtxundo := by
  constructor
  · rintro ⟨txs, each⟩
    exact ⟨txs, fun txundo member => (each txundo member).1, fun txundo member =>
      (each txundo member).2⟩
  · intro survive
    exact ⟨survive.txs, fun txundo member =>
      ⟨survive.inputs txundo member, survive.coins txundo member⟩⟩

variable {values : ValueFormats T} {checksum : T.Hash → List UInt8 → List UInt8}
  {checksum_length : ∀ hashBlock bytes, (checksum hashBlock bytes).length = 32}

/-- What undo data of a block needs to come back whole: its coins survive, the lists
are within the limit on sizes, and undo data of the extension block has fields that
its bytes can hold and is not cut off by the word for the size. -/
structure CBlockUndo.Survives (format : UndoFormat T) (undo : CBlockUndo T) : Prop where
  txs : TxUndosSurvive undo.vtxundo
  mweb : ∀ mwundo, undo.mwundo = some mwundo → mwundo.Readable
  announced : undo.mwundo ≠ none →
    (writeTxUndos format undo.vtxundo).length < undo.numBytes format

theorem vtxundo_of_readMwebUndo {format : UndoFormat T} {numBytes : Nat} {undo : CBlockUndo T}
    (run : (readMwebUndo format numBytes vtxundo).run bytes = some (undo, left)) :
    vtxundo = undo.vtxundo := by
  unfold readMwebUndo at run
  split at run
  · rw [StateT.run_bind] at run
    obtain ⟨_, -, done⟩ := bind_eq_some_iff.mp run
    cases done
    rfl
  · cases run
    rfl

section RoundTrip

variable (keys values checksum checksum_length)

/-- Undo data is read back from its bytes, to the last of them, exactly when every
part of it survives. -/
theorem unserializeBlockUndo_serialize_iff (undo : CBlockUndo T) :
    let format := UndoFormat.ofValues keys values checksum checksum_length
    (unserializeBlockUndo format (undo.numBytes format)).run (undo.serialize format) =
        some (undo, []) ↔
      undo.Survives format := by
  intro format
  obtain ⟨vtxundo, mwundo⟩ := undo
  constructor
  · intro run
    obtain ⟨txs, later⟩ := (txUndosFormat keys).peel run fun _ _ => vtxundo_of_readMwebUndo
    cases mwundo with
    | none =>
      exact ⟨good_txUndosFormat.mp txs, fun _ absurdity => (nomatch absurdity),
        fun absurdity => absurd rfl absurdity⟩
    | some mwundo =>
      unfold readMwebUndo at later
      split at later
      · rename_i announced
        have read : ((BlockUndo.format values).read >>= fun mwundo =>
            (return ⟨vtxundo, some mwundo⟩ : Reader (CBlockUndo T))).run
              ((BlockUndo.format values).write mwundo ++ []) =
            some (⟨vtxundo, some mwundo⟩, []) := by
          rw [append_nil]
          exact later
        have keeps : ∀ found bytes,
            (return ⟨vtxundo, some found⟩ : Reader (CBlockUndo T)).run bytes =
              some (⟨vtxundo, some mwundo⟩, []) → found = mwundo := by
          intro found bytes done
          cases done
          rfl
        have readable := (BlockUndo.format values).peel read keeps |>.1
        refine ⟨good_txUndosFormat.mp txs, ?_, fun _ => announced⟩
        intro other same
        cases same
        exact (BlockUndo.good_format values).mp readable
      · cases later
  · rintro ⟨txs, mweb, announced⟩
    have first := (txUndosFormat keys).reads vtxundo (good_txUndosFormat.mpr txs)
    have later : Reads (readMwebUndo format (CBlockUndo.numBytes format ⟨vtxundo, mwundo⟩) vtxundo)
        ((mwundo.map format.writeMweb).getD []) ⟨vtxundo, mwundo⟩ := by
      unfold readMwebUndo
      cases mwundo with
      | none =>
        have whole : (CBlockUndo.serialize format ⟨vtxundo, none⟩).length =
            (writeTxUndos format vtxundo).length := by
          rw [CBlockUndo.serialize, map_none, getD_none, append_nil]
        rw [if_neg]
        · exact Reads.pure _
        · rw [CBlockUndo.numBytes, whole]
          exact not_lt.mpr (Nat.mod_le _ _)
      | some mwundo =>
        rw [if_pos (announced (by simp))]
        have readable := (BlockUndo.good_format values).mpr (mweb mwundo rfl)
        exact ((BlockUndo.format values).reads mwundo readable).last (Reads.pure _)
    have whole := (first.bind later) []
    rw [append_nil] at whole
    exact whole

end RoundTrip

end MooncoinFormal.Coins

namespace MooncoinFormal.Primitives.Numeric

open Coins Library.Codec

variable (value : Nat)

/-- A number as so many bytes before a zero. -/
def writeUnary : List UInt8 := List.replicate value 1 ++ [0]

def readUnary : Reader Nat
  | [] => none
  | byte :: rest =>
    if byte = 0 then some (0, rest)
    else (readUnary rest).map fun found => (found.1 + 1, found.2)

theorem reads_readUnary : Reads readUnary (writeUnary value) value := by
  intro rest
  induction value with
  | zero => rfl
  | succ value ih =>
    have step : readUnary (1 :: (writeUnary value ++ rest)) = some (value + 1, rest) := by
      rw [readUnary, if_neg (by decide), show readUnary (writeUnary value ++ rest) = _ from ih]
      rfl
    exact step

def natFormat : Format Nat := Format.ofReads writeUnary readUnary reads_readUnary

def intFormat : Format Int := natFormat.along Equiv.intEquivNat.symm

theorem good_natFormat : natFormat.Good value := rfl

/-- Bytes for the values of the computing cryptography. -/
def valueFormats : Mweb.ValueFormats types where
  hash := natFormat
  point := intFormat.pair intFormat
  scalar := intFormat
  signature := natFormat
  rangeProof := natFormat
  hash_good := good_natFormat
  point_good := fun _ => ⟨good_natFormat _, good_natFormat _⟩
  scalar_good := fun _ => good_natFormat _
  signature_good := good_natFormat
  rangeProof_good := good_natFormat

theorem length_checksum (hash : Nat) (bytes : List UInt8) :
    (Library.Codec.toBytes 32 (digest 18 (hash :: ofBytes bytes))).length = 32 :=
  length_toBytes 32 _

def undoBytes : UndoFormat types :=
  UndoFormat.ofValues Compressor.doubledKeys valueFormats
    (fun hash bytes => toBytes 32 (digest 18 (hash :: ofBytes bytes)))
    length_checksum

def spentCoin (fPegout : Bool) : Coin := ⟨⟨10, [0x51]⟩, false, 1, fPegout⟩

/-- Undo data of the extension block: one coin was added, there was no header before. -/
def addedUndo : Mweb.BlockUndo types := ⟨none, [], [(3 : Nat)]⟩

def spentUndo : CBlockUndo types := ⟨[[spentCoin false]], some addedUndo⟩

theorem spentUndo_survives : spentUndo.Survives undoBytes ∧
    (unserializeBlockUndo undoBytes (spentUndo.numBytes undoBytes)).run
      (spentUndo.serialize undoBytes) = some (spentUndo, []) := by
  have survives : spentUndo.Survives undoBytes := by
    refine ⟨⟨by decide, by decide, by decide⟩, ?_, fun _ => by decide +kernel⟩
    intro mwundo present
    cases present
    exact ⟨fun _ absurdity => (nomatch absurdity), by decide, fun _ absurdity =>
      (nomatch absurdity),
      by decide⟩
  exact ⟨survives, (unserializeBlockUndo_serialize_iff Compressor.doubledKeys valueFormats _ _
    spentUndo).mpr survives⟩

/-- The output of a peg-out comes back without its flag. -/
theorem spentPegout_comes_back_unflagged :
    (unserializeBlockUndo undoBytes (CBlockUndo.numBytes undoBytes ⟨[[spentCoin true]], none⟩)).run
        (CBlockUndo.serialize undoBytes ⟨[[spentCoin true]], none⟩) =
      some (⟨[[spentCoin false]], none⟩, []) ∧ spentCoin true ≠ spentCoin false :=
  ⟨rfl, by decide⟩

end MooncoinFormal.Primitives.Numeric
