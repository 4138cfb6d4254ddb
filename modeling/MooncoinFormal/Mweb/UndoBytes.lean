import MooncoinFormal.Mweb.CoinsView

/-!
# The bytes of the extension block's undo data

The serialization methods of `mw::BlockUndo` and of what it holds: the previous
header behind a byte that tells whether there is one, the coins that were spent and
the identifiers of those that were added. Digests, points, scalars, signatures and
range proofs are arrays of a fixed size; how their bytes are made is a parameter.
-/

namespace MooncoinFormal.Mweb

open Primitives Serialize Library.Codec Format

variable {T : CryptoTypes}

/-- The values with bytes of a fixed size, all of which are read back. -/
structure ValueFormats (T : CryptoTypes) where
  hash : Format T.Hash
  point : Format T.Point
  scalar : Format T.Scalar
  signature : Format T.Signature
  rangeProof : Format T.RangeProof
  hash_good : ∀ value, hash.Good value
  point_good : ∀ value, point.Good value
  scalar_good : ∀ value, scalar.Good value
  signature_good : ∀ value, signature.Good value
  rangeProof_good : ∀ value, rangeProof.Good value

variable (values : ValueFormats T)

def Header.format : Format (Header T) :=
  (signedVarIntFormat.pair <| values.hash.pair <| values.hash.pair <| values.hash.pair <|
    values.scalar.pair <| values.scalar.pair <| varIntFormat.pair varIntFormat).along
    { toFun := fun ⟨height, outputRoot, kernelRoot, leafsetRoot, kernelOffset, stealthOffset,
          numTXOs, numKernels⟩ =>
        ⟨height, outputRoot, kernelRoot, leafsetRoot, kernelOffset, stealthOffset, numTXOs,
          numKernels⟩
      invFun := fun header =>
        (header.height, header.outputRoot, header.kernelRoot, header.leafsetRoot,
          header.kernelOffset, header.stealthOffset, header.numTXOs, header.numKernels)
      left_inv := fun _ => rfl
      right_inv := fun _ => rfl }

/-- A header whose fields its bytes can hold. -/
def Header.Readable (header : Header T) : Prop :=
  0 ≤ header.height.toInt ∧ header.numTXOs < 2 ^ 64 ∧ header.numKernels < 2 ^ 64

theorem Header.good_format {header : Header T} :
    (Header.format values).Good header ↔ header.Readable := by
  simp only [Header.format, Header.Readable, good_along, good_pair, Equiv.coe_fn_symm_mk,
    good_signedVarIntFormat, good_varIntFormat, values.hash_good, values.scalar_good, true_and]

/-- `OptionalPtr`: one byte, and the object when the byte is one. -/
def optionalPtrFormat {α : Type} (format : Format α) : Format (Option α) where
  write := fun value =>
    match value with
    | some object => 1 :: format.write object
    | none => [0]
  read := do
    let isSet ← readByte
    if isSet = 1 then do
      let object ← format.read
      return some object
    else return none
  Good := fun value => ∀ object, value = some object → format.Good object
  reads := by
    intro value survives
    cases value with
    | none => exact (reads_readByte 0).last (Reads.pure none)
    | some object =>
      exact (reads_readByte 1).bind ((format.reads object (survives object rfl)).last
        (Reads.pure (some object)))
  good := by
    rintro _ rest left run object rfl
    have later : (format.read >>= fun object => (return some object : Reader (Option α))).run
        (format.write object ++ rest) = some (some object, left) := run
    refine (format.peel later ?_).1
    intro other bytes done
    cases done
    rfl

/-! ## Outputs -/

def StandardFields.format : Format (StandardFields T) :=
  (values.point.pair <| byteFormat.pair <| uint64Format.pair (bitVecFormat 16)).along
    { toFun := fun ⟨keyExchangePubKey, viewTag, maskedValue, maskedNonce⟩ =>
        ⟨keyExchangePubKey, viewTag, maskedValue, maskedNonce⟩
      invFun := fun fields =>
        (fields.keyExchangePubKey, fields.viewTag, fields.maskedValue, fields.maskedNonce)
      left_inv := fun _ => rfl
      right_inv := fun _ => rfl }

theorem StandardFields.good_format (fields : StandardFields T) :
    (StandardFields.format values).Good fields := by
  simp only [StandardFields.format, good_along, good_pair, Equiv.coe_fn_symm_mk,
    values.point_good, byteFormat, uint64Format, bitVecFormat, good_ofReads, true_and]

def OutputMessage.format : Format (OutputMessage T) :=
  (byteFormat.dependent fun features =>
    ((StandardFields.format values).onlyWhen (hasFeature features 0)).pair
      ((vectorFormat byteFormat).listWhen (hasFeature features 1))).along
    { toFun := fun ⟨features, standardFields, extraData⟩ =>
        ⟨features, standardFields.1, extraData.1, standardFields.2, extraData.2⟩
      invFun := fun message =>
        ⟨message.features, ⟨message.standardFields, message.standardFields_iff⟩,
          ⟨message.extraData, message.extraData_of⟩⟩
      left_inv := fun _ => rfl
      right_inv := fun _ => rfl }

theorem OutputMessage.good_format {message : OutputMessage T} :
    (OutputMessage.format values).Good message ↔ message.extraData.length ≤ maxSize := by
  simp only [OutputMessage.format, good_along, good_dependent, good_pair,
    Equiv.coe_fn_symm_mk, good_onlyWhen, good_listWhen, good_vectorFormat,
    StandardFields.good_format, byteFormat, good_ofReads, true_and, implies_true, and_true]
  refine ⟨fun bounded => ?_, fun bounded _ => bounded⟩
  by_cases empty : message.extraData = []
  · rw [empty]
    exact Nat.zero_le _
  · exact bounded (message.extraData_of empty)

def Output.format : Format (Output T) :=
  (values.point.pair <| values.point.pair <| values.point.pair <|
    (OutputMessage.format values).pair <| values.rangeProof.pair values.signature).along
    { toFun := fun ⟨commitment, senderPubKey, receiverPubKey, message, rangeProof, signature⟩ =>
        ⟨commitment, senderPubKey, receiverPubKey, message, rangeProof, signature⟩
      invFun := fun output =>
        (output.commitment, output.senderPubKey, output.receiverPubKey, output.message,
          output.rangeProof, output.signature)
      left_inv := fun _ => rfl
      right_inv := fun _ => rfl }

def UTXO.format : Format (UTXO T) :=
  (int32Format.pair <| (wordFormat 8).pair (Output.format values)).along
    { toFun := fun ⟨blockHeight, leafIndex, output⟩ => ⟨blockHeight, leafIndex, output⟩
      invFun := fun utxo => (utxo.blockHeight, utxo.leafIndex, utxo.output)
      left_inv := fun _ => rfl
      right_inv := fun _ => rfl }

/-- A coin whose fields its bytes can hold. -/
def UTXO.Readable (utxo : UTXO T) : Prop :=
  utxo.leafIndex < 2 ^ 64 ∧ utxo.output.message.extraData.length ≤ maxSize

theorem UTXO.good_format {utxo : UTXO T} : (UTXO.format values).Good utxo ↔ utxo.Readable := by
  have word : (256 : Nat) ^ 8 = 2 ^ 64 := by decide
  simp only [UTXO.format, UTXO.Readable, Output.format, good_along, good_pair,
    Equiv.coe_fn_symm_mk, good_wordFormat, OutputMessage.good_format, int32Format,
    good_ofReads, values.point_good, values.rangeProof_good, values.signature_good, true_and,
    and_true, word]

def BlockUndo.format : Format (BlockUndo T) :=
  ((optionalPtrFormat (Header.format values)).pair <|
    (vectorFormat (UTXO.format values)).pair (vectorFormat values.hash)).along
    { toFun := fun ⟨prevHeader, coinsSpent, coinsAdded⟩ => ⟨prevHeader, coinsSpent, coinsAdded⟩
      invFun := fun undo => (undo.prevHeader, undo.coinsSpent, undo.coinsAdded)
      left_inv := fun _ => rfl
      right_inv := fun _ => rfl }

/-- Undo data whose fields its bytes can hold. -/
structure BlockUndo.Readable (undo : BlockUndo T) : Prop where
  prevHeader : ∀ header, undo.prevHeader = some header → header.Readable
  spentSize : undo.coinsSpent.length ≤ maxSize
  spent : ∀ utxo ∈ undo.coinsSpent, utxo.Readable
  addedSize : undo.coinsAdded.length ≤ maxSize

theorem BlockUndo.good_format {undo : BlockUndo T} :
    (BlockUndo.format values).Good undo ↔ undo.Readable := by
  simp only [BlockUndo.format, good_along, good_pair, Equiv.coe_fn_symm_mk,
    good_vectorFormat, UTXO.good_format, values.hash_good, implies_true, and_true]
  constructor
  · rintro ⟨header, ⟨spentSize, spent⟩, addedSize⟩
    exact ⟨fun found present => (Header.good_format values).mp (header found present), spentSize,
      spent, addedSize⟩
  · intro readable
    exact ⟨fun found present => (Header.good_format values).mpr (readable.prevHeader found present),
      ⟨readable.spentSize, readable.spent⟩, readable.addedSize⟩

end MooncoinFormal.Mweb
