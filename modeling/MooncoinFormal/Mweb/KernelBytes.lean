import Mathlib
import MooncoinFormal.Mweb.Models
import MooncoinFormal.Serialize.Canonical

/-!
# The bytes of a kernel

`Kernel::Serialize` writes the fields that are there and the vectors that are not
empty; `Kernel::Unserialize` reads the fields that the feature byte announces. The
two agree on every field, since an optional field is there exactly when its bit is
set, except on a vector that is announced and empty: its size is read, but never
written again.
-/

namespace MooncoinFormal.Mweb

open Primitives Serialize Library.Codec List Bool

variable {T : CryptoTypes}

/-- Commitments and public keys are arrays of 33 bytes and signatures of 64. Reading
one checks nothing, so the arrays are all there is to the values. -/
structure RawValues (T : CryptoTypes) where
  point : BitVec (8 * 33) ≃ T.Point
  signature : BitVec (8 * 64) ≃ T.Signature

namespace RawValues

variable (raw : RawValues T)

def pointFormat : Format T.Point := (bitVecFormat 33).along raw.point

def signatureFormat : Format T.Signature := (bitVecFormat 64).along raw.signature

theorem canonical_pointFormat : raw.pointFormat.Canonical :=
  (canonical_bitVecFormat 33).along raw.point

theorem canonical_signatureFormat : raw.signatureFormat.Canonical :=
  (canonical_bitVecFormat 64).along raw.signature

end RawValues

namespace PegOutCoin

def serialize (coin : PegOutCoin) : List UInt8 :=
  writeSignedVarInt64 coin.amount ++ writeVector (fun byte => [byte]) coin.scriptPubKey

/-- A peg-out without script is refused. -/
def unserialize : Reader PegOutCoin := do
  let amount ← readSignedVarInt64
  let scriptPubKey ← readVector readByte
  if scriptPubKey = [] then failure else return ⟨amount, scriptPubKey⟩

def fieldsFormat : Format PegOutCoin :=
  (signedVarInt64Format.pair (vectorFormat byteFormat)).along
    { toFun := fun ⟨amount, scriptPubKey⟩ => ⟨amount, scriptPubKey⟩
      invFun := fun coin => (coin.amount, coin.scriptPubKey)
      left_inv := fun _ => rfl
      right_inv := fun _ => rfl }

def format : Format PegOutCoin :=
  fieldsFormat.accepting fun coin => decide (coin.scriptPubKey ≠ [])

theorem format_read : format.read = unserialize := by
  simp only [format, Format.accepting, fieldsFormat, Format.along, Format.pair, Format.dependent,
    bind_assoc, pure_bind, unserialize]
  congr
  funext amount
  congr
  funext scriptPubKey
  by_cases empty : scriptPubKey = []
  · simp [empty]
  · simp [empty]

theorem canonical_format : format.Canonical :=
  ((canonical_signedVarInt64Format.pair (canonical_vectorFormat canonical_byteFormat)).along
    _).accepting _

end PegOutCoin

/-! ## Kernels -/

def writePresent {α : Type} (write : α → List UInt8) : Option α → List UInt8
  | some value => write value
  | none => []

def writeNonempty {α : Type} (write : α → List UInt8) : List α → List UInt8
  | [] => []
  | values => writeVector write values

variable {α : Type}

namespace Kernel

variable (raw : RawValues T) (kernel : Kernel T)

def serialize : List UInt8 :=
  [kernel.features] ++
  writePresent writeSignedVarInt64 kernel.fee ++
  writePresent writeSignedVarInt64 kernel.pegin ++
  writeNonempty PegOutCoin.serialize kernel.pegouts ++
  writePresent writeSignedVarInt kernel.lockHeight ++
  writePresent raw.pointFormat.write kernel.stealthExcess ++
  writeNonempty (fun byte => [byte]) kernel.extraData ++
  raw.pointFormat.write kernel.excess ++
  raw.signatureFormat.write kernel.signature

theorem amount_eq_of_append {amount other : Option CAmount} (present : amount.isSome = other.isSome)
    (nonneg : 0 ≤ (amount.getD 0).toInt) (nonneg' : 0 ≤ (other.getD 0).toInt)
    {rest left : List UInt8} (same : writePresent writeSignedVarInt64 amount ++ rest =
      writePresent writeSignedVarInt64 other ++ left) : amount = other ∧ rest = left := by
  cases amount with
  | none =>
    cases other with
    | none => exact ⟨rfl, same⟩
    | some _ => cases present
  | some value =>
    cases other with
    | none => cases present
    | some value' =>
      obtain ⟨rfl, later⟩ := signedVarInt64Format.eq_of_append nonneg nonneg' same
      exact ⟨rfl, later⟩

theorem alike_of_serialize {kernel other : Kernel T}
    (same : serialize raw kernel = serialize raw other) : kernel.Alike other := by
  have size : ∀ {n : Nat} (value value' : BitVec (8 * n)), (toBytes n value.toNat).length =
      (toBytes n value'.toNat).length := by simp [length_toBytes]
  obtain ⟨same, -⟩ := append_inj' same (size _ _)
  obtain ⟨front, excess⟩ := append_inj' same (size _ _)
  obtain ⟨excess, -⟩ := raw.pointFormat.eq_of_append (by rfl) (by rfl) (congrArg (· ++ []) excess)
  simp only [append_assoc, cons_append, nil_append, cons.injEq] at front
  obtain ⟨features, front⟩ := front
  have present : kernel.fee.isSome = other.fee.isSome := by
    rw [kernel.fee_iff, other.fee_iff, features]
  have present' : kernel.pegin.isSome = other.pegin.isSome := by
    rw [kernel.pegin_iff, other.pegin_iff, features]
  refine ⟨excess, fun nonneg nonneg' => ?_, fun fee nonneg nonneg' => ?_⟩
  · rw [getFee, (amount_eq_of_append present nonneg nonneg' front).1]
    rfl
  · have fees : kernel.fee = other.fee := by
      rw [getFee, getFee] at fee
      cases here : kernel.fee <;> cases there : other.fee <;> simp_all
    rw [fees, append_cancel_left_eq] at front
    rw [getPegIn, (amount_eq_of_append present' nonneg nonneg' front).1]
    rfl

def readAnnounced {α : Type} (read : Reader α) :
    (announced : Bool) → Reader { field : Option α // field.isSome = announced }
  | true => do
      let value ← read
      return ⟨some value, Option.isSome_some⟩
  | false => return ⟨none, Option.isSome_none⟩

theorem announced_of_filled {α : Type} {announced : Bool} (filled : ([] : List α) ≠ []) :
    announced = true := absurd rfl filled

/-- A vector that a feature bit announces; without the bit it stays empty. -/
def readAnnouncedVector {α : Type} (read : Reader α) :
    (announced : Bool) → Reader { values : List α // values ≠ [] → announced = true }
  | true => do
      let values ← readVector read
      return ⟨values, fun _ => rfl⟩
  | false => return ⟨[], announced_of_filled⟩

/-- `Kernel::Unserialize` into a new kernel. -/
def unserialize : Reader (Kernel T) := do
  let features ← readByte
  let fee ← readAnnounced readSignedVarInt64 (hasFeature features 0)
  let pegin ← readAnnounced readSignedVarInt64 (hasFeature features 1)
  let pegouts ← readAnnouncedVector PegOutCoin.unserialize (hasFeature features 2)
  let lockHeight ← readAnnounced readSignedVarInt (hasFeature features 3)
  let stealthExcess ← readAnnounced raw.pointFormat.read (hasFeature features 4)
  let extraData ← readAnnouncedVector readByte (hasFeature features 5)
  let excess ← raw.pointFormat.read
  let signature ← raw.signatureFormat.read
  return ⟨features, fee.1, pegin.1, pegouts.1, lockHeight.1, stealthExcess.1, extraData.1, excess,
    signature, fee.2, pegin.2, pegouts.2, lockHeight.2, stealthExcess.2, extraData.2⟩

/-- Everything that the feature byte announces, field by field. -/
def announcedFormat : Format (Kernel T) :=
  (byteFormat.dependent fun features =>
    (signedVarInt64Format.onlyWhen (hasFeature features 0)).pair <|
    (signedVarInt64Format.onlyWhen (hasFeature features 1)).pair <|
    ((vectorFormat PegOutCoin.format).listWhen (hasFeature features 2)).pair <|
    (signedVarIntFormat.onlyWhen (hasFeature features 3)).pair <|
    (raw.pointFormat.onlyWhen (hasFeature features 4)).pair <|
    ((vectorFormat byteFormat).listWhen (hasFeature features 5)).pair <|
    raw.pointFormat.pair raw.signatureFormat).along
    { toFun := fun ⟨features, fee, pegin, pegouts, lockHeight, stealthExcess, extraData, excess,
          signature⟩ =>
        ⟨features, fee.1, pegin.1, pegouts.1, lockHeight.1, stealthExcess.1, extraData.1, excess,
          signature, fee.2, pegin.2, pegouts.2, lockHeight.2, stealthExcess.2, extraData.2⟩
      invFun := fun kernel =>
        ⟨kernel.features, ⟨kernel.fee, kernel.fee_iff⟩, ⟨kernel.pegin, kernel.pegin_iff⟩,
          ⟨kernel.pegouts, kernel.pegouts_of⟩, ⟨kernel.lockHeight, kernel.lockHeight_iff⟩,
          ⟨kernel.stealthExcess, kernel.stealthExcess_iff⟩,
          ⟨kernel.extraData, kernel.extraData_of⟩, kernel.excess, kernel.signature⟩
      left_inv := fun _ => rfl
      right_inv := fun _ => rfl }

theorem canonical_announcedFormat : (announcedFormat raw).Canonical :=
  (canonical_byteFormat.dependent fun _ =>
    (canonical_signedVarInt64Format.onlyWhen _).pair <|
    (canonical_signedVarInt64Format.onlyWhen _).pair <|
    ((canonical_vectorFormat PegOutCoin.canonical_format).listWhen _).pair <|
    (canonical_signedVarIntFormat.onlyWhen _).pair <|
    (raw.canonical_pointFormat.onlyWhen _).pair <|
    ((canonical_vectorFormat canonical_byteFormat).listWhen _).pair <|
    raw.canonical_pointFormat.pair raw.canonical_signatureFormat).along _

variable (format : Format α)

theorem onlyWhen_read (announced : Bool) :
    (format.onlyWhen announced).read = readAnnounced format.read announced := by
  cases announced <;> rfl

theorem listWhen_read (announced : Bool) :
    ((vectorFormat format).listWhen announced).read =
      readAnnouncedVector format.read announced := by
  cases announced <;> rfl

theorem announcedFormat_read : (announcedFormat raw).read = unserialize raw := by
  simp only [announcedFormat, Format.along, Format.pair, Format.dependent, bind_assoc, pure_bind,
    onlyWhen_read, listWhen_read, PegOutCoin.format_read]
  rfl

theorem onlyWhen_write {announced : Bool}
    (field : { field : Option α // field.isSome = announced }) :
    (format.onlyWhen announced).write field = writePresent format.write field.1 := by
  obtain ⟨field, present⟩ := field
  cases announced with
  | true =>
    obtain ⟨-, rfl⟩ := Option.isSome_iff_exists.mp present
    rfl
  | false =>
    obtain rfl : field = none := by simpa using present
    rfl

/-- A vector that is announced and empty. -/
def announcesEmpty {α : Type} (announced : Bool) (values : List α) : Bool :=
  announced && values.isEmpty

theorem listWhen_write {announced : Bool}
    (values : { values : List α // values ≠ [] → announced = true }) :
    ((vectorFormat format).listWhen announced).write values =
      (if announcesEmpty announced values.1 then [0] else []) ++
        writeNonempty format.write values.1 := by
  obtain ⟨values, nonempty⟩ := values
  cases announced with
  | true =>
    cases values with
    | nil => rfl
    | cons first rest => rfl
  | false =>
    obtain rfl : values = [] := by simpa using nonempty
    rfl

/-- A vector of the kernel is announced and empty. -/
def announcesEmptyVector : Bool :=
  announcesEmpty (hasFeature kernel.features 2) kernel.pegouts ||
    announcesEmpty (hasFeature kernel.features 5) kernel.extraData

theorem announcedFormat_write :
    (announcedFormat raw).write kernel =
      [kernel.features] ++
      writePresent writeSignedVarInt64 kernel.fee ++
      writePresent writeSignedVarInt64 kernel.pegin ++
      ((if announcesEmpty (hasFeature kernel.features 2) kernel.pegouts then [0] else []) ++
        writeNonempty PegOutCoin.serialize kernel.pegouts) ++
      writePresent writeSignedVarInt kernel.lockHeight ++
      writePresent raw.pointFormat.write kernel.stealthExcess ++
      ((if announcesEmpty (hasFeature kernel.features 5) kernel.extraData then [0] else []) ++
        writeNonempty (fun byte => [byte]) kernel.extraData) ++
      raw.pointFormat.write kernel.excess ++
      raw.signatureFormat.write kernel.signature := by
  show byteFormat.write _ ++ ((signedVarInt64Format.onlyWhen _).write _ ++
    ((signedVarInt64Format.onlyWhen _).write _ ++
    (((vectorFormat PegOutCoin.format).listWhen _).write _ ++
    ((signedVarIntFormat.onlyWhen _).write _ ++ ((raw.pointFormat.onlyWhen _).write _ ++
    (((vectorFormat byteFormat).listWhen _).write _ ++
    (raw.pointFormat.write _ ++ raw.signatureFormat.write _))))))) = _
  rw [onlyWhen_write, onlyWhen_write, onlyWhen_write, onlyWhen_write, listWhen_write,
    listWhen_write]
  simp only [append_assoc]
  rfl

theorem serialize_eq_announced_iff :
    serialize raw kernel = (announcedFormat raw).write kernel ↔
      kernel.announcesEmptyVector = false := by
  rw [announcedFormat_write, announcesEmptyVector, or_eq_false_iff]
  refine ⟨fun same => ?_, fun ⟨pegouts, extraData⟩ => ?_⟩
  · have lengths := congrArg length same
    simp only [serialize, length_append] at lengths
    constructor
    all_goals
      by_contra empty
      rw [(not_eq_false _).mp empty, if_pos rfl] at lengths
      simp only [length_cons] at lengths
      omega
  · rw [pegouts, extraData]
    rfl

/-! ## What is read is what is written -/

/-- The bytes begin with a kernel in full that has an announced vector of size zero. -/
def SpellsEmptyVector (bytes : List UInt8) : Prop :=
  ∃ kernel rest, (announcedFormat raw).Good kernel ∧ announcesEmptyVector kernel = true ∧
    bytes = (announcedFormat raw).write kernel ++ rest

/-- Accepted bytes are those of the kernel exactly if they spell out no empty vector. -/
theorem serialize_unserialize_iff {bytes rest : List UInt8} {kernel : Kernel T}
    (accepted : (unserialize raw).run bytes = some (kernel, rest)) :
    serialize raw kernel ++ rest = bytes ↔ ¬ SpellsEmptyVector raw bytes := by
  rw [← announcedFormat_read] at accepted
  have spelled := canonical_announcedFormat raw bytes kernel rest accepted
  have good : (announcedFormat raw).Good kernel := by
    rw [spelled] at accepted
    exact (announcedFormat raw).good kernel rest rest accepted
  have empty_iff : SpellsEmptyVector raw bytes ↔ kernel.announcesEmptyVector = true := by
    refine ⟨?_, fun empty => ⟨kernel, rest, good, empty, spelled⟩⟩
    -- the bytes are read in one way only
    rintro ⟨other, left, otherGood, empty, form⟩
    have again := (announcedFormat raw).reads other otherGood left
    rw [← form, accepted] at again
    cases again
    exact empty
  rw [spelled, append_left_inj, serialize_eq_announced_iff, ← spelled, empty_iff, not_eq_true]

abbrev rawTypes : CryptoTypes where
  Hash := Nat
  Point := BitVec (8 * 33)
  Scalar := Int
  Signature := BitVec (8 * 64)
  RangeProof := Nat
  hashOrder := inferInstance
  scalarRing := inferInstance
  scalarEq := inferInstance
  pointGroup := inferInstance
  pointModule := inferInstance
  pointEq := inferInstance
  signatureEq := inferInstance
  proofEq := inferInstance
  zeroHash := 0
  hashBytes := toBytes 32
  hashOfBytes := littleEndian

def rawValues : RawValues rawTypes := ⟨Equiv.refl _, Equiv.refl _⟩

/-- A kernel with a fee, one peg-out and a byte of extra data. -/
def pegoutBytes : List UInt8 :=
  [0x25, 0x80, 0x00, 0x01, 0x07, 0x01, 0x51, 0x01, 0xff] ++ replicate 97 0x11

theorem serialize_unserialize_pegoutBytes :
    ∃ kernel, (unserialize rawValues).run pegoutBytes = some (kernel, []) ∧
      (serialize rawValues kernel ++ [] = pegoutBytes ↔
        ¬ SpellsEmptyVector rawValues pegoutBytes) := by
  have accepted : ((unserialize rawValues).run pegoutBytes).map Prod.snd = some [] := by
    decide +kernel
  obtain ⟨⟨kernel, _⟩, run, rfl⟩ := Option.map_eq_some_iff.mp accepted
  exact ⟨kernel, run, serialize_unserialize_iff rawValues run⟩

/-- A kernel that announces peg-outs and has none: its bytes are accepted, what is
written of it is shorter, and that is not accepted again. -/
theorem serialize_unserialize_fails :
    ∃ kernel, (unserialize rawValues).run (0x04 :: 0x00 :: replicate 97 0x00) =
        some (kernel, []) ∧
      serialize rawValues kernel = 0x04 :: replicate 97 0x00 ∧
      (unserialize rawValues).run (serialize rawValues kernel) = none := by
  have written : ((unserialize rawValues).run (0x04 :: 0x00 :: replicate 97 0x00)).map
      (fun read => (read.2, serialize rawValues read.1)) =
        some ([], 0x04 :: replicate 97 0x00) := by decide +kernel
  have refused : ((unserialize rawValues).run (0x04 :: replicate 97 0x00)).isNone = true := by
    decide +kernel
  obtain ⟨⟨kernel, _⟩, run, same⟩ := Option.map_eq_some_iff.mp written
  obtain ⟨rfl, bytes⟩ := Prod.mk.inj same
  refine ⟨kernel, run, bytes, ?_⟩
  rw [bytes]
  exact Option.isNone_iff_eq_none.mp refused

end Kernel

end MooncoinFormal.Mweb
