import MooncoinFormal.Library.Format
import MooncoinFormal.Serialize.Integers

/-!
# The formats of numbers and vectors

Which values the codes of `serialize.h` give back. Words of a fixed size give back
what fits into them, a compact size what the range check lets through, and the code
for signed numbers, which assumes them not to be negative, exactly those.
-/

namespace MooncoinFormal.Serialize

open Library.Codec BitVec Int32 Nat Option

variable {α : Type}

def byteFormat : Format UInt8 :=
  Format.ofReads (fun byte => [byte]) readByte reads_readByte

def wordFormat (size : Nat) : Format Nat :=
  Format.ofImage (toBytes size) (readWord size) (fun value => value % 256 ^ size) (by
    intro value
    have bytes := reads_readBytes (toBytes size value)
    rw [length_toBytes] at bytes
    refine bytes.last ?_
    rw [littleEndian_toBytes]
    exact Reads.pure _)

theorem good_wordFormat {size value : Nat} : (wordFormat size).Good value ↔ value < 256 ^ size := by
  exact ⟨fun fixed => fixed ▸ mod_lt _ (Nat.pow_pos (by decide)), mod_eq_of_lt⟩

def int32Format : Format Int32 :=
  Format.ofReads (fun value => toBytes 4 value.toBitVec.toNat)
    (do
      let word ← readWord 4
      return ofBitVec (BitVec.ofNat 32 word))
    (by
      intro value
      refine (reads_readWord value.toBitVec.isLt).last ?_
      rw [ofNat_toNat, setWidth_eq, ofBitVec_toBitVec]
      exact Reads.pure value)

def uint64Format : Format UInt64 :=
  Format.ofReads (fun value => toBytes 8 value.toNat)
    (do
      let word ← readWord 8
      return UInt64.ofNat word)
    (by
      intro value
      refine (reads_readWord value.toNat_lt).last ?_
      rw [UInt64.ofNat_toNat]
      exact Reads.pure value)

def bitVecFormat (size : Nat) : Format (BitVec (8 * size)) :=
  Format.ofReads (fun value => toBytes size value.toNat)
    (do
      let word ← readWord size
      return BitVec.ofNat (8 * size) word)
    (by
      intro value
      have fits : value.toNat < 256 ^ size := by
        have bound := value.isLt
        rwa [pow_mul] at bound
      refine (reads_readWord fits).last ?_
      rw [ofNat_toNat, setWidth_eq]
      exact Reads.pure value)

/-! ## Numbers of variable length -/

/-- `VARINT` of an unsigned word of 64 bits. -/
def varIntFormat : Format Nat :=
  Format.ofImage (fun value => writeVarInt (value % 2 ^ 64)) (readVarInt maxUInt64)
    (fun value => value % 2 ^ 64) (by
      intro value
      have bounded : value % 2 ^ 64 ≤ maxUInt64 :=
        le_sub_one_of_lt (mod_lt _ (by decide))
      exact reads_readVarInt bounded bounded)

theorem good_varIntFormat {value : Nat} : varIntFormat.Good value ↔ value < 2 ^ 64 := by
  exact ⟨fun fixed => fixed ▸ mod_lt _ (by decide), mod_eq_of_lt⟩

/-- The largest signed word of 32 bits. -/
def maxInt32 : Nat := 2 ^ 31 - 1

/-- What `WriteVarInt` writes of a signed word: the loop ends at once for a negative
one, after the low seven bits. -/
def writeSignedVarInt (value : Int32) : List UInt8 :=
  if value.toInt < 0 then [UInt8.ofNat (value.toBitVec.toNat % 128)]
  else writeVarInt value.toInt.toNat

def readSignedVarInt : Reader Int32 := do
  let value ← readVarInt maxInt32
  return ofNat value

theorem reads_readSignedVarInt (value : Int32) :
    Reads readSignedVarInt (writeSignedVarInt value)
      (if value.toInt < 0 then ofNat (value.toBitVec.toNat % 128) else value) := by
  have high := value.toInt_lt
  unfold writeSignedVarInt
  split
  · have low : value.toBitVec.toNat % 128 ≤ 0x7f := le_of_lt_succ (mod_lt _ (by decide))
    have one : writeVarInt (value.toBitVec.toNat % 128) =
        [UInt8.ofNat (value.toBitVec.toNat % 128)] := writeVarIntLoop_last low 9 0 []
    rw [← one]
    exact (reads_readVarInt (le_trans low (by decide)) (le_trans low (by decide))).last
      (Reads.pure _)
  · rename_i notNegative
    have bounded : value.toInt.toNat ≤ maxInt32 := by
      unfold maxInt32
      omega
    refine (reads_readVarInt bounded (le_trans bounded (by decide))).last ?_
    have same : ofNat value.toInt.toNat = value := by
      apply Int32.toInt_inj.mp
      rw [Int32.toInt_ofNat_of_lt (by omega), Int.toNat_of_nonneg (by omega)]
    rw [same]
    exact Reads.pure value

/-- `VARINT_MODE` with `NONNEGATIVE_SIGNED`. -/
def signedVarIntFormat : Format Int32 :=
  Format.ofImage writeSignedVarInt readSignedVarInt _ reads_readSignedVarInt

theorem good_signedVarIntFormat {value : Int32} :
    signedVarIntFormat.Good value ↔ 0 ≤ value.toInt := by
  show (if value.toInt < 0 then ofNat (value.toBitVec.toNat % 128) else value) = value ↔ _
  split
  · rename_i negative
    refine ⟨fun fixed => ?_, fun absurdity => absurd negative (not_lt.mpr absurdity)⟩
    have small : value.toBitVec.toNat % 128 < 2 ^ 31 :=
      lt_trans (mod_lt _ (by decide)) (by decide)
    rw [← fixed, toInt_ofNat_of_lt small]
    exact Int.natCast_nonneg _
  · rename_i notNegative
    exact ⟨fun _ => not_lt.mp notNegative, fun _ => rfl⟩

variable {bytes left : List UInt8}

theorem le_maxSize_of_readCompactSize {size : Nat}
    (run : readCompactSize.run bytes = some (size, left)) : size ≤ maxSize := by
  rw [readCompactSize, StateT.run_bind] at run
  obtain ⟨⟨marker, afterMarker⟩, -, later⟩ := bind_eq_some_iff.mp run
  obtain ⟨⟨found, afterSize⟩, -, checked⟩ := bind_eq_some_iff.mp later
  dsimp only at checked
  split at checked
  · cases checked
  · rename_i inRange
    cases checked
    exact Nat.le_of_not_lt inRange

/-- A compact size, after the range check. -/
def compactSizeFormat : Format Nat where
  write := writeCompactSize
  read := readCompactSize
  Good := fun size => size ≤ maxSize
  reads := fun _ => reads_readCompactSize
  good := fun _ _ _ => le_maxSize_of_readCompactSize

theorem length_of_readMany {read : Reader α} {count : Nat} {values : List α}
    (run : (readMany read count).run bytes = some (values, left)) : values.length = count := by
  induction count generalizing values bytes with
  | zero =>
    cases run
    rfl
  | succ count ih =>
    rw [readMany, StateT.run_bind] at run
    obtain ⟨⟨first, afterFirst⟩, -, later⟩ := bind_eq_some_iff.mp run
    obtain ⟨⟨others, afterOthers⟩, many, done⟩ := bind_eq_some_iff.mp later
    cases done
    rw [List.length_cons, ih many]

/-- A vector: its size, and its elements one after the other. -/
def vectorFormat (format : Format α) : Format (List α) where
  write := writeVector format.write
  read := readVector format.read
  Good := fun values => values.length ≤ maxSize ∧ ∀ value ∈ values, format.Good value
  reads := by
    rintro values ⟨bounded, survive⟩
    have all : Reads (readVector format.read) (writeVector format.write values) (values.map id) :=
      reads_readVector bounded fun value member => format.reads value (survive value member)
    rwa [List.map_id] at all
  good := by
    intro values rest left run
    rw [writeVector, List.append_assoc] at run
    obtain ⟨bounded, later⟩ := compactSizeFormat.peel run fun size bytes many =>
      (length_of_readMany many).symm
    exact ⟨bounded, format.good_of_readMany later⟩

@[simp] theorem good_vectorFormat {format : Format α} {values : List α} :
    (vectorFormat format).Good values ↔
      values.length ≤ maxSize ∧ ∀ value ∈ values, format.Good value := Iff.rfl

end MooncoinFormal.Serialize
