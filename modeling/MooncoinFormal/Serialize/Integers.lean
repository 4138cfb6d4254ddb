import Mathlib
import MooncoinFormal.Library.Codec

/-!
# Integers of variable length

`serialize.h`: the two codes for sizes and numbers. `VARINT` is base 128 with the
highest digit first and one subtracted from every digit but the last; a compact
size is one byte, or a marker and a word. Vectors are written as their compact
size and their elements.
-/

namespace MooncoinFormal.Serialize

open Library.Codec UInt8 List

variable {α β : Type}

/-! ## Base 128 -/

/-- The loop of `WriteVarInt`, which fills its buffer of `rounds` bytes from the
last digit on; `flag` is the high bit of the digit. -/
def writeVarIntLoop : (rounds n flag : Nat) → (written : List UInt8) → List UInt8
  | 0, _, _, written => written
  | rounds + 1, n, flag, written =>
    if n ≤ 0x7f then ofNat (n % 128 + flag) :: written
    else writeVarIntLoop rounds (n / 128 - 1) 0x80 (ofNat (n % 128 + flag) :: written)

/-- `WriteVarInt`: ten bytes are enough for every word of 64 bits. -/
def writeVarInt (n : Nat) : List UInt8 := writeVarIntLoop 10 n 0 []

/-- The loop of `ReadVarInt` for a type whose largest value is `max`. -/
def readVarIntLoop (max : Nat) : (n : Nat) → Reader Nat
  | _, [] => none
  | n, chData :: rest =>
    if n > max / 128 then none
    else if 0x80 ≤ chData then
      if n * 128 + chData.toNat % 128 = max then none
      else readVarIntLoop max (n * 128 + chData.toNat % 128 + 1) rest
    else some (n * 128 + chData.toNat % 128, rest)

def readVarInt (max : Nat) : Reader Nat := readVarIntLoop max 0

def maxUInt32 : Nat := 2 ^ 32 - 1
def maxUInt64 : Nat := 2 ^ 64 - 1

variable {n max : Nat}

theorem writeVarIntLoop_last (last : n ≤ 0x7f) (rounds flag : Nat) (written : List UInt8) :
    writeVarIntLoop (rounds + 1) n flag written = ofNat (n + flag) :: written := by
  rw [writeVarIntLoop, if_pos last, Nat.mod_eq_of_lt (by omega)]

theorem writeVarIntLoop_more (more : ¬ n ≤ 0x7f) (rounds flag : Nat) (written : List UInt8) :
    writeVarIntLoop (rounds + 1) n flag written =
      writeVarIntLoop rounds (n / 128 - 1) 0x80 (ofNat (n % 128 + flag) :: written) := by
  rw [writeVarIntLoop, if_neg more]

theorem readVarIntLoop_last {digit : Nat} (inRange : n ≤ max / 128) (small : digit < 128)
    (rest : List UInt8) :
    readVarIntLoop max n (ofNat digit :: rest) = some (n * 128 + digit, rest) := by
  have value : (ofNat digit).toNat = digit := by simp; omega
  have unflagged : ¬ (0x80 : UInt8) ≤ ofNat digit := by
    rw [le_iff_toNat_le, value]; simp; omega
  rw [readVarIntLoop, if_neg (by omega), if_neg unflagged, value, Nat.mod_eq_of_lt small]

theorem readVarIntLoop_more {digit : Nat} (inRange : n ≤ max / 128) (small : digit < 128)
    (room : n * 128 + digit ≠ max) (rest : List UInt8) :
    readVarIntLoop max n (ofNat (digit + 0x80) :: rest) =
      readVarIntLoop max (n * 128 + digit + 1) rest := by
  have value : (ofNat (digit + 0x80)).toNat = digit + 0x80 := by simp; omega
  have flagged : (0x80 : UInt8) ≤ ofNat (digit + 0x80) := by
    rw [le_iff_toNat_le, value]; simp
  have low : (digit + 0x80) % 128 = digit := by omega
  rw [readVarIntLoop, if_neg (by omega), if_pos flagged, value, low, if_neg room]

/-- Reading the digits of a number: without the flag on the last one they end
there, with it the next digit follows. -/
theorem readVarIntLoop_writeVarIntLoop (rounds n : Nat) (bounded : n ≤ max)
    (fits : n < 128 ^ (rounds + 1)) (written : List UInt8) :
    readVarIntLoop max 0 (writeVarIntLoop (rounds + 1) n 0 written) = some (n, written) ∧
      (n ≠ max → readVarIntLoop max 0 (writeVarIntLoop (rounds + 1) n 0x80 written) =
        readVarIntLoop max (n + 1) written) := by
  induction n using Nat.strong_induction_on generalizing rounds written with
  | _ n ih =>
    by_cases last : n ≤ 0x7f
    · rw [writeVarIntLoop_last last, writeVarIntLoop_last last]
      refine ⟨?_, fun room => ?_⟩
      · simpa using readVarIntLoop_last (Nat.zero_le _) (by omega) written
      · simpa using readVarIntLoop_more (Nat.zero_le _) (by omega) (by omega) written
    · cases rounds with
      | zero => omega
      | succ rounds =>
        have digits := fun tail =>
          (ih (n / 128 - 1) (by omega) rounds (by omega) (by omega) tail).2 (by omega)
        have above : n / 128 - 1 + 1 = n / 128 := by omega
        have value : n / 128 * 128 + n % 128 = n := by omega
        have inRange : n / 128 ≤ max / 128 := Nat.div_le_div_right bounded
        rw [writeVarIntLoop_more last, writeVarIntLoop_more last, digits, digits, above]
        refine ⟨?_, fun room => ?_⟩
        · rw [add_zero, readVarIntLoop_last inRange (by omega), value]
        · rw [readVarIntLoop_more inRange (by omega) (by omega), value]

theorem writeVarIntLoop_append (rounds n flag : Nat) (written rest : List UInt8) :
    writeVarIntLoop rounds n flag written ++ rest = writeVarIntLoop rounds n flag
      (written ++ rest) := by
  induction rounds generalizing n flag written with
  | zero => rfl
  | succ rounds ih =>
    by_cases last : n ≤ 0x7f
    · rw [writeVarIntLoop_last last, writeVarIntLoop_last last, cons_append]
    · rw [writeVarIntLoop_more last, writeVarIntLoop_more last, ih, cons_append]

theorem reads_readVarInt (bounded : n ≤ max) (fits : n ≤ maxUInt64) :
    Reads (readVarInt max) (writeVarInt n) n := by
  intro rest
  rw [writeVarInt, writeVarIntLoop_append]
  exact (readVarIntLoop_writeVarIntLoop 9 n bounded (lt_of_le_of_lt fits (by decide)) _).1

def maxSize : Nat := 0x02000000

def writeCompactSize (nSize : Nat) : List UInt8 :=
  if nSize < 253 then [ofNat nSize]
  else if nSize ≤ 0xffff then 253 :: toBytes 2 nSize
  else if nSize ≤ 0xffffffff then 254 :: toBytes 4 nSize
  else 255 :: toBytes 8 nSize

def readAtLeast (least size : Nat) : Reader Nat := do
  let nSizeRet ← readWord size
  if nSizeRet < least then failure else return nSizeRet

def readMarked (chSize : UInt8) : Reader Nat :=
  if chSize < 253 then return chSize.toNat
  else if chSize = 253 then readAtLeast 253 2
  else if chSize = 254 then readAtLeast 0x10000 4
  else readAtLeast 0x100000000 8

/-- `ReadCompactSize` with its range check. -/
def readCompactSize : Reader Nat := do
  let chSize ← readByte
  let nSizeRet ← readMarked chSize
  if maxSize < nSizeRet then failure else return nSizeRet

theorem reads_readAtLeast {least size value : Nat} (enough : least ≤ value)
    (fits : value < 256 ^ size) : Reads (readAtLeast least size) (toBytes size value) value := by
  refine (reads_readWord fits).last ?_
  rw [if_neg (by omega)]
  exact Reads.pure value

theorem reads_readCompactSize {nSize : Nat} (bounded : nSize ≤ maxSize) :
    Reads readCompactSize (writeCompactSize nSize) nSize := by
  have inRange : Reads (if maxSize < nSize then failure else return nSize : Reader Nat)
      [] nSize := by
    rw [if_neg (by omega)]
    exact Reads.pure nSize
  unfold maxSize at bounded
  rw [writeCompactSize]
  split
  · rename_i short
    refine (reads_readByte _).last (Reads.last ?_ inRange)
    have value : (ofNat nSize).toNat = nSize := by simp; omega
    have marker : ofNat nSize < 253 := by
      rw [lt_iff_toNat_lt, value]; exact short
    rw [readMarked, if_pos marker, value]
    exact Reads.pure nSize
  · split
    · exact (reads_readByte 253).bind (Reads.last (reads_readAtLeast (by omega) (by omega)) inRange)
    · rw [if_pos (by omega)]
      exact (reads_readByte 254).bind (Reads.last (reads_readAtLeast (by omega) (by omega)) inRange)

/-- `VectorFormatter::Ser`. -/
def writeVector (write : α → List UInt8) (values : List α) : List UInt8 :=
  writeCompactSize values.length ++ values.flatMap write

/-- `VectorFormatter::Unser`. -/
def readVector (read : Reader α) : Reader (List α) := do
  let size ← readCompactSize
  readMany read size

variable {write : α → List UInt8}

theorem reads_readVector {read : Reader β} {image : α → β} {values : List α}
    (bounded : values.length ≤ maxSize)
    (reads : ∀ value ∈ values, Reads read (write value) (image value)) :
    Reads (readVector read) (writeVector write values) (values.map image) :=
  (reads_readCompactSize bounded).bind (reads_readMany values reads)

theorem writeVector_map {image : α → α} {values : List α}
    (same : ∀ value ∈ values, write (image value) = write value) :
    writeVector write (values.map image) = writeVector write values := by
  have elements : (values.map image).flatMap write = values.flatMap write := by
    rw [flatMap_map]
    exact flatMap_congr same
  rw [writeVector, writeVector, length_map, elements]

end MooncoinFormal.Serialize
