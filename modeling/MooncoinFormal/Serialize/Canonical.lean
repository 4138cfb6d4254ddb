import MooncoinFormal.Library.Canonical
import MooncoinFormal.Serialize.Formats

/-!
# Each number has one spelling

`serialize.h` refuses compact sizes that a shorter form could hold, and the code in
base 128 subtracts one from every digit but the last, so that neither of them accepts
two spellings of a number.
-/

namespace MooncoinFormal.Serialize

open Library.Codec Option Int

variable {α : Type}

theorem canonical_byteFormat : byteFormat.Canonical := by
  intro bytes value rest run
  match bytes with
  | [] => cases run
  | byte :: left =>
    cases run
    rfl

theorem canonical_bitVecFormat (size : Nat) : (bitVecFormat size).Canonical := by
  intro bytes value rest run
  have read : (readWord size >>= fun word =>
      (return BitVec.ofNat (8 * size) word : Reader _)).run bytes = some (value, rest) := run
  obtain ⟨⟨word, left⟩, first, done⟩ := bind_eq_some_iff.mp read
  cases done
  obtain ⟨spelled, fits⟩ := eq_of_readWord first
  show _ = toBytes size (BitVec.ofNat (8 * size) word).toNat ++ _
  have bound : word < 2 ^ (8 * size) := by
    rw [pow_mul]
    exact fits
  rw [BitVec.toNat_ofNat, Nat.mod_eq_of_lt bound]
  exact spelled

/-! ## Compact sizes -/

variable {bytes rest : List UInt8} {value max : Nat}

theorem eq_of_readAtLeast {least size : Nat}
    (run : (readAtLeast least size).run bytes = some (value, rest)) :
    bytes = toBytes size value ++ rest ∧ least ≤ value ∧ value < 256 ^ size := by
  obtain ⟨⟨word, left⟩, first, done⟩ := bind_eq_some_iff.mp run
  dsimp only at done
  split at done
  · cases done
  · rename_i enough
    cases done
    obtain ⟨spelled, fits⟩ := eq_of_readWord first
    exact ⟨spelled, Nat.le_of_not_lt enough, fits⟩

theorem eq_of_readMarked {marker : UInt8}
    (run : (readMarked marker).run bytes = some (value, rest)) :
    marker :: bytes = writeCompactSize value ++ rest := by
  unfold readMarked at run
  split at run
  · rename_i short
    cases run
    have small : marker.toNat < 253 := UInt8.lt_iff_toNat_lt.mp short
    rw [writeCompactSize, if_pos small, UInt8.ofNat_toNat]
    rfl
  · split at run
    · rename_i two
      obtain ⟨spelled, least, fits⟩ := eq_of_readAtLeast run
      rw [writeCompactSize, if_neg (by omega), if_pos (by omega), two, spelled]
      rfl
    · split at run
      · rename_i four
        obtain ⟨spelled, least, fits⟩ := eq_of_readAtLeast run
        rw [writeCompactSize, if_neg (by omega), if_neg (by omega), if_pos (by omega), four,
          spelled]
        rfl
      · rename_i long two four
        have eight : marker = 255 := by
          apply UInt8.toNat_inj.mp
          have bound := marker.toNat_lt
          have above := UInt8.lt_iff_toNat_lt.not.mp long
          have not253 := UInt8.toNat_inj.not.mpr two
          have not254 := UInt8.toNat_inj.not.mpr four
          simp at above not253 not254 ⊢
          omega
        obtain ⟨spelled, least, fits⟩ := eq_of_readAtLeast run
        rw [writeCompactSize, if_neg (by omega), if_neg (by omega), if_neg (by omega), eight,
          spelled]
        rfl

theorem canonical_compactSizeFormat : compactSizeFormat.Canonical := by
  intro bytes value rest run
  have read : readCompactSize.run bytes = some (value, rest) := run
  obtain ⟨marker, middle, rfl, later⟩ := canonical_byteFormat.front read
  obtain ⟨⟨size, left⟩, marked, checked⟩ := bind_eq_some_iff.mp later
  dsimp only at checked
  split at checked
  · cases checked
  · cases checked
    exact eq_of_readMarked marked

theorem canonical_vectorFormat {format : Format α} (canonical : format.Canonical) :
    (vectorFormat format).Canonical := by
  intro bytes values rest run
  obtain ⟨size, left, rfl, many⟩ := canonical_compactSizeFormat.front run
  show _ = writeCompactSize values.length ++ _ ++ _
  rw [canonical.readMany many, length_of_readMany many, List.append_assoc]
  rfl

/-! ## Base 128 -/

theorem writeVarIntLoop_of_le {rounds more n : Nat} (positive : 0 < rounds)
    (fits : n < 128 ^ rounds) (le : rounds ≤ more) (flag : Nat) (written : List UInt8) :
    writeVarIntLoop more n flag written = writeVarIntLoop rounds n flag written := by
  induction rounds generalizing more n flag written with
  | zero => cases positive
  | succ rounds ih =>
    obtain ⟨others, rfl⟩ : ∃ others, more = others + 1 := ⟨more - 1, by omega⟩
    by_cases last : n ≤ 0x7f
    · rw [writeVarIntLoop_last last, writeVarIntLoop_last last]
    · rw [writeVarIntLoop_more last, writeVarIntLoop_more last]
      have several : 0 < rounds := by
        rcases Nat.eq_zero_or_pos rounds with rfl | positive
        · omega
        · exact positive
      exact ih several (by omega) (by omega) _ _

theorem readVarIntLoop_cases {n : Nat} {byte : UInt8}
    (run : readVarIntLoop max n (byte :: bytes) = some (value, rest)) :
    n ≤ max / 128 ∧
      (byte.toNat < 128 ∧ value = n * 128 + byte.toNat ∧ bytes = rest ∨
        ∃ digit, digit < 128 ∧ byte = UInt8.ofNat (digit + 0x80) ∧ n * 128 + digit ≠ max ∧
          readVarIntLoop max (n * 128 + digit + 1) bytes = some (value, rest)) := by
  rw [readVarIntLoop] at run
  split at run
  · cases run
  rename_i inRange
  refine ⟨Nat.le_of_not_lt inRange, ?_⟩
  split at run
  · rename_i flagged
    have high : 128 ≤ byte.toNat := UInt8.le_iff_toNat_le.mp flagged
    have bound := byte.toNat_lt
    split at run
    · cases run
    · rename_i room
      refine .inr ⟨byte.toNat % 128, Nat.mod_lt _ (by decide), ?_, room, run⟩
      apply UInt8.toNat_inj.mp
      rw [UInt8.toNat_ofNat_of_lt' (show _ < 256 by omega)]
      omega
  · rename_i unflagged
    have low : byte.toNat < 128 := UInt8.lt_iff_toNat_lt.mp (UInt8.not_le.mp unflagged)
    rw [Nat.mod_eq_of_lt low] at run
    cases run
    exact .inl ⟨low, rfl, rfl⟩

theorem le_of_readVarIntLoop {n : Nat} (shape : max % 128 = 127)
    (run : readVarIntLoop max n bytes = some (value, rest)) : value ≤ max := by
  induction bytes generalizing n with
  | nil => cases run
  | cons byte bytes ih =>
    obtain ⟨inRange, ⟨low, rfl, -⟩ | ⟨digit, small, -, room, later⟩⟩ := readVarIntLoop_cases run
    · omega
    · exact ih later

theorem written_of_readVarIntLoop {n : Nat} (shape : max % 128 = 127) (word : max ≤ maxUInt64)
    (run : readVarIntLoop max (n + 1) bytes = some (value, rest)) :
    writeVarIntLoop 10 n 0x80 bytes = writeVarIntLoop 10 value 0 rest := by
  induction bytes generalizing n with
  | nil => cases run
  | cons byte bytes ih =>
    have ten : ∀ written, n < 128 ^ 9 →
        writeVarIntLoop 10 n 0x80 written = writeVarIntLoop 9 n 0x80 written :=
      fun written fits => writeVarIntLoop_of_le (by decide) fits (by decide) _ _
    unfold maxUInt64 at word
    have small : n < 128 ^ 9 := by
      obtain ⟨inRange, -⟩ := readVarIntLoop_cases run
      omega
    obtain ⟨-, ⟨low, rfl, rfl⟩ | ⟨digit, fits, rfl, room, later⟩⟩ := readVarIntLoop_cases run
    · have more : ¬ (n + 1) * 128 + byte.toNat ≤ 0x7f := by omega
      have quotient : ((n + 1) * 128 + byte.toNat) / 128 - 1 = n := by omega
      have remainder : ((n + 1) * 128 + byte.toNat) % 128 + 0 = byte.toNat := by omega
      rw [writeVarIntLoop_more more, quotient, remainder, UInt8.ofNat_toNat, ten _ small]
    · have more : ¬ (n + 1) * 128 + digit ≤ 0x7f := by omega
      have quotient : ((n + 1) * 128 + digit) / 128 - 1 = n := by omega
      have remainder : ((n + 1) * 128 + digit) % 128 = digit := by omega
      rw [← ih later, writeVarIntLoop_more more, quotient, remainder, ten _ small]

theorem eq_of_readVarInt (shape : max % 128 = 127) (word : max ≤ maxUInt64)
    (run : (readVarInt max).run bytes = some (value, rest)) :
    bytes = writeVarInt value ++ rest ∧ value ≤ max := by
  have loop : readVarIntLoop max 0 bytes = some (value, rest) := run
  refine ⟨?_, le_of_readVarIntLoop shape loop⟩
  rw [writeVarInt, writeVarIntLoop_append, List.nil_append]
  cases bytes with
  | nil => cases loop
  | cons byte bytes =>
    obtain ⟨-, ⟨low, rfl, rfl⟩ | ⟨digit, small, rfl, room, later⟩⟩ := readVarIntLoop_cases loop
    · rw [writeVarIntLoop_last (by omega), zero_mul, zero_add, add_zero,
        UInt8.ofNat_toNat]
    · rw [← written_of_readVarIntLoop shape word later, writeVarIntLoop_last (by omega),
        zero_mul, zero_add]

theorem canonical_signedVarIntFormat : signedVarIntFormat.Canonical := by
  intro bytes value rest run
  have read : (readVarInt maxInt32 >>= fun n => (return Int32.ofNat n : Reader Int32)).run bytes =
      some (value, rest) := run
  obtain ⟨⟨n, left⟩, first, done⟩ := bind_eq_some_iff.mp read
  cases done
  obtain ⟨spelled, bounded⟩ := eq_of_readVarInt (by decide) (by decide) first
  have small : n < 2 ^ 31 := lt_of_le_of_lt bounded (by decide)
  show _ = writeSignedVarInt (Int32.ofNat n) ++ _
  rw [writeSignedVarInt, Int32.toInt_ofNat_of_lt small, if_neg (by omega), toNat_natCast]
  exact spelled

def maxInt64 : Nat := 2 ^ 63 - 1

/-- `WriteVarInt` of a signed word of 64 bits, which like that of 32 bits ends at once
for a negative one. -/
def writeSignedVarInt64 (value : Int64) : List UInt8 :=
  if value.toInt < 0 then [UInt8.ofNat (value.toBitVec.toNat % 128)]
  else writeVarInt value.toInt.toNat

def readSignedVarInt64 : Reader Int64 := do
  let value ← readVarInt maxInt64
  return Int64.ofNat value

theorem ofNat_toNat_toInt64 {value : Int64} (notNegative : ¬ value.toInt < 0) :
    Int64.ofNat value.toInt.toNat = value := by
  have high := value.toInt_lt
  apply Int64.toInt_inj.mp
  rw [Int64.toInt_ofNat_of_lt (by omega), toNat_of_nonneg (by omega)]

/-- The bytes of a signed word: those that are not negative are read back. -/
def signedVarInt64Format : Format Int64 where
  write := writeSignedVarInt64
  read := readSignedVarInt64
  Good := fun value => 0 ≤ value.toInt
  reads := by
    intro value notNegative
    have high := value.toInt_lt
    have bounded : value.toInt.toNat ≤ maxInt64 := by
      unfold maxInt64
      omega
    rw [writeSignedVarInt64, if_neg (by omega)]
    refine (reads_readVarInt bounded (le_trans bounded (by decide))).last ?_
    rw [ofNat_toNat_toInt64 (by omega)]
    exact Reads.pure value
  good := by
    intro value rest left run
    rw [readSignedVarInt64, StateT.run_bind] at run
    obtain ⟨⟨n, after⟩, first, done⟩ := bind_eq_some_iff.mp run
    cases done
    obtain ⟨-, bounded⟩ := eq_of_readVarInt (by decide) (by decide) first
    have small : n < 2 ^ 63 := lt_of_le_of_lt bounded (by decide)
    rw [Int64.toInt_ofNat_of_lt small]
    exact natCast_nonneg n

theorem canonical_signedVarInt64Format : signedVarInt64Format.Canonical := by
  intro bytes value rest run
  have read : (readVarInt maxInt64 >>= fun n => (return Int64.ofNat n : Reader Int64)).run bytes =
      some (value, rest) := run
  obtain ⟨⟨n, left⟩, first, done⟩ := bind_eq_some_iff.mp read
  cases done
  obtain ⟨spelled, bounded⟩ := eq_of_readVarInt (by decide) (by decide) first
  have small : n < 2 ^ 63 := lt_of_le_of_lt bounded (by decide)
  show _ = writeSignedVarInt64 (Int64.ofNat n) ++ _
  rw [writeSignedVarInt64, Int64.toInt_ofNat_of_lt small, if_neg (by omega), toNat_natCast]
  exact spelled

/-! ## The codes of each type -/

theorem readVarIntLoop_of_le {n larger : Nat} (shape : max % 128 = 127) (le : max ≤ larger)
    (run : readVarIntLoop max n bytes = some (value, rest)) :
    readVarIntLoop larger n bytes = some (value, rest) := by
  induction bytes generalizing n with
  | nil => cases run
  | cons byte bytes ih =>
    obtain ⟨inRange, ⟨low, rfl, rfl⟩ | ⟨digit, small, rfl, room, later⟩⟩ := readVarIntLoop_cases run
    · have last := @readVarIntLoop_last n larger _ (by omega) low bytes
      rwa [UInt8.ofNat_toNat] at last
    · rw [readVarIntLoop_more (by omega) small (by omega)]
      exact ih later

/-- The loop of `GetSizeOfVarInt`. -/
def getSizeOfVarIntLoop : (rounds n : Nat) → Nat
  | 0, _ => 0
  | rounds + 1, n => if n ≤ 0x7f then 1 else getSizeOfVarIntLoop rounds (n / 128 - 1) + 1

theorem length_writeVarIntLoop (rounds n flag : Nat) (written : List UInt8) :
    (writeVarIntLoop rounds n flag written).length =
      getSizeOfVarIntLoop rounds n + written.length := by
  induction rounds generalizing n flag written with
  | zero => simp [writeVarIntLoop, getSizeOfVarIntLoop]
  | succ rounds ih =>
    rw [writeVarIntLoop, getSizeOfVarIntLoop]
    split
    · rw [List.length_cons, add_comm]
    · rw [ih, List.length_cons, add_assoc, add_comm 1]

def getSizeOfCompactSize (nSize : Nat) : Nat :=
  if nSize < 253 then 1 else if nSize ≤ 0xffff then 1 + 2
  else if nSize ≤ 0xffffffff then 1 + 4 else 1 + 8

/-- An integer type of one, two, four or eight bytes. -/
structure IntType where
  width : Fin 4
  isSigned : Bool

namespace IntType

variable (type : IntType)

def bits : Nat := 8 * 2 ^ type.width.val

def largest : Nat := 2 ^ (type.bits - type.isSigned.toNat) - 1

/-- The size of the buffer `tmp` of `WriteVarInt`. -/
def rounds : Nat := (type.bits + 6) / 7

def writeVarInt (n : Nat) : List UInt8 := writeVarIntLoop type.rounds n 0 []

theorem largest_spec : type.largest % 128 = 127 ∧ type.largest ≤ maxUInt64 ∧
    type.largest < 128 ^ type.rounds ∧ 0 < type.rounds ∧ type.rounds ≤ 10 := by
  obtain ⟨width, isSigned⟩ := type
  revert width isSigned
  decide

/-- For every type the two codes are read back, accepted in one spelling, refused for numbers
that do not fit, and as long as their size functions say. -/
theorem codes_bijective :
    (∀ n ≤ type.largest, Reads (readVarInt type.largest) (type.writeVarInt n) n ∧
      getSizeOfVarIntLoop type.rounds n = (type.writeVarInt n).length) ∧
    (∀ bytes n rest, (readVarInt type.largest).run bytes = some (n, rest) →
      n ≤ type.largest ∧ bytes = type.writeVarInt n ++ rest) ∧
    (∀ rounds n rest, type.largest < n → n < 128 ^ rounds →
      (readVarInt type.largest).run (writeVarIntLoop rounds n 0 rest) = none) ∧
    (∀ n ≤ maxSize, Reads readCompactSize (writeCompactSize n) n) ∧
    (∀ bytes n rest, readCompactSize.run bytes = some (n, rest) →
      n ≤ maxSize ∧ bytes = writeCompactSize n ++ rest) ∧
    ∀ n, getSizeOfCompactSize n = (writeCompactSize n).length := by
  obtain ⟨shape, word, fits, positive, few⟩ := type.largest_spec
  have written : ∀ n ≤ type.largest, type.writeVarInt n = Serialize.writeVarInt n :=
    fun n bounded =>
    (writeVarIntLoop_of_le positive (lt_of_le_of_lt bounded fits) few 0 []).symm
  refine ⟨fun n bounded => ⟨?_, ?_⟩, fun bytes n rest run => ?_,
    fun rounds n rest above enough => ?_,
    fun n bounded => reads_readCompactSize bounded, fun bytes n rest run =>
      ⟨le_maxSize_of_readCompactSize run, canonical_compactSizeFormat _ _ _ run⟩, fun n => ?_⟩
  · rw [written n bounded]
    exact reads_readVarInt bounded (le_trans bounded word)
  · exact (length_writeVarIntLoop _ n 0 []).symm
  · obtain ⟨spelled, bounded⟩ := eq_of_readVarInt shape word run
    rw [written n bounded]
    exact ⟨bounded, spelled⟩
  · cases rounds with
    | zero => omega
    | succ rounds =>
      by_contra accepted
      obtain ⟨⟨value, left⟩, run⟩ := ne_none_iff_exists'.mp accepted
      have room := readVarIntLoop_of_le shape above.le run
      rw [(readVarIntLoop_writeVarIntLoop rounds n le_rfl enough rest).1] at room
      cases room
      exact absurd (le_of_readVarIntLoop shape run) (Nat.not_le.mpr above)
  · unfold getSizeOfCompactSize writeCompactSize
    split_ifs <;> rfl

end IntType

end MooncoinFormal.Serialize
