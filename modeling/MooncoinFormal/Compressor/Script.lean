import MooncoinFormal.Compressor.Amount
import MooncoinFormal.Primitives.Transaction
import MooncoinFormal.Serialize.Integers

/-!
# Compact coding of scripts and outputs

`ScriptCompression` and `TxOutCompression`. Payments to a key hash, a script hash
or a public key are written as a tag below six and the hash or the coordinate;
every other script as its size plus six and its bytes. Whether a point lies on
the curve, and which point a coordinate belongs to, is a parameter.
-/

namespace MooncoinFormal.Compressor

open Primitives Serialize Library.Codec CScript List Option UInt8 Nat

/-! ## Recognized forms -/

/-- The public keys of the curve, as bytes. -/
structure PubKeys where
  isFullyValid : List UInt8 → Bool
  /-- `CPubKey::Decompress`: the full form of a compressed key. -/
  decompress : List UInt8 → Option (List UInt8)
  /-- A valid key is determined by its first coordinate and the parity of the second. -/
  decompress_of_isFullyValid : ∀ x y : List UInt8, x.length = 32 → y.length = 32 →
    isFullyValid (4 :: x ++ y) = true →
      decompress ((2 ||| (y.getLastD 0 &&& 1)) :: x) = some (4 :: x ++ y)
  /-- A full key has 65 bytes. -/
  decompress_length : ∀ compressed key, decompress compressed = some key → key.length = 65

variable (keys : PubKeys)

def opDup : UInt8 := 0x76
def opEqualVerify : UInt8 := 0x88

/-- The `size` bytes between a fixed start and a fixed end of a script. -/
def framed (start finish : List UInt8) (size : Nat) (script : CScript) : Option (List UInt8) :=
  if script.length = start.length + size + finish.length ∧ script.take start.length = start ∧
      script.drop (start.length + size) = finish then
    some ((script.drop start.length).take size)
  else none

def isToKeyID : CScript → Option (List UInt8) :=
  framed [opDup, opHash160, 20] [opEqualVerify, opCheckSig] 20

def isToScriptID : CScript → Option (List UInt8) :=
  framed [opHash160, 20] [opEqual] 20

variable (script : CScript)

/-- `IsToPubKey`: a compressed key, or a full one that is valid. -/
def isToPubKey : Option (List UInt8) :=
  match framed [33] [opCheckSig] 33 script, framed [65] [opCheckSig] 65 script with
  | some key, _ => if key.head? = some 2 ∨ key.head? = some 3 then some key else none
  | none, some key => if key.head? = some 4 ∧ keys.isFullyValid key = true then some key else none
  | none, none => none

def compressPubKey (key : List UInt8) : List UInt8 :=
  match key with
  | [] => []
  | first :: rest =>
    if first = 4 then (4 ||| (rest.getLastD 0 &&& 1)) :: rest.take 32 else first :: rest.take 32

def compressScript : Option (List UInt8) :=
  match isToKeyID script, isToScriptID script, isToPubKey keys script with
  | some hash, _, _ => some (0 :: hash)
  | none, some hash, _ => some (1 :: hash)
  | none, none, some key => some (compressPubKey key)
  | none, none, none => none

variable (nSize : Nat)

def getSpecialScriptSize : Nat :=
  if nSize = 0 ∨ nSize = 1 then 20 else if nSize ≤ 5 then 32 else 0

/-- `DecompressScript`; the script stays empty when the point does not exist. -/
def decompressScript (data : List UInt8) : CScript :=
  match nSize with
  | 0 => [opDup, opHash160, 20] ++ data ++ [opEqualVerify, opCheckSig]
  | 1 => [opHash160, 20] ++ data ++ [opEqual]
  | 2 => [33, 2] ++ data ++ [opCheckSig]
  | 3 => [33, 3] ++ data ++ [opCheckSig]
  | 4 | 5 =>
    match keys.decompress (ofNat (nSize - 2) :: data) with
    | some key => [65] ++ key ++ [opCheckSig]
    | none => []
  | _ => []

def nSpecialScripts : Nat := 6

/-- `ScriptCompression::Ser`. -/
def writeScript : List UInt8 :=
  match compressScript keys script with
  | some compressed => compressed
  | none => writeVarInt ((script.length + nSpecialScripts) % 2 ^ 32) ++ script

def readSized : Reader CScript :=
  if nSize < nSpecialScripts then do
    let data ← readBytes (getSpecialScriptSize nSize)
    return decompressScript keys nSize data
  else if maxScriptSize < nSize - nSpecialScripts then do
    let _ ← readBytes (nSize - nSpecialScripts)
    return [opReturn]
  else readBytes (nSize - nSpecialScripts)

/-- `ScriptCompression::Unser`. -/
def readScript : Reader CScript := do
  let nSize ← readVarInt maxUInt32
  readSized keys nSize

variable (nValue : CAmount)

/-- `AmountCompression::Ser`. -/
def writeAmount : List UInt8 :=
  writeVarInt (compressAmount nValue.toUInt64).toNat

/-- `AmountCompression::Unser`. -/
def readAmount : Reader CAmount := do
  let value ← readVarInt maxUInt64
  return (decompressAmount (UInt64.ofNat value)).toInt64

/-- `TxOutCompression`. -/
def writeTxOut (out : CTxOut) : List UInt8 :=
  writeAmount out.nValue ++ writeScript keys out.scriptPubKey

def readTxOut : Reader CTxOut := do
  let nValue ← readAmount
  let scriptPubKey ← readScript keys
  return ⟨nValue, scriptPubKey⟩

/-! ## Reading scripts back -/

variable {keys}

variable {script : CScript}

theorem framed_eq_some {start finish : List UInt8} {size : Nat} {data : List UInt8} :
    framed start finish size script = some data ↔
      data.length = size ∧ script = start ++ data ++ finish := by
  unfold framed
  constructor
  · intro found
    split at found
    · rename_i shape
      obtain ⟨length, first, rest⟩ := shape
      cases found
      refine ⟨by simp; omega, ?_⟩
      calc script = script.take start.length ++
            ((script.drop start.length).take size ++ (script.drop start.length).drop size) := by
              rw [take_append_drop, take_append_drop]
        _ = start ++ (script.drop start.length).take size ++ finish := by
              rw [drop_drop, first, rest, append_assoc]
    · cases found
  · rintro ⟨rfl, rfl⟩
    rw [if_pos]
    · simp
    · refine ⟨by simp; omega, by simp, ?_⟩
      rw [← length_append, drop_left]

theorem reads_readScript_special (keys : PubKeys) (tag : Nat) (data : List UInt8)
    (special : tag < nSpecialScripts) (size : data.length = getSpecialScriptSize tag) :
    Reads (readScript keys) (ofNat tag :: data) (decompressScript keys tag data) := by
  have short : tag ≤ 0x7f := le_of_lt (lt_trans special (by decide))
  have tagged : writeVarInt tag = [ofNat tag] := writeVarIntLoop_last short 9 0 []
  have first : Reads (readVarInt maxUInt32) (writeVarInt tag) tag :=
    reads_readVarInt (le_trans short (by decide)) (le_trans short (by decide))
  rw [tagged] at first
  refine first.bind ?_
  rw [readSized, if_pos special, ← size]
  exact (reads_readBytes data).last (Reads.pure _)

theorem reads_readScript_sized {result : CScript}
    (bounded : script.length + nSpecialScripts ≤ maxUInt32)
    (read : Reads (readSized keys (script.length + nSpecialScripts)) script result) :
    Reads (readScript keys) (writeVarInt ((script.length + nSpecialScripts) % 2 ^ 32) ++ script)
      result := by
  rw [mod_eq_of_lt (lt_of_le_of_lt bounded (by decide))]
  exact (reads_readVarInt bounded (le_trans bounded (by decide))).bind read

theorem reads_readScript_plain (size : script.length ≤ maxScriptSize) :
    Reads (readScript keys) (writeVarInt ((script.length + nSpecialScripts) % 2 ^ 32) ++ script)
      script := by
  refine reads_readScript_sized (le_trans (Nat.add_le_add_right size _) (by decide)) ?_
  rw [readSized, if_neg (by omega), Nat.add_sub_cancel, if_neg (by omega)]
  exact reads_readBytes script

theorem parity_tag (byte : UInt8) :
    ∃ tag, (tag = 4 ∨ tag = 5) ∧ 4 ||| (byte &&& 1) = ofNat tag ∧
      2 ||| (byte &&& 1) = ofNat (tag - 2) := by
  have parity : (byte &&& 1).toNat = byte.toNat % 2 := by
    exact and_one_is_mod _
  rcases mod_two_eq_zero_or_one byte.toNat with even | odd
  · have low : byte &&& 1 = 0 := UInt8.toNat_inj.mp (parity.trans even)
    exact ⟨4, .inl rfl, by rw [low]; rfl, by rw [low]; rfl⟩
  · have low : byte &&& 1 = 1 := UInt8.toNat_inj.mp (parity.trans odd)
    exact ⟨5, .inr rfl, by rw [low]; rfl, by rw [low]; rfl⟩

theorem reads_readScript_fullKey {rest : List UInt8} (size : rest.length = 64)
    (valid : keys.isFullyValid (4 :: rest) = true) :
    Reads (readScript keys) (compressPubKey (4 :: rest)) ([65] ++ (4 :: rest) ++ [opCheckSig]) := by
  have split : rest = rest.take 32 ++ rest.drop 32 := (take_append_drop 32 rest).symm
  have first : (rest.take 32).length = 32 := by simp [size]
  have second : (rest.drop 32).length = 32 := by simp [size]
  have parity : (rest.drop 32).getLastD 0 = rest.getLastD 0 := by
    rw [getLastD_eq_getLast?, getLastD_eq_getLast?, getLast?_drop, if_neg (by omega)]
  have law := keys.decompress_of_isFullyValid _ _ first second (by rwa [cons_append, ← split])
  rw [parity, cons_append, ← split] at law
  have compressed : compressPubKey (4 :: rest) =
      (4 ||| (rest.getLastD 0 &&& 1)) :: rest.take 32 := rfl
  rw [compressed]
  obtain ⟨tag, full, tagged, prefixed⟩ := parity_tag (rest.getLastD 0)
  rw [prefixed] at law
  have whole : decompressScript keys tag (rest.take 32) = [65] ++ 4 :: rest ++ [opCheckSig] := by
    rcases full with rfl | rfl <;> simp only [decompressScript, law]
  rw [tagged, ← whole]
  refine reads_readScript_special keys tag _ ?_ ?_
  · rcases full with rfl | rfl <;> decide
  · rcases full with rfl | rfl <;> exact first

theorem reads_readScript_pubKey {key : List UInt8} (found : isToPubKey keys script = some key) :
    Reads (readScript keys) (compressPubKey key) script := by
  unfold isToPubKey at found
  cases short : framed [33] [opCheckSig] 33 script with
  | some key' =>
    obtain ⟨size, rfl⟩ := framed_eq_some.mp short
    simp only [short, ite_none_right_eq_some, some.injEq] at found
    obtain ⟨tag, rfl⟩ := found
    match key' with
    | [] => cases size
    | first :: x =>
      have size' : x.length = 32 := succ.inj size
      have full : x.take 32 = x := take_of_length_le (le_of_eq size')
      simp only [head?_cons, some.injEq] at tag
      rcases tag with rfl | rfl
      · simpa [compressPubKey, full, decompressScript] using
          reads_readScript_special keys 2 x (by decide) size'
      · simpa [compressPubKey, full, decompressScript] using
          reads_readScript_special keys 3 x (by decide) size'
  | none =>
    cases long : framed [65] [opCheckSig] 65 script with
    | none => simp [short, long] at found
    | some key' =>
      obtain ⟨size, rfl⟩ := framed_eq_some.mp long
      simp only [short, long, ite_none_right_eq_some, some.injEq] at found
      obtain ⟨⟨tag, valid⟩, rfl⟩ := found
      match key' with
      | [] => cases size
      | first :: rest =>
        simp only [head?_cons, some.injEq] at tag
        subst tag
        exact reads_readScript_fullKey (by simpa using size) valid

/-- Every script of allowed size is read back. -/
theorem reads_readScript (size : script.length ≤ maxScriptSize) :
    Reads (readScript keys) (writeScript keys script) script := by
  unfold writeScript compressScript
  cases keyId : isToKeyID script with
  | some hash =>
    obtain ⟨length, rfl⟩ := framed_eq_some.mp keyId
    exact reads_readScript_special keys 0 hash (by decide) length
  | none =>
    cases scriptId : isToScriptID script with
    | some hash =>
      obtain ⟨length, rfl⟩ := framed_eq_some.mp scriptId
      exact reads_readScript_special keys 1 hash (by decide) length
    | none =>
      cases pubKey : isToPubKey keys script with
      | some key => exact reads_readScript_pubKey pubKey
      | none => exact reads_readScript_plain size

theorem framed_of_long {start finish : List UInt8} {size : Nat}
    (long : start.length + size + finish.length < script.length) :
    framed start finish size script = none :=
  if_neg fun shape => by omega

theorem reads_readScript_long (long : maxScriptSize < script.length)
    (fits : script.length + nSpecialScripts ≤ maxUInt32) :
    Reads (readScript keys) (writeScript keys script) [opReturn] := by
  have above : 10000 < script.length := long
  have plain : compressScript keys script = none := by
    simp [compressScript, isToKeyID, isToScriptID, isToPubKey, framed_of_long, above.trans']
  rw [writeScript, plain]
  refine reads_readScript_sized fits ?_
  rw [readSized, if_neg (by omega), Nat.add_sub_cancel, if_pos long]
  exact (reads_readBytes script).last (Reads.pure _)

/-- Scripts of allowed size are read back from codes of their own; longer ones are skipped.
A `prevector` of 28 direct bytes keeps its size plus 29 in 32 bits. -/
theorem writeScript_lossless (keys : PubKeys) :
    (∀ script : CScript, script.length ≤ maxScriptSize →
      Reads (readScript keys) (writeScript keys script) script ∧
        ∀ other : CScript, other.length ≤ maxScriptSize →
          writeScript keys other = writeScript keys script → other = script) ∧
    ∀ script : CScript, maxScriptSize < script.length → script.length + 29 < 2 ^ 32 →
      Reads (readScript keys) (writeScript keys script) [opReturn] := by
  refine ⟨fun script size => ⟨reads_readScript size, fun other size' same => ?_⟩,
    fun script long fits => reads_readScript_long long ?_⟩
  · have read := @reads_readScript keys other size' []
    rw [same, reads_readScript size] at read
    cases read
    rfl
  · unfold nSpecialScripts maxUInt32
    omega

/-- The full form of a key on a curve on which both coordinates are the same. -/
def doubledKey (x : List UInt8) : List UInt8 := 4 :: x ++ x

def isDoubledKey (key : List UInt8) : Bool := key = doubledKey (key.tail.take 32)

def decompressDoubled : List UInt8 → Option (List UInt8)
  | [] => none
  | first :: x =>
    if x.length = 32 ∧ first = 2 ||| (x.getLastD 0 &&& 1) then some (doubledKey x) else none

theorem decompressDoubled_of_isDoubledKey (x y : List UInt8) (length : x.length = 32)
    (_ : y.length = 32) (valid : isDoubledKey (4 :: x ++ y) = true) :
    decompressDoubled ((2 ||| (y.getLastD 0 &&& 1)) :: x) = some (4 :: x ++ y) := by
  have same : 4 :: (x ++ y) = doubledKey ((x ++ y).take 32) := of_decide_eq_true valid
  rw [take_left' length] at same
  obtain rfl := append_cancel_left (cons.inj same).2
  exact if_pos ⟨length, rfl⟩

theorem length_decompressDoubled (compressed key : List UInt8)
    (found : decompressDoubled compressed = some key) : key.length = 65 := by
  cases compressed with
  | nil => cases found
  | cons first x =>
    obtain ⟨fits, same⟩ := Option.ite_none_right_eq_some.mp found
    rw [← Option.some.inj same]
    simp [doubledKey, fits.1]

def doubledKeys : PubKeys where
  isFullyValid := isDoubledKey
  decompress := decompressDoubled
  decompress_of_isFullyValid := decompressDoubled_of_isDoubledKey
  decompress_length := length_decompressDoubled

/-- A script that pays to a full key is written as 33 bytes and read back. -/
theorem writeScript_doubledKey :
    let script : CScript := 65 :: doubledKey (replicate 32 7) ++ [opCheckSig]
    (writeScript doubledKeys script).length = 33 ∧
      Reads (readScript doubledKeys) (writeScript doubledKeys script) script :=
  ⟨by decide +kernel, ((writeScript_lossless doubledKeys).1 _ (by decide)).1⟩

def recodedAmount : CAmount :=
  (decompressAmount (compressAmount nValue.toUInt64)).toInt64

theorem recodedAmount_eq_iff {value : CAmount} (range : moneyRange value = true) :
    recodedAmount value = value ↔ Compressible value := by
  rw [compressible_iff range, ← decodes_iff (toUInt64_le range), recodedAmount]
  constructor
  · intro same
    conv_rhs => rw [← same]
    rfl
  · intro same
    rw [same]
    rfl

theorem reads_readAmount : Reads readAmount (writeAmount nValue) (recodedAmount nValue) := by
  have bounded : (compressAmount nValue.toUInt64).toNat ≤ maxUInt64 :=
    le_sub_one_of_lt (compressAmount nValue.toUInt64).toNat_lt
  refine (reads_readVarInt bounded bounded).last ?_
  rw [UInt64.ofNat_toNat]
  exact Reads.pure _

theorem reads_readTxOut {out : CTxOut} (size : out.scriptPubKey.length ≤ maxScriptSize) :
    Reads (readTxOut keys) (writeTxOut keys out) { out with nValue := recodedAmount out.nValue } :=
  (reads_readAmount out.nValue).bind ((reads_readScript size).last (Reads.pure _))

end MooncoinFormal.Compressor
