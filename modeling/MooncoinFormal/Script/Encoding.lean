import MooncoinFormal.Library.Checks
import MooncoinFormal.Primitives.Script

/-!
# Rules, numbers and encodings of scripts

`script/interpreter.h`, `script/script_error.h` and the first part of
`script/interpreter.cpp`: the flags that switch rules on, the errors, the numbers
of the stack (`CScriptNum`), and the functions that look at the bytes of a
signature, a public key or a push.
-/

namespace MooncoinFormal.Script

open Library.Checks Library.Codec Primitives CScript

/-- `valtype`: an element of the stack. -/
abbrev Valtype := List UInt8

/-! ## Flags and errors -/

/-- The `SCRIPT_VERIFY_*` flags. -/
inductive VerifyFlag where
  | p2sh
  | strictEnc
  | derSig
  | lowS
  | nullDummy
  | sigPushOnly
  | minimalData
  | discourageUpgradableNops
  | cleanStack
  | checkLockTimeVerify
  | checkSequenceVerify
  | witness
  | discourageUpgradableWitnessProgram
  | minimalIf
  | nullFail
  | witnessPubKeyType
  | constScriptCode
  | taproot
  | discourageUpgradableTaprootVersion
  | discourageOpSuccess
  | discourageUpgradablePubKeyType
  deriving DecidableEq, Repr

def VerifyFlag.bit : VerifyFlag → Nat
  | .p2sh => 0
  | .strictEnc => 1
  | .derSig => 2
  | .lowS => 3
  | .nullDummy => 4
  | .sigPushOnly => 5
  | .minimalData => 6
  | .discourageUpgradableNops => 7
  | .cleanStack => 8
  | .checkLockTimeVerify => 9
  | .checkSequenceVerify => 10
  | .witness => 11
  | .discourageUpgradableWitnessProgram => 12
  | .minimalIf => 13
  | .nullFail => 14
  | .witnessPubKeyType => 15
  | .constScriptCode => 16
  | .taproot => 17
  | .discourageUpgradableTaprootVersion => 18
  | .discourageOpSuccess => 19
  | .discourageUpgradablePubKeyType => 20

/-- The `unsigned int` of flags. -/
abbrev Flags := BitVec 32

variable (flags : Flags)

namespace Flags

/-- `flags & SCRIPT_VERIFY_…`. -/
def has (flag : VerifyFlag) : Bool := flags.getLsbD flag.bit

def Subset (fewer more : Flags) : Prop := fewer &&& more = fewer

instance (fewer more : Flags) : Decidable (Subset fewer more) :=
  inferInstanceAs (Decidable (_ = _))

theorem Subset.has {fewer more : Flags} (subset : Subset fewer more) {flag : VerifyFlag}
    (isSet : fewer.has flag = true) : more.has flag = true := by
  have both : (fewer &&& more).getLsbD flag.bit = true := by
    rw [show fewer &&& more = fewer from subset]
    exact isSet
  rw [BitVec.getLsbD_and, Bool.and_eq_true] at both
  exact both.2

/-- `IsValidFlagCombination`: `CLEANSTACK` needs `P2SH` and `WITNESS`, and `WITNESS`
needs `P2SH`. -/
def isValidCombination : Bool :=
  if flags.has .cleanStack && !(flags.has .p2sh && flags.has .witness) then false
  else if flags.has .witness && !flags.has .p2sh then false
  else true

theorem isValidCombination_iff {flags : Flags} :
    flags.isValidCombination = true ↔
      (flags.has .cleanStack = true → flags.has .p2sh = true ∧ flags.has .witness = true) ∧
      (flags.has .witness = true → flags.has .p2sh = true) := by
  unfold isValidCombination
  cases flags.has .cleanStack <;> cases flags.has .p2sh <;> cases flags.has .witness <;> decide

end Flags

/-- `ScriptError`; `assertion` stands for a failed `assert`. -/
inductive ScriptError where
  | unknownError
  | evalFalse
  | opReturn
  | scriptSize
  | pushSize
  | opCount
  | stackSize
  | sigCount
  | pubKeyCount
  | verify
  | equalVerify
  | checkMultiSigVerify
  | checkSigVerify
  | numEqualVerify
  | badOpcode
  | disabledOpcode
  | invalidStackOperation
  | invalidAltStackOperation
  | unbalancedConditional
  | negativeLockTime
  | unsatisfiedLockTime
  | sigHashType
  | sigDer
  | minimalData
  | sigPushOnly
  | sigHighS
  | sigNullDummy
  | pubKeyType
  | cleanStack
  | minimalIf
  | sigNullFail
  | discourageUpgradableNops
  | discourageUpgradableWitnessProgram
  | discourageUpgradableTaprootVersion
  | discourageOpSuccess
  | discourageUpgradablePubKeyType
  | witnessProgramWrongLength
  | witnessProgramWitnessEmpty
  | witnessProgramMismatch
  | witnessMalleated
  | witnessMalleatedP2sh
  | witnessUnexpected
  | witnessPubKeyType
  | schnorrSigSize
  | schnorrSigHashType
  | schnorrSig
  | taprootWrongControlSize
  | tapscriptValidationWeight
  | tapscriptCheckMultiSig
  | tapscriptMinimalIf
  | opCodeSeparator
  | sigFindAndDelete
  | assertion
  deriving DecidableEq, Repr

inductive SigVersion where
  | base
  | witnessV0
  | taproot
  | tapscript
  deriving DecidableEq, Repr

/-- `sigversion == BASE || sigversion == WITNESS_V0`. -/
def SigVersion.isPreTapscript : SigVersion → Bool
  | .base | .witnessV0 => true
  | .taproot | .tapscript => false

/-- `CastToBool`: zero and negative zero are false. -/
def castToBool : Valtype → Bool
  | [] => false
  | byte :: rest => if byte ≠ 0 then !(rest.isEmpty && byte == 0x80) else castToBool rest

def vchFalse : Valtype := []
def vchTrue : Valtype := [1]

def ofBool (value : Bool) : Valtype := if value then vchTrue else vchFalse

variable (vch : Valtype)

namespace CScriptNum

/-- `set_vch`: the lowest byte first, the sign in the highest bit of the last. -/
def setVch : Int :=
  match vch.getLast? with
  | none => 0
  | some last =>
    if 0x80 ≤ last then -((littleEndian vch : Int) - 0x80 * 256 ^ (vch.length - 1))
    else littleEndian vch

/-- The number is written with the fewest bytes possible. -/
def isMinimal : Bool :=
  match vch.reverse with
  | [] => true
  | [last] => last &&& 0x7f != 0
  | last :: second :: _ => last &&& 0x7f != 0 || second &&& 0x80 != 0

/-- `CScriptNum(vch, fRequireMinimal, nMaxNumSize)`; the exceptions it throws end a
script with an unknown error. -/
def ofVch (nMaxNumSize : Nat) : Except ScriptError Int := do
  ensure (vch.length ≤ nMaxNumSize) .unknownError
  ensure (flags.has .minimalData = true → isMinimal vch = true) .unknownError
  .ok (setVch vch)

def nDefaultMaxNumSize : Nat := 4

/-- The number of an operand of the usual size. -/
def operand : Except ScriptError Int :=
  ofVch flags vch nDefaultMaxNumSize

/-- `getint`: clamped to the range of an `int`. -/
def getInt (value : Int) : Int := max (-2 ^ 31) (min value (2 ^ 31 - 1))

def serialize (value : Int) : Valtype :=
  let result := numberBytes 8 value.natAbs
  match result.getLast? with
  | none => []
  | some last =>
    if 0x80 ≤ last then result ++ [if value < 0 then 0x80 else 0]
    else if value < 0 then result.dropLast ++ [last ||| 0x80]
    else result

end CScriptNum

/-! ## Pushes -/

/-- `CScript() << b`. -/
def pushData (b : Valtype) : CScript :=
  if b.length < 0x4c then UInt8.ofNat b.length :: b
  else if b.length ≤ 0xff then opPushData1 :: UInt8.ofNat b.length :: b
  else if b.length ≤ 0xffff then opPushData2 :: toBytes 2 b.length ++ b
  else opPushData4 :: toBytes 4 b.length ++ b

def checkMinimalPush (data : Valtype) (opcode : UInt8) : Bool :=
  if data.length = 0 then opcode == 0
  else if data.length = 1 ∧ 1 ≤ data.headD 0 ∧ data.headD 0 ≤ 16 then false
  else if data.length = 1 ∧ data.headD 0 = 0x81 then false
  else if data.length ≤ 75 then opcode.toNat == data.length
  else if data.length ≤ 255 then opcode == opPushData1
  else if data.length ≤ 65535 then opcode == opPushData2
  else true

/-- The inner loop of `FindAndDelete`: skip the copies of `b` at the cursor. -/
def skipCopies (b : CScript) : (bytes : Nat) → (pc : CScript) → (nFound : Nat) → CScript × Nat
  | 0, pc, nFound => (pc, nFound)
  | bytes + 1, pc, nFound =>
    if pc.take b.length = b then skipCopies b bytes (pc.drop b.length) (nFound + 1)
    else (pc, nFound)

/-- The outer loop of `FindAndDelete`: what is kept of the script from the cursor on,
and how many copies of `b` are dropped. The copies at the cursor are skipped before
every operation, and the rest of a script that cannot be read is kept. -/
def findAndDeleteLoop (b : CScript) : (bytes : Nat) → (pc : CScript) → CScript × Nat
  | 0, pc => (pc, 0)
  | bytes + 1, pc =>
    let (kept, nFound) := skipCopies b pc.length pc 0
    match getOp kept with
    | none => (kept, nFound)
    | some (_, _, rest) =>
      let (result, later) := findAndDeleteLoop b bytes rest
      (kept.take (kept.length - rest.length) ++ result, nFound + later)

/-- `FindAndDelete`: the script without the copies of `b`, and their number. -/
def findAndDelete (script b : CScript) : CScript × Nat :=
  if b = [] then (script, 0) else findAndDeleteLoop b (script.length + 1) script

theorem skipCopies_length_le (b : CScript) (bytes : Nat) (pc : CScript) (nFound : Nat) :
    (skipCopies b bytes pc nFound).1.length ≤ pc.length := by
  induction bytes generalizing pc nFound with
  | zero => exact le_refl _
  | succ bytes ih =>
    unfold skipCopies
    split
    · have shorter := ih (pc.drop b.length) (nFound + 1)
      rw [List.length_drop] at shorter
      omega
    · exact le_refl _

theorem findAndDeleteLoop_enough (b : CScript) {bytes : Nat} {pc : CScript}
    (enough : pc.length < bytes) (more : Nat) :
    findAndDeleteLoop b (bytes + more) pc = findAndDeleteLoop b bytes pc := by
  induction bytes generalizing pc with
  | zero => omega
  | succ bytes ih =>
    rw [add_right_comm]
    simp only [findAndDeleteLoop]
    split
    · rfl
    · rename_i read
      have shorter := getOp_length_lt read
      have kept := skipCopies_length_le b pc.length pc 0
      rw [ih (by omega)]

def compressedSize : Nat := 33
def uncompressedSize : Nat := 65

def isCompressedOrUncompressedPubKey (vchPubKey : Valtype) : Bool :=
  if vchPubKey.length < compressedSize then false
  else if vchPubKey.headD 0 = 0x04 then vchPubKey.length == uncompressedSize
  else if vchPubKey.headD 0 = 0x02 ∨ vchPubKey.headD 0 = 0x03 then
    vchPubKey.length == compressedSize
  else false

def isCompressedPubKey (vchPubKey : Valtype) : Bool :=
  vchPubKey.length == compressedSize &&
    (vchPubKey.headD 0 == 0x02 || vchPubKey.headD 0 == 0x03)

/-- An integer of a signature whose bytes start at `start`: not empty, not negative,
and without a zero byte that it does not need. -/
def isValidInteger (sig : Valtype) (start len : Nat) : Bool :=
  len != 0 && sig.getD start 0 &&& 0x80 == 0 &&
    !(1 < len && sig.getD start 0 == 0 && sig.getD (start + 1) 0 &&& 0x80 == 0)

/-- `IsValidSignatureEncoding`:
`30 [total length] 02 [length of R] [R] 02 [length of S] [S] [hash type]`. -/
def isValidSignatureEncoding (sig : Valtype) : Bool :=
  let lenR := (sig.getD 3 0).toNat
  let lenS := (sig.getD (5 + lenR) 0).toNat
  if sig.length < 9 ∨ 73 < sig.length then false
  else if sig.getD 0 0 ≠ 0x30 then false
  else if (sig.getD 1 0).toNat ≠ sig.length - 3 then false
  else if sig.length ≤ 5 + lenR then false
  else if lenR + lenS + 7 ≠ sig.length then false
  else sig.getD 2 0 == 0x02 && isValidInteger sig 4 lenR &&
    (sig.getD (lenR + 4) 0 == 0x02 && isValidInteger sig (lenR + 6) lenS)

def isDefinedHashtypeSignature (vchSig : Valtype) : Bool :=
  match vchSig.getLast? with
  | none => false
  | some last => 1 ≤ last &&& 0x7f && last &&& 0x7f ≤ 3

/-- `CheckSignatureEncoding`, with `CPubKey::CheckLowS` as a parameter. -/
def checkSignatureEncoding (checkLowS : Valtype → Bool) (flags : Flags) (vchSig : Valtype) :
    Except ScriptError Unit :=
  if vchSig.length = 0 then .ok ()
  else do
    ensure ((flags.has .derSig || flags.has .lowS || flags.has .strictEnc) = true →
      isValidSignatureEncoding vchSig = true) .sigDer
    -- `IsLowDERSignature` repeats the check above before it drops the hash type.
    ensure (flags.has .lowS = true → isValidSignatureEncoding vchSig = true) .sigDer
    ensure (flags.has .lowS = true → checkLowS vchSig.dropLast = true) .sigHighS
    ensure (flags.has .strictEnc = true → isDefinedHashtypeSignature vchSig = true) .sigHashType

def checkPubKeyEncoding (sigversion : SigVersion) (vchPubKey : Valtype) :
    Except ScriptError Unit := do
  ensure (flags.has .strictEnc = true → isCompressedOrUncompressedPubKey vchPubKey = true)
    .pubKeyType
  ensure (flags.has .witnessPubKeyType = true → sigversion = .witnessV0 →
    isCompressedPubKey vchPubKey = true) .witnessPubKeyType

end MooncoinFormal.Script
