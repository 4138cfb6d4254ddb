import MooncoinFormal.Script.Conditions
import MooncoinFormal.Script.Encoding

/-!
# The script interpreter

`EvalScript` of `script/interpreter.cpp`. A script runs on a stack, whose top is
the head of the list here; what it reaches besides the stack is the second stack,
the open conditionals, the part of the script that signatures commit to, the
number of operations, and the data of a taproot spend. The hash functions and the
checks against the spending transaction are parameters.
-/

namespace MooncoinFormal.Script

open Library.Checks Primitives CScriptNum

abbrev Stack := List Valtype

/-- `ScriptExecutionData`; a field is absent before it is initialised. -/
structure ScriptExecutionData where
  tapleafHash : Option (List UInt8) := none
  codeseparatorPos : Option Nat := none
  /-- The hash of the annex, for an input that has one. -/
  annex : Option (Option (List UInt8)) := none
  validationWeightLeft : Option Int := none
  deriving DecidableEq, Repr

/-- `BaseSignatureChecker`. -/
structure SignatureChecker where
  checkECDSASignature : (sig pubKey : Valtype) → (scriptCode : CScript) → SigVersion → Bool
  checkSchnorrSignature : (sig pubKey : Valtype) → SigVersion → ScriptExecutionData →
    Except ScriptError Unit
  checkLockTime : (nLockTime : Int) → Bool
  checkSequence : (nSequence : Int) → Bool

structure ScriptCrypto where
  ripemd160 : Valtype → Valtype
  sha1 : Valtype → Valtype
  sha256 : Valtype → Valtype
  hash160 : Valtype → Valtype
  hash256 : Valtype → Valtype
  /-- `CPubKey::CheckLowS`. -/
  checkLowS : Valtype → Bool
  /-- The hashes of `HASHER_TAPLEAF`, `HASHER_TAPBRANCH` and `HASHER_TAPTWEAK`. -/
  tapLeaf : List UInt8 → List UInt8
  tapBranch : List UInt8 → List UInt8
  tapTweak : List UInt8 → List UInt8
  /-- `q.CheckPayToContract(p, k, parity)`. -/
  checkPayToContract : (q p k : List UInt8) → (parity : Bool) → Bool

structure Context where
  crypto : ScriptCrypto
  checker : SignatureChecker

/-! ## Instructions -/

/-- The operations that only rearrange the stack. -/
inductive StackOp where
  | drop2
  | dup2
  | dup3
  | over2
  | rot2
  | swap2
  | ifDup
  | depth
  | drop
  | dup
  | nip
  | over
  | rot
  | swap
  | tuck
  | size
  deriving DecidableEq, Repr

inductive UnaryOp where
  | add1
  | sub1
  | negate
  | abs
  | not
  | notEqual0
  deriving DecidableEq, Repr

inductive BinaryOp where
  | add
  | sub
  | boolAnd
  | boolOr
  | numEqual
  | numEqualVerify
  | numNotEqual
  | lessThan
  | greaterThan
  | lessThanOrEqual
  | greaterThanOrEqual
  | min
  | max
  deriving DecidableEq, Repr

inductive HashOp where
  | ripemd160
  | sha1
  | sha256
  | hash160
  | hash256
  deriving DecidableEq, Repr

/-- The cases of the interpreter's `switch`, with the opcodes that share a case told
apart by a parameter. -/
inductive Instruction where
  | opN (value : Int)
  | opNop
  | opCheckLockTimeVerify
  | opCheckSequenceVerify
  | opUpgradableNop
  | opIf (notIf : Bool)
  | opElse
  | opEndIf
  | opVerify
  | opReturn
  | opToAltStack
  | opFromAltStack
  | opStack (op : StackOp)
  | opPick (roll : Bool)
  | opEqual (verify : Bool)
  | opUnary (op : UnaryOp)
  | opBinary (op : BinaryOp)
  | opWithin
  | opHash (op : HashOp)
  | opCodeSeparator
  | opCheckSig (verify : Bool)
  | opCheckSigAdd
  | opCheckMultiSig (verify : Bool)
  deriving DecidableEq, Repr

/-- The case of an opcode; the opcodes without one are bad. -/
def Instruction.ofOpcode (opcode : UInt8) : Option Instruction :=
  if 0x51 ≤ opcode ∧ opcode ≤ 0x60 then some (.opN (opcode.toNat - 0x50))
  else match opcode with
  | 0x4f => some (.opN (-1))
  | 0x61 => some .opNop
  | 0xb1 => some .opCheckLockTimeVerify
  | 0xb2 => some .opCheckSequenceVerify
  | 0xb0 | 0xb3 | 0xb4 | 0xb5 | 0xb6 | 0xb7 | 0xb8 | 0xb9 => some .opUpgradableNop
  | 0x63 => some (.opIf false)
  | 0x64 => some (.opIf true)
  | 0x67 => some .opElse
  | 0x68 => some .opEndIf
  | 0x69 => some .opVerify
  | 0x6a => some .opReturn
  | 0x6b => some .opToAltStack
  | 0x6c => some .opFromAltStack
  | 0x6d => some (.opStack .drop2)
  | 0x6e => some (.opStack .dup2)
  | 0x6f => some (.opStack .dup3)
  | 0x70 => some (.opStack .over2)
  | 0x71 => some (.opStack .rot2)
  | 0x72 => some (.opStack .swap2)
  | 0x73 => some (.opStack .ifDup)
  | 0x74 => some (.opStack .depth)
  | 0x75 => some (.opStack .drop)
  | 0x76 => some (.opStack .dup)
  | 0x77 => some (.opStack .nip)
  | 0x78 => some (.opStack .over)
  | 0x79 => some (.opPick false)
  | 0x7a => some (.opPick true)
  | 0x7b => some (.opStack .rot)
  | 0x7c => some (.opStack .swap)
  | 0x7d => some (.opStack .tuck)
  | 0x82 => some (.opStack .size)
  | 0x87 => some (.opEqual false)
  | 0x88 => some (.opEqual true)
  | 0x8b => some (.opUnary .add1)
  | 0x8c => some (.opUnary .sub1)
  | 0x8f => some (.opUnary .negate)
  | 0x90 => some (.opUnary .abs)
  | 0x91 => some (.opUnary .not)
  | 0x92 => some (.opUnary .notEqual0)
  | 0x93 => some (.opBinary .add)
  | 0x94 => some (.opBinary .sub)
  | 0x9a => some (.opBinary .boolAnd)
  | 0x9b => some (.opBinary .boolOr)
  | 0x9c => some (.opBinary .numEqual)
  | 0x9d => some (.opBinary .numEqualVerify)
  | 0x9e => some (.opBinary .numNotEqual)
  | 0x9f => some (.opBinary .lessThan)
  | 0xa0 => some (.opBinary .greaterThan)
  | 0xa1 => some (.opBinary .lessThanOrEqual)
  | 0xa2 => some (.opBinary .greaterThanOrEqual)
  | 0xa3 => some (.opBinary .min)
  | 0xa4 => some (.opBinary .max)
  | 0xa5 => some .opWithin
  | 0xa6 => some (.opHash .ripemd160)
  | 0xa7 => some (.opHash .sha1)
  | 0xa8 => some (.opHash .sha256)
  | 0xa9 => some (.opHash .hash160)
  | 0xaa => some (.opHash .hash256)
  | 0xab => some .opCodeSeparator
  | 0xac => some (.opCheckSig false)
  | 0xad => some (.opCheckSig true)
  | 0xba => some .opCheckSigAdd
  | 0xae => some (.opCheckMultiSig false)
  | 0xaf => some (.opCheckMultiSig true)
  | _ => none

/-- `OP_CAT`, `OP_SUBSTR`, `OP_LEFT`, `OP_RIGHT`, `OP_INVERT`, `OP_AND`, `OP_OR`,
`OP_XOR`, `OP_2MUL`, `OP_2DIV`, `OP_MUL`, `OP_DIV`, `OP_MOD`, `OP_LSHIFT` and
`OP_RSHIFT`. -/
def isDisabled (opcode : UInt8) : Bool :=
  [0x7e, 0x7f, 0x80, 0x81, 0x83, 0x84, 0x85, 0x86, 0x8d, 0x8e, 0x95, 0x96, 0x97, 0x98,
    0x99].contains opcode

def opIfByte : UInt8 := 0x63
def opEndIfByte : UInt8 := 0x68
def opCodeSeparatorByte : UInt8 := 0xab

def maxScriptElementSize : Nat := 520
def maxOpsPerScript : Nat := 201
def maxStackSize : Nat := 1000

/-! ## The operations -/

structure Machine where
  stack : Stack
  altstack : Stack := []
  vfExec : ConditionStack := {}
  /-- The script from `pbegincodehash` on. -/
  codeHash : CScript
  nOpCount : Nat := 0
  execdata : ScriptExecutionData

variable (machine : Machine)

def Machine.push (value : Valtype) : Machine :=
  { machine with stack := value :: machine.stack }

def Machine.top : Except ScriptError Valtype :=
  match machine.stack with
  | [] => .error .invalidStackOperation
  | top :: _ => .ok top

/-- What an operation that only moves elements makes of the stack; nothing when too
few are there. -/
def StackOp.apply : StackOp → Stack → Option Stack
  | .drop2, _ :: _ :: rest => some rest
  | .dup2, x2 :: x1 :: rest => some (x2 :: x1 :: x2 :: x1 :: rest)
  | .dup3, x3 :: x2 :: x1 :: rest => some (x3 :: x2 :: x1 :: x3 :: x2 :: x1 :: rest)
  | .over2, x4 :: x3 :: x2 :: x1 :: rest => some (x2 :: x1 :: x4 :: x3 :: x2 :: x1 :: rest)
  | .rot2, x6 :: x5 :: x4 :: x3 :: x2 :: x1 :: rest =>
    some (x2 :: x1 :: x6 :: x5 :: x4 :: x3 :: rest)
  | .swap2, x4 :: x3 :: x2 :: x1 :: rest => some (x2 :: x1 :: x4 :: x3 :: rest)
  | .ifDup, x :: rest => some (if castToBool x then x :: x :: rest else x :: rest)
  | .depth, stack => some (serialize stack.length :: stack)
  | .drop, _ :: rest => some rest
  | .dup, x :: rest => some (x :: x :: rest)
  | .nip, x2 :: _ :: rest => some (x2 :: rest)
  | .over, x2 :: x1 :: rest => some (x1 :: x2 :: x1 :: rest)
  | .rot, x3 :: x2 :: x1 :: rest => some (x1 :: x3 :: x2 :: rest)
  | .swap, x2 :: x1 :: rest => some (x1 :: x2 :: rest)
  | .tuck, x2 :: x1 :: rest => some (x2 :: x1 :: x2 :: rest)
  | .size, x :: rest => some (serialize x.length :: x :: rest)
  | _, _ => none

def numberOfBool (value : Bool) : Int := if value then 1 else 0

def UnaryOp.apply : UnaryOp → Int → Int
  | .add1, bn => bn + 1
  | .sub1, bn => bn - 1
  | .negate, bn => -bn
  | .abs, bn => if bn < 0 then -bn else bn
  | .not, bn => numberOfBool (bn == 0)
  | .notEqual0, bn => numberOfBool (bn != 0)

def BinaryOp.apply : BinaryOp → Int → Int → Int
  | .add, bn1, bn2 => bn1 + bn2
  | .sub, bn1, bn2 => bn1 - bn2
  | .boolAnd, bn1, bn2 => numberOfBool (bn1 != 0 && bn2 != 0)
  | .boolOr, bn1, bn2 => numberOfBool (bn1 != 0 || bn2 != 0)
  | .numEqual, bn1, bn2 => numberOfBool (bn1 == bn2)
  | .numEqualVerify, bn1, bn2 => numberOfBool (bn1 == bn2)
  | .numNotEqual, bn1, bn2 => numberOfBool (bn1 != bn2)
  | .lessThan, bn1, bn2 => numberOfBool (bn1 < bn2)
  | .greaterThan, bn1, bn2 => numberOfBool (bn2 < bn1)
  | .lessThanOrEqual, bn1, bn2 => numberOfBool (bn1 ≤ bn2)
  | .greaterThanOrEqual, bn1, bn2 => numberOfBool (bn2 ≤ bn1)
  | .min, bn1, bn2 => if bn1 < bn2 then bn1 else bn2
  | .max, bn1, bn2 => if bn2 < bn1 then bn1 else bn2

def HashOp.apply (crypto : ScriptCrypto) : HashOp → Valtype → Valtype
  | .ripemd160 => crypto.ripemd160
  | .sha1 => crypto.sha1
  | .sha256 => crypto.sha256
  | .hash160 => crypto.hash160
  | .hash256 => crypto.hash256

/-- The end of the operations with a `VERIFY` form: push the outcome, or fail unless
it is true. -/
def Machine.conclude (stack : Stack) (success verify : Bool) (error : ScriptError) :
    Except ScriptError Machine :=
  if verify then do
    ensure (success = true) error
    .ok { machine with stack := stack }
  else .ok { machine with stack := ofBool success :: stack }

section Operations

variable (context : Context) (flags : Flags) (sigversion : SigVersion) (machine : Machine)

def opCheckLockTimeVerify : Except ScriptError Machine :=
  if flags.has .checkLockTimeVerify then do
    let top ← machine.top
    let nLockTime ← ofVch flags top 5
    ensure (0 ≤ nLockTime) .negativeLockTime
    ensure (context.checker.checkLockTime nLockTime = true) .unsatisfiedLockTime
    .ok machine
  else .ok machine

def opCheckSequenceVerify : Except ScriptError Machine :=
  if flags.has .checkSequenceVerify then do
    let top ← machine.top
    let nSequence ← ofVch flags top 5
    ensure (0 ≤ nSequence) .negativeLockTime
    -- The lock is off when bit 31 is set.
    ensure (nSequence.toNat.testBit 31 = false → context.checker.checkSequence nSequence = true)
      .unsatisfiedLockTime
    .ok machine
  else .ok machine

/-- The two arguments that a minimal conditional allows. -/
def isMinimalIf (vch : Valtype) : Bool := vch == [] || vch == [1]

def opIf (notIf fExec : Bool) (machine : Machine) : Except ScriptError Machine :=
  if fExec then
    match machine.stack with
    | [] => .error .unbalancedConditional
    | vch :: rest => do
        ensure (sigversion = .tapscript → isMinimalIf vch = true) .tapscriptMinimalIf
        ensure (sigversion = .witnessV0 → flags.has .minimalIf = true → isMinimalIf vch = true)
          .minimalIf
        .ok { machine with
          stack := rest
          vfExec := machine.vfExec.pushBack (castToBool vch != notIf) }
  else .ok { machine with vfExec := machine.vfExec.pushBack false }

def opElse : Except ScriptError Machine := do
  ensure (machine.vfExec.empty = false) .unbalancedConditional
  .ok { machine with vfExec := machine.vfExec.toggleTop }

def opEndIf : Except ScriptError Machine := do
  ensure (machine.vfExec.empty = false) .unbalancedConditional
  .ok { machine with vfExec := machine.vfExec.popBack }

def opVerify : Except ScriptError Machine := do
  let top ← machine.top
  ensure (castToBool top = true) .verify
  .ok { machine with stack := machine.stack.tail }

def opToAltStack : Except ScriptError Machine := do
  let top ← machine.top
  .ok { machine with altstack := top :: machine.altstack, stack := machine.stack.tail }

def opFromAltStack : Except ScriptError Machine :=
  match machine.altstack with
  | [] => .error .invalidAltStackOperation
  | top :: rest => .ok { machine with stack := top :: machine.stack, altstack := rest }

def opStack (op : StackOp) (machine : Machine) : Except ScriptError Machine :=
  match op.apply machine.stack with
  | none => .error .invalidStackOperation
  | some stack => .ok { machine with stack := stack }

def opPick (roll : Bool) (machine : Machine) : Except ScriptError Machine :=
  match machine.stack with
  | top :: next :: below => do
      let bn ← operand flags top
      let n := getInt bn
      let rest := next :: below
      ensure (0 ≤ n ∧ n < rest.length) .invalidStackOperation
      let vch := rest.getD n.toNat []
      .ok { machine with stack := vch :: (if roll then rest.eraseIdx n.toNat else rest) }
  | _ => .error .invalidStackOperation

variable (verify : Bool)

def opEqual (machine : Machine) : Except ScriptError Machine :=
  match machine.stack with
  | vch2 :: vch1 :: rest => machine.conclude rest (vch1 == vch2) verify .equalVerify
  | _ => .error .invalidStackOperation

def opUnary (op : UnaryOp) (machine : Machine) : Except ScriptError Machine := do
  let top ← machine.top
  let bn ← operand flags top
  .ok { machine with stack := serialize (op.apply bn) :: machine.stack.tail }

def opBinary (op : BinaryOp) (machine : Machine) : Except ScriptError Machine :=
  match machine.stack with
  | vch2 :: vch1 :: rest => do
      let bn1 ← operand flags vch1
      let bn2 ← operand flags vch2
      let out := serialize (op.apply bn1 bn2)
      if op = .numEqualVerify then do
        ensure (castToBool out = true) .numEqualVerify
        .ok { machine with stack := rest }
      else .ok { machine with stack := out :: rest }
  | _ => .error .invalidStackOperation

def opWithin : Except ScriptError Machine :=
  match machine.stack with
  | vch3 :: vch2 :: vch1 :: rest => do
      let bn1 ← operand flags vch1
      let bn2 ← operand flags vch2
      let bn3 ← operand flags vch3
      .ok { machine with stack := ofBool (bn2 ≤ bn1 && bn1 < bn3) :: rest }
  | _ => .error .invalidStackOperation

def opHash (op : HashOp) (machine : Machine) : Except ScriptError Machine := do
  let top ← machine.top
  .ok { machine with stack := op.apply context.crypto top :: machine.stack.tail }

/-! ### Signatures -/

/-- Drop a signature from the script it signs, which only bare scripts do. -/
def dropSignature (scriptCode : CScript) (vchSig : Valtype) : Except ScriptError CScript :=
  if sigversion = .base then do
    let deleted := findAndDelete scriptCode (pushData vchSig)
    ensure (flags.has .constScriptCode = true → deleted.2 = 0) .sigFindAndDelete
    .ok deleted.1
  else .ok scriptCode

def evalChecksigPreTapscript (vchSig vchPubKey : Valtype) (codeHash : CScript) :
    Except ScriptError Bool := do
  let scriptCode ← dropSignature flags sigversion codeHash vchSig
  checkSignatureEncoding context.crypto.checkLowS flags vchSig
  checkPubKeyEncoding flags sigversion vchPubKey
  let fSuccess := context.checker.checkECDSASignature vchSig vchPubKey scriptCode sigversion
  ensure (flags.has .nullFail = true → fSuccess = true ∨ vchSig.length = 0) .sigNullFail
  .ok fSuccess

def validationWeightPerSigopPassed : Int := 50

/-- The passing sigops of a tapscript are paid for by the size of the witness. -/
def payForSigop (success : Bool) (execdata : ScriptExecutionData) :
    Except ScriptError ScriptExecutionData :=
  if success then
    match execdata.validationWeightLeft with
    | none => .error .assertion
    | some left => do
        ensure (0 ≤ left - validationWeightPerSigopPassed) .tapscriptValidationWeight
        .ok { execdata with validationWeightLeft := some (left - validationWeightPerSigopPassed) }
  else .ok execdata

variable (sig pubKey : Valtype) (execdata : ScriptExecutionData)

/-- The three kinds of public keys of a tapscript; an empty signature is not checked. -/
def checkTapscriptKey : Except ScriptError Unit :=
  if pubKey.length = 0 then .error .pubKeyType
  else if pubKey.length = 32 then
    if sig.isEmpty then .ok ()
    else context.checker.checkSchnorrSignature sig pubKey sigversion execdata
  else
    ensure (flags.has .discourageUpgradablePubKeyType = false) .discourageUpgradablePubKeyType

def evalChecksigTapscript : Except ScriptError (Bool × ScriptExecutionData) := do
  let execdata ← payForSigop (!sig.isEmpty) execdata
  checkTapscriptKey context flags sigversion sig pubKey execdata
  .ok (!sig.isEmpty, execdata)

def evalChecksig (machine : Machine) : Except ScriptError (Bool × ScriptExecutionData) :=
  match sigversion with
  | .base | .witnessV0 => do
      let success ← evalChecksigPreTapscript context flags sigversion sig pubKey machine.codeHash
      .ok (success, machine.execdata)
  | .tapscript => evalChecksigTapscript context flags sigversion sig pubKey machine.execdata
  | .taproot => .error .assertion

def opCheckSig (machine : Machine) : Except ScriptError Machine :=
  match machine.stack with
  | vchPubKey :: vchSig :: rest => do
      let checked ← evalChecksig context flags sigversion vchSig vchPubKey machine
      Machine.conclude { machine with execdata := checked.2 } rest checked.1 verify .checkSigVerify
  | _ => .error .invalidStackOperation

def opCheckSigAdd : Except ScriptError Machine :=
  if sigversion.isPreTapscript then .error .badOpcode
  else match machine.stack with
  | pubKey :: vchNum :: sig :: rest => do
      let num ← operand flags vchNum
      let checked ← evalChecksig context flags sigversion sig pubKey machine
      .ok { machine with
        stack := serialize (num + numberOfBool checked.1) :: rest
        execdata := checked.2 }
  | _ => .error .invalidStackOperation

/-- Drop the signatures one after the other from the script they sign. -/
def dropSignatures : (sigs : List Valtype) → CScript → Except ScriptError CScript
  | [], scriptCode => .ok scriptCode
  | vchSig :: sigs, scriptCode => do
      let scriptCode ← dropSignature flags sigversion scriptCode vchSig
      dropSignatures sigs scriptCode

/-- The loop of `OP_CHECKMULTISIG`: every key is tried against the first signature
left, and the loop ends when fewer keys than signatures are left. -/
def matchSignatures (scriptCode : CScript) : (keys sigs : List Valtype) → Except ScriptError Bool
  | _, [] => .ok true
  | [], _ :: _ => .ok false
  | vchPubKey :: keys, vchSig :: sigs => do
      checkSignatureEncoding context.crypto.checkLowS flags vchSig
      checkPubKeyEncoding flags sigversion vchPubKey
      let fOk := context.checker.checkECDSASignature vchSig vchPubKey scriptCode sigversion
      let left := if fOk then sigs else vchSig :: sigs
      if keys.length < left.length then .ok false else matchSignatures scriptCode keys left

/-- The number of keys or of signatures, when it is in range. -/
def readCount (vch : Valtype) (most : Nat) (error : ScriptError) : Except ScriptError Nat := do
  let bn ← operand flags vch
  let count := getInt bn
  ensure (0 ≤ count ∧ count ≤ most) error
  .ok count.toNat

/-- `OP_CHECKMULTISIG`: from the top of the stack, the number of keys, the keys, the
number of signatures, the signatures, and an element that is not used. -/
def opCheckMultiSig (machine : Machine) : Except ScriptError Machine :=
  if sigversion = .tapscript then .error .tapscriptCheckMultiSig
  else do
    let top ← machine.top
    let nKeysCount ← readCount flags top CScript.maxPubKeysPerMultiSig .pubKeyCount
    ensure (machine.nOpCount + nKeysCount ≤ maxOpsPerScript) .opCount
    let keys := machine.stack.tail.take nKeysCount
    let belowKeys := machine.stack.tail.drop nKeysCount
    ensure (nKeysCount + 2 ≤ machine.stack.length) .invalidStackOperation
    let nSigsCount ← readCount flags (belowKeys.headD []) nKeysCount .sigCount
    let sigs := belowKeys.tail.take nSigsCount
    let belowSigs := belowKeys.tail.drop nSigsCount
    ensure (nKeysCount + nSigsCount + 3 ≤ machine.stack.length) .invalidStackOperation
    let scriptCode ← dropSignatures flags sigversion sigs machine.codeHash
    let fSuccess ← matchSignatures context flags sigversion scriptCode keys sigs
    -- The elements above the signatures are popped without a check.
    ensure (flags.has .nullFail = true → fSuccess = true ∨ ∀ vchSig ∈ sigs, vchSig.length = 0)
      .sigNullFail
    ensure (flags.has .nullDummy = true → (belowSigs.headD []).length = 0) .sigNullDummy
    Machine.conclude { machine with nOpCount := machine.nOpCount + nKeysCount } belowSigs.tail
      fSuccess verify .checkMultiSigVerify

/-! ## The loop -/

/-- The `switch` of `EvalScript`; `pc` is the script after the operation. -/
def evalInstruction (fExec : Bool) (pc : CScript) (opcodePos : Nat) (machine : Machine) :
    Instruction → Except ScriptError Machine
  | .opN value => .ok (machine.push (serialize value))
  | .opNop => .ok machine
  | .opCheckLockTimeVerify => opCheckLockTimeVerify context flags machine
  | .opCheckSequenceVerify => opCheckSequenceVerify context flags machine
  | .opUpgradableNop => do
      ensure (flags.has .discourageUpgradableNops = false) .discourageUpgradableNops
      .ok machine
  | .opIf notIf => opIf flags sigversion notIf fExec machine
  | .opElse => opElse machine
  | .opEndIf => opEndIf machine
  | .opVerify => opVerify machine
  | .opReturn => .error .opReturn
  | .opToAltStack => opToAltStack machine
  | .opFromAltStack => opFromAltStack machine
  | .opStack op => opStack op machine
  | .opPick roll => opPick flags roll machine
  | .opEqual verify => opEqual verify machine
  | .opUnary op => opUnary flags op machine
  | .opBinary op => opBinary flags op machine
  | .opWithin => opWithin flags machine
  | .opHash op => opHash context op machine
  | .opCodeSeparator =>
    .ok { machine with
      codeHash := pc
      execdata := { machine.execdata with codeseparatorPos := some opcodePos } }
  | .opCheckSig verify => opCheckSig context flags sigversion verify machine
  | .opCheckSigAdd => opCheckSigAdd context flags sigversion machine
  | .opCheckMultiSig verify => opCheckMultiSig context flags sigversion verify machine

/-- An operation is executed outside a branch that is not taken, and a conditional
everywhere. -/
def execute (opcode : UInt8) (vchPushValue : Valtype) (pc : CScript) (opcodePos : Nat)
    (machine : Machine) : Except ScriptError Machine :=
  if machine.vfExec.allTrue = true ∧ opcode ≤ CScript.opPushData4 then do
    ensure (flags.has .minimalData = true → checkMinimalPush vchPushValue opcode = true)
      .minimalData
    .ok (machine.push vchPushValue)
  else if machine.vfExec.allTrue = true ∨ (opIfByte ≤ opcode ∧ opcode ≤ opEndIfByte) then
    match Instruction.ofOpcode opcode with
    | none => .error .badOpcode
    | some instruction =>
      evalInstruction context flags sigversion machine.vfExec.allTrue pc opcodePos machine
        instruction
  else .ok machine

/-- The operations above `OP_16` count towards the limit of the older scripts. -/
def countOp (opcode : UInt8) (machine : Machine) : Except ScriptError Machine :=
  if sigversion.isPreTapscript = true ∧ CScript.op16 < opcode then do
    ensure (machine.nOpCount + 1 ≤ maxOpsPerScript) .opCount
    .ok { machine with nOpCount := machine.nOpCount + 1 }
  else .ok machine

/-- One round of the loop: the script left and the state after its first operation. -/
def evalStep (pc : CScript) (opcodePos : Nat) (machine : Machine) :
    Except ScriptError (CScript × Machine) :=
  match CScript.getOp pc with
  | none => .error .badOpcode
  | some (opcode, vchPushValue, pc) => do
      ensure (vchPushValue.length ≤ maxScriptElementSize) .pushSize
      let machine ← countOp sigversion opcode machine
      ensure (isDisabled opcode = false) .disabledOpcode
      ensure (opcode = opCodeSeparatorByte → sigversion = .base →
        flags.has .constScriptCode = false) .opCodeSeparator
      let machine ← execute context flags sigversion opcode vchPushValue pc opcodePos machine
      ensure (machine.stack.length + machine.altstack.length ≤ maxStackSize) .stackSize
      .ok (pc, machine)

/-- The loop of `EvalScript`; `bytes` bounds the operations left to read. -/
def evalLoop : (bytes : Nat) → (pc : CScript) → (opcodePos : Nat) → Machine →
    Except ScriptError Machine
  | 0, _, _, machine => .ok machine
  | bytes + 1, pc, opcodePos, machine =>
    if pc = [] then .ok machine
    else do
      let next ← evalStep context flags sigversion pc opcodePos machine
      evalLoop bytes next.1 (opcodePos + 1) next.2

variable {context flags sigversion} in
theorem evalStep_length_lt {pc : CScript} {opcodePos : Nat} {machine : Machine}
    {next : CScript × Machine}
    (steps : evalStep context flags sigversion pc opcodePos machine = .ok next) :
    next.1.length < pc.length := by
  unfold evalStep at steps
  split at steps
  · cases steps
  · rename_i read
    simp only [bind_eq_ok] at steps
    obtain ⟨_, -, _, -, _, -, _, -, _, -, _, -, same⟩ := steps
    cases same
    exact CScript.getOp_length_lt read

theorem evalLoop_enough {bytes : Nat} {pc : CScript} (enough : pc.length ≤ bytes) (more : Nat)
    (opcodePos : Nat) (machine : Machine) :
    evalLoop context flags sigversion (bytes + more) pc opcodePos machine =
      evalLoop context flags sigversion bytes pc opcodePos machine := by
  induction bytes generalizing pc opcodePos machine with
  | zero =>
    cases List.eq_nil_of_length_eq_zero (Nat.le_zero.mp enough)
    cases more <;> rfl
  | succ bytes ih =>
    rw [Nat.add_right_comm]
    simp only [evalLoop]
    split
    · rfl
    · cases steps : evalStep context flags sigversion pc opcodePos machine with
      | error error => rfl
      | ok next =>
        have shorter := evalStep_length_lt steps
        exact ih (by omega) (opcodePos + 1) next.2

def noCodeSeparator : Nat := 0xffffffff

/-- `EvalScript`: the stack and the execution data a script leaves. -/
def evalScript (stack : Stack) (script : CScript) (execdata : ScriptExecutionData) :
    Except ScriptError (Stack × ScriptExecutionData) := do
  ensure (sigversion ≠ .taproot) .assertion
  ensure (sigversion.isPreTapscript = true → script.length ≤ CScript.maxScriptSize) .scriptSize
  let machine ← evalLoop context flags sigversion script.length script 0
    { stack := stack
      codeHash := script
      execdata := { execdata with codeseparatorPos := some noCodeSeparator } }
  ensure (machine.vfExec.empty = true) .unbalancedConditional
  .ok (machine.stack, machine.execdata)

end Operations

end MooncoinFormal.Script
