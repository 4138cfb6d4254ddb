import MooncoinFormal.Script.Interpreter
import MooncoinFormal.Serialize.Integers

/-!
# Verification of an input

`ExecuteWitnessScript`, `VerifyTaprootCommitment`, `VerifyWitnessProgram` and
`VerifyScript` of `script/interpreter.cpp`: the script that spends an output and
the script of the output, the script behind a script hash, and the programs of the
witness.
-/

namespace MooncoinFormal.Script

open Library.Checks Primitives Serialize CScript

def isOpSuccess (opcode : UInt8) : Bool :=
  opcode == 80 || opcode == 98 || (126 ≤ opcode && opcode ≤ 129) ||
    (131 ≤ opcode && opcode ≤ 134) || (137 ≤ opcode && opcode ≤ 138) ||
    (141 ≤ opcode && opcode ≤ 142) || (149 ≤ opcode && opcode ≤ 153) ||
    (187 ≤ opcode && opcode ≤ 254)

/-- The search for an `OP_SUCCESSx`: a script that cannot be read up to the first one
is bad. `bytes` bounds the operations left to read. -/
def hasOpSuccess : (bytes : Nat) → (pc : CScript) → Except ScriptError Bool
  | 0, _ => .ok false
  | bytes + 1, pc =>
    if pc = [] then .ok false
    else match getOp pc with
      | none => .error .badOpcode
      | some (opcode, _, rest) => if isOpSuccess opcode then .ok true else hasOpSuccess bytes rest

section Verification

variable (context : Context) (flags : Flags) (sigversion : SigVersion) (witnessStack : List Valtype)

/-- What `ExecuteWitnessScript` does with a script that has no `OP_SUCCESSx`. -/
def runWitnessScript (script : CScript) (execdata : ScriptExecutionData) :
    Except ScriptError Unit := do
  ensure (∀ elem ∈ witnessStack, elem.length ≤ maxScriptElementSize) .pushSize
  let left ← evalScript context flags sigversion witnessStack.reverse script execdata
  ensure (left.1.length = 1) .cleanStack
  ensure (castToBool (left.1.headD []) = true) .evalFalse

/-- `ExecuteWitnessScript`; the witness lists the bottom of the stack first. -/
def executeWitnessScript (script : CScript) (execdata : ScriptExecutionData) :
    Except ScriptError Unit :=
  if sigversion = .tapscript then do
    let success ← hasOpSuccess script.length script
    if success then ensure (flags.has .discourageOpSuccess = false) .discourageOpSuccess
    else do
      ensure (witnessStack.length ≤ maxStackSize) .stackSize
      runWitnessScript context flags sigversion witnessStack script execdata
  else runWitnessScript context flags sigversion witnessStack script execdata

def taprootLeafMask : UInt8 := 0xfe
def taprootLeafTapscript : UInt8 := 0xc0
def taprootControlBaseSize : Nat := 33
def taprootControlNodeSize : Nat := 32
def taprootControlMaxSize : Nat := taprootControlBaseSize + taprootControlNodeSize * 128

/-- A vector of bytes as it is serialised. -/
def serializeBytes (bytes : List UInt8) : List UInt8 := writeCompactSize bytes.length ++ bytes

/-- Climb the script tree: a node and the hash so far are hashed in order. -/
def tapBranches (crypto : ScriptCrypto) : (nodes : List (List UInt8)) → (k : List UInt8) →
    List UInt8
  | [], k => k
  | node :: nodes, k =>
    tapBranches crypto nodes (crypto.tapBranch (if k < node then k ++ node else node ++ k))

def controlNodes (control : Valtype) : List (List UInt8) :=
  (List.range ((control.length - taprootControlBaseSize) / taprootControlNodeSize)).map fun i =>
    (control.drop (taprootControlBaseSize + taprootControlNodeSize * i)).take
      taprootControlNodeSize

variable (crypto : ScriptCrypto)

def tapLeafHash (control : Valtype) (script : CScript) : List UInt8 :=
  crypto.tapLeaf ((control.headD 0 &&& taprootLeafMask) :: serializeBytes script)

def verifyTaprootCommitment (control program : Valtype) (script : CScript) : Bool :=
  let p := (control.drop 1).take (taprootControlBaseSize - 1)
  let k := tapBranches crypto (controlNodes control) (tapLeafHash crypto control script)
  crypto.checkPayToContract program p (crypto.tapTweak (p ++ k)) (control.headD 0 &&& 1 == 1)

def annexTag : UInt8 := 0x50
def validationWeightOffset : Int := 50

variable (witness : List Valtype)

/-- `GetSerializeSize` of a witness. -/
def witnessSize : Nat :=
  (writeCompactSize witness.length).length +
    (witness.map fun item => (serializeBytes item).length).sum

/-- The annex of a witness: its last element, when there are two and it is tagged. -/
def annexOf : Option Valtype :=
  match witness.getLast? with
  | some last => if 2 ≤ witness.length ∧ last.head? = some annexTag then some last else none
  | none => none

/-- A spend of a taproot output through its script tree; `witness` is the whole
witness, `items` what is left without the annex. -/
def verifyTaprootScript (witness items : List Valtype) (program : Valtype)
    (execdata : ScriptExecutionData) : Except ScriptError Unit := do
  let control := items.getLastD []
  let script : CScript := items.dropLast.getLastD []
  let witnessStack := items.dropLast.dropLast
  ensure (taprootControlBaseSize ≤ control.length ∧ control.length ≤ taprootControlMaxSize ∧
    (control.length - taprootControlBaseSize) % taprootControlNodeSize = 0)
    .taprootWrongControlSize
  ensure (verifyTaprootCommitment context.crypto control program script = true)
    .witnessProgramMismatch
  let execdata := { execdata with tapleafHash := some (tapLeafHash context.crypto control script) }
  if control.headD 0 &&& taprootLeafMask = taprootLeafTapscript then
    executeWitnessScript context flags .tapscript witnessStack script
      { execdata with validationWeightLeft := some (witnessSize witness + validationWeightOffset) }
  else
    ensure (flags.has .discourageUpgradableTaprootVersion = false)
      .discourageUpgradableTaprootVersion

variable (program : Valtype)

/-- A taproot output under the taproot rules. -/
def verifyTaproot : Except ScriptError Unit := do
  ensure (witness.length ≠ 0) .witnessProgramWitnessEmpty
  let annex := annexOf witness
  let items := if annex.isSome then witness.dropLast else witness
  let execdata : ScriptExecutionData :=
    { annex := some (annex.map fun bytes => context.crypto.sha256 (serializeBytes bytes)) }
  if items.length = 1 then
    context.checker.checkSchnorrSignature (items.headD []) program .taproot execdata
  else verifyTaprootScript context flags witness items program execdata

/-- `OP_DUP OP_HASH160 <program> OP_EQUALVERIFY OP_CHECKSIG`. -/
def payToKeyHashScript : CScript :=
  [0x76, CScript.opHash160] ++ pushData program ++ [0x88, CScript.opCheckSig]

/-- A program of witness version 0. -/
def verifyWitnessV0 : Except ScriptError Unit :=
  if program.length = 32 then do
    ensure (witness.length ≠ 0) .witnessProgramWitnessEmpty
    let script : CScript := witness.getLastD []
    ensure (context.crypto.sha256 script = program) .witnessProgramMismatch
    executeWitnessScript context flags .witnessV0 witness.dropLast script {}
  else if program.length = 20 then do
    ensure (witness.length = 2) .witnessProgramMismatch
    executeWitnessScript context flags .witnessV0 witness (payToKeyHashScript program) {}
  else .error .witnessProgramWrongLength

def verifyWitnessProgram (witversion : Nat) (program : Valtype) (isP2sh : Bool) :
    Except ScriptError Unit :=
  if witversion = 0 then verifyWitnessV0 context flags witness program
  else if witversion = 1 ∧ program.length = 32 ∧ isP2sh = false then
    if flags.has .taproot then verifyTaproot context flags witness program else .ok ()
  else
    ensure (flags.has .discourageUpgradableWitnessProgram = false)
      .discourageUpgradableWitnessProgram

/-- What `VerifyScript` keeps of a script that has run: its stack, and whether the
witness has been used. -/
structure Outcome where
  stack : Stack
  hadWitness : Bool := false
  deriving DecidableEq, Repr

/-- The witness program of a script, when witnesses are verified; the stack of a
program counts as clean. `malleated` is the error of a `scriptSig` other than
`expected`. -/
def verifyProgramOf (script scriptSig expected : CScript) (malleated : ScriptError)
    (witness : List Valtype) (isP2sh : Bool) (outcome : Outcome) : Except ScriptError Outcome :=
  if flags.has .witness then
    match isWitnessProgram script with
    | none => .ok outcome
    | some (version, program) => do
        ensure (scriptSig = expected) malleated
        verifyWitnessProgram context flags witness version program isP2sh
        .ok { stack := outcome.stack.rtake 1, hadWitness := true }
  else .ok outcome

/-- Run a script that has to leave a true value. -/
def evalTrue (stack : Stack) (script : CScript) : Except ScriptError Stack := do
  let left ← evalScript context flags .base stack script {}
  ensure (left.1 ≠ []) .evalFalse
  ensure (castToBool (left.1.headD []) = true) .evalFalse
  .ok left.1

/-- The script behind a script hash: `stackCopy` is what the `scriptSig` left. -/
def verifyRedeemScript (scriptSig : CScript) (witness : List Valtype) (stackCopy : Stack)
    (hadWitness : Bool) : Except ScriptError Outcome := do
  ensure (isPushOnly scriptSig = true) .sigPushOnly
  ensure (stackCopy ≠ []) .assertion
  let pubKey2 : CScript := stackCopy.headD []
  let stack ← evalTrue context flags stackCopy.tail pubKey2
  verifyProgramOf context flags pubKey2 scriptSig (pushData pubKey2) .witnessMalleatedP2sh witness
    true { stack := stack, hadWitness := hadWitness }

variable (scriptSig scriptPubKey : CScript)

/-- The additional validation of an output that pays to a script hash. -/
def verifyScriptHash (witness : List Valtype) (stackCopy : Stack) (outcome : Outcome) :
    Except ScriptError Outcome :=
  if flags.has .p2sh then
    if isPayToScriptHash scriptPubKey then
      verifyRedeemScript context flags scriptSig witness stackCopy outcome.hadWitness
    else .ok outcome
  else .ok outcome

/-- The checks at the end of `VerifyScript`. -/
def finalChecks (outcome : Outcome) : Except ScriptError Unit := do
  ensure (flags.has .cleanStack = true → flags.has .p2sh = true ∧ flags.has .witness = true)
    .assertion
  ensure (flags.has .cleanStack = true → outcome.stack.length = 1) .cleanStack
  ensure (flags.has .witness = true → flags.has .p2sh = true) .assertion
  ensure (flags.has .witness = true → outcome.hadWitness = true ∨ witness = []) .witnessUnexpected

def verifyScript (witness : List Valtype) : Except ScriptError Unit := do
  ensure (flags.has .sigPushOnly = true → isPushOnly scriptSig = true) .sigPushOnly
  let spent ← evalScript context flags .base [] scriptSig {}
  let stack ← evalTrue context flags spent.1 scriptPubKey
  let outcome ← verifyProgramOf context flags scriptPubKey scriptSig [] .witnessMalleated witness
    false { stack := stack }
  let outcome ← verifyScriptHash context flags scriptSig scriptPubKey witness spent.1 outcome
  finalChecks flags witness outcome

end Verification

end MooncoinFormal.Script
