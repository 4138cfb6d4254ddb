import MooncoinFormal.Library.Codec

/-!
# Scripts

`script/script.h` and `script/script.cpp`: a script is its bytes. Reading the
operations of a script, counting its signature operations, the witness programs
and the two programs of the extension block, and the scripts that can never be
spent.
-/

namespace MooncoinFormal.Primitives

open Library.Codec UInt8

abbrev CScript := List UInt8

variable (script : CScript)

namespace CScript

def opPushData1 : UInt8 := 0x4c
def opPushData2 : UInt8 := 0x4d
def opPushData4 : UInt8 := 0x4e
def op1 : UInt8 := 0x51
def op16 : UInt8 := 0x60
def opReturn : UInt8 := 0x6a
def opEqual : UInt8 := 0x87
def opHash160 : UInt8 := 0xa9
def opCheckSig : UInt8 := 0xac
def opCheckSigVerify : UInt8 := 0xad
def opCheckMultiSig : UInt8 := 0xae
def opCheckMultiSigVerify : UInt8 := 0xaf

/-- `opcode` is 0xff, the value of `OP_INVALIDOPCODE`. -/
def opInvalid : UInt8 := 0xff

def maxPubKeysPerMultiSig : Nat := 20

def maxScriptSize : Nat := 10000

/-- Split off `size` bytes, or fail when fewer are left. -/
def takeData (size : Nat) (script : CScript) : Option (List UInt8 × CScript) :=
  if script.length < size then none else some (script.take size, script.drop size)

/-- `GetScriptOp`: the operation, the data it pushes and what follows it. -/
def getOp : CScript → Option (UInt8 × List UInt8 × CScript)
  | [] => none
  | opcode :: rest =>
    if opcode ≤ opPushData4 then
      if opcode < opPushData1 then
        (takeData opcode.toNat rest).map (opcode, ·)
      else
        let width := if opcode = opPushData1 then 1 else if opcode = opPushData2 then 2 else 4
        if rest.length < width then none
        else (takeData (littleEndian (rest.take width)) (rest.drop width)).map (opcode, ·)
    else some (opcode, [], rest)

theorem takeData_length_le {size : Nat} {script rest : CScript} {data : List UInt8}
    (taken : takeData size script = some (data, rest)) : rest.length ≤ script.length := by
  unfold takeData at taken
  split at taken
  · cases taken
  · cases taken
    simp

theorem getOp_length_lt {script rest : CScript} {opcode : UInt8} {data : List UInt8}
    (read : getOp script = some (opcode, data, rest)) : rest.length < script.length := by
  cases script with
  | nil => cases read
  | cons first script =>
    simp only [getOp] at read
    split at read
    · split at read
      · obtain ⟨_, taken, same⟩ := Option.map_eq_some_iff.mp read
        cases same
        exact Nat.lt_succ_of_le (takeData_length_le taken)
      · generalize (if first = opPushData1 then 1 else if first = opPushData2 then 2 else 4)
          = width at read
        split at read
        · cases read
        · obtain ⟨_, taken, same⟩ := Option.map_eq_some_iff.mp read
          cases same
          have shorter := takeData_length_le taken
          rw [List.length_drop] at shorter
          rw [List.length_cons]
          omega
    · cases read
      exact Nat.lt_succ_self _

/-- `DecodeOP_N`. -/
def decodeOpN (opcode : UInt8) : Nat :=
  if opcode = 0 then 0 else opcode.toNat - 0x50

/-- The loop of `GetSigOpCount`; `bytes` bounds the operations left to read. -/
def sigOpLoop (accurate : Bool) : (bytes : Nat) → CScript → (lastOpcode : UInt8) → (n : Nat) → Nat
  | 0, _, _, n => n
  | bytes + 1, script, lastOpcode, n =>
    match getOp script with
    | none => n
    | some (opcode, _, rest) =>
      let n :=
        if opcode = opCheckSig ∨ opcode = opCheckSigVerify then n + 1
        else if opcode = opCheckMultiSig ∨ opcode = opCheckMultiSigVerify then
          if accurate ∧ op1 ≤ lastOpcode ∧ lastOpcode ≤ op16 then n + decodeOpN lastOpcode
          else n + maxPubKeysPerMultiSig
        else n
      sigOpLoop accurate bytes rest opcode n

def getSigOpCount (accurate : Bool) (script : CScript) : Nat :=
  sigOpLoop accurate script.length script opInvalid 0

/-! ## Witness programs -/

/-- The version and the program of a witness program. -/
def isWitnessProgram : CScript → Option (Nat × List UInt8)
  | version :: push :: program =>
    if program.length + 2 < 4 ∨ program.length + 2 > 42 then none
    else if version ≠ 0 ∧ (version < op1 ∨ version > op16) then none
    else if push.toNat + 2 = program.length + 2 then some (decodeOpN version, program)
    else none
  | _ => none

def mwebHogAddrWitnessVersion : Nat := 8
def mwebPeginWitnessVersion : Nat := 9
def witnessMwebHeaderHashSize : Nat := 32
def witnessMwebPeginSize : Nat := 32

/-- The 32-byte program of a script of the given witness version. -/
def isMwebProgram (version size : Nat) (script : CScript) : Option (List UInt8) :=
  match isWitnessProgram script with
  | some (actual, program) =>
    if actual = version ∧ program.length = size then some program else none
  | none => none

/-- `IsMWEBPegin`, with the kernel ID it writes. -/
def isMwebPegin : Option (List UInt8) :=
  isMwebProgram mwebPeginWitnessVersion witnessMwebPeginSize script

/-- `IsMWEBHogAddr`, with the header hash it writes. -/
def isMwebHogAddr : Option (List UInt8) :=
  isMwebProgram mwebHogAddrWitnessVersion witnessMwebHeaderHashSize script

/-- The script `OP_n <program>` of a short program. -/
def programScript (version : UInt8) (program : List UInt8) : CScript :=
  (0x50 + version) :: ofNat program.length :: program

def hogAddrScript (headerHash : List UInt8) : CScript := programScript 8 headerHash

def peginScript (kernelId : List UInt8) : CScript := programScript 9 kernelId

theorem isWitnessProgram_programScript {version : UInt8} {program : List UInt8}
    (known : version = 8 ∨ version = 9) (size : program.length = 32) :
    isWitnessProgram (programScript version program) = some (version.toNat, program) := by
  rcases known with rfl | rfl <;> simp [isWitnessProgram, programScript, size, op1, op16, decodeOpN]

variable {headerHash : List UInt8}

theorem isMwebHogAddr_hogAddrScript (size : headerHash.length = 32) :
    isMwebHogAddr (hogAddrScript headerHash) = some headerHash := by
  rw [isMwebHogAddr, isMwebProgram, hogAddrScript, isWitnessProgram_programScript (.inl rfl) size]
  simp [mwebHogAddrWitnessVersion, witnessMwebHeaderHashSize, size]

theorem isMwebPegin_hogAddrScript (size : headerHash.length = 32) :
    isMwebPegin (hogAddrScript headerHash) = none := by
  rw [isMwebPegin, isMwebProgram, hogAddrScript, isWitnessProgram_programScript (.inl rfl) size]
  simp [mwebPeginWitnessVersion]

def isPayToScriptHash : Bool :=
  decide (script.length = 23) && decide (script.head? = some opHash160) &&
    decide (script[1]? = some 0x14) && decide (script[22]? = some opEqual)

/-- What a script that only pushes data pushes last; `bytes` bounds the operations
left to read. -/
def lastPushLoop : (bytes : Nat) → CScript → (data : List UInt8) → Option (List UInt8)
  | 0, _, data => some data
  | bytes + 1, script, data =>
    if script = [] then some data
    else match getOp script with
      | none => none
      | some (opcode, data, rest) => if opcode > op16 then none else lastPushLoop bytes rest data

def lastPush : Option (List UInt8) := lastPushLoop script.length script []

def isPushOnly : Bool := (lastPush script).isSome

/-- `GetSigOpCount` of a script with the `scriptSig` that spends it. -/
def getSigOpCountOf (scriptPubKey scriptSig : CScript) : Nat :=
  if isPayToScriptHash scriptPubKey then
    match lastPush scriptSig with
    | some subscript => getSigOpCount true subscript
    | none => 0
  else getSigOpCount true scriptPubKey

def witnessSigOps (version : Nat) (program : List UInt8) (witness : List (List UInt8)) : Nat :=
  if version = 0 then
    if program.length = 20 then 1
    else match witness.getLast? with
      | some subscript => if program.length = 32 then getSigOpCount true subscript else 0
      | none => 0
  else 0

/-- `CountWitnessSigOps` under the rules of witnesses. -/
def countWitnessSigOps (scriptSig scriptPubKey : CScript) (witness : List (List UInt8)) : Nat :=
  match isWitnessProgram scriptPubKey with
  | some (version, program) => witnessSigOps version program witness
  | none =>
    if isPayToScriptHash scriptPubKey then
      match lastPush scriptSig with
      | some subscript =>
        match isWitnessProgram subscript with
        | some (version, program) => witnessSigOps version program witness
        | none => 0
      | none => 0
    else 0

/-- The bytes of a positive number, the lowest first; `bytes` bounds their number. -/
def numberBytes : (bytes value : Nat) → List UInt8
  | 0, _ => []
  | bytes + 1, value => if value = 0 then [] else ofNat value :: numberBytes bytes (value / 256)

/-- `CScriptNum::serialize` of a number that is not negative. -/
def scriptNum (value : Nat) : List UInt8 :=
  let result := numberBytes 8 value
  match result.getLast? with
  | some last => if 0x80 ≤ last then result ++ [0] else result
  | none => result

/-- `CScript() << n` for a number that is not negative. -/
def pushInt (value : Nat) : CScript :=
  if value = 0 then [0]
  else if value ≤ 16 then [ofNat (0x50 + value)]
  else ofNat (scriptNum value).length :: scriptNum value

def isUnspendable : Bool :=
  decide (script.head? = some opReturn) || decide (script.length > maxScriptSize)

end CScript

end MooncoinFormal.Primitives
