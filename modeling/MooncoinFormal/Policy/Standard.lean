import MooncoinFormal.Mempool.Pool
import MooncoinFormal.Policy.FeeRate
import MooncoinFormal.Primitives.Numeric

/-!
# Standard transactions

`Solver`, `IsStandard`, `IsDust`, `IsStandardTx` and the policy of the extension
block. `IsStandardTx` collects the outputs and the peg-outs in `txouts`, but its loop
runs over `tx.vout`.
-/

namespace MooncoinFormal.Policy

open Primitives CScript Library.Checks List

/-- `TxoutType`, with the two numbers that `IsStandard` reads of a multisig's solutions. -/
inductive TxoutType where
  | nonstandard
  | pubkey
  | pubkeyhash
  | scripthash
  | multisig (m n : Nat)
  | nullData
  | witnessV0Scripthash
  | witnessV0Keyhash
  | witnessV1Taproot
  | witnessMwebPegin
  | witnessMwebHogaddr
  | witnessUnknown
  deriving DecidableEq

def validSize (vch : List UInt8) : Bool :=
  match vch with
  | [] => false
  | header :: _ =>
    if header = 2 ∨ header = 3 then vch.length = 33
    else if header = 4 ∨ header = 6 ∨ header = 7 then vch.length = 65
    else false

variable (script : CScript)

def matchPayToPubkey : Bool :=
  (script.length = 67 ∧ script.head? = some 65 ∧ script.getLast? = some opCheckSig ∧
      validSize ((script.drop 1).take 65)) ∨
    (script.length = 35 ∧ script.head? = some 33 ∧ script.getLast? = some opCheckSig ∧
      validSize ((script.drop 1).take 33))

def matchPayToPubkeyHash : Bool :=
  script.length = 25 ∧ script.take 3 = [0x76, opHash160, 20] ∧ script.drop 23 = [0x88, opCheckSig]

def isSmallInteger (opcode : UInt8) : Bool := op1 ≤ opcode ∧ opcode ≤ op16

/-- The loop over the keys: their number, the operation that ends it and what is left. -/
def multisigKeys : (bytes : Nat) → CScript → (keys : Nat) → Nat × UInt8 × CScript
  | 0, script, keys => (keys, opInvalid, script)
  | bytes + 1, script, keys =>
    match getOp script with
    | none => (keys, opInvalid, script)
    | some (opcode, data, rest) =>
      if validSize data then multisigKeys bytes rest (keys + 1) else (keys, opcode, rest)

def matchMultisig : Option (Nat × Nat) :=
  if script.getLast? ≠ some opCheckMultiSig then none
  else
    match getOp script with
    | none => none
    | some (opcode, _, rest) =>
      let required := decodeOpN opcode
      let (keys, last, left) := multisigKeys rest.length rest 0
      if isSmallInteger opcode ∧ isSmallInteger last ∧ decodeOpN last = keys ∧
          required ≤ keys ∧ left.length = 1 then some (required, keys)
      else none

def solver : TxoutType :=
  if script.isPayToScriptHash then .scripthash
  else
    match isWitnessProgram script with
    | some (version, program) =>
      if version = 0 ∧ program.length = 20 then .witnessV0Keyhash
      else if version = 0 ∧ program.length = 32 then .witnessV0Scripthash
      else if version = 1 ∧ program.length = 32 then .witnessV1Taproot
      else if version = 9 ∧ program.length = 32 then .witnessMwebPegin
      else if version = 8 ∧ program.length = 32 then .witnessMwebHogaddr
      else if version ≠ 0 then .witnessUnknown
      else .nonstandard
    | none =>
      if script.head? = some opReturn ∧ isPushOnly script.tail then .nullData
      else if matchPayToPubkey script then .pubkey
      else if matchPayToPubkeyHash script then .pubkeyhash
      else
        match matchMultisig script with
        | some (required, keys) => .multisig required keys
        | none => .nonstandard

/-- The settings that policy reads. -/
structure Settings where
  permitBareMultisig : Bool
  dustRelayFee : CAmount
  fAcceptDatacarrier : Bool
  nMaxDatacarrierBytes : Nat

variable (settings : Settings)

variable (txout : CTxOut)

/-- The threshold of a rate whose product with the size overflows is undefined. -/
def getDustThreshold : Option Int :=
  if txout.scriptPubKey.isUnspendable then some 0
  else CFeeRate.getFee settings.dustRelayFee.toInt (txout.serializeSize +
    if (isWitnessProgram txout.scriptPubKey).isSome then 32 + 4 + 1 + 107 / 4 + 4
    else 32 + 4 + 1 + 107 + 4)

def isDust : Bool := (getDustThreshold settings txout).any (txout.nValue.toInt < ·)

def isStandard (script : CScript) : Bool :=
  match solver script with
  | .nonstandard => false
  | .multisig m n => 1 ≤ n ∧ n ≤ 3 ∧ 1 ≤ m ∧ m ≤ n
  | .nullData => settings.fAcceptDatacarrier ∧ script.length ≤ settings.nMaxDatacarrierBytes
  | _ => true

def isBareMultisig : Bool :=
  match solver script with
  | .multisig _ _ => true
  | _ => false

def isDataCarrier : Bool := solver txout.scriptPubKey = .nullData

/-- One pass of the loop over outputs; data carriers are only counted. -/
def checkTxOut : Except String Unit := do
  ensure (isStandard settings txout.scriptPubKey) "scriptpubkey"
  if isDataCarrier txout then pure ()
  else do
    ensure (!isBareMultisig txout.scriptPubKey || settings.permitBareMultisig) "bare-multisig"
    ensure (!isDust settings txout) "dust"

variable {T : CryptoTypes} (crypto : BlockCrypto T) (tx : CTransaction T)

def pegOuts : List CTxOut :=
  (tx.mwebTx.elim [] fun mweb => mweb.body.getPegOuts).map fun pegout =>
    ⟨pegout.amount, pegout.scriptPubKey⟩

/-- `GetTransactionWeight`. -/
def transactionWeight : Nat :=
  let pegouts := ((pegOuts tx).map fun txout => txout.serializeSize * 4).sum
  if tx.isMwebOnly then pegouts
  else tx.strippedSize * 3 + (tx.strippedSize + tx.witnessSize) + pegouts +
    164 * (tx.mwebTx.elim 0 fun mweb => (mweb.body.kernels.filterMap Mweb.Kernel.pegin).length)

/-- `Transaction::IsStandard`. -/
def isStandardMweb (mweb : Mweb.Transaction T) : Bool :=
  mweb.body.inputs.all (·.features < 2) && mweb.body.kernels.all (·.features < 32) &&
    mweb.body.outputs.all (·.message.features = 1)

/-- `MWEB::Policy::IsStandardTx`. -/
def isStandardMwebTx : Except String Unit := do
  let peginKernels := tx.vout.filterMap fun txout =>
    txout.scriptPubKey.isMwebPegin.map T.hashOfBytes
  let kernelIDs := tx.getKernelIDs crypto
  ensure (tx.isMwebOnly || (peginKernels ⊆ kernelIDs ∧ kernelIDs ⊆ peginKernels)) "kernel-mismatch"
  ensure (tx.mwebTx.all isStandardMweb) "non-standard-mweb-tx"

def isStandardTx : Except String Unit := do
  ensure (1 ≤ tx.nVersion ∧ tx.nVersion ≤ 2) "version"
  ensure (transactionWeight tx % 2 ^ 32 ≤ 400000) "tx-size"
  ensureAll (fun txin : CTxIn T => do
    ensure (txin.scriptSig.length ≤ 1650) "scriptsig-size"
    ensure (isPushOnly txin.scriptSig) "scriptsig-not-pushonly") tx.vin
  ensureAll (checkTxOut settings) tx.vout
  ensure ((tx.vout.filter isDataCarrier).length ≤ 1) "multi-op-return"
  isStandardMwebTx crypto tx

/-! ## What an accepted transaction obeys -/

/-- An output that policy permits. -/
structure Permitted : Prop where
  standard : isStandard settings txout.scriptPubKey = true
  multisig : isBareMultisig txout.scriptPubKey = true → settings.permitBareMultisig = true
  noDust : isDust settings txout = false

/-- All outputs are permitted, and one of them at most carries data. -/
structure ObeysPolicy (txouts : List CTxOut) : Prop where
  permitted : ∀ txout ∈ txouts, Permitted settings txout
  oneDataCarrier : (txouts.filter isDataCarrier).length ≤ 1

variable {settings crypto} {txout : CTxOut}

theorem head_of_isDataCarrier (data : isDataCarrier txout = true) :
    txout.scriptPubKey.head? = some opReturn := by
  have type := of_decide_eq_true data
  unfold solver at type
  split at type
  · cases type
  split at type
  · split_ifs at type
  · split at type
    · rename_i carrier
      exact carrier.1
    · split_ifs at type
      split at type <;> cases type

theorem isDust_of_isDataCarrier (data : isDataCarrier txout = true) :
    isDust settings txout = false ↔ 0 ≤ txout.nValue.toInt := by
  have unspendable : txout.scriptPubKey.isUnspendable = true := by
    simp [isUnspendable, head_of_isDataCarrier data]
  rw [isDust, getDustThreshold, if_pos unspendable, Option.any_some, decide_eq_false_iff_not,
    Int.not_lt]

theorem checkTxOut_eq_ok :
    checkTxOut settings txout = .ok () ↔
      isStandard settings txout.scriptPubKey = true ∧
        (isDataCarrier txout = true ∨ Permitted settings txout) := by
  unfold checkTxOut
  by_cases data : isDataCarrier txout = true
  · simp [data]
  rw [if_neg data]
  simp only [bind_eq_ok, ensure_eq_ok, Bool.or_eq_true, Bool.not_eq_true', data]
  constructor
  · rintro ⟨-, standard, -, multisig, noDust⟩
    refine ⟨standard, .inr ⟨standard, fun bare => multisig.resolve_left ?_, noDust⟩⟩
    rw [bare]
    rintro ⟨⟩
  · rintro ⟨standard, absurdity | ⟨-, multisig, noDust⟩⟩
    · cases absurdity
    · refine ⟨(), standard, (), ?_, noDust⟩
      cases bare : isBareMultisig txout.scriptPubKey with
      | false => exact .inl rfl
      | true => exact .inr (multisig bare)

/-- An accepted transaction obeys output policy with its peg-outs exactly when the peg-outs, which
are not looked at, are permitted and add no second data carrier, and no data carrier among the
outputs has a negative amount. -/
theorem isStandardTx_obeysPolicy_iff (settings : Settings) (crypto : BlockCrypto T)
    (tx : CTransaction T) (accepted : isStandardTx settings crypto tx = .ok ()) :
    ObeysPolicy settings (tx.vout ++ pegOuts tx) ↔
      (∀ pegout ∈ pegOuts tx, Permitted settings pegout) ∧
        ((tx.vout ++ pegOuts tx).filter isDataCarrier).length ≤ 1 ∧
        ∀ txout ∈ tx.vout, isDataCarrier txout = true → 0 ≤ txout.nValue.toInt := by
  simp only [isStandardTx, bind_eq_ok, ensureAll_eq_ok] at accepted
  obtain ⟨-, -, -, -, -, -, -, outputs, -⟩ := accepted
  refine ⟨fun obeys => ⟨(forall_mem_append.mp obeys.permitted).2,
    obeys.oneDataCarrier, fun txout member data => ?_⟩, fun ⟨permitted, single, amounts⟩ =>
    ⟨fun txout member => ?_, single⟩⟩
  · exact (isDust_of_isDataCarrier data).mp
      (obeys.permitted txout (mem_append_left _ member)).noDust
  · rcases mem_append.mp member with output | pegout
    · obtain ⟨standard, data | permitted⟩ := checkTxOut_eq_ok.mp (outputs txout output)
      · refine ⟨standard, fun multisig => ?_,
          (isDust_of_isDataCarrier data).mpr (amounts txout output data)⟩
        rw [isBareMultisig, of_decide_eq_true data] at multisig
        cases multisig
      · exact permitted
    · exact permitted txout pegout

end MooncoinFormal.Policy

namespace MooncoinFormal.Primitives.Numeric

open Policy List

def defaultSettings : Settings := ⟨true, 30000, true, 83⟩

def keyHashScript : CScript :=
  [0x76, 0xa9, 20] ++ replicate 20 0 ++ [0x88, 0xac]

theorem pegoutTx_obeysPolicy :
    isStandardTx defaultSettings crypto (pegoutTx 10000 keyHashScript) = .ok () ∧
      ObeysPolicy defaultSettings
        ((pegoutTx 10000 keyHashScript).vout ++ pegOuts (pegoutTx 10000 keyHashScript)) := by
  have accepted : isStandardTx defaultSettings crypto (pegoutTx 10000 keyHashScript) = .ok () := by
    decide +kernel
  refine ⟨accepted, (isStandardTx_obeysPolicy_iff _ _ _ accepted).mpr
    ⟨?_, by decide +kernel, nofun⟩⟩
  intro pegout member
  rw [mem_singleton.mp member]
  exact ⟨by decide +kernel, by decide +kernel, by decide +kernel⟩

/-- A peg-out of one unit to a script of no standard type is accepted. -/
theorem pegoutTx_not_obeysPolicy :
    isStandardTx defaultSettings crypto (pegoutTx 1 [0x51]) = .ok () ∧
      solver [0x51] = .nonstandard ∧ isDust defaultSettings ⟨1, [0x51]⟩ = true ∧
      ¬ ObeysPolicy defaultSettings ((pegoutTx 1 [0x51]).vout ++ pegOuts (pegoutTx 1 [0x51])) := by
  refine ⟨by decide +kernel, by decide +kernel, by decide +kernel, fun obeys => ?_⟩
  have standard := (obeys.permitted ⟨1, [0x51]⟩ (mem_singleton_self _)).standard
  exact absurd standard (by decide +kernel)

end MooncoinFormal.Primitives.Numeric
