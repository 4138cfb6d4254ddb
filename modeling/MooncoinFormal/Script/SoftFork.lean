import MooncoinFormal.Library.Strictness
import MooncoinFormal.Script.Verify

/-!
# Flags only restrict

A flag adds checks and never changes what a script leaves on the stack, so a script
that runs under more flags runs under fewer and leaves the same. The parts of the
interpreter are compared one by one, from the numbers to the loop. `VerifyScript`
itself is compared by the flags for witnesses and script hashes: without them the
program or the script behind the hash is not looked at.
-/

namespace MooncoinFormal.Script

open Library.Checks Library.Strictness Primitives Stricter Bool Except

section

variable {fewer more : Flags} (subset : fewer.Subset more) (flag : VerifyFlag)
include subset flag

theorem stricter_ensure_flag (condition : Prop) [Decidable condition] (error : ScriptError) :
    Stricter (ensure (more.has flag = true → condition) error)
      (ensure (fewer.has flag = true → condition) error) :=
  ensure fun checked isSet => checked (subset.has isSet)

theorem stricter_ensure_unset (error : ScriptError) :
    Stricter (ensure (more.has flag = false) error) (ensure (fewer.has flag = false) error) := by
  apply Stricter.ensure
  intro unset
  by_contra isSet
  rw [subset.has (eq_true_of_not_eq_false isSet)] at unset
  cases unset

end

section Restriction

variable {context : Context} {fewer more : Flags} {sigversion : SigVersion}

variable (fewer more) in
/-- A part of the interpreter is stricter under more flags. -/
abbrev Restricted {α : Type} (part : Flags → Except ScriptError α) : Prop :=
  Stricter (part more) (part fewer)

section

variable (subset : fewer.Subset more)
include subset

variable (vch : Valtype)

theorem stricter_ofVch (nMaxNumSize : Nat) :
    Restricted fewer more (CScriptNum.ofVch · vch nMaxNumSize) :=
  bind_same fun _ => (stricter_ensure_flag subset _ _ _).bind_first _

theorem stricter_operand : Restricted fewer more (CScriptNum.operand · vch) :=
  stricter_ofVch subset vch _

theorem stricter_checkSignatureEncoding (checkLowS : Valtype → Bool) (vchSig : Valtype) :
    Restricted fewer more (checkSignatureEncoding checkLowS · vchSig) := by
  apply Stricter.ite
  · exact fun _ => refl _
  · intro _
    refine bind (ensure fun checked anySet => checked ?_) fun _ =>
      (stricter_ensure_flag subset _ _ _).bind fun _ =>
        (stricter_ensure_flag subset _ _ _).bind fun _ => stricter_ensure_flag subset _ _ _
    simp only [or_eq_true] at anySet ⊢
    exact anySet.imp (Or.imp subset.has subset.has) subset.has

theorem stricter_checkPubKeyEncoding (vchPubKey : Valtype) :
    Restricted fewer more (checkPubKeyEncoding · sigversion vchPubKey) :=
  (stricter_ensure_flag subset _ _ _).bind fun _ => stricter_ensure_flag subset _ _ _

theorem stricter_behind {flag : VerifyFlag} {machine : Machine}
    {check check' : Except ScriptError Machine} (stricter : Stricter check check')
    (unchanged : ∀ value, check = .ok value → value = machine) :
    Stricter (if more.has flag = true then check else .ok machine)
      (if fewer.has flag = true then check' else .ok machine) := by
  by_cases isSet : fewer.has flag = true
  · rw [if_pos isSet, if_pos (subset.has isSet)]
    exact stricter
  · rw [if_neg isSet]
    apply of_unchanged
    intro value reached
    split at reached
    · exact unchanged value reached
    · exact (ok.inj reached).symm

variable (machine : Machine)

theorem stricter_locks : Restricted fewer more (opCheckLockTimeVerify context · machine) ∧
    Restricted fewer more (opCheckSequenceVerify context · machine) := by
  constructor
  all_goals
    refine stricter_behind subset (bind_same fun top =>
      (stricter_ofVch subset top 5).bind_first _) fun value reached => ?_
    simp only [bind_eq_ok] at reached
    obtain ⟨_, -, _, -, _, -, _, -, same⟩ := reached
    exact (ok.inj same).symm

theorem stricter_opIf (notIf fExec : Bool) (machine : Machine) :
    Restricted fewer more (opIf · sigversion notIf fExec machine) := by
  refine ite (fun _ => ?_) fun _ => refl _
  cases machine.stack with
  | nil => exact refl _
  | cons vch rest =>
    refine bind_same fun _ => bind_first ?_ _
    exact ensure fun checked version isSet => checked version (subset.has isSet)

theorem stricter_opPick (roll : Bool) (machine : Machine) :
    Restricted fewer more (opPick · roll machine) := by
  unfold opPick
  split
  · exact (stricter_operand subset _).bind_first _
  · exact refl _

theorem stricter_opUnary (op : UnaryOp) (machine : Machine) :
    Restricted fewer more (opUnary · op machine) :=
  bind_same fun top => (stricter_operand subset top).bind_first _

theorem stricter_opBinary (op : BinaryOp) (machine : Machine) :
    Restricted fewer more (opBinary · op machine) := by
  unfold opBinary
  split
  · exact (stricter_operand subset _).bind fun _ => (stricter_operand subset _).bind_first _
  · exact refl _

theorem stricter_opWithin : Restricted fewer more (opWithin · machine) := by
  unfold opWithin
  split
  · exact (stricter_operand subset _).bind fun _ => (stricter_operand subset _).bind fun _ =>
      (stricter_operand subset _).bind_first _
  · exact refl _

/-! ## Signatures -/

theorem stricter_dropSignature (scriptCode : CScript) (vchSig : Valtype) :
    Restricted fewer more (dropSignature · sigversion scriptCode vchSig) :=
  ite (fun _ => (stricter_ensure_flag subset _ _ _).bind_first _)
    fun _ => refl _

theorem stricter_dropSignatures (sigs : List Valtype) (scriptCode : CScript) :
    Restricted fewer more (dropSignatures · sigversion sigs scriptCode) := by
  induction sigs generalizing scriptCode with
  | nil => exact refl _
  | cons vchSig sigs ih => exact (stricter_dropSignature subset scriptCode vchSig).bind ih

theorem stricter_evalChecksigPreTapscript (vchSig vchPubKey : Valtype) (codeHash : CScript) :
    Restricted fewer more (evalChecksigPreTapscript context · sigversion vchSig vchPubKey
      codeHash) :=
  (stricter_dropSignature subset codeHash vchSig).bind fun _ =>
    (stricter_checkSignatureEncoding subset _ vchSig).bind fun _ =>
      (stricter_checkPubKeyEncoding subset vchPubKey).bind fun _ =>
        (stricter_ensure_flag subset _ _ _).bind_first _

theorem stricter_evalChecksigTapscript (sig pubKey : Valtype) (execdata : ScriptExecutionData) :
    Restricted fewer more (evalChecksigTapscript context · sigversion sig pubKey execdata) :=
  bind_same fun _ => bind_first
    (ite (fun _ => refl _) fun _ => ite (fun _ => refl _)
      fun _ => stricter_ensure_unset subset _ _) _

theorem stricter_evalChecksig (sig pubKey : Valtype) (machine : Machine) :
    Restricted fewer more (evalChecksig context · sigversion sig pubKey machine) := by
  cases sigversion with
  | base => exact (stricter_evalChecksigPreTapscript subset _ _ _).bind_first _
  | witnessV0 => exact (stricter_evalChecksigPreTapscript subset _ _ _).bind_first _
  | taproot => exact refl _
  | tapscript => exact stricter_evalChecksigTapscript subset _ _ _

theorem stricter_opCheckSig (verify : Bool) (machine : Machine) :
    Restricted fewer more (opCheckSig context · sigversion verify machine) := by
  unfold opCheckSig
  split
  · exact (stricter_evalChecksig subset _ _ machine).bind_first _
  · exact refl _

theorem stricter_opCheckSigAdd :
    Restricted fewer more (opCheckSigAdd context · sigversion machine) := by
  refine ite (fun _ => refl _) fun _ => ?_
  split
  · exact (stricter_operand subset _).bind fun _ =>
      (stricter_evalChecksig subset _ _ machine).bind_first _
  · exact refl _

theorem stricter_matchSignatures (scriptCode : CScript) (keys sigs : List Valtype) :
    Restricted fewer more (matchSignatures context · sigversion scriptCode keys sigs) := by
  induction keys generalizing sigs with
  | nil => cases sigs <;> exact refl _
  | cons vchPubKey keys ih =>
    cases sigs with
    | nil => exact refl _
    | cons vchSig sigs =>
      exact (stricter_checkSignatureEncoding subset _ vchSig).bind fun _ =>
        (stricter_checkPubKeyEncoding subset vchPubKey).bind fun _ =>
          ite (fun _ => refl _) fun _ => ih _

theorem stricter_readCount (most : Nat) (error : ScriptError) :
    Restricted fewer more (readCount · vch most error) :=
  (stricter_operand subset vch).bind_first _

theorem stricter_opCheckMultiSig (verify : Bool) (machine : Machine) :
    Restricted fewer more (opCheckMultiSig context · sigversion verify machine) := by
  refine ite (fun _ => refl _) fun _ => ?_
  refine bind_same fun top => ?_
  refine (stricter_readCount subset top _ _).bind fun nKeysCount => ?_
  refine bind_same fun _ => bind_same fun _ => ?_
  refine (stricter_readCount subset _ _ _).bind fun nSigsCount => ?_
  refine bind_same fun _ => ?_
  refine (stricter_dropSignatures subset _ _).bind fun scriptCode => ?_
  refine (stricter_matchSignatures subset scriptCode _ _).bind fun fSuccess => ?_
  exact (stricter_ensure_flag subset _ _ _).bind fun _ =>
    (stricter_ensure_flag subset _ _ _).bind_first _

/-! ## The loop -/

theorem stricter_evalInstruction (fExec : Bool) (pc : CScript) (opcodePos : Nat) (machine : Machine)
    (instruction : Instruction) :
    Restricted fewer more
      (evalInstruction context · sigversion fExec pc opcodePos machine instruction) := by
  cases instruction with
  | opCheckLockTimeVerify => exact (stricter_locks subset machine).1
  | opCheckSequenceVerify => exact (stricter_locks subset machine).2
  | opUpgradableNop => exact (stricter_ensure_unset subset _ _).bind_first _
  | opIf notIf => exact stricter_opIf subset notIf fExec machine
  | opPick roll => exact stricter_opPick subset roll machine
  | opUnary op => exact stricter_opUnary subset op machine
  | opBinary op => exact stricter_opBinary subset op machine
  | opWithin => exact stricter_opWithin subset machine
  | opCheckSig verify => exact stricter_opCheckSig subset verify machine
  | opCheckSigAdd => exact stricter_opCheckSigAdd subset machine
  | opCheckMultiSig verify => exact stricter_opCheckMultiSig subset verify machine
  -- The other operations do not read the flags.
  | _ => exact refl _

theorem stricter_execute (opcode : UInt8) (vchPushValue : Valtype) (pc : CScript) (opcodePos : Nat)
    (machine : Machine) :
    Restricted fewer more (execute context · sigversion opcode vchPushValue pc opcodePos
      machine) := by
  refine ite (fun _ => (stricter_ensure_flag subset _ _ _).bind_first _) fun _ => ?_
  refine ite (fun _ => ?_) fun _ => refl _
  cases Instruction.ofOpcode opcode with
  | none => exact refl _
  | some instruction => exact stricter_evalInstruction subset _ pc opcodePos machine instruction

theorem stricter_evalStep (pc : CScript) (opcodePos : Nat) (machine : Machine) :
    Restricted fewer more (evalStep context · sigversion pc opcodePos machine) := by
  unfold evalStep
  split
  · exact refl _
  · refine bind_same fun _ => bind_same fun _ => bind_same fun _ => ?_
    refine bind (ensure fun checked separator bare => ?_) fun _ =>
      (stricter_execute subset _ _ _ opcodePos _).bind_first _
    exact ensure_eq_ok.mp (stricter_ensure_unset subset _ ScriptError.opCodeSeparator ()
      (ensure_of (checked separator bare)))

theorem stricter_evalLoop (bytes : Nat) (pc : CScript) (opcodePos : Nat) (machine : Machine) :
    Restricted fewer more (evalLoop context · sigversion bytes pc opcodePos machine) := by
  induction bytes generalizing pc opcodePos machine with
  | zero => exact refl _
  | succ bytes ih =>
    refine ite (fun _ => refl _) fun _ => ?_
    exact (stricter_evalStep subset pc opcodePos machine).bind fun next => ih _ _ _

theorem stricter_evalScript (stack : Stack) (script : CScript) (execdata : ScriptExecutionData) :
    Restricted fewer more (evalScript context · sigversion stack script execdata) :=
  bind_same fun _ => bind_same fun _ =>
    (stricter_evalLoop subset _ script 0 _).bind_first _

section

variable (witnessStack : List Valtype) (script : CScript) (execdata : ScriptExecutionData)
include witnessStack script execdata

theorem stricter_runWitnessScript :
    Restricted fewer more (runWitnessScript context · sigversion witnessStack script execdata) :=
  bind_same fun _ => (stricter_evalScript subset _ script execdata).bind_first _

theorem stricter_executeWitnessScript :
    Restricted fewer more (executeWitnessScript context · sigversion witnessStack script
      execdata) := by
  refine ite (fun _ => bind_same fun success => ?_) fun _ =>
    stricter_runWitnessScript subset witnessStack script execdata
  refine ite (fun _ => stricter_ensure_unset subset _ _) fun _ => ?_
  exact bind_same fun _ =>
    stricter_runWitnessScript subset witnessStack script execdata

end

variable (witness : List Valtype)

theorem stricter_verifyTaproot (program : Valtype) :
    Restricted fewer more (verifyTaproot context · witness program) := by
  refine bind_same fun _ => ite (fun _ => refl _) fun _ => ?_
  refine bind_same fun _ => bind_same fun _ => ?_
  exact ite (fun _ => stricter_executeWitnessScript subset _ _ _) fun _ =>
    stricter_ensure_unset subset _ _

theorem stricter_verifyWitnessProgram (witversion : Nat) (program : Valtype) (isP2sh : Bool) :
    Restricted fewer more (verifyWitnessProgram context · witness witversion program isP2sh) := by
  refine ite (fun _ => ?_) fun _ => ite (fun _ => ?_) fun _ =>
    stricter_ensure_unset subset _ _
  · refine ite (fun _ => ?_) fun _ => ite (fun _ => ?_) fun _ => refl _
    · exact bind_same fun _ => bind_same fun _ =>
        stricter_executeWitnessScript subset _ _ _
    · exact bind_same fun _ => stricter_executeWitnessScript subset _ _ _
  · by_cases isSet : fewer.has .taproot = true
    · rw [if_pos isSet, if_pos (subset.has isSet)]
      exact stricter_verifyTaproot subset witness program
    · rw [if_neg isSet]
      exact fun _ _ => rfl

/-! ## Inputs -/

theorem stricter_evalTrue (stack : Stack) (script : CScript) :
    Restricted fewer more (evalTrue context · stack script) :=
  (stricter_evalScript subset stack script {}).bind_first _

theorem stricter_verifyProgramOf (witnesses : fewer.has .witness = true)
    (script scriptSig expected : CScript) (malleated : ScriptError) (witness : List Valtype)
    (isP2sh : Bool) (outcome : Outcome) :
    Restricted fewer more
      (verifyProgramOf context · script scriptSig expected malleated witness isP2sh outcome) := by
  dsimp only [Restricted, verifyProgramOf]
  rw [if_pos witnesses, if_pos (subset.has witnesses)]
  split
  · exact refl _
  · exact bind_same fun _ =>
      (stricter_verifyWitnessProgram subset witness _ _ isP2sh).bind_first _

end

theorem verifyProgramOf_of_unset (unset : fewer.has .witness = false)
    (script scriptSig expected : CScript) (malleated : ScriptError) (witness : List Valtype)
    (isP2sh : Bool) (outcome : Outcome) :
    verifyProgramOf context fewer script scriptSig expected malleated witness isP2sh outcome =
      .ok outcome := by
  unfold verifyProgramOf
  rw [if_neg (by rw [unset]; decide)]

theorem stricter_verifyScriptHash (subset : fewer.Subset more) (hashes : fewer.has .p2sh = true)
    (witnesses : fewer.has .witness = true) (scriptSig scriptPubKey : CScript)
    (witness : List Valtype) (stackCopy : Stack) (outcome : Outcome) :
    Restricted fewer more
      (verifyScriptHash context · scriptSig scriptPubKey witness stackCopy outcome) := by
  dsimp only [Restricted, verifyScriptHash]
  rw [if_pos hashes, if_pos (subset.has hashes)]
  refine ite (fun _ => ?_) fun _ => refl _
  refine bind_same fun _ => bind_same fun _ => ?_
  exact (stricter_evalTrue subset _ _).bind fun stack =>
    stricter_verifyProgramOf subset witnesses _ scriptSig _ _ witness true _

theorem verifyScriptHash_of_unset (subset : fewer.Subset more)
    (unset : fewer.has .witness = false) {scriptSig scriptPubKey : CScript}
    {witness : List Valtype} {stackCopy : Stack} {outcome reached : Outcome}
    (passed : verifyScriptHash context more scriptSig scriptPubKey witness stackCopy outcome =
      .ok reached) (other : Outcome) :
    ∃ result, verifyScriptHash context fewer scriptSig scriptPubKey witness stackCopy other =
      .ok result := by
  unfold verifyScriptHash at passed ⊢
  by_cases hashes : fewer.has .p2sh = true
  · rw [if_pos hashes]
    rw [if_pos (subset.has hashes)] at passed
    by_cases paysToHash : CScript.isPayToScriptHash scriptPubKey = true
    · rw [if_pos paysToHash] at passed ⊢
      simp only [verifyRedeemScript, bind_eq_ok, ensure_eq_ok] at passed
      obtain ⟨_, pushOnly, _, filled, stack, ran, -⟩ := passed
      refine ⟨{ stack := stack, hadWitness := other.hadWitness }, ?_⟩
      simp only [verifyRedeemScript, bind_eq_ok, ensure_eq_ok]
      exact ⟨(), pushOnly, (), filled, stack, stricter_evalTrue subset _ _ stack ran,
        verifyProgramOf_of_unset unset _ _ _ _ _ _ _⟩
    · exact ⟨other, if_neg paysToHash⟩
  · exact ⟨other, if_neg hashes⟩

theorem stricter_finalChecks (subset : fewer.Subset more) (valid : fewer.isValidCombination = true)
    (witness : List Valtype) (outcome : Outcome) :
    Restricted fewer more (finalChecks · witness outcome) := by
  obtain ⟨cleanNeeds, witnessNeeds⟩ := Flags.isValidCombination_iff.mp valid
  refine bind (ensure fun _ => cleanNeeds) fun _ => ?_
  refine (stricter_ensure_flag subset _ _ _).bind fun _ => ?_
  exact bind (ensure fun _ => witnessNeeds) fun _ =>
    stricter_ensure_flag subset _ _ _

theorem finalChecks_of_unset (valid : fewer.isValidCombination = true)
    (unset : fewer.has .witness = false) (witness : List Valtype) (outcome : Outcome) :
    finalChecks fewer witness outcome = .ok () := by
  obtain ⟨cleanNeeds, -⟩ := Flags.isValidCombination_iff.mp valid
  have unclean : fewer.has .cleanStack = false := by
    by_contra isSet
    rw [(cleanNeeds (eq_true_of_not_eq_false isSet)).2] at unset
    cases unset
  simp only [finalChecks, bind_eq_ok, ensure_eq_ok, unclean, unset]
  exact ⟨(), (by rintro ⟨⟩), (), (by rintro ⟨⟩), (), (by rintro ⟨⟩), (by rintro ⟨⟩)⟩

end Restriction

/-- Activating a rule is a soft fork: an input that is valid under more flags is valid
under fewer, when the fewer flags go together. -/
theorem verifyScript_of_subset (context : Context) {fewer more : Flags}
    (subset : fewer.Subset more) (valid : fewer.isValidCombination = true)
    (scriptSig scriptPubKey : CScript) (witness : List Valtype)
    (passes : verifyScript context more scriptSig scriptPubKey witness = .ok ()) :
    verifyScript context fewer scriptSig scriptPubKey witness = .ok () := by
  by_cases witnesses : fewer.has .witness = true
  · -- Both runs look at the witness program, and every step leaves the same.
    have hashes := (Flags.isValidCombination_iff.mp valid).2 witnesses
    refine bind (stricter_ensure_flag subset _ _ _) (fun _ => ?_) () passes
    refine (stricter_evalScript subset [] scriptSig {}).bind fun spent => ?_
    refine (stricter_evalTrue subset spent.1 scriptPubKey).bind fun stack => ?_
    refine (stricter_verifyProgramOf subset witnesses _ _ _ _ witness false _).bind
      fun outcome => ?_
    exact (stricter_verifyScriptHash subset hashes witnesses _ _ witness spent.1 outcome).bind
      fun outcome => stricter_finalChecks subset valid witness outcome
  · -- The stacks differ after a witness program, which nothing looks at any more.
    have unset := eq_false_of_not_eq_true witnesses
    simp only [verifyScript, bind_eq_ok, ensure_eq_ok] at passes
    obtain ⟨_, pushOnly, spent, spending, stack, ran, outcome, -, reached, redeemed, -⟩ := passes
    obtain ⟨result, redeems⟩ :=
      verifyScriptHash_of_unset subset unset redeemed { stack := stack }
    simp only [verifyScript, bind_eq_ok, ensure_eq_ok]
    exact ⟨(), fun isSet => pushOnly (subset.has isSet), spent,
      stricter_evalScript subset _ _ _ spent spending, stack,
      stricter_evalTrue subset _ _ stack ran, { stack := stack },
      verifyProgramOf_of_unset unset _ _ _ _ _ _ _, result, redeems,
      finalChecks_of_unset valid unset witness result⟩

def hashOfTrue : Valtype :=
  [0x4a, 0xe8, 0x15, 0x72, 0xf0, 0x6e, 0x1b, 0x88, 0xfd, 0x5c, 0xed, 0x7a,
    0x1a, 0x00, 0x09, 0x45, 0x43, 0x2e, 0x83, 0xe1, 0x55, 0x1e, 0x6f, 0x72,
    0x1e, 0xe9, 0xc0, 0x0b, 0x8c, 0xc3, 0x32, 0x60]

/-- The hash of `OP_1` and no signature: enough for a program that needs none. -/
def trueContext : Context where
  crypto :=
    { ripemd160 := fun _ => []
      sha1 := fun _ => []
      sha256 := fun bytes => if bytes = [CScript.op1] then hashOfTrue else []
      hash160 := fun _ => []
      hash256 := fun _ => []
      checkLowS := fun _ => false
      tapLeaf := fun _ => []
      tapBranch := fun _ => []
      tapTweak := fun _ => []
      checkPayToContract := fun _ _ _ _ => false }
  checker :=
    { checkECDSASignature := fun _ _ _ _ => false
      checkSchnorrSignature := fun _ _ _ _ => .error .schnorrSig
      checkLockTime := fun _ => false
      checkSequence := fun _ => false }

/-- The output that pays to the hash of `OP_1` is spent by that script under every
rule, and so under `P2SH` and `WITNESS` alone. -/
theorem hashOfTrue_spendable :
    verifyScript trueContext 0x801 [] (0x00 :: 0x20 :: hashOfTrue) [[CScript.op1]] = .ok () :=
  @verifyScript_of_subset trueContext 0x801 0x1fffff (by decide) (by decide) [] _ _
    (by decide +kernel)

end MooncoinFormal.Script
