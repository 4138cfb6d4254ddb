import Mathlib
import MooncoinFormal.Library.MountainRange
import MooncoinFormal.Mweb.Models

/-!
# The cryptography the extension block is built on

Hash functions, the two generators, and signature and range proof verification
are parameters. A hash is a function of the values that are appended to the
hasher; what follows from its being collision free is stated where it is used.
Commitment sums and key sums are those of the group.
-/

namespace MooncoinFormal.Mweb

open Primitives Library.MountainRange List

structure Crypto (T : CryptoTypes) where
  /-- The generator of blinding factors and keys. -/
  generatorG : T.Point
  /-- The generator of values. -/
  generatorH : T.Point
  /-- `Output::ComputeHash`, the output ID. -/
  hashOutput : Output T → T.Hash
  /-- The kernel ID. -/
  hashKernel : Kernel T → T.Hash
  hashHeader : Header T → T.Hash
  /-- `Leaf::CalcHash` of an output ID at a position. -/
  hashOutputLeaf : Nat → T.Hash → T.Hash
  /-- `Leaf::CalcHash` of a serialized kernel at a position. -/
  hashKernelLeaf : Nat → Kernel T → T.Hash
  /-- `MMRUtil::CalcParentHash`. -/
  hashParent : Nat → T.Hash → T.Hash → T.Hash
  hashLeafset : List UInt8 → T.Hash
  /-- The hash of two keys, used as a scalar. -/
  hashKeys : T.Point → T.Point → T.Scalar
  /-- What an input signs: features, output ID and, behind its bit, extra data. -/
  inputMessage : UInt8 → T.Hash → Option (List UInt8) → T.Hash
  /-- What an output signs: commitment, sender, receiver, message and proof. -/
  outputMessage : T.Point → T.Point → T.Point → OutputMessage T → T.RangeProof → T.Hash
  /-- `Kernel::GetSignatureMessage`, which reads everything but the signature. -/
  kernelMessage : Kernel T → T.Hash
  schnorrVerify : T.Signature → T.Point → T.Hash → Bool
  rangeProofVerify : T.Point → T.RangeProof → OutputMessage T → Bool

namespace Crypto

variable {T : CryptoTypes} (crypto : Crypto T)

def outputMmr : NodeHash T.Hash T.Hash := ⟨crypto.hashOutputLeaf, crypto.hashParent⟩

def kernelMmr : NodeHash T.Hash (Kernel T) := ⟨crypto.hashKernelLeaf, crypto.hashParent⟩

/-- `Commitment::Transparent`. -/
def commitTransparent (value : Nat) : T.Point := value • crypto.generatorH

/-- `Commitment::Blinded` of the value zero, and `PublicKeys::Calculate`. -/
def commitBlinded (blind : T.Scalar) : T.Point := blind • crypto.generatorG

/-- No small multiple of the generator of blinding factors is infinity. -/
def LargeOrder : Prop :=
  ∀ n : Nat, n ≠ 0 → n < 2 ^ 64 → (n : T.Scalar) • crypto.generatorG ≠ 0

/-- A header hash has 32 bytes and is read back from them. -/
def ReadableHeaderHash : Prop :=
  ∀ header, (T.hashBytes (crypto.hashHeader header)).length = 32 ∧
    T.hashOfBytes (T.hashBytes (crypto.hashHeader header)) = crypto.hashHeader header

end Crypto

/-- A message with the key and the signature it is to be verified with. -/
structure SignedMessage (T : CryptoTypes) where
  message : T.Hash
  publicKey : T.Point
  signature : T.Signature

variable {T : CryptoTypes} (crypto : Crypto T)

def Crypto.verify (signed : SignedMessage T) : Bool :=
  crypto.schnorrVerify signed.signature signed.publicKey signed.message

/-- The key `HASH(first ‖ second) * key + other` of two keys that sign together. -/
def aggregateKey (first second key other : T.Point) : T.Point :=
  crypto.hashKeys first second • key + other

def Input.buildSignedMsg (input : Input T) : SignedMessage T where
  message := crypto.inputMessage input.features input.outputID
    (if hasFeature input.features 1 then some input.extraData else none)
  publicKey :=
    match input.inputPubKey with
    | some inputKey => aggregateKey crypto inputKey input.outputPubKey input.outputPubKey inputKey
    | none => input.outputPubKey
  signature := input.signature

def Output.buildSignedMsg (output : Output T) : SignedMessage T where
  message := crypto.outputMessage output.commitment output.senderPubKey output.receiverPubKey
    output.message output.rangeProof
  publicKey := output.senderPubKey
  signature := output.signature

def Kernel.buildSignedMsg (kernel : Kernel T) : SignedMessage T where
  message := crypto.kernelMessage kernel
  publicKey :=
    match kernel.stealthExcess with
    | some stealth => aggregateKey crypto kernel.excess stealth kernel.excess stealth
    | none => kernel.excess
  signature := kernel.signature

/-! ## Sums of commitments and of keys -/

abbrev MwResult := Except MwError

/-- `Pedersen::AddCommitments`: zero commitments are left out, and the sum of the
others must not be infinity. -/
def addCommitments (positive negative : List T.Point) : MwResult T.Point :=
  let positive := positive.filter (· ≠ 0)
  let negative := negative.filter (· ≠ 0)
  if positive = [] ∧ negative = [] then .ok 0
  else if positive.sum - negative.sum = 0 then
    .error (.crypto "secp256k1_pedersen_commit_sum error")
  else .ok (positive.sum - negative.sum)

/-- `PublicKeys::Add`, which parses every key. -/
def addPublicKeys (keys : List T.Point) : MwResult T.Point :=
  if 0 ∈ keys then .error (.crypto "secp256k1_ec_pubkey_parse failed")
  else if keys.sum = 0 then .error (.crypto "Failed to combine public keys.")
  else .ok keys.sum

theorem sum_filter_ne_zero (points : List T.Point) : (points.filter (· ≠ 0)).sum = points.sum := by
  induction points with
  | nil => rfl
  | cons point rest ih =>
    by_cases zero : point = 0
    · rw [filter_cons_of_neg (by simp [zero]), ih, sum_cons, zero, zero_add]
    · rw [filter_cons_of_pos (by simp [zero]), sum_cons, ih, sum_cons]

variable {positive negative : List T.Point}

theorem addCommitments_ok {total : T.Point} (added : addCommitments positive negative = .ok total) :
    total = positive.sum - negative.sum := by
  unfold addCommitments at added
  simp only [sum_filter_ne_zero] at added
  split at added
  · rename_i empty
    cases added
    rw [← sum_filter_ne_zero positive, ← sum_filter_ne_zero negative, empty.1, empty.2]
    simp
  · split at added
    · cases added
    · cases added
      rfl

theorem addCommitments_of_ne_zero (nonzero : positive.sum - negative.sum ≠ 0) :
    addCommitments positive negative = .ok (positive.sum - negative.sum) := by
  unfold addCommitments
  simp only [sum_filter_ne_zero]
  rw [if_neg, if_neg nonzero]
  rintro ⟨noPositive, noNegative⟩
  refine nonzero ?_
  rw [← sum_filter_ne_zero positive, ← sum_filter_ne_zero negative, noPositive, noNegative]
  simp

end MooncoinFormal.Mweb
