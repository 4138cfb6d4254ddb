import Mathlib
import MooncoinFormal.Primitives.Hashing

/-!
# A cryptography that computes

Digests are numbers below `2 ^ 256`, points are pairs of a blinding factor and a
value, and a signature is the digest of the key and the message. The instance is
not secure, but it satisfies the laws that the results assume, and every check
of a block can be evaluated in it.
-/

namespace MooncoinFormal.Primitives.Numeric

open Library.Codec List

/-- A digest of some numbers, in 256 bits. -/
def digest (tag : Nat) (parts : List Nat) : Nat :=
  parts.foldl (fun state part => (state * 1000003 + part + 1) % 2 ^ 256) (tag % 2 ^ 256)

def ofInt (value : Int) : Nat := 2 * value.natAbs + if value < 0 then 1 else 0

def ofPoint (point : Int × Int) : List Nat := [ofInt point.1, ofInt point.2]

def ofBytes (bytes : List UInt8) : List Nat := bytes.length :: bytes.map UInt8.toNat

def ofOption {α : Type} (parts : α → List Nat) : Option α → List Nat
  | none => [0]
  | some value => 1 :: parts value

def ofList {α : Type} (parts : α → List Nat) (items : List α) : List Nat :=
  items.length :: items.flatMap parts

/-- The carriers; signatures and range proofs are digests. -/
abbrev types : CryptoTypes where
  Hash := Nat
  Point := Int × Int
  Scalar := Int
  Signature := Nat
  RangeProof := Nat
  hashOrder := inferInstance
  scalarRing := inferInstance
  scalarEq := inferInstance
  pointGroup := inferInstance
  pointModule := inferInstance
  pointEq := inferInstance
  signatureEq := inferInstance
  proofEq := inferInstance
  zeroHash := 0
  hashBytes := toBytes 32
  hashOfBytes := littleEndian

/-! ## What is hashed -/

def ofMessage (message : Mweb.OutputMessage types) : List Nat :=
  message.features.toNat ::
    ofOption (fun fields : Mweb.StandardFields types =>
      ofPoint fields.keyExchangePubKey ++
        [fields.viewTag.toNat, fields.maskedValue.toNat, fields.maskedNonce.toNat])
      message.standardFields ++ ofBytes message.extraData

def ofOutput (output : Mweb.Output types) : List Nat :=
  ofPoint output.commitment ++ ofPoint output.senderPubKey ++ ofPoint output.receiverPubKey ++
    ofMessage output.message ++ [output.rangeProof]

/-- A kernel without its signature. -/
def ofKernel (kernel : Mweb.Kernel types) : List Nat :=
  kernel.features.toNat :: ofOption (fun fee => [ofInt fee.toInt]) kernel.fee ++
    ofOption (fun amount => [ofInt amount.toInt]) kernel.pegin ++
    ofList (fun pegout : Mweb.PegOutCoin => ofInt pegout.amount.toInt ::
      ofBytes pegout.scriptPubKey)
      kernel.pegouts ++
    ofOption (fun height => [ofInt height.toInt]) kernel.lockHeight ++
    ofOption ofPoint kernel.stealthExcess ++ ofBytes kernel.extraData ++ ofPoint kernel.excess

def ofHeader (header : Mweb.Header types) : List Nat :=
  [ofInt header.height.toInt, header.outputRoot, header.kernelRoot, header.leafsetRoot,
    ofInt header.kernelOffset, ofInt header.stealthOffset, header.numTXOs, header.numKernels]

def ofTransaction (tx : CTransaction types) : List Nat :=
  ofInt tx.nVersion.toInt ::
    ofList (fun txin : CTxIn types => [txin.prevout.hash, txin.prevout.n.toNat] ++
      ofBytes txin.scriptSig ++ [txin.nSequence.toNat] ++
        ofList ofBytes txin.scriptWitness) tx.vin ++
    ofList (fun txout : CTxOut => ofInt txout.nValue.toInt :: ofBytes txout.scriptPubKey) tx.vout ++
    [tx.nLockTime.toNat]

def ofBlockHeader (header : CBlockHeader types) : List Nat :=
  [ofInt header.nVersion.toInt, header.hashPrevBlock, header.hashMerkleRoot, header.nTime.toNat,
    header.nBits.toNat, header.nNonce.toNat]

/-- The signature that a key accepts on a message. -/
def sign (key : Int × Int) (message : Nat) : Nat := digest 12 (ofPoint key ++ [message])

/-- The range proof that a commitment accepts with a message. -/
def prove (commitment : Int × Int) (message : Mweb.OutputMessage types) : Nat :=
  digest 13 (ofPoint commitment ++ ofMessage message)

/-- The cryptography in which hashes come from a function of a tag and numbers; what is signed
is a digest. -/
def cryptoWith (hash : Nat → List Nat → Nat) : BlockCrypto types where
  generatorG := ((1, 0) : Int × Int)
  generatorH := ((0, 1) : Int × Int)
  hashOutput output := hash 1 (ofOutput output ++ [output.signature])
  hashKernel kernel := hash 2 (ofKernel kernel ++ [kernel.signature])
  hashHeader header := hash 3 (ofHeader header)
  hashOutputLeaf index id := hash 4 [index, id]
  hashKernelLeaf index kernel := hash 5 (index :: ofKernel kernel ++ [kernel.signature])
  hashParent position left right := hash 6 [position, left, right]
  hashLeafset bytes := hash 7 (ofBytes bytes)
  hashKeys first second := Int.ofNat (digest 8 (ofPoint first ++ ofPoint second))
  inputMessage features id extra := digest 9 (features.toNat :: id :: ofOption ofBytes extra)
  outputMessage commitment sender receiver message proof :=
    digest 10 (ofPoint commitment ++ ofPoint sender ++ ofPoint receiver ++
      ofMessage message ++ [proof])
  kernelMessage kernel := digest 11 (ofKernel kernel)
  schnorrVerify signature key message := decide (signature = sign key message)
  rangeProofVerify commitment proof message := decide (proof = prove commitment message)
  hashTransaction tx := hash 14 (ofTransaction tx)
  hashBlockHeader header := hash 15 (ofBlockHeader header)
  hashPair left right := hash 16 [left, right]
  hashWitnessCommitment root reserved := hash 17 (root :: ofBytes reserved)

def crypto : BlockCrypto types := cryptoWith digest

def pegoutKernel (amount : CAmount) (script : CScript) : Mweb.Kernel types where
  features := 4
  fee := none
  pegin := none
  pegouts := [⟨amount, script⟩]
  lockHeight := none
  stealthExcess := none
  extraData := []
  excess := (1, 0)
  signature := (0 : Nat)
  fee_iff := by decide
  pegin_iff := by decide
  pegouts_of := fun _ => by decide
  lockHeight_iff := by decide
  stealthExcess_iff := by decide
  extraData_of := absurd rfl

def pegoutTx (amount : CAmount) (script : CScript) : CTransaction types where
  vin := []
  vout := []
  nVersion := 2
  nLockTime := 0
  mwebTx := some ⟨(0 : Int), (0 : Int), ⟨[], [], [pegoutKernel amount script]⟩⟩
  hogEx := false

theorem digest_lt (tag : Nat) (parts : List Nat) : digest tag parts < 2 ^ 256 := by
  have positive : 0 < 2 ^ 256 := Nat.two_pow_pos 256
  induction parts using reverseRecOn with
  | nil => exact Nat.mod_lt tag positive
  | append_singleton parts part _ =>
    rw [digest, foldl_append, foldl_cons, foldl_nil]
    exact Nat.mod_lt _ positive

theorem crypto_readableHeaderHash : crypto.ReadableHeaderHash := by
  intro header
  refine ⟨length_toBytes 32 _, ?_⟩
  show littleEndian (toBytes 32 (digest 3 (ofHeader header))) = _
  rw [littleEndian_toBytes]
  exact Nat.mod_eq_of_lt (digest_lt _ _)

theorem crypto_largeOrder : crypto.LargeOrder := by
  intro n positive _ zero
  have first : (n : Int) * 1 = 0 := congrArg Prod.fst zero
  omega

end MooncoinFormal.Primitives.Numeric
