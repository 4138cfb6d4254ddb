import MooncoinFormal.Mweb.Flush
import MooncoinFormal.Validation.Instance

/-!
# Extended blocks in the cryptography without collisions

Canonical blocks around a given extension block: a transaction that pegs in to a kernel,
the HogEx that commits to the extension header, and the block that commits to its
transactions. Scripts name the kernel and the header, whose hashes are therefore small.
-/

namespace MooncoinFormal.Primitives.Numeric

open Coins Validation Mweb Mmr LeafSet

/-- Hashes without collisions, small for the header and the kernels that scripts name. -/
def namingCrypto (header : Header types) (kernels : List (Kernel types)) : BlockCrypto types :=
  ideal ((3 :: ofHeader header) :: kernels.map fun kernel =>
    2 :: (ofKernel kernel ++ [kernel.signature]))

/-- The header for the body of a first extension block, after which the given leaves are
unspent. -/
def firstHeader (height : Int32) (body : TxBody types) (unspent : Nat → Bool)
    (stealthOffset : Int) :
    Header types where
  height := height
  outputRoot := rootOf idealMweb.outputMmr (0 : Nat) (body.getOutputIDs idealMweb)
  kernelRoot := (kernelRoot idealMweb body.kernels).getD (0 : Nat)
  leafsetRoot := idealMweb.hashLeafset (rootBytes (packBits unspent) body.outputs.length)
  kernelOffset := (0 : Int)
  stealthOffset := stealthOffset
  numTXOs := body.outputs.length
  numKernels := body.kernels.length

variable (crypto : BlockCrypto types)

/-- A transaction that spends the coin of the view and pegs it in to a kernel. -/
def kernelPegin (amount : CAmount) (kernel : Kernel types) : CTransaction types where
  vin := [⟨⟨(7 : Nat), 0⟩, [], 0xffffffff, []⟩]
  vout := [⟨amount, CScript.peginScript (types.hashBytes (crypto.hashKernel kernel))⟩]
  nVersion := 1
  nLockTime := 0
  mwebTx := none
  hogEx := false

/-- The HogEx with the given inputs that commits to an extension header. -/
def committingHogEx (inputs : List (COutPoint types)) (amount : CAmount) (header : Header types) :
    CTransaction types where
  vin := inputs.map fun outpoint => ⟨outpoint, [], 0xffffffff, []⟩
  vout := [⟨amount, CScript.hogAddrScript (types.hashBytes (crypto.hashHeader header))⟩]
  nVersion := 1
  nLockTime := 0
  mwebTx := none
  hogEx := true

/-- The block after a coinbase with the given script, which commits to its transactions. -/
def extendedBlock (script : CScript) (txs : List (CTransaction types)) (mwebBlock : Block types) :
    CBlock types :=
  let coinbase := { coinbaseTx with
    vin := [⟨⟨(0 : Nat), COutPoint.nullIndex⟩, script, 0xffffffff, []⟩] }
  let root := (blockMerkleRoot crypto ⟨⟨1, (0 : Nat), (0 : Nat), 0, 0, 0⟩, coinbase :: txs, none⟩).1
  ⟨⟨1, (0 : Nat), root, 0, 0, 0⟩, coinbase :: txs, some mwebBlock⟩

def fundedView : CCoinsViewCache types :=
  viewOf [(⟨(7 : Nat), 0⟩, ⟨⟨20, [0x51]⟩, false, 1, false⟩)]
    (List.forall_mem_singleton.mpr ⟨rfl, rfl, by decide⟩)

end MooncoinFormal.Primitives.Numeric
