import MooncoinFormal.Mweb.Node
import MooncoinFormal.Mweb.Refinement
import MooncoinFormal.Primitives.Numeric

/-!
# The start of the extension block

A database without extension blocks stands for no coins at all. On it the first
block can be applied; in the cryptography that computes there is one that pegs
in, keeps one output and spends the other in the same block.
-/

namespace MooncoinFormal.Mweb

open Primitives LeafSet

variable {T : CryptoTypes}

/-- The database before the first extension block. -/
def CoinsViewDB.empty (T : CryptoTypes) : CoinsViewDB T where
  header := none
  coins _ := none
  leafSet := ⟨[], 0⟩
  outputPMMR := ⟨[], fun _ => none⟩

variable (crypto : Crypto T)

def ViewState.empty : ViewState crypto where
  header := none
  set := CoinSet.empty
  committed _ absent := by cases absent
  unstarted _ := rfl

theorem empty_represents :
    Represents crypto (.db (CoinsViewDB.empty T)) (ViewState.empty crypto) where
  keyed := trivial
  coins _ := rfl
  leaves := by
    refine ⟨rfl, ?_⟩
    intro i data absent
    cases absent
  next := rfl
  bits i := by
    simp [containsIn, hasBit, ICoinsView.getLeafSet, ILeafSet.getByte, fileStore,
      CoinsViewDB.empty, ViewState.empty, CoinSet.empty]
  header := rfl

def CoinsViewCache.unstarted (T : CryptoTypes) : CoinsViewCache T where
  header := none
  leafSet := ⟨0, ∅⟩
  outputPMMR := ⟨0, [], []⟩
  updates := ∅

theorem newCache_empty (T : CryptoTypes) :
    (ICoinsView.db (CoinsViewDB.empty T)).newCache = some (CoinsViewCache.unstarted T) := rfl

theorem unstarted_represents :
    Represents crypto (.cache (.db (CoinsViewDB.empty T)) (CoinsViewCache.unstarted T))
      (ViewState.empty crypto) :=
  newCache_represents (empty_represents crypto) (newCache_empty T)

end MooncoinFormal.Mweb

namespace MooncoinFormal.Primitives.Numeric

open Mweb Mmr LeafSet Library.Checks

/-- The hashes and the verification of the extension block. -/
abbrev mweb : Crypto types := crypto.toCrypto

abbrev emptyView : ICoinsView types := .db (CoinsViewDB.empty types)

abbrev emptyCache : CoinsViewCache types := CoinsViewCache.unstarted types

def plainMessage : OutputMessage types where
  features := 0
  standardFields := none
  extraData := []
  standardFields_iff := by decide
  extraData_of := absurd rfl

/-- An output with its range proof and the sender's signature. -/
def plainOutput (commitment sender receiver : Int × Int) : Output types :=
  let proof := prove commitment plainMessage
  { commitment := commitment
    senderPubKey := sender
    receiverPubKey := receiver
    message := plainMessage
    rangeProof := proof
    signature := sign sender (crypto.outputMessage commitment sender receiver plainMessage proof) }

/-- The input that spends an output, signed by its receiver. -/
def spendOutput (output : Output types) : Input types where
  features := 0
  outputID := crypto.hashOutput output
  commitment := output.commitment
  inputPubKey := none
  outputPubKey := output.receiverPubKey
  extraData := []
  signature := sign output.receiverPubKey (crypto.inputMessage 0 (crypto.hashOutput output) none)
  stealthKey_iff := by decide
  extraData_of := absurd rfl

variable (amount : CAmount)

/-- A kernel that pegs an amount in, signed with its excess. -/
def peginKernel (excess : Int × Int) : Kernel types :=
  let unsigned : Kernel types :=
    { features := 2
      fee := none
      pegin := some amount
      pegouts := []
      lockHeight := none
      stealthExcess := none
      extraData := []
      excess := excess
      signature := (0 : Nat)
      fee_iff := by decide
      pegin_iff := rfl
      pegouts_of := absurd rfl
      lockHeight_iff := by decide
      stealthExcess_iff := by decide
      extraData_of := absurd rfl }
  { unsigned with signature := sign excess (crypto.kernelMessage unsigned) }

def keptOutput : Output types := plainOutput (5, 20) (2, 0) (4, 0)

def passedOutput : Output types := plainOutput (3, 10) (1, 0) (3, 0)

def firstBody : TxBody types where
  inputs := [spendOutput passedOutput]
  outputs := [passedOutput, keptOutput]
  kernels := [peginKernel 20 (5, 0)]

/-- The header of a first block with the given body, after which the given leaves
are unspent. -/
def headerOf (body : TxBody types) (unspent : Nat → Bool) : Header types where
  height := 1
  outputRoot := rootOf crypto.outputMmr (0 : Nat) (body.getOutputIDs mweb)
  kernelRoot := (kernelRoot mweb body.kernels).getD (0 : Nat)
  leafsetRoot := crypto.hashLeafset (rootBytes (packBits unspent) body.outputs.length)
  kernelOffset := (0 : Int)
  stealthOffset := (0 : Int)
  numTXOs := body.outputs.length
  numKernels := body.kernels.length

def firstBlock : Block types := ⟨headerOf firstBody fun i => decide (i = 1), firstBody⟩

theorem firstBlock_applied :
    ∃ undo top, emptyCache.applyBlock mweb emptyView firstBlock = .ok (undo, top) := by
  have succeeds : (emptyCache.applyBlock mweb emptyView firstBlock).isOk = true := by decide +kernel
  obtain ⟨⟨undo, top⟩, applied⟩ := exists_of_isOk succeeds
  exact ⟨undo, top, applied⟩

/-! ## The canonical block around it -/

/-- The extension block is active after the first block of the chain. -/
def params : Validation.Params types where
  hashGenesisBlock := (0 : Nat)
  mainNetwork := false
  legacyCoinbases := []
  bip16Height := 0
  bip34Height := 0
  bip34Hash := (0 : Nat)
  bip65Height := 0
  bip66Height := 0
  csvHeight := 0
  segwitHeight := 0
  mwebEnabled chain := !chain.isEmpty
  taprootActive _ := false
  powValid _ := true
  signetSolution _ _ := true
  getBlockSubsidy _ _ := 0
  bip16_le_segwit := le_rfl

def genesis : Validation.Chain types :=
  [{ header := ⟨1, (0 : Nat), (0 : Nat), 0, 0, 0⟩
     blockHash := (0 : Nat)
     hogexHash := (0 : Nat)
     mwebAmount := 0
     mwebAmount_range := moneyRange_zero }]

def coinbaseTx : CTransaction types where
  vin := [⟨⟨(0 : Nat), COutPoint.nullIndex⟩, [0x51, 0x00], 0xffffffff, []⟩]
  vout := [⟨0, [0x51]⟩]
  nVersion := 1
  nLockTime := 0
  mwebTx := none
  hogEx := false

def peginTx (kernel : Kernel types) : CTransaction types where
  vin := [⟨⟨(7 : Nat), 0⟩, [], 0xffffffff, []⟩]
  vout := [⟨amount, CScript.peginScript (types.hashBytes (crypto.hashKernel kernel))⟩]
  nVersion := 1
  nLockTime := 0
  mwebTx := none
  hogEx := false

/-- The HogEx that spends the peg-in and commits to the extension header. -/
def hogExTx (pegin : CTransaction types) (header : Header types) : CTransaction types where
  vin := [⟨⟨pegin.getHash crypto, 0⟩, [], 0xffffffff, []⟩]
  vout := [⟨amount, CScript.hogAddrScript (types.hashBytes (crypto.hashHeader header))⟩]
  nVersion := 1
  nLockTime := 0
  mwebTx := none
  hogEx := true

/-- A canonical block for an extension block whose first kernel pegs in 20. -/
def canonicalBlock (mwebBlock : Block types) : CBlock types :=
  let pegins := (mwebBlock.body.kernels.take 1).map (peginTx 20)
  { header := ⟨1, (0 : Nat), (0 : Nat), 0, 0, 0⟩
    vtx := coinbaseTx :: pegins ++ pegins.map fun pegin => hogExTx 20 pegin mwebBlock.header
    mwebBlock := some mwebBlock }

theorem accepts_canonicalBlock {mwebBlock : Block types}
    (checked : (Node.contextualCheckBlock crypto params genesis
      (canonicalBlock mwebBlock)).isOk = true)
    (connected : (Node.connectBlock crypto params genesis (canonicalBlock mwebBlock)
      emptyView emptyCache).isOk = true) :
    Accepts crypto params genesis emptyView emptyCache (canonicalBlock mwebBlock) := by
  obtain ⟨⟨⟩, checks⟩ := exists_of_isOk checked
  obtain ⟨⟨undo, top⟩, connects⟩ := exists_of_isOk connected
  exact ⟨checks, undo, top, connects⟩

theorem canonicalBlock_firstBlock_accepted :
    Accepts crypto params genesis emptyView emptyCache (canonicalBlock firstBlock) :=
  accepts_canonicalBlock (by decide +kernel) (by decide +kernel)

end MooncoinFormal.Primitives.Numeric
