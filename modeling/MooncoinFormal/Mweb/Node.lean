import MooncoinFormal.Mweb.CoinsView
import MooncoinFormal.Validation.Chain

/-!
# The extension block in block validation

`mweb_node.cpp`: what is checked of a block's extension data with the block alone
(`CheckBlock`), with the headers before it (`ContextualCheckBlock`) and with the
coins (`ConnectBlock`). The HogEx is the last transaction: its first output holds
the amount locked in the extension block and commits to the extension header, its
inputs are the peg-ins of the block, and its other outputs are the peg-outs.
-/

namespace MooncoinFormal.Mweb

open Primitives Validation Library.Checks Int32

variable {T : CryptoTypes} (crypto : BlockCrypto T)

/-- An assertion that fails stops the node; no check reports this result. -/
def assertionFailed : Invalid := ⟨.resultUnset, "assertion", ""⟩

variable (block : CBlock T)

def middleTxs : List (CTransaction T) := block.vtx.dropLast.drop 1

def isPegin (txout : CTxOut) : Bool := txout.scriptPubKey.isMwebPegin.isSome

/-- The outpoints of the peg-in outputs, in the order of the block. -/
def peginOutPoints : List (T.Hash × Nat) :=
  (middleTxs block).flatMap fun tx =>
    (tx.vout.zipIdx.filter fun entry => isPegin entry.1).map fun entry =>
      (tx.getHash crypto, entry.2)

def peginOutputs : List CTxOut :=
  (middleTxs block).flatMap fun tx => tx.vout.filter isPegin

def blockPegins : List (PegInCoin T) :=
  (middleTxs block).flatMap fun tx => tx.vout.filterMap fun txout =>
    txout.scriptPubKey.isMwebPegin.map fun kernelId => ⟨txout.nValue, T.hashOfBytes kernelId⟩

variable (hogEx : CTransaction T)

/-- The peg-outs that a HogEx pays: all outputs but the first. -/
def hogexPegouts : List PegOutCoin :=
  (hogEx.vout.drop 1).map fun txout => ⟨txout.nValue, txout.scriptPubKey⟩

variable (params : Params T) (chain : Chain T)

namespace Node

def checkBlock : Checked Unit :=
  ensureAll (fun tx => ensure (tx.hasMwebTx = false)
    ⟨.mutated, "unexpected-mweb-data", "Block contains transactions with MWEB data attached"⟩)
    block.vtx

/-! ## Checks with the headers before -/

/-- The inputs of the HogEx from the given index on are the peg-ins of the block. -/
def matchPegins (vin : List (CTxIn T)) : (nextPeginIdx : Nat) → List (T.Hash × Nat) → Checked Nat
  | nextPeginIdx, [] => .ok nextPeginIdx
  | nextPeginIdx, (hash, nOut) :: rest =>
    match vin[nextPeginIdx]? with
    | none => .error ⟨.consensus, "pegins-missing", "Pegins missing from HogEx"⟩
    | some txin => do
        ensure (txin.prevout.n.toNat = nOut ∧ txin.prevout.hash = hash)
          ⟨.consensus, "pegin-mismatch", "HogEx pegins do not match block's pegins"⟩
        matchPegins vin (nextPeginIdx + 1) rest

/-- The block before was not yet under the rules of the extension block. -/
def isFirstHogEx : Bool := !params.mwebEnabled chain.tail

def validateMwebBlock (mwebBlock : Block T) : Bool :=
  match validateBlock crypto.toCrypto mwebBlock (blockPegins block) (hogexPegouts hogEx) with
  | .ok _ => true
  | .error _ => false

variable (block : CBlock T)

/-- The checks once the HogEx was found. -/
def checkHogEx (hogEx : CTransaction T) (mwebBlock : Block T) : Checked Unit := do
  match hogEx.vout with
  | [] => .error assertionFailed
  | hogAddr :: _ =>
    match hogAddr.scriptPubKey.isMwebHogAddr with
    | none => .error ⟨.consensus, "bad-hogex", "HogEx missing or invalid"⟩
    | some mwebHash =>
      ensure (T.hashOfBytes mwebHash = crypto.hashHeader mwebBlock.header)
        ⟨.mutated, "mweb-hash-mismatch", "MWEB header hash doesn't match hogex hash"⟩
  ensure (mwebBlock.header.height = ofNat chain.nextHeight)
    ⟨.consensus, "mweb-height-mismatch", "Invalid MWEB block height"⟩
  let nextPeginIdx ← matchPegins hogEx.vin (if isFirstHogEx params chain then 0 else 1)
    (peginOutPoints crypto block)
  ensure (nextPeginIdx = hogEx.vin.length)
    ⟨.consensus, "extra-hogex-input", "HogEx contains unexpected input(s)"⟩
  ensure (validateMwebBlock crypto block hogEx mwebBlock = true)
    ⟨.mutated, "bad-blk-mweb", "BlockValidator::ValidateBlock failed"⟩

/-- The checks of a block that must have an extension block, and has one. -/
def checkMwebBlock (mwebBlock : Block T) : Checked Unit := do
  ensureAll (fun tx => ensure (((tx.isCoinBase || tx.isHogEx) && tx.vout.any isPegin) = false)
    ⟨.consensus, "bad-tx-unexpected-pegin", "Pegin found in coinbase or HogEx"⟩) block.vtx
  match block.vtx.getLast? with
  | none => .error assertionFailed
  | some hogEx => do
      ensure (hogEx.isHogEx = true) ⟨.mutated, "hogex-missing", "hogex missing"⟩
      ensureAll (fun tx => ensure (tx.isHogEx = false)
        ⟨.mutated, "bad-hogex-position", "hogex in wrong position"⟩) block.vtx.dropLast
      checkHogEx crypto params chain block hogEx mwebBlock

def contextualCheckBlock : Checked Unit :=
  match params.mwebEnabled chain, block.mwebBlock with
  | false, none => .ok ()
  | false, some _ => .error
      ⟨.mutated, "unexpected-mweb-data", "MWEB not activated, but extension block found"⟩
  | true, none => .error
      ⟨.mutated, "mweb-missing", "MWEB activated but extension block not found"⟩
  | true, some mwebBlock => checkMwebBlock crypto params chain block mwebBlock

/-- The loop that adds the peg-ins to the amount that was locked before. -/
def hogexInputAmount : CAmount → List CTxOut → Checked CAmount
  | amount, [] => .ok amount
  | amount, output :: rest => do
      ensure (moneyRange (amount + output.nValue) = true)
        ⟨.consensus, "accumulated-pegin-outofrange",
          "Accumulated pegin amount for the block is out of range"⟩
      hogexInputAmount (amount + output.nValue) rest

/-- `pindexPrev->mweb_amount`. -/
def prevAmount : Chain T → CAmount
  | [] => 0
  | prev :: _ => prev.mwebAmount

/-- The first input of the HogEx spends the first output of the HogEx before. -/
def checkHogExInput (hogEx : CTransaction T) : Checked Unit :=
  match hogEx.vin, chain with
  | txin :: _, prev :: _ =>
    ensure (txin.prevout.n = 0 ∧ prev.hogexHash = txin.prevout.hash)
      ⟨.consensus, "invalid-hogex-input", "First input of HogEx does not point to previous HogEx"⟩
  | _, _ => .error assertionFailed

/-- The amounts of the HogEx agree with those of the extension block. -/
def checkHogExAmounts (chain : Chain T) (block : CBlock T) (hogEx : CTransaction T)
    (mwebBlock : Block T) : Checked Unit := do
  let inputAmount ← hogexInputAmount (prevAmount chain) (peginOutputs block)
  match hogEx.getValueOut, hogEx.vout with
  | some valueOut, first :: _ => do
      ensure (moneyRange (inputAmount - valueOut) = true ∧
        inputAmount - valueOut = mwebBlock.body.getTotalFee)
        ⟨.mutated, "bad-txns-mweb-fee-mismatch", "HogEx fee does not match MWEB fee."⟩
      ensure (prevAmount chain + mwebBlock.body.getSupplyChange = first.nValue)
        ⟨.mutated, "mweb-amount-mismatch", "HogEx amount does not match expected MWEB amount"⟩
  | _, _ => .error assertionFailed

/-- What a thrown exception of `ApplyBlock` becomes. -/
def connectFailure : MwError → Invalid
  | .assertion => assertionFailed
  | _ => ⟨.mutated, "mweb-connect-failed",
      "MWEB::Node::ConnectBlock(): Failed to connect MWEB block"⟩

/-- The `catch` around `ApplyBlock`. -/
def caught {α : Type} : MwResult α → Checked α
  | .ok value => .ok value
  | .error error => .error (connectFailure error)

@[simp] theorem caught_eq_ok {α : Type} {result : MwResult α} {value : α} :
    caught result = .ok value ↔ result = .ok value := by
  cases result <;> simp [caught]

/-- `ConnectBlock`: the undo data of the extension block, if there is one, and the
coins after it. -/
def connectBlock (base : ICoinsView T) (top : CoinsViewCache T) :
    Checked (Option (BlockUndo T) × CoinsViewCache T) :=
  match block.mwebBlock, block.vtx.getLast? with
  | none, _ => .ok (none, top)
  | some _, none => .error assertionFailed
  | some mwebBlock, some hogEx => do
      if isFirstHogEx params chain then .ok () else checkHogExInput chain hogEx
      checkHogExAmounts chain block hogEx mwebBlock
      let (undo, top) ← caught (top.applyBlock crypto.toCrypto base mwebBlock)
      .ok (some undo, top)

/-! ## What accepted blocks satisfy -/

section Accepted

variable {crypto} {params : Params T} {chain : Chain T} {block : CBlock T} {mwebBlock : Block T}
  {hogEx : CTransaction T}

/-- The extension block and the HogEx fit together, and to the chain. -/
structure ValidHogEx (crypto : BlockCrypto T) (params : Params T) (chain : Chain T)
    (block : CBlock T) (mwebBlock : Block T) (hogEx : CTransaction T) : Prop where
  last : block.vtx.getLast? = some hogEx
  noPegins : ∀ tx ∈ block.vtx, ((tx.isCoinBase || tx.isHogEx) && tx.vout.any isPegin) = false
  flagged : hogEx.isHogEx = true
  unflagged : ∀ tx ∈ block.vtx.dropLast, tx.isHogEx = false
  committed : ∃ hogAddr pegouts mwebHash, hogEx.vout = hogAddr :: pegouts ∧
    hogAddr.scriptPubKey.isMwebHogAddr = some mwebHash ∧
    T.hashOfBytes mwebHash = crypto.hashHeader mwebBlock.header
  height : mwebBlock.header.height = ofNat chain.nextHeight
  pegins : matchPegins hogEx.vin (if isFirstHogEx params chain then 0 else 1)
    (peginOutPoints crypto block) = .ok hogEx.vin.length
  validated : validateBlock crypto.toCrypto mwebBlock (blockPegins block) (hogexPegouts hogEx) =
    .ok ()

theorem validateMwebBlock_iff :
    validateMwebBlock crypto block hogEx mwebBlock = true ↔
      validateBlock crypto.toCrypto mwebBlock (blockPegins block)
        (hogexPegouts hogEx) = .ok () := by
  unfold validateMwebBlock
  split <;> simp [*]

theorem checkHogEx_eq_ok :
    checkHogEx crypto params chain block hogEx mwebBlock = .ok () ↔
      (∃ hogAddr pegouts mwebHash, hogEx.vout = hogAddr :: pegouts ∧
        hogAddr.scriptPubKey.isMwebHogAddr = some mwebHash ∧
        T.hashOfBytes mwebHash = crypto.hashHeader mwebBlock.header) ∧
      mwebBlock.header.height = ofNat chain.nextHeight ∧
      matchPegins hogEx.vin (if isFirstHogEx params chain then 0 else 1)
        (peginOutPoints crypto block) = .ok hogEx.vin.length ∧
      validateBlock crypto.toCrypto mwebBlock (blockPegins block)
        (hogexPegouts hogEx) = .ok () := by
  unfold checkHogEx
  cases outputs : hogEx.vout with
  | nil => simp
  | cons hogAddr pegouts =>
    cases program : hogAddr.scriptPubKey.isMwebHogAddr with
    | none => simp [program]
    | some mwebHash => simp [program, validateMwebBlock_iff]

theorem checkMwebBlock_eq_ok :
    checkMwebBlock crypto params chain block mwebBlock = .ok () ↔
      ∃ hogEx, ValidHogEx crypto params chain block mwebBlock hogEx := by
  unfold checkMwebBlock
  cases last : block.vtx.getLast? with
  | none =>
    simp only [bind_eq_ok, reduceCtorEq, and_false, exists_false, false_iff]
    rintro ⟨hogEx, valid⟩
    have absurd := valid.last
    rw [last] at absurd
    cases absurd
  | some hogEx =>
    simp only [bind_eq_ok, ensureAll_eq_ok, ensure_eq_ok, checkHogEx_eq_ok]
    constructor
    · rintro ⟨⟨⟩, noPegins, ⟨⟩, flagged, ⟨⟩, unflagged, committed, height, pegins, validated⟩
      exact ⟨hogEx, last, noPegins, flagged, unflagged, committed, height, pegins, validated⟩
    · rintro ⟨other, valid⟩
      have same := valid.last
      rw [last] at same
      cases same
      exact ⟨(), valid.noPegins, (), valid.flagged, (), valid.unflagged, valid.committed,
        valid.height, valid.pegins, valid.validated⟩

theorem contextualCheckBlock_eq_ok (attached : block.mwebBlock = some mwebBlock) :
    contextualCheckBlock crypto params chain block = .ok () ↔
      params.mwebEnabled chain = true ∧
        ∃ hogEx, ValidHogEx crypto params chain block mwebBlock hogEx := by
  unfold contextualCheckBlock
  cases enabled : params.mwebEnabled chain with
  | false => simp [attached]
  | true => simp [attached, checkMwebBlock_eq_ok]

theorem exists_validHogEx (enabled : params.mwebEnabled chain = true)
    (checked : contextualCheckBlock crypto params chain block = .ok ()) :
    ∃ mwebBlock hogEx, block.mwebBlock = some mwebBlock ∧
      ValidHogEx crypto params chain block mwebBlock hogEx := by
  cases attached : block.mwebBlock with
  | none => simp [contextualCheckBlock, enabled, attached] at checked
  | some mwebBlock =>
    obtain ⟨-, hogEx, valid⟩ := (contextualCheckBlock_eq_ok attached).mp checked
    exact ⟨mwebBlock, hogEx, rfl, valid⟩

/-- The checks of `ConnectBlock` that do not read the coins. -/
def checkConnect (params : Params T) (chain : Chain T) (block : CBlock T) (hogEx : CTransaction T)
    (mwebBlock : Block T) : Prop :=
  (isFirstHogEx params chain = false → checkHogExInput chain hogEx = .ok ()) ∧
    checkHogExAmounts chain block hogEx mwebBlock = .ok ()

theorem connectBlock_eq_ok (attached : block.mwebBlock = some mwebBlock)
    (last : block.vtx.getLast? = some hogEx) {base : ICoinsView T} {top top' : CoinsViewCache T}
    {undo : Option (BlockUndo T)} :
    connectBlock crypto params chain block base top = .ok (undo, top') ↔
      checkConnect params chain block hogEx mwebBlock ∧
        ∃ mwundo, top.applyBlock crypto.toCrypto base mwebBlock = .ok (mwundo, top') ∧
          undo = some mwundo := by
  unfold connectBlock checkConnect
  rw [attached, last]
  cases isFirstHogEx params chain with
  | false =>
    simp only [Bool.false_eq_true, if_false, bind_eq_ok, caught_eq_ok, Prod.exists, Except.ok.injEq,
      Prod.mk.injEq, true_implies]
    constructor
    · rintro ⟨⟨⟩, input, ⟨⟩, amounts, mwundo, after, applied, rfl, rfl⟩
      exact ⟨⟨input, amounts⟩, mwundo, applied, rfl⟩
    · rintro ⟨⟨input, amounts⟩, mwundo, applied, rfl⟩
      exact ⟨(), input, (), amounts, mwundo, top', applied, rfl, rfl⟩
  | true =>
    simp only [if_true, bind_eq_ok, caught_eq_ok, Prod.exists, Except.ok.injEq, Prod.mk.injEq,
      Bool.true_eq_false, false_implies, true_and]
    constructor
    · rintro ⟨⟨⟩, ⟨⟩, amounts, mwundo, after, applied, rfl, rfl⟩
      exact ⟨amounts, mwundo, applied, rfl⟩
    · rintro ⟨amounts, mwundo, applied, rfl⟩
      exact ⟨(), (), amounts, mwundo, top', applied, rfl, rfl⟩

end Accepted

end Node

/-- The block passes the checks with the headers before it and with the coins. -/
def Accepts (crypto : BlockCrypto T) (params : Params T) (chain : Chain T) (base : ICoinsView T)
    (top : CoinsViewCache T) (block : CBlock T) : Prop :=
  Node.contextualCheckBlock crypto params chain block = .ok () ∧
    ∃ undo top', Node.connectBlock crypto params chain block base top = .ok (undo, top')

end MooncoinFormal.Mweb
