import MooncoinFormal.Coins.Undo
import MooncoinFormal.Validation.CheckBlock
import MooncoinFormal.Validation.TxVerify

/-!
# Connecting a block

`ConnectBlock` of `validation.cpp`: the block is checked again, its transactions are
checked against the coins and applied to them one after another, the coinbase may
claim fees and subsidy, and the extension block is connected last. Script checks run
in place here; with a queue they fail later under another reason. Where scripts are
not checked below a block that is assumed valid is given from outside.
-/

namespace MooncoinFormal.Validation

open Primitives Coins Library.Checks Except Bool

variable {T : CryptoTypes}

/-- A failed check of a transaction is a consensus failure of the block. -/
def asBlock {α : Type} : Except TxError α → Checked α
  | .ok value => .ok value
  | .error (.invalid reason) => .error ⟨.consensus, reason, ""⟩
  | .error .assertion => .error Mweb.assertionFailed

/-- Whatever the coins code throws is not caught. -/
def uncaught {α : Type} : Except CoinsError α → Checked α
  | .ok value => .ok value
  | .error _ => .error Mweb.assertionFailed

@[simp] theorem asBlock_eq_ok {α : Type} {result : Except TxError α} {value : α} :
    asBlock result = .ok value ↔ result = .ok value := by
  cases result with
  | ok other => simp [asBlock]
  | error error => cases error <;> simp [asBlock]

@[simp] theorem uncaught_eq_ok {α : Type} {result : Except CoinsError α} {value : α} :
    uncaught result = .ok value ↔ result = .ok value := by
  cases result <;> simp [uncaught]

/-- What stays the same while a block is connected. -/
structure Connection (T : CryptoTypes) where
  crypto : BlockCrypto T
  engine : ScriptEngine T
  params : Params T
  chain : Chain T
  /-- Whether scripts are executed. -/
  fScriptChecks : Bool
  /-- Heights are of type `int`. -/
  nHeight_lt : chain.nextHeight < 2 ^ 31

structure Progress (T : CryptoTypes) where
  view : CCoinsViewCache T
  nFees : CAmount
  nSigOpsCost : Nat

namespace Connection

variable (connection : Connection T) (view : CCoinsViewCache T) (block : CBlock T)
  (progress : Progress T) (tx : CTransaction T)

def flags : ScriptFlags := getBlockScriptFlags connection.params connection.chain

def prevHeights : List Nat :=
  tx.vin.map fun txin => ((view.getCoin txin.prevout).getD Coin.cleared).nHeight.toNat

/-- The fees after a transaction, whose inputs are checked unless it is the coinbase. -/
def addFees : Checked CAmount :=
  if tx.isCoinBase then .ok progress.nFees
  else do
    let txfee ← asBlock (checkTxInputs progress.view connection.chain.nextHeight tx)
    ensure (moneyRange (progress.nFees + txfee) = true)
      ⟨.consensus, "bad-txns-accumulated-fee-outofrange", ""⟩
    ensure (sequenceLocks connection.chain
        (decide (connection.params.csvHeight ≤ connection.chain.nextHeight)) tx
        (prevHeights progress.view tx) = true)
      ⟨.consensus, "bad-txns-nonfinal", ""⟩
    .ok (progress.nFees + txfee)

def checkScripts : Checked Unit :=
  ensure (tx.isCoinBase = true ∨ connection.fScriptChecks = false ∨
      connection.engine.checkInputScripts connection.flags tx (spentOutputs view tx) = true)
    ⟨.consensus, "mandatory-script-verify-flag-failed", ""⟩

def sigOpsCost : Nat :=
  progress.nSigOpsCost +
    getTransactionSigOpCost connection.flags tx (spentOutputs progress.view tx)

/-- One turn of the loop over the transactions, with the coins for the undo data. -/
def connectTx : Checked (List Coin × Progress T) := do
  let nFees ← connection.addFees progress tx
  ensure (connection.sigOpsCost progress tx ≤ CBlock.maxBlockSigopsCost)
    ⟨.consensus, "bad-blk-sigops", ""⟩
  connection.checkScripts progress.view tx
  let (vprevout, view) ← uncaught
    (progress.view.updateCoins connection.crypto tx connection.chain.nextHeight)
  .ok (vprevout, ⟨view, nFees, connection.sigOpsCost progress tx⟩)

variable {connection} in
theorem connectTx_eq_ok {progress progress' : Progress T} {tx : CTransaction T}
    {vprevout : List Coin} :
    connection.connectTx progress tx = .ok (vprevout, progress') ↔
      connection.addFees progress tx = .ok progress'.nFees ∧
        connection.sigOpsCost progress tx ≤ CBlock.maxBlockSigopsCost ∧
        connection.checkScripts progress.view tx = .ok () ∧
        progress.view.updateCoins connection.crypto tx connection.chain.nextHeight =
          .ok (vprevout, progress'.view) ∧
        progress'.nSigOpsCost = connection.sigOpsCost progress tx := by
  simp only [connectTx, bind_eq_ok, ensure_eq_ok, uncaught_eq_ok, Prod.exists, ok.injEq,
    Prod.mk.injEq]
  constructor
  · rintro ⟨nFees, fees, ⟨⟩, sigOps, ⟨⟩, scripts, undo, view, updated, rfl, rfl⟩
    exact ⟨fees, sigOps, scripts, updated, rfl⟩
  · rintro ⟨fees, sigOps, scripts, updated, cost⟩
    exact ⟨_, fees, (), sigOps, (), scripts, _, _, updated, rfl, by rw [← cost]⟩

theorem checkMature_of_checkInputs {view : CCoinsViewCache T} {nSpendHeight : Nat}
    {vin : List (CTxIn T)} {start total : CAmount}
    (checked : checkInputs view nSpendHeight vin start = .ok total) :
    ∀ txin ∈ vin, ∃ coin, view.getCoin txin.prevout = some coin ∧
      checkMature nSpendHeight coin = .ok () ∧ moneyRange coin.out.nValue = true := by
  induction vin generalizing start with
  | nil => exact nofun
  | cons txin rest ih =>
    rw [checkInputs] at checked
    cases found : view.getCoin txin.prevout with
    | none => simp [found] at checked
    | some coin =>
      simp only [found, bind_eq_ok] at checked
      obtain ⟨⟨⟩, mature, ⟨⟩, range, checked⟩ := checked
      exact List.forall_mem_cons.mpr ⟨⟨coin, found, mature, (ensure_eq_ok.mp range).1⟩, ih checked⟩

/-- The coins that a transaction spends are on the map, mature and in the money range. -/
theorem mature_of_addFees {connection : Connection T} {progress : Progress T} {tx : CTransaction T}
    {nFees : CAmount} (fees : connection.addFees progress tx = .ok nFees) {outpoint : COutPoint T}
    (member : outpoint ∈ spentOutPoints tx) :
    ∃ coin, progress.view.getCoin outpoint = some coin ∧
      checkMature connection.chain.nextHeight coin = .ok () ∧
        moneyRange coin.out.nValue = true := by
  unfold spentOutPoints at member
  cases coinbase : tx.isCoinBase with
  | true => simp [coinbase] at member
  | false =>
    simp only [coinbase, false_eq_true, if_false] at member
    simp only [addFees, coinbase, false_eq_true, if_false, bind_eq_ok, asBlock_eq_ok,
      checkTxInputs] at fees
    obtain ⟨-, ⟨⟨⟩, -, nValueIn, inputs, -⟩, -⟩ := fees
    obtain ⟨txin, inside, rfl⟩ := List.mem_map.mp member
    exact checkMature_of_checkInputs inputs txin inside

def connectTxs : Progress T → List (CTransaction T) → Checked (List (List Coin) × Progress T)
  | progress, [] => .ok ([], progress)
  | progress, tx :: rest => do
      let (vprevout, progress) ← connection.connectTx progress tx
      let (vtxundo, progress) ← connectTxs progress rest
      .ok (vprevout :: vtxundo, progress)

variable {connection} in
theorem connectTxs_cons {progress after : Progress T} {tx : CTransaction T}
    {rest : List (CTransaction T)} {vtxundo : List (List Coin)} :
    connection.connectTxs progress (tx :: rest) = .ok (vtxundo, after) ↔
      ∃ vprevout middle later, connection.connectTx progress tx = .ok (vprevout, middle) ∧
        connection.connectTxs middle rest = .ok (later, after) ∧ vtxundo = vprevout :: later := by
  simp only [connectTxs, bind_eq_ok, Prod.exists, ok.injEq, Prod.mk.injEq]
  constructor
  · rintro ⟨vprevout, middle, first, later, last, run, rfl, rfl⟩
    exact ⟨vprevout, middle, later, first, run, rfl⟩
  · rintro ⟨vprevout, middle, later, first, run, rfl⟩
    exact ⟨vprevout, middle, first, later, after, run, rfl, rfl⟩

/-! ## The checks around the loop -/

/-- `CheckBlock` once more; a mutated block stops the node. -/
def recheck : Checked Unit :=
  match checkBlock connection.crypto connection.params block with
  | .ok _ => .ok ()
  | .error invalid =>
    if invalid.result = .mutated then
      .error ⟨.resultUnset,
        "Corrupt block found indicating potential hardware failure; shutting down", ""⟩
    else .error invalid

/-- The hash of the block before, null for the first one. -/
def hashPrevBlock : T.Hash :=
  match connection.chain with
  | [] => T.zeroHash
  | prev :: _ => prev.blockHash

/-- Overwriting is only looked for below the height of BIP34, or on another chain. -/
def enforceBIP30 : Bool :=
  match connection.chain.getAncestor connection.params.bip34Height with
  | [] => true
  | index :: _ => decide (index.blockHash ≠ connection.params.bip34Hash)

def checkBIP30 : Checked Unit :=
  ensure (connection.enforceBIP30 = true → ∀ tx ∈ block.vtx, ∀ o, o < tx.vout.length →
      view.haveCoin ⟨tx.getHash connection.crypto, UInt32.ofNat o⟩ = false)
    ⟨.consensus, "bad-txns-BIP30", ""⟩

def checkReward (nFees : CAmount) : Checked Unit :=
  match block.vtx.head?.bind CTransaction.getValueOut with
  | none => .error Mweb.assertionFailed
  | some valueOut =>
    ensure (valueOut ≤ nFees + connection.params.getBlockSubsidy connection.chain.nextHeight
      block.header.hashPrevBlock) ⟨.consensus, "bad-cb-amount", ""⟩

/-- Everything after the special case of the genesis block. -/
def connectFrom : Checked (CBlockUndo T × CCoinsViewCache T) := do
  ensure (connection.chain ≠ []) Mweb.assertionFailed
  connection.checkBIP30 view block
  let (vtxundo, progress) ← connection.connectTxs ⟨view, 0, 0⟩ block.vtx
  connection.checkReward block progress.nFees
  let (mwundo, mwebView) ← Mweb.Node.connectBlock connection.crypto connection.params
    connection.chain block progress.view.base.mwebView progress.view.mwebView
  -- the undo data of the coinbase is not kept
  .ok (⟨vtxundo.drop 1, mwundo⟩, { progress.view with
    hashBlock := block.getHash connection.crypto
    mwebView := mwebView })

/-- `ConnectBlock`: the undo data that is written, none for the genesis block, and
the view after the block. -/
def connectBlock : Checked (Option (CBlockUndo T) × CCoinsViewCache T) := do
  connection.recheck block
  ensure (connection.hashPrevBlock = view.hashBlock) Mweb.assertionFailed
  if block.getHash connection.crypto = connection.params.hashGenesisBlock then
    .ok (none, { view with hashBlock := block.getHash connection.crypto })
  else do
    let (undo, view) ← connection.connectFrom view block
    .ok (some undo, view)

/-! ## What a connected block satisfies -/

section Connected

variable {connection} {view view' : CCoinsViewCache T} {block : CBlock T} {undo : CBlockUndo T}

theorem recheck_eq_ok {done : Unit} :
    connection.recheck block = .ok done ↔
      CheckedBlock connection.crypto connection.params block := by
  rw [← checkBlock_eq_ok, recheck]
  cases checkBlock connection.crypto connection.params block with
  | ok done => simp
  | error invalid =>
    simp only [reduceCtorEq, iff_false]
    split <;> simp

theorem connectBlock_eq_ok :
    connection.connectBlock view block = .ok (some undo, view') ↔
      CheckedBlock connection.crypto connection.params block ∧
        connection.hashPrevBlock = view.hashBlock ∧
        block.getHash connection.crypto ≠ connection.params.hashGenesisBlock ∧
        connection.connectFrom view block = .ok (undo, view') := by
  simp only [connectBlock, bind_eq_ok, recheck_eq_ok, ensure_eq_ok]
  by_cases genesis : block.getHash connection.crypto = connection.params.hashGenesisBlock <;>
    simp [genesis]

/-- A connected block is the genesis block, which changes no coins, or goes through
`connectFrom`. -/
theorem connectBlock_cases {undo : Option (CBlockUndo T)}
    (connected : connection.connectBlock view block = .ok (undo, view')) :
    CheckedBlock connection.crypto connection.params block ∧
      connection.hashPrevBlock = view.hashBlock ∧
      (block.getHash connection.crypto = connection.params.hashGenesisBlock ∧ undo = none ∧
          view' = { view with hashBlock := block.getHash connection.crypto } ∨
        block.getHash connection.crypto ≠ connection.params.hashGenesisBlock ∧
          ∃ done, undo = some done ∧ connection.connectFrom view block = .ok (done, view')) := by
  simp only [connectBlock, bind_eq_ok, recheck_eq_ok, ensure_eq_ok] at connected
  obtain ⟨⟨⟩, checked, ⟨⟩, tip, connected⟩ := connected
  refine ⟨checked, tip, ?_⟩
  split at connected
  · rename_i genesis
    cases connected
    exact .inl ⟨genesis, rfl, rfl⟩
  · rename_i regular
    simp only [bind_eq_ok, Prod.exists, ok.injEq, Prod.mk.injEq] at connected
    obtain ⟨done, after, connected, rfl, rfl⟩ := connected
    exact .inr ⟨regular, done, rfl, connected⟩

/-- The results of the parts of `connectFrom`. -/
structure ConnectedFrom (connection : Connection T) (view : CCoinsViewCache T) (block : CBlock T)
    (vtxundo : List (List Coin)) (progress : Progress T) (mwundo : Option (Mweb.BlockUndo T))
    (mwebView : Mweb.CoinsViewCache T) : Prop where
  chain : connection.chain ≠ []
  bip30 : connection.checkBIP30 view block = .ok ()
  txs : connection.connectTxs ⟨view, 0, 0⟩ block.vtx = .ok (vtxundo, progress)
  reward : connection.checkReward block progress.nFees = .ok ()
  mweb : Mweb.Node.connectBlock connection.crypto connection.params connection.chain block
    progress.view.base.mwebView progress.view.mwebView = .ok (mwundo, mwebView)

theorem connectFrom_eq_ok :
    connection.connectFrom view block = .ok (undo, view') ↔
      ∃ vtxundo progress mwundo mwebView,
        ConnectedFrom connection view block vtxundo progress mwundo mwebView ∧
          undo = ⟨vtxundo.drop 1, mwundo⟩ ∧
          view' = { progress.view with
            hashBlock := block.getHash connection.crypto
            mwebView := mwebView } := by
  simp only [connectFrom, bind_eq_ok, ensure_eq_ok, Prod.exists, ok.injEq, Prod.mk.injEq]
  constructor
  · rintro ⟨⟨⟩, chain, ⟨⟩, bip30, vtxundo, progress, txs, ⟨⟩, reward, mwundo, mwebView,
      mweb, rfl, rfl⟩
    exact ⟨vtxundo, progress, mwundo, mwebView, ⟨chain, bip30, txs, reward, mweb⟩, rfl, rfl⟩
  · rintro ⟨vtxundo, progress, mwundo, mwebView, ⟨chain, bip30, txs, reward, mweb⟩, rfl, rfl⟩
    exact ⟨(), chain, (), bip30, vtxundo, progress, txs, (), reward, mwundo, mwebView,
      mweb, rfl, rfl⟩

end Connected

end Connection

end MooncoinFormal.Validation
