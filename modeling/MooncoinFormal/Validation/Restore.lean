import MooncoinFormal.Coins.UndoBytes
import MooncoinFormal.Validation.DisconnectBlock
import MooncoinFormal.Validation.Instance

/-!
# Undo data and the coins

What is on the map after a block was connected, its undo data was written and read,
and the block was disconnected: the coins from before, except that those which the
block spent went through the undo format. A spent peg-out comes back without its
flag, and an amount comes back as its compact code is read.
-/

namespace MooncoinFormal.Validation

open Primitives Coins Connection Library.Checks List Coin Compressor CCoinsViewCache Except

variable {T : CryptoTypes}

/-- The second map is the first one, but coins at some outpoints went through the
undo format. -/
def Recodes (later : COutPoint T → Prop) (first second : CCoinsViewCache T) : Prop :=
  ∀ outpoint, (¬ later outpoint → second.getCoin outpoint = first.getCoin outpoint) ∧
    (later outpoint → second.getCoin outpoint = (first.getCoin outpoint).map recoded)

theorem Recodes.congr {later later' : COutPoint T → Prop} {first second : CCoinsViewCache T}
    (recodes : Recodes later first second) (same : ∀ outpoint, later outpoint ↔ later' outpoint) :
    Recodes later' first second := fun outpoint =>
  ⟨fun absent => (recodes outpoint).1 fun isLater => absent ((same outpoint).mp isLater),
    fun isLater => (recodes outpoint).2 ((same outpoint).mpr isLater)⟩

/-! ## One transaction -/

section Step

variable {crypto : BlockCrypto T} {nHeight : Nat} {tx : CTransaction T}
  {before connected undoing : CCoinsViewCache T} {later : COutPoint T → Prop}

/-- The coin that a transaction spends at an outpoint. -/
def spentCoin (before : CCoinsViewCache T) (outpoint : COutPoint T) : Coin :=
  (before.getCoin outpoint).getD cleared

theorem disconnectTx_spec (coherent : before.Coherent) (undoable : undoing.Coherent)
    (regular : tx.isCoinBase = false)
    (known : ∀ outpoint ∈ spentOutPoints tx, ∃ coin, before.getCoin outpoint = some coin)
    (updates : CCoinsViewCache.Updates crypto tx nHeight before connected)
    (recodes : Recodes later connected undoing) :
    Undoes (disconnectTx crypto nHeight undoing tx
        (some (((spentOutPoints tx).map (spentCoin before)).map recoded)))
      (∀ outpoint ∈ spentOutPoints tx, (spentCoin before outpoint).recoded.isSpent = false)
      fun after => undoing.Follows after ∧
          Recodes (fun outpoint => later outpoint ∨ outpoint ∈ spentOutPoints tx) before after := by
  have inputs : tx.vin.map CTxIn.prevout = spentOutPoints tx := by simp [spentOutPoints, regular]
  have length : (((spentOutPoints tx).map (spentCoin before)).map recoded).length =
      tx.vin.length := by
    rw [length_map, length_map, ← inputs, length_map]
  obtain ⟨follows, removed⟩ :=
    removeOutputs_spec undoable (tx.getHash crypto) tx.isCoinBase nHeight 0 tx.vout
  have valid : ∀ outpoint ∈ spentOutPoints tx, (spentCoin before outpoint).Valid := by
    intro outpoint member
    obtain ⟨coin, found⟩ := known outpoint member
    rw [spentCoin, found]
    exact coherent.valid_getCoin found
  obtain ⟨succeeds, spec⟩ := restoreInputs_spec follows.coherent (spentOutPoints tx)
    (fun outpoint => (spentCoin before outpoint).recoded)
    fun outpoint member => ⟨(valid outpoint member).height, (valid outpoint member).spendable⟩
  have pairs : (tx.vin.map CTxIn.prevout).zip
      (((spentOutPoints tx).map (spentCoin before)).map recoded) =
        (spentOutPoints tx).map fun outpoint =>
          (outpoint, (spentCoin before outpoint).recoded) := by
    rw [inputs, map_map, map_prod_left_eq_zip]
    rfl
  constructor
  · intro unspent
    obtain ⟨fClean, after, restored⟩ := succeeds unspent
    refine ⟨(removeOutputs (tx.getHash crypto) tx.isCoinBase nHeight undoing 0 tx.vout).1 && fClean,
      after, ?_⟩
    simp only [disconnectTx, length, pairs, restored, ensure, if_true]
    rfl
  · intro fClean after undone
    simp only [disconnectTx, pairs, bind_eq_ok, ensure_eq_ok, Prod.exists, ok.injEq,
      Prod.mk.injEq] at undone
    obtain ⟨⟨⟩, -, restoredClean, view', restored, -, rfl⟩ := undone
    obtain ⟨followsRestored, map⟩ := spec restoredClean view' restored
    refine ⟨follows.trans followsRestored, fun outpoint => ?_⟩
    rw [map]
    by_cases spent : outpoint ∈ spentOutPoints tx
    · obtain ⟨coin, found⟩ := known outpoint spent
      refine ⟨fun absent => absurd (.inr spent) absent, fun _ => ?_⟩
      rw [if_pos spent, spentCoin, found]
      rfl
    · rw [if_neg spent, removed]
      by_cases created : outpoint ∈ createdOutPoints crypto tx
      · have unknown := updates.fresh regular outpoint created spent
        have member : outpoint ∈ createdFrom (tx.getHash crypto) 0 tx.vout := created
        rw [if_pos member, unknown]
        exact ⟨fun _ => rfl, fun _ => rfl⟩
      · have absent : outpoint ∉ createdFrom (tx.getHash crypto) 0 tx.vout := created
        have same := updates.map outpoint created
        rw [if_neg spent] at same
        rw [if_neg absent, ← same]
        exact ⟨fun notLater => (recodes outpoint).1 fun isLater => notLater (.inl isLater),
          fun isLater => (recodes outpoint).2 (isLater.resolve_right spent)⟩

end Step

/-! ## All transactions -/

section Run

variable {connection : Connection T} {progress progress' : Progress T} {txs : List (CTransaction T)}
  {vtxundo : List (List Coin)} {undoing : CCoinsViewCache T} {later : COutPoint T → Prop}

/-- Transactions that follow the coinbase, as checked before they are connected. -/
structure Regular (connection : Connection T) (view : CCoinsViewCache T)
    (txs : List (CTransaction T)) : Prop where
  regular : ∀ tx ∈ txs, tx.isCoinBase = false
  plain : ∀ tx ∈ txs, tx.mwebTx = none
  nodup : ∀ tx ∈ txs, (tx.vin.map CTxIn.prevout).Nodup
  covers : ∀ tx ∈ txs, ∀ outpoint ∈ createdOutPoints connection.crypto tx, view.Covers outpoint

theorem connectTx_applied (coherent : progress.view.Coherent)
    (height : BitVec.ofNat 31 connection.chain.nextHeight ≠ 0) {tx : CTransaction T}
    (regular : Regular connection progress.view (tx :: txs)) {vprevout : List Coin}
    (connected : connection.connectTx progress tx = .ok (vprevout, progress')) :
    vprevout = (spentOutPoints tx).map (spentCoin progress.view) ∧
      (∀ outpoint ∈ spentOutPoints tx, ∃ coin, progress.view.getCoin outpoint = some coin ∧
        moneyRange coin.out.nValue = true) ∧ CCoinsViewCache.Updates connection.crypto tx
          connection.chain.nextHeight progress.view
        progress'.view ∧ Regular connection progress'.view txs := by
  obtain ⟨fees, -, -, updated, -⟩ := connectTx_eq_ok.mp connected
  have notCoinbase := regular.regular tx mem_cons_self
  have nodup : (spentOutPoints tx).Nodup := by
    simpa [spentOutPoints, notCoinbase] using regular.nodup tx mem_cons_self
  obtain ⟨undo, updates⟩ := coherent.updateCoins height (regular.plain tx mem_cons_self) nodup
    (.inr (regular.covers tx mem_cons_self)) updated
  refine ⟨undo, fun _ member => (mature_of_addFees fees member).imp fun _ found =>
    ⟨found.1, found.2.2⟩, updates, ?_⟩
  obtain ⟨regulars, plains, nodups, covers⟩ := regular
  exact ⟨(forall_mem_cons.mp regulars).2, (forall_mem_cons.mp plains).2,
    (forall_mem_cons.mp nodups).2, fun other member outpoint created =>
      updates.follows.covers _ (covers other (mem_cons_of_mem _ member) outpoint created)⟩

/-- A coin that was on the map before the transactions, or that one of them makes. -/
def Origin (connection : Connection T) (view : CCoinsViewCache T) (txs : List (CTransaction T))
    (outpoint : COutPoint T) (coin : Coin) : Prop :=
  view.getCoin outpoint = some coin ∨ ∃ tx ∈ txs,
    CCoinsViewCache.Makes connection.crypto tx connection.chain.nextHeight outpoint coin

def SpentIn (txs : List (CTransaction T)) (outpoint : COutPoint T) : Prop :=
  ∃ tx ∈ txs, outpoint ∈ spentOutPoints tx

theorem spentIn_cons {tx : CTransaction T} {outpoint : COutPoint T} :
    SpentIn (tx :: txs) outpoint ↔ outpoint ∈ spentOutPoints tx ∨ SpentIn txs outpoint := by
  simp [SpentIn]

/-- What the loop over the transactions keeps for the undo data. -/
structure RunsTxs (connection : Connection T) (view : CCoinsViewCache T)
    (txs : List (CTransaction T)) (vtxundo : List (List Coin))
    (view' : CCoinsViewCache T) : Prop where
  follows : view.Follows view'
  length : vtxundo.length = txs.length
  sizes : ∀ vprevout ∈ vtxundo, ∃ tx ∈ txs, vprevout.length = tx.vin.length
  valid : ∀ vprevout ∈ vtxundo, ∀ coin ∈ vprevout, coin.Valid
  origin : ∀ vprevout ∈ vtxundo, ∀ coin ∈ vprevout, ∃ outpoint, SpentIn txs outpoint ∧
    Origin connection view txs outpoint coin
  range : ∀ outpoint coin, SpentIn txs outpoint → view.getCoin outpoint = some coin →
    moneyRange coin.out.nValue = true

theorem connectTxs_spec (coherent : progress.view.Coherent)
    (height : BitVec.ofNat 31 connection.chain.nextHeight ≠ 0)
    (regular : Regular connection progress.view txs)
    (connected : connection.connectTxs progress txs = .ok (vtxundo, progress')) :
    RunsTxs connection progress.view txs vtxundo progress'.view := by
  induction txs generalizing progress vtxundo with
  | nil =>
    cases connected
    exact ⟨CCoinsViewCache.Follows.refl coherent, rfl, nofun, nofun, nofun,
      fun _ _ spent => by simp [SpentIn] at spent⟩
  | cons tx rest ih =>
    obtain ⟨vprevout, middle, undos, first, later, rfl⟩ := connectTxs_cons.mp connected
    obtain ⟨rfl, known, updates, regularRest⟩ := connectTx_applied coherent height regular first
    have run := ih updates.follows.coherent regularRest later
    have found : ∀ coin ∈ (spentOutPoints tx).map (spentCoin progress.view),
        ∃ outpoint ∈ spentOutPoints tx, progress.view.getCoin outpoint = some coin := by
      intro coin member
      obtain ⟨outpoint, spent, rfl⟩ := mem_map.mp member
      obtain ⟨coin, here, -⟩ := known outpoint spent
      exact ⟨outpoint, spent, by rw [spentCoin, here]; rfl⟩
    refine ⟨updates.follows.trans run.follows, by simp [run.length], ?_, ?_, ?_, ?_⟩
    · intro undo member
      rcases mem_cons.mp member with rfl | member
      · have notCoinbase := regular.regular tx mem_cons_self
        exact ⟨tx, mem_cons_self, by simp [spentOutPoints, notCoinbase]⟩
      · obtain ⟨spender, inRest, size⟩ := run.sizes undo member
        exact ⟨spender, mem_cons_of_mem _ inRest, size⟩
    · intro undo member coin inside
      rcases mem_cons.mp member with rfl | member
      · obtain ⟨outpoint, -, here⟩ := found coin inside
        exact coherent.valid_getCoin here
      · exact run.valid undo member coin inside
    · intro undo member coin inside
      rcases mem_cons.mp member with rfl | member
      · obtain ⟨outpoint, spent, here⟩ := found coin inside
        exact ⟨outpoint, ⟨tx, mem_cons_self, spent⟩, .inl here⟩
      · obtain ⟨outpoint, ⟨spender, inRest, spent⟩, origin⟩ := run.origin undo member coin inside
        refine ⟨outpoint, ⟨spender, mem_cons_of_mem _ inRest, spent⟩, ?_⟩
        rcases origin with here | ⟨maker, among, makes⟩
        · exact (updates.origin outpoint coin here).imp_right fun makes =>
            ⟨tx, mem_cons_self, makes⟩
        · exact .inr ⟨maker, mem_cons_of_mem _ among, makes⟩
    · intro outpoint coin spent here
      by_cases spends : outpoint ∈ spentOutPoints tx
      · obtain ⟨_, found, range⟩ := known outpoint spends
        cases here.symm.trans found
        exact range
      · -- what an earlier transaction neither spends nor makes is still there
        have old : outpoint ∉ createdOutPoints connection.crypto tx := by
          intro created
          rw [updates.fresh (regular.regular tx mem_cons_self) outpoint created spends] at here
          cases here
        refine run.range outpoint coin ((spentIn_cons.mp spent).resolve_left spends) ?_
        rw [updates.map outpoint old, if_neg spends, here]

/-- The transactions of a run with the undo data that is read back for them. -/
def withUndo (txs : List (CTransaction T)) (vtxundo : List (List Coin)) :
    List (CTransaction T × Option (List Coin)) :=
  txs.zip ((vtxundo.map (map recoded)).map some)

theorem disconnectTxs_spec (coherent : progress.view.Coherent)
    (height : BitVec.ofNat 31 connection.chain.nextHeight ≠ 0)
    (regular : Regular connection progress.view txs)
    (connected : connection.connectTxs progress txs = .ok (vtxundo, progress'))
    (undoable : undoing.Coherent) (recodes : Recodes later progress'.view undoing) :
    Undoes (disconnectTxs connection.crypto connection.chain.nextHeight undoing
        (withUndo txs vtxundo))
      (∀ vprevout ∈ vtxundo, ∀ coin ∈ vprevout, coin.recoded.isSpent = false)
      fun after => undoing.Follows after ∧
        Recodes (fun outpoint => later outpoint ∨ SpentIn txs outpoint) progress.view after := by
  -- The later transactions are undone first, so the induction hypothesis is about
  -- the map on which this one is then undone.
  induction txs generalizing progress vtxundo with
  | nil =>
    cases connected
    refine ⟨fun _ => ⟨true, undoing, rfl⟩, ?_⟩
    rintro fClean after ⟨⟩
    exact ⟨CCoinsViewCache.Follows.refl undoable, recodes.congr fun outpoint => by simp [SpentIn]⟩
  | cons tx rest ih =>
    obtain ⟨vprevout, middle, undos, first, laterTxs, rfl⟩ := connectTxs_cons.mp connected
    obtain ⟨rfl, known, updates, regularRest⟩ := connectTx_applied coherent height regular first
    refine (ih updates.follows.coherent regularRest laterTxs).bind
      (disconnectTx connection.crypto connection.chain.nextHeight · tx _) forall_mem_cons.mp
      fun half ⟨follows, recodesRest⟩ => ?_
    obtain ⟨succeeds, spec⟩ := disconnectTx_spec coherent follows.coherent
      (regular.regular tx mem_cons_self) (fun outpoint spent => (known outpoint spent).imp
        fun _ found => found.1) updates recodesRest
    refine ⟨fun unspent => succeeds fun outpoint spent => unspent _ (mem_map_of_mem spent),
      fun fClean after done => ?_⟩
    obtain ⟨followsTx, recodesTx⟩ := spec fClean after done
    refine ⟨follows.trans followsTx, recodesTx.congr fun outpoint => ?_⟩
    rw [spentIn_cons, or_assoc, or_comm (a := SpentIn rest outpoint)]

end Run

/-! ## The block -/

variable {after : CCoinsViewCache T} {coinbase : CTransaction T} {first : Progress T}
  {mwundo : Option (Mweb.BlockUndo T)} {rest : List (CTransaction T)}

section Block

variable {connection : Connection T} {view view' : CCoinsViewCache T} {block : CBlock T}
  {undo : CBlockUndo T}

/-- No output of the block is on the map already: the condition that BIP30 checks, and
that BIP34 leaves open only for coinbases of blocks before it. -/
def NoDuplicates (connection : Connection T) (view : CCoinsViewCache T) (block : CBlock T) : Prop :=
  ∀ tx ∈ block.vtx, ∀ outpoint ∈ createdOutPoints connection.crypto tx, view.getCoin outpoint = none

/-- A connected block, split into the coinbase and the transactions after it. -/
structure ConnectedCoins (connection : Connection T) (view : CCoinsViewCache T) (block : CBlock T)
    (undo : CBlockUndo T) (view' : CCoinsViewCache T) (coinbase : CTransaction T)
    (rest : List (CTransaction T)) (first progress : Progress T) : Prop where
  vtx : block.vtx = coinbase :: rest
  isCoinBase : coinbase.isCoinBase = true
  coinbaseTx : ∃ vprevout, connection.connectTx ⟨view, 0, 0⟩ coinbase = .ok (vprevout, first)
  updates : CCoinsViewCache.Updates connection.crypto coinbase connection.chain.nextHeight view
    first.view
  regular : Regular connection first.view rest
  txs : connection.connectTxs first rest = .ok (undo.vtxundo, progress)
  coins : ∀ outpoint, view'.getCoin outpoint = progress.view.getCoin outpoint
  coherent : view'.Coherent
  base : view'.base = view.base
  mweb : Mweb.Node.connectBlock connection.crypto connection.params connection.chain block
    view.base.mwebView view.mwebView = .ok (undo.mwundo, view'.mwebView)

theorem nextHeight_ne_zero (connection : Connection T) (started : connection.chain ≠ []) :
    BitVec.ofNat 31 connection.chain.nextHeight ≠ 0 := by
  have positive : 0 < connection.chain.nextHeight := length_pos_iff.mpr started
  intro zero
  have value := congrArg BitVec.toNat zero
  rw [BitVec.toNat_ofNat, Nat.mod_eq_of_lt connection.nHeight_lt] at value
  exact ne_of_gt positive value

theorem connectBlock_coins (coherent : view.Coherent) (fresh : NoDuplicates connection view block)
    (connected : connection.connectBlock view block = .ok (some undo, view')) :
    ∃ coinbase rest first progress,
      ConnectedCoins connection view block undo view' coinbase rest first progress := by
  obtain ⟨checked, -, -, result⟩ := connectBlock_eq_ok.mp connected
  obtain ⟨vtxundo, progress, mwundo, mwebView, parts, rfl, rfl⟩ := connectFrom_eq_ok.mp result
  obtain ⟨coinbase, rest, vtx, isCoinBase, regular⟩ := checked.coinbase
  have height := nextHeight_ne_zero connection parts.chain
  obtain ⟨vprevout, first, undos, connectedFirst, connectedRest, rfl⟩ :=
    connectTxs_cons.mp (vtx ▸ parts.txs)
  obtain ⟨-, -, -, updated, -⟩ := connectTx_eq_ok.mp connectedFirst
  have inBlock : ∀ tx ∈ rest, tx ∈ block.vtx := fun tx member => vtx ▸ mem_cons_of_mem _ member
  obtain ⟨-, updates⟩ := coherent.updateCoins height
    (checked.plain coinbase (vtx ▸ mem_cons_self)) (by simp [spentOutPoints, isCoinBase])
    (.inl isCoinBase) updated
  have regularRest : Regular connection first.view rest :=
    ⟨regular, fun tx member => checked.plain tx (inBlock tx member),
      fun tx member => nodup_of_checkTransaction _ _ (checked.txs tx (inBlock tx member)),
      fun tx member outpoint created => updates.follows.covers _
        (covers_of_getCoin (fresh tx (inBlock tx member) outpoint created))⟩
  have run := connectTxs_spec updates.follows.coherent height regularRest connectedRest
  have follows := updates.follows.trans run.follows
  have mweb := parts.mweb
  rw [follows.base, follows.mwebView] at mweb
  refine ⟨coinbase, rest, first, progress, vtx, isCoinBase, ⟨_, connectedFirst⟩, updates,
    regularRest, connectedRest,
    fun _ => getCoin_congr rfl rfl, ?_, follows.base, mweb⟩
  exact ⟨follows.coherent.fresh, follows.coherent.clean, follows.coherent.valid⟩

variable {progress : Progress T}

theorem ConnectedCoins.validUndos
    (parts : ConnectedCoins connection view block undo view' coinbase rest first progress)
    (checked : CheckedBlock connection.crypto connection.params block)
    (run : RunsTxs connection first.view rest undo.vtxundo progress.view) :
    ValidUndos undo.vtxundo := by
  have count := checked.count
  rw [parts.vtx, length_cons] at count
  refine ⟨?_, fun vprevout member => ?_, run.valid⟩
  · rw [run.length]
    unfold CBlock.witnessScaleFactor CBlock.maxBlockWeight at count
    unfold Serialize.maxSize
    omega
  · obtain ⟨tx, inRest, size⟩ := run.sizes vprevout member
    have bounded := lengths_of_checkTransaction _ _
      (checked.txs tx (parts.vtx ▸ mem_cons_of_mem _ inRest))
    rw [size]
    exact le_trans bounded.1 (by decide)

theorem ConnectedCoins.disconnectTxs (started : connection.chain ≠ [])
    (fresh : NoDuplicates connection view block)
    (parts : ConnectedCoins connection view block undo view' coinbase rest first progress) :
    Undoes (Validation.disconnectTxs connection.crypto connection.chain.nextHeight view'
        (block.vtx.zip (none :: (undo.vtxundo.map (map recoded)).map some)))
      (∀ vprevout ∈ undo.vtxundo, ∀ coin ∈ vprevout, coin.recoded.isSpent = false)
      fun after => view'.Follows after ∧ Recodes (SpentIn block.vtx) view after := by
  have height := nextHeight_ne_zero connection started
  have nothing : spentOutPoints coinbase = [] := by simp [spentOutPoints, parts.isCoinBase]
  have recodes : Recodes (fun _ => False) progress.view view' := fun outpoint =>
    ⟨fun _ => parts.coins outpoint, nofun⟩
  rw [parts.vtx]
  refine (disconnectTxs_spec parts.updates.follows.coherent height parts.regular parts.txs
    parts.coherent recodes).bind
    (disconnectTx connection.crypto connection.chain.nextHeight · coinbase none)
    (fun unspent => ⟨trivial, unspent⟩)
    fun half ⟨follows, recodesRest⟩ => ⟨fun _ => ⟨_, _, rfl⟩, fun fClean after done => ?_⟩
  obtain ⟨followsRemoved, removed⟩ := removeOutputs_spec follows.coherent
    (coinbase.getHash connection.crypto) coinbase.isCoinBase connection.chain.nextHeight 0
    coinbase.vout
  rw [ok.inj done] at followsRemoved removed
  refine ⟨follows.trans followsRemoved, fun outpoint => ?_⟩
  have spent : SpentIn (coinbase :: rest) outpoint ↔ False ∨ SpentIn rest outpoint := by
    rw [spentIn_cons, nothing]
    simp
  rw [removed, spent]
  by_cases created : outpoint ∈ createdFrom (coinbase.getHash connection.crypto) 0 coinbase.vout
  · have unknown := fresh coinbase (parts.vtx ▸ mem_cons_self) outpoint created
    rw [if_pos created, unknown]
    exact ⟨fun _ => rfl, fun _ => rfl⟩
  · have same := parts.updates.map outpoint created
    rw [nothing, if_neg not_mem_nil] at same
    rw [if_neg created, ← same]
    exact recodesRest outpoint

theorem disconnectMweb_succeeds
    (consistent : Mweb.Consistent connection.crypto.toCrypto (.cache view.base.mwebView
      view.mwebView))
    (connected : Mweb.Node.connectBlock connection.crypto connection.params connection.chain block
      view.base.mwebView view.mwebView = .ok (mwundo, after.mwebView))
    (base : after.base = view.base) :
    ∃ mwebView, disconnectMweb connection.crypto after mwundo =
      .ok { after with mwebView := mwebView } := by
  cases attached : block.mwebBlock with
  | none =>
    simp only [Mweb.Node.connectBlock, attached, ok.injEq, Prod.mk.injEq] at connected
    obtain ⟨rfl, -⟩ := connected
    exact ⟨after.mwebView, rfl⟩
  | some mwebBlock =>
    cases last : block.vtx.getLast? with
    | none => simp [Mweb.Node.connectBlock, attached, last] at connected
    | some hogEx =>
      obtain ⟨-, undo, applied, rfl⟩ :=
        (Mweb.Node.connectBlock_eq_ok attached last).mp connected
      obtain ⟨state, rep⟩ := consistent
      obtain ⟨mwebView, undone, -⟩ := Mweb.undoBlock_succeeds rep applied
      refine ⟨mwebView, ?_⟩
      simp only [disconnectMweb, base, undone]

theorem getCoin_of_disconnectMweb {crypto : BlockCrypto T} {before : CCoinsViewCache T}
    (undone : disconnectMweb crypto before mwundo = .ok after) (outpoint : COutPoint T) :
    after.getCoin outpoint = before.getCoin outpoint := by
  unfold disconnectMweb at undone
  split at undone
  · cases undone
    rfl
  · split at undone
    · cases undone
      exact getCoin_congr rfl rfl
    · cases undone

/-- The file holds the undo data of the block, and whatever comes after it. Reading it
and disconnecting the block gives every outpoint its coin from before. -/
def Restores (connection : Connection T) (format : UndoFormat T) (view : CCoinsViewCache T)
    (block : CBlock T) (undo : CBlockUndo T) (view' : CCoinsViewCache T)
    (rest : List UInt8) : Prop :=
  let written := undoWriteToDisk format connection.hashPrevBlock undo
  ∃ fClean after,
    connection.disconnectBlock view' block
      (undoReadFromDisk format connection.hashPrevBlock written.1 (written.2 ++ rest)) =
        .ok (fClean, after) ∧
      ∀ outpoint, after.getCoin outpoint = view.getCoin outpoint

/-- Every coin of the view that the block spends survives the undo format: it is not a
peg-out, and the compact code of its amount does not wrap around. -/
def CoinsSurvive (view : CCoinsViewCache T) (block : CBlock T) : Prop :=
  ∀ outpoint coin, SpentIn block.vtx outpoint → view.getCoin outpoint = some coin →
    coin.fPegout = false ∧ Compressible coin.out.nValue

/-- The amounts of outputs that the block makes and spends survive as well. -/
def OutputsSurvive (connection : Connection T) (block : CBlock T) : Prop :=
  ∀ tx ∈ block.vtx, ∀ n txout, tx.vout[n]? = some txout →
    SpentIn block.vtx ⟨tx.getHash connection.crypto, UInt32.ofNat n⟩ → Compressible txout.nValue

theorem recoded_eq_self {coin : Coin} (range : moneyRange coin.out.nValue = true) :
    coin.recoded = coin ↔ coin.fPegout = false ∧ Compressible coin.out.nValue := by
  rw [← recodedAmount_eq_iff range]
  obtain ⟨⟨-, -⟩, -, -, -⟩ := coin
  simp only [Coin.recoded, Coin.mk.injEq, CTxOut.mk.injEq, and_true, true_and]
  exact ⟨fun same => ⟨same.2.symm, same.1⟩, fun same => ⟨same.2, same.1.symm⟩⟩

theorem Recodes.restored_iff (recodes : Recodes (SpentIn block.vtx) view after)
    (range : ∀ outpoint coin, SpentIn block.vtx outpoint → view.getCoin outpoint = some coin →
      moneyRange coin.out.nValue = true) :
    (∀ outpoint, after.getCoin outpoint = view.getCoin outpoint) ↔ CoinsSurvive view block := by
  constructor
  · intro restored outpoint coin spent found
    have recoded := (recodes outpoint).2 spent
    rw [restored, found, Option.map_some, Option.some.injEq] at recoded
    exact (recoded_eq_self (range outpoint coin spent found)).mp recoded.symm
  · intro survive outpoint
    by_cases spent : SpentIn block.vtx outpoint
    · rw [(recodes outpoint).2 spent]
      cases found : view.getCoin outpoint with
      | none => rfl
      | some coin =>
        rw [Option.map_some, (recoded_eq_self (range outpoint coin spent found)).mpr
          (survive outpoint coin spent found)]
    · exact (recodes outpoint).1 spent

/-- The coins of the view that a block spends are in the money range. -/
theorem ConnectedCoins.range
    (parts : ConnectedCoins connection view block undo view' coinbase rest first progress)
    (run : RunsTxs connection first.view rest undo.vtxundo progress.view)
    (fresh : NoDuplicates connection view block) {outpoint : COutPoint T} {coin : Coin}
    (spent : SpentIn block.vtx outpoint) (found : view.getCoin outpoint = some coin) :
    moneyRange coin.out.nValue = true := by
  have idle : outpoint ∉ spentOutPoints coinbase := by simp [spentOutPoints, parts.isCoinBase]
  have old : outpoint ∉ createdOutPoints connection.crypto coinbase := by
    intro created
    rw [fresh coinbase (parts.vtx ▸ mem_cons_self) outpoint created] at found
    cases found
  rw [parts.vtx, spentIn_cons] at spent
  refine run.range outpoint coin (spent.resolve_left idle) ?_
  rw [parts.updates.map outpoint old, if_neg idle, found]

/-- The coins in the undo data keep their amounts when those of the view and of the
block do. -/
theorem ConnectedCoins.amounts
    (parts : ConnectedCoins connection view block undo view' coinbase rest first progress)
    (checked : CheckedBlock connection.crypto connection.params block)
    (run : RunsTxs connection first.view rest undo.vtxundo progress.view)
    (fresh : NoDuplicates connection view block) (coins : CoinsSurvive view block)
    (outputs : OutputsSurvive connection block) :
    ∀ vprevout ∈ undo.vtxundo, ∀ coin ∈ vprevout,
      recodedAmount coin.out.nValue = coin.out.nValue := by
  intro vprevout member coin inside
  obtain ⟨outpoint, spent, origin⟩ := run.origin vprevout member coin inside
  have spentInBlock : SpentIn block.vtx outpoint := by
    rw [parts.vtx, spentIn_cons]
    exact .inr spent
  have made : ∀ tx ∈ block.vtx,
      CCoinsViewCache.Makes connection.crypto tx connection.chain.nextHeight outpoint coin →
        recodedAmount coin.out.nValue = coin.out.nValue := by
    rintro tx inBlock ⟨n, txout, output, rfl, rfl⟩
    exact (recodedAmount_eq_iff (range_of_checkTransaction _ _ (checked.txs tx inBlock) txout
      (mem_of_getElem? output))).mpr (outputs tx inBlock n txout output spentInBlock)
  rcases origin with found | ⟨tx, inRest, makes⟩
  · rcases parts.updates.origin outpoint coin found with before | makes
    · exact (recodedAmount_eq_iff (parts.range run fresh spentInBlock before)).mpr
        (coins outpoint coin spentInBlock before).2
    · exact made coinbase (parts.vtx ▸ mem_cons_self) makes
  · exact made tx (parts.vtx ▸ mem_cons_of_mem _ inRest) makes

/-- Connecting a block, writing and reading its undo data and disconnecting it
restores the coins when every spent coin survives the undo format and the word for the
size does not hide the undo data of the extension block, and only when the coins of the
view survive. -/
theorem disconnectBlock_restores (keys : PubKeys) (values : Mweb.ValueFormats T)
    (checksum : T.Hash → List UInt8 → List UInt8)
    (checksum_length : ∀ hashBlock bytes, (checksum hashBlock bytes).length = 32)
    (coherent : view.Coherent) (consistent : Mweb.Consistent connection.crypto.toCrypto
      (.cache view.base.mwebView view.mwebView)) (fresh : NoDuplicates connection view block)
    (connected : connection.connectBlock view block = .ok (some undo, view'))
    (readable : ∀ mwundo, undo.mwundo = some mwundo → mwundo.Readable) (rest : List UInt8) :
    let format := UndoFormat.ofValues keys values checksum checksum_length
    (CoinsSurvive view block → OutputsSurvive connection block →
      (undo.mwundo ≠ none → (writeTxUndos format undo.vtxundo).length < undo.numBytes format) →
        Restores connection format view block undo view' rest) ∧
      (Restores connection format view block undo view' rest → CoinsSurvive view block) := by
  intro format
  obtain ⟨coinbase, others, first, progress, parts⟩ := connectBlock_coins coherent fresh connected
  obtain ⟨checked, -, -, result⟩ := connectBlock_eq_ok.mp connected
  obtain ⟨_, _, _, _, from_, -, -⟩ := connectFrom_eq_ok.mp result
  have height := nextHeight_ne_zero connection from_.chain
  have run := connectTxs_spec parts.updates.follows.coherent height parts.regular parts.txs
  have valid := parts.validUndos checked run
  obtain ⟨succeeds, spec⟩ := parts.disconnectTxs from_.chain fresh
  have range : ∀ outpoint coin, SpentIn block.vtx outpoint → view.getCoin outpoint = some coin →
      moneyRange coin.out.nValue = true := fun _ _ => parts.range run fresh
  constructor
  · intro coins outputs announced
    have amounts := parts.amounts checked run fresh coins outputs
    obtain ⟨fClean, half, undone⟩ := succeeds fun vprevout member coin inside => by
      have kept := (run.valid vprevout member coin inside).unspent
      simpa [isSpent, CTxOut.isNull, recoded, amounts vprevout member coin inside] using kept
    obtain ⟨follows, recodes⟩ := spec fClean half undone
    have connectedMweb := parts.mweb
    rw [← follows.mwebView] at connectedMweb
    obtain ⟨mwebView, undoneMweb⟩ :=
      disconnectMweb_succeeds consistent connectedMweb (follows.base.trans parts.base)
    refine ⟨fClean,
      { half with hashBlock := connection.hashPrevBlock, mwebView := mwebView }, ?_, ?_⟩
    · rw [undoReadFromDisk_undoWriteToDisk valid amounts (fun mwundo present =>
        (Mweb.BlockUndo.format values).reads mwundo
          ((Mweb.BlockUndo.good_format values).mpr (readable mwundo present))) announced rest]
      have length : (undo.vtxundo.map (map recoded)).length + 1 = block.vtx.length := by
        rw [length_map, run.length, parts.vtx, length_cons]
      simp only [Connection.disconnectBlock, length, ensure, if_true]
      rw [undone]
      show (disconnectMweb _ _ _ >>= _) = _
      rw [undoneMweb]
      rfl
    · intro outpoint
      rw [← (recodes.restored_iff range).mpr coins outpoint]
      exact getCoin_congr rfl rfl
  · rintro ⟨fClean, after, disconnected, restored⟩
    cases read : undoReadFromDisk format connection.hashPrevBlock
        (undoWriteToDisk format connection.hashPrevBlock undo).1
        ((undoWriteToDisk format connection.hashPrevBlock undo).2 ++ rest) with
    | none => simp [read, Connection.disconnectBlock] at disconnected
    | some undo' =>
      have same := vtxundo_of_undoReadFromDisk valid rest read
      simp only [read, Connection.disconnectBlock, same, bind_eq_ok, Prod.exists, ok.injEq,
        Prod.mk.injEq] at disconnected
      obtain ⟨_, -, clean, half, undone, final, undoneMweb, -, rfl⟩ := disconnected
      obtain ⟨-, recodes⟩ := spec clean half undone
      refine (recodes.restored_iff range).mp fun outpoint => ?_
      rw [← restored outpoint, ← getCoin_of_disconnectMweb undoneMweb outpoint]
      exact getCoin_congr rfl rfl

end Block

end MooncoinFormal.Validation

namespace MooncoinFormal.Primitives.Numeric

open Coins Validation List

/-! ## A spent peg-out -/

variable (fPegout : Bool)

def paid : Coin := ⟨⟨10, [0x51]⟩, false, 1, fPegout⟩

def paidView : CCoinsViewCache types :=
  viewOf [(⟨(7 : Nat), 0⟩, paid fPegout)] (by
    intro entry listed
    cases mem_singleton.mp listed
    exact ⟨rfl, rfl, by cases fPegout <;> decide⟩)

def spendingTx : CTransaction types where
  vin := [⟨⟨(7 : Nat), 0⟩, [], 0xffffffff, []⟩]
  vout := [⟨10, [0x51]⟩]
  nVersion := 1
  nLockTime := 0
  mwebTx := none
  hogEx := false

def spendingBlock : CBlock types := blockOf [coinbaseTx, spendingTx]

def lateConnection : Connection types := connectionAt 7 (by decide) plainParams

def spendingConnects : Bool :=
  match lateConnection.connectBlock (paidView fPegout) spendingBlock with
  | .ok (some _, _) => true
  | _ => false

theorem spendingBlock_connected : ∃ undo view',
    lateConnection.connectBlock (paidView fPegout) spendingBlock = .ok (some undo, view') := by
  have succeeds : spendingConnects fPegout = true := by cases fPegout <;> decide +kernel
  unfold spendingConnects at succeeds
  split at succeeds
  · rename_i undo view' connected
    exact ⟨undo, view', connected⟩
  · cases succeeds

theorem spendingBlock_restored : ∃ undo view',
    lateConnection.connectBlock (paidView false) spendingBlock = .ok (some undo, view') ∧
      Restores lateConnection undoBytes (paidView false) spendingBlock undo view' [] := by
  obtain ⟨undo, view', connected⟩ := spendingBlock_connected false
  have noMweb : undo.mwundo = none := by
    obtain ⟨-, -, -, result⟩ := Connection.connectBlock_eq_ok.mp connected
    obtain ⟨_, _, mwundo, _, parts, rfl, -⟩ := Connection.connectFrom_eq_ok.mp result
    have mweb := parts.mweb
    simp only [Mweb.Node.connectBlock, spendingBlock, blockOf, Except.ok.injEq,
      Prod.mk.injEq] at mweb
    exact mweb.1.symm
  have fresh : NoDuplicates lateConnection (paidView false) spendingBlock := by
    unfold NoDuplicates
    decide +kernel
  have readable : ∀ mwundo, undo.mwundo = some mwundo → mwundo.Readable := by
    intro mwundo attached
    rw [noMweb] at attached
    cases attached
  refine ⟨undo, view', connected, (disconnectBlock_restores Compressor.doubledKeys valueFormats _
    length_checksum
    viewOf_coherent ⟨_, Mweb.unstarted_represents Numeric.mweb⟩ fresh connected readable []).1 ?_ ?_
    (absurd noMweb)⟩
  · intro outpoint coin _ found
    cases mem_singleton.mp (mem_of_viewOf_getCoin found)
    exact ⟨rfl, by decide +kernel⟩
  · have amounts : ∀ tx ∈ spendingBlock.vtx, ∀ txout ∈ tx.vout,
        Compressor.Compressible txout.nValue := by decide +kernel
    exact fun tx member n txout output _ => amounts tx member txout (mem_of_getElem? output)

/-- Whether the coin comes back without its flag. -/
def losesPegout : Bool :=
  match lateConnection.connectBlock (paidView true) spendingBlock with
  | .ok (some undo, view') =>
    let written := undoWriteToDisk undoBytes lateConnection.hashPrevBlock undo
    match lateConnection.disconnectBlock view' spendingBlock (undoReadFromDisk undoBytes
      lateConnection.hashPrevBlock written.1 (written.2 ++ [])) with
    | .ok (_, after) => decide (after.getCoin ⟨(7 : Nat), 0⟩ = some (paid false))
    | .error _ => false
  | _ => false

theorem spendingBlock_loses_pegout : ∃ undo view',
    lateConnection.connectBlock (paidView true) spendingBlock = .ok (some undo, view') ∧
      ¬ Restores lateConnection undoBytes (paidView true) spendingBlock undo view' [] := by
  obtain ⟨undo, view', connected⟩ := spendingBlock_connected true
  have lost : losesPegout = true := by decide +kernel
  refine ⟨undo, view', connected, ?_⟩
  rintro ⟨fClean, after, disconnected, restored⟩
  simp only [losesPegout, connected, disconnected, decide_eq_true_eq] at lost
  rw [restored] at lost
  revert lost
  decide +kernel

end MooncoinFormal.Primitives.Numeric
