import MooncoinFormal.Coins.Frame
import MooncoinFormal.Primitives.Ideal
import MooncoinFormal.Validation.BlockBinding
import MooncoinFormal.Validation.Restore

/-!
# Coins as a function of the block hash

Two blocks with one hash can differ in witnesses, HogEx flags and the extension
block. Of these only the flags reach the coins: an output of a flagged transaction
other than the first is marked as a peg-out. Where extension blocks are enforced the
flags are forced by the position in the block. Where they are not, a flag is accepted
anywhere, and the marked coin cannot be spent in its own block, so that the mark stays.
-/

namespace MooncoinFormal.Primitives.CTransaction

variable {T : CryptoTypes} {tx tx' : CTransaction T}

theorem vin_ne_nil_of_stripped (same : tx.stripped = tx'.stripped) (canonical : tx.vin ≠ []) :
    tx'.vin ≠ [] := by
  have inputs := tx.map_vin_eq same CTxIn.prevout fun _ => rfl
  intro none
  rw [none, List.map_nil, List.map_eq_nil_iff] at inputs
  exact canonical inputs

theorem getHash_eq_of_stripped (crypto : BlockCrypto T) (same : tx.stripped = tx'.stripped)
    (canonical : tx.vin ≠ []) : tx.getHash crypto = tx'.getHash crypto := by
  rw [getHash_eq crypto canonical, getHash_eq crypto (vin_ne_nil_of_stripped same canonical), same]

end MooncoinFormal.Primitives.CTransaction

namespace MooncoinFormal.Validation

open Primitives Coins Library Library.Checks CCoinsViewCache Connection List CTransaction UInt32

variable {T : CryptoTypes} {tx : CTransaction T} {tx' : CTransaction T}

theorem spentOutPoints_eq (same : tx.stripped = tx'.stripped) :
    spentOutPoints tx = spentOutPoints tx' := by
  rw [spentOutPoints, spentOutPoints, isCoinBase_eq same,
    map_vin_eq same CTxIn.prevout fun _ => rfl]

variable {crypto : BlockCrypto T} {outpoint : COutPoint T}

theorem createdOutPoints_eq (same : tx.stripped = tx'.stripped) (canonical : tx.vin ≠ []) :
    createdOutPoints crypto tx = createdOutPoints crypto tx' := by
  rw [createdOutPoints, createdOutPoints, getHash_eq_of_stripped crypto same canonical,
    vout_eq same]

/-! ## Flags that decide nothing -/

/-- Both transactions mark the same coins as peg-outs: they have the same flag, or nothing to
mark. -/
def SameMarks (tx tx' : CTransaction T) : Prop :=
  tx.isHogEx = tx'.isHogEx ∨ ∀ n txout, 0 < n → tx.vout[n]? = some txout →
    txout.scriptPubKey.isUnspendable = true

/-- The transactions differ in uncommitted data only, and carry no extension block data. -/
structure SameCommitted (tx tx' : CTransaction T) : Prop where
  stripped : tx.stripped = tx'.stripped
  canonical : tx.vin ≠ []
  plain : tx.mwebTx = none
  plain' : tx'.mwebTx = none

theorem SameCommitted.symm (same : SameCommitted tx tx') : SameCommitted tx' tx :=
  ⟨same.stripped.symm, vin_ne_nil_of_stripped same.stripped same.canonical, same.plain', same.plain⟩

variable {view : CCoinsViewCache T}

theorem addOutputs_eq_of_unspendable {txid : T.Hash} {fCoinbase hogEx hogEx' : Bool}
    {nHeight i : Nat}
    {vout : List CTxOut} (unmarked : ∀ n txout, 0 < i + n → vout[n]? = some txout →
      txout.scriptPubKey.isUnspendable = true) :
    addOutputs txid fCoinbase hogEx nHeight view i vout =
      addOutputs txid fCoinbase hogEx' nHeight view i vout := by
  induction vout generalizing view i with
  | nil => rfl
  | cons txout rest ih =>
    have first : view.addCoin ⟨txid, ofNat i⟩
        (newCoin fCoinbase hogEx nHeight i txout) fCoinbase =
        view.addCoin ⟨txid, ofNat i⟩ (newCoin fCoinbase hogEx' nHeight i txout) fCoinbase := by
      cases i with
      | zero => simp [newCoin]
      | succ i =>
        have skip := unmarked 0 txout (by omega) rfl
        simp [addCoin, newCoin, Coin.isSpent, skip]
    rw [addOutputs, addOutputs, first]
    refine congrArg _ (funext fun middle => ih fun n out positive at_ => ?_)
    exact unmarked (n + 1) out (by omega) at_

theorem updateCoins_eq (same : SameCommitted tx tx') (marks : SameMarks tx tx')
    (view : CCoinsViewCache T) (nHeight : Nat) :
    view.updateCoins crypto tx nHeight = view.updateCoins crypto tx' nHeight := by
  have added : ∀ middle : CCoinsViewCache T,
      middle.addCoins crypto tx nHeight = middle.addCoins crypto tx' nHeight := by
    intro middle
    rw [addCoins, addCoins,
      getHash_eq_of_stripped crypto same.stripped same.canonical,
      isCoinBase_eq same.stripped, ← vout_eq same.stripped]
    rcases marks with flag | unmarked
    · rw [flag]
    · refine addOutputs_eq_of_unspendable fun n txout positive at_ => unmarked n txout ?_ at_
      rwa [zero_add] at positive
  simp only [updateCoins, spentOutPoints_eq same.stripped, added,
    addMwebTx, same.plain, same.plain']

section Runs

variable {connection : Connection T} {progress progress' after after' : Progress T}
  {vtx vtx' : List (CTransaction T)} {vtxundo vtxundo' : List (List Coin)}

theorem connectTxs_view_eq (committed : List.Forall₂ SameCommitted vtx vtx')
    (marks : List.Forall₂ SameMarks vtx vtx') (start : progress.view = progress'.view)
    (run : connection.connectTxs progress vtx = .ok (vtxundo, after))
    (run' : connection.connectTxs progress' vtx' = .ok (vtxundo', after')) :
    after.view = after'.view := by
  induction committed generalizing progress progress' vtxundo vtxundo' with
  | nil =>
    cases run
    cases run'
    exact start
  | cons same _ ih =>
    obtain ⟨vprevout, middle, later, first, run, -⟩ := connectTxs_cons.mp run
    obtain ⟨vprevout', middle', later', first', run', -⟩ := connectTxs_cons.mp run'
    cases marks with
    | cons mark marks =>
      refine ih marks ?_ run run'
      obtain ⟨-, -, -, updated, -⟩ := connectTx_eq_ok.mp first
      obtain ⟨-, -, -, updated', -⟩ := connectTx_eq_ok.mp first'
      rw [← start, ← updateCoins_eq same mark, updated] at updated'
      exact (Prod.mk.inj (Except.ok.inj updated')).2

/-! ## Marked coins stay -/

/-- The cache holds a peg-out of the block that is being connected. -/
def Marked (connection : Connection T) (view : CCoinsViewCache T) (outpoint : COutPoint T) : Prop :=
  ∃ entry coin, view.cacheCoins outpoint = some entry ∧ entry.coin = some coin ∧
    coin.fPegout = true ∧ coin.nHeight = BitVec.ofNat 31 connection.chain.nextHeight

theorem Marked.unspent (marked : Marked connection progress.view outpoint) {nFees : CAmount}
    (fees : connection.addFees progress tx = .ok nFees) : outpoint ∉ spentOutPoints tx := by
  obtain ⟨entry, coin, cached, isCoin, pegout, height⟩ := marked
  intro member
  obtain ⟨found, get, mature, -⟩ := mature_of_addFees fees member
  rw [getCoin_of_entry cached, isCoin] at get
  cases get
  simp only [checkMature, bind_eq_ok, ensure_eq_ok] at mature
  obtain ⟨⟨⟩, -, old⟩ := mature
  refine old ⟨pegout, ?_⟩
  rw [height, BitVec.toNat_ofNat, Nat.mod_eq_of_lt connection.nHeight_lt, sub_self]
  decide

/-- No later transaction of the block touches a marked coin. -/
theorem Marked.untouched (marked : Marked connection progress.view outpoint)
    (regular : ∀ tx ∈ vtx, tx.isCoinBase = false) (plain : ∀ tx ∈ vtx, tx.mwebTx = none)
    (run : connection.connectTxs progress vtx = .ok (vtxundo, after)) :
    ∀ tx ∈ vtx, outpoint ∉ spentOutPoints tx ∧
      outpoint ∉ createdOutPoints connection.crypto tx := by
  induction vtx generalizing progress vtxundo with
  | nil => exact nofun
  | cons tx rest ih =>
    obtain ⟨vprevout, middle, later, first, run, -⟩ := connectTxs_cons.mp run
    obtain ⟨fees, -, -, updated, -⟩ := connectTx_eq_ok.mp first
    have unspent := marked.unspent fees
    obtain ⟨entry, coin, cached, isCoin, pegout, height⟩ := marked
    obtain ⟨between, spent, added⟩ :=
      (updateCoins_eq_ok (plain tx mem_cons_self)).mp updated
    rw [regular tx mem_cons_self] at added
    have absent : outpoint ∉ createdOutPoints connection.crypto tx :=
      not_mem_createdFrom_of_entry
        (((untouched_spendInputs spent).entries _ unspent).trans cached)
        (by rw [isCoin]; exact Option.some_ne_none _) added
    have kept := (untouched_updateCoins (plain tx mem_cons_self) updated).entries _
      (not_mem_append unspent absent)
    refine forall_mem_cons.mpr ⟨⟨unspent, absent⟩, ih ⟨entry, coin, kept.trans cached, isCoin,
      pegout, height⟩ ?_ ?_ run⟩
    · exact (forall_mem_cons.mp regular).2
    · exact (forall_mem_cons.mp plain).2

/-- What lies below stays, and an entry that no transaction touches is there at the end. -/
theorem connectTxs_frame (plain : ∀ tx ∈ vtx, tx.mwebTx = none)
    (run : connection.connectTxs progress vtx = .ok (vtxundo, after)) :
    progress.view.SameBelow after.view ∧ ∀ outpoint, (∀ tx ∈ vtx, outpoint ∉ spentOutPoints tx ∧
      outpoint ∉ createdOutPoints connection.crypto tx) →
        after.view.cacheCoins outpoint = progress.view.cacheCoins outpoint := by
  induction vtx generalizing progress vtxundo with
  | nil =>
    cases run
    exact ⟨⟨rfl, rfl, rfl⟩, fun _ _ => rfl⟩
  | cons tx rest ih =>
    obtain ⟨vprevout, middle, later, first, run, -⟩ := connectTxs_cons.mp run
    obtain ⟨-, -, -, updated, -⟩ := connectTx_eq_ok.mp first
    rw [forall_mem_cons] at plain
    have here := untouched_updateCoins plain.1 updated
    obtain ⟨below, kept⟩ := ih plain.2 run
    refine ⟨here.toSameBelow.trans below, fun outpoint untouched => ?_⟩
    rw [forall_mem_cons] at untouched
    rw [kept outpoint untouched.2]
    exact here.entries outpoint (not_mem_append untouched.1.1 untouched.1.2)

/-- The cache after a transaction holds each of its outputs that can be spent. -/
theorem entry_of_connectTx {vprevout : List Coin} (plain : tx.mwebTx = none)
    (few : tx.vout.length ≤ CBlock.maxBlockWeight)
    (connected : connection.connectTx progress tx = .ok (vprevout, after)) {n : Nat}
    {txout : CTxOut} (at_ : tx.vout[n]? = some txout)
    (spendable : txout.scriptPubKey.isUnspendable = false) :
    ∃ entry, after.view.cacheCoins ⟨tx.getHash connection.crypto, ofNat n⟩ = some entry ∧
      entry.coin = some (newCoin tx.isCoinBase tx.isHogEx connection.chain.nextHeight n txout) := by
  obtain ⟨-, -, -, updated, -⟩ := connectTx_eq_ok.mp connected
  obtain ⟨between, -, added⟩ := (updateCoins_eq_ok plain).mp updated
  have fits : 0 + tx.vout.length ≤ 2 ^ 32 := by
    unfold CBlock.maxBlockWeight at few
    omega
  have found := entry_of_addOutputs fits at_ spendable added
  rwa [zero_add] at found

theorem coins_differ_of_head (same : SameCommitted tx tx')
    (committed : List.Forall₂ SameCommitted vtx vtx') (few : tx.vout.length ≤ CBlock.maxBlockWeight)
    (regular : ∀ tx ∈ vtx, tx.isCoinBase = false) (unflagged : tx.isHogEx = false)
    (flagged : tx'.isHogEx = true) {n : Nat} {txout : CTxOut} (positive : 0 < n)
    (at_ : tx.vout[n]? = some txout) (spendable : txout.scriptPubKey.isUnspendable = false)
    (run : connection.connectTxs progress (tx :: vtx) = .ok (vtxundo, after))
    (run' : connection.connectTxs progress' (tx' :: vtx') = .ok (vtxundo', after')) :
    after.view.getCoin ⟨tx.getHash connection.crypto, ofNat n⟩ ≠
      after'.view.getCoin ⟨tx.getHash connection.crypto, ofNat n⟩ := by
  obtain ⟨vprevout, middle, later, first, run, -⟩ := connectTxs_cons.mp run
  obtain ⟨vprevout', middle', later', first', run', -⟩ := connectTxs_cons.mp run'
  obtain ⟨entry, cached, isCoin⟩ := entry_of_connectTx same.plain few first at_ spendable
  have vout := vout_eq same.stripped
  have hash := getHash_eq_of_stripped connection.crypto same.stripped same.canonical
  obtain ⟨entry', cached', isCoin'⟩ :=
    entry_of_connectTx same.plain' (vout ▸ few) first' (vout ▸ at_)
    spendable
  rw [← hash] at cached'
  have marked : Marked connection middle'.view ⟨tx.getHash connection.crypto, ofNat n⟩ :=
    ⟨entry', _, cached', isCoin', by simp [newCoin, flagged, positive], rfl⟩
  have regular' : ∀ tx ∈ vtx', tx.isCoinBase = false :=
    forall_of_forall₂ committed
      (fun _ _ agree plain => (isCoinBase_eq agree.stripped).symm.trans plain) regular
  have plain : ∀ tx ∈ vtx, tx.mwebTx = none :=
    forall_of_forall₂ committed.flip (fun _ _ agree _ => agree.plain) fun _ _ => trivial
  have plain' : ∀ tx ∈ vtx', tx.mwebTx = none :=
    forall_of_forall₂ committed (fun _ _ agree _ => agree.plain') fun _ _ => trivial
  have untouched' := marked.untouched regular' plain' run'
  have untouched : ∀ later ∈ vtx, ⟨tx.getHash connection.crypto, ofNat n⟩ ∉ spentOutPoints later ∧
      ⟨tx.getHash connection.crypto, ofNat n⟩ ∉ createdOutPoints connection.crypto later := by
    refine forall_of_forall₂ committed.flip (fun other later agree kept => ?_) untouched'
    rwa [spentOutPoints_eq agree.stripped, createdOutPoints_eq agree.stripped agree.canonical]
  rw [getCoin_of_entry (((connectTxs_frame plain run).2 _ untouched).trans cached),
    getCoin_of_entry (((connectTxs_frame plain' run').2 _ untouched').trans cached'),
    isCoin, isCoin']
  simp [newCoin, flagged, unflagged, positive]

theorem coins_differ (committed : List.Forall₂ SameCommitted vtx vtx')
    (few : ∀ tx ∈ vtx, tx.vout.length ≤ CBlock.maxBlockWeight)
    (regular : ∀ tx ∈ vtx.tail, tx.isCoinBase = false) (marks : ¬ List.Forall₂ SameMarks vtx vtx')
    (run : connection.connectTxs progress vtx = .ok (vtxundo, after))
    (run' : connection.connectTxs progress' vtx' = .ok (vtxundo', after')) :
    ∃ outpoint, after.view.getCoin outpoint ≠ after'.view.getCoin outpoint := by
  induction committed generalizing progress progress' vtxundo vtxundo' with
  | nil => exact absurd .nil marks
  | cons same rest ih =>
    rw [forall_mem_cons] at few
    rw [forall₂_cons, not_and_or] at marks
    rcases marks with differ | marks
    · simp only [SameMarks, not_or, not_forall, Bool.not_eq_true] at differ
      obtain ⟨flags, n, txout, positive, at_, spendable⟩ := differ
      -- the flag is on one side or on the other
      rename_i tx tx' vtx vtx'
      cases flag : tx.isHogEx with
      | false =>
        have flag' : tx'.isHogEx = true := by
          rw [← Bool.not_eq_false]
          exact fun flag' => flags (flag.trans flag'.symm)
        exact ⟨_, coins_differ_of_head same rest few.1 regular flag flag' positive at_ spendable
          run run'⟩
      | true =>
        have flag' : tx'.isHogEx = false := by
          rw [← Bool.not_eq_true]
          exact fun flag' => flags (flag.trans flag'.symm)
        have vout := vout_eq same.stripped
        have regular' : ∀ tx ∈ vtx', tx.isCoinBase = false :=
          forall_of_forall₂ rest
            (fun _ _ agree plain => (isCoinBase_eq agree.stripped).symm.trans plain)
            regular
        have differ := coins_differ_of_head same.symm (rest.flip.imp fun _ _ agree => agree.symm)
          (vout ▸ few.1) regular' flag' flag positive (vout ▸ at_) spendable run' run
        exact ⟨_, differ.symm⟩
    · obtain ⟨-, middle, later, -, run, -⟩ := connectTxs_cons.mp run
      obtain ⟨vprevout', middle', later', -, run', -⟩ := connectTxs_cons.mp run'
      exact ih few.2 (fun tx member => regular tx (mem_of_mem_tail member)) marks run run'

end Runs

/-! ## Blocks with one hash -/

section Blocks

variable {connection : Connection T} {view after after' : CCoinsViewCache T}
  {block other : CBlock T}
  {undo undo' : Option (CBlockUndo T)}

theorem sameCommitted_of_hash (free : connection.crypto.CollisionFree)
    (checked : CheckedBlock connection.crypto connection.params block)
    (checked' : CheckedBlock connection.crypto connection.params other)
    (count : block.vtx.length = other.vtx.length)
    (same : block.getHash connection.crypto = other.getHash connection.crypto) :
    List.Forall₂ SameCommitted block.vtx other.vtx := by
  have stripped := map_eq_map_iff_forall₂.mp (stripped_eq_of_hash free checked checked' count same)
  refine forall₂_iff_get.mpr ⟨stripped.length_eq, fun i inside inside' => ?_⟩
  exact ⟨(forall₂_iff_get.mp stripped).2 i inside inside',
    checked.vin_ne_nil (get_mem _ _), checked.plain _ (get_mem _ _),
    checked'.plain _ (get_mem _ _)⟩

theorem flags_of_contextualCheckBlock {params : Params T} {chain : Chain T}
    (enabled : params.mwebEnabled chain = true)
    (contextual : contextualCheckBlock crypto params chain block = .ok ()) :
    block.vtx.map isHogEx = replicate (block.vtx.length - 1) false ++ [true] := by
  obtain ⟨mwebBlock, hogEx, -, valid⟩ :=
    Mweb.Node.exists_validHogEx enabled (mweb_of_contextualCheckBlock contextual)
  have split : block.vtx = block.vtx.dropLast ++ [hogEx] :=
    (dropLast_append_getLast? hogEx valid.last).symm
  have others : block.vtx.dropLast.map isHogEx = replicate (block.vtx.length - 1) false := by
    refine eq_replicate_iff.mpr ⟨by simp, fun flag member => ?_⟩
    obtain ⟨tx, inside, rfl⟩ := mem_map.mp member
    exact valid.unflagged tx inside
  rw [← others]
  conv_lhs => rw [split]
  rw [map_append, map_singleton, valid.flagged]

/-- The coins after two blocks with one hash and equally many transactions are the same in every
field exactly when the blocks mark the same coins as peg-outs. Enforced extension blocks make sure
of that; before them nothing does. -/
theorem coins_eq_iff_sameMarks (free : connection.crypto.CollisionFree)
    (same : block.getHash connection.crypto = other.getHash connection.crypto)
    (count : block.vtx.length = other.vtx.length)
    (contextual : contextualCheckBlock connection.crypto connection.params connection.chain
      block = .ok ())
    (contextual' : contextualCheckBlock connection.crypto connection.params connection.chain
      other = .ok ())
    (connected : connection.connectBlock view block = .ok (undo, after))
    (connected' : connection.connectBlock view other = .ok (undo', after')) :
    (∀ outpoint, after.getCoin outpoint = after'.getCoin outpoint) ↔
      block.getHash connection.crypto = connection.params.hashGenesisBlock ∨
        connection.params.mwebEnabled connection.chain = true ∨
        List.Forall₂ SameMarks block.vtx other.vtx := by
  obtain ⟨checked, -, result⟩ := connectBlock_cases connected
  obtain ⟨checked', -, result'⟩ := connectBlock_cases connected'
  have committed := sameCommitted_of_hash free checked checked' count same
  rcases result with ⟨genesis, -, rfl⟩ | ⟨regular, done, -, from_⟩
  · rcases result' with ⟨-, -, rfl⟩ | ⟨regular, -⟩
    · refine iff_of_true (fun outpoint => ?_) (.inl genesis)
      exact getCoin_congr rfl rfl
    · exact absurd (same.symm.trans genesis) regular
  · rcases result' with ⟨genesis, -⟩ | ⟨-, done', -, from_'⟩
    · exact absurd (same.trans genesis) regular
    obtain ⟨vtxundo, progress, mwundo, mwebView, parts, -, rfl⟩ := connectFrom_eq_ok.mp from_
    obtain ⟨vtxundo', progress', mwundo', mwebView', parts', -, rfl⟩ :=
      connectFrom_eq_ok.mp from_'
    constructor
    · intro equal
      by_contra marks
      rw [not_or, not_or] at marks
      obtain ⟨coinbase, rest, vtx, -, others⟩ := checked.coinbase
      obtain ⟨outpoint, differ⟩ := coins_differ committed
        (fun tx member => (lengths_of_checkTransaction _ _ (checked.txs tx member)).2)
        (by rw [vtx]; exact others) marks.2.2 parts.txs parts'.txs
      refine differ ?_
      exact (getCoin_with _ _ _ _).symm.trans
        ((equal outpoint).trans (getCoin_with _ _ _ _))
    · intro marks
      have marks : List.Forall₂ SameMarks block.vtx other.vtx := by
        rcases marks with genesis | enabled | marks
        · exact absurd genesis regular
        · have flags := (flags_of_contextualCheckBlock enabled contextual).trans
            (committed.length_eq ▸ (flags_of_contextualCheckBlock enabled contextual').symm)
          exact (map_eq_map_iff_forall₂.mp flags).imp fun _ _ flag => .inl flag
        · exact marks
      have views := connectTxs_view_eq committed marks rfl parts.txs parts'.txs
      intro outpoint
      exact (getCoin_with _ _ _ _).trans
        ((congrArg (getCoin · outpoint) views).trans (getCoin_with _ _ _ _).symm)

end Blocks

end MooncoinFormal.Validation

namespace MooncoinFormal.Primitives.Numeric

open Validation Library.Checks

/-- The next block after the genesis block, before extension blocks and with hashes that do not
collide. -/
def idealConnection : Connection types :=
  { connectionAt 1 (by decide) plainParams with crypto := ideal [] }

/-- One transaction beside the coinbase, which spends the coin of the view, with or without the
flag. -/
def flaggedBlock (vout : List CTxOut) (hogEx : Bool) : CBlock types :=
  let vtx := [coinbaseTx, { spendingTx with vout := vout, hogEx := hogEx }]
  let root := (blockMerkleRoot (ideal []) ⟨⟨1, (0 : Nat), (0 : Nat), 0, 0, 0⟩, vtx, none⟩).1
  ⟨⟨1, (0 : Nat), root, 0, 0, 0⟩, vtx, none⟩

/-- With a single output the flag marks nothing. -/
theorem coins_eq_singleOutput : ∃ undo after undo' after',
    idealConnection.connectBlock (paidView false) (flaggedBlock [⟨10, [0x51]⟩] false) =
        .ok (undo, after) ∧
      idealConnection.connectBlock (paidView false) (flaggedBlock [⟨10, [0x51]⟩] true) =
        .ok (undo', after') ∧ ∀ outpoint, after.getCoin outpoint = after'.getCoin outpoint := by
  have succeeds : ∀ hogEx, (contextualCheckBlock idealConnection.crypto idealConnection.params
        idealConnection.chain (flaggedBlock [⟨10, [0x51]⟩] hogEx)).isOk = true ∧
      (idealConnection.connectBlock (paidView false)
        (flaggedBlock [⟨10, [0x51]⟩] hogEx)).isOk = true := by
    decide +kernel
  obtain ⟨⟨⟩, contextual⟩ := exists_of_isOk (succeeds false).1
  obtain ⟨⟨⟩, contextual'⟩ := exists_of_isOk (succeeds true).1
  obtain ⟨⟨undo, after⟩, connected⟩ := exists_of_isOk (succeeds false).2
  obtain ⟨⟨undo', after'⟩, connected'⟩ := exists_of_isOk (succeeds true).2
  refine ⟨undo, after, undo', after', connected, connected', ?_⟩
  refine (coins_eq_iff_sameMarks (ideal_collisionFree [])
    (by decide +kernel) rfl contextual contextual' connected connected').mpr (.inr (.inr ?_))
  refine .cons (.inl rfl) (.cons (.inr fun n txout positive at_ => ?_) .nil)
  rw [show ([⟨10, [0x51]⟩] : List CTxOut)[n]? = none from by simp; omega] at at_
  cases at_

/-- A flagged block and its copy without the flag. -/
def twoOutputs (hogEx : Bool) : CBlock types := flaggedBlock [⟨4, [0x51]⟩, ⟨6, [0x51]⟩] hogEx

/-- With a second output the flag makes it a peg-out. -/
theorem flag_marks_secondOutput : ∃ undo after undo' after' outpoint,
    (twoOutputs false).getHash idealConnection.crypto =
      (twoOutputs true).getHash idealConnection.crypto ∧
      contextualCheckBlock idealConnection.crypto idealConnection.params idealConnection.chain
        (twoOutputs false) = .ok () ∧
      contextualCheckBlock idealConnection.crypto idealConnection.params idealConnection.chain
        (twoOutputs true) = .ok () ∧
      idealConnection.connectBlock (paidView false) (twoOutputs false) = .ok (undo, after) ∧
      idealConnection.connectBlock (paidView false) (twoOutputs true) = .ok (undo', after') ∧
      after.getCoin outpoint = some ⟨⟨6, [0x51]⟩, false, 1, false⟩ ∧
      after'.getCoin outpoint = some ⟨⟨6, [0x51]⟩, false, 1, true⟩ := by
  let txid := ((twoOutputs false).vtx.map (CTransaction.getHash (ideal []))).getLastD (0 : Nat)
  have succeeds : ∀ hogEx, (contextualCheckBlock idealConnection.crypto idealConnection.params
        idealConnection.chain (twoOutputs hogEx)).isOk = true ∧
      (match idealConnection.connectBlock (paidView false) (twoOutputs hogEx) with
        | .ok (_, after) => decide (after.getCoin ⟨txid, 1⟩ = some ⟨⟨6, [0x51]⟩, false, 1, hogEx⟩)
        | .error _ => false) = true := by
    decide +kernel
  have connects : ∀ hogEx, ∃ undo after,
      idealConnection.connectBlock (paidView false) (twoOutputs hogEx) = .ok (undo, after) ∧
        after.getCoin ⟨txid, 1⟩ = some ⟨⟨6, [0x51]⟩, false, 1, hogEx⟩ := by
    intro hogEx
    have result := (succeeds hogEx).2
    split at result
    · rename_i undo after connected
      exact ⟨undo, after, connected, of_decide_eq_true result⟩
    · cases result
  obtain ⟨⟨⟩, contextual⟩ := exists_of_isOk (succeeds false).1
  obtain ⟨⟨⟩, contextual'⟩ := exists_of_isOk (succeeds true).1
  obtain ⟨undo, after, connected, coin⟩ := connects false
  obtain ⟨undo', after', connected', coin'⟩ := connects true
  exact ⟨undo, after, undo', after', ⟨txid, 1⟩, by decide +kernel, contextual,
    contextual', connected, connected', coin, coin'⟩

end MooncoinFormal.Primitives.Numeric
