import MooncoinFormal.Coins.Alike
import MooncoinFormal.Validation.CoinBinding

/-!
# Runs over transactions that differ in their flags

A run of `ConnectBlock` over the transactions of one block can be repeated over those
of another with the same hash as long as no transaction spends a coin that an earlier
one has marked: the mark makes the coin immature. Everything else that the loop reads
is committed to by the hash.
-/

namespace MooncoinFormal.Validation

open Primitives Coins Library Library.Checks CTransaction Connection List CCoinsViewCache

variable {T : CryptoTypes} (crypto : BlockCrypto T)

/-- The outpoints of the coins that a transaction marks as peg-outs. -/
def markedOutPoints (tx : CTransaction T) : List (COutPoint T) :=
  markedFrom (tx.getHash crypto) tx.isHogEx 0 tx.vout

/-- No transaction spends a peg-out of an earlier one. -/
def SparesMarks (vtx : List (CTransaction T)) : Prop :=
  vtx.Pairwise fun tx later => ∀ outpoint ∈ markedOutPoints crypto tx,
    outpoint ∉ spentOutPoints later

instance (crypto : BlockCrypto T) (vtx : List (CTransaction T)) :
    Decidable (SparesMarks crypto vtx) :=
  inferInstanceAs (Decidable (vtx.Pairwise _))

section Stripped

variable {tx tx' : CTransaction T}

theorem sequenceLocks_stripped (chain : Chain T) (verifySequence : Bool) (tx : CTransaction T)
    (prevHeights : List Nat) :
    sequenceLocks chain verifySequence tx.stripped prevHeights =
      sequenceLocks chain verifySequence tx prevHeights := by
  have loop : (tx.stripped.vin.zip prevHeights).foldl (sequenceLockStep chain) (-1, -1) =
      (tx.vin.zip prevHeights).foldl (sequenceLockStep chain) (-1, -1) := by
    rw [stripped, zip_map_left, foldl_map]
    rfl
  rw [sequenceLocks, sequenceLocks, calculateSequenceLocks, calculateSequenceLocks, loop]
  rfl

theorem getP2SHSigOpCount_stripped (tx : CTransaction T) (outputs : List CTxOut) :
    getP2SHSigOpCount tx.stripped outputs = getP2SHSigOpCount tx outputs := by
  rw [getP2SHSigOpCount, getP2SHSigOpCount, stripped, zip_map_left, map_map]
  rfl

/-- The transactions differ in the flag only, and in the witnesses where these are not read. -/
structure Agreed (connection : Connection T) (tx tx' : CTransaction T) : Prop
    extends SameCommitted tx tx' where
  witness : connection.flags.witness = true → tx.withoutMweb = tx'.withoutMweb

variable {connection : Connection T} (agreed : Agreed connection tx tx') (outputs : List CTxOut)
include agreed outputs

theorem getTransactionSigOpCost_eq :
    getTransactionSigOpCost connection.flags tx outputs =
      getTransactionSigOpCost connection.flags tx' outputs := by
  have legacy : getLegacySigOpCount tx = getLegacySigOpCount tx' := by
    rw [getLegacySigOpCount_eq agreed.plain, getLegacySigOpCount_eq agreed.plain',
      ← canonicalSigOpCount_stripped tx, agreed.stripped, canonicalSigOpCount_stripped]
  have scripts : getP2SHSigOpCount tx outputs = getP2SHSigOpCount tx' outputs := by
    rw [← getP2SHSigOpCount_stripped tx, agreed.stripped, getP2SHSigOpCount_stripped]
  have witnesses : connection.flags.witness = true →
      countWitnessSigOps tx outputs = countWitnessSigOps tx' outputs := by
    intro flag
    have inputs : tx.withoutMweb.vin = tx'.withoutMweb.vin := by rw [agreed.witness flag]
    change tx.vin = tx'.vin at inputs
    rw [countWitnessSigOps, countWitnessSigOps, inputs]
  rw [getTransactionSigOpCost, getTransactionSigOpCost, legacy, scripts,
    isCoinBase_eq agreed.stripped]
  cases flag : connection.flags.witness with
  | false => rfl
  | true => rw [witnesses flag]

theorem checkInputScripts_eq :
    connection.engine.checkInputScripts connection.flags tx outputs =
      connection.engine.checkInputScripts connection.flags tx' outputs := by
  cases flag : connection.flags.witness with
  | false =>
    rw [← connection.engine.checkInputScripts_stripped _ tx _ flag, agreed.stripped,
      connection.engine.checkInputScripts_stripped _ tx' _ flag]
  | true =>
    rw [← connection.engine.checkInputScripts_withoutMweb _ tx, agreed.witness flag,
      connection.engine.checkInputScripts_withoutMweb]

end Stripped

/-! ## One transaction -/

section Step

variable {connection : Connection T} {marked : Set (COutPoint T)} {view view' : CCoinsViewCache T}
  {tx tx' : CTransaction T} {nSpendHeight : Nat}

theorem checkMature_of_same {expected : Prop} {coin coin' : Coin}
    (same : SameCoin expected coin coin')
    (unexpected : ¬ expected) (mature : checkMature nSpendHeight coin = .ok ()) :
    checkMature nSpendHeight coin' = .ok () := by
  simp only [checkMature, bind_eq_ok, ensure_eq_ok] at mature ⊢
  obtain ⟨⟨⟩, coinbase, pegout⟩ := mature
  refine ⟨(), by rwa [same.fCoinBase, same.nHeight], fun young => pegout ⟨?_, ?_⟩⟩
  · exact (same.fPegout young.1).resolve_right unexpected
  · rw [← same.nHeight]
    exact young.2

theorem checkInputs_of_alike (alike : Alike marked view view') {vin : List (CTxIn T)}
    (unspent : ∀ txin ∈ vin, txin.prevout ∉ marked) {start total : CAmount}
    (checked : checkInputs view nSpendHeight vin start = .ok total) :
    checkInputs view' nSpendHeight vin start = .ok total := by
  induction vin generalizing start with
  | nil => exact checked
  | cons txin rest ih =>
    rw [forall_mem_cons] at unspent
    rw [checkInputs] at checked ⊢
    rcases rel_cases (alike.getCoin txin.prevout) with
      ⟨none, -⟩ | ⟨coin, coin', found, found', same⟩
    · simp [none] at checked
    · simp only [found, found', bind_eq_ok, ensure_eq_ok, same.out] at checked ⊢
      obtain ⟨⟨⟩, mature, ⟨⟩, range, checked⟩ := checked
      exact ⟨(), checkMature_of_same same unspent.1 mature, (), range, ih unspent.2 checked⟩

theorem checkInputs_congr {vin vin' : List (CTxIn T)}
    (prevouts : vin.map CTxIn.prevout = vin'.map CTxIn.prevout) (nSpendHeight : Nat)
    (start : CAmount) :
    checkInputs view nSpendHeight vin start = checkInputs view nSpendHeight vin' start := by
  induction vin generalizing vin' start with
  | nil =>
    rw [map_nil, eq_comm, map_eq_nil_iff] at prevouts
    rw [prevouts]
  | cons txin rest ih =>
    cases vin' with
    | nil => cases prevouts
    | cons txin' rest' =>
      obtain ⟨first, others⟩ := List.cons.inj prevouts
      simp only [checkInputs, first, ih others]

section

variable (alike : Alike marked view view')
include alike

theorem all_haveCoin_of_alike (vin : List (CTxIn T)) :
    (vin.all fun txin => view'.haveCoin txin.prevout) =
      vin.all fun txin => view.haveCoin txin.prevout := by
  simp only [alike.haveCoin]

theorem haveInputs_of_alike (same : SameCommitted tx tx') :
    haveInputs view' tx' = haveInputs view tx := by
  have read : ∀ vin : List (CTxIn T), (vin.all fun txin => view.haveCoin txin.prevout) =
      (vin.map CTxIn.prevout).all view.haveCoin := fun vin => by rw [all_map]; rfl
  rw [haveInputs, haveInputs, same.plain, same.plain', all_haveCoin_of_alike alike, read, read,
    map_vin_eq same.stripped CTxIn.prevout fun _ => rfl]
  rfl

theorem prevHeights_of_alike (same : tx.stripped = tx'.stripped) :
    Connection.prevHeights view' tx' = Connection.prevHeights view tx := by
  rw [Connection.prevHeights, Connection.prevHeights, map_vin_eq same _ fun _ => rfl]
  refine map_congr_left fun txin _ => ?_
  exact alike.getD_getCoin (fun coin => coin.nHeight.toNat)
    (fun _ _ _ same => congrArg BitVec.toNat same.nHeight) txin.prevout

theorem spentOutputs_of_alike (same : tx.stripped = tx'.stripped) :
    spentOutputs view' tx' = spentOutputs view tx := by
  rw [spentOutputs, spentOutputs, map_vin_eq same _ fun _ => rfl]
  refine map_congr_left fun txin _ => ?_
  exact alike.getD_getCoin Coin.out (fun _ _ _ same => same.out) txin.prevout

end

structure AlikeProgress (marked : Set (COutPoint T)) (progress progress' : Progress T) : Prop where
  view : Alike marked progress.view progress'.view
  nFees : progress'.nFees = progress.nFees
  nSigOpsCost : progress'.nSigOpsCost = progress.nSigOpsCost

variable {progress progress' after : Progress T}

theorem addFees_of_alike (alike : AlikeProgress marked progress progress')
    (same : SameCommitted tx tx')
    (unspent : ∀ outpoint ∈ spentOutPoints tx', outpoint ∉ marked) {nFees : CAmount}
    (fees : connection.addFees progress tx = .ok nFees) :
    connection.addFees progress' tx' = .ok nFees := by
  have coinbase := isCoinBase_eq same.stripped
  cases regular : tx.isCoinBase with
  | true =>
    rw [addFees, if_pos regular] at fees
    rw [addFees, if_pos (coinbase ▸ regular), alike.nFees, fees]
  | false =>
    have regular' : tx'.isCoinBase = false := coinbase ▸ regular
    have spared : ∀ txin ∈ tx.vin, txin.prevout ∉ marked := by
      intro txin member
      refine unspent txin.prevout ?_
      rw [← spentOutPoints_eq same.stripped, spentOutPoints, regular]
      exact mem_map_of_mem member
    have prevouts := map_vin_eq same.stripped CTxIn.prevout fun _ => rfl
    have amounts : ∀ nValueIn, checkAmounts tx nValueIn = checkAmounts tx' nValueIn := by
      intro nValueIn
      rw [checkAmounts, checkAmounts, getValueOut, getValueOut, vout_eq same.stripped]
    have locks : ∀ verify heights, sequenceLocks connection.chain verify tx heights =
        sequenceLocks connection.chain verify tx' heights := by
      intro verify heights
      rw [← sequenceLocks_stripped, same.stripped, sequenceLocks_stripped]
    simp only [addFees, regular, regular', Bool.false_eq_true, if_false, bind_eq_ok,
      asBlock_eq_ok, checkTxInputs, ensure_eq_ok, haveInputs_of_alike alike.view same,
        checkMwebInputs,
      same.plain, same.plain', alike.nFees, prevHeights_of_alike alike.view same.stripped,
      amounts, locks] at fees ⊢
    obtain ⟨txfee, ⟨⟨⟩, known, nValueIn, inputs, rest⟩, result⟩ := fees
    refine ⟨txfee, ⟨(), known, nValueIn, ?_, rest⟩, result⟩
    rw [← checkInputs_congr prevouts]
    exact checkInputs_of_alike alike.view spared inputs

theorem updateCoins_of_alike {crypto : BlockCrypto T} (alike : Alike marked view view')
    (same : SameCommitted tx tx') {nHeight : Nat} {vprevout : List Coin} {last : CCoinsViewCache T}
    (updated : view.updateCoins crypto tx nHeight = .ok (vprevout, last)) :
    ∃ vprevout' last', view'.updateCoins crypto tx' nHeight = .ok (vprevout', last') ∧
      Alike (marked ∪ {outpoint | outpoint ∈ markedOutPoints crypto tx'}) last last' := by
  obtain ⟨between, spent, added⟩ := (updateCoins_eq_ok same.plain).mp updated
  obtain ⟨vprevout', between', spent', alike⟩ := alike.spendInputs spent
  have hash := getHash_eq_of_stripped crypto same.stripped same.canonical
  rw [hash, isCoinBase_eq same.stripped, vout_eq same.stripped] at added
  obtain ⟨last', added', alike⟩ := (alike.mono Set.subset_union_left).addOutputs
    (fun outpoint member => Set.mem_union_right marked member) added
  refine ⟨vprevout', last', (updateCoins_eq_ok same.plain').mpr ⟨between', ?_, added'⟩, alike⟩
  rwa [← spentOutPoints_eq same.stripped]

theorem connectTx_of_alike (alike : AlikeProgress marked progress progress')
    (agreed : Agreed connection tx tx')
    (unspent : ∀ outpoint ∈ spentOutPoints tx', outpoint ∉ marked) {vprevout : List Coin}
    (connected : connection.connectTx progress tx = .ok (vprevout, after)) :
    ∃ vprevout' after', connection.connectTx progress' tx' = .ok (vprevout', after') ∧
      AlikeProgress (marked ∪ {outpoint | outpoint ∈ markedOutPoints connection.crypto tx'}) after
        after' := by
  obtain ⟨fees, sigOps, scripts, updated, cost⟩ := connectTx_eq_ok.mp connected
  have outputs := spentOutputs_of_alike alike.view agreed.stripped
  have sameCost : connection.sigOpsCost progress' tx' = connection.sigOpsCost progress tx := by
    rw [sigOpsCost, sigOpsCost, alike.nSigOpsCost, outputs, getTransactionSigOpCost_eq agreed]
  obtain ⟨vprevout', last', updated', views⟩ :=
    updateCoins_of_alike alike.view agreed.toSameCommitted updated
  refine ⟨vprevout', ⟨last', after.nFees, connection.sigOpsCost progress' tx'⟩,
    connectTx_eq_ok.mpr ⟨addFees_of_alike alike agreed.toSameCommitted unspent fees, ?_, ?_,
      updated', rfl⟩, views, rfl, ?_⟩
  · rw [sameCost]
    exact sigOps
  · rw [checkScripts, ensure_eq_ok, outputs, ← checkInputScripts_eq agreed,
      ← isCoinBase_eq agreed.stripped]
    exact ensure_eq_ok.mp scripts
  · rw [cost]
    exact sameCost

end Step

/-! ## All transactions -/

section Run

variable {connection : Connection T} {marked : Set (COutPoint T)} {vtx vtx' : List (CTransaction T)}
  {progress progress' after : Progress T} {vtxundo : List (List Coin)}

/-- A run can be repeated over the other transactions when these spare the marks. -/
theorem connectTxs_of_alike (agreed : List.Forall₂ (Agreed connection) vtx vtx')
    (alike : AlikeProgress marked progress progress')
    (unspent : ∀ tx ∈ vtx', ∀ outpoint ∈ spentOutPoints tx, outpoint ∉ marked)
    (spares : SparesMarks connection.crypto vtx')
    (run : connection.connectTxs progress vtx = .ok (vtxundo, after)) :
    ∃ marked' vtxundo' after', connection.connectTxs progress' vtx' = .ok (vtxundo', after') ∧
      AlikeProgress marked' after after' := by
  induction agreed generalizing marked progress progress' vtxundo with
  | nil =>
    cases run
    exact ⟨marked, [], progress', rfl, alike⟩
  | cons here _ ih =>
    obtain ⟨vprevout, middle, later, first, run, -⟩ := connectTxs_cons.mp run
    rw [forall_mem_cons] at unspent
    obtain ⟨spared, spares⟩ := pairwise_cons.mp spares
    obtain ⟨vprevout', middle', first', alike⟩ := connectTx_of_alike alike here unspent.1 first
    obtain ⟨marked', later', last, run', alike⟩ := ih alike (fun tx member outpoint spends => by
      rintro (old | new)
      · exact unspent.2 tx member outpoint spends old
      · exact spared tx member outpoint new spends) spares run
    exact ⟨marked', _, last, connectTxs_cons.mpr ⟨vprevout', middle', later', first', run', rfl⟩,
      alike⟩

theorem sparesMarks_of_connectTxs (plain : ∀ tx ∈ vtx, tx.mwebTx = none)
    (few : ∀ tx ∈ vtx, tx.vout.length ≤ CBlock.maxBlockWeight)
    (regular : ∀ tx ∈ vtx.tail, tx.isCoinBase = false)
    (run : connection.connectTxs progress vtx = .ok (vtxundo, after)) :
    SparesMarks connection.crypto vtx := by
  induction vtx generalizing progress vtxundo with
  | nil => exact .nil
  | cons tx rest ih =>
    obtain ⟨vprevout, middle, later, first, run, -⟩ := connectTxs_cons.mp run
    rw [forall_mem_cons] at plain few
    refine pairwise_cons.mpr ⟨fun other member outpoint isMarked => ?_,
      ih plain.2 few.2 (fun other member => regular other (mem_of_mem_tail member)) run⟩
    obtain ⟨flag, n, txout, positive, at_, spendable, rfl⟩ := exists_of_mem_markedFrom isMarked
    rw [Nat.zero_add] at positive ⊢
    obtain ⟨entry, cached, isCoin⟩ := entry_of_connectTx plain.1 few.1 first at_ spendable
    have mark : Marked connection middle.view ⟨tx.getHash connection.crypto, UInt32.ofNat n⟩ :=
      ⟨entry, _, cached, isCoin, by simp [newCoin, flag, positive], rfl⟩
    exact (mark.untouched regular plain.2 run other member).1

end Run

end MooncoinFormal.Validation
