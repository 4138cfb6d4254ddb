import Mathlib
import MooncoinFormal.Mweb.BlockBuilder
import MooncoinFormal.Mweb.ExactSums

/-!
# The extension block of a block template

`mweb_miner.cpp` with `BlockAssembler::AddToBlock`: transactions are offered one by one, those with
extension data go through the block builder, and what they peg in and out is collected for the
HogEx, which is added last. The checks of `ContextualCheckBlock` and `ConnectBlock` compute the same
from the finished block. They agree when the transactions are sound, the block before is recorded in
the index as it was stored, and the exact amounts stay within the money limit.
-/

namespace MooncoinFormal.Mweb

open Primitives Validation Library.Checks Transaction List Node TxBody PegInCoin Int64

variable {T : CryptoTypes} (crypto : BlockCrypto T)

/-! ## What a transaction pegs in -/

variable (tx : CTransaction T)

/-- The outpoints of the peg-in outputs of a transaction. -/
def txOutPoints : List (T.Hash × Nat) :=
  (tx.vout.zipIdx.filter fun entry => isPegin entry.1).map fun entry => (tx.getHash crypto, entry.2)

/-! ## The miner -/

/-- `MWEB::Miner`, without the figures for the template. -/
structure Miner (T : CryptoTypes) where
  mwebBuilder : BlockBuilder T
  hogexInputs : List (CTxIn T)
  hogexOutputs : List CTxOut
  mwebAmountChange : CAmount

variable {outputs : List CTxOut}

namespace Miner

/-- `NewBlock`. -/
def newBlock (nHeight : Nat) (coinsTip : ICoinsView T) : Option (Miner T) := do
  let builder ← BlockBuilder.create nHeight coinsTip
  some ⟨builder, [], [], 0⟩

/-- The loop of `ValidatePegIns` over the set of peg-ins. -/
def erasePegIns : List (PegInCoin T) → List CTxOut → Option (List (PegInCoin T))
  | peginSet, [] => some peginSet
  | peginSet, txout :: rest =>
    match txout.scriptPubKey.isMwebPegin with
    | none => erasePegIns peginSet rest
    | some kernelId =>
      let pegin : PegInCoin T := ⟨txout.nValue, T.hashOfBytes kernelId⟩
      if pegin ∈ peginSet then erasePegIns (peginSet.erase pegin) rest else none

def validatePegIns (pegins : List (PegInCoin T)) : Bool :=
  decide (erasePegIns pegins.dedup tx.vout = some [])

/-- The loop over the outputs, with the inputs of the HogEx and the amount so far. -/
def collectPegins (hash : T.Hash) : List (CTxOut × Nat) → List (CTxIn T) → CAmount →
    MwResult (Option (List (CTxIn T) × CAmount))
  | [], vin, peginAmount => .ok (some (vin, peginAmount))
  | (txout, nOut) :: rest, vin, peginAmount =>
    if isPegin txout = true then do
      ensure (moneyRange txout.nValue = true) .assertion
      if moneyRange (peginAmount + txout.nValue) = false then .ok none
      else
        collectPegins hash rest (vin ++ [⟨⟨hash, UInt32.ofNat nOut⟩, [], 0xffffffff, []⟩])
          (peginAmount + txout.nValue)
    else collectPegins hash rest vin peginAmount

/-- The loop over the peg-outs, with the outputs of the HogEx and the amount so far. -/
def collectPegouts : List PegOutCoin → List CTxOut → CAmount →
    MwResult (Option (List CTxOut × CAmount))
  | [], vout, pegoutAmount => .ok (some (vout, pegoutAmount))
  | pegout :: rest, vout, pegoutAmount => do
      ensure (moneyRange pegout.amount = true) .assertion
      if moneyRange (pegoutAmount + pegout.amount) = false then .ok none
      else
        collectPegouts rest (vout ++ [⟨pegout.amount, pegout.scriptPubKey⟩])
          (pegoutAmount + pegout.amount)

variable (miner : Miner T)

/-- The transaction goes to the builder, and what was collected to the HogEx. -/
def stage (mwebTx : Transaction T) (vin : List (CTxIn T)) (peginAmount : CAmount)
    (vout : List CTxOut) (pegoutAmount : CAmount) : MwResult (Option (Miner T)) := do
  let txFee := mwebTx.body.getTotalFee
  if moneyRange txFee = false then .ok none
  else
    let added ← miner.mwebBuilder.addTransaction crypto.toCrypto mwebTx
      (mwebTx.body.getPegIns crypto.toCrypto)
    .ok (added.map fun builder => {
      mwebBuilder := builder
      hogexInputs := miner.hogexInputs ++ vin
      hogexOutputs := miner.hogexOutputs ++ vout
      mwebAmountChange := miner.mwebAmountChange + (peginAmount - (pegoutAmount + txFee)) })

/-- `AddMWEBTransaction`: the miner with the transaction, or nothing when it is refused. -/
def addMwebTransaction (tx : CTransaction T) (mwebTx : Transaction T) :
    MwResult (Option (Miner T)) :=
  if validatePegIns tx (mwebTx.body.getPegIns crypto.toCrypto) = false then .ok none
  else do
    match ← collectPegins (tx.getHash crypto) tx.vout.zipIdx [] 0 with
    | none => .ok none
    | some (vin, peginAmount) =>
      match ← collectPegouts mwebTx.body.getPegOuts [] 0 with
      | none => .ok none
      | some (vout, pegoutAmount) =>
        miner.stage crypto mwebTx vin peginAmount vout pegoutAmount

/-- `AddToBlock`, on the miner and the transactions of the block after the coinbase. -/
def addToBlock (template : Miner T × List (CTransaction T)) (tx : CTransaction T) :
    MwResult (Miner T × List (CTransaction T)) :=
  match tx.mwebTx with
  | none => .ok (template.1, template.2 ++ [tx])
  | some mwebTx => do
      match ← template.1.addMwebTransaction crypto tx mwebTx with
      | none => .ok template
      | some miner =>
        if tx.isMwebOnly = true then .ok (miner, template.2)
        else .ok (miner, template.2 ++ [{ tx with mwebTx := none }])

/-- The transactions that are offered, each added or refused. -/
def addAllToBlock : Miner T × List (CTransaction T) → List (CTransaction T) →
    MwResult (Miner T × List (CTransaction T))
  | template, [] => .ok template
  | template, tx :: rest => do
      let template ← addToBlock crypto template tx
      addAllToBlock template rest

/-- The input that spends the HogEx of the block before, with its amount. -/
def previousHogEx (prevBlock : CBlock T) : MwResult (List (CTxIn T) × CAmount) :=
  match prevBlock.getHogEx with
  | none => .ok ([], 0)
  | some hogEx =>
    match hogEx.vout with
    | [] => .error .assertion
    | hogAddr :: _ => .ok ([⟨⟨hogEx.getHash crypto, 0⟩, [], 0xffffffff, []⟩], hogAddr.nValue)

/-- `AddHogExTransaction`: the HogEx and the extension block. The versions are those of a new
`CMutableTransaction`. -/
def addHogExTransaction (prevBlock : CBlock T) : MwResult (CTransaction T × Block T) := do
  let (prevHogExIn, previousAmount) ← previousHogEx crypto prevBlock
  let mwebBlock ← miner.mwebBuilder.buildBlock crypto.toCrypto
  let hogAddr : CTxOut := {
    nValue := previousAmount + miner.mwebAmountChange
    scriptPubKey := CScript.hogAddrScript (T.hashBytes (crypto.hashHeader mwebBlock.header)) }
  ensure (moneyRange hogAddr.nValue = true) .assertion
  .ok ({
    vin := prevHogExIn ++ miner.hogexInputs
    vout := hogAddr :: miner.hogexOutputs
    nVersion := 2
    nLockTime := 0
    mwebTx := none
    hogEx := true }, mwebBlock)

/-- The block of a template: coinbase, transactions and HogEx. -/
def assembled (header : CBlockHeader T) (coinbase : CTransaction T) (vtx : List (CTransaction T))
    (hogEx : CTransaction T) (mwebBlock : Block T) : CBlock T where
  header := header
  vtx := coinbase :: vtx ++ [hogEx]
  mwebBlock := some mwebBlock

/-! ## What one transaction adds -/

section Collected

variable {crypto}

/-- The outpoint an input spends. -/
def outPointOf (txin : CTxIn T) : T.Hash × Nat := (txin.prevout.hash, txin.prevout.n.toNat)

theorem collectPegins_spec {hash : T.Hash} {outputs : List (CTxOut × Nat)} {vin : List (CTxIn T)}
    {peginAmount : CAmount}
    (range : ∀ entry ∈ outputs, isPegin entry.1 = true → moneyRange entry.1.nValue = true)
    (small : ∀ entry ∈ outputs, entry.2 < 2 ^ 32) :
    ∃ result, collectPegins hash outputs vin peginAmount = .ok result ∧
      ∀ vin' total, result = some (vin', total) →
        vin'.map outPointOf = vin.map outPointOf ++
          (outputs.filter fun entry => isPegin entry.1).map (fun entry => (hash, entry.2)) ∧
        total = peginAmount +
          accumulate ((outputs.filter fun entry => isPegin entry.1).map fun entry =>
            entry.1.nValue) := by
  induction outputs generalizing vin peginAmount with
  | nil =>
    refine ⟨_, rfl, ?_⟩
    rintro vin' total same
    cases same
    simp [accumulate]
  | cons entry rest ih =>
    obtain ⟨txout, nOut⟩ := entry
    have laterRange := (forall_mem_cons.mp range).2
    have laterSmall := (forall_mem_cons.mp small).2
    rw [collectPegins]
    by_cases pegin : isPegin txout = true
    · rw [if_pos pegin, ensure_of (range _ mem_cons_self pegin)]
      by_cases outside : moneyRange (peginAmount + txout.nValue) = false
      · exact ⟨none, if_pos outside, fun _ _ absurd => by cases absurd⟩
      · obtain ⟨result, ran, collected⟩ := ih laterRange laterSmall
        refine ⟨result, (if_neg outside).trans ran, fun vin' total same => ?_⟩
        obtain ⟨keys, sum⟩ := collected vin' total same
        have index : (UInt32.ofNat nOut).toNat = nOut :=
          UInt32.toNat_ofNat_of_lt (small _ mem_cons_self)
        rw [filter_cons_of_pos (by exact pegin), map_cons, map_cons, keys, sum,
          accumulate_cons, Int64.add_assoc]
        simp [outPointOf, index]
    · obtain ⟨result, ran, collected⟩ := ih laterRange laterSmall
      refine ⟨result, (if_neg pegin).trans ran, fun vin' total same => ?_⟩
      rw [filter_cons_of_neg (by exact pegin)]
      exact collected vin' total same

theorem collectPegouts_spec {pegouts : List PegOutCoin} {vout : List CTxOut}
    {pegoutAmount : CAmount} (range : ∀ pegout ∈ pegouts, moneyRange pegout.amount = true) :
    ∃ result, collectPegouts pegouts vout pegoutAmount = .ok result ∧
      ∀ vout' total, result = some (vout', total) →
        vout' = vout ++ pegouts.map (fun pegout => ⟨pegout.amount, pegout.scriptPubKey⟩) ∧
        total = pegoutAmount + accumulate (pegouts.map PegOutCoin.amount) := by
  induction pegouts generalizing vout pegoutAmount with
  | nil =>
    refine ⟨_, rfl, ?_⟩
    rintro vout' total same
    cases same
    simp [accumulate]
  | cons pegout rest ih =>
    rw [collectPegouts, ensure_of (range _ mem_cons_self)]
    by_cases outside : moneyRange (pegoutAmount + pegout.amount) = false
    · exact ⟨none, if_pos outside, fun _ _ absurd => by cases absurd⟩
    · obtain ⟨result, ran, collected⟩ := ih (forall_mem_cons.mp range).2
      refine ⟨result, (if_neg outside).trans ran, fun vout' total same => ?_⟩
      obtain ⟨outputs, sum⟩ := collected vout' total same
      rw [map_cons, map_cons, outputs, sum, accumulate_cons, Int64.add_assoc]
      simp

theorem erasePegIns_perm {peginSet left : List (PegInCoin T)} {vout : List CTxOut}
    (erased : erasePegIns peginSet vout = some left) :
    peginSet.Perm (outputPegins vout ++ left) := by
  induction vout generalizing peginSet with
  | nil =>
    cases erased
    exact List.Perm.refl _
  | cons txout rest ih =>
    rw [erasePegIns] at erased
    cases pegin : txout.scriptPubKey.isMwebPegin with
    | none =>
      rw [pegin] at erased
      have same : (outputPegins (txout :: rest) : List (PegInCoin T)) = outputPegins rest := by
        simp [outputPegins, pegin]
      rw [same]
      exact ih erased
    | some kernelId =>
      simp only [pegin] at erased
      split at erased
      · rename_i member
        have first : (outputPegins (txout :: rest) : List (PegInCoin T)) =
            ⟨txout.nValue, T.hashOfBytes kernelId⟩ :: outputPegins rest := by
          simp [outputPegins, pegin]
        rw [first]
        exact (perm_cons_erase member).trans (List.Perm.cons _ (ih erased))
      · cases erased

variable {mwebTx : Transaction T} {tx : CTransaction T}

theorem outputPegins_perm (valid : validatePegIns tx (mwebTx.body.getPegIns crypto.toCrypto) = true)
    (nodup : (mwebTx.body.getPegIns crypto.toCrypto).Nodup) :
    (outputPegins tx.vout).Perm (mwebTx.body.getPegIns crypto.toCrypto) := by
  have erased := erasePegIns_perm (of_decide_eq_true valid)
  rw [append_nil, List.Nodup.dedup nodup] at erased
  exact erased.symm

theorem peginValues_zipIdx (vout : List CTxOut) (start : Nat) :
    ((vout.zipIdx start).filter fun entry => isPegin entry.1).map (fun entry => entry.1.nValue) =
      (vout.filter isPegin).map CTxOut.nValue := by
  have filtered := filter_map (f := Prod.fst) (p := isPegin) (l := vout.zipIdx start)
  rw [zipIdx_map_fst] at filtered
  rw [filtered, map_map]
  rfl

theorem supplyChange_eq (crypto : Crypto T) (body : TxBody T) :
    accumulate ((body.getPegIns crypto).map amount) -
        (accumulate (body.getPegOuts.map PegOutCoin.amount) + body.getTotalFee) =
      body.getSupplyChange := by
  rw [getSupplyChange_eq_flow, flow, peginTotal_eq_getPegIns crypto,
    pegoutTotal_eq, feeTotal_eq, getTotalFee, accumulate_eq, accumulate_eq,
    accumulate_eq, ← ofInt_add, ← ofInt_sub]
  congr 1
  omega

variable (crypto) in
/-- What a transaction adds to the miner that accepts it. -/
structure Adds (state : ViewState crypto.toCrypto) (miner : Miner T) (tx : CTransaction T)
    (mwebTx : Transaction T) (miner' : Miner T) : Prop where
  stages : BlockBuilder.Stages crypto.toCrypto state miner.mwebBuilder mwebTx
    (mwebTx.body.getPegIns crypto.toCrypto) miner'.mwebBuilder
  inputs : miner'.hogexInputs.map outPointOf =
    miner.hogexInputs.map outPointOf ++ txOutPoints crypto tx
  outputs : miner'.hogexOutputs = miner.hogexOutputs ++
    mwebTx.body.getPegOuts.map fun pegout => ⟨pegout.amount, pegout.scriptPubKey⟩
  pegins : (outputPegins tx.vout).Perm (mwebTx.body.getPegIns crypto.toCrypto)
  change : miner'.mwebAmountChange = miner.mwebAmountChange + mwebTx.body.getSupplyChange
  fee : moneyRange mwebTx.body.getTotalFee = true

variable (crypto) in
/-- What the miner does not ask of a transaction that is offered, or only asserts. -/
structure SoundTx (miner : Miner T) (tx : CTransaction T) : Prop where
  unflagged : tx.isHogEx = false
  coinbase : (tx.isCoinBase && tx.vout.any isPegin) = false
  plain : tx.mwebTx = none → ∀ txout ∈ tx.vout, isPegin txout = false
  numOutputs : tx.vout.length ≤ 2 ^ 32
  pegins : ∀ txout ∈ tx.vout, isPegin txout = true → moneyRange txout.nValue = true
  staged : ∀ mwebTx, tx.mwebTx = some mwebTx → miner.mwebBuilder.Sound crypto.toCrypto mwebTx
  pegouts : ∀ mwebTx, tx.mwebTx = some mwebTx → ∀ pegout ∈ mwebTx.body.getPegOuts,
    moneyRange pegout.amount = true ∧ pegout.scriptPubKey.isMwebPegin = none

theorem addMwebTransaction_spec {state : ViewState crypto.toCrypto} {miner : Miner T}
    (attached : tx.mwebTx = some mwebTx)
    (view : Represents crypto.toCrypto miner.mwebBuilder.coinsView state)
    (sound : miner.SoundTx crypto tx) :
    ∃ added, miner.addMwebTransaction crypto tx mwebTx = .ok added ∧
      ∀ miner', added = some miner' → Adds crypto state miner tx mwebTx miner' := by
  have refused : ∀ miner', (none : Option (Miner T)) = some miner' →
      Adds crypto state miner tx mwebTx miner' := by
    intro miner' absurd
    cases absurd
  unfold addMwebTransaction
  by_cases mismatch : validatePegIns tx (mwebTx.body.getPegIns crypto.toCrypto) = false
  · exact ⟨none, if_pos mismatch, refused⟩
  rw [if_neg mismatch]
  have members : ∀ entry ∈ tx.vout.zipIdx, entry.1 ∈ tx.vout ∧ entry.2 < 2 ^ 32 := by
    intro entry member
    obtain ⟨-, inside, value⟩ := mem_zipIdx member
    refine ⟨?_, by have := sound.numOutputs; omega⟩
    rw [value]
    exact getElem_mem _
  obtain ⟨collectedIn, ranIn, pegins⟩ :=
    @collectPegins_spec T (tx.getHash crypto) tx.vout.zipIdx [] 0
    (fun entry member pegin => sound.pegins entry.1 (members entry member).1 pegin)
    fun entry member => (members entry member).2
  obtain ⟨collectedOut, ranOut, pegouts⟩ := @collectPegouts_spec mwebTx.body.getPegOuts [] 0
    fun pegout member => (sound.pegouts mwebTx attached pegout member).1
  rw [ranIn]
  cases collectedIn with
  | none => exact ⟨none, rfl, refused⟩
  | some collected =>
    obtain ⟨vin, peginAmount⟩ := collected
    obtain ⟨keys, peginSum⟩ := pegins vin peginAmount rfl
    simp only [ranOut]
    cases collectedOut with
    | none => exact ⟨none, rfl, refused⟩
    | some collected =>
      obtain ⟨vout, pegoutAmount⟩ := collected
      obtain ⟨outputs, pegoutSum⟩ := pegouts vout pegoutAmount rfl
      by_cases fee : moneyRange mwebTx.body.getTotalFee = false
      · refine ⟨none, ?_, refused⟩
        simp only [stage, fee, if_true, bind, Except.bind]
      obtain ⟨added, ran, stages⟩ :=
        @BlockBuilder.addTransaction_spec _ _ _ _ _ (mwebTx.body.getPegIns crypto.toCrypto) view
          (nodup_of_validate (sound.staged mwebTx attached).valid).2.1
      refine ⟨_, by simp only [stage, fee, ran, bind, Except.bind]; rfl, fun miner' same => ?_⟩
      obtain ⟨builder, accepted, rfl⟩ := Option.map_eq_some_iff.mp same
      have staged := stages builder accepted
      have distinct : (mwebTx.body.getPegIns crypto.toCrypto).Nodup := by
        have ids := staged.pegins
        simp only [BlockBuilder.peginsMatch, Bool.and_eq_true, decide_eq_true_eq] at ids
        exact List.Nodup.of_map _ ids.1.1.2
      have same_pegins := outputPegins_perm (Bool.eq_true_of_not_eq_false mismatch) distinct
      refine ⟨staged, ?_, ?_, same_pegins, ?_, Bool.eq_true_of_not_eq_false fee⟩
      · rw [map_append, keys]
        rfl
      · rw [outputs]
        rfl
      · have pegin_sum : peginAmount =
            accumulate ((mwebTx.body.getPegIns crypto.toCrypto).map amount) := by
          rw [peginSum, peginValues_zipIdx, ← outputPegins_amounts (T := T), Int64.zero_add]
          exact accumulate_perm (same_pegins.map _)
        rw [← supplyChange_eq crypto.toCrypto, pegin_sum, pegoutSum, Int64.zero_add]

end Collected

/-! ## What a template holds -/

section Template

variable {crypto} {state : ViewState crypto.toCrypto} {template : Miner T × List (CTransaction T)}
  {tx : CTransaction T} {mwebTx : Transaction T}

variable (crypto) in
/-- What was collected is what the transactions of the block and the staged ones say. -/
structure Agrees (state : ViewState crypto.toCrypto)
    (template : Miner T × List (CTransaction T)) : Prop where
  well : BlockBuilder.WellStaged crypto.toCrypto state template.1.mwebBuilder
  inputs : template.1.hogexInputs.map outPointOf = template.2.flatMap (txOutPoints crypto)
  pegins : (template.2.flatMap fun tx => outputPegins tx.vout).Perm
    ((join template.1.mwebBuilder.stagedTxs).body.getPegIns crypto.toCrypto)
  pegouts : template.1.hogexOutputs =
    (join template.1.mwebBuilder.stagedTxs).body.getPegOuts.map
      fun pegout => ⟨pegout.amount, pegout.scriptPubKey⟩
  change : template.1.mwebAmountChange =
    (join template.1.mwebBuilder.stagedTxs).body.getSupplyChange
  fees : ∀ mwebTx ∈ template.1.mwebBuilder.stagedTxs, moneyRange mwebTx.body.getTotalFee = true
  unflagged : ∀ tx ∈ template.2, tx.isHogEx = false
  coinbases : ∀ tx ∈ template.2, (tx.isCoinBase && tx.vout.any isPegin) = false
  peginRange : ∀ tx ∈ template.2, ∀ txout ∈ tx.vout,
    isPegin txout = true → moneyRange txout.nValue = true
  pegoutRange : ∀ txout ∈ template.1.hogexOutputs,
    moneyRange txout.nValue = true ∧ isPegin txout = false

/-- The transaction that goes into the block, if one does. -/
def included (tx : CTransaction T) : List (CTransaction T) :=
  if tx.isMwebOnly = true then [] else [{ tx with mwebTx := none }]

theorem vout_of_isMwebOnly (only : tx.isMwebOnly = true) : tx.vout = [] := by
  simp only [CTransaction.isMwebOnly, Bool.and_eq_true, List.isEmpty_iff] at only
  exact only.2

theorem txOutPoints_included :
    (included tx).flatMap (txOutPoints crypto) = txOutPoints crypto tx := by
  unfold included
  split
  · rename_i only
    simp [txOutPoints, vout_of_isMwebOnly only]
  · rename_i canonical
    have sameHash : ({ tx with mwebTx := none } : CTransaction T).getHash crypto =
        tx.getHash crypto := by
      simp only [CTransaction.getHash, canonical]
      rfl
    simp [txOutPoints, sameHash]

theorem outputPegins_included :
    (included tx).flatMap (fun tx => (outputPegins tx.vout : List (PegInCoin T))) =
      outputPegins tx.vout := by
  unfold included
  split
  · rename_i only
    simp [vout_of_isMwebOnly only, outputPegins]
  · simp

theorem forall_mem_included {P : CTransaction T → Prop} (holds : P { tx with mwebTx := none }) :
    ∀ other ∈ included tx, P other := by
  unfold included
  split
  · exact forall_mem_nil _
  · exact forall_mem_singleton.mpr holds

section

variable (agrees : Agrees crypto state template) (sound : template.1.SoundTx crypto tx)
include agrees sound

/-- A transaction without extension data and without peg-ins changes nothing for the HogEx. -/
theorem Agrees.plain
    (detached : tx.mwebTx = none) : Agrees crypto state (template.1, template.2 ++ [tx]) := by
  have none_pegin := sound.plain detached
  refine
    { agrees with
      inputs := ?_, pegins := ?_
      unflagged := forall_mem_append.mpr ⟨agrees.unflagged,
        forall_mem_singleton.mpr sound.unflagged⟩
      coinbases := forall_mem_append.mpr ⟨agrees.coinbases, forall_mem_singleton.mpr sound.coinbase⟩
      peginRange := forall_mem_append.mpr ⟨agrees.peginRange,
        forall_mem_singleton.mpr sound.pegins⟩ }
  · have noPoints : txOutPoints crypto tx = [] := by
      rw [txOutPoints, map_eq_nil_iff, filter_eq_nil_iff]
      intro entry member
      obtain ⟨-, -, value⟩ := mem_zipIdx member
      rw [value, none_pegin _ (getElem_mem _)]
      exact Bool.false_ne_true
    rw [flatMap_append, flatMap_singleton, noPoints, append_nil]
    exact agrees.inputs
  · have noPegins : (outputPegins tx.vout : List (PegInCoin T)) = [] := by
      rw [outputPegins, filterMap_eq_nil_iff]
      intro txout member
      have absent := none_pegin txout member
      rw [isPegin, Option.isSome_eq_false_iff, Option.isNone_iff_eq_none] at absent
      rw [absent]
      rfl
    rw [flatMap_append, flatMap_singleton, noPegins, append_nil]
    exact agrees.pegins

theorem Agrees.adds (attached : tx.mwebTx = some mwebTx) {miner : Miner T}
    (adds : Adds crypto state template.1 tx mwebTx miner) :
    Agrees crypto state (miner, template.2 ++ included tx) := by
  have joined := congrArg join adds.stages.stagedTxs
  rw [join_append_singleton] at joined
  refine
    { well := agrees.well.stages (sound.staged mwebTx attached) adds.stages
      inputs := ?_, pegins := ?_, pegouts := ?_, change := ?_, fees := ?_
      unflagged := forall_mem_append.mpr ⟨agrees.unflagged, forall_mem_included sound.unflagged⟩
      coinbases := forall_mem_append.mpr ⟨agrees.coinbases, forall_mem_included sound.coinbase⟩
      peginRange := forall_mem_append.mpr ⟨agrees.peginRange, forall_mem_included sound.pegins⟩
      pegoutRange := ?_ }
  · rw [adds.inputs, agrees.inputs, flatMap_append, txOutPoints_included]
  · rw [flatMap_append, outputPegins_included, joined]
    simp only [getPegIns, filterMap_append]
    exact agrees.pegins.append adds.pegins
  · rw [adds.outputs, agrees.pegouts, joined]
    simp only [getPegOuts, flatMap_append, map_append]
  · rw [adds.change, agrees.change, joined]
    simp only [getSupplyChange, map_append, accumulate_append]
  · intro other member
    rw [adds.stages.stagedTxs, mem_append, mem_singleton] at member
    rcases member with before | rfl
    · exact agrees.fees other before
    · exact adds.fee
  · intro txout member
    rw [adds.outputs, mem_append] at member
    rcases member with before | own
    · exact agrees.pegoutRange txout before
    · obtain ⟨pegout, inside, rfl⟩ := mem_map.mp own
      obtain ⟨range, noPegin⟩ := sound.pegouts mwebTx attached pegout inside
      exact ⟨range, by rw [isPegin, noPegin]; rfl⟩

theorem Agrees.addToBlock :
    ∃ template', addToBlock crypto template tx = .ok template' ∧ Agrees crypto state template' ∧
      template'.1.mwebBuilder.height = template.1.mwebBuilder.height := by
  unfold Miner.addToBlock
  cases attached : tx.mwebTx with
  | none => exact ⟨_, rfl, agrees.plain sound attached, rfl⟩
  | some mwebTx =>
    obtain ⟨added, ran, adds⟩ := addMwebTransaction_spec attached agrees.well.view sound
    simp only [ran]
    cases added with
    | none => exact ⟨template, rfl, agrees, rfl⟩
    | some miner =>
      refine ⟨(miner, template.2 ++ included tx), ?_, agrees.adds sound attached (adds miner rfl),
        (adds miner rfl).stages.height⟩
      unfold included
      split <;> simp

end

variable (crypto) in
/-- Every transaction is sound for the miner it is offered to. -/
def SoundOffers : Miner T × List (CTransaction T) → List (CTransaction T) → Prop
  | _, [] => True
  | template, tx :: rest =>
    template.1.SoundTx crypto tx ∧
      ∀ template', addToBlock crypto template tx = .ok template' → SoundOffers template' rest

theorem Agrees.addAllToBlock (agrees : Agrees crypto state template) {txs : List (CTransaction T)}
    (sound : SoundOffers crypto template txs) :
    ∃ template', addAllToBlock crypto template txs = .ok template' ∧
      Agrees crypto state template' ∧
      template'.1.mwebBuilder.height = template.1.mwebBuilder.height := by
  induction txs generalizing template with
  | nil => exact ⟨template, rfl, agrees, rfl⟩
  | cons tx rest ih =>
    obtain ⟨first, later⟩ := sound
    obtain ⟨middle, ran, kept, height⟩ := agrees.addToBlock first
    obtain ⟨last, finished, agrees', height'⟩ := ih kept (later middle ran)
    refine ⟨last, ?_, agrees', height'.trans height⟩
    rw [Miner.addAllToBlock, ran]
    exact finished

theorem agrees_newBlock {coinsTip : ICoinsView T} (rep : Represents crypto.toCrypto coinsTip state)
    (nHeight : Nat) : ∃ miner, newBlock nHeight coinsTip = some miner ∧
      miner.mwebBuilder.height = nHeight ∧ Agrees crypto state (miner, []) := by
  obtain ⟨builder, created, height, staged, well⟩ := BlockBuilder.wellStaged_create rep nHeight
  refine ⟨⟨builder, [], [], 0⟩, by rw [newBlock, created]; rfl, height, ?_⟩
  exact {
    well := well
    inputs := rfl
    pegins := by rw [staged]; exact List.Perm.nil
    pegouts := by rw [staged]; rfl
    change := by rw [staged]; rfl
    fees := by rw [staged]; simp
    unflagged := by simp
    coinbases := by simp
    peginRange := by simp
    pegoutRange := by simp }

end Template

/-! ## What the checks compute from the block -/

section Checks

variable {crypto}

theorem matchPegins_append (before inputs : List (CTxIn T)) :
    matchPegins (before ++ inputs) before.length (inputs.map outPointOf) =
      .ok (before ++ inputs).length := by
  induction inputs generalizing before with
  | nil => simp [matchPegins]
  | cons txin rest ih =>
    have later := ih (before ++ [txin])
    rw [append_assoc, singleton_append, length_append, length_singleton] at later
    rw [map_cons, outPointOf, matchPegins, getElem?_append_right (le_refl _),
      Nat.sub_self, getElem?_cons_zero]
    simp only [and_self, ensure_of]
    exact later

theorem takePegOuts_of_perm {mwebPegouts hogexPegouts : List PegOutCoin}
    (same : mwebPegouts.Perm hogexPegouts) : takePegOuts mwebPegouts hogexPegouts = .ok () := by
  induction mwebPegouts generalizing hogexPegouts with
  | nil => rfl
  | cons pegout rest ih =>
    have member : pegout ∈ hogexPegouts := same.subset mem_cons_self
    rw [takePegOuts, if_pos member]
    refine ih ?_
    have erased := same.erase pegout
    rwa [erase_cons_head] at erased

variable {coins : List (PegInCoin T)}

theorem pegInAmounts_of_nodup (nodup : (coins.map kernelID).Nodup) :
    (pegInAmounts coins).entries.length = coins.length ∧
      (∀ id, id ∈ pegInAmounts coins ↔ id ∈ coins.map kernelID) ∧
      ∀ coin ∈ coins, (pegInAmounts coins).lookup coin.kernelID = some coin.amount := by
  induction coins using reverseRecOn with
  | nil => simp [pegInAmounts]
  | append_singleton coins coin ih =>
    rw [map_append, nodup_append] at nodup
    obtain ⟨before, -, apart⟩ := nodup
    obtain ⟨length, keys, amounts⟩ := ih before
    have fresh : coin.kernelID ∉ pegInAmounts coins := by
      rw [keys]
      exact fun inside => apart _ inside _ (mem_singleton.mpr rfl) rfl
    have grown : pegInAmounts (coins ++ [coin]) =
        (pegInAmounts coins).insert coin.kernelID coin.amount := by
      rw [pegInAmounts, foldl_append]
      exact if_neg fresh
    refine ⟨?_, ?_, ?_⟩
    · rw [grown, AList.entries_insert_of_notMem fresh, length_cons, length, length_append,
        length_singleton]
    · intro id
      rw [grown, AList.mem_insert, keys, map_append, mem_append, map_singleton, mem_singleton]
      exact or_comm
    · intro other member
      rw [grown]
      rcases mem_append.mp member with earlier | last
      · have different : other.kernelID ≠ coin.kernelID := fun same =>
          apart _ (mem_map_of_mem earlier) _ (mem_singleton.mpr rfl) same
        rw [AList.lookup_insert_ne different]
        exact amounts other earlier
      · rw [mem_singleton.mp last, AList.lookup_insert]

theorem validatePegInCoins_of_perm {block : Block T}
    (same : coins.Perm (block.body.getPegIns crypto.toCrypto))
    (nodup : (block.body.getKernelIDs crypto.toCrypto).Nodup) :
    validatePegInCoins crypto.toCrypto block coins = .ok () := by
  have ids : (coins.map kernelID).Nodup :=
    (same.map _).nodup_iff.mpr (nodup.sublist (peginIDs_sublist _ _))
  obtain ⟨length, -, amounts⟩ := pegInAmounts_of_nodup ids
  simp only [validatePegInCoins, bind_eq_ok, ensure_eq_ok, ensureAll_eq_ok]
  exact ⟨(), by rw [length, same.length_eq], fun pegin member =>
    amounts pegin (same.mem_iff.mpr member)⟩

theorem valueTotal_cons (txout : CTxOut) (rest : List CTxOut) :
    valueTotal (txout :: rest) = txout.nValue.toInt + valueTotal rest := sum_cons

end Checks

/-! ## The finished block -/

section Finished

variable {crypto} {state : ViewState crypto.toCrypto} {template : Miner T × List (CTransaction T)}
  {params : Params T} {chain : Chain T} {prevBlock : CBlock T} {header : CBlockHeader T}
  {coinbase hogEx : CTransaction T} {mwebBlock : Block T}

@[simp] theorem middleTxs_assembled (vtx : List (CTransaction T)) :
    middleTxs (assembled header coinbase vtx hogEx mwebBlock) = vtx := by
  have front : (coinbase :: vtx ++ [hogEx]).dropLast = coinbase :: vtx := dropLast_concat
  rw [middleTxs, assembled, front]
  rfl

variable (crypto) in
/-- The block before has no HogEx when the next one is to be the first, and nothing is locked;
otherwise the index holds the hash and the amount of its HogEx. -/
def Recorded (params : Params T) (chain : Chain T) (prevBlock : CBlock T) : Prop :=
  if isFirstHogEx params chain = true then
    prevBlock.getHogEx = none ∧ prevAmount chain = 0
  else ∃ hogEx hogAddr pegouts prev before, prevBlock.getHogEx = some hogEx ∧
    hogEx.vout = hogAddr :: pegouts ∧ chain = prev :: before ∧
    prev.hogexHash = hogEx.getHash crypto ∧ prev.mwebAmount = hogAddr.nValue

/-- The fees of the staged transactions, exactly. -/
def stagedFees : Int :=
  (miner.mwebBuilder.stagedTxs.map fun mwebTx => mwebTx.body.getTotalFee.toInt).sum

/-- The exact amounts stay within the money limit, and no more leaves than there is. -/
structure Affordable (chain : Chain T) (template : Miner T × List (CTransaction T)) : Prop where
  funded : (prevAmount chain).toInt +
    valueTotal (template.2.flatMap fun tx => tx.vout.filter isPegin) ≤ maxMoney.toInt
  covered : valueTotal template.1.hogexOutputs + template.1.stagedFees ≤
    (prevAmount chain).toInt +
      valueTotal (template.2.flatMap fun tx => tx.vout.filter isPegin)

theorem previousHogEx_of_recorded (recorded : Recorded crypto params chain prevBlock) :
    ∃ inputs, previousHogEx crypto prevBlock = .ok (inputs, prevAmount chain) ∧
      inputs.length = (if isFirstHogEx params chain then 0 else 1) ∧
      (isFirstHogEx params chain = false → ∀ hogEx : CTransaction T, ∀ rest,
        hogEx.vin = inputs ++ rest → checkHogExInput chain hogEx = .ok ()) := by
  unfold Recorded at recorded
  cases first : isFirstHogEx params chain with
  | true =>
    rw [first, if_pos rfl] at recorded
    refine ⟨[], ?_, rfl, fun absurd => nomatch absurd⟩
    simp only [previousHogEx, recorded.1, recorded.2]
  | false =>
    rw [first, if_neg Bool.false_ne_true] at recorded
    obtain ⟨prevHogEx, hogAddr, pegouts, prev, before, found, outputs, rfl, hash,
      amount⟩ := recorded
    refine ⟨[⟨⟨prevHogEx.getHash crypto, 0⟩, [], 0xffffffff, []⟩], ?_, rfl, ?_⟩
    · simp only [previousHogEx, found, outputs, prevAmount, amount]
    · intro _ hogEx rest inputs
      simp only [checkHogExInput, inputs, singleton_append, hash]
      exact ensure_of (by simp)

theorem Agrees.valueTotal_pegins (agrees : Agrees crypto state template) :
    valueTotal (template.2.flatMap fun tx => tx.vout.filter isPegin) =
      (join template.1.mwebBuilder.stagedTxs).body.peginTotal := by
  have amounts : (template.2.flatMap fun tx => tx.vout.filter isPegin).map CTxOut.nValue =
      (template.2.flatMap fun tx => (outputPegins tx.vout : List (PegInCoin T))).map amount := by
    rw [map_flatMap, map_flatMap]
    exact congrArg (flatMap · _) (funext fun tx => (outputPegins_amounts tx.vout).symm)
  calc valueTotal (template.2.flatMap fun tx => tx.vout.filter isPegin)
      = amountTotal ((template.2.flatMap fun tx => tx.vout.filter isPegin).map CTxOut.nValue) := by
        rw [valueTotal, amountTotal, map_map]
        rfl
    _ = amountTotal (((join template.1.mwebBuilder.stagedTxs).body.getPegIns crypto.toCrypto).map
          amount) := by
        rw [amounts]
        exact ((agrees.pegins.map _).map _).sum_eq
    _ = _ := (peginTotal_eq_getPegIns crypto.toCrypto _).symm

theorem Agrees.valueTotal_pegouts (agrees : Agrees crypto state template) :
    valueTotal template.1.hogexOutputs =
      (join template.1.mwebBuilder.stagedTxs).body.pegoutTotal := by
  rw [agrees.pegouts, valueTotal, pegoutTotal, map_map]
  rfl

theorem getTotalFee_join (transactions : List (Transaction T)) :
    (join transactions).body.getTotalFee =
      ofInt (transactions.map fun mwebTx => mwebTx.body.getTotalFee.toInt).sum := by
  induction transactions with
  | nil => rfl
  | cons mwebTx rest ih =>
    have split : (join (mwebTx :: rest)).body.getTotalFee =
        mwebTx.body.getTotalFee + (join rest).body.getTotalFee := by
      rw [join_cons]
      simp only [getTotalFee, map_append, accumulate_append]
    rw [split, ih, map_cons, sum_cons, ofInt_add, ofInt_toInt]

section

variable (agrees : Agrees crypto state template)
include agrees

/-- What is locked after the block, exactly. -/
theorem Agrees.locked (affordable : Affordable chain template) :
    (prevAmount chain + template.1.mwebAmountChange).toInt =
        (prevAmount chain).toInt +
          valueTotal (template.2.flatMap fun tx => tx.vout.filter isPegin) -
          valueTotal template.1.hogexOutputs - template.1.stagedFees ∧
      (join template.1.mwebBuilder.stagedTxs).body.getTotalFee.toInt = template.1.stagedFees ∧
      0 ≤ template.1.stagedFees ∧ 0 ≤ valueTotal template.1.hogexOutputs := by
  have feesNonneg : 0 ≤ template.1.stagedFees := by
    refine sum_nonneg fun value member => ?_
    obtain ⟨mwebTx, inside, rfl⟩ := mem_map.mp member
    exact ((moneyRange_iff _).mp (agrees.fees mwebTx inside)).1
  have pegoutsNonneg : 0 ≤ valueTotal template.1.hogexOutputs :=
    amountTotal_nValue template.1.hogexOutputs ▸ amountTotal_nonneg
      (forall_mem_map.mpr fun txout member => (agrees.pegoutRange txout member).1)
  have funded := affordable.funded
  have covered := affordable.covered
  rw [maxMoney_toInt] at funded
  refine ⟨?_, ?_, feesNonneg, pegoutsNonneg⟩
  · have change : template.1.mwebAmountChange = ofInt
        (valueTotal (template.2.flatMap fun tx => tx.vout.filter isPegin) -
          valueTotal template.1.hogexOutputs - template.1.stagedFees) := by
      rw [agrees.change, ← supplyChange_eq crypto.toCrypto, accumulate_eq, accumulate_eq,
        ← peginTotal_eq_getPegIns, ← pegoutTotal_eq, getTotalFee_join, ← ofInt_add,
        ← ofInt_sub, agrees.valueTotal_pegins, agrees.valueTotal_pegouts]
      congr 1
      rw [stagedFees]
      omega
    have total : prevAmount chain + template.1.mwebAmountChange = ofInt
        ((prevAmount chain).toInt +
          (valueTotal (template.2.flatMap fun tx => tx.vout.filter isPegin) -
            valueTotal template.1.hogexOutputs - template.1.stagedFees)) := by
      rw [change, ofInt_add, ofInt_toInt]
    rw [total, toInt_ofInt_of_le] <;> omega
  · rw [getTotalFee_join]
    exact toInt_ofInt_of_le (by unfold stagedFees at *; omega) (by unfold stagedFees at *; omega)

/-- The extension block that is built agrees with the peg-ins of the block and the peg-outs of the
HogEx. -/
theorem Agrees.validateBlock (valid : mwebBlock.validate crypto.toCrypto = .ok ())
    (body : mwebBlock.body = (aggregate crypto.toCrypto template.1.mwebBuilder.stagedTxs).body)
    {hogAddr : CTxOut} (outputs : hogEx.vout = hogAddr :: template.1.hogexOutputs) :
    validateBlock crypto.toCrypto mwebBlock
      (blockPegins (assembled header coinbase template.2 hogEx mwebBlock)) (hogexPegouts hogEx) =
        .ok () := by
  have alike := aggregate_alike crypto.toCrypto template.1.mwebBuilder.stagedTxs
  have pegins : (blockPegins (assembled header coinbase template.2 hogEx mwebBlock)).Perm
      (mwebBlock.body.getPegIns crypto.toCrypto) := by
    rw [blockPegins, middleTxs_assembled, body]
    exact agrees.pegins.trans (alike.kernels.filterMap _).symm
  have nodup : (mwebBlock.body.getKernelIDs crypto.toCrypto).Nodup := by
    rw [body]
    exact (alike.kernels.map _).nodup_iff.mpr agrees.well.apart.kernels
  have pegouts : mwebBlock.body.getPegOuts.Perm (hogexPegouts hogEx) := by
    have joined : hogexPegouts hogEx = (join template.1.mwebBuilder.stagedTxs).body.getPegOuts := by
      rw [hogexPegouts, outputs, drop_one, tail_cons, agrees.pegouts, map_map]
      exact map_id _
    rw [joined, body]
    exact alike.kernels.flatMap_right _
  simp only [Mweb.validateBlock, validatePegOutCoins, bind_eq_ok, ensure_eq_ok]
  exact ⟨(), valid, (), validatePegInCoins_of_perm pegins nodup, (), pegouts.length_eq,
    takePegOuts_of_perm pegouts⟩

/-- The amounts of the HogEx that is built are those the checks compute. -/
theorem Agrees.checkHogExAmounts (affordable : Affordable chain template)
    (body : mwebBlock.body = (aggregate crypto.toCrypto template.1.mwebBuilder.stagedTxs).body)
    {hogAddr : CTxOut} (outputs : hogEx.vout = hogAddr :: template.1.hogexOutputs)
    (value : hogAddr.nValue = prevAmount chain + template.1.mwebAmountChange) :
    moneyRange hogAddr.nValue = true ∧
      checkHogExAmounts chain (assembled header coinbase template.2 hogEx mwebBlock) hogEx
        mwebBlock = .ok () := by
  have alike := aggregate_alike crypto.toCrypto template.1.mwebBuilder.stagedTxs
  obtain ⟨locked, fees, feesNonneg, pegoutsNonneg⟩ := agrees.locked affordable
  have funded := affordable.funded
  have covered := affordable.covered
  rw [maxMoney_toInt] at funded
  have ownRange : moneyRange hogAddr.nValue = true := by
    rw [moneyRange_iff, value, locked]
    omega
  have peginRanges : ∀ txout ∈ template.2.flatMap fun tx => tx.vout.filter isPegin,
      moneyRange txout.nValue = true := by
    intro txout member
    obtain ⟨tx, inside, own⟩ := mem_flatMap.mp member
    rw [mem_filter] at own
    exact agrees.peginRange tx inside txout own.1 own.2
  obtain ⟨inputAmount, added⟩ : ∃ total, hogexInputAmount (prevAmount chain) _ = .ok total :=
    ⟨_, (hogexInputAmount_eq_ok (prevAmount_range chain)).mpr
      ⟨staysInRange_of_le (prevAmount_range chain) peginRanges affordable.funded, rfl⟩⟩
  obtain ⟨-, inputExact⟩ := hogexInputAmount_exact (prevAmount_range chain) added
  have outRanges : ∀ txout ∈ hogEx.vout, moneyRange txout.nValue = true := by
    rw [outputs]
    exact forall_mem_cons.mpr
      ⟨ownRange, fun txout member => (agrees.pegoutRange txout member).1⟩
  have outTotal : valueTotal hogEx.vout = hogAddr.nValue.toInt +
      valueTotal template.1.hogexOutputs := by
    rw [outputs, valueTotal_cons]
  have outBound : (0 : CAmount).toInt + valueTotal hogEx.vout ≤ maxMoney.toInt := by
    rw [outTotal, value, locked, toInt_zero, maxMoney_toInt]
    omega
  obtain ⟨valueOut, paid⟩ : ∃ total, hogEx.getValueOut = some total :=
    ⟨_, (valueOutLoop_eq_some moneyRange_zero).mpr
      ⟨outRanges, staysInRange_of_le moneyRange_zero outRanges outBound, rfl⟩⟩
  obtain ⟨-, outExact, -⟩ := valueOutLoop_exact moneyRange_zero paid
  rw [outTotal, value, locked, toInt_zero] at outExact
  have difference : (inputAmount - valueOut).toInt = template.1.stagedFees := by
    rw [toInt_sub, inputExact, outExact, Int.bmod_eq_of_le] <;> omega
  have sameFee : mwebBlock.body.getTotalFee =
      (join template.1.mwebBuilder.stagedTxs).body.getTotalFee := by
    rw [body]
    exact accumulate_perm (alike.kernels.map _)
  refine ⟨ownRange, ?_⟩
  simp only [Node.checkHogExAmounts, peginOutputs, middleTxs_assembled, added, paid, outputs,
    bind_eq_ok, Except.ok.injEq, exists_eq_left', ensure_eq_ok]
  refine ⟨(), ⟨?_, ?_⟩, ?_⟩
  · rw [moneyRange_iff, difference]
    omega
  · rw [← toInt_inj, difference, sameFee, fees]
  · rw [value, agrees.change, body, alike.getSupplyChange]

theorem Agrees.addHogExTransaction
    (enabled : params.mwebEnabled chain = true) (readable : crypto.ReadableHeaderHash)
    (height : template.1.mwebBuilder.height = chain.nextHeight)
    (recorded : Recorded crypto params chain prevBlock)
    (unflagged : coinbase.isHogEx = false) (noPegin : coinbase.vout.any isPegin = false)
    (affordable : Affordable chain template)
    (keys : KeySums crypto.toCrypto (join template.1.mwebBuilder.stagedTxs).stealthOffset
      (join template.1.mwebBuilder.stagedTxs).body) :
    ∃ hogEx mwebBlock, template.1.addHogExTransaction crypto prevBlock = .ok (hogEx, mwebBlock) ∧
      Node.contextualCheckBlock crypto params chain
        (assembled header coinbase template.2 hogEx mwebBlock) = .ok () ∧
      Node.checkConnect params chain (assembled header coinbase template.2 hogEx mwebBlock) hogEx
        mwebBlock := by
  obtain ⟨inputs, previous, count, spends⟩ := previousHogEx_of_recorded recorded
  obtain ⟨mwebBlock, built, valid, body, atHeight, -⟩ := agrees.well.buildBlock keys
  obtain ⟨size, readBack⟩ := readable mwebBlock.header
  let hogAddr : CTxOut := {
    nValue := prevAmount chain + template.1.mwebAmountChange
    scriptPubKey := CScript.hogAddrScript (T.hashBytes (crypto.hashHeader mwebBlock.header)) }
  let hogEx : CTransaction T := {
    vin := inputs ++ template.1.hogexInputs
    vout := hogAddr :: template.1.hogexOutputs
    nVersion := 2
    nLockTime := 0
    mwebTx := none
    hogEx := true }
  have outputs : hogEx.vout = hogAddr :: template.1.hogexOutputs := rfl
  obtain ⟨range, amounts⟩ := @Agrees.checkHogExAmounts _ _ _ _ _ header coinbase _ _
    agrees affordable
    body _ outputs rfl
  refine ⟨hogEx, mwebBlock, ?_, ?_, ?_, amounts⟩
  · simp only [Miner.addHogExTransaction, previous, built, bind, Except.bind]
    rw [ensure_of range]
  · refine (Node.contextualCheckBlock_eq_ok rfl).mpr ⟨enabled, hogEx, ?_⟩
    have noPegouts : hogEx.vout.any isPegin = false := by
      rw [outputs, any_cons, Bool.or_eq_false_iff, any_eq_false]
      refine ⟨?_, fun txout member => by simp [(agrees.pegoutRange txout member).2]⟩
      rw [isPegin, CScript.isMwebPegin_hogAddrScript size]
      rfl
    refine {
      last := by rw [assembled, getLast?_concat]
      noPegins := ?_
      flagged := rfl
      unflagged := ?_
      committed := ⟨hogAddr, _, _, rfl, CScript.isMwebHogAddr_hogAddrScript size, readBack⟩
      height := by rw [atHeight, height]
      pegins := ?_
      validated := agrees.validateBlock valid body outputs }
    · intro tx member
      rw [assembled, cons_append, mem_cons, mem_append, mem_singleton] at member
      rcases member with rfl | inside | rfl
      · rw [noPegin, Bool.and_false]
      · rw [agrees.unflagged tx inside, Bool.or_false]
        exact agrees.coinbases tx inside
      · rw [noPegouts, Bool.and_false]
    · intro tx member
      have front : (assembled header coinbase template.2 hogEx mwebBlock).vtx.dropLast =
          coinbase :: template.2 := dropLast_concat
      rw [front, mem_cons] at member
      rcases member with rfl | inside
      · exact unflagged
      · exact agrees.unflagged tx inside
    · have points : peginOutPoints crypto (assembled header coinbase template.2 hogEx mwebBlock) =
          template.1.hogexInputs.map outPointOf := by
        rw [peginOutPoints, middleTxs_assembled, agrees.inputs]
        rfl
      rw [points, ← count]
      exact matchPegins_append inputs template.1.hogexInputs
  · intro later
    exact spends later hogEx template.1.hogexInputs rfl

end

/-- The block of a template passes the checks of the extension block with the headers before it,
and the checks of inputs, fee and amounts when it is connected. -/
theorem template_checked {coinsTip : ICoinsView T} (rep : Represents crypto.toCrypto coinsTip state)
    (enabled : params.mwebEnabled chain = true) (readable : crypto.ReadableHeaderHash)
    (recorded : Recorded crypto params chain prevBlock)
    (unflagged : coinbase.isHogEx = false) (noPegin : coinbase.vout.any isPegin = false)
    {miner : Miner T} (created : newBlock chain.nextHeight coinsTip = some miner)
    {txs : List (CTransaction T)} (sound : SoundOffers crypto (miner, []) txs) :
    ∃ template, addAllToBlock crypto (miner, []) txs = .ok template ∧
      (Affordable chain template →
        KeySums crypto.toCrypto (join template.1.mwebBuilder.stagedTxs).stealthOffset
          (join template.1.mwebBuilder.stagedTxs).body →
        ∃ hogEx mwebBlock, template.1.addHogExTransaction crypto prevBlock =
          .ok (hogEx, mwebBlock) ∧
          Node.contextualCheckBlock crypto params chain
            (assembled header coinbase template.2 hogEx mwebBlock) = .ok () ∧
          Node.checkConnect params chain
            (assembled header coinbase template.2 hogEx mwebBlock) hogEx
            mwebBlock) := by
  obtain ⟨miner', same, startHeight, start⟩ := agrees_newBlock rep chain.nextHeight
  rw [created, Option.some.injEq] at same
  subst same
  obtain ⟨template, ran, agrees, height⟩ := start.addAllToBlock sound
  exact ⟨template, ran, agrees.addHogExTransaction enabled readable
    (height.trans startHeight) recorded unflagged noPegin⟩

end Finished

end Miner

end MooncoinFormal.Mweb

namespace MooncoinFormal.Primitives.Numeric

open Mweb

/-- A transaction that pegs in 20 with the given extension transaction. -/
def attachedTx (mwebTx : Transaction types) (kernel : Kernel types) : CTransaction types :=
  { peginTx 20 kernel with mwebTx := some mwebTx }

def honestOffer : CTransaction types := attachedTx honestTx (peginKernel 20 (5, 0))

/-- A kernel that pegs in 20 and pegs out 5, to a peg-in script. -/
def returningKernel : Kernel types :=
  let unsigned : Kernel types :=
    { peginKernel 20 (5, 0) with
      features := 6
      pegouts := [⟨5, CScript.peginScript (types.hashBytes (0 : Nat))⟩]
      fee_iff := by decide
      pegin_iff := by decide
      pegouts_of := fun _ => by decide
      lockHeight_iff := by decide
      stealthExcess_iff := by decide
      extraData_of := absurd rfl }
  { unsigned with signature := sign (5, 0) (crypto.kernelMessage unsigned) }

def returningTx : Transaction types where
  kernelOffset := (0 : Int)
  stealthOffset := (2 : Int)
  body := ⟨[], [plainOutput (5, 15) (2, 0) (4, 0)], [returningKernel]⟩

def returningOffer : CTransaction types := attachedTx returningTx returningKernel

/-- The miner on the view without extension blocks. -/
def emptyMiner : Miner types := ⟨emptyBuilder, [], [], 0⟩

/-- The block of the genesis entry, as it is read from the disk. -/
def genesisBlock : CBlock types := ⟨⟨1, (0 : Nat), (0 : Nat), 0, 0, 0⟩, [coinbaseTx], none⟩

theorem honestOffer_sound : emptyMiner.SoundTx crypto honestOffer where
  unflagged := rfl
  coinbase := by decide +kernel
  plain absent := nomatch absent
  numOutputs := by decide
  pegins := by decide +kernel
  staged mwebTx attached := by
    cases attached
    exact honestTx_sound
  pegouts mwebTx attached := by
    cases attached
    exact fun pegout member => nomatch member

/-- The block with the honest transaction is built and passes the checks. -/
theorem honestOffer_mined :
    ∃ template hogEx mwebBlock, Miner.addAllToBlock crypto (emptyMiner, [])
      [honestOffer] = .ok template ∧
      template.1.mwebBuilder.stagedTxs = [honestTx] ∧
      template.1.addHogExTransaction crypto genesisBlock = .ok (hogEx, mwebBlock) ∧
      Node.contextualCheckBlock crypto params genesis
        (Miner.assembled genesisBlock.header coinbaseTx template.2 hogEx mwebBlock) = .ok () ∧
      Node.checkConnect params genesis
        (Miner.assembled genesisBlock.header coinbaseTx template.2 hogEx mwebBlock) hogEx
          mwebBlock := by
  have recorded : Miner.Recorded crypto params genesis genesisBlock := ⟨rfl, rfl⟩
  obtain ⟨template, ran, checked⟩ := @Miner.template_checked types crypto _ params
    genesis genesisBlock
    genesisBlock.header coinbaseTx emptyView (empty_represents mweb) rfl crypto_readableHeaderHash
    recorded rfl (by decide) emptyMiner rfl [honestOffer] ⟨honestOffer_sound, fun _ _ => trivial⟩
  have parts : (Miner.addAllToBlock crypto (emptyMiner, []) [honestOffer]).toOption.map
      (fun template => (template.2, template.1.hogexOutputs, template.1.mwebBuilder.stagedTxs)) =
      some ([{ honestOffer with mwebTx := none }], [], [honestTx]) := by decide +kernel
  rw [ran] at parts
  simp only [Except.toOption, Option.map_some, Option.some.injEq, Prod.mk.injEq] at parts
  obtain ⟨vtx, outputs, staged⟩ := parts
  have affordable : Miner.Affordable genesis template := by
    refine ⟨?_, ?_⟩ <;> simp only [vtx, outputs, Miner.stagedFees, staged] <;> decide +kernel
  obtain ⟨hogEx, mwebBlock, built, passes⟩ :=
    checked affordable (by rw [staged]; exact honestTx_keySums)
  exact ⟨template, hogEx, mwebBlock, ran, staged, built, passes⟩

/-- What the miner makes of one transaction, with the outcome of the checks. -/
def minedChecks (tx : CTransaction types) : MwResult (Validation.Checked Unit) := do
  let template ← Miner.addAllToBlock crypto (emptyMiner, []) [tx]
  let (hogEx, mwebBlock) ← template.1.addHogExTransaction crypto genesisBlock
  .ok (Node.contextualCheckBlock crypto params genesis
    (Miner.assembled genesisBlock.header coinbaseTx template.2 hogEx mwebBlock))

/-- A valid transaction that pegs out to a peg-in script is accepted, and the block fails the
check of the outputs of its HogEx. -/
theorem returningOffer_mined :
    returningTx.validate mweb = .ok () ∧ minedChecks returningOffer =
      .ok (.error ⟨.consensus, "bad-tx-unexpected-pegin", "Pegin found in coinbase or HogEx"⟩) :=
  ⟨by decide +kernel, by decide +kernel⟩

end MooncoinFormal.Primitives.Numeric
