import MooncoinFormal.Validation.CoinBinding

/-!
# Every coin is spent once

Over a connected block that re-creates no unspent outpoint, an outpoint is spent as
often as it was there before or is created, less one if it is there afterwards. The
count is kept by every transaction and so by the whole block.
-/

namespace MooncoinFormal.Coins

open Primitives List

variable {T : CryptoTypes}

/-- One if the view has a coin at the outpoint. -/
def CCoinsViewCache.present (view : CCoinsViewCache T) (outpoint : COutPoint T) : Nat :=
  if (view.getCoin outpoint).isSome then 1 else 0

variable {outpoint : COutPoint T} {view : CCoinsViewCache T}

theorem CCoinsViewCache.present_eq_zero :
    view.present outpoint = 0 ↔ view.getCoin outpoint = none := by
  unfold CCoinsViewCache.present
  cases view.getCoin outpoint <;> simp

theorem CCoinsViewCache.present_eq_one :
    view.present outpoint = 1 ↔ ∃ coin, view.getCoin outpoint = some coin := by
  unfold CCoinsViewCache.present
  cases view.getCoin outpoint <;> simp

variable {txid : T.Hash} {i : Nat} {vout : List CTxOut}

theorem exists_of_mem_createdFrom (member : outpoint ∈ createdFrom txid i vout) :
    ∃ n txout, vout[n]? = some txout ∧ txout.scriptPubKey.isUnspendable = false ∧
      outpoint = ⟨txid, UInt32.ofNat (i + n)⟩ := by
  induction vout generalizing i with
  | nil => cases member
  | cons first rest ih =>
    have cases : (first.scriptPubKey.isUnspendable = false ∧ outpoint = ⟨txid, UInt32.ofNat i⟩) ∨
        outpoint ∈ createdFrom txid (i + 1) rest := by
      rw [createdFrom] at member
      split at member
      · exact .inr member
      · rename_i spendable
        exact (mem_cons.mp member).imp_left fun here => ⟨Bool.eq_false_iff.mpr spendable, here⟩
    obtain ⟨spendable, rfl⟩ | later := cases
    · exact ⟨0, first, rfl, spendable, rfl⟩
    · obtain ⟨n, txout, at_, spendable, rfl⟩ := ih later
      exact ⟨n + 1, txout, at_, spendable, by rw [add_right_comm, add_assoc]⟩

theorem nodup_createdFrom (fits : i + vout.length ≤ 2 ^ 32) : (createdFrom txid i vout).Nodup := by
  induction vout generalizing i with
  | nil => exact nodup_nil
  | cons txout rest ih =>
    rw [length_cons] at fits
    have tail := @ih (i + 1) (by omega)
    rw [createdFrom]
    split
    · exact tail
    · exact nodup_cons.mpr ⟨index_not_mem_createdFrom (Nat.lt_succ_self i) (by omega), tail⟩

end MooncoinFormal.Coins

namespace MooncoinFormal.Validation

open Primitives Coins List CCoinsViewCache

variable {T : CryptoTypes}

/-- The outpoints that the transactions create, in the order of the block. -/
def createdIn (crypto : BlockCrypto T) (vtx : List (CTransaction T)) : List (COutPoint T) :=
  vtx.flatMap (createdOutPoints crypto)

/-- The outpoints that the transactions spend, in the order of the block. -/
def spentIn (vtx : List (CTransaction T)) : List (COutPoint T) := vtx.flatMap spentOutPoints

section Conservation

variable {connection : Connection T} {progress progress' : Progress T} {tx : CTransaction T}
  {vtx : List (CTransaction T)} {outpoint : COutPoint T}

theorem nodup_createdOutPoints {crypto : BlockCrypto T}
    (few : tx.vout.length ≤ CBlock.maxBlockWeight) : (createdOutPoints crypto tx).Nodup := by
  refine nodup_createdFrom ?_
  unfold CBlock.maxBlockWeight at few
  omega

theorem present_of_created (plain : tx.mwebTx = none) (few : tx.vout.length ≤ CBlock.maxBlockWeight)
    {vprevout : List Coin} (connected : connection.connectTx progress tx =
      .ok (vprevout, progress'))
    (created : outpoint ∈ createdOutPoints connection.crypto tx) :
    progress'.view.present outpoint = 1 := by
  obtain ⟨n, txout, at_, spendable, rfl⟩ := exists_of_mem_createdFrom created
  obtain ⟨entry, cached, isCoin⟩ := entry_of_connectTx plain few connected at_ spendable
  rw [zero_add, present_eq_one, getCoin_of_entry cached]
  exact ⟨_, isCoin⟩

theorem conserves_connectTx (outpoint : COutPoint T)
    (updates : CCoinsViewCache.Updates connection.crypto tx connection.chain.nextHeight
      progress.view progress'.view)
    (known : ∀ outpoint ∈ spentOutPoints tx, ∃ coin, progress.view.getCoin outpoint = some coin)
    (fresh : ∀ outpoint ∈ createdOutPoints connection.crypto tx, outpoint ∉ spentOutPoints tx →
      progress.view.getCoin outpoint = none)
    (present : ∀ outpoint ∈ createdOutPoints connection.crypto tx,
      progress'.view.present outpoint = 1)
    (spentOnce : (spentOutPoints tx).Nodup)
    (createdOnce : (createdOutPoints connection.crypto tx).Nodup) :
    progress.view.present outpoint + (createdOutPoints connection.crypto tx).count outpoint =
      (spentOutPoints tx).count outpoint + progress'.view.present outpoint := by
  have before : outpoint ∈ spentOutPoints tx → progress.view.present outpoint = 1 :=
    fun spent => present_eq_one.mpr (known outpoint spent)
  by_cases created : outpoint ∈ createdOutPoints connection.crypto tx
  · rw [count_eq_one_of_mem createdOnce created, present outpoint created]
    by_cases spent : outpoint ∈ spentOutPoints tx
    · rw [before spent, count_eq_one_of_mem spentOnce spent]
    · rw [present_eq_zero.mpr (fresh outpoint created spent), count_eq_zero_of_not_mem spent]
  · have after := updates.map outpoint created
    rw [count_eq_zero_of_not_mem created]
    by_cases spent : outpoint ∈ spentOutPoints tx
    · rw [if_pos spent] at after
      rw [before spent, count_eq_one_of_mem spentOnce spent, present_eq_zero.mpr after]
    · rw [if_neg spent] at after
      rw [count_eq_zero_of_not_mem spent, CCoinsViewCache.present, CCoinsViewCache.present, after]
      omega

theorem conserves_connectTxs (outpoint : COutPoint T) (coherent : progress.view.Coherent)
    (height : BitVec.ofNat 31 connection.chain.nextHeight ≠ 0)
    (regular : Regular connection progress.view vtx)
    (few : ∀ tx ∈ vtx, tx.vout.length ≤ CBlock.maxBlockWeight) {vtxundo : List (List Coin)}
    (connected : connection.connectTxs progress vtx = .ok (vtxundo, progress')) :
    progress.view.present outpoint + (createdIn connection.crypto vtx).count outpoint =
      (spentIn vtx).count outpoint + progress'.view.present outpoint := by
  induction vtx generalizing progress vtxundo with
  | nil =>
    cases connected
    exact add_comm _ _
  | cons tx rest ih =>
    obtain ⟨vprevout, middle, later, first, run, -⟩ := Connection.connectTxs_cons.mp connected
    obtain ⟨-, known, updates, regularRest⟩ := connectTx_applied coherent height regular first
    have notCoinbase := regular.regular tx mem_cons_self
    rw [forall_mem_cons] at few
    have here := conserves_connectTx outpoint updates
      (fun spent member => (known spent member).imp fun _ => And.left) (updates.fresh notCoinbase)
      (fun _ created => present_of_created (regular.plain tx mem_cons_self) few.1 first created)
      (by simpa [spentOutPoints, notCoinbase] using regular.nodup tx mem_cons_self)
      (nodup_createdOutPoints few.1)
    have there := ih updates.follows.coherent regularRest few.2 run
    simp only [createdIn, spentIn, flatMap_cons, count_append] at there ⊢
    omega

theorem conserves_connectBlock {view view' : CCoinsViewCache T} {block : CBlock T}
    {undo : CBlockUndo T}
    (outpoint : COutPoint T) (coherent : view.Coherent) (fresh : NoDuplicates connection view block)
    (connected : connection.connectBlock view block = .ok (some undo, view')) :
    view.present outpoint + (createdIn connection.crypto block.vtx).count outpoint =
      (spentIn block.vtx).count outpoint + view'.present outpoint := by
  obtain ⟨checked, -, -, result⟩ := Connection.connectBlock_eq_ok.mp connected
  obtain ⟨coinbase, rest, first, progress, parts⟩ := connectBlock_coins coherent fresh connected
  obtain ⟨vprevout, step⟩ := parts.coinbaseTx
  have height := nextHeight_ne_zero connection fun none => by
    simp [Connection.connectFrom, none] at result
  have few : ∀ tx ∈ block.vtx, tx.vout.length ≤ CBlock.maxBlockWeight :=
    fun tx member => (lengths_of_checkTransaction _ _ (checked.txs tx member)).2
  have plain : ∀ tx ∈ block.vtx, tx.mwebTx = none := checked.plain
  have absent : ∀ tx ∈ block.vtx, ∀ outpoint ∈ createdOutPoints connection.crypto tx,
      view.getCoin outpoint = none := fresh
  rw [parts.vtx, forall_mem_cons] at few plain absent
  have nothing : spentOutPoints coinbase = [] := by simp [spentOutPoints, parts.isCoinBase]
  have here := @conserves_connectTx _ connection ⟨view, 0, 0⟩ first coinbase outpoint parts.updates
    (by rw [nothing]; rintro _ ⟨⟩) (fun outpoint created _ => absent.1 outpoint created)
    (fun _ created => present_of_created plain.1 few.1 step created)
    (by rw [nothing]; exact nodup_nil) (nodup_createdOutPoints few.1)
  have there := conserves_connectTxs outpoint parts.updates.follows.coherent height parts.regular
    few.2 parts.txs
  have after : view'.present outpoint = progress.view.present outpoint := by
    rw [present, present, parts.coins]
  simp only [parts.vtx, createdIn, spentIn, flatMap_cons, count_append] at there ⊢
  simp only at here
  omega

end Conservation

end MooncoinFormal.Validation
